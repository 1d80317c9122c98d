import BeeC.Auth
import BeeC.ObjectVerify
import BeeC.RequestLayout
import BeeC.Wire.Run

/-!
The numbers that `beer_request_compile` returns, on a stream that is also used by the functions that
send a request at once. Only the compilation starts over below the largest signed number.
-/

namespace BeeC

open BeeC.Wire
open BeeC.Wire.Memory
open BeeC.Wire.Loop
open BeeC.Wire.Gather
open BeeC.Wire.MessagePack
open BeeC.Wire.Run

variable {mp : Msgpuck} {crypt : Crypt} {σ : Type}

/-- A call that sends a request at once. -/
inductive DirectBuilder where
  | ping
  | guarded (call : GuardedCall)
  | auth (user : Option Bytes) (ulen : Int32) (pass : Bytes) (plen : Int32) (base64Salt : Bytes)

def DirectBuilder.run (mp : Msgpuck) (crypt : Crypt) (garbage : Nat → UInt8) (s : Stream σ) :
    DirectBuilder → Except Fault (Ssize × Stream σ)
  | ping => beerPing mp garbage s
  | guarded call => call.run mp garbage s
  | auth user ulen pass plen base64Salt =>
      beerAuthRaw mp crypt garbage s user ulen pass plen base64Salt

/-- A call on a stream: one that sends a request at once, or the compilation of a request. The
arrays of each are uninitialised in their own way. -/
inductive StreamCall where
  | direct (garbage : Nat → UInt8) (builder : DirectBuilder)
  | compile (garbage : Nat → UInt8) (req : Request) (hsized : req.Sized)

def StreamCall.step (mp : Msgpuck) (crypt : Crypt) (s : Stream σ) :
    StreamCall → Except Fault (Stream σ)
  | direct garbage builder => (builder.run mp crypt garbage s).map Prod.snd
  | compile garbage req _ => (beerRequestCompile mp garbage s req).map fun result => result.2.1

/-- One frame has been handed to the stream, and its header has the number. -/
def HandedAs (s s' : Stream σ) (number : Nat) : Prop :=
  ∃ (v : List Bytes) (payload rest : Bytes) (header : List (Bytes × Bytes)) (code : Nat),
    s'.handed = s.handed ++ [v] ∧ Framed v.flatten payload ∧
      mapOf payload = some (header, rest) ∧ headerOfPairs header = some (code, number)

/-- The request has a key that its type has not, or the stream does not take the frame. -/
def CompileFails (mp : Msgpuck) (garbage : Nat → UInt8) (s : Stream σ) (req : Request) : Prop :=
  req.Refused ∨ ∃ header v,
    Request.iovecs mp garbage { req with sync := requestNumber s (some int64Max) } =
        .ok (some (header, v)) ∧
      (s.writev (v.map (Part.bytes header)) s.io).1 = -1

/-- The compilation returns `-1` exactly if it fails. Otherwise the result is not negative, and the
number of the frame. -/
def StreamCall.Distinguishable (mp : Msgpuck) (s : Stream σ) : StreamCall → Prop
  | direct _ _ => True
  | compile garbage req _ => ∃ (rv : Int64) (s' : Stream σ) (req' : Request),
      beerRequestCompile mp garbage s req = .ok (rv, s', req') ∧
        (rv = -1 ↔ CompileFails mp garbage s req) ∧
        (¬CompileFails mp garbage s req → 0 ≤ rv ∧ HandedAs s s' rv.toInt.toNat)

/-- No compilation that goes through takes a number above the largest signed one. The largest
unsigned number is none that it would take. -/
def StreamCall.InRange (mp : Msgpuck) (s : Stream σ) : StreamCall → Prop
  | direct _ _ => True
  | compile garbage req _ =>
      CompileFails mp garbage s req ∨ s.reqid ≤ int64Max ∨ s.reqid = 0xffffffffffffffff

/-- No call that sends at once takes the largest signed number. -/
def StreamCall.StaysBelow (mp : Msgpuck) (crypt : Crypt) (s : Stream σ) : StreamCall → Prop
  | direct garbage builder => ∀ rv s', builder.run mp crypt garbage s = .ok (rv, s') →
      s.reqid = int64Max → s'.reqid = int64Max
  | compile _ _ _ => True

section Numbers

theorem toInt64_toInt (n : UInt64) :
    n.toInt64.toInt = if n ≤ int64Max then (n.toNat : Int) else (n.toNat : Int) - 2 ^ 64 := by
  have hsigned : n.toInt64.toInt = n.toBitVec.toInt := rfl
  have hle : n ≤ int64Max ↔ n.toNat ≤ 2 ^ 63 - 1 := UInt64.le_iff_toNat_le
  simp only [hsigned, BitVec.toInt_eq_toNat_cond, UInt64.toNat_toBitVec, hle]
  split <;> split <;> first | rfl | omega

theorem toInt64_nonneg_iff (n : UInt64) : 0 ≤ n.toInt64 ↔ n ≤ int64Max := by
  have hlt := n.toNat_lt
  rw [Int64.le_iff_toInt_le, toInt64_toInt]
  show (0 : Int) ≤ _ ↔ _
  split <;> rename_i hle
  · exact iff_of_true (Int.natCast_nonneg _) hle
  · refine iff_of_false (fun h => ?_) hle
    omega

/-- Both numbers of which all lower bits are set are passed over. -/
theorem requestNumber_eq (s : Stream σ) : requestNumber s (some int64Max) =
    if s.reqid = int64Max ∨ s.reqid = 0xffffffffffffffff then 0 else s.reqid := by
  have hmask : (s.reqid &&& int64Max).toNat = s.reqid.toNat % 2 ^ 63 := by
    rw [UInt64.toNat_and]
    exact Nat.and_two_pow_sub_one_eq_mod _ 63
  have hiff : s.reqid &&& int64Max = int64Max ↔
      s.reqid = int64Max ∨ s.reqid = 0xffffffffffffffff := by
    have hlt := s.reqid.toNat_lt
    rw [← UInt64.toNat_inj, ← UInt64.toNat_inj, ← UInt64.toNat_inj, hmask]
    show s.reqid.toNat % 2 ^ 63 = 0x7fffffffffffffff ↔
      s.reqid.toNat = 0x7fffffffffffffff ∨ s.reqid.toNat = 0xffffffffffffffff
    omega
  simp only [requestNumber, true_and, hiff]

theorem requestNumber_le_iff (s : Stream σ) : requestNumber s (some int64Max) ≤ int64Max ↔
    s.reqid ≤ int64Max ∨ s.reqid = 0xffffffffffffffff := by
  rw [requestNumber_eq]
  split <;> rename_i h
  · refine iff_of_true (by decide) ?_
    rcases h with h | h
    · exact .inl (h ▸ UInt64.le_refl _)
    · exact .inr h
  · exact ⟨.inl, fun hle => hle.resolve_right fun hmost => h (.inr hmost)⟩

theorem requestNumber_ne (s : Stream σ) : requestNumber s (some int64Max) ≠ int64Max ∧
    (requestNumber s (some int64Max)).toInt64 ≠ -1 := by
  rw [requestNumber_eq]
  split <;> rename_i h
  · exact ⟨by decide, by decide⟩
  · rw [not_or] at h
    refine ⟨h.1, fun hnegative => h.2 ?_⟩
    rw [← UInt64.toUInt64_toInt64 s.reqid, hnegative]
    rfl

end Numbers

/-- Where the call is defined, it has left the stream alone or taken one number. -/
def TakesOne (run : Except Fault (Ssize × Stream σ)) (s : Stream σ) : Prop :=
  ∀ rv s', run = .ok (rv, s') → s' = s ∨ s'.reqid = s.reqid + 1

namespace TakesOne

variable {s : Stream σ} {α : Type}

theorem self (rv : Ssize) : TakesOne (pure (rv, s)) s := by
  rintro rv' s' h
  cases h
  exact .inl rfl

theorem bind {x : Except Fault α} {f : α → Except Fault (Ssize × Stream σ)}
    (h : ∀ a, TakesOne (f a) s) : TakesOne (x >>= f) s := by
  intro rv s' hrun
  obtain ⟨a, -, hrest⟩ := bind_eq_ok.mp hrun
  exact h a rv s' hrest

theorem refuse {when : Prop} [Decidable when] {run : Except Fault (Ssize × Stream σ)}
    (h : TakesOne run s) : TakesOne (if when then pure (-1, s) else run) s := by
  split
  · exact self _
  · exact h

theorem send (garbage : Nat → UInt8) (v : List Bytes) :
    TakesOne (sendPackage mp garbage { s with reqid := s.reqid + 1 } v) s := by
  intro rv s' hrun
  obtain ⟨c, -, hsend⟩ := bind_eq_ok.mp hrun
  cases hsend
  exact .inr rfl

end TakesOne

theorem beerStoreBase_takesOne (garbage : Nat → UInt8) (s : Stream σ) (space : UInt32)
    (tuple : Object) (op : RequestType) :
    TakesOne (beerStoreBase mp garbage s space tuple op) s :=
  .bind fun _ => .refuse (.bind fun _ => .bind fun _ => .send garbage _)

theorem beerRpcBase_takesOne (garbage : Nat → UInt8) (s : Stream σ) (proc : Option Bytes)
    (args : Object) (op : RequestType) :
    TakesOne (beerRpcBase mp garbage s proc args op) s := by
  cases proc with
  | none => exact .self _
  | some proc =>
      exact .refuse (.bind fun _ => .refuse (.bind fun _ => .bind fun _ => .bind fun _ =>
        .send garbage _))

theorem GuardedCall.takesOne (garbage : Nat → UInt8) (s : Stream σ) (call : GuardedCall) :
    TakesOne (call.run mp garbage s) s := by
  cases call with
  | select space index limit offset iterator key =>
      exact .bind fun _ => .refuse (.bind fun _ => .bind fun _ => .send garbage _)
  | insert space tuple => exact beerStoreBase_takesOne garbage s space tuple _
  | replace space tuple => exact beerStoreBase_takesOne garbage s space tuple _
  | delete space index key =>
      exact .bind fun _ => .refuse (.bind fun _ => .bind fun _ => .send garbage _)
  | update space index key ops =>
      exact .bind fun _ => .refuse (.bind fun _ => .refuse (.bind fun _ => .bind fun _ =>
        .bind fun _ => .send garbage _))
  | upsert space tuple ops =>
      exact .bind fun _ => .refuse (.bind fun _ => .refuse (.bind fun _ => .bind fun _ =>
        .bind fun _ => .send garbage _))
  | call proc args => exact beerRpcBase_takesOne garbage s proc args _
  | call16 proc args => exact beerRpcBase_takesOne garbage s proc args _
  | eval expr args => exact beerRpcBase_takesOne garbage s expr args _

theorem DirectBuilder.takesOne (garbage : Nat → UInt8) (s : Stream σ) (builder : DirectBuilder) :
    TakesOne (builder.run mp crypt garbage s) s := by
  cases builder with
  | ping => exact .bind fun _ => .bind fun _ => .send garbage _
  | guarded call => exact call.takesOne garbage s
  | auth user ulen pass plen base64Salt =>
      refine .bind fun _ => .bind fun _ => .bind fun _ => ?_
      dsimp only
      split
      · exact .bind fun _ => .send garbage _
      · exact .bind fun _ => .bind fun _ => .send garbage _

section Steps

variable (hmp : mp.Lawful) (garbage : Nat → UInt8) (s : Stream σ)

include hmp

theorem beerRequestCompile_cases {req : Request} (hsized : req.Sized) :
    ∃ (rv : Int64) (s' : Stream σ) (req' : Request),
      beerRequestCompile mp garbage s req = .ok (rv, s', req') ∧
      s'.reqid = requestNumber s (some int64Max) + 1 ∧
      (CompileFails mp garbage s req ∧ rv = -1 ∨
        ¬CompileFails mp garbage s req ∧ rv = (requestNumber s (some int64Max)).toInt64 ∧
          HandedAs s s' (requestNumber s (some int64Max)).toNat) := by
  have hsized' : Request.Sized { req with sync := requestNumber s (some int64Max) } :=
    ⟨hsized.key, hsized.tuple⟩
  by_cases hrefused : req.Refused
  · have hrefused' : Request.Refused { req with sync := requestNumber s (some int64Max) } := hrefused
    have hcompile : beerRequestCompile mp garbage s req = .ok (-1,
        { s with reqid := requestNumber s (some int64Max) + 1 },
        { req with sync := requestNumber s (some int64Max) }) := by
      simp only [beerRequestCompile, beerRequestWriteout, iovecs_refused hmp garbage hrefused',
        ok_bind, pure_eq, if_true]
    exact ⟨_, _, _, hcompile, rfl, .inl ⟨.inl hrefused, rfl⟩⟩
  rcases iovecs_sized hmp garbage hsized' with ⟨h, -⟩ | ⟨header, v, start, stop, hiovecs, -, -, -, -,
    hframed⟩
  · exact absurd h hrefused
  have hcompile : beerRequestCompile mp garbage s req = .ok
      (if (s.writev (v.map (Part.bytes header)) s.io).1 = -1 then -1
        else (requestNumber s (some int64Max)).toInt64,
      { s with
        reqid := requestNumber s (some int64Max) + 1
        io := (s.writev (v.map (Part.bytes header)) s.io).2
        handed := s.handed ++ [v.map (Part.bytes header)] },
      { req with sync := requestNumber s (some int64Max) }) := by
    unfold beerRequestCompile beerRequestWriteout
    simp only [hiovecs, ok_bind, pure_eq, Stream.send]
    by_cases hfail : (s.writev (v.map (Part.bytes header)) s.io).1 = -1
    · simp only [hfail, if_true, ok_bind]
    · simp only [hfail, if_false, ok_bind]
      rfl
  refine ⟨_, _, _, hcompile, rfl, ?_⟩
  have hfails : CompileFails mp garbage s req ↔
      (s.writev (v.map (Part.bytes header)) s.io).1 = -1 := by
    constructor
    · rintro (h | ⟨header', v', hiovecs', hfail⟩)
      · exact absurd h hrefused
      · rw [hiovecs] at hiovecs'
        cases hiovecs'
        exact hfail
    · exact fun hfail => .inr ⟨header, v, hiovecs, hfail⟩
  by_cases hfail : (s.writev (v.map (Part.bytes header)) s.io).1 = -1
  · exact .inl ⟨hfails.mpr hfail, if_pos hfail⟩
  · have hcode : req.type.id.toNat < 2 ^ 64 := lt_trans req.type.id.toNat_lt (by decide)
    have hsync := (requestNumber s (some int64Max)).toNat_lt
    exact .inr ⟨fun h => hfail (hfails.mp h), if_neg hfail, _, _, _, _, _, rfl, hframed,
      mapOf_encodeHeaderMap hcode hsync _, headerOfPairs_eq hcode hsync⟩

theorem StreamCall.distinguishable_iff (call : StreamCall) :
    call.Distinguishable mp s ↔ call.InRange mp s := by
  cases call with
  | direct => exact Iff.rfl
  | compile garbage req hsized =>
      obtain ⟨rv, s', req', hcompile, -, hcases⟩ := beerRequestCompile_cases hmp garbage s hsized
      rcases hcases with ⟨hfails, rfl⟩ | ⟨hfails, rfl, hhanded⟩
      · exact iff_of_true ⟨_, s', req', hcompile, iff_of_true rfl hfails, fun h => absurd hfails h⟩
          (.inl hfails)
      rw [StreamCall.Distinguishable, StreamCall.InRange, ← requestNumber_le_iff]
      constructor
      · rintro ⟨rv, s₁, req₁, hcompile', -, htells⟩
        rw [hcompile] at hcompile'
        cases hcompile'
        exact .inr ((toInt64_nonneg_iff _).mp (htells hfails).1)
      · rintro (h | hle)
        · exact absurd h hfails
        refine ⟨_, s', req', hcompile, iff_of_false (requestNumber_ne s).2 hfails, fun _ =>
          ⟨(toInt64_nonneg_iff _).mpr hle, ?_⟩⟩
        rw [toInt64_toInt, if_pos hle, Int.toNat_natCast]
        exact hhanded

theorem StreamCall.reqid_le {call : StreamCall} {s' : Stream σ} (hle : s.reqid ≤ int64Max)
    (hbelow : call.StaysBelow mp crypt s) (hstep : call.step mp crypt s = .ok s') :
    s'.reqid ≤ int64Max := by
  have hsucc : ∀ n : UInt64, n ≤ int64Max → n ≠ int64Max → n + 1 ≤ int64Max := by
    intro n hn hne
    have hnat : n.toNat ≠ int64Max.toNat := fun h => hne (UInt64.toNat_inj.mp h)
    have hlt : n.toNat ≤ int64Max.toNat := UInt64.le_iff_toNat_le.mp hn
    have hmax : int64Max.toNat = 2 ^ 63 - 1 := rfl
    rw [UInt64.le_iff_toNat_le, UInt64.toNat_add, UInt64.toNat_one,
      Nat.mod_eq_of_lt (by omega)]
    omega
  cases call with
  | direct garbage builder =>
      cases hrun : builder.run mp crypt garbage s with
      | error reason =>
          rw [step, hrun] at hstep
          cases hstep
      | ok result =>
          obtain ⟨rv, next⟩ := result
          rw [step, hrun] at hstep
          cases hstep
          rcases builder.takesOne garbage s rv next hrun with rfl | htaken
          · exact hle
          · by_cases hmax : s.reqid = int64Max
            · rw [hbelow rv next hrun hmax]
              exact UInt64.le_refl _
            · rw [htaken]
              exact hsucc _ hle hmax
  | compile garbage req hsized =>
      obtain ⟨rv, next, req', hcompile, hnext, -⟩ := beerRequestCompile_cases hmp garbage s hsized
      rw [step, hcompile] at hstep
      cases hstep
      rw [hnext]
      exact hsucc _ ((requestNumber_le_iff s).mpr (.inl hle)) (requestNumber_ne s).1

/-- In every run, the results of the compilations tell a failure from a number exactly if none that
goes through takes a number between the largest signed and the largest unsigned one. From a number
that is not above the largest signed one, this is so as long as no call that sends at once takes
that. -/
theorem compiledIds_distinguishable_iff (crypt : Crypt) (calls : List StreamCall) :
    (EveryOk (StreamCall.step mp crypt) (StreamCall.Distinguishable mp) s calls ↔
      EveryOk (StreamCall.step mp crypt) (StreamCall.InRange mp) s calls) ∧
    (s.reqid ≤ int64Max →
      EveryOk (StreamCall.step mp crypt) (StreamCall.StaysBelow mp crypt) s calls →
        EveryOk (StreamCall.step mp crypt) (StreamCall.Distinguishable mp) s calls) := by
  refine ⟨⟨fun h done call hdone s' hs' => ?_, fun h done call hdone s' hs' => ?_⟩,
    fun hle hbelow => ?_⟩
  · exact (call.distinguishable_iff hmp s').mp (h done call hdone s' hs')
  · exact (call.distinguishable_iff hmp s').mpr (h done call hdone s' hs')
  · have hinv : ∀ (s : Stream σ) (call : StreamCall) (next : Stream σ), s.reqid ≤ int64Max →
        call.StaysBelow mp crypt s → call.step mp crypt s = .ok next → next.reqid ≤ int64Max :=
      fun s call _ hle hbelow hstep => call.reqid_le hmp s hle hbelow hstep
    have hcall : ∀ (s : Stream σ) (call : StreamCall), s.reqid ≤ int64Max →
        call.StaysBelow mp crypt s → call.Distinguishable mp s := by
      intro s call hle _
      refine (call.distinguishable_iff hmp s).mpr ?_
      cases call with
      | direct => trivial
      | compile => exact .inr (.inl hle)
    exact EveryOk.imp hinv hcall hle hbelow

end Steps

/-- A ping, and behind it a request that is compiled. -/
def pingThenSelect : List StreamCall :=
  [.direct (fun _ => 0) .ping, .compile (fun _ => 0) selectAll
    ⟨fun h => by cases h; decide, fun h => nomatch h⟩]

theorem compiledIds_distinguishable_iff_ping :
    EveryOk (StreamCall.step .reference builtCrypt) (StreamCall.Distinguishable .reference)
      (collecting 7) pingThenSelect := by
  refine (compiledIds_distinguishable_iff Msgpuck.reference_lawful (collecting 7) builtCrypt _).2
    (by decide) (everyOk_cons.mpr ⟨?_, fun _ _ => everyOk_cons.mpr ⟨trivial, fun _ _ => ?_⟩⟩)
  · exact fun _ _ _ h => absurd h (by decide)
  · exact everyOk_nil

/-- A ping takes the largest signed number, and the request behind it the next one. -/
theorem not_compiledIds_distinguishable :
    (collecting int64Max).reqid ≤ int64Max ∧
      ¬EveryOk (StreamCall.step .reference builtCrypt) (StreamCall.Distinguishable .reference)
        (collecting int64Max) pingThenSelect := by
  refine ⟨UInt64.le_refl _, fun h => ?_⟩
  obtain ⟨s, hs⟩ : ∃ s, StreamCall.step .reference builtCrypt (collecting int64Max)
      (.direct (fun _ => 0) .ping) = .ok s := ⟨_, rfl⟩
  have hcompile := (everyOk_cons.mp ((everyOk_cons.mp h).2 s hs)).1
  rcases (StreamCall.distinguishable_iff Msgpuck.reference_lawful s _).mp hcompile with
    (⟨key, hkey, hnone⟩ | ⟨header, v, -, hfail⟩) | hrange
  · cases hkey
    cases hnone
  · cases hs
    have hlength : (((v.map (Part.bytes header)).flatten.length : Nat) : Int) = -1 := hfail
    omega
  · cases hs
    revert hrange
    decide

end BeeC
