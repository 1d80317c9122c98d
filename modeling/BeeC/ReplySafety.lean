import BeeC.ReplyReading

/-!
When decoding a reply stays defined. The header loop checks what it decodes; the body loop
decodes its keys unchecked and takes the low 32 bits of each for a bit number.
-/

namespace BeeC

open BeeC.Wire.MessagePack
open BeeC.Wire.Loop

/-- A pair that the header loop accepts: one of its three keys, with an unsigned value. -/
def KnownHeader (pair : Bytes × Bytes) : Prop :=
  (keyOf pair.1 = some HeaderKey.code.id ∨ keyOf pair.1 = some HeaderKey.sync.id ∨
    keyOf pair.1 = some HeaderKey.schemaId.id) ∧ (uintOf pair.2).isSome

/-- Every item that the body loop comes to as a key within the given number of turns is an
unsigned integer whose low 32 bits are below 64. The item behind `ERROR` or `DATA` is a value; a
value of the wrong kind ends the loop. -/
def SafeKeys : (turns : Nat) → List Bytes → Prop
  | 0, _ => True
  | _ + 1, [] => True
  | turns + 1, item :: rest =>
      match uintOf item with
      | none => False
      | some n =>
          if n % 2 ^ 32 = ResponseKey.error.id.toNat then
            match rest with
            | [] => True
            | value :: rest => (textOf value).isSome → SafeKeys turns rest
          else if n % 2 ^ 32 = ResponseKey.data.id.toNat then
            match rest with
            | [] => True
            | value :: rest => kindOf value = some .array → SafeKeys turns rest
          else n % 2 ^ 32 < 64 ∧ SafeKeys turns rest

/-- If the payload has a header that is accepted and a body, the keys of the body are safe. -/
def SafePayload (payload : Bytes) : Prop :=
  ∀ header rest body tail, mapOf payload = some (header, rest) →
    (∀ pair ∈ header, KnownHeader pair) → mapOf rest = some (body, tail) →
      SafeKeys body.length (unpair body)

/-- The decoder returns `0` or `-1`, and does nothing on the way that it must not do. -/
def Finishes (out : Except Fault (Int × Reply)) : Prop :=
  ∃ rc r, out = .ok (rc, r) ∧ (rc = 0 ∨ rc = -1)

/-- The computation does not run into a fault. -/
def Faultless {α : Type} (x : Except Stop α) : Prop := ∀ reason, x ≠ .error (.fault reason)

theorem keyOf_eq_iff (n : Nat) (key : UInt32) :
    UInt32.ofNat n = key ↔ n % 2 ^ 32 = key.toNat := by
  rw [← UInt32.toNat_inj, UInt32.toNat_ofNat']

theorem headerField_ok {pair : Bytes × Bytes} (h : KnownHeader pair) (f : Fields) :
    ∃ f', headerField f pair = .ok f' := by
  obtain ⟨hkey, hvalue⟩ := h
  obtain ⟨value, hvalue⟩ := Option.isSome_iff_exists.mp hvalue
  rcases hkey with hkey | hkey | hkey
  all_goals
    rw [headerField, hkey, hvalue]
    exact ⟨_, rfl⟩

theorem headerField_fail {pair : Bytes × Bytes} (h : ¬KnownHeader pair) (f : Fields) :
    headerField f pair = .error .fail := by
  unfold headerField
  split
  · rename_i key value hkey hvalue
    simp only [KnownHeader, hkey, hvalue, Option.some.injEq, Option.isSome_some, and_true,
      not_or] at h
    rw [if_neg h.2.1, if_neg h.1, if_neg h.2.2]
  · rfl

theorem headerFields_ok_or_fail (header : List (Bytes × Bytes)) (f : Fields) :
    ((∀ pair ∈ header, KnownHeader pair) ∧ ∃ f', header.foldlM headerField f = .ok f') ∨
      (¬(∀ pair ∈ header, KnownHeader pair) ∧ header.foldlM headerField f = .error .fail) := by
  induction header generalizing f with
  | nil => exact .inl ⟨by simp, f, rfl⟩
  | cons pair header ih =>
      rw [List.foldlM_cons]
      by_cases hpair : KnownHeader pair
      · obtain ⟨f', hf'⟩ := headerField_ok hpair f
        rw [hf', ok_bind]
        simpa [hpair] using ih f'
      · rw [headerField_fail hpair, error_bind]
        exact .inr ⟨by simp [hpair], rfl⟩

theorem mark_bind_faultless {turns : Nat} {rest : List Bytes} {safe : Prop}
    (hrest : ∀ f, Faultless (loop bodyItem turns (f, rest)) ↔ safe) (f : Fields) (n : Nat) :
    Faultless (((f.mark (UInt32.ofNat n)).map fun f => (f, rest)) >>= loop bodyItem turns) ↔
      n % 2 ^ 32 < 64 ∧ safe := by
  have hlt : UInt32.ofNat n < 64 ↔ n % 2 ^ 32 < 64 := by
    rw [UInt32.lt_iff_toNat_lt, UInt32.toNat_ofNat']
    rfl
  rw [← hlt]
  unfold Fields.mark
  split
  · rename_i hkey
    simpa [Except.map, hkey] using hrest _
  · rename_i hkey
    simp [Faultless, Except.map, hkey]

/-- The body loop faults on the first unsafe key it comes to, and on nothing else. -/
theorem bodyLoop_faultless_iff (turns : Nat) (f : Fields) (items : List Bytes) :
    Faultless (loop bodyItem turns (f, items)) ↔ SafeKeys turns items := by
  induction turns generalizing f items with
  | zero => simp [Faultless, SafeKeys]
  | succ turns ih =>
      have hfail : Faultless (Except.error Stop.fail >>= loop bodyItem turns) :=
        fun reason h => by cases h
      rw [loop_succ]
      cases items with
      | nil => exact iff_of_true hfail trivial
      | cons item rest =>
          cases huint : uintOf item with
          | none => simp [bodyItem, keyOf, huint, Faultless, SafeKeys]
          | some n =>
              simp only [bodyItem, keyOf, huint, Option.map_some, SafeKeys, keyOf_eq_iff]
              by_cases herror : n % 2 ^ 32 = ResponseKey.error.id.toNat
              · simp only [herror, ite_true]
                cases rest with
                | nil => exact iff_of_true hfail trivial
                | cons value rest =>
                    cases htext : textOf value with
                    | none =>
                        simp only [htext]
                        exact iff_of_true hfail (by simp)
                    | some text =>
                        simp only [htext, Option.isSome_some, true_implies]
                        refine (mark_bind_faultless (fun f => ih f rest) _ n).trans ?_
                        rw [herror]
                        exact and_iff_right (by decide)
              by_cases hdata : n % 2 ^ 32 = ResponseKey.data.id.toNat
              · simp only [hdata, ite_true]
                cases rest with
                | nil => exact iff_of_true hfail trivial
                | cons value rest =>
                    by_cases hkind : kindOf value = some .array
                    · simp only [hkind, ite_true, true_implies]
                      refine (mark_bind_faultless (fun f => ih f rest) _ n).trans ?_
                      rw [hdata]
                      exact and_iff_right (by decide)
                    · simp only [hkind, ite_false]
                      exact iff_of_true hfail (fun h => absurd h (by simp))
              · simp only [herror, hdata, ite_false]
                exact mark_bind_faultless (fun f => ih f rest) f n

theorem readPayload_faultless_iff (payload : Bytes) :
    Faultless (readPayload payload) ↔ SafePayload payload := by
  have hfail : Faultless (Except.error Stop.fail : Except Stop Fields) :=
    fun reason h => by cases h
  unfold readPayload SafePayload
  cases hheader : mapOf payload with
  | none => exact iff_of_true hfail (by simp)
  | some found =>
      obtain ⟨header, rest⟩ := found
      rcases headerFields_ok_or_fail header {} with ⟨hknown, f, hf⟩ | ⟨hunknown, hf⟩
      · simp only [hf, ok_bind]
        cases hbody : mapOf rest with
        | none => exact iff_of_true hfail (by rintro _ _ _ _ ⟨⟩ - h; simp [hbody] at h)
        | some found =>
            obtain ⟨body, tail⟩ := found
            have hbody' : Faultless (readBody f body) ↔
                Faultless (loop bodyItem body.length (f, unpair body)) := by
              unfold readBody Faultless
              cases loop bodyItem body.length (f, unpair body) <;> simp [Except.map]
            refine hbody'.trans ((bodyLoop_faultless_iff _ f _).trans ⟨?_, ?_⟩)
            · rintro hsafe _ _ _ _ ⟨⟩ - h
              rw [hbody, Option.some.injEq, Prod.mk.injEq] at h
              obtain ⟨rfl, rfl⟩ := h
              exact hsafe
            · intro h
              exact h header rest body tail rfl hknown hbody
      · simp only [hf, error_bind]
        refine iff_of_true hfail ?_
        rintro _ _ _ _ ⟨⟩ hknown -
        exact absurd hknown hunknown

/-- Decoding a frame stays defined exactly on the payloads whose keys are safe. -/
theorem beerReplyFrom_finishes_iff {mp : Msgpuck} (hmp : mp.Lawful) {σ : Type}
    {rcv : Nat → σ → Option Bytes × σ} {ptr ptr' : σ} {payload : Bytes}
    (hdelivers : Delivers rcv ptr payload ptr') (hpos : 0 < payload.length)
    (hlength : payload.length < 2 ^ 32) (r : Reply) :
    Finishes (beerReplyFrom mp rcv r ptr).1 ↔ SafePayload payload := by
  rw [← readPayload_faultless_iff]
  cases hread : readPayload payload with
  | ok f =>
      obtain ⟨r', hreply, -⟩ := beerReplyFrom_ok hmp hdelivers hpos hlength r hread
      exact iff_of_true ⟨0, r', by rw [hreply], .inl rfl⟩ (fun reason h => by cases h)
  | error stop =>
      rw [beerReplyFrom_error hmp hdelivers hpos hlength r hread]
      cases stop with
      | fail => exact iff_of_true ⟨-1, _, rfl, .inr rfl⟩ (fun reason h => by cases h)
      | fault reason =>
          refine iff_of_false ?_ (fun h => h reason rfl)
          rintro ⟨rc, r', h, -⟩
          cases h

theorem beerReplyFrom_finishes_iff_shift :
    Finishes (beerReplyFrom Msgpuck.reference beerReplyCb (Reply.init false)
        (frame [0x81, 0x00, 0x00, 0x81, 0x40, 0xc0] ++ [])).1 ↔
      SafePayload [0x81, 0x00, 0x00, 0x81, 0x40, 0xc0] :=
  beerReplyFrom_finishes_iff Msgpuck.reference_lawful (delivers_beerReplyCb _ []) (by decide)
    (by decide) _

/-- A key of 64 is shifted out of the bitmap, and a key that is nil is decoded as a number. -/
theorem beerReplyFrom_not_finishes :
    ¬Finishes (beerReplyFrom Msgpuck.reference beerReplyCb (Reply.init false)
        (frame [0x81, 0x00, 0x00, 0x81, 0x40, 0xc0])).1 ∧
      ¬Finishes (beerReplyFrom Msgpuck.reference beerReplyCb (Reply.init false)
        (frame [0x81, 0x00, 0x00, 0x81, 0xc0, 0xc0])).1 := by
  constructor
  · rintro ⟨rc, r, h, -⟩
    have hfault : (beerReplyFrom Msgpuck.reference beerReplyCb (Reply.init false)
        (frame [0x81, 0x00, 0x00, 0x81, 0x40, 0xc0])).1 = .error .shiftTooFar := by rfl
    rw [hfault] at h
    cases h
  · rintro ⟨rc, r, h, -⟩
    have hfault : (beerReplyFrom Msgpuck.reference beerReplyCb (Reply.init false)
        (frame [0x81, 0x00, 0x00, 0x81, 0xc0, 0xc0])).1 = .error .wrongType := by rfl
    rw [hfault] at h
    cases h

end BeeC
