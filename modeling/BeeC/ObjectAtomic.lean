import BeeC.ObjectGrowth
import BeeC.ObjectReadOnly

namespace BeeC

open BeeC.Wire
open BeeC.Wire.Loop
open BeeC.Wire.MessagePack
open BeeC.Wire.Encoding
open BeeC.Wire.Run

/-- `strlen`. The text stands in front of a zero byte. -/
def strlen (strz : Bytes) : Nat := (strz.takeWhile (· ≠ 0)).length

/-- The text of `beer_object_add_strz`, whose length is kept in 32 bits. -/
def Wire.Chunk.ofStrz (strz : Bytes) : Chunk :=
  ⟨strz.take (strlen strz % 2 ^ 32),
    lt_of_le_of_lt (List.length_take_le _ _) (Nat.mod_lt _ (by decide))⟩

/-- `beer_object_add_strz`. -/
def Object.addStrz (mp : Msgpuck) (o : Object) (strz : Bytes) : Except Fault (Ssize × Object) :=
  o.addStr mp (Chunk.ofStrz strz)

/-- A call of the building interface, or of its shorthand for a text. -/
inductive BuilderCall where
  | addStrz (strz : Bytes)
  | call (call : ObjectCall)

namespace BuilderCall

def objectCall : BuilderCall → ObjectCall
  | addStrz strz => .addStr (Chunk.ofStrz strz)
  | call c => c

def run (mp : Msgpuck) (o : Object) : BuilderCall → Except Fault (Ssize × Object)
  | addStrz strz => o.addStrz mp strz
  | call c => c.run mp o

def step (mp : Msgpuck) (o : Object) (call : BuilderCall) : Except Fault Object :=
  (call.run mp o).map Prod.snd

theorem run_eq (mp : Msgpuck) (o : Object) (call : BuilderCall) :
    call.run mp o = call.objectCall.run mp o := by
  cases call <;> rfl

/-- Make the calls one after the other, whatever they return. The result names those that
succeed. -/
def attempt (mp : Msgpuck) : List BuilderCall → Object → Except Fault (List BuilderCall × Object)
  | [], o => .ok ([], o)
  | c :: calls, o => do
      let (rv, o) ← c.run mp o
      let (done, o) ← attempt mp calls o
      return (if rv = -1 then done else c :: done, o)

end BuilderCall

/-- What a call is for. -/
inductive CallEffect where
  | closes
  | opens (kind : Kind)
  | adds (bytes : Bytes)

def ObjectCall.effect : ObjectCall → CallEffect
  | addNil => .adds encodeNil
  | addUint value => .adds (encodeUint value.toNat)
  | addInt value => .adds (Value.encodeSigned value.toInt)
  | addStr str => .adds (strHeader str.bytes.length ++ str.bytes)
  | addBin bin => .adds (binHeader bin.bytes.length ++ bin.bytes)
  | addBool value => .adds (encodeBool value)
  | addFloat bits => .adds (encodeFloat bits.toNat)
  | addDouble bits => .adds (encodeDouble bits.toNat)
  | addArray _ => .opens .array
  | addMap _ => .opens .map
  | containerClose => .closes

/-- The same bytes, the same write counter and the same open containers. -/
structure Object.Kept (o o' : Object) : Prop where
  contents_eq : o'.contents = o.contents
  size_eq : o'.size = o.size
  wrcnt_eq : o'.wrcnt = o.wrcnt
  stack_eq : o'.stack = o.stack

/-- If the call fails, the object is left as it was. -/
def BuilderCall.Atomic (mp : Msgpuck) (o : Object) (call : BuilderCall) : Prop :=
  ∀ o', call.run mp o = .ok (-1, o') → o.Kept o'

/-- The stack has no room, and does not get any. -/
def Object.Full (o : Object) : Prop := o.stack.length = 128 ∧ o.stackAlloc = 128

/-- The call does not fail, or finds no container that would count its value. -/
def ObjectCall.Spared (o : Object) : ObjectCall → Prop
  | containerClose => True
  | addArray _ => o.as = false ∧ ¬o.Full
  | addMap _ => o.as = false ∧ ¬o.Full
  | _ => o.as = false ∨ o.stack = []

def BuilderCall.Spared (o : Object) (call : BuilderCall) : Prop := call.objectCall.Spared o

theorem bump_ne {stack : List SboStack} (h : stack ≠ []) : bump stack 1 ≠ stack := by
  cases stack with
  | nil => exact absurd rfl h
  | cons top rest =>
      intro heq
      have hsize : top.size + 1 = top.size := congrArg SboStack.size (List.cons.inj heq).1
      have hone : (1 : UInt32) = 0 := by
        rw [← UInt32.add_right_inj top.size, hsize, UInt32.add_zero]
      exact absurd hone (by decide)

section Refusals

variable {mp : Msgpuck} {o o' : Object}

theorem countChild_as (o : Object) : o.countChild.as = o.as := (Object.Framed.countChild o).as_eq

theorem countChild_of_nil (h : o.stack = []) : o.countChild = o := by
  rw [Object.countChild, h]

theorem write_refused_iff {buf : Bytes} (hbuf : 0 < buf.length) :
    o.write buf = .ok (-1, o') ↔ o.as = true ∧ o' = o := by
  cases has : o.as with
  | true =>
      have hwrite : o.write buf = .ok (-1, o) := by
        simp only [Object.write, has, if_true, pure_eq]
      rw [hwrite]
      constructor
      · intro h
        cases h
        exact ⟨rfl, rfl⟩
      · rintro ⟨-, rfl⟩
        rfl
  | false =>
      refine iff_of_false (fun h => ?_) (fun h => Bool.false_ne_true h.1)
      simp only [Object.write, has, Bool.false_eq_true, if_false] at h
      obtain ⟨o₁, hresize, h⟩ := bind_eq_ok.mp h
      have hsome : o₁.data.isNone = false := by
        unfold Object.resize at hresize
        split at hresize
        · rw [if_neg (by rw [has]; exact Bool.false_ne_true)] at hresize
          cases hresize
          rfl
        · rename_i hroom
          cases hresize
          cases hdata : o.data with
          | some mem => rfl
          | none =>
              simp only [Object.alloc, hdata, Option.getD_none, List.length_nil] at hroom
              omega
      simp only [hsome, Bool.false_eq_true, if_false] at h
      obtain ⟨o₂, -, h⟩ := bind_eq_ok.mp h
      have hrv : ((buf.length : Nat) : Int) = -1 := (Prod.mk.inj (Except.ok.inj h)).1
      omega

theorem addBytes_refused_iff {bytes : Bytes} (hbytes : 0 < bytes.length) :
    o.addBytes bytes = .ok (-1, o') ↔ o.as = true ∧ o' = o.countChild := by
  rw [Object.addBytes, write_refused_iff hbytes, countChild_as]

theorem kept_countChild_iff : o.Kept o.countChild ↔ o.stack = [] := by
  constructor
  · intro h
    by_contra hnil
    exact bump_ne hnil ((countChild_stack o).symm.trans h.stack_eq)
  · intro h
    rw [countChild_of_nil h]
    exact ⟨rfl, rfl, rfl, rfl⟩

theorem addContainer_of_full (h : o.Full) (kind : Kind) (header : SboType → Bytes) :
    o.addContainer kind header = .ok (-1, o.countChild) := by
  obtain ⟨hlength, halloc⟩ := h
  have hcounted : o.countChild.stack.length = 128 := by
    rw [countChild_stack, bump_length, hlength]
  have halloc' : o.countChild.stackAlloc = 128 := (countChild_frame o).1.trans halloc
  simp only [Object.addContainer, hcounted, halloc', if_true, Object.growStack]

theorem addContainer_of_not_full (h : ¬o.Full) (kind : Kind) (header : SboType → Bytes) :
    ∃ pushed : Object, o.addContainer kind header = pushed.write (header pushed.type) ∧
      pushed.as = o.as ∧ pushed.stack.length = o.stack.length + 1 := by
  have hlength : o.countChild.stack.length = o.stack.length := by
    rw [countChild_stack, bump_length]
  have halloc : o.countChild.stackAlloc = o.stackAlloc := (countChild_frame o).1
  by_cases hroom : o.stack.length = o.stackAlloc
  · have hgrow : o.stackAlloc ≠ 128 := fun halloc => h ⟨hroom.trans halloc, halloc⟩
    simp only [Object.addContainer, Object.growStack, hlength, halloc, if_pos hroom, if_neg hgrow]
    refine ⟨_, rfl, countChild_as o, ?_⟩
    simp only [List.length_cons, List.length_map, hlength]
  · simp only [Object.addContainer, hlength, halloc, if_neg hroom]
    refine ⟨_, rfl, countChild_as o, ?_⟩
    simp only [List.length_cons, hlength]

theorem addBytes_atomic_iff {bytes : Bytes} (hbytes : 0 < bytes.length) :
    (∀ o', o.addBytes bytes = .ok (-1, o') → o.Kept o') ↔ o.as = false ∨ o.stack = [] := by
  simp only [addBytes_refused_iff hbytes, and_imp]
  cases has : o.as with
  | false => exact iff_of_true (fun _ h => nomatch h) (.inl rfl)
  | true =>
      refine Iff.trans ?_ ((@kept_countChild_iff o).trans (by simp))
      exact ⟨fun h => h _ rfl rfl, fun h _ _ heq => heq ▸ h⟩

theorem addContainer_atomic_iff {kind : Kind} {header : SboType → Bytes}
    (hheader : ∀ mode, 0 < (header mode).length) :
    (∀ o', o.addContainer kind header = .ok (-1, o') → o.Kept o') ↔
      o.as = false ∧ ¬o.Full := by
  by_cases hfull : o.Full
  · refine iff_of_false (fun h => ?_) (fun h => h.2 hfull)
    have hnil := kept_countChild_iff.mp (h _ (addContainer_of_full hfull kind header))
    have hlength := hfull.1
    rw [hnil] at hlength
    cases hlength
  · obtain ⟨pushed, hcall, has, hlength⟩ := addContainer_of_not_full hfull kind header
    rw [hcall, ← has]
    simp only [write_refused_iff (hheader _), and_imp]
    cases hpushed : pushed.as with
    | false => exact iff_of_true (fun _ h => nomatch h) ⟨rfl, hfull⟩
    | true =>
        refine iff_of_false (fun h => ?_) (fun h => nomatch h.1)
        have hstack := congrArg List.length (h _ rfl rfl).stack_eq
        omega

theorem close_refused_eq (h : o.containerClose mp = .ok (-1, o')) : o' = o := by
  by_cases hclosable : o.Closable
  · by_cases hmode : o.type = .simple
    · obtain ⟨closed, hclose, -⟩ := @Object.ReadOnly.close_simple mp o hmode hclosable
      rw [hclose] at h
      cases h
    · exact absurd h (Object.ReadOnly.close_not_refused hmode hclosable o')
  · rw [Object.ReadOnly.close_refused hclosable] at h
    cases h
    rfl

end Refusals

section Calls

variable {mp : Msgpuck} (hmp : mp.Lawful)

include hmp

theorem openingArray_length_pos (size : UInt32) (mode : SboType) :
    0 < (Object.openingArray mp size mode).length := by
  by_cases hmode : mode = .simple
  · rw [hmode, Object.openingArray, hmp.encodeArray_eq]
    exact arrayHeader_length_pos _
  · rw [openingArray_eq hmp hmode]
    exact closingHeader_length_pos _ _ _

theorem openingMap_length_pos (size : UInt32) (mode : SboType) :
    0 < (Object.openingMap mp size mode).length := by
  by_cases hmode : mode = .simple
  · rw [hmode, Object.openingMap, hmp.encodeMap_eq]
    exact mapHeader_length_pos _
  · rw [openingMap_eq hmp hmode]
    exact closingHeader_length_pos _ _ _

theorem ObjectCall.kinds (call : ObjectCall) :
    call.effect = .closes ∧ call = .containerClose ∨
      (∃ kind header, call.effect = .opens kind ∧ (∀ mode, 0 < (header mode : Bytes).length) ∧
        (∀ mode, mode ≠ .simple → header mode = closingHeader mode kind 0) ∧
        (∀ o, call.run mp o = o.addContainer kind header) ∧
        ∀ o, call.Spared o ↔ o.as = false ∧ ¬o.Full) ∨
      ∃ bytes, call.effect = .adds bytes ∧ 0 < bytes.length ∧
        (∀ o, call.run mp o = o.addBytes bytes) ∧
        ∀ o, call.Spared o ↔ o.as = false ∨ o.stack = [] := by
  cases call with
  | containerClose => exact .inl ⟨rfl, rfl⟩
  | addArray size =>
      exact .inr (.inl ⟨_, _, rfl, openingArray_length_pos hmp size,
        fun _ hmode => openingArray_eq hmp hmode size, fun _ => rfl, fun _ => Iff.rfl⟩)
  | addMap size =>
      exact .inr (.inl ⟨_, _, rfl, openingMap_length_pos hmp size,
        fun _ hmode => openingMap_eq hmp hmode size, fun _ => rfl, fun _ => Iff.rfl⟩)
  | addNil =>
      exact .inr (.inr ⟨_, rfl, Nat.succ_pos _, fun o => congrArg o.addBytes hmp.encodeNil_eq,
        fun _ => Iff.rfl⟩)
  | addBool value =>
      exact .inr (.inr ⟨_, rfl, Nat.succ_pos _,
        fun o => congrArg o.addBytes (hmp.encodeBool_eq value), fun _ => Iff.rfl⟩)
  | addUint value =>
      exact .inr (.inr ⟨_, rfl, encodeUint_length_pos _,
        fun o => congrArg o.addBytes (hmp.encodeUint_eq value), fun _ => Iff.rfl⟩)
  | addInt value =>
      exact .inr (.inr ⟨_, rfl, encodeSigned_length_pos _, fun o => addInt_eq hmp o value,
        fun _ => Iff.rfl⟩)
  | addFloat bits =>
      exact .inr (.inr ⟨_, rfl, Nat.succ_pos _,
        fun o => congrArg o.addBytes (hmp.encodeFloat_eq bits), fun _ => Iff.rfl⟩)
  | addDouble bits =>
      exact .inr (.inr ⟨_, rfl, Nat.succ_pos _,
        fun o => congrArg o.addBytes (hmp.encodeDouble_eq bits), fun _ => Iff.rfl⟩)
  | addStr str =>
      refine .inr (.inr ⟨_, rfl, ?_, addStr_eq hmp str, fun _ => Iff.rfl⟩)
      rw [List.length_append]
      exact Nat.add_pos_left (strHeader_length_pos _) _
  | addBin bin =>
      refine .inr (.inr ⟨_, rfl, ?_, addBin_eq hmp bin, fun _ => Iff.rfl⟩)
      rw [List.length_append]
      exact Nat.add_pos_left (binHeader_length_pos _) _

theorem BuilderCall.atomic_iff (call : BuilderCall) (o : Object) :
    call.Atomic mp o ↔ call.Spared o := by
  unfold BuilderCall.Atomic BuilderCall.Spared
  simp only [BuilderCall.run_eq]
  rcases call.objectCall.kinds hmp with ⟨-, hclose⟩ |
    ⟨kind, header, -, hpos, -, hrun, hspared⟩ | ⟨bytes, -, hpos, hrun, hspared⟩
  · rw [hclose]
    refine iff_of_true (fun o' h => ?_) trivial
    rw [close_refused_eq h]
    exact ⟨rfl, rfl, rfl, rfl⟩
  · rw [hspared]
    simp only [hrun]
    exact addContainer_atomic_iff hpos
  · rw [hspared]
    simp only [hrun]
    exact addBytes_atomic_iff hpos

theorem BuilderCall.Spared.eq_of_fail {call : BuilderCall} {o o' : Object} (h : call.Spared o)
    (hfail : call.run mp o = .ok (-1, o')) : o' = o := by
  unfold BuilderCall.Spared at h
  rw [BuilderCall.run_eq] at hfail
  rcases call.objectCall.kinds hmp with ⟨-, hclose⟩ |
    ⟨kind, header, -, hpos, -, hrun, hspared⟩ | ⟨bytes, -, hpos, hrun, hspared⟩
  · rw [hclose] at hfail
    exact close_refused_eq hfail
  · obtain ⟨has, hfull⟩ := (hspared o).mp h
    obtain ⟨pushed, hcall, has', -⟩ := addContainer_of_not_full hfull kind header
    rw [hrun, hcall, write_refused_iff (hpos _), has', has] at hfail
    exact absurd hfail.1 Bool.false_ne_true
  · rw [hrun, addBytes_refused_iff hpos] at hfail
    obtain ⟨has, rfl⟩ := hfail
    rcases (hspared o).mp h with hwritable | hnil
    · rw [has] at hwritable
      cases hwritable
    · exact countChild_of_nil hnil

/-- Where all calls are spared, those that fail might as well not have been made. -/
theorem attempt_eq_perform {calls done : List BuilderCall} {o o' : Object}
    (h : EveryOk (BuilderCall.step mp) (fun o call => call.Spared o) o calls)
    (hattempt : BuilderCall.attempt mp calls o = .ok (done, o')) :
    Object.perform mp (done.map BuilderCall.objectCall) o = some o' := by
  induction calls generalizing o done with
  | nil =>
      cases hattempt
      rfl
  | cons call calls ih =>
      obtain ⟨hspared, hrest⟩ := everyOk_cons.mp h
      obtain ⟨⟨rv, next⟩, hrun, hattempt⟩ := bind_eq_ok.mp hattempt
      obtain ⟨⟨more, last⟩, hmore, hlast⟩ := bind_eq_ok.mp hattempt
      obtain ⟨hdone, rfl⟩ := Prod.mk.inj (Except.ok.inj hlast)
      have hnext : BuilderCall.step mp o call = .ok next := by
        rw [BuilderCall.step, hrun]
        rfl
      have hperform := ih (hrest next hnext) hmore
      by_cases hrv : rv = -1
      · rw [if_pos hrv] at hdone
        rw [hrv] at hrun
        rw [← hdone, ← hspared.eq_of_fail hmp hrun]
        exact hperform
      · rw [if_neg hrv] at hdone
        rw [BuilderCall.run_eq] at hrun
        rw [← hdone, List.map_cons, perform_cons hrun hrv]
        exact hperform

theorem attempt_encodes {type : SboType} (hmode : type ≠ .simple) (hint : List Nat → UInt32)
    {vs : List Value} (hcounts : ∀ v ∈ vs, v.CountsBelow (2 ^ 32) (2 ^ 31))
    (hnesting : Value.nestingOfElements vs ≤ 8) {calls done : List BuilderCall} {unclosed : Nat}
    {o : Object}
    (h : EveryOk (BuilderCall.step mp) (fun o call => call.Spared o) (freshObject type) calls)
    (hattempt : BuilderCall.attempt mp calls (freshObject type) = .ok (done, o))
    (hdone : done.map BuilderCall.objectCall ++ List.replicate unclosed .containerClose =
      elementCalls hint 0 vs) :
    ∃ o', Object.perform mp (List.replicate unclosed .containerClose) o = some o' ∧
      o'.contents = (vs.map (encodeFor type)).flatten := by
  have hbuilds := @builds_elements mp type 8 (encodeCounted type) vs
    (fun v hv hint bytes stack => builds_calls hmp hmode v
      ((hcounts v hv).mono (by decide)) hint bytes stack)
    hint 0 [] [] (by simpa using hnesting)
  obtain ⟨o', hperform, hdrafts⟩ := hbuilds _ (drafts_freshObject type)
  rw [← hdone, perform_append, attempt_eq_perform hmp h hattempt, Option.bind_some] at hperform
  have hencode : vs.map (encodeCounted type) = vs.map (encodeFor type) := by
    refine List.map_congr_left fun v hv => ?_
    exact (encodeCounted_eq_iff type ((hcounts v hv).mono (by decide))).mpr (hcounts v hv)
  refine ⟨o', hperform, ?_⟩
  rw [hdrafts.contents_eq, List.nil_append, hencode]

/-- Which calls leave the object as it was if they fail, in any state. In a run of such calls,
those that fail might as well not have been made, so that closing what is still open yields the
encoding of the values whose calls have succeeded. -/
theorem failed_calls_atomic_iff :
    (∀ (call : BuilderCall) (o : Object), call.Atomic mp o ↔ call.Spared o) ∧
      (∀ (calls done : List BuilderCall) (o o' : Object),
        EveryOk (BuilderCall.step mp) (fun o call => call.Spared o) o calls →
        BuilderCall.attempt mp calls o = .ok (done, o') →
          Object.perform mp (done.map BuilderCall.objectCall) o = some o') ∧
      ∀ (type : SboType) (hint : List Nat → UInt32) (vs : List Value)
        (calls done : List BuilderCall) (unclosed : Nat) (o : Object), type ≠ .simple →
        (∀ v ∈ vs, v.CountsBelow (2 ^ 32) (2 ^ 31)) → Value.nestingOfElements vs ≤ 8 →
        EveryOk (BuilderCall.step mp) (fun o call => call.Spared o) (freshObject type) calls →
        BuilderCall.attempt mp calls (freshObject type) = .ok (done, o) →
        done.map BuilderCall.objectCall ++ List.replicate unclosed .containerClose =
          elementCalls hint 0 vs →
        ∃ o', Object.perform mp (List.replicate unclosed .containerClose) o = some o' ∧
          o'.contents = (vs.map (encodeFor type)).flatten :=
  ⟨BuilderCall.atomic_iff hmp, fun _ _ _ _ h hattempt => attempt_eq_perform hmp h hattempt,
    fun _ hint _ _ _ _ _ hmode hcounts hnesting h hattempt hdone =>
      attempt_encodes hmp hmode hint hcounts hnesting h hattempt hdone⟩

end Calls

theorem failed_calls_atomic_iff_close :
    (BuilderCall.Atomic .reference (beerObjectAs [0xc0]) (.addStrz [0x61]) ↔
        BuilderCall.Spared (beerObjectAs [0xc0]) (.addStrz [0x61])) ∧
      ∃ o o', BuilderCall.attempt .reference
          [.call .containerClose, .call (.addArray 0), .call .addNil] (freshObject .packed) =
            .ok ([.call (.addArray 0), .call .addNil], o) ∧
        Object.perform .reference [.addArray 0, .addNil] (freshObject .packed) = some o ∧
        Object.perform .reference [.containerClose] o = some o' ∧
        o'.contents = [0x91, 0xc0] := by
  obtain ⟨hatomic, hperform, hencode⟩ := failed_calls_atomic_iff Msgpuck.reference_lawful
  have hspared : EveryOk (BuilderCall.step .reference) (fun o call => call.Spared o)
      (freshObject .packed) [.call .containerClose, .call (.addArray 0), .call .addNil] := by
    refine everyOk_cons.mpr ⟨trivial, fun o ho => ?_⟩
    obtain rfl := Except.ok.inj (show Except.ok (freshObject .packed) = Except.ok o from ho)
    refine everyOk_cons.mpr ⟨⟨rfl, fun hfull => absurd hfull.1 (by decide)⟩, fun o ho => ?_⟩
    refine everyOk_cons.mpr ⟨.inl ?_, fun _ _ => everyOk_nil⟩
    rw [← Except.ok.inj ho]
    rfl
  have hattempt : BuilderCall.attempt .reference
      [.call .containerClose, .call (.addArray 0), .call .addNil] (freshObject .packed) =
        .ok ([.call (.addArray 0), .call .addNil], { freshObject .packed with
          wrcnt := 2, data := some [0x90, 0xc0], size := 2, stack := [⟨0, 1, .array⟩] }) := rfl
  obtain ⟨o', hclose, hcontents⟩ := hencode .packed (fun _ => 0) [.array [.nil]] _ _ 1 _ (by decide)
    (by simp [Value.CountsBelow, Value.ElementCountsBelow]) (by decide) hspared hattempt rfl
  exact ⟨hatomic _ _, _, o', hattempt, hperform _ _ _ _ hspared hattempt, hclose, hcontents⟩

/-- A container that a caller's buffer refuses is open all the same. -/
theorem not_failed_call_atomic :
    ¬BuilderCall.Atomic .reference (beerObjectAs [0xc0]) (.call (.addArray 0)) := by
  intro h
  have hkept := h { beerObjectAs [0xc0] with stack := [⟨1, 0, .array⟩] } rfl
  exact absurd hkept.stack_eq (by decide)

end BeeC
