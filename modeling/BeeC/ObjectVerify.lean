import BeeC.FormatEncoding
import BeeC.DirectRequest

namespace BeeC

open BeeC.Wire
open BeeC.Wire.Memory
open BeeC.Wire.Loop
open BeeC.Wire.MessagePack

/-- `enum mp_type`. -/
def Wire.MessagePack.Kind.id : Kind → UInt8
  | nil => 0
  | uint => 1
  | int => 2
  | str => 3
  | bin => 4
  | array => 5
  | map => 6
  | bool => 7
  | float => 8
  | double => 9
  | ext => 10

/-- `beer_object_verify`, with the type as it is passed. -/
def beerObjectVerifyAs (mp : Msgpuck) (obj : Object) (type : Int8) : Except Fault Int := do
  if 0 ≤ type then
    match obj.data with
    | none => throw .nullPointer
    | some [] => throw .outOfBounds
    | some (first :: _) => if (mp.mpTypeof first).id ≠ type.toUInt8 then return -1
  if obj.alloc < obj.size then throw .outOfBounds
  match mp.mpCheck obj.contents with
  | none => return -1
  | some used => if used < obj.contents.length then return -1 else return 0

/-- The objects that a caller can pass: fresh ones, those that were reset or wrapped around bytes,
and what calls of the interface have left, whether they succeeded or not. -/
inductive Passable (mp : Msgpuck) : Object → Prop
  | fresh : Passable mp beerObject
  | setType {o : Object} (type : SboType) : Passable mp o → Passable mp (o.setType type).2
  | call {o o' : Object} {rv : Ssize} (call : ObjectCall) : Passable mp o →
      call.run mp o = .ok (rv, o') → Passable mp o'
  | write {o o' : Object} {rv : Ssize} (buf : Bytes) : Passable mp o →
      o.write buf = .ok (rv, o') → Passable mp o'
  | reset {o : Object} : Passable mp o → Passable mp (beerObjectReset o).2
  | as {o : Object} (buf : Option Bytes) : Passable mp o →
      Passable mp { o with data := buf, size := (buf.getD []).length, as := true }

variable {mp : Msgpuck} {o : Object}

theorem Passable.size_le (h : Passable mp o) : o.size ≤ o.alloc := by
  induction h with
  | fresh => exact le_rfl
  | setType type _ ih =>
      unfold Object.setType
      split <;> exact ih
  | call call _ hrun ih => exact (ObjectCall.run_outcome hrun).2.size_le ih
  | write buf _ hwrite ih => exact (write_outcome hwrite).2.size_le ih
  | reset _ _ => exact Nat.zero_le _
  | as buf _ _ => exact le_rfl

/-- The object with nothing in its memory but the bytes in use. Where it is read as the object is,
no other bytes are read. -/
def Object.confined (o : Object) : Object := { o with data := o.data.map (·.take o.size) }

@[simp] theorem Object.confined_contents (o : Object) : o.confined.contents = o.contents := by
  unfold confined contents
  cases o.data <;> simp [List.take_take]

theorem Object.confined_alloc (h : o.size ≤ o.alloc) : o.confined.alloc = o.size := by
  unfold alloc at h
  unfold confined alloc
  cases hdata : o.data with
  | none => simpa [hdata, eq_comm] using h
  | some mem => simpa [hdata] using h

/-- The bytes in use are one well-formed value, of the type if it is not negative. -/
def Object.IsOne (o : Object) (type : Int8) : Prop :=
  IsValue o.contents ∧
    (0 ≤ type → (kindOf o.contents).map Kind.id = some type.toUInt8)

instance (o : Object) (type : Int8) : Decidable (o.IsOne type) :=
  inferInstanceAs (Decidable (_ ∧ _))

/-- Verifying reads no byte outside of those in use, and returns zero exactly if they are one value
of the type. -/
def VerifiesExactly (mp : Msgpuck) (o : Object) (type : Int8) : Prop :=
  ∃ rv : Int, beerObjectVerifyAs mp o type = .ok rv ∧
    beerObjectVerifyAs mp o.confined type = .ok rv ∧ (rv = 0 ∨ rv = -1) ∧
    (rv = 0 ↔ o.IsOne type)

theorem beerObjectVerifyAs_negative (mp : Msgpuck) (o : Object) {type : Int8} (h : type < 0) :
    beerObjectVerifyAs mp o type = beerObjectVerify mp o none := by
  have hneg : ¬0 ≤ type := by simpa using h
  exact if_neg hneg

theorem beerObjectVerifyAs_kind (mp : Msgpuck) (o : Object) (kind : Kind) :
    beerObjectVerifyAs mp o kind.id.toInt8 = beerObjectVerify mp o (some kind) := by
  have hpos : 0 ≤ kind.id.toInt8 := by cases kind <;> decide
  have hid : ∀ found : Kind, found.id ≠ kind.id ↔ found ≠ kind := by
    intro found
    cases found <;> cases kind <;> decide
  cases hdata : o.data with
  | none => simp [beerObjectVerifyAs, beerObjectVerify, hpos, hdata]
  | some mem =>
      cases mem with
      | nil => simp [beerObjectVerifyAs, beerObjectVerify, hpos, hdata]
      | cons first more =>
          -- Behind the look at the type, both go on as without a type.
          have hAs : beerObjectVerifyAs mp o kind.id.toInt8 =
              if (mp.mpTypeof first).id ≠ kind.id then .ok (-1) else beerObjectVerify mp o none := by
            simp only [beerObjectVerifyAs, if_pos hpos, hdata, UInt8.toUInt8_toInt8]
            rfl
          have hSome : beerObjectVerify mp o (some kind) =
              if mp.mpTypeof first ≠ kind then .ok (-1) else beerObjectVerify mp o none := by
            simp only [beerObjectVerify, hdata]
            rfl
          simp only [hAs, hSome, hid]

theorem beerObjectVerify_none_eq (hmp : mp.Lawful) (hsize : o.size ≤ o.alloc) :
    beerObjectVerify mp o none = .ok (if IsValue o.contents then 0 else -1) := by
  have hroom : ¬o.alloc < o.size := Nat.not_lt.mpr hsize
  simp only [beerObjectVerify, if_neg hroom, hmp.check_eq]
  split
  · rename_i hnone
    have hvalue : ¬IsValue o.contents := by
      intro hvalue
      have hnext := next_append hvalue []
      rw [List.append_nil] at hnext
      rw [hnext] at hnone
      cases hnone
    rw [if_neg hvalue]
    rfl
  · rename_i used hused
    obtain ⟨⟨value, rest⟩, hnext, rfl⟩ := Option.map_eq_some_iff.mp hused
    obtain ⟨hcontents, hvalue⟩ := next_eq_some hnext
    cases rest with
    | nil =>
        rw [List.append_nil] at hcontents
        rw [← hcontents] at hvalue
        rw [if_pos hvalue, hcontents, if_neg (lt_irrefl _)]
        rfl
    | cons byte rest =>
        have hmore : ¬IsValue o.contents := by
          intro hone
          have hall := next_append hone []
          rw [List.append_nil, hnext] at hall
          cases hall
        rw [if_neg hmore, if_pos (by simp [hcontents])]
        rfl

theorem Object.data_of_pos (hsize : o.size ≤ o.alloc) (hpos : 0 < o.size) :
    ∃ first more, o.data = some (first :: more) ∧
      o.contents = first :: more.take (o.size - 1) := by
  unfold alloc at hsize
  obtain ⟨size, hsucc⟩ : ∃ size, o.size = size + 1 := ⟨o.size - 1, by omega⟩
  cases hdata : o.data with
  | none =>
      rw [hdata] at hsize
      exact absurd hsize (Nat.not_le.mpr hpos)
  | some mem =>
      cases mem with
      | nil =>
          rw [hdata] at hsize
          exact absurd hsize (Nat.not_le.mpr hpos)
      | cons first more => exact ⟨first, more, rfl, by simp [contents, hdata, hsucc]⟩

theorem beerObjectVerifyAs_eq (hmp : mp.Lawful) (hsize : o.size ≤ o.alloc) {type : Int8}
    (h : type < 0 ∨ 0 < o.size) :
    beerObjectVerifyAs mp o type = .ok (if o.IsOne type then 0 else -1) := by
  by_cases hneg : type < 0
  · have hone : o.IsOne type ↔ IsValue o.contents := by
      have hnot : ¬0 ≤ type := by simpa using hneg
      simp [Object.IsOne, hnot]
    rw [beerObjectVerifyAs_negative mp o hneg, beerObjectVerify_none_eq hmp hsize]
    simp only [hone]
  · have htype : 0 ≤ type := by simpa using hneg
    obtain ⟨first, more, hdata, hcontents⟩ := Object.data_of_pos hsize (h.resolve_left hneg)
    have hkind : IsValue o.contents → kindOf o.contents = some (mp.mpTypeof first) := by
      intro hvalue
      obtain ⟨hd, rest, hhead, -, -⟩ := hvalue.head
      rw [kindOf, hhead, Option.map_some]
      rw [hcontents] at hhead
      rw [hmp.typeof_eq (typeOf_of_head hhead)]
    have hrest := beerObjectVerify_none_eq hmp hsize
    by_cases hid : (mp.mpTypeof first).id = type.toUInt8
    · have hone : o.IsOne type ↔ IsValue o.contents :=
        ⟨And.left, fun hvalue => ⟨hvalue, fun _ => by rw [hkind hvalue, Option.map_some, hid]⟩⟩
      simp only [beerObjectVerifyAs, if_pos htype, hdata, hid, ne_eq, not_true_eq_false, if_false,
        hone]
      exact hrest
    · have hone : ¬o.IsOne type := by
        rintro ⟨hvalue, hfound⟩
        have hfound := hfound htype
        rw [hkind hvalue, Option.map_some, Option.some.injEq] at hfound
        exact hid hfound
      simp only [beerObjectVerifyAs, if_pos htype, hdata, ne_eq, hid, not_false_eq_true, if_true,
        if_neg hone]
      rfl

theorem beerObjectVerifyAs_confined (mp : Msgpuck) {type : Int8} (htype : 0 ≤ type)
    (hsize : o.size = 0) (rv : Int) : beerObjectVerifyAs mp o.confined type ≠ .ok rv := by
  cases hdata : o.data with
  | none => simp [beerObjectVerifyAs, Object.confined, htype, hdata]
  | some mem => simp [beerObjectVerifyAs, Object.confined, htype, hdata, hsize]

theorem verifiesExactly_iff (hmp : mp.Lawful) (hsize : o.size ≤ o.alloc) (type : Int8) :
    VerifiesExactly mp o type ↔ type < 0 ∨ 0 < o.size := by
  constructor
  · rintro ⟨rv, -, hconfined, -⟩
    by_contra hnot
    rw [not_or] at hnot
    exact beerObjectVerifyAs_confined mp (by simpa using hnot.1) (by omega) rv hconfined
  · intro h
    have hconfined : o.confined.size ≤ o.confined.alloc := (Object.confined_alloc hsize).ge
    have hsame : o.confined.IsOne type ↔ o.IsOne type := by
      rw [Object.IsOne, Object.IsOne, Object.confined_contents]
    refine ⟨_, beerObjectVerifyAs_eq hmp hsize h, ?_, ?_, ?_⟩
    · rw [beerObjectVerifyAs_eq hmp hconfined h]
      simp only [hsame]
    · split
      · exact .inl rfl
      · exact .inr rfl
    · split <;> simp [*]

/-- `MP_ARRAY`. -/
def mpArray : Int8 := Kind.array.id.toInt8

/-- A call of a function that verifies its objects as arrays. -/
inductive GuardedCall where
  | select (space index limit offset : UInt32) (iterator : UInt8) (key : Object)
  | insert (space : UInt32) (tuple : Object)
  | replace (space : UInt32) (tuple : Object)
  | delete (space index : UInt32) (key : Object)
  | update (space index : UInt32) (key ops : Object)
  | upsert (space : UInt32) (tuple ops : Object)
  | call (proc : Option Bytes) (args : Object)
  | call16 (proc : Option Bytes) (args : Object)
  | eval (expr : Option Bytes) (args : Object)

namespace GuardedCall

def run {σ : Type} (mp : Msgpuck) (garbage : Nat → UInt8) (s : Stream σ) :
    GuardedCall → Except Fault (Ssize × Stream σ)
  | select space index limit offset iterator key =>
      beerSelect mp garbage s space index limit offset iterator key
  | insert space tuple => beerInsert mp garbage s space tuple
  | replace space tuple => beerReplace mp garbage s space tuple
  | delete space index key => beerDelete mp garbage s space index key
  | update space index key ops => beerUpdate mp garbage s space index key ops
  | upsert space tuple ops => beerUpsert mp garbage s space tuple ops
  | call proc args => beerCall mp garbage s proc args
  | call16 proc args => beerCall16 mp garbage s proc args
  | eval expr args => beerEval mp garbage s expr args

/-- The objects, in the order in which they are verified. -/
def objects : GuardedCall → List Object
  | select _ _ _ _ _ key => [key]
  | insert _ tuple | replace _ tuple => [tuple]
  | delete _ _ key => [key]
  | update _ _ key ops => [key, ops]
  | upsert _ tuple ops => [tuple, ops]
  | call _ args | call16 _ args | eval _ args => [args]

/-- The call with nothing in the memory of its objects but the bytes in use. -/
def confined : GuardedCall → GuardedCall
  | select space index limit offset iterator key =>
      select space index limit offset iterator key.confined
  | insert space tuple => insert space tuple.confined
  | replace space tuple => replace space tuple.confined
  | delete space index key => delete space index key.confined
  | update space index key ops => update space index key.confined ops.confined
  | upsert space tuple ops => upsert space tuple.confined ops.confined
  | call proc args => call proc args.confined
  | call16 proc args => call16 proc args.confined
  | eval expr args => eval expr args.confined

/-- The call is given no name of a procedure, or no expression. It is refused for that. -/
def Nameless : GuardedCall → Prop
  | call proc _ | call16 proc _ | eval proc _ => proc.getD [] = []
  | _ => False

/-- The call returns `-1` with the stream untouched, and reads no byte outside of those in use. -/
def Rejected {σ : Type} (mp : Msgpuck) (garbage : Nat → UInt8) (s : Stream σ)
    (c : GuardedCall) : Prop :=
  c.run mp garbage s = .ok (-1, s) ∧ c.confined.run mp garbage s = .ok (-1, s)

end GuardedCall

/-- The first object that is not one array has a byte in use. -/
def FirstBadHasBytes (objects : List Object) : Prop :=
  ∀ o, objects.find? (fun o => ¬o.IsOne mpArray) = some o → 0 < o.size

/-- Go on if all objects are arrays. -/
def guarded {α : Type} (mp : Msgpuck) (fail : α) (rest : Except Fault α) :
    List Object → Except Fault α
  | [] => rest
  | o :: objects => do
      if (← beerObjectVerify mp o (some .array)) ≠ 0 then return fail
      guarded mp fail rest objects

theorem GuardedCall.run_eq {σ : Type} (mp : Msgpuck) (garbage : Nat → UInt8) (s : Stream σ)
    (c : GuardedCall) (hname : ¬c.Nameless) :
    ∃ rest, c.run mp garbage s = guarded mp (-1, s) rest c.objects := by
  cases c with
  | call proc args | call16 proc args | eval proc args =>
      cases proc with
      | none => exact absurd rfl hname
      | some proc =>
          cases proc with
          | nil => exact absurd rfl hname
          | cons first more => exact ⟨_, rfl⟩
  | _ => exact ⟨_, rfl⟩

theorem GuardedCall.run_nameless {σ : Type} (mp : Msgpuck) (garbage : Nat → UInt8) (s : Stream σ)
    (c : GuardedCall) (hname : c.Nameless) : c.run mp garbage s = .ok (-1, s) := by
  cases c with
  | call proc args | call16 proc args | eval proc args =>
      cases proc with
      | none => rfl
      | some proc =>
          cases proc with
          | nil => rfl
          | cons first more => cases hname
  | _ => cases hname

theorem GuardedCall.confined_objects (c : GuardedCall) :
    c.confined.objects = c.objects.map Object.confined := by
  cases c <;> rfl

theorem GuardedCall.confined_nameless (c : GuardedCall) : c.confined.Nameless ↔ c.Nameless := by
  cases c <;> rfl

theorem beerObjectVerify_array_eq (hmp : mp.Lawful) (hsize : o.size ≤ o.alloc)
    (hpos : 0 < o.size) :
    beerObjectVerify mp o (some .array) = .ok (if o.IsOne mpArray then 0 else -1) := by
  rw [← beerObjectVerifyAs_kind]
  exact beerObjectVerifyAs_eq hmp hsize (.inr hpos)

theorem Object.IsOne.size_pos {type : Int8} (h : o.IsOne type) : 0 < o.size := by
  have hpos := h.1.length_pos
  rw [contents, List.length_take] at hpos
  omega

theorem guarded_iff (hmp : mp.Lawful) {α : Type} (fail : α) (rest rest' : Except Fault α)
    {objects : List Object} (hsize : ∀ o ∈ objects, o.size ≤ o.alloc)
    (hbad : ∃ o ∈ objects, ¬o.IsOne mpArray) :
    (guarded mp fail rest objects = .ok fail ∧
      guarded mp fail rest' (objects.map Object.confined) = .ok fail) ↔
      FirstBadHasBytes objects := by
  induction objects with
  | nil =>
      obtain ⟨o, ho, -⟩ := hbad
      cases ho
  | cons o objects ih =>
      have ho := hsize o (by simp)
      have hconfined : o.confined.size ≤ o.confined.alloc := (Object.confined_alloc ho).ge
      have hsame : o.confined.IsOne mpArray ↔ o.IsOne mpArray := by
        rw [Object.IsOne, Object.IsOne, Object.confined_contents]
      rw [List.map_cons, guarded, guarded, FirstBadHasBytes]
      by_cases hone : o.IsOne mpArray
      · -- this object passes, here and with its bytes alone
        have hpos := hone.size_pos
        have hmore : ∃ o ∈ objects, ¬o.IsOne mpArray := by
          obtain ⟨bad, hmem, hbad⟩ := hbad
          rcases List.mem_cons.mp hmem with rfl | hmem
          · exact absurd hone hbad
          · exact ⟨bad, hmem, hbad⟩
        rw [beerObjectVerify_array_eq hmp ho hpos, beerObjectVerify_array_eq hmp hconfined hpos,
          if_pos hone, if_pos (hsame.mpr hone)]
        simp only [ok_bind, ne_eq, not_true_eq_false, if_false, List.find?_cons, hone,
          decide_false]
        exact ih (fun o' ho' => hsize o' (by simp [ho'])) hmore
      · simp only [List.find?_cons, hone, not_false_eq_true, decide_true, Option.some.injEq,
          forall_eq']
        by_cases hpos : 0 < o.size
        · rw [beerObjectVerify_array_eq hmp ho hpos, beerObjectVerify_array_eq hmp hconfined hpos,
            if_neg hone, if_neg (mt hsame.mp hone)]
          exact iff_of_true ⟨rfl, rfl⟩ hpos
        · refine iff_of_false (fun h => ?_) hpos
          obtain ⟨rv, hverify, -⟩ := bind_eq_ok.mp h.2
          rw [← beerObjectVerifyAs_kind] at hverify
          exact beerObjectVerifyAs_confined mp (by decide) (by omega) rv hverify

theorem GuardedCall.rejected_iff (hmp : mp.Lawful) {σ : Type} (garbage : Nat → UInt8)
    (s : Stream σ) (c : GuardedCall) (hsize : ∀ o ∈ c.objects, o.size ≤ o.alloc)
    (hbad : ∃ o ∈ c.objects, ¬o.IsOne mpArray) :
    c.Rejected mp garbage s ↔ c.Nameless ∨ FirstBadHasBytes c.objects := by
  by_cases hname : c.Nameless
  · exact iff_of_true ⟨c.run_nameless mp garbage s hname,
      c.confined.run_nameless mp garbage s (c.confined_nameless.mpr hname)⟩ (.inl hname)
  · obtain ⟨rest, hrest⟩ := c.run_eq mp garbage s hname
    obtain ⟨rest', hrest'⟩ := c.confined.run_eq mp garbage s (mt c.confined_nameless.mp hname)
    rw [c.confined_objects] at hrest'
    rw [Rejected, hrest, hrest', guarded_iff hmp (-1, s) rest rest' hsize hbad]
    simp [hname]

/-- For every object that can be passed and every type, verifying is exact and reads the bytes in
use alone exactly if the type is negative or there is a byte in use; and for every call with an
object that is not one array, the call is refused without a trace exactly if it lacks a name or the
first such object has a byte in use. -/
theorem objectVerify_iff (hmp : mp.Lawful) :
    (∀ (o : Object) (type : Int8), Passable mp o →
      (VerifiesExactly mp o type ↔ type < 0 ∨ 0 < o.size)) ∧
    ∀ (σ : Type) (garbage : Nat → UInt8) (s : Stream σ) (c : GuardedCall),
      (∀ o ∈ c.objects, Passable mp o) → (∃ o ∈ c.objects, ¬o.IsOne mpArray) →
        (c.Rejected mp garbage s ↔ c.Nameless ∨ FirstBadHasBytes c.objects) :=
  ⟨fun _ type ho => verifiesExactly_iff hmp ho.size_le type,
    fun _ garbage s c hobjects hbad =>
      c.rejected_iff hmp garbage s (fun o ho => (hobjects o ho).size_le) hbad⟩

/-- An object that nil was added to. -/
def nilObject : Object := { wrcnt := 1, data := some [0xc0], size := 1 }

theorem nilObject_passable : Passable .reference nilObject := by
  have hrun : ObjectCall.run .reference beerObject .addNil = .ok (1, nilObject) := by rfl
  exact .call .addNil .fresh hrun

theorem objectVerify_iff_nil :
    Msgpuck.reference.Lawful ∧ Passable .reference nilObject ∧
      (VerifiesExactly .reference nilObject mpArray ↔ mpArray < 0 ∨ 0 < nilObject.size) ∧
      ((GuardedCall.insert 512 nilObject).Rejected .reference (fun _ => 0) (collecting 7) ↔
        (GuardedCall.insert 512 nilObject).Nameless ∨ FirstBadHasBytes [nilObject]) := by
  obtain ⟨hverify, hcall⟩ := objectVerify_iff Msgpuck.reference_lawful
  refine ⟨Msgpuck.reference_lawful, nilObject_passable, hverify _ mpArray nilObject_passable,
    hcall _ (fun _ => 0) (collecting 7) (.insert 512 nilObject) ?_ ?_⟩
  · simpa [GuardedCall.objects] using nilObject_passable
  · exact ⟨nilObject, by simp [GuardedCall.objects], by decide⟩

/-- An object that nil was added to, and that was then reset: the block still holds it. -/
def staleNil : Object := (beerObjectReset nilObject).2

/-- A fresh object has no memory to look at, and one that was reset is looked at behind its end. -/
theorem not_objectVerify :
    Passable .reference beerObject ∧ Passable .reference staleNil ∧
      beerObjectVerifyAs .reference beerObject mpArray = .error .nullPointer ∧
      ¬VerifiesExactly .reference beerObject mpArray ∧
      beerObjectVerifyAs .reference staleNil.confined mpArray = .error .outOfBounds ∧
      ¬VerifiesExactly .reference staleNil mpArray ∧
      (GuardedCall.insert 512 beerObject).run .reference (fun _ => 0) (collecting 7) =
        .error .nullPointer ∧
      ¬(GuardedCall.insert 512 beerObject).Rejected .reference (fun _ => 0) (collecting 7) := by
  refine ⟨.fresh, .reset nilObject_passable, by decide, ?_, by decide, ?_, by rfl, ?_⟩
  · rintro ⟨rv, hverify, -⟩
    cases hverify
  · rintro ⟨rv, -, hverify, -⟩
    cases hverify
  · rintro ⟨hrun, -⟩
    cases hrun

end BeeC
