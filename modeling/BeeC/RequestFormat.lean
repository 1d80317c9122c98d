import BeeC.ObjectDraft
import BeeC.RequestLayout

namespace BeeC

open BeeC.Wire
open BeeC.Wire.Loop
open BeeC.Wire.Memory
open BeeC.Wire.MessagePack
open BeeC.Wire.Encoding

/-- Two pointers of a request: null, to memory of the caller, or to the start of the block of its
own object. A block is named by its size, since one that is reallocated is larger. -/
inductive Span where
  | null
  | outside (bytes : Bytes)
  | inside (block length : Nat)
  deriving DecidableEq

/-- `key`, `key_end` and `key_object` of `struct beer_request`, or the three for the tuple. -/
structure Slot where
  object : Option Object := none
  span : Span := .null
  deriving DecidableEq

namespace Slot

/-- The pointers of a caller's bytes. -/
def point (slot : Slot) (bytes : Option Bytes) : Slot :=
  { slot with span := bytes.elim .null .outside }

/-- The bytes between the two pointers. A block that has been replaced cannot be read. -/
def read (slot : Slot) : Except Fault (Option Bytes) :=
  match slot.span with
  | .null => .ok none
  | .outside bytes => .ok (some bytes)
  | .inside block length =>
      if length = 0 then .ok (some [])
      else
        match slot.object.bind Object.data with
        | none => .error .nullPointer
        | some mem =>
            if mem.length = block ∧ length ≤ block then .ok (some (mem.take length))
            else .error .outOfBounds

/-- The object that a format is built in: the one there is, reset, or a new one. -/
def cleared (slot : Slot) : Object :=
  match slot.object with
  | some o => (beerObjectReset o).2
  | none => beerObject

/-- `beer_request_set_key_format` and `beer_request_set_tuple_format`, on their three fields. -/
def setFormat (mp : Msgpuck) (toFloat : UInt64 → UInt32) (slot : Slot) (fmt : List Char)
    (vl : List FormatArg) : Except Fault (Int × Slot) := do
  let (res, o) ← beerObjectVformat mp toFloat slot.cleared fmt vl
  if res = -1 then return (-1, { slot with object := some o })
  let span := match o.data with
    | none => .null
    | some mem => .inside mem.length o.size
  return (0, ⟨some o, span⟩)

/-- The slot of a request that has been set in any way, any number of times. -/
inductive Reached (mp : Msgpuck) (toFloat : UInt64 → UInt32) : Slot → Prop where
  | init : Reached mp toFloat {}
  | point {slot : Slot} (bytes : Option Bytes) :
      Reached mp toFloat slot → Reached mp toFloat (slot.point bytes)
  | format {slot slot' : Slot} {fmt : List Char} {vl : List FormatArg} {rc : Int} :
      Reached mp toFloat slot → slot.setFormat mp toFloat fmt vl = .ok (rc, slot') →
        Reached mp toFloat slot'

/-- What the calls of a format write in front of the first that fails. -/
def written (toFloat : UInt64 → UInt32) (slot : Slot) (fmt : List Char) (vl : List FormatArg) :
    Bytes :=
  (Draft.steps ⟨[], [], .packed, slot.cleared.stackAlloc⟩
    (readCalls toFloat fmt.length fmt vl)).bytes

/-- Bytes that are written to the start of the block have room in it, and do not change the value
that is there, unless that is empty. -/
def Spared (slot : Slot) (bytes : Bytes) : Prop :=
  ∀ o ∈ slot.object, o.size = 0 ∨
    bytes.length ≤ o.alloc ∧ (bytes <+: o.contents ∨ o.contents <+: bytes)

end Slot

/-- Which of the two. -/
inductive SlotName where
  | key
  | tuple
  deriving DecidableEq

/-- A request with its pointers. Of `base` the key and the tuple are not used. -/
structure FormatRequest where
  base : Request
  key : Slot := {}
  tuple : Slot := {}

namespace FormatRequest

def slot (r : FormatRequest) : SlotName → Slot
  | .key => r.key
  | .tuple => r.tuple

def withSlot (r : FormatRequest) (name : SlotName) (slot : Slot) : FormatRequest :=
  match name with
  | .key => { r with key := slot }
  | .tuple => { r with tuple := slot }

def setFormat (mp : Msgpuck) (toFloat : UInt64 → UInt32) (r : FormatRequest) (name : SlotName)
    (fmt : List Char) (vl : List FormatArg) : Except Fault (Int × FormatRequest) := do
  let (rc, slot) ← (r.slot name).setFormat mp toFloat fmt vl
  return (rc, r.withSlot name slot)

/-- `beer_request_set_key_format`. -/
def setKeyFormat (mp : Msgpuck) (toFloat : UInt64 → UInt32) (r : FormatRequest)
    (fmt : List Char) (vl : List FormatArg) : Except Fault (Int × FormatRequest) :=
  r.setFormat mp toFloat .key fmt vl

/-- `beer_request_set_tuple_format`. -/
def setTupleFormat (mp : Msgpuck) (toFloat : UInt64 → UInt32) (r : FormatRequest)
    (fmt : List Char) (vl : List FormatArg) : Except Fault (Int × FormatRequest) :=
  r.setFormat mp toFloat .tuple fmt vl

/-- The request with the bytes that its pointers delimit. -/
def deref (r : FormatRequest) : Except Fault Request := do
  let key ← r.key.read
  let tuple ← r.tuple.read
  return { r.base with key, tuple }

/-- The request has a key, and its type has none. It is not read then. -/
def refused (r : FormatRequest) : Bool :=
  r.key.span ≠ .null ∧ (Request.keyEntry r.base.type []).isNone

/-- `beer_request_compile`. -/
def compile {σ : Type} (mp : Msgpuck) (garbage : Nat → UInt8) (s : Stream σ) (r : FormatRequest) :
    Except Fault (Int64 × Stream σ × FormatRequest) := do
  let req ←
    if r.refused then .ok { r.base with key := some [], tuple := none }
    else r.deref
  let (rv, s, req) ← beerRequestCompile mp garbage s req
  return (rv, s, { r with base := { r.base with sync := req.sync } })

/-- The frames that have been handed to the stream, if the run is defined. -/
def frames {σ : Type} (run : Except Fault (Int64 × Stream σ × FormatRequest)) :
    Option (List Bytes) :=
  run.toOption.map fun result => result.2.1.handed.map List.flatten

/-- Compiled on the same stream, and so with the same number, the two requests are the same
frame. -/
def SameFrame (mp : Msgpuck) (r r' : FormatRequest) : Prop :=
  ∀ (σ : Type) (garbage : Nat → UInt8) (s : Stream σ),
    frames (r.compile mp garbage s) = frames (r'.compile mp garbage s)

/-- The request is not refused, and what it points to is there. -/
def Compiles (r : FormatRequest) : Prop := r.refused = false ∧ ∃ req, r.deref = .ok req

end FormatRequest

namespace Slot

variable {mp : Msgpuck} {toFloat : UInt64 → UInt32} {slot slot' : Slot} {fmt : List Char}
  {vl : List FormatArg}

/-- The object of a request is never one over memory of the caller. -/
def Owned (slot : Slot) : Prop := ∀ o ∈ slot.object, o.as = false

theorem Owned.cleared (h : slot.Owned) : slot.cleared.as = false := by
  unfold Slot.cleared
  split
  · rename_i o ho
    exact h o ho
  · rfl

theorem Owned.vformat (hmp : mp.Lawful) (h : slot.Owned) {rv : Ssize} {o : Object}
    (hformat : beerObjectVformat mp toFloat slot.cleared fmt vl = .ok (rv, o)) :
    o.contents = slot.written toFloat fmt vl ∧
      o.size = (slot.written toFloat fmt vl).length ∧ o.as = false ∧ slot.cleared.Extends o := by
  have hfresh : slot.cleared.wrcnt = 0 ∧ slot.cleared.size = 0 ∧ slot.cleared.stack = [] := by
    unfold Slot.cleared
    split <;> exact ⟨rfl, rfl, rfl⟩
  obtain ⟨hwrcnt, hsize, hstack⟩ := hfresh
  have hdrafts : Object.Drafts { slot.cleared with type := .packed }
      ⟨[], [], .packed, slot.cleared.stackAlloc⟩ :=
    ⟨by rw [Object.contents]; simp only [hsize, List.take_zero], hsize, h.cleared, hstack, rfl, rfl⟩
  have hpacked : Draft.Packed ⟨[], [], .packed, slot.cleared.stackAlloc⟩ :=
    ⟨rfl, fun _ hentry => absurd hentry List.not_mem_nil⟩
  have htype : slot.cleared.setType .packed = (0, { slot.cleared with type := .packed }) :=
    if_neg (by rw [hwrcnt]; decide)
  rw [beerObjectVformat, htype] at hformat
  obtain ⟨hcontents, hlength, has, hextends⟩ := vformatLoop_drafts hmp hdrafts hpacked hformat
  have hsame : slot.cleared.Extends { slot.cleared with type := .packed } := .of_data rfl rfl
  exact ⟨hcontents, hlength, has, hsame.trans hextends⟩

theorem Owned.setFormat (hmp : mp.Lawful) (h : slot.Owned) {rc : Int}
    (hset : slot.setFormat mp toFloat fmt vl = .ok (rc, slot')) : slot'.Owned := by
  obtain ⟨⟨res, o⟩, hformat, hset⟩ := bind_eq_ok.mp hset
  obtain ⟨-, -, has, -⟩ := h.vformat hmp hformat
  dsimp only at hset
  split at hset <;> obtain ⟨-, rfl⟩ := Prod.mk.inj (Except.ok.inj hset)
  all_goals
    intro o' ho'
    cases ho'
    exact has

theorem Reached.owned (hmp : mp.Lawful) (h : Reached mp toFloat slot) : slot.Owned := by
  induction h with
  | init => exact fun o ho => nomatch ho
  | point bytes _ ih => exact ih
  | format _ hset ih => exact ih.setFormat hmp hset

/-- The slot has the value that its object holds. -/
structure Carries (slot : Slot) (o : Object) : Prop where
  object_eq : slot.object = some o
  span_eq : slot.span = o.data.elim .null fun mem => .inside mem.length o.size
  as_eq : o.as = false
  size_le : o.size ≤ o.alloc

theorem carries_of_setFormat (hmp : mp.Lawful) (h : slot.Owned)
    (hset : slot.setFormat mp toFloat fmt vl = .ok (0, slot')) : ∃ o, slot'.Carries o := by
  obtain ⟨⟨res, o⟩, hformat, hset⟩ := bind_eq_ok.mp hset
  obtain ⟨hcontents, hsize, has, -⟩ := h.vformat hmp hformat
  dsimp only at hset
  split at hset
  · cases hset
  · obtain ⟨-, rfl⟩ := Prod.mk.inj (Except.ok.inj hset)
    refine ⟨o, rfl, ?_, has, Object.size_le_of_contents hcontents hsize⟩
    cases o.data <;> rfl

theorem Carries.read_eq {o : Object} (h : slot.Carries o) :
    slot.read = .ok (o.data.map fun _ => o.contents) := by
  have hsize := h.size_le
  unfold Slot.read
  rw [h.span_eq, h.object_eq]
  cases hdata : o.data with
  | none => rfl
  | some mem =>
      simp only [Object.alloc, Object.contents, hdata, Option.getD_some, Option.elim_some,
        Option.bind_some, Option.map_some, true_and] at hsize ⊢
      by_cases hzero : o.size = 0
      · rw [if_pos hzero, hzero, List.take_zero]
      · rw [if_neg hzero, if_pos hsize]

theorem Carries.failed (hmp : mp.Lawful) {o : Object} (h : slot.Carries o)
    (hset : slot.setFormat mp toFloat fmt vl = .ok (-1, slot')) :
    ∃ o', slot' = { slot with object := some o' } ∧
      o'.contents = slot.written toFloat fmt vl ∧
      o'.size = (slot.written toFloat fmt vl).length ∧
      ((slot.written toFloat fmt vl).length ≤ o.alloc → o'.alloc = o.alloc ∧
        (o'.data.getD []).drop (slot.written toFloat fmt vl).length =
          (o.data.getD []).drop (slot.written toFloat fmt vl).length) := by
  have howned : slot.Owned := by
    intro o' ho'
    rw [h.object_eq] at ho'
    cases ho'
    exact h.as_eq
  obtain ⟨⟨res, o'⟩, hformat, hset⟩ := bind_eq_ok.mp hset
  obtain ⟨hcontents, hsize, -, hextends⟩ := howned.vformat hmp hformat
  have hcleared : slot.cleared = (beerObjectReset o).2 := by rw [Slot.cleared, h.object_eq]
  dsimp only at hset
  split at hset
  · obtain ⟨-, rfl⟩ := Prod.mk.inj (Except.ok.inj hset)
    refine ⟨o', rfl, hcontents, hsize, ?_⟩
    rw [← hsize]
    rw [hcleared] at hextends
    exact hextends.kept
  · cases (Prod.mk.inj (Except.ok.inj hset)).1

theorem overwritten {o o' : Object} {mem bytes : Bytes} (hdata : o.data = some mem)
    (hpos : 0 < mem.length) (hcontents : o'.contents = bytes) (hsize : o'.size = bytes.length)
    (hkept : o'.alloc = o.alloc ∧
      (o'.data.getD []).drop bytes.length = (o.data.getD []).drop bytes.length) :
    o'.data = some (bytes ++ mem.drop bytes.length) ∧
      (bytes ++ mem.drop bytes.length).length = mem.length := by
  obtain ⟨halloc, hdrop⟩ := hkept
  rw [Object.alloc, Object.alloc, hdata, Option.getD_some] at halloc
  cases hdata' : o'.data with
  | none =>
      rw [hdata', Option.getD_none, List.length_nil] at halloc
      omega
  | some mem' =>
      rw [hdata', Option.getD_some] at halloc
      rw [hdata', hdata, Option.getD_some, Option.getD_some] at hdrop
      rw [Object.contents, hdata', Option.getD_some, hsize] at hcontents
      have hmem : mem' = bytes ++ mem.drop bytes.length := by
        conv_lhs => rw [← List.take_append_drop bytes.length mem', hcontents, hdrop]
      exact ⟨congrArg some hmem, by rw [← hmem, halloc]⟩

/-- The value can be read as before exactly if it was spared. Otherwise its block has been replaced,
or other bytes are in its place. -/
theorem Carries.read_failed (hmp : mp.Lawful) {o : Object} (h : slot.Carries o)
    (hset : slot.setFormat mp toFloat fmt vl = .ok (-1, slot')) :
    slot.Spared (slot.written toFloat fmt vl) ∧ slot'.read = slot.read ∨
      ¬slot.Spared (slot.written toFloat fmt vl) ∧ ((∃ reason, slot'.read = .error reason) ∨
        ∃ old new, slot.read = .ok (some old) ∧ slot'.read = .ok (some new) ∧
          new.length = old.length ∧ new ≠ old) := by
  obtain ⟨o', rfl, hcontents, hsize, hkept⟩ := h.failed hmp hset
  generalize slot.written toFloat fmt vl = bytes at hcontents hsize hkept ⊢
  have hspared : slot.Spared bytes ↔
      o.size = 0 ∨ bytes.length ≤ o.alloc ∧ (bytes <+: o.contents ∨ o.contents <+: bytes) := by
    simp only [Spared, h.object_eq, Option.mem_some_iff, forall_eq']
  have hread := h.read_eq
  have hle := h.size_le
  rw [hspared]
  cases hdata : o.data with
  | none =>
      have hspan : slot.span = .null := by rw [h.span_eq, hdata, Option.elim_none]
      rw [Object.alloc, hdata, Option.getD_none, List.length_nil, Nat.le_zero] at hle
      refine .inl ⟨.inl hle, ?_⟩
      simp only [read, hspan]
  | some mem =>
      have hspan : slot.span = .inside mem.length o.size := by
        rw [h.span_eq, hdata, Option.elim_some]
      rw [hdata, Option.map_some] at hread
      have halloc : o.alloc = mem.length := by rw [Object.alloc, hdata, Option.getD_some]
      by_cases hzero : o.size = 0
      · refine .inl ⟨.inl hzero, ?_⟩
        simp only [read, hspan, hzero, if_true]
      have hread' : read { slot with object := some o' } =
          match o'.data with
          | none => .error .nullPointer
          | some mem' =>
              if mem'.length = mem.length ∧ o.size ≤ mem.length then .ok (some (mem'.take o.size))
              else .error .outOfBounds := by
        simp only [read, hspan, hzero, if_false, Option.bind_some]
      have hle' := Object.size_le_of_contents hcontents hsize
      by_cases hroom : bytes.length ≤ o.alloc
      · obtain ⟨hdata', hlength⟩ := overwritten hdata (by omega) hcontents hsize (hkept hroom)
        have hold : o.contents = mem.take o.size := by
          rw [Object.contents, hdata, Option.getD_some]
        rw [hdata'] at hread'
        replace hread' := hread'.trans (if_pos ⟨hlength, halloc ▸ hle⟩)
        rw [hread, hread', hold]
        have hiff := @take_overwritten_iff mem bytes o.size (halloc ▸ hle)
        by_cases hsame : (bytes ++ mem.drop bytes.length).take o.size = mem.take o.size
        · exact .inl ⟨.inr ⟨hroom, hiff.mp hsame⟩, by rw [hsame]⟩
        · refine .inr ⟨?_, .inr ⟨_, _, rfl, rfl, ?_, hsame⟩⟩
          · rintro (hzero' | ⟨-, hprefix⟩)
            · exact hzero hzero'
            · exact hsame (hiff.mpr hprefix)
          · rw [List.length_take, List.length_take, hlength]
      · refine .inr ⟨?_, .inl ?_⟩
        · rintro (hzero' | ⟨hroom', -⟩)
          · exact hzero hzero'
          · exact hroom hroom'
        · rw [hread']
          cases hdata' : o'.data with
          | none => exact ⟨_, rfl⟩
          | some mem' =>
              have hlarger : mem'.length ≠ mem.length := by
                rw [Object.alloc, hdata', Option.getD_some] at hle'
                omega
              exact ⟨_, if_neg fun hsame => hlarger hsame.1⟩

end Slot

/-- The request with a value for its key or its tuple. -/
def Request.withValue (req : Request) (name : SlotName) (value : Bytes) : Request :=
  match name with
  | .key => { req with key := some value }
  | .tuple => { req with tuple := some value }

theorem keyEntry_isNone (type : RequestType) (key key' : Bytes) :
    (Request.keyEntry type key).isNone = (Request.keyEntry type key').isNone := by
  cases type <;> rfl

theorem rawKeyEntry_behind {type : RequestType} {key : Bytes}
    (h : Request.keyEntry type key ≠ none) :
    ∃ field head, ∀ other : Bytes, other.length = key.length →
      Request.rawKeyEntry type other = some (field, head ++ other) := by
  cases type with
  | eval =>
      refine ⟨.expression, strHeader (key.length % 2 ^ 32), fun other hother => ?_⟩
      simp only [Request.rawKeyEntry, hother]
  | call | call16 =>
      refine ⟨.function, strHeader (key.length % 2 ^ 32), fun other hother => ?_⟩
      simp only [Request.rawKeyEntry, hother]
  | select | update | delete | upsert => exact ⟨_, [], fun _ _ => rfl⟩
  | _ => exact absurd rfl h

theorem rawEntries_withValue (req : Request) (name : SlotName) {old : Bytes}
    (hkey : ¬(req.withValue name old).Refused) :
    ∃ front field head back, ∀ value : Bytes, value.length = old.length →
      (req.withValue name value).rawEntries = front ++ (field, head ++ value) :: back := by
  cases name with
  | key =>
      have hentry : Request.keyEntry req.type old ≠ none := fun hnone => hkey ⟨old, rfl, hnone⟩
      obtain ⟨field, head, hraw⟩ := rawKeyEntry_behind hentry
      refine ⟨req.numbers, field, head, req.tupleEntries ++ req.indexBaseEntries,
        fun value hvalue => ?_⟩
      have hkeys : (req.withValue .key value).rawKeyEntries = [(field, head ++ value)] := by
        show (Request.rawKeyEntry req.type value).toList = _
        rw [hraw value hvalue, Option.toList_some]
      rw [Request.rawEntries, hkeys, List.append_assoc, List.append_assoc]
      rfl
  | tuple =>
      refine ⟨req.numbers ++ req.rawKeyEntries, .tuple, [], req.indexBaseEntries, fun value _ => ?_⟩
      have htuple : (req.withValue .tuple value).tupleEntries = [(.tuple, value)] := rfl
      rw [Request.rawEntries, htuple, List.append_assoc]
      rfl

theorem withValue_inj {req : Request} {name : SlotName} {old new frame : Bytes} {code sync : Nat}
    (hkey : ¬(req.withValue name old).Refused) (hlength : new.length = old.length)
    (hold : Framed frame (encodeHeaderMap code sync ++
      (mapHeader (req.withValue name old).rawEntries.length ++
        encodeEntries (req.withValue name old).rawEntries)))
    (hnew : Framed frame (encodeHeaderMap code sync ++
      (mapHeader (req.withValue name new).rawEntries.length ++
        encodeEntries (req.withValue name new).rawEntries))) : new = old := by
  obtain ⟨front, field, head, back, hentries⟩ := rawEntries_withValue req name hkey
  have hpayload := hnew.unique hold
  rw [hentries old rfl, hentries new hlength] at hpayload
  simp only [List.length_append, List.length_cons, encodeEntries_append, encodeEntries_cons,
    List.append_assoc, List.append_cancel_left_eq] at hpayload
  exact (List.append_inj hpayload hlength).1

namespace FormatRequest

variable {mp : Msgpuck} {toFloat : UInt64 → UInt32} {r r' : FormatRequest} {name : SlotName}
  {σ : Type}

/-- The request that is written, if what it points to is there. -/
def written (r : FormatRequest) : Option Request :=
  if r.refused then some { r.base with key := some [], tuple := none } else r.deref.toOption

theorem frames_compile (garbage : Nat → UInt8) (s : Stream σ) (r : FormatRequest) :
    frames (r.compile mp garbage s) = r.written.bind fun req =>
      (beerRequestCompile mp garbage s req).toOption.map fun result =>
        result.2.1.handed.map List.flatten := by
  unfold frames compile written
  split
  · simp only [ok_bind, Option.bind_some]
    cases beerRequestCompile mp garbage s _ <;> rfl
  · cases r.deref with
    | error reason => rfl
    | ok req =>
        simp only [ok_bind, Except.toOption, Option.bind_some]
        cases beerRequestCompile mp garbage s _ <;> rfl

theorem frames_framed (hmp : mp.Lawful) (garbage : Nat → UInt8) (s : Stream σ) {req : Request}
    (hwritten : r.written = some req) (hsized : req.Sized) (hkey : ¬req.Refused) :
    ∃ v, frames (r.compile mp garbage s) = some (s.handed.map List.flatten ++ [v]) ∧
      Framed v (encodeHeaderMap req.type.id.toNat (requestNumber s (some int64Max)).toNat ++
        (mapHeader req.rawEntries.length ++ encodeEntries req.rawEntries)) := by
  obtain ⟨rv, s', req', sync, v, hrun, hhanded, hframed⟩ :=
    beerRequestWriteout_framed hmp garbage s hsized hkey (some int64Max)
  refine ⟨v.flatten, ?_, hframed⟩
  rw [frames_compile, hwritten, Option.bind_some, beerRequestCompile, hrun]
  simp only [ok_bind]
  have hflat : s'.handed.map List.flatten = s.handed.map List.flatten ++ [v.flatten] := by
    rw [hhanded, List.map_append, List.map_singleton]
  split <;> exact congrArg some hflat

theorem withSlot_self (r : FormatRequest) (name : SlotName) : r.withSlot name (r.slot name) = r := by
  cases name <;> rfl

theorem withSlot_base (r : FormatRequest) (name : SlotName) (slot : Slot) :
    (r.withSlot name slot).base = r.base := by
  cases name <;> rfl

theorem refused_withSlot {new : Slot} (hspan : new.span = (r.slot name).span) :
    (r.withSlot name new).refused = r.refused := by
  cases name with
  | key =>
      simp only [slot] at hspan
      simp only [refused, withSlot, hspan]
  | tuple => rfl

theorem deref_withSlot {slot : Slot} {req : Request} {value : Bytes} (hderef : r.deref = .ok req)
    (hread : slot.read = .ok (some value)) :
    (r.withSlot name slot).deref = .ok (req.withValue name value) := by
  obtain ⟨key, hkey, hrest⟩ := bind_eq_ok.mp hderef
  obtain ⟨tuple, htuple, hreq⟩ := bind_eq_ok.mp hrest
  cases hreq
  cases name with
  | key => simp only [deref, withSlot, hread, htuple, ok_bind, pure_eq, Request.withValue]
  | tuple => simp only [deref, withSlot, hread, hkey, ok_bind, pure_eq, Request.withValue]

theorem deref_withSlot_error {slot : Slot} {reason : Fault} (hread : slot.read = .error reason) :
    (r.withSlot name slot).deref.toOption = none := by
  cases name with
  | key =>
      simp only [deref, withSlot, hread, error_bind]
      rfl
  | tuple =>
      simp only [deref, withSlot, hread]
      cases r.key.read <;> rfl

theorem deref_withSlot_same {slot : Slot} (hread : slot.read = (r.slot name).read) :
    (r.withSlot name slot).deref = r.deref := by
  cases name with
  | key =>
      simp only [FormatRequest.slot] at hread
      simp only [deref, withSlot, hread]
  | tuple =>
      simp only [FormatRequest.slot] at hread
      simp only [deref, withSlot, hread]

theorem deref_withSlot_none {new : Slot} {value : Option Bytes} (hderef : r.deref.toOption = none)
    (hread : (r.slot name).read = .ok value) : (r.withSlot name new).deref.toOption = none := by
  cases name with
  | key =>
      simp only [slot] at hread
      simp only [deref, withSlot, hread, ok_bind] at hderef ⊢
      cases htuple : r.tuple.read with
      | error reason => cases new.read <;> rfl
      | ok tuple =>
          rw [htuple] at hderef
          cases hderef
  | tuple =>
      simp only [slot] at hread
      simp only [deref, withSlot, hread, ok_bind] at hderef ⊢
      cases hkey : r.key.read with
      | error reason => rfl
      | ok key =>
          rw [hkey] at hderef
          cases hderef

theorem not_refused_of_deref {req : Request} (hrefused : r.refused = false)
    (hderef : r.deref = .ok req) : ¬req.Refused := by
  obtain ⟨key, hread, hrest⟩ := bind_eq_ok.mp hderef
  obtain ⟨tuple, -, hreq⟩ := bind_eq_ok.mp hrest
  cases hreq
  rintro ⟨value, rfl, hnone⟩
  have hspan : r.key.span ≠ .null := by
    intro hnull
    simp only [Slot.read, hnull] at hread
    cases hread
  have hentry := keyEntry_isNone r.base.type [] value
  rw [show Request.keyEntry r.base.type value = none from hnone] at hentry
  rw [refused, hentry] at hrefused
  simp only [hspan, ne_eq, not_false_eq_true, Option.isNone_none, and_self, decide_true] at hrefused
  cases hrefused

theorem sameFrame_of_written (h : r'.written = r.written) : r.SameFrame mp r' := by
  intro σ garbage s
  rw [frames_compile, frames_compile, h]

theorem written_of_deref {req : Request} (hrefused : r.refused = false)
    (hderef : r.deref.toOption = some req) : r.written = some req := by
  rw [written, hrefused, if_neg Bool.false_ne_true, hderef]

theorem not_sameFrame_of_value (hmp : mp.Lawful) {req : Request} {old new : Bytes} {slot : Slot}
    (hrefused : r.refused = false) (hrefused' : (r.withSlot name slot).refused = false)
    (hderef : r.deref = .ok req) (hsized : req.Sized) (hold : (r.slot name).read = .ok (some old))
    (hnew : slot.read = .ok (some new)) (hlength : new.length = old.length) (hne : new ≠ old) :
    ¬r.SameFrame mp (r.withSlot name slot) := by
  have hreq : req = req.withValue name old := by
    have hself := @deref_withSlot r name (r.slot name) req old hderef hold
    rw [withSlot_self, hderef] at hself
    exact Except.ok.inj hself
  have hderef' := @deref_withSlot r name slot req new hderef hnew
  have hkey := not_refused_of_deref hrefused hderef
  have hkey' := not_refused_of_deref hrefused' hderef'
  have hsized' : (req.withValue name new).Sized := by
    rw [hreq] at hsized
    cases name with
    | key => exact ⟨fun h => by cases h; rw [hlength]; exact hsized.key rfl, hsized.tuple⟩
    | tuple => exact ⟨hsized.key, fun h => by cases h; rw [hlength]; exact hsized.tuple rfl⟩
  intro hsame
  obtain ⟨v, hframes, hframed⟩ := frames_framed hmp (fun _ => 0) (collecting 0)
    (written_of_deref hrefused (by rw [hderef]; rfl)) hsized hkey
  obtain ⟨v', hframes', hframed'⟩ := frames_framed hmp (fun _ => 0) (collecting 0)
    (written_of_deref hrefused' (by rw [hderef']; rfl)) hsized' hkey'
  have hv := hsame Bytes (fun _ => 0) (collecting 0)
  rw [hframes, hframes', Option.some.injEq, List.append_cancel_left_eq] at hv
  cases hv
  have htype : (req.withValue name new).type = req.type := by cases name <;> rfl
  rw [hreq] at hkey hframed
  have htype' : (req.withValue name old).type = req.type := by cases name <;> rfl
  rw [htype] at hframed'
  rw [htype'] at hframed
  exact hne (withValue_inj hkey hlength hframed hframed')

theorem setFormat_sameFrame_iff (hmp : mp.Lawful) {o : Object} (hcarries : (r.slot name).Carries o)
    {fmt : List Char} {vl : List FormatArg}
    (hfail : r.setFormat mp toFloat name fmt vl = .ok (-1, r'))
    (hsized : ∀ req, r.deref = .ok req → req.Sized) :
    r.SameFrame mp r' ↔
      (r.Compiles → (r.slot name).Spared ((r.slot name).written toFloat fmt vl)) := by
  obtain ⟨⟨rc, slot⟩, hset, hr'⟩ := bind_eq_ok.mp hfail
  obtain ⟨rfl, rfl⟩ := Prod.mk.inj (Except.ok.inj hr')
  obtain ⟨o', hslot, -⟩ := hcarries.failed hmp hset
  have hrefused := @refused_withSlot r name slot (by rw [hslot])
  have hbase := withSlot_base r name slot
  rcases hcarries.read_failed hmp hset with ⟨hspared, hread⟩ | ⟨hspared, hread⟩
  · refine iff_of_true (sameFrame_of_written ?_) fun _ => hspared
    rw [written, written, hrefused, hbase, deref_withSlot_same hread]
  constructor
  · rintro hsame ⟨hnot, req, hderef⟩
    rw [hnot] at hrefused
    exfalso
    rcases hread with ⟨reason, hread⟩ | ⟨old, new, hold, hnew, hlength, hne⟩
    · obtain ⟨v, hframes, -⟩ := frames_framed hmp (fun _ => 0) (collecting 0)
        (written_of_deref hnot (by rw [hderef]; rfl)) (hsized req hderef)
        (not_refused_of_deref hnot hderef)
      have hnone := hsame Bytes (fun _ => 0) (collecting 0)
      rw [hframes, frames_compile, written, hrefused, if_neg Bool.false_ne_true,
        deref_withSlot_error hread] at hnone
      cases hnone
    · exact not_sameFrame_of_value hmp hnot hrefused hderef (hsized req hderef) hold hnew hlength
        hne hsame
  · intro hcompiles
    have hnone : ¬r.Compiles := fun h => hspared (hcompiles h)
    refine sameFrame_of_written ?_
    rw [written, written, hrefused, hbase]
    by_cases hnot : r.refused = true
    · rw [if_pos hnot, if_pos hnot]
    rw [if_neg hnot, if_neg hnot]
    have hderef : r.deref.toOption = none := by
      cases hderef : r.deref with
      | error reason => rfl
      | ok req => exact absurd ⟨Bool.not_eq_true _ ▸ hnot, req, hderef⟩ hnone
    rw [hderef, deref_withSlot_none hderef hcarries.read_eq]

end FormatRequest

/-- The slot is as a successful call has left it, on a request that had been set in any way. -/
def Slot.Formatted (mp : Msgpuck) (toFloat : UInt64 → UInt32) (slot : Slot) : Prop :=
  ∃ (before : Slot) (fmt : List Char) (vl : List FormatArg), Reached mp toFloat before ∧
    before.setFormat mp toFloat fmt vl = .ok (0, slot)

theorem Slot.Formatted.carries {mp : Msgpuck} (hmp : mp.Lawful) {toFloat : UInt64 → UInt32}
    {slot : Slot} (h : slot.Formatted mp toFloat) : ∃ o, slot.Carries o := by
  obtain ⟨before, fmt, vl, hreached, hset⟩ := h
  exact carries_of_setFormat hmp (hreached.owned hmp) hset

/-- For a request whose key or tuple is from an earlier format, a call that fails leaves the frame
as it was exactly if there is none, or if what the calls in front of the one that fails write has
room in the block and begins like the value that is there. -/
theorem failedFormat_sameFrame_iff {mp : Msgpuck} (hmp : mp.Lawful) (toFloat : UInt64 → UInt32)
    {r r' : FormatRequest} {fmt : List Char} {vl : List FormatArg}
    (hsized : ∀ req, r.deref = .ok req → req.Sized) :
    (r.key.Formatted mp toFloat → r.setKeyFormat mp toFloat fmt vl = .ok (-1, r') →
      (r.SameFrame mp r' ↔ (r.Compiles → r.key.Spared (r.key.written toFloat fmt vl)))) ∧
    (r.tuple.Formatted mp toFloat → r.setTupleFormat mp toFloat fmt vl = .ok (-1, r') →
      (r.SameFrame mp r' ↔ (r.Compiles → r.tuple.Spared (r.tuple.written toFloat fmt vl)))) := by
  constructor
  · intro hformatted hfail
    obtain ⟨o, ho⟩ := hformatted.carries hmp
    exact @FormatRequest.setFormat_sameFrame_iff mp toFloat r r' .key hmp o ho fmt vl hfail hsized
  · intro hformatted hfail
    obtain ⟨o, ho⟩ := hformatted.carries hmp
    exact @FormatRequest.setFormat_sameFrame_iff mp toFloat r r' .tuple hmp o ho fmt vl hfail hsized

/-- A request for the tuples whose key is five. -/
def intKey : FormatRequest :=
  { base := { type := .select }
    key := ⟨some { wrcnt := 2, data := some [0x91, 0x05], size := 2, type := .packed },
      .inside 2 2⟩ }

theorem intKey_formatted : intKey.key.Formatted .reference fun _ => 0 :=
  ⟨{}, ['[', '%', 'd', ']'], [.int 5], .init, rfl⟩

theorem intKey_sized (req : Request) (h : intKey.deref = .ok req) : req.Sized := by
  cases h
  exact ⟨fun h => by cases h; decide, fun h => nomatch h⟩

theorem failedFormat_sameFrame_iff_bracket :
    ∃ r', intKey.setKeyFormat .reference (fun _ => 0) ['[', '%', 'd', ']', ']'] [.int 5] =
        .ok (-1, r') ∧ intKey.SameFrame .reference r' := by
  obtain ⟨r', hfail⟩ : ∃ r', intKey.setKeyFormat .reference (fun _ => 0)
      ['[', '%', 'd', ']', ']'] [.int 5] = .ok (-1, r') := ⟨_, rfl⟩
  refine ⟨r', hfail, ((failedFormat_sameFrame_iff Msgpuck.reference_lawful _ intKey_sized).1
    intKey_formatted hfail).mpr fun _ o ho => ?_⟩
  cases ho
  exact .inr ⟨by decide, .inl (by decide)⟩

/-- A map with a key and no value has put its header over that of the array. -/
theorem not_failedFormat_sameFrame :
    intKey.key.Formatted .reference (fun _ => 0) ∧
      ∃ r', intKey.setKeyFormat .reference (fun _ => 0) ['{', '%', 'd', '}'] [.int 5] =
          .ok (-1, r') ∧ ¬intKey.SameFrame .reference r' := by
  obtain ⟨o, ho⟩ := intKey_formatted.carries Msgpuck.reference_lawful
  obtain ⟨r', hfail⟩ : ∃ r', intKey.setKeyFormat .reference (fun _ => 0) ['{', '%', 'd', '}']
      [.int 5] = .ok (-1, r') := ⟨_, rfl⟩
  refine ⟨intKey_formatted, r', hfail, fun hsame => ?_⟩
  have hspared := (@FormatRequest.setFormat_sameFrame_iff _ _ intKey r' .key
    Msgpuck.reference_lawful o ho _ _ hfail intKey_sized).mp hsame ⟨rfl, _, rfl⟩ _ rfl
  have hprefix := (hspared.resolve_left (by decide)).2
  revert hprefix
  decide

end BeeC
