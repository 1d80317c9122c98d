import BeeC.RequestPaths

/-!
The numbers that are set on a request arrive as they are, up to one: `index_base` is kept in an
`int`, and encoded as an unsigned number of 64 bits.
-/

namespace BeeC

open BeeC.Wire.Memory
open BeeC.Wire.Loop
open BeeC.Wire.MessagePack
open BeeC.Wire.Encoding

variable {mp : Msgpuck} {σ : Type}

/-- The numbers that the setters of a request are given. -/
structure RequestNumbers where
  space : UInt32
  index : UInt32
  offset : UInt32
  limit : UInt32
  iterator : UInt32
  indexBase : UInt32

namespace RequestNumbers

def setters (n : RequestNumbers) : List (Request → Int × Request) :=
  [(·.setSpace n.space), (·.setIndex n.index), (·.setOffset n.offset), (·.setLimit n.limit),
    (·.setIterator n.iterator), (·.setIndexBase n.indexBase)]

/-- The keys that `beer_request_writeout` has for the numbers of a request of this type, with the
numbers that were set. -/
def transmitted (n : RequestNumbers) (type : RequestType) : List (BodyKey × UInt32) :=
  (if type.id < RequestType.call16.id then [(.space, n.space)] else []) ++
  (if type = .select ∨ type = .update ∨ type = .delete then [(.index, n.index)] else []) ++
  (if type = .select then
    [(.limit, n.limit), (.offset, n.offset), (.iterator, n.iterator)] else []) ++
  (if type = .update ∨ type = .upsert then [(.indexBase, n.indexBase)] else [])

/-- The request with the numbers. -/
def fill (n : RequestNumbers) (req : Request) : Request :=
  { req with
    spaceId := n.space, indexId := n.index, offset := n.offset, limit := n.limit,
    iterator := n.iterator, indexBase := n.indexBase.toInt32 }

theorem configure_setters (n : RequestNumbers) (req : Request) :
    configure n.setters req = some (n.fill req) := rfl

end RequestNumbers

/-- The number is what a body has under a key, or it is zero and the key is absent. -/
def Arrives (body : List (Nat × Field)) (field : BodyKey) (n : UInt32) : Prop :=
  body.lookup field.id.toNat = some (.number n.toNat) ∨
    body.lookup field.id.toNat = none ∧ n = 0

/-- A run of `beer_request_writeout` on a stream hands the parts of one frame to it, whose payload
is decoded to the given package. -/
def HandsOut (run : Except Fault (Int × Stream σ × Request × Option UInt64)) (s : Stream σ)
    (package : Package) : Prop :=
  ∃ (rv : Int) (s' : Stream σ) (req : Request) (sync : Option UInt64) (v : List Bytes)
    (payload : Bytes), run = .ok (rv, s', req, sync) ∧ s'.handed = s.handed ++ [v] ∧
    Framed v.flatten payload ∧ decodePackage payload = some package

theorem HandsOut.unique {run : Except Fault (Int × Stream σ × Request × Option UInt64)}
    {s : Stream σ} {package package' : Package} (h : HandsOut run s package)
    (h' : HandsOut run s package') : package = package' := by
  obtain ⟨rv, s₁, req, sync, v, payload, hrun, hhanded, hframed, hdecode⟩ := h
  obtain ⟨rv', s₁', req', sync', v', payload', hrun', hhanded', hframed', hdecode'⟩ := h'
  rw [hrun] at hrun'
  cases hrun'
  rw [hhanded] at hhanded'
  obtain rfl : v = v' := by simpa using hhanded'
  rw [hframed.unique hframed', hdecode', Option.some.injEq] at hdecode
  exact hdecode.symm

theorem beerRequestWriteout_handsOut (hmp : mp.Lawful) (garbage : Nat → UInt8) (s : Stream σ)
    {req : Request} (hvalid : req.Valid) (hkey : ¬req.Refused) (sync : Option UInt64) :
    HandsOut (beerRequestWriteout mp garbage s req sync) s
      ⟨req.type.id.toNat, (requestNumber s sync).toNat, req.entries.map readEntry⟩ := by
  have hvalid' : Request.Valid { req with sync := requestNumber s sync } :=
    ⟨hvalid.key, hvalid.tuple⟩
  obtain ⟨rv, s', req', sync', v, hrun, hhanded, hframed⟩ :=
    beerRequestWriteout_framed hmp garbage s hvalid.sized hkey sync
  rw [hvalid.rawEntries_eq] at hframed
  have hdecode := decodePackage_entries hvalid'
  exact ⟨rv, s', req', sync', v, _, hrun, hhanded, hframed, hdecode⟩

/-- The number that is encoded under a key, if there is one. -/
def Request.number (req : Request) : BodyKey → Option UInt64
  | .space => if req.type.id < RequestType.call16.id then some req.spaceId.toUInt64 else none
  | .index =>
      if req.indexId ≠ 0 ∧ (req.type = .select ∨ req.type = .update ∨ req.type = .delete) then
        some req.indexId.toUInt64
      else none
  | .limit => if req.type = .select then some req.limit.toUInt64 else none
  | .offset => if req.offset ≠ 0 ∧ req.type = .select then some req.offset.toUInt64 else none
  | .iterator => if req.iterator ≠ 0 ∧ req.type = .select then some req.iterator.toUInt64 else none
  | .indexBase =>
      if req.indexBase ≠ 0 ∧ (req.type = .update ∨ req.type = .upsert) then
        some req.indexBase.toInt64.toUInt64
      else none
  | _ => none

/-- The keys whose values are numbers. -/
def numberKeys : List BodyKey := [.space, .index, .limit, .offset, .iterator, .indexBase]

theorem mem_entryWhen_iff {when : Bool} {entry found : BodyKey × Bytes} :
    found ∈ entryWhen when entry ↔ when = true ∧ found = entry := by
  cases when <;> simp [entryWhen]

theorem not_mem_keyEntries (req : Request) {field : BodyKey} (h : field ∈ numberKeys)
    (value : Bytes) : (field, value) ∉ req.keyEntries := by
  obtain ⟨found, hsublist, hfound⟩ := keyEntries_sublist req
  intro hmem
  obtain rfl : field = found := List.mem_singleton.mp (hsublist.subset (List.mem_map_of_mem hmem))
  revert h hfound
  cases field <;> decide

theorem not_mem_tupleEntries (req : Request) {field : BodyKey} (h : field ∈ numberKeys)
    (value : Bytes) : (field, value) ∉ req.tupleEntries := by
  intro hmem
  simp only [Request.tupleEntries, Option.mem_toList, Option.map_eq_some_iff, Prod.mk.injEq] at hmem
  obtain ⟨tuple, -, rfl, -⟩ := hmem
  revert h
  decide

theorem mem_entries_iff (req : Request) {field : BodyKey} (h : field ∈ numberKeys)
    (value : Bytes) : (field, value) ∈ req.entries ↔
      ∃ n, req.number field = some n ∧ value = encodeUint n.toNat := by
  simp only [Request.entries, Request.numbers, Request.indexBaseEntries, List.mem_append,
    mem_entryWhen_iff, not_mem_keyEntries req h, not_mem_tupleEntries req h, numberEntry,
    Prod.mk.injEq, decide_eq_true_eq, or_false]
  cases field <;> simp_all [Request.number, numberKeys]

theorem lookup_entries (req : Request) {field : BodyKey} (h : field ∈ numberKeys) :
    (req.entries.map readEntry).lookup field.id.toNat =
      (req.number field).map fun n => .number n.toNat := by
  have hentry := mem_entries_iff req h
  cases hlookup : (req.entries.map readEntry).lookup field.id.toNat with
  | none =>
      cases hnumber : req.number field with
      | none => rfl
      | some n =>
          have hmem : (field.id.toNat, Field.of (encodeUint n.toNat)) ∈
              req.entries.map readEntry :=
            List.mem_map.mpr ⟨_, (hentry _).mpr ⟨n, hnumber, rfl⟩, rfl⟩
          have hne := List.lookup_eq_none_iff.mp hlookup _ hmem
          simp at hne
  | some found =>
      obtain ⟨before, after, heq, -⟩ := List.lookup_eq_some_iff.mp hlookup
      have hmem : (field.id.toNat, found) ∈ req.entries.map readEntry := by simp [heq]
      obtain ⟨⟨field', value⟩, hmem', hread⟩ := List.mem_map.mp hmem
      obtain ⟨hkey, rfl⟩ := Prod.mk.inj hread
      obtain rfl : field' = field := BodyKey.id_injective hkey
      obtain ⟨n, hnumber, rfl⟩ := (hentry _).mp hmem'
      rw [hnumber, Option.map_some, Field.of_encodeUint n.toNat_lt]

theorem arrives_iff (req : Request) {field : BodyKey} (h : field ∈ numberKeys) (n : UInt32) :
    Arrives (req.entries.map readEntry) field n ↔
      req.number field = some n.toUInt64 ∨ req.number field = none ∧ n = 0 := by
  rw [Arrives, lookup_entries req h]
  cases hnumber : req.number field with
  | none => simp
  | some found => simp [← UInt64.toNat_inj]

theorem toUInt64_toInt32_iff (n : UInt32) :
    n.toInt32.toInt64.toUInt64 = n.toUInt64 ↔ n.toNat < 2 ^ 31 := by
  have hlt := n.toNat_lt
  have hextend : n.toInt32.toInt64.toUInt64.toNat = (n.toBitVec.signExtend 64).toNat := rfl
  rw [← UInt64.toNat_inj, hextend, BitVec.toNat_signExtend, BitVec.msb_eq_decide,
    BitVec.toNat_setWidth, UInt32.toNat_toBitVec, UInt32.toNat_toUInt64,
    Nat.mod_eq_of_lt (lt_trans hlt (by decide))]
  by_cases h : n.toNat < 2 ^ 31
  · simp
  · simp

theorem toInt32_eq_zero_iff (n : UInt32) : n.toInt32 = 0 ↔ n = 0 := by
  constructor
  · intro h
    exact congrArg Int32.toUInt32 h
  · rintro rfl
    rfl

theorem arrives_indexBase_iff (n : RequestNumbers) {req : Request}
    (h : req.type = .update ∨ req.type = .upsert) :
    Arrives ((n.fill req).entries.map readEntry) .indexBase n.indexBase ↔
      n.indexBase.toNat < 2 ^ 31 := by
  rw [arrives_iff _ (by decide)]
  by_cases hzero : n.indexBase = 0
  · simp [Request.number, RequestNumbers.fill, hzero]
  · have hbase : n.indexBase.toInt32 ≠ 0 := mt (toInt32_eq_zero_iff _).mp hzero
    simp [Request.number, RequestNumbers.fill, hzero, hbase, h, toUInt64_toInt32_iff]

theorem transmitted_cases (n : RequestNumbers) {req : Request} {entry : BodyKey × UInt32}
    (h : entry ∈ n.transmitted req.type) :
    (req.type = .update ∨ req.type = .upsert) ∧ entry = (.indexBase, n.indexBase) ∨
      Arrives ((n.fill req).entries.map readEntry) entry.1 entry.2 := by
  simp only [RequestNumbers.transmitted, List.mem_append, List.mem_ite_nil_right, List.mem_cons,
    List.not_mem_nil, or_false] at h
  rcases h with ((⟨htype, rfl⟩ | ⟨htype, rfl⟩) | ⟨htype, rfl | rfl | rfl⟩) | h
  · right
    rw [arrives_iff _ (by simp [numberKeys])]
    simp [Request.number, RequestNumbers.fill, htype]
  · right
    rw [arrives_iff _ (by simp [numberKeys])]
    by_cases hzero : n.index = 0 <;> simp [Request.number, RequestNumbers.fill, htype, hzero]
  · right
    rw [arrives_iff _ (by simp [numberKeys])]
    simp [Request.number, RequestNumbers.fill, htype]
  · right
    rw [arrives_iff _ (by simp [numberKeys])]
    by_cases hzero : n.offset = 0 <;> simp [Request.number, RequestNumbers.fill, htype, hzero]
  · right
    rw [arrives_iff _ (by simp [numberKeys])]
    by_cases hzero : n.iterator = 0 <;> simp [Request.number, RequestNumbers.fill, htype, hzero]
  · exact .inl h

/-- For every request with a key and a tuple that are values, and all numbers given to the setters,
the frame that is written has the numbers that its type transmits, exactly if the type does not
transmit the base of indexes or that is less than `2 ^ 31`. -/
theorem numbersArrive_iff (hmp : mp.Lawful) (garbage : Nat → UInt8) (s : Stream σ)
    (sync : Option UInt64) {req : Request} (hvalid : req.Valid) (hkey : ¬req.Refused)
    (n : RequestNumbers) :
    (∃ req' package, configure n.setters req = some req' ∧
      HandsOut (beerRequestWriteout mp garbage s req' sync) s package ∧
      ∀ entry ∈ n.transmitted req.type, Arrives package.body entry.1 entry.2) ↔
      (req.type = .update ∨ req.type = .upsert → n.indexBase.toNat < 2 ^ 31) := by
  have hvalid' : (n.fill req).Valid := ⟨hvalid.key, hvalid.tuple⟩
  have hhands := beerRequestWriteout_handsOut hmp garbage s hvalid' hkey sync
  rw [n.configure_setters]
  constructor
  · rintro ⟨req', package, hreq', hpackage, harrives⟩ htype
    cases hreq'
    rw [hpackage.unique hhands] at harrives
    refine (arrives_indexBase_iff n htype).mp (harrives (.indexBase, n.indexBase) ?_)
    simp [RequestNumbers.transmitted, htype]
  · intro hbase
    refine ⟨_, _, rfl, hhands, fun entry hentry => ?_⟩
    rcases transmitted_cases n hentry with ⟨htype, rfl⟩ | harrives
    · exact (arrives_indexBase_iff n htype).mpr (hbase htype)
    · exact harrives

/-- An update of no fields of the tuple with an empty key. -/
def updateNothing : Request := { type := .update, key := some [0x90], tuple := some [0x90] }

theorem updateNothing_valid : updateNothing.Valid ∧ ¬updateNothing.Refused := by
  refine ⟨⟨fun h => ?_, fun h => ?_⟩, fun ⟨key, hkey, hentry⟩ => ?_⟩
  · cases h
    exact ⟨show IsValue [0x90] by decide, by decide⟩
  · cases h
    exact ⟨show IsValue [0x90] by decide, by decide⟩
  · cases hkey
    cases hentry

theorem numbersArrive_iff_updateNothing :
    Msgpuck.reference.Lawful ∧ updateNothing.Valid ∧ ¬updateNothing.Refused ∧
      ((∃ req' package, configure (RequestNumbers.setters ⟨512, 0, 0, 0, 0, 1⟩) updateNothing =
          some req' ∧
        HandsOut (beerRequestWriteout .reference (fun _ => 0) (collecting 7) req' none)
          (collecting 7) package ∧
        ∀ entry ∈ RequestNumbers.transmitted ⟨512, 0, 0, 0, 0, 1⟩ .update,
          Arrives package.body entry.1 entry.2) ↔
        (RequestType.update = .update ∨ RequestType.update = .upsert →
          (1 : UInt32).toNat < 2 ^ 31)) :=
  ⟨Msgpuck.reference_lawful, updateNothing_valid.1, updateNothing_valid.2,
    numbersArrive_iff Msgpuck.reference_lawful (fun _ => 0) (collecting 7) none
      updateNothing_valid.1 updateNothing_valid.2 ⟨512, 0, 0, 0, 0, 1⟩⟩

/-- The base `2 ^ 32 - 1` of an update arrives as `2 ^ 64 - 1`. -/
theorem not_numbersArrive :
    (.indexBase, 0xffffffff) ∈ RequestNumbers.transmitted ⟨512, 0, 0, 0, 0, 0xffffffff⟩ .update ∧
      ∃ req package, configure (RequestNumbers.setters ⟨512, 0, 0, 0, 0, 0xffffffff⟩)
          updateNothing = some req ∧
        HandsOut (beerRequestWriteout .reference (fun _ => 0) (collecting 7) req none)
          (collecting 7) package ∧
        package.body.lookup BodyKey.indexBase.id.toNat = some (.number 0xffffffffffffffff) ∧
        ¬Arrives package.body .indexBase 0xffffffff := by
  have hvalid : (RequestNumbers.fill ⟨512, 0, 0, 0, 0, 0xffffffff⟩ updateNothing).Valid :=
    ⟨updateNothing_valid.1.key, updateNothing_valid.1.tuple⟩
  have hhands := beerRequestWriteout_handsOut Msgpuck.reference_lawful (fun _ => 0) (collecting 7)
    hvalid updateNothing_valid.2 none
  refine ⟨by decide, _, _, rfl, hhands, ?_, ?_⟩
  · rw [lookup_entries _ (by decide)]
    decide
  · rw [arrives_iff _ (by decide)]
    decide

end BeeC
