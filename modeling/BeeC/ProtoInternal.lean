import BeeC.Wire.Loop
import BeeC.Object
import BeeC.Package

namespace BeeC

open BeeC.Wire
open BeeC.Wire.BigEndian
open BeeC.Wire.Memory
open BeeC.Wire.Loop
open BeeC.Wire.MessagePack
open BeeC.Wire.Encoding

/-- `struct beer_stream`, as far as the builders use it: the next request number, and the
callback that writes parts to whatever is behind the stream. The calls of the callback are
recorded. -/
structure Stream (σ : Type) where
  reqid : UInt64
  writev : List Bytes → σ → Ssize × σ
  io : σ
  handed : List (List Bytes) := []

/-- `s->writev(s, v, v_sz)`. -/
def Stream.send {σ : Type} (s : Stream σ) (v : List Bytes) : Ssize × Stream σ :=
  ((s.writev v s.io).1, { s with io := (s.writev v s.io).2, handed := s.handed ++ [v] })

/-- A stream that collects what is written to it. -/
def collecting (reqid : UInt64) : Stream Bytes :=
  { reqid, writev := fun v io => ((v.flatten.length : Nat), io ++ v.flatten), io := [] }

/-- A local array that is not initialised, with a pointer to its start. -/
def uninitialised (garbage : Nat → UInt8) (size : Nat) : Cursor :=
  ⟨(List.range size).map garbage, 0⟩

/-- Store byte strings one behind the other, as a chain of `data = mp_encode_...(data, ...)`. -/
def emit (c : Cursor) : List Bytes → Except Fault Cursor
  | [] => .ok c
  | bytes :: rest =>
      match c.put bytes with
      | none => .error .outOfBounds
      | some c => emit c rest

def isCall (op : RequestType) : Bool := op = .call ∨ op = .call16

/-- `mp_encode_uint` of a key. -/
def encodeKey (mp : Msgpuck) (field : BodyKey) : Bytes :=
  mp.mpEncodeUint field.id.toUInt64

/-- `encode_header`: the array `header[25]`, cleared before, with a pointer to the end of the
encoded map. -/
def encodeHeader (mp : Msgpuck) (code : UInt32) (sync : UInt64) : Except Fault Cursor :=
  emit ⟨List.replicate 25 0, 0⟩ [
    mp.mpEncodeMap 2,
    mp.mpEncodeUint HeaderKey.code.id.toUInt64,
    mp.mpEncodeUint code.toUInt64,
    mp.mpEncodeUint HeaderKey.sync.id.toUInt64,
    mp.mpEncodeUint sync]

def mpSizeofLuint32 (num : UInt64) : Nat := if num ≤ 0xffffffff then 5 else 9

def mpEncodeLuint32 (mp : Msgpuck) (data : Cursor) (num : UInt64) : Except Fault Cursor :=
  if num ≤ 0xffffffff then emit data [mp.mpStoreU8 0xce, mp.mpStoreU32 num.toUInt32]
  else emit data [mp.mpStoreU8 0xcf, mp.mpStoreU64 num]

/-- The end of every builder: the parts `v[1]`, `v[2]`, … are summed up, their length is encoded
into `len_front[9]` for `v[0]`, and all are written. -/
def sendPackage {σ : Type} (mp : Msgpuck) (garbage : Nat → UInt8) (s : Stream σ)
    (v : List Bytes) : Except Fault (Ssize × Stream σ) := do
  let packageLen := UInt64.ofNat (v.map List.length).sum
  let lenEnd ← mpEncodeLuint32 mp (uninitialised garbage 9) packageLen
  return s.send (lenEnd.slice 0 lenEnd.pos :: v)

variable {mp : Msgpuck} {σ : Type}

theorem Stream.send_inj {s : Stream σ} {v v' : List Bytes} (h : (s.send v).2 = (s.send v').2) :
    v = v' := by
  have hhanded := congrArg Stream.handed h
  simpa [Stream.send] using hhanded

theorem uninitialised_holds (garbage : Nat → UInt8) (size : Nat) :
    (uninitialised garbage size).Holds [] size :=
  ⟨_, rfl, by simp⟩

theorem uninitialised_holds_at (garbage : Nat → UInt8) {size pos : Nat} (h : pos ≤ size) :
    ∃ before, before.length = pos ∧
      Cursor.Holds { uninitialised garbage size with pos } before size := by
  refine ⟨((List.range size).map garbage).take pos, by simp [h],
    ((List.range size).map garbage).drop pos, ?_, by simp [h]⟩
  simp [uninitialised, h]

theorem emit_eq {before room : Bytes} (parts : List Bytes)
    (h : parts.flatten.length ≤ room.length) :
    emit ⟨before ++ room, before.length⟩ parts = .ok
      ⟨(before ++ parts.flatten) ++ room.drop parts.flatten.length,
        (before ++ parts.flatten).length⟩ := by
  induction parts generalizing before room with
  | nil => simp [emit]
  | cons part parts ih =>
      rw [List.flatten_cons, List.length_append] at h
      rw [emit, Cursor.put_eq (by omega)]
      simp only
      rw [ih (by rw [List.length_drop]; omega), List.flatten_cons, List.append_assoc before part,
        @List.length_append _ part, List.drop_drop]

theorem emit_ok {c : Cursor} {bytes : Bytes} {size : Nat} (h : c.Holds bytes size)
    (parts : List Bytes) (hroom : bytes.length + parts.flatten.length ≤ size) :
    ∃ c', emit c parts = .ok c' ∧ c'.Holds (bytes ++ parts.flatten) size := by
  obtain ⟨room, rfl, hsize⟩ := h
  refine ⟨_, emit_eq parts (by omega), _, rfl, ?_⟩
  rw [List.length_append, List.length_drop]
  omega

theorem emit_two (garbage : Nat → UInt8) {size : Nat} {parts parts' : List Bytes}
    (hroom : parts.flatten.length + parts'.flatten.length ≤ size) :
    ∃ data data', emit (uninitialised garbage size) parts = .ok data ∧
      emit data parts' = .ok data' ∧ data'.slice 0 data.pos = parts.flatten ∧
      data'.slice data.pos data'.pos = parts'.flatten := by
  obtain ⟨data, hemit, hdata⟩ := emit_ok (uninitialised_holds garbage size) parts
    (by rw [List.length_nil]; omega)
  obtain ⟨data', hemit', hdata'⟩ := emit_ok hdata parts' (by rwa [List.nil_append])
  rw [List.nil_append] at hdata hdata'
  have hfirst : data'.Holds ([] ++ (parts.flatten ++ parts'.flatten)) size := hdata'
  have hsecond : data'.Holds (parts.flatten ++ (parts'.flatten ++ [])) size := by
    rwa [List.append_nil]
  refine ⟨data, data', hemit, hemit', ?_, ?_⟩
  · exact hfirst.slice rfl (by rw [hdata.pos_eq, List.length_nil, Nat.zero_add])
  · exact hsecond.slice hdata.pos_eq (by rw [hdata'.pos_eq, List.length_append])

section Lawful

variable (hmp : mp.Lawful)

include hmp

theorem encodeKey_eq (field : BodyKey) : encodeKey mp field = encodeUint field.id.toNat := by
  rw [encodeKey, hmp.encodeUint_eq, UInt32.toNat_toUInt64]

theorem encodeKey_length (field : BodyKey) : (encodeKey mp field).length = 1 := by
  rw [encodeKey_eq hmp]
  cases field <;> rfl

theorem encodeUint32_length_le (n : UInt32) : (mp.mpEncodeUint n.toUInt64).length ≤ 5 := by
  rw [hmp.encodeUint_eq, UInt32.toNat_toUInt64]
  exact encodeUint_length_le_five n.toNat_lt

theorem encodeHeader_ok {code : UInt32} (hcode : code.toNat < 0x80) (sync : UInt64) :
    ∃ hdr, encodeHeader mp code sync = .ok hdr ∧
      hdr.Holds (encodeHeaderMap code.toNat sync.toNat) 25 := by
  have hflatten : [mp.mpEncodeMap 2, mp.mpEncodeUint HeaderKey.code.id.toUInt64,
      mp.mpEncodeUint code.toUInt64, mp.mpEncodeUint HeaderKey.sync.id.toUInt64,
      mp.mpEncodeUint sync].flatten = encodeHeaderMap code.toNat sync.toNat := by
    simp [hmp.encodeMap_eq, hmp.encodeUint_eq, encodeHeaderMap, unpair, HeaderKey.id]
  have hlength := encodeHeaderMap_length_le hcode sync.toNat
  have hcleared : (⟨List.replicate 25 0, 0⟩ : Cursor).Holds [] 25 := ⟨_, rfl, by simp⟩
  obtain ⟨hdr, hemit, hhdr⟩ := emit_ok hcleared _ (by rw [hflatten, List.length_nil]; omega)
  exact ⟨hdr, hemit, by rwa [hflatten] at hhdr⟩

theorem mpEncodeLuint32_eq {num : Nat} (hnum : num < 2 ^ 64) :
    ∃ parts, parts.flatten = lengthPrefix num ∧
      ∀ data, mpEncodeLuint32 mp data (UInt64.ofNat num) = emit data parts := by
  have hvalue : (UInt64.ofNat num).toNat = num := by
    rw [UInt64.toNat_ofNat', Nat.mod_eq_of_lt hnum]
  have hle : UInt64.ofNat num ≤ 0xffffffff ↔ num ≤ 0xffffffff := by
    rw [UInt64.le_iff_toNat_le, hvalue]
    rfl
  unfold lengthPrefix mpEncodeLuint32
  by_cases hsmall : num ≤ 0xffffffff
  · rw [if_pos hsmall]
    have hlow : (UInt64.ofNat num).toUInt32.toNat = num := by
      rw [UInt64.toNat_toUInt32, hvalue]
      omega
    refine ⟨_, ?_, fun data => if_pos (hle.2 hsmall)⟩
    simp only [hmp.storeU8_eq, hmp.storeU32_eq, hlow, List.flatten_cons, List.flatten_nil,
      List.append_nil, List.singleton_append]
  · rw [if_neg hsmall]
    refine ⟨_, ?_, fun data => if_neg (mt hle.1 hsmall)⟩
    simp only [hmp.storeU8_eq, hmp.storeU64_eq, hvalue, List.flatten_cons, List.flatten_nil,
      List.append_nil, List.singleton_append]

omit hmp in
theorem mpSizeofLuint32_eq {num : Nat} (hnum : num < 2 ^ 64) :
    mpSizeofLuint32 (UInt64.ofNat num) = (lengthPrefix num).length := by
  have hle : UInt64.ofNat num ≤ 0xffffffff ↔ num ≤ 0xffffffff := by
    rw [UInt64.le_iff_toNat_le, UInt64.toNat_ofNat', Nat.mod_eq_of_lt hnum]
    rfl
  unfold mpSizeofLuint32 lengthPrefix
  by_cases hsmall : num ≤ 0xffffffff
  · rw [if_pos (hle.2 hsmall), if_pos hsmall]
    simp
  · rw [if_neg (mt hle.1 hsmall), if_neg hsmall]
    simp

theorem sendPackage_ok (garbage : Nat → UInt8) (s : Stream σ) {v : List Bytes}
    (h : v.flatten.length < 2 ^ 64) :
    sendPackage mp garbage s v = .ok (s.send (lengthPrefix v.flatten.length :: v)) := by
  have hfront := lengthPrefix_length_le v.flatten.length
  obtain ⟨parts, hparts, hencode⟩ := mpEncodeLuint32_eq hmp h
  obtain ⟨c, hemit, hc⟩ := emit_ok (uninitialised_holds garbage 9) parts
    (by rw [hparts, List.length_nil]; omega)
  rw [hparts, List.nil_append] at hc
  have hslice : c.slice 0 c.pos = lengthPrefix v.flatten.length := hc.slice_pos
  rw [List.length_flatten] at hencode
  simp only [sendPackage, hencode, hemit, ok_bind, hslice, pure_eq]

end Lawful

end BeeC
