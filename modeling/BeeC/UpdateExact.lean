import BeeC.ObjectGrowth
import BeeC.ObjectSimple
import BeeC.Update

namespace BeeC

open BeeC.Wire
open BeeC.Wire.Loop
open BeeC.Wire.Memory
open BeeC.Wire.MessagePack
open BeeC.Wire.Encoding

namespace UpdateCall

/-- The operation and the values behind the field number. -/
def operands : UpdateCall → UInt8 × List Bytes
  | bit _ op value => (op, [encodeUint value.toNat])
  | arithInt _ op value => (op, [Value.encodeSigned value.toInt])
  | arithFloat _ op bits => (op, [encodeFloat bits.toNat])
  | arithDouble _ op bits => (op, [encodeDouble bits.toNat])
  | delete _ fieldcount => (UpdateOp.delete.id, [encodeUint fieldcount.toNat])
  | insert _ val => (UpdateOp.insert.id, [val.object.contents])
  | assign _ val => (UpdateOp.assign.id, [val.object.contents])
  | splice _ position offset buffer => (UpdateOp.splice.id, [encodeUint position.toNat,
      encodeUint offset.toNat, strHeader buffer.bytes.length ++ buffer.bytes])

def fieldno : UpdateCall → UInt32
  | bit fieldno _ _ => fieldno
  | arithInt fieldno _ _ => fieldno
  | arithFloat fieldno _ _ => fieldno
  | arithDouble fieldno _ _ => fieldno
  | delete fieldno _ => fieldno
  | insert fieldno _ => fieldno
  | assign fieldno _ => fieldno
  | splice fieldno _ _ _ => fieldno

/-- The elements of the array that stands for the operation. -/
def fields (call : UpdateCall) : List Bytes :=
  (strHeader 1 ++ [call.operands.1]) :: encodeUint call.fieldno.toNat :: call.operands.2

/-- The array that stands for the operation. -/
def encoding (call : UpdateCall) : Bytes := arrayHeader call.fields.length ++ call.fields.flatten

/-- The size of the block for a splice, if it is not cut to 32 bits. -/
def spliceSize (position offset : UInt32) (buffer : Chunk) : Nat :=
  (encodeUint position.toNat).length + (encodeUint offset.toNat).length +
    ((strHeader buffer.bytes.length).length + buffer.bytes.length)

/-- The operator is one of the call's, or the value is one complete value. A splice is refused where
the 32 bits of its size are all zero. -/
def Valid : UpdateCall → Prop
  | bit _ op _ => op = UpdateOp.and.id ∨ op = UpdateOp.xor.id ∨ op = UpdateOp.or.id
  | arithInt _ op _ => op = UpdateOp.addition.id ∨ op = UpdateOp.substract.id
  | arithFloat _ op _ => op = UpdateOp.addition.id ∨ op = UpdateOp.substract.id
  | arithDouble _ op _ => op = UpdateOp.addition.id ∨ op = UpdateOp.substract.id
  | insert _ val => IsValue val.object.contents
  | assign _ val => IsValue val.object.contents
  | delete _ _ => True
  | splice _ position offset buffer => spliceSize position offset buffer ≠ 2 ^ 32

instance : DecidablePred Valid
  | bit _ _ _ => inferInstanceAs (Decidable (_ ∨ _ ∨ _))
  | arithInt _ _ _ => inferInstanceAs (Decidable (_ ∨ _))
  | arithFloat _ _ _ => inferInstanceAs (Decidable (_ ∨ _))
  | arithDouble _ _ _ => inferInstanceAs (Decidable (_ ∨ _))
  | delete _ _ => inferInstanceAs (Decidable True)
  | insert _ val => inferInstanceAs (Decidable (IsValue val.object.contents))
  | assign _ val => inferInstanceAs (Decidable (IsValue val.object.contents))
  | splice _ _ _ _ => inferInstanceAs (Decidable (_ ≠ _))

/-- A splice does not wrap around to a block that is too small for it. -/
def Fits : UpdateCall → Prop
  | splice _ position offset buffer => spliceSize position offset buffer ≤ 2 ^ 32
  | _ => True

end UpdateCall

theorem emit_overflow {c : Cursor} {bytes : Bytes} {size : Nat} (h : c.Holds bytes size)
    {parts : List Bytes} (hroom : size < bytes.length + parts.flatten.length) :
    emit c parts = .error .outOfBounds := by
  induction parts generalizing c bytes with
  | nil =>
      obtain ⟨room, -, hsize⟩ := h
      rw [List.flatten_nil, List.length_nil] at hroom
      omega
  | cons part parts ih =>
      rw [emit]
      by_cases hpart : bytes.length + part.length ≤ size
      · obtain ⟨c', hput, hc'⟩ := h.put part hpart
        rw [hput]
        refine ih hc' ?_
        rw [List.flatten_cons, List.length_append] at hroom
        rw [List.length_append]
        omega
      · obtain ⟨room, rfl, hsize⟩ := h
        have hpoke : poke (bytes ++ room) bytes.length part = none :=
          if_neg (by rw [List.length_append]; omega)
        simp only [Cursor.put, hpoke, Option.map_none]

section Calls

variable {mp : Msgpuck} (hmp : mp.Lawful) {sz : MsgpuckSizes} (hsz : sz.Lawful)

include hmp

theorem beerObjectVerify_none (o : StoredObject) :
    beerObjectVerify mp o.object none = .ok (if IsValue o.object.contents then 0 else -1) := by
  have hroom : ¬o.object.alloc < o.object.size := Nat.not_lt.mpr o.size_le
  simp only [beerObjectVerify, pure_eq, if_neg hroom, hmp.check_eq]
  cases hnext : next o.object.contents with
  | none =>
      have hvalue : ¬IsValue o.object.contents := by
        intro hvalue
        have happend := next_append hvalue []
        rw [List.append_nil, hnext] at happend
        cases happend
      rw [if_neg hvalue]
      rfl
  | some found =>
      obtain ⟨hcontents, hfound⟩ := next_eq_some hnext
      have hvalue : IsValue o.object.contents ↔ ¬found.1.length < o.object.contents.length := by
        constructor
        · intro hvalue
          have happend := next_append hvalue []
          rw [List.append_nil, hnext, Option.some.injEq] at happend
          rw [happend]
          exact Nat.lt_irrefl _
        · intro hall
          have hlength := congrArg List.length hcontents
          rw [List.length_append] at hlength
          have hrest : found.2 = [] := List.eq_nil_of_length_eq_zero (by omega)
          rw [hcontents, hrest, List.append_nil]
          exact hfound
      simp only [Option.map_some]
      by_cases hall : found.1.length < o.object.contents.length
      · rw [if_pos hall, if_neg (fun h => hvalue.mp h hall)]
      · rw [if_neg hall, if_pos (hvalue.mpr hall)]

theorem beerUpdateOp_eq (garbage : Nat → UInt8) (ops : Object) {op : UInt8} {count : Nat}
    (hcount : beerUpdateOpLen op = (count : Int)) (hsmall : count < 16) (fieldno : UInt32)
    (opdata : Bytes) : beerUpdateOp mp garbage ops op fieldno opdata =
      ops.write (arrayHeader count ++ ((strHeader 1 ++ [op]) ++
        (encodeUint fieldno.toNat ++ opdata))) := by
  have hlen : (UInt32.ofInt (beerUpdateOpLen op)).toNat = count := by
    rw [hcount, UInt32.ofInt, UInt32.toNat_ofNat_of_lt']
    · omega
    · simp only [UInt32.size]
      omega
  have hparts : ([mp.mpEncodeArray (UInt32.ofInt (beerUpdateOpLen op))] ++ mpEncodeStr mp [op] ++
      [mp.mpEncodeUint fieldno.toUInt64]).flatten =
        arrayHeader count ++ ((strHeader 1 ++ [op]) ++ encodeUint fieldno.toNat) := by
    simp [mpEncodeStr, hmp.encodeArray_eq, hmp.encodeStrl_eq, hmp.encodeUint_eq, hlen]
  have hheader : (arrayHeader count).length = 1 := by
    rw [arrayHeader, if_pos hsmall]
    rfl
  have hnumber := encodeUint_length_le fieldno.toNat
  obtain ⟨data, hemit, hdata⟩ := emit_ok (uninitialised_holds garbage 64)
    ([mp.mpEncodeArray (UInt32.ofInt (beerUpdateOpLen op))] ++ mpEncodeStr mp [op] ++
      [mp.mpEncodeUint fieldno.toUInt64]) (by
        rw [hparts]
        simp only [List.length_append, List.length_nil, hheader, List.length_singleton]
        have hstr : (strHeader 1).length = 1 := rfl
        omega)
  rw [List.nil_append, hparts] at hdata
  rw [beerUpdateOp, hemit, ok_bind, hdata.slice_pos]
  simp only [Object.writev, List.flatten_cons, List.flatten_nil, List.append_nil,
    List.append_assoc]

omit hmp in
theorem updateNumber_eq (garbage : Nat → UInt8) (ops : Object) (op : UInt8) (fieldno : UInt32)
    {number : Bytes} (h : number.length ≤ 10) :
    updateNumber mp garbage ops op fieldno number =
      beerUpdateOp mp garbage ops op fieldno number := by
  obtain ⟨data, hemit, hdata⟩ := emit_ok (uninitialised_holds garbage 10) [number]
    (by simpa using h)
  rw [List.nil_append, List.flatten_cons, List.flatten_nil, List.append_nil] at hdata
  simp only [updateNumber, hemit, ok_bind, hdata.slice_pos]

omit hmp in
include hsz in
theorem bufSize_toNat (position offset : UInt32) (buffer : Chunk) :
    (sz.mpSizeofUint position.toUInt64 + sz.mpSizeofUint offset.toUInt64 +
      sz.mpSizeofStr (UInt32.ofNat buffer.bytes.length)).toNat =
        UpdateCall.spliceSize position offset buffer % 2 ^ 32 := by
  rw [hsz.uint_eq, hsz.uint_eq, hsz.str_eq, UInt32.toNat_ofNat_of_lt' buffer.length_lt,
    ← UInt32.ofNat_add, ← UInt32.ofNat_add, UInt32.toNat_ofNat']
  rfl

omit hmp in
theorem spliceSize_bounds (position offset : UInt32) (buffer : Chunk) :
    0 < UpdateCall.spliceSize position offset buffer ∧
      UpdateCall.spliceSize position offset buffer < 2 ^ 32 + 2 ^ 32 := by
  have hposition := encodeUint_length_le position.toNat
  have hoffset := encodeUint_length_le offset.toNat
  have hpos := encodeUint_length_pos position.toNat
  have hheader := strHeader_length_le buffer.bytes.length
  have hbuffer := buffer.length_lt
  rw [UpdateCall.spliceSize]
  omega

omit hmp in
include hsz in
theorem bufSize_eq_zero_iff (position offset : UInt32) (buffer : Chunk) :
    sz.mpSizeofUint position.toUInt64 + sz.mpSizeofUint offset.toUInt64 +
      sz.mpSizeofStr (UInt32.ofNat buffer.bytes.length) = 0 ↔
        UpdateCall.spliceSize position offset buffer = 2 ^ 32 := by
  obtain ⟨hpos, hlt⟩ := spliceSize_bounds position offset buffer
  rw [← UInt32.toNat_inj, bufSize_toNat hsz, UInt32.toNat_zero]
  omega

include hsz in
theorem UpdateCall.run_rejected (garbage : Nat → UInt8) (ops : Object) {call : UpdateCall}
    (h : ¬call.Valid) : call.run mp sz garbage ops = .ok (-1, ops) := by
  cases call with
  | bit fieldno op value =>
      simp only [UpdateCall.Valid, not_or] at h
      exact if_pos h
  | arithInt fieldno op value =>
      simp only [UpdateCall.Valid, not_or] at h
      exact if_pos h
  | arithFloat fieldno op bits =>
      simp only [UpdateCall.Valid, not_or] at h
      exact if_pos h
  | arithDouble fieldno op bits =>
      simp only [UpdateCall.Valid, not_or] at h
      exact if_pos h
  | delete fieldno fieldcount => exact absurd trivial h
  | insert fieldno val =>
      have hvalue : ¬IsValue val.object.contents := h
      rw [UpdateCall.run, beerUpdateInsert, beerObjectVerify_none hmp, if_neg hvalue]
      rfl
  | assign fieldno val =>
      have hvalue : ¬IsValue val.object.contents := h
      rw [UpdateCall.run, beerUpdateAssign, beerObjectVerify_none hmp, if_neg hvalue]
      rfl
  | splice fieldno position offset buffer =>
      have hzero := (bufSize_eq_zero_iff hsz position offset buffer).mpr (not_not.mp h)
      rw [UpdateCall.run, beerUpdateSplice, if_pos hzero]
      rfl

omit hmp in
theorem UpdateCall.operands_values {call : UpdateCall} (h : call.Valid) :
    ∀ x ∈ call.operands.2, IsValue x := by
  have hsingle : ∀ {y : Bytes}, IsValue y → ∀ x ∈ [y], IsValue x := by
    intro y hy x hx
    rw [List.mem_singleton.mp hx]
    exact hy
  cases call with
  | bit fieldno op value => exact hsingle (isValue_encodeUint value.toNat_lt)
  | arithInt fieldno op value => exact hsingle (Value.isValue_encodeSigned value)
  | arithFloat fieldno op bits =>
      exact hsingle (isValue_encodeFor trivial : IsValue (encodeFor .simple (.float bits)))
  | arithDouble fieldno op bits =>
      exact hsingle (isValue_encodeFor trivial : IsValue (encodeFor .simple (.double bits)))
  | delete fieldno fieldcount =>
      exact hsingle (isValue_encodeUint (lt_trans fieldcount.toNat_lt (by decide)))
  | insert fieldno val => exact hsingle h
  | assign fieldno val => exact hsingle h
  | splice fieldno position offset buffer =>
      intro x hx
      simp only [UpdateCall.operands, List.mem_cons, List.not_mem_nil, or_false] at hx
      rcases hx with rfl | rfl | rfl
      · exact isValue_encodeUint (lt_trans position.toNat_lt (by decide))
      · exact isValue_encodeUint (lt_trans offset.toNat_lt (by decide))
      · exact isValue_str buffer.length_lt

omit hmp in
theorem UpdateCall.fields_values {call : UpdateCall} (h : call.Valid) :
    ∀ x ∈ call.fields, IsValue x := by
  intro x hx
  rcases List.mem_cons.mp hx with rfl | hx
  · exact @isValue_str [call.operands.1] (by rw [List.length_singleton]; decide)
  rcases List.mem_cons.mp hx with rfl | hx
  · exact isValue_encodeUint (lt_trans call.fieldno.toNat_lt (by decide))
  · exact UpdateCall.operands_values h x hx

omit hmp in
theorem UpdateCall.encoding_eq (call : UpdateCall) :
    call.encoding = arrayHeader (call.operands.2.length + 2) ++ ((strHeader 1 ++
      [call.operands.1]) ++ (encodeUint call.fieldno.toNat ++ call.operands.2.flatten)) := by
  simp only [UpdateCall.encoding, UpdateCall.fields, List.length_cons, List.flatten_cons]

theorem updateNumber_write (garbage : Nat → UInt8) (ops : Object) {op : UInt8}
    (hop : beerUpdateOpLen op = 3) (fieldno : UInt32) {number : Bytes}
    (h : number.length ≤ 10) : updateNumber mp garbage ops op fieldno number =
      ops.write (arrayHeader 3 ++ ((strHeader 1 ++ [op]) ++
        (encodeUint fieldno.toNat ++ [number].flatten))) := by
  rw [updateNumber_eq garbage ops op fieldno h, beerUpdateOp_eq hmp garbage ops hop (by decide)]
  simp only [List.flatten_cons, List.flatten_nil, List.append_nil]

omit hmp in
theorem encodeSigned_length_le (z : Int) : (Value.encodeSigned z).length ≤ 9 := by
  unfold Value.encodeSigned
  split
  · unfold encodeInt
    repeat' split
    all_goals simp
  · exact encodeUint_length_le _

theorem spliceParts_eq (position offset : UInt32) (buffer : Chunk) :
    ([mp.mpEncodeUint position.toUInt64, mp.mpEncodeUint offset.toUInt64] ++
      mpEncodeStr mp buffer.bytes).flatten = encodeUint position.toNat ++
        (encodeUint offset.toNat ++ (strHeader buffer.bytes.length ++ buffer.bytes)) := by
  simp [mpEncodeStr, hmp.encodeUint_eq, hmp.encodeStrl_eq,
    UInt32.toNat_ofNat_of_lt' buffer.length_lt]

theorem arithInt_number (value : Int64) :
    (if value ≥ 0 then mp.mpEncodeUint value.toUInt64 else mp.mpEncodeInt value) =
      Value.encodeSigned value.toInt := by
  rw [← encodeSigned_eq hmp, ← ite_not]
  simp only [ge_iff_le, Int64.not_le]

theorem arith_write (garbage : Nat → UInt8) (ops : Object) {op : UInt8}
    (hop : op = UpdateOp.addition.id ∨ op = UpdateOp.substract.id) (fieldno : UInt32)
    {number : Bytes} (h : number.length ≤ 10) :
    (if op ≠ UpdateOp.addition.id ∧ op ≠ UpdateOp.substract.id then .ok (-1, ops)
      else updateNumber mp garbage ops op fieldno number) =
      ops.write (arrayHeader 3 ++ ((strHeader 1 ++ [op]) ++
        (encodeUint fieldno.toNat ++ [number].flatten))) := by
  have hlength : beerUpdateOpLen op = 3 := by rcases hop with rfl | rfl <;> decide
  have hknown : ¬(op ≠ UpdateOp.addition.id ∧ op ≠ UpdateOp.substract.id) := by
    rcases hop with rfl | rfl <;> decide
  rw [if_neg hknown, updateNumber_write hmp garbage ops hlength fieldno h]

include hsz

theorem splice_write (garbage : Nat → UInt8) (ops : Object) {fieldno position offset : UInt32}
    {buffer : Chunk} (hvalid : (UpdateCall.splice fieldno position offset buffer).Valid)
    (h : (UpdateCall.splice fieldno position offset buffer).Fits) :
    beerUpdateSplice mp sz garbage ops fieldno position offset buffer =
      ops.write (UpdateCall.splice fieldno position offset buffer).encoding := by
  have hparts := spliceParts_eq hmp position offset buffer
  have hsome := (bufSize_eq_zero_iff hsz position offset buffer).not.mpr hvalid
  have hsize := bufSize_toNat hsz position offset buffer
  rw [Nat.mod_eq_of_lt (lt_of_le_of_ne h hvalid)] at hsize
  have hlength : ([mp.mpEncodeUint position.toUInt64, mp.mpEncodeUint offset.toUInt64] ++
      mpEncodeStr mp buffer.bytes).flatten.length =
        UpdateCall.spliceSize position offset buffer := by
    rw [hparts, UpdateCall.spliceSize]
    simp only [List.length_append]
    omega
  have hcleared : ∀ size, Cursor.Holds ⟨List.replicate size 0, 0⟩ [] size :=
    fun size => ⟨_, rfl, by simp⟩
  obtain ⟨data, hemit, hdata⟩ := emit_ok
    (hcleared (sz.mpSizeofUint position.toUInt64 + sz.mpSizeofUint offset.toUInt64 +
      sz.mpSizeofStr (UInt32.ofNat buffer.bytes.length)).toNat)
    ([mp.mpEncodeUint position.toUInt64, mp.mpEncodeUint offset.toUInt64] ++
      mpEncodeStr mp buffer.bytes) (by rw [hlength, ← hsize, List.length_nil, Nat.zero_add])
  rw [List.nil_append] at hdata
  have hall := hdata.slice_pos
  rw [hdata.pos_eq, hlength, ← hsize] at hall
  have hop : beerUpdateOpLen UpdateOp.splice.id = ((5 : Nat) : Int) := by decide
  rw [beerUpdateSplice]
  simp only [if_neg hsome, hemit, ok_bind, hall, hparts, beerUpdateOp_eq hmp garbage ops hop (by decide)]
  rw [UpdateCall.encoding_eq]
  simp only [UpdateCall.operands, UpdateCall.fieldno, List.length_cons, List.length_nil,
    List.flatten_cons, List.flatten_nil, List.append_nil]

theorem splice_overflow (garbage : Nat → UInt8) (ops : Object) {fieldno position offset : UInt32}
    {buffer : Chunk} (h : ¬(UpdateCall.splice fieldno position offset buffer).Fits) :
    beerUpdateSplice mp sz garbage ops fieldno position offset buffer =
      .error .outOfBounds := by
  have hparts := spliceParts_eq hmp position offset buffer
  have hsize := bufSize_toNat hsz position offset buffer
  have hlarge : 2 ^ 32 < UpdateCall.spliceSize position offset buffer := Nat.not_le.mp h
  have hsome := (bufSize_eq_zero_iff hsz position offset buffer).not.mpr hlarge.ne'
  have hcleared : ∀ size, Cursor.Holds ⟨List.replicate size 0, 0⟩ [] size :=
    fun size => ⟨_, rfl, by simp⟩
  have hsmall := Nat.mod_lt (UpdateCall.spliceSize position offset buffer)
    (by decide : 0 < 2 ^ 32)
  have hover := emit_overflow (hcleared (sz.mpSizeofUint position.toUInt64 +
    sz.mpSizeofUint offset.toUInt64 + sz.mpSizeofStr (UInt32.ofNat buffer.bytes.length)).toNat)
    (by
      rw [hparts, hsize]
      rw [UpdateCall.spliceSize] at hlarge hsmall ⊢
      simp only [List.length_append, List.length_nil]
      omega)
  rw [beerUpdateSplice]
  simp only [if_neg hsome, hover, error_bind]

theorem UpdateCall.run_valid (garbage : Nat → UInt8) (ops : Object) {call : UpdateCall}
    (h : call.Valid) (hfits : call.Fits) :
    call.run mp sz garbage ops = ops.write call.encoding := by
  rw [UpdateCall.encoding_eq]
  cases call with
  | bit fieldno op value =>
      have hop : beerUpdateOpLen op = 3 := by rcases h with rfl | rfl | rfl <;> decide
      have hnot : ¬(op ≠ UpdateOp.and.id ∧ op ≠ UpdateOp.xor.id ∧ op ≠ UpdateOp.or.id) := by
        rcases h with rfl | rfl | rfl <;> decide
      have hnumber := encodeUint_length_le value.toNat
      rw [UpdateCall.run, beerUpdateBit, if_neg hnot, hmp.encodeUint_eq,
        updateNumber_write hmp garbage ops hop fieldno (by omega)]
      rfl
  | arithInt fieldno op value =>
      have hnumber := encodeSigned_length_le value.toInt
      rw [UpdateCall.run, beerUpdateArithInt, arithInt_number hmp,
        arith_write hmp garbage ops h fieldno (by omega)]
      rfl
  | arithFloat fieldno op bits =>
      have hnumber : (encodeFloat bits.toNat).length ≤ 10 := by simp [encodeFloat]
      rw [UpdateCall.run, beerUpdateArithFloat, hmp.encodeFloat_eq,
        arith_write hmp garbage ops h fieldno hnumber]
      rfl
  | arithDouble fieldno op bits =>
      have hnumber : (encodeDouble bits.toNat).length ≤ 10 := by simp [encodeDouble]
      rw [UpdateCall.run, beerUpdateArithDouble, hmp.encodeDouble_eq,
        arith_write hmp garbage ops h fieldno hnumber]
      rfl
  | delete fieldno fieldcount =>
      have hop : beerUpdateOpLen UpdateOp.delete.id = 3 := by decide
      have hnumber := encodeUint_length_le fieldcount.toNat
      have hcount : fieldcount.toUInt64.toNat = fieldcount.toNat := rfl
      rw [UpdateCall.run, beerUpdateDelete, hmp.encodeUint_eq, hcount,
        updateNumber_write hmp garbage ops hop fieldno (by omega)]
      rfl
  | insert fieldno val =>
      have hop : beerUpdateOpLen UpdateOp.insert.id = ((3 : Nat) : Int) := by decide
      have hvalue : IsValue val.object.contents := h
      rw [UpdateCall.run, beerUpdateInsert, beerObjectVerify_none hmp, if_pos hvalue]
      simp only [ok_bind, ne_eq, not_true_eq_false, if_false,
        beerUpdateOp_eq hmp garbage ops hop (by decide)]
      simp only [UpdateCall.operands, UpdateCall.fieldno, List.length_singleton, List.flatten_cons,
        List.flatten_nil, List.append_nil]
  | assign fieldno val =>
      have hop : beerUpdateOpLen UpdateOp.assign.id = ((3 : Nat) : Int) := by decide
      have hvalue : IsValue val.object.contents := h
      rw [UpdateCall.run, beerUpdateAssign, beerObjectVerify_none hmp, if_pos hvalue]
      simp only [ok_bind, ne_eq, not_true_eq_false, if_false,
        beerUpdateOp_eq hmp garbage ops hop (by decide)]
      simp only [UpdateCall.operands, UpdateCall.fieldno, List.length_singleton, List.flatten_cons,
        List.flatten_nil, List.append_nil]
  | splice fieldno position offset buffer =>
      rw [← UpdateCall.encoding_eq]
      exact splice_write hmp hsz garbage ops h hfits

theorem UpdateCall.run_overflow (garbage : Nat → UInt8) (ops : Object) {call : UpdateCall}
    (h : ¬call.Fits) : call.run mp sz garbage ops = .error .outOfBounds := by
  cases call with
  | splice fieldno position offset buffer => exact splice_overflow hmp hsz garbage ops h
  | _ => exact absurd trivial h

end Calls

/-- The container is open, and holds an operation for every write but the first. -/
structure Listing (o : Object) (xs : List Bytes) : Prop where
  drafts : o.Drafts
    ⟨arrayHeader32 0 ++ xs.flatten, [⟨0, 0, .array⟩], .sparse, o.stackAlloc⟩
  wrcnt_eq : o.wrcnt = UInt32.ofNat (xs.length + 1)
  room : 0 < o.stackAlloc

theorem write_wrcnt {o o' : Object} {buf : Bytes} {rv : Ssize} (h : o.write buf = .ok (rv, o'))
    (hrv : rv ≠ -1) : o'.wrcnt = o.wrcnt + 1 ∧ o'.stackAlloc = o.stackAlloc := by
  refine ⟨?_, (write_ok h hrv).2.1⟩
  unfold Object.write at h
  split at h
  · exact absurd (Prod.mk.inj (Except.ok.inj h)).1.symm hrv
  obtain ⟨o₁, hresize, h⟩ := bind_eq_ok.mp h
  split at h
  · exact absurd (Prod.mk.inj (Except.ok.inj h)).1.symm hrv
  obtain ⟨o₂, hstore, h⟩ := bind_eq_ok.mp h
  obtain ⟨mem, mem', -, -, rfl⟩ := store_ok hstore
  rw [← (Prod.mk.inj (Except.ok.inj h)).2, resize_ok hresize]

theorem Listing.write {o : Object} {xs : List Bytes} (h : Listing o xs) {x : Bytes}
    (hx : 0 < x.length) :
    ∃ rv o', o.write x = .ok (rv, o') ∧ rv ≠ -1 ∧ Listing o' (xs ++ [x]) := by
  obtain ⟨rv, o', hwrite, hrv, hdrafts⟩ := h.drafts.write hx
  obtain ⟨hwrcnt, halloc⟩ := write_wrcnt hwrite hrv
  refine ⟨rv, o', hwrite, hrv, ?_, ?_, by rw [halloc]; exact h.room⟩
  · rw [halloc, List.flatten_append, List.flatten_singleton, ← List.append_assoc]
    exact hdrafts
  · rw [hwrcnt, h.wrcnt_eq, List.length_append, List.length_singleton, UInt32.ofNat_add (_ + 1) 1]
    rfl

section Sessions

variable {mp : Msgpuck} (hmp : mp.Lawful) {sz : MsgpuckSizes} (hsz : sz.Lawful)

include hmp

theorem listing_addArray {o : Object} (has : o.as = false) (hsize : o.size = 0)
    (hwrcnt : o.wrcnt = 0) (hstack : o.stack = []) (htype : o.type = .sparse)
    (hroom : 0 < o.stackAlloc) :
    ∃ rv o', o.addArray mp 0 = .ok (rv, o') ∧ rv ≠ -1 ∧ Listing o' [] := by
  have hdrafts : o.Drafts ⟨[], [], .sparse, o.stackAlloc⟩ :=
    ⟨by rw [Object.contents, hsize, List.take_zero], hsize, has, hstack, htype, rfl⟩
  obtain ⟨rv, o', hadd, hrv, ho'⟩ := hdrafts.addContainer hroom.ne
    (@openingArray_eq mp hmp .sparse (by decide) 0)
  obtain ⟨pushed, hcall, hpushed⟩ : ∃ pushed : Object, o.addArray mp 0 =
      pushed.write (Object.openingArray mp 0 .sparse) ∧ pushed.wrcnt = 0 ∧
        pushed.stackAlloc = o.stackAlloc := by
    have hcount : o.countChild = o := by rw [Object.countChild, hstack]
    have hfree : ¬o.stack.length = o.stackAlloc := by
      rw [hstack, List.length_nil]
      omega
    refine ⟨{ o with stack := ⟨o.size, 0, .array⟩ :: o.stack }, ?_, hwrcnt, rfl⟩
    simp only [Object.addArray, Object.addContainer, hcount, if_neg hfree, htype]
  obtain ⟨hone, halloc⟩ := write_wrcnt (hcall.symm.trans hadd) hrv
  rw [hpushed.1] at hone
  rw [hpushed.2] at halloc
  refine ⟨rv, o', hadd, hrv, ⟨?_, hone, by rw [halloc]; exact hroom⟩⟩
  rw [halloc, List.flatten_nil, List.append_nil]
  exact ho'

theorem listing_container : ∃ o, beerUpdateContainer mp = .ok (some o) ∧ Listing o [] := by
  obtain ⟨rv, o, hadd, hrv, ho⟩ := @listing_addArray mp hmp (freshObject .sparse) rfl rfl rfl rfl
    rfl (by decide)
  refine ⟨o, ?_, ho⟩
  rw [beerUpdateContainer]
  change (Object.addArray mp (freshObject .sparse) 0 >>= _) = _
  rw [hadd, ok_bind]
  simp only [if_neg hrv]
  rfl

theorem listing_reset {o : Object} (has : o.as = false) (hroom : 0 < o.stackAlloc) :
    ∃ o', beerUpdateContainerReset mp o = .ok (0, o') ∧ Listing o' [] := by
  obtain ⟨rv, o', hadd, hrv, ho'⟩ := @listing_addArray mp hmp { o.reset with type := .sparse } has
    rfl rfl rfl rfl hroom
  refine ⟨o', ?_, ho'⟩
  rw [beerUpdateContainerReset]
  change (Object.addArray mp { o.reset with type := .sparse } 0 >>= _) = _
  rw [hadd, ok_bind]
  simp only [if_neg hrv]
  rfl

/-- A close counts the writes behind the first, modulo `2 ^ 32`. -/
theorem Listing.close {o : Object} {xs : List Bytes} (h : Listing o xs) :
    ∃ o', beerUpdateContainerClose mp o = .ok (0, o') ∧
      o'.Drafts ⟨arrayHeader32 (xs.length % 2 ^ 32) ++ xs.flatten, [], .sparse, o.stackAlloc⟩ := by
  obtain ⟨⟨hcontents, hsize, has, hstack, htype, -⟩, hwrcnt, -⟩ := h
  dsimp only at hcontents hsize hstack htype
  have hcount : o.wrcnt - 1 = UInt32.ofNat xs.length := by
    rw [hwrcnt, UInt32.ofNat_add]
    exact UInt32.add_sub_cancel _ _
  have hmodify : o.stack.modify (o.stack.length - 1) (fun entry =>
      { entry with size := o.wrcnt - 1 }) = [⟨0, UInt32.ofNat xs.length, .array⟩] := by
    rw [hstack, hcount]
    rfl
  have hdrafts : Object.Drafts
      { o with stack := [⟨0, UInt32.ofNat xs.length, .array⟩] }
      ⟨arrayHeader32 0 ++ xs.flatten, [⟨0, UInt32.ofNat xs.length, .array⟩], .sparse,
        o.stackAlloc⟩ := ⟨hcontents, hsize, has, rfl, htype, rfl⟩
  obtain ⟨rv, o', hclose, -, ho'⟩ := @Object.Drafts.containerClose mp hmp _ _ hdrafts
    (fun hmode => nomatch hmode) [] xs.flatten (UInt32.ofNat xs.length) .array [] rfl rfl
    (fun hkind => nomatch hkind)
  have hheader : closingHeader .sparse .array (UInt32.ofNat xs.length) =
      arrayHeader32 (xs.length % 2 ^ 32) := by
    simp only [closingHeader, reduceCtorEq, if_false, UInt32.toNat_ofNat']
  refine ⟨o', ?_, ?_⟩
  · simp only [beerUpdateContainerClose, hmodify, hclose, ok_bind, pure_eq]
  · rw [← hheader]
    exact ho'

include hsz

theorem Listing.run (garbage : Nat → UInt8) {o : Object} {xs : List Bytes} (h : Listing o xs)
    {call : UpdateCall} (hfits : call.Fits) :
    ∃ rv o', call.run mp sz garbage o = .ok (rv, o') ∧ (rv = -1 ↔ ¬call.Valid) ∧
      Listing o' (xs ++ ([call].filter (·.Valid)).map UpdateCall.encoding) := by
  by_cases hvalid : call.Valid
  · have hpos : 0 < call.encoding.length := by
      rw [UpdateCall.encoding, List.length_append]
      exact Nat.add_pos_left (arrayHeader_length_pos _) _
    obtain ⟨rv, o', hwrite, hrv, ho'⟩ := h.write hpos
    refine ⟨rv, o', (UpdateCall.run_valid hmp hsz garbage o hvalid hfits).trans hwrite,
      iff_of_false hrv (not_not_intro hvalid), ?_⟩
    rw [List.filter_cons_of_pos (by simpa using hvalid)]
    exact ho'
  · refine ⟨-1, o, UpdateCall.run_rejected hmp hsz garbage o hvalid, iff_of_true rfl hvalid, ?_⟩
    rw [List.filter_cons_of_neg (by simpa using hvalid), List.filter_nil, List.map_nil,
      List.append_nil]
    exact h

theorem Listing.updates (garbage : Nat → UInt8) {o : Object} {xs : List Bytes}
    (h : Listing o xs) {calls : List UpdateCall} (hfits : ∀ call ∈ calls, call.Fits) :
    ∃ o', UpdateCall.updates mp sz garbage calls o = .ok (calls.filter (·.Valid), o') ∧
      Listing o' (xs ++ (calls.filter (·.Valid)).map UpdateCall.encoding) := by
  induction calls generalizing o xs with
  | nil => exact ⟨o, rfl, by rwa [List.filter_nil, List.map_nil, List.append_nil]⟩
  | cons call calls ih =>
      rw [List.forall_mem_cons] at hfits
      obtain ⟨rv, o₁, hrun, hrv, h₁⟩ := h.run hmp hsz garbage hfits.1
      obtain ⟨o', hupdates, ho'⟩ := ih h₁ hfits.2
      rw [List.append_assoc, ← List.map_append, ← List.filter_append] at ho'
      refine ⟨o', ?_, ho'⟩
      rw [UpdateCall.updates, hrun, ok_bind]
      simp only [hupdates, ok_bind, pure_eq]
      by_cases hvalid : call.Valid
      · rw [List.filter_cons_of_pos (by simpa using hvalid)]
        exact congrArg (fun done => Except.ok (done, o'))
          (if_neg fun h => hrv.mp h hvalid)
      · rw [List.filter_cons_of_neg (by simpa using hvalid)]
        exact congrArg (fun done => Except.ok (done, o')) (if_pos (hrv.mpr hvalid))

theorem Listing.updates_overflow (garbage : Nat → UInt8) {o : Object} {xs : List Bytes}
    (h : Listing o xs) {calls : List UpdateCall} (hover : ¬∀ call ∈ calls, call.Fits) :
    UpdateCall.updates mp sz garbage calls o = .error .outOfBounds := by
  induction calls generalizing o xs with
  | nil => exact absurd (fun _ hcall => nomatch hcall) hover
  | cons call calls ih =>
      by_cases hfits : call.Fits
      · obtain ⟨rv, o₁, hrun, -, h₁⟩ := h.run hmp hsz garbage hfits
        have hrest : ¬∀ call ∈ calls, call.Fits :=
          fun hrest => hover (List.forall_mem_cons.mpr ⟨hfits, hrest⟩)
        rw [UpdateCall.updates, hrun, ok_bind]
        simp only [ih h₁ hrest, error_bind]
      · rw [UpdateCall.updates, UpdateCall.run_overflow hmp hsz garbage o hfits, error_bind]

theorem Listing.round (garbage : Nat → UInt8) {o : Object} (h : Listing o [])
    {round : UpdateRound} (hfits : ∀ call ∈ round.calls, call.Fits) :
    ∃ o', round.run mp sz garbage o = .ok o' ∧ Listing o' [] := by
  obtain ⟨o₁, hupdates, h₁⟩ := h.updates hmp hsz garbage hfits
  obtain ⟨o₂, hclose, has, hroom⟩ : ∃ o₂, round.close mp o₁ = .ok o₂ ∧ o₂.as = false ∧
      0 < o₂.stackAlloc := by
    unfold UpdateRound.close
    split
    · obtain ⟨o₂, hclose, hdrafts⟩ := h₁.close hmp
      exact ⟨o₂, by rw [hclose]; rfl, hdrafts.as_eq, by rw [hdrafts.stackAlloc_eq]; exact h₁.room⟩
    · exact ⟨o₁, rfl, h₁.drafts.as_eq, h₁.room⟩
  obtain ⟨o', hreset, ho'⟩ := listing_reset hmp has hroom
  refine ⟨o', ?_, ho'⟩
  rw [UpdateRound.run, hupdates, ok_bind]
  simp only [hclose, hreset, ok_bind, pure_eq]

theorem Listing.rounds (garbage : Nat → UInt8) {o : Object} (h : Listing o [])
    {rounds : List UpdateRound}
    (hfits : ∀ round ∈ rounds, ∀ call ∈ round.calls, call.Fits) :
    ∃ o', rounds.foldlM (UpdateRound.run mp sz garbage) o = .ok o' ∧ Listing o' [] := by
  induction rounds generalizing o with
  | nil => exact ⟨o, rfl, h⟩
  | cons round rounds ih =>
      rw [List.forall_mem_cons] at hfits
      obtain ⟨o₁, hrun, h₁⟩ := h.round hmp hsz garbage hfits.1
      obtain ⟨o', hrounds, ho'⟩ := ih h₁ hfits.2
      exact ⟨o', by rw [List.foldlM_cons, hrun, ok_bind, hrounds], ho'⟩

theorem Listing.rounds_overflow (garbage : Nat → UInt8) {o : Object} (h : Listing o [])
    {rounds : List UpdateRound}
    (hover : ¬∀ round ∈ rounds, ∀ call ∈ round.calls, call.Fits) :
    rounds.foldlM (UpdateRound.run mp sz garbage) o = .error .outOfBounds := by
  induction rounds generalizing o with
  | nil => exact absurd (fun _ hround => nomatch hround) hover
  | cons round rounds ih =>
      rw [List.foldlM_cons]
      by_cases hfits : ∀ call ∈ round.calls, call.Fits
      · obtain ⟨o₁, hrun, h₁⟩ := h.round hmp hsz garbage hfits
        have hrest : ¬∀ round ∈ rounds, ∀ call ∈ round.calls, call.Fits :=
          fun hrest => hover (List.forall_mem_cons.mpr ⟨hfits, hrest⟩)
        rw [hrun, ok_bind, ih h₁ hrest]
      · rw [UpdateRound.run, h.updates_overflow hmp hsz garbage hfits, error_bind, error_bind]

theorem updateSession_eq (garbage : Nat → UInt8) {rounds : List UpdateRound}
    {calls : List UpdateCall} (hrounds : ∀ round ∈ rounds, ∀ call ∈ round.calls, call.Fits)
    (hcalls : ∀ call ∈ calls, call.Fits) :
    ∃ o stackAlloc, updateSession mp sz garbage rounds calls = .ok (calls.filter (·.Valid), o) ∧
      o.Drafts ⟨arrayHeader32 ((calls.filter (·.Valid)).length % 2 ^ 32) ++
        ((calls.filter (·.Valid)).map UpdateCall.encoding).flatten, [], .sparse, stackAlloc⟩ := by
  obtain ⟨o₀, hcontainer, h₀⟩ := listing_container hmp
  obtain ⟨o₁, hfold, h₁⟩ := h₀.rounds hmp hsz garbage hrounds
  obtain ⟨o₂, hupdates, h₂⟩ := h₁.updates hmp hsz garbage hcalls
  obtain ⟨o₃, hclose, h₃⟩ := h₂.close hmp
  rw [List.nil_append, List.length_map] at h₃
  refine ⟨o₃, o₂.stackAlloc, ?_, h₃⟩
  simp only [updateSession, hcontainer, hfold, hupdates, hclose, ok_bind, pure_eq]

theorem updateSession_overflow (garbage : Nat → UInt8) {rounds : List UpdateRound}
    {calls : List UpdateCall} (h : ¬((∀ round ∈ rounds, ∀ call ∈ round.calls, call.Fits) ∧
      ∀ call ∈ calls, call.Fits)) :
    updateSession mp sz garbage rounds calls = .error .outOfBounds := by
  obtain ⟨o₀, hcontainer, h₀⟩ := listing_container hmp
  by_cases hrounds : ∀ round ∈ rounds, ∀ call ∈ round.calls, call.Fits
  · obtain ⟨o₁, hfold, h₁⟩ := h₀.rounds hmp hsz garbage hrounds
    have hupdates := h₁.updates_overflow hmp hsz garbage fun hcalls => h ⟨hrounds, hcalls⟩
    simp only [updateSession, hcontainer, hfold, hupdates, ok_bind, error_bind]
  · have hfold := h₀.rounds_overflow hmp hsz garbage hrounds
    simp only [updateSession, hcontainer, hfold, ok_bind, error_bind]

end Sessions

/-- The object is an array of the operations, each an array of its fields, and verifies. -/
structure ListsUpdates (mp : Msgpuck) (done : List UpdateCall) (o : Object) : Prop where
  contents_eq : o.contents =
    arrayHeader32 done.length ++ (done.map UpdateCall.encoding).flatten
  arrayOf_eq : arrayOf o.contents = some (done.map UpdateCall.encoding, [])
  fields_eq : ∀ call ∈ done, arrayOf call.encoding = some (call.fields, [])
  verify_eq : beerObjectVerify mp o (some .array) = .ok 0

theorem arrayOf_encoding {call : UpdateCall} (h : call.Valid) :
    arrayOf call.encoding = some (call.fields, []) := by
  have hcount : call.fields.length < 2 ^ 32 := by
    cases call <;> simp [UpdateCall.fields, UpdateCall.operands]
  exact arrayOf_elements (head_arrayHeader hcount) (UpdateCall.fields_values h)

theorem isValue_encoding {call : UpdateCall} (h : call.Valid) : IsValue call.encoding := by
  have hcount : call.fields.length < 2 ^ 32 := by
    cases call <;> simp [UpdateCall.fields, UpdateCall.operands]
  exact isValue_container (head_arrayHeader hcount) rfl rfl (UpdateCall.fields_values h)

/-- A session leaves the container that it should exactly if fewer than `2 ^ 32` calls have
succeeded since the last reset, and no splice is larger than `2 ^ 32` bytes. -/
theorem updateSession_exact_iff {mp : Msgpuck} (hmp : mp.Lawful) {sz : MsgpuckSizes}
    (hsz : sz.Lawful) (garbage : Nat → UInt8) (rounds : List UpdateRound)
    (calls : List UpdateCall) :
    (∃ o, updateSession mp sz garbage rounds calls = .ok (calls.filter (·.Valid), o) ∧
        ListsUpdates mp (calls.filter (·.Valid)) o) ↔
      ((∀ round ∈ rounds, ∀ call ∈ round.calls, call.Fits) ∧ ∀ call ∈ calls, call.Fits) ∧
        (calls.filter (·.Valid)).length < 2 ^ 32 := by
  constructor
  · rintro ⟨o, hsession, hlists⟩
    refine ⟨?_, ?_⟩
    · by_contra hover
      rw [updateSession_overflow hmp hsz garbage hover] at hsession
      cases hsession
    · have hfits := fits_of_head (arrayOf_eq_some hlists.arrayOf_eq).1
      rwa [List.length_map] at hfits
  · rintro ⟨⟨hrounds, hcalls⟩, hcount⟩
    obtain ⟨o, stackAlloc, hsession, hdrafts⟩ := updateSession_eq hmp hsz garbage hrounds hcalls
    rw [Nat.mod_eq_of_lt hcount] at hdrafts
    have hcontents := hdrafts.contents_eq
    dsimp only at hcontents
    have hvalid : ∀ call ∈ calls.filter (·.Valid), call.Valid :=
      fun call hcall => by simpa using (List.mem_filter.mp hcall).2
    have hvalues : ∀ x ∈ (calls.filter (·.Valid)).map UpdateCall.encoding, IsValue x := by
      intro x hx
      obtain ⟨call, hcall, rfl⟩ := List.mem_map.mp hx
      exact isValue_encoding (hvalid call hcall)
    have hlength : ((calls.filter (·.Valid)).map UpdateCall.encoding).length < 2 ^ 32 := by
      rwa [List.length_map]
    have hhead := head_append (head_arrayHeader32 hcount)
      ((calls.filter (·.Valid)).map UpdateCall.encoding).flatten
    have hvalue := isValue_container (head_arrayHeader32 hlength) rfl rfl hvalues
    rw [List.length_map] at hvalue
    refine ⟨o, hsession, hcontents, ?_, fun call hcall => arrayOf_encoding (hvalid call hcall), ?_⟩
    · have hheader := head_arrayHeader32 hlength
      rw [hcontents, ← List.length_map UpdateCall.encoding]
      exact arrayOf_elements hheader hvalues
    · refine beerObjectVerify_eq hmp hdrafts hvalue (.inr ?_)
      rw [kindOf, hhead]
      rfl

theorem updateSession_exact_iff_reset :
    ∃ o, updateSession .reference .reference (fun _ => 0) [⟨[.delete 1 1], true⟩]
          [.bit 1 0x26 5, .bit 1 0x2b 5, .arithInt 2 0x2d (-1)] =
        .ok ([.bit 1 0x26 5, .arithInt 2 0x2d (-1)], o) ∧
      o.contents = [0xdd, 0, 0, 0, 2, 0x93, 0xa1, 0x26, 1, 5, 0x93, 0xa1, 0x2d, 2, 0xff] := by
  have hrounds : ∀ round ∈ [UpdateRound.mk [.delete 1 1] true], ∀ call ∈ round.calls,
      call.Fits := by
    intro round hround call hcall
    rw [List.mem_singleton.mp hround] at hcall
    rw [List.mem_singleton.mp hcall]
    trivial
  have hcalls : ∀ call ∈ [UpdateCall.bit 1 0x26 5, .bit 1 0x2b 5, .arithInt 2 0x2d (-1)],
      call.Fits := by
    intro call hcall
    simp only [List.mem_cons, List.not_mem_nil, or_false] at hcall
    rcases hcall with rfl | rfl | rfl <;> trivial
  obtain ⟨o, hsession, hlists⟩ := (updateSession_exact_iff Msgpuck.reference_lawful
    MsgpuckSizes.reference_lawful (fun _ => 0) _ _).mpr ⟨⟨hrounds, hcalls⟩, by decide⟩
  exact ⟨o, hsession, hlists.contents_eq.trans (by decide)⟩

/-- The longest text whose length fits in a header. -/
def longText : Chunk :=
  ⟨List.replicate (2 ^ 32 - 1) 0, by rw [List.length_replicate]; decide⟩

/-- The block for a splice of that text has a few bytes. -/
theorem not_updateSession_exact :
    ¬∃ o, updateSession .reference .reference (fun _ => 0) [] [.splice 1 0 0 longText] =
        .ok ([.splice 1 0 0 longText], o) ∧
      ListsUpdates .reference [.splice 1 0 0 longText] o := by
  rintro ⟨o, hsession, -⟩
  have hlength : longText.bytes.length = 2 ^ 32 - 1 := List.length_replicate
  have hover : ¬(UpdateCall.splice 1 0 0 longText).Fits := by
    rw [UpdateCall.Fits, UpdateCall.spliceSize, hlength]
    decide
  rw [updateSession_overflow Msgpuck.reference_lawful MsgpuckSizes.reference_lawful _
    fun h => hover (h.2 _ (List.mem_singleton.mpr rfl))] at hsession
  cases hsession

end BeeC
