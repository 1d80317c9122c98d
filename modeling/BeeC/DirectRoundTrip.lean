import BeeC.DirectRequest

namespace BeeC

open BeeC.Wire.Memory
open BeeC.Wire.Loop
open BeeC.Wire.MessagePack
open BeeC.Wire.Encoding

variable {mp : Msgpuck} {σ : Type}

/-- A run hands the parts of one frame to the stream, and leaves the next request number
behind. -/
def Hands (run : Except Fault (Ssize × Stream σ)) (s : Stream σ) (payload : Bytes) : Prop :=
  ∃ v, run = .ok ({ s with reqid := s.reqid + 1 }.send v) ∧ Framed v.flatten payload

/-- The payload of the frame that a run hands over is decoded to the given package. -/
def Sends (run : Except Fault (Ssize × Stream σ)) (s : Stream σ) (package : Package) : Prop :=
  ∃ payload, Hands run s payload ∧ decodePackage payload = some package

theorem Hands.unique {run : Except Fault (Ssize × Stream σ)} {s : Stream σ}
    {payload payload' : Bytes} (h : Hands run s payload) (h' : Hands run s payload') :
    payload = payload' := by
  obtain ⟨v, hrun, hframed⟩ := h
  obtain ⟨v', hrun', hframed'⟩ := h'
  rw [hrun, Except.ok.injEq] at hrun'
  rw [Stream.send_inj (congrArg Prod.snd hrun')] at hframed
  exact hframed.unique hframed'

theorem flatten_length_le {parts : List Bytes} {most : Nat}
    (h : ∀ part ∈ parts, part.length ≤ most) : parts.flatten.length ≤ parts.length * most := by
  induction parts with
  | nil => simp
  | cons part parts ih =>
      have hpart := h part (by simp)
      have hparts := ih fun p hp => h p (by simp [hp])
      rw [List.flatten_cons, List.length_append, List.length_cons, Nat.add_mul]
      omega

namespace ArrayObject

theorem bytes_length_lt (a : ArrayObject) : a.bytes.length < 2 ^ 62 := by
  have hsize := a.size_le
  have halloc := a.alloc_lt
  rw [bytes, Object.contents, List.length_take]
  omega

@[simp] theorem contents_eq (a : ArrayObject) : a.object.contents = a.bytes := rfl

theorem isValue_bytes (a : ArrayObject) : IsValue a.bytes := a.isValue

@[simp] theorem readEntry_eq (field : BodyKey) (a : ArrayObject) :
    readEntry (field, a.bytes) = (field.id.toNat, .value a.bytes) :=
  congrArg (Prod.mk _) (Field.of_array a.isArray)

theorem verify (hmp : mp.Lawful) (a : ArrayObject) :
    beerObjectVerify mp a.object (some .array) = .ok 0 := by
  have harray := a.isArray
  simp only [kindOf, Option.map_eq_some_iff] at harray
  obtain ⟨⟨hd, rest⟩, hhead, hkind⟩ := harray
  obtain ⟨first, more, hdata⟩ : ∃ first more, a.object.data = some (first :: more) := by
    unfold Object.contents at hhead
    cases hdata : a.object.data with
    | none => simp [hdata, head] at hhead
    | some mem =>
        cases mem with
        | nil => simp [hdata, head] at hhead
        | cons first more => exact ⟨first, more, rfl⟩
  have htype : mp.mpTypeof first = .array := by
    have hcontents : ∃ more, a.object.contents = first :: more := by
      have hpos := a.isValue.length_pos
      unfold Object.contents at hpos ⊢
      rw [hdata] at hpos ⊢
      cases hsize : a.object.size with
      | zero => simp [hsize] at hpos
      | succ size => exact ⟨_, rfl⟩
    obtain ⟨more, hcontents⟩ := hcontents
    rw [hcontents] at hhead
    rw [hmp.typeof_eq (typeOf_of_head hhead), hkind]
  have hcheck : mp.mpCheck a.object.contents = some a.object.contents.length := by
    have hnext := next_append a.isValue []
    rw [List.append_nil] at hnext
    rw [hmp.check_eq, hnext, Option.map_some]
  have hsize : ¬a.object.alloc < a.object.size := Nat.not_lt.mpr a.size_le
  rw [contents_eq] at hcheck
  simp [beerObjectVerify, hdata, htype, hsize, hcheck]

end ArrayObject

section Sending

variable (hmp : mp.Lawful)

include hmp

theorem hands_of_parts (garbage : Nat → UInt8) {s : Stream σ} {op : RequestType} {hdr : Cursor}
    (hhdr : hdr.Holds (encodeHeaderMap op.id.toNat s.reqid.toNat) 25) {body : List Bytes}
    (hlength : body.flatten.length + 0x100 < 2 ^ 64) :
    Hands (sendPackage mp garbage { s with reqid := s.reqid + 1 }
      (hdr.slice 0 hdr.pos :: body)) s
        (encodeHeaderMap op.id.toNat s.reqid.toNat ++ body.flatten) := by
  have hop : op.id.toNat < 0x80 := by cases op <;> decide
  have hslice : hdr.slice 0 hdr.pos = encodeHeaderMap op.id.toNat s.reqid.toNat := hhdr.slice_pos
  have hheader := encodeHeaderMap_length_le hop s.reqid.toNat
  have hlt : (hdr.slice 0 hdr.pos :: body).flatten.length < 2 ^ 64 := by
    rw [List.flatten_cons, List.length_append, hslice]
    omega
  have hpayload : (hdr.slice 0 hdr.pos :: body).flatten =
      encodeHeaderMap op.id.toNat s.reqid.toNat ++ body.flatten := by
    rw [List.flatten_cons, hslice]
  rw [← hpayload]
  exact ⟨_, sendPackage_ok hmp garbage _ hlt, hlt, List.flatten_cons⟩

omit hmp in
theorem sends_of_hands {run : Except Fault (Ssize × Stream σ)} {s : Stream σ} {op : RequestType}
    {body : Bytes}
    (h : Hands run s (encodeHeaderMap op.id.toNat s.reqid.toNat ++ body))
    {entries : List (BodyKey × Bytes)}
    (hbody : body = mapHeader entries.length ++ encodeEntries entries)
    (hcount : entries.length < 16) (hvalues : ∀ entry ∈ entries, IsValue entry.2) :
    Sends run s ⟨op.id.toNat, s.reqid.toNat, entries.map readEntry⟩ := by
  have hop : op.id.toNat < 0x80 := by cases op <;> decide
  refine ⟨_, h, ?_⟩
  rw [hbody]
  exact decodePackage_eq (by omega) s.reqid.toNat_lt (by omega) hvalues

theorem hands_one (garbage : Nat → UInt8) {s : Stream σ} {op : RequestType}
    {parts : List Bytes} {value : Bytes} (hshort : ∀ part ∈ parts, part.length ≤ 5)
    (hfew : parts.length ≤ 12) (hlength : value.length < 2 ^ 62) :
    Hands (do
      let hdr ← encodeHeader mp op.id s.reqid
      let s := { s with reqid := s.reqid + 1 }
      let data ← emit (uninitialised garbage 64) parts
      sendPackage mp garbage s [hdr.slice 0 hdr.pos, data.slice 0 data.pos, value]) s
        (encodeHeaderMap op.id.toNat s.reqid.toNat ++ (parts.flatten ++ value)) := by
  have hop : op.id.toNat < 0x80 := by cases op <;> decide
  obtain ⟨hdr, hheader, hhdr⟩ := encodeHeader_ok hmp hop s.reqid
  have hlen := flatten_length_le hshort
  obtain ⟨data, hemit, hdata⟩ := emit_ok (uninitialised_holds garbage 64) parts
    (by rw [List.length_nil]; omega)
  have hslice : data.slice 0 data.pos = parts.flatten := hdata.slice_pos
  have hflatten : [data.slice 0 data.pos, value].flatten = parts.flatten ++ value := by
    simp [hslice]
  simp only [hheader, hemit, ok_bind]
  rw [← hflatten]
  refine hands_of_parts hmp garbage hhdr ?_
  rw [hflatten, List.length_append]
  omega

theorem hands_two (garbage : Nat → UInt8) {s : Stream σ} {op : RequestType}
    {parts : List Bytes} {value value' : Bytes} (field : BodyKey)
    (hshort : ∀ part ∈ parts, part.length ≤ 5) (hfew : parts.length ≤ 12)
    (hlength : value.length < 2 ^ 62) (hlength' : value'.length < 2 ^ 62) :
    Hands (do
      let hdr ← encodeHeader mp op.id s.reqid
      let s := { s with reqid := s.reqid + 1 }
      let data ← emit (uninitialised garbage 64) parts
      let bodyStart := data.pos
      let data ← emit data [encodeKey mp field]
      sendPackage mp garbage s [hdr.slice 0 hdr.pos, data.slice 0 bodyStart, value,
        data.slice bodyStart data.pos, value']) s
        (encodeHeaderMap op.id.toNat s.reqid.toNat ++
          (parts.flatten ++ value ++ encodeEntries [(field, value')])) := by
  have hop : op.id.toNat < 0x80 := by cases op <;> decide
  obtain ⟨hdr, hheader, hhdr⟩ := encodeHeader_ok hmp hop s.reqid
  have hlen := flatten_length_le hshort
  have hkey := encodeKey_length hmp field
  have hone : [encodeKey mp field].flatten = encodeKey mp field := by simp
  obtain ⟨data, data', hemit, hemit', hslice, hslice'⟩ :=
    @emit_two garbage 64 parts [encodeKey mp field] (by rw [hone, hkey]; omega)
  rw [hone] at hslice'
  have hflatten : [data'.slice 0 data.pos, value, data'.slice data.pos data'.pos, value'].flatten =
      parts.flatten ++ value ++ encodeEntries [(field, value')] := by
    simp [hslice, hslice', encodeKey_eq hmp]
  simp only [hheader, hemit, hemit', ok_bind]
  rw [← hflatten]
  refine hands_of_parts hmp garbage hhdr ?_
  simp only [List.flatten_cons, List.flatten_nil, List.length_append, hslice, hslice',
    List.length_nil, hkey]
  omega

theorem beerStoreBase_sends (garbage : Nat → UInt8) (s : Stream σ) (space : UInt32)
    (tuple : ArrayObject) (op : RequestType) :
    Sends (beerStoreBase mp garbage s space tuple.object op) s
      ⟨op.id.toNat, s.reqid.toNat, [numberEntry .space space.toUInt64,
        (.tuple, tuple.bytes)].map readEntry⟩ := by
  simp only [beerStoreBase, tuple.verify hmp, ok_bind, ne_eq, not_true_eq_false, if_false]
  refine sends_of_hands (hands_one hmp garbage ?_ (by simp) tuple.bytes_length_lt) ?_ (by simp) ?_
  · simp [encodeKey_length hmp, encodeUint32_length_le hmp, hmp.encodeMap_eq, mapHeader]
  · simp [hmp.encodeMap_eq, encodeKey_eq hmp, hmp.encodeUint_eq, numberEntry]
  · simp [isValue_numberEntry, tuple.isValue_bytes]

theorem beerRpcBase_sends (garbage : Nat → UInt8) (s : Stream σ) (proc : Name)
    (args : ArrayObject) (op : RequestType) :
    Sends (beerRpcBase mp garbage s (some proc.bytes) args.object op) s
      ⟨op.id.toNat, s.reqid.toNat,
        [textEntry (if isCall op then .function else .expression) proc.bytes,
          (.tuple, args.bytes)].map readEntry⟩ := by
  have hproc : proc.bytes.length ≠ 0 := Nat.pos_iff_ne_zero.mp proc.length_pos
  have hlength := proc.length_lt
  have hstrl : mp.mpEncodeStrl (UInt32.ofNat proc.bytes.length) = strHeader proc.bytes.length := by
    rw [hmp.encodeStrl_eq, UInt32.toNat_ofNat', Nat.mod_eq_of_lt hlength]
  simp only [beerRpcBase, hproc, args.verify hmp, ok_bind, ne_eq, not_true_eq_false, if_false]
  refine sends_of_hands (hands_two hmp garbage .tuple ?_ (by simp) (by omega)
    args.bytes_length_lt) ?_ (by simp) ?_
  · simp [encodeKey_length hmp, hmp.encodeMap_eq, mapHeader, hstrl, strHeader_length_le]
  · simp [hmp.encodeMap_eq, encodeKey_eq hmp, hstrl, textEntry]
  · simp [textEntry, isValue_str hlength, args.isValue_bytes]

namespace DirectCall

/-- The entries of the body that a call encodes. -/
def entries : DirectCall → List (BodyKey × Bytes)
  | ping => []
  | select space index limit offset iterator key =>
      [numberEntry .space space.toUInt64, numberEntry .index index.toUInt64,
        numberEntry .limit limit.toUInt64, numberEntry .offset offset.toUInt64,
        numberEntry .iterator iterator.toUInt64, (.key, key.bytes)]
  | insert space tuple => [numberEntry .space space.toUInt64, (.tuple, tuple.bytes)]
  | replace space tuple => [numberEntry .space space.toUInt64, (.tuple, tuple.bytes)]
  | delete space index key =>
      [numberEntry .space space.toUInt64, numberEntry .index index.toUInt64, (.key, key.bytes)]
  | update space index key ops =>
      [numberEntry .space space.toUInt64, numberEntry .index index.toUInt64, (.key, key.bytes),
        (.tuple, ops.bytes)]
  | call proc args => [textEntry .function proc.bytes, (.tuple, args.bytes)]
  | call16 proc args => [textEntry .function proc.bytes, (.tuple, args.bytes)]
  | eval expr args => [textEntry .expression expr.bytes, (.tuple, args.bytes)]

omit hmp in
theorem entries_read (call : DirectCall) :
    call.entries.map readEntry = call.arguments.map fun e => (e.1.id.toNat, e.2) := by
  cases call with
  | call proc args | call16 proc args | eval proc args =>
      simp [entries, arguments, readEntry_textEntry _ proc.length_lt]
  | _ => simp [entries, arguments]

theorem run_entries (garbage : Nat → UInt8) (s : Stream σ) (call : DirectCall) :
    Sends (call.run mp garbage s) s
      ⟨call.op.id.toNat, s.reqid.toNat, call.entries.map readEntry⟩ := by
  have hkey := encodeKey_length hmp
  have hnumber := encodeUint32_length_le hmp
  cases call with
  | ping =>
      obtain ⟨hdr, hheader, hhdr⟩ :=
        encodeHeader_ok hmp (show RequestType.ping.id.toNat < 0x80 by decide) s.reqid
      have hempty : mp.mpEncodeMap 0 = mapHeader 0 := hmp.encodeMap_eq 0
      have hone : (mapHeader 0).length = 1 := rfl
      obtain ⟨data, hemit, hdata⟩ := emit_ok (uninitialised_holds garbage 2) [mp.mpEncodeMap 0]
        (by simp [hempty, hone])
      have hslice : data.slice 0 data.pos = mapHeader 0 := by
        rw [hdata.slice_pos]
        simp [hempty]
      simp only [run, beerPing, hheader, hemit, ok_bind]
      exact sends_of_hands (hands_of_parts hmp garbage hhdr (by simp [hslice, hone]))
        (by simp [hslice, entries]) (by simp [entries]) (by simp [entries])
  | select space index limit offset iterator key =>
      have hiterator : (mp.mpEncodeUint iterator.toUInt64).length ≤ 5 := by
        simpa using hnumber iterator.toUInt32
      simp only [run, beerSelect, key.verify hmp, ok_bind, ne_eq, not_true_eq_false, if_false]
      refine sends_of_hands (hands_one hmp garbage ?_ (by simp) key.bytes_length_lt) ?_
        (by simp [entries]) ?_
      · simp [hkey, hnumber, hiterator, hmp.encodeMap_eq, mapHeader]
      · simp [entries, hmp.encodeMap_eq, encodeKey_eq hmp, hmp.encodeUint_eq, numberEntry]
      · simp [entries, isValue_numberEntry, key.isValue_bytes]
  | insert space tuple => exact beerStoreBase_sends hmp garbage s space tuple .insert
  | replace space tuple => exact beerStoreBase_sends hmp garbage s space tuple .replace
  | delete space index key =>
      simp only [run, beerDelete, key.verify hmp, ok_bind, ne_eq, not_true_eq_false, if_false]
      refine sends_of_hands (hands_one hmp garbage ?_ (by simp) key.bytes_length_lt) ?_
        (by simp [entries]) ?_
      · simp [hkey, hnumber, hmp.encodeMap_eq, mapHeader]
      · simp [entries, hmp.encodeMap_eq, encodeKey_eq hmp, hmp.encodeUint_eq, numberEntry]
      · simp [entries, isValue_numberEntry, key.isValue_bytes]
  | update space index key ops =>
      simp only [run, beerUpdate, key.verify hmp, ops.verify hmp, ok_bind, ne_eq,
        not_true_eq_false, if_false]
      refine sends_of_hands (hands_two hmp garbage .tuple ?_ (by simp) key.bytes_length_lt
        ops.bytes_length_lt) ?_ (by simp [entries]) ?_
      · simp [hkey, hnumber, hmp.encodeMap_eq, mapHeader]
      · simp [entries, hmp.encodeMap_eq, encodeKey_eq hmp, hmp.encodeUint_eq, numberEntry]
      · simp [entries, isValue_numberEntry, key.isValue_bytes, ops.isValue_bytes]
  | call proc args => exact beerRpcBase_sends hmp garbage s proc args .call
  | call16 proc args => exact beerRpcBase_sends hmp garbage s proc args .call16
  | eval expr args => exact beerRpcBase_sends hmp garbage s expr args .eval

/-- Every builder sends one frame with the operation it is for, the request number from before
the call, and precisely the arguments of the call. -/
theorem run_sends (garbage : Nat → UInt8) (s : Stream σ) (call : DirectCall) :
    Sends (call.run mp garbage s) s
      ⟨call.op.id.toNat, s.reqid.toNat, call.arguments.map fun e => (e.1.id.toNat, e.2)⟩ := by
  rw [← call.entries_read]
  exact call.run_entries hmp garbage s

end DirectCall

end Sending

theorem DirectCall.run_sends_select :
    Msgpuck.reference.Lawful ∧
      Sends ((DirectCall.select 512 1 10 0 2 .empty).run .reference (fun _ => 0) (collecting 7))
        (collecting 7) ⟨1, 7, [(0x10, .number 512), (0x11, .number 1), (0x12, .number 10),
          (0x13, .number 0), (0x14, .number 2), (0x20, .value [0x90])]⟩ :=
  ⟨Msgpuck.reference_lawful, DirectCall.run_sends Msgpuck.reference_lawful (fun _ => 0)
    (collecting 7) (.select 512 1 10 0 2 .empty)⟩

end BeeC
