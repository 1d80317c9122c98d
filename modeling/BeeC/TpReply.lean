import BeeC.BufReply
import BeeC.ReplyRoundTrip
import BeeC.Tp

/-!
The other decoder of replies, `tp_reply` of `tp.h`. It works on the frame where it stands, so its
pointers are offsets into the frame and not into the payload.
-/

namespace BeeC

open BeeC.Wire.BigEndian
open BeeC.Wire.Encoding
open BeeC.Wire.Loop
open BeeC.Wire.MessagePack

/-- `enum tp_response_key_t`. -/
inductive TpResponseKey where
  | data | error
  deriving DecidableEq, Repr

def TpResponseKey.id : TpResponseKey → UInt32
  | data => 0x30
  | error => 0x31

/-- `struct tp_array_itr`. -/
structure TpArrayItr where
  data : Option Nat := none
  firstElem : Option Nat := none
  elem : Option Nat := none
  elemEnd : Option Nat := none
  elemCount : UInt32 := 0
  curIndex : Int32 := 0
  deriving DecidableEq, Repr

/-- `struct tpresponse`. Its `buf` and its iterator over fields are not set by `tp_reply`. -/
structure TpResponse where
  bitmap : UInt64 := 0
  code : UInt32 := 0
  sync : UInt64 := 0
  error : Option Nat := none
  errorEnd : Option Nat := none
  data : Option Nat := none
  dataEnd : Option Nat := none
  tupleItr : TpArrayItr := {}
  deriving DecidableEq, Repr

/-- `r->bitmap |= (1ULL << key)`. -/
def TpResponse.mark (r : TpResponse) (key : UInt32) : Except Stop TpResponse :=
  if key < 64 then .ok { r with bitmap := r.bitmap ||| (1 <<< key.toUInt64) }
  else .error (.fault .shiftTooFar)

/-- `tp_array_itr_init`, for an array between two offsets. -/
def tpArrayItrInit (mp : Msgpuck) (buf : Bytes) (start stop : Nat) : Except Stop TpArrayItr := do
  let data := (buf.drop start).take (stop - start)
  if data.length = 0 then throw .fail
  expect mp .array data
  if (mp.mpCheck data).isNone then throw .fail
  let (count, rest) ← mp.decodeArray data
  return {
    data := some start
    firstElem := some (start + (data.length - rest.length))
    elemCount := count
    curIndex := -1 }

/-- One turn of the header loop of `tp_reply`. -/
def tpHeaderPair (mp : Msgpuck) (s : TpResponse × Bytes) : Except Stop (TpResponse × Bytes) := do
  let (r, p) := s
  expect mp .uint p
  let (key, p) ← mp.decodeUint p
  let key := key.toUInt32
  expect mp .uint p
  if key.toUInt64 = TpHeaderKey.sync.id then
    expect mp .uint p
    let (value, p) ← mp.decodeUint p
    let r ← TpResponse.mark { r with sync := value } key
    return (r, p)
  else if key.toUInt64 = TpHeaderKey.code.id then
    expect mp .uint p
    let (value, p) ← mp.decodeUint p
    let r ← TpResponse.mark { r with code := value.toUInt32 } key
    return (r, p)
  else
    let p ← mp.nextValue p
    let r ← r.mark key
    return (r, p)

/-- One turn of the body loop of `tp_reply`, on a buffer of `size` bytes. -/
def tpBodyPair (mp : Msgpuck) (size : Nat) (s : TpResponse × Bytes) :
    Except Stop (TpResponse × Bytes) := do
  let (r, p) := s
  let (key, p) ← mp.decodeUint p
  let key := key.toUInt32
  if key = TpResponseKey.error.id then
    expect mp .str p
    let (elen, p) ← mp.decodeStr p
    let start := size - p.length
    let rest ← Msgpuck.advance p elen.toNat
    let r ← TpResponse.mark { r with
      error := some start
      errorEnd := some (start + elen.toNat) } key
    return (r, rest)
  else if key = TpResponseKey.data.id then
    expect mp .array p
    let rest ← mp.nextValue p
    let r ← TpResponse.mark { r with
      data := some (size - p.length)
      dataEnd := some (size - rest.length) } key
    return (r, rest)
  else
    let p ← mp.nextValue p
    let r ← r.mark key
    return (r, p)

/-- `tp_reply` from the body on. -/
def tpReplyBody (mp : Msgpuck) (buf : Bytes) (r : TpResponse) (p : Bytes) :
    Except Stop (Nat × TpResponse) := do
  let (n, p) ← openMap mp p
  let (r, p) ← loop (tpBodyPair mp buf.length) n.toNat (r, p)
  match r.data with
  | some start =>
      let tupleItr ← tpArrayItrInit mp buf start (r.dataEnd.getD 0)
      return (buf.length - p.length, { r with tupleItr })
  | none => return (buf.length - p.length, r)

/-- `tp_reply` from the header on. -/
def tpReplyHeader (mp : Msgpuck) (buf : Bytes) (len : UInt32) (p : Bytes) :
    Except Stop (Nat × TpResponse) := do
  let (n, p) ← openMap mp p
  let (r, p) ← loop (tpHeaderPair mp) n.toNat ({}, p)
  if buf.length - p.length = len.toNat + 5 then return ((len + 5).toNat, r)
  tpReplyBody mp buf r p

/-- `tp_reply`. Where it fails, the response is of no use. -/
def tpReply (mp : Msgpuck) (buf : Bytes) : Except Stop (Nat × TpResponse) := do
  if buf.length = 0 then return (0, {})
  if (mp.mpCheck buf).isNone then throw .fail
  expect mp .uint buf
  let (len, p) ← mp.decodeUint buf
  let len := len.toUInt32
  if buf.length < (len + UInt32.ofNat (buf.length - p.length)).toNat then return (0, {})
  tpReplyHeader mp buf len p

namespace TpResponse

def errorText (r : TpResponse) (buf : Bytes) : Option Bytes := slice buf r.error r.errorEnd

def dataBytes (r : TpResponse) (buf : Bytes) : Option Bytes := slice buf r.data r.dataEnd

def setBit (r : TpResponse) (key : UInt32) : TpResponse :=
  { r with bitmap := r.bitmap ||| (1 <<< key.toUInt64) }

theorem mark_eq {key : UInt32} (h : key < 64) (r : TpResponse) : r.mark key = .ok (r.setBit key) :=
  if_pos h

/-- A header field. The schema is recorded in the bitmap only. -/
def setHeader (r : TpResponse) (field : HeaderKey × UInt64) : TpResponse :=
  match field.1 with
  | .code => { r with code := field.2.toUInt32 }.setBit HeaderKey.code.id
  | .sync => { r with sync := field.2 }.setBit HeaderKey.sync.id
  | .schemaId => r.setBit HeaderKey.schemaId.id

end TpResponse

/-- The response holds the fields of a reply. Its code is not cut off when there is an error. -/
structure TpReading (buf : Bytes) (r : TpResponse) (f : Fields) : Prop where
  bitmap_eq : r.bitmap = f.bitmap
  sync_eq : r.sync = f.sync
  code_eq : f.code = if f.error.isSome then r.code.toUInt64 &&& ((1 : UInt64) <<< 15 - 1)
    else r.code.toUInt64
  error_eq : r.errorText buf = f.error
  data_eq : r.dataBytes buf = f.data
  data_paired : r.data.isSome = r.dataEnd.isSome
  data_array : ∀ array, f.data = some array → IsValue array ∧ kindOf array = some .array

theorem tpReading_init (buf : Bytes) : TpReading buf {} {} :=
  ⟨rfl, rfl, rfl, rfl, rfl, rfl, fun _ h => by cases h⟩

theorem TpReading.setHeader {buf : Bytes} {r : TpResponse} {f : Fields} (h : TpReading buf r f)
    (herror : f.error = none) {field : HeaderKey × UInt64}
    (hcode : field.1 = .code → field.2.toNat < 2 ^ 32) :
    TpReading buf (r.setHeader field) (f.setHeader field) := by
  obtain ⟨hbitmap, hsync, hcode', herror', hdata, hpaired, harray⟩ := h
  obtain ⟨key, value⟩ := field
  cases key with
  | code =>
      have hvalue : value.toUInt32.toUInt64 = value := by
        apply UInt64.toNat_inj.mp
        rw [UInt32.toNat_toUInt64, UInt64.toNat_toUInt32, Nat.mod_eq_of_lt (hcode rfl)]
      refine ⟨congrArg (· ||| _) hbitmap, hsync, ?_, herror', hdata, hpaired, harray⟩
      simp [Fields.setHeader, Fields.withCode, Fields.setBit, TpResponse.setHeader,
        TpResponse.setBit, herror, hvalue]
  | sync => exact ⟨congrArg (· ||| _) hbitmap, rfl, hcode', herror', hdata, hpaired,
      harray⟩
  | schemaId => exact ⟨congrArg (· ||| _) hbitmap, hsync, hcode', herror', hdata, hpaired,
      harray⟩

theorem TpReading.setHeaders {buf : Bytes} {r : TpResponse} {f : Fields} (h : TpReading buf r f)
    (herror : f.error = none) {header : List (HeaderKey × UInt64)}
    (hcode : ∀ field ∈ header, field.1 = .code → field.2.toNat < 2 ^ 32) :
    TpReading buf (header.foldl TpResponse.setHeader r) (header.foldl Fields.setHeader f) := by
  induction header generalizing r f with
  | nil => exact h
  | cons field header ih =>
      rw [List.forall_mem_cons] at hcode
      exact ih (h.setHeader herror hcode.1) ((Fields.setHeader_texts f field).1.trans herror) hcode.2

theorem TpReading.setError {buf before text rest : Bytes} {r : TpResponse} {f : Fields}
    (h : TpReading buf r f) (hbuf : buf = before ++ (text ++ rest)) :
    TpReading buf
      ({ r with
        error := some before.length
        errorEnd := some (before.length + text.length) }.setBit ResponseKey.error.id)
      (f.setBody (.error text)) := by
  obtain ⟨hbitmap, hsync, hcode, -, hdata, hpaired, harray⟩ := h
  refine ⟨congrArg (· ||| _) hbitmap, hsync, ?_, ?_, hdata, hpaired, harray⟩
  · change f.code &&& _ = r.code.toUInt64 &&& _
    rw [hcode]
    split
    · rw [UInt64.and_assoc, UInt64.and_self]
    · rfl
  · simp [TpResponse.errorText, TpResponse.setBit, slice, hbuf, Fields.setBody, Fields.withError,
      Fields.setBit]

theorem TpReading.setData {buf before array rest : Bytes} {r : TpResponse} {f : Fields}
    (h : TpReading buf r f) (hbuf : buf = before ++ (array ++ rest)) (hvalue : IsValue array)
    (hkind : kindOf array = some .array) :
    TpReading buf
      ({ r with
        data := some before.length
        dataEnd := some (before.length + array.length) }.setBit ResponseKey.data.id)
      (f.setBody (.data array)) := by
  obtain ⟨hbitmap, hsync, hcode, herror, -, -, -⟩ := h
  refine ⟨congrArg (· ||| _) hbitmap, hsync, hcode, herror, ?_, rfl, ?_⟩
  · simp [TpResponse.dataBytes, TpResponse.setBit, slice, hbuf, Fields.setBody, Fields.withData,
      Fields.setBit]
  · intro other hother
    cases hother
    exact ⟨hvalue, hkind⟩

section Decoding

variable {mp : Msgpuck} (hmp : mp.Lawful)

include hmp

theorem tpHeaderPair_spells {pair : Bytes × Bytes} {field : HeaderKey × UInt64}
    (h : SpellsHeader pair field) (r : TpResponse) (tail : Bytes) :
    tpHeaderPair mp (r, pair.1 ++ (pair.2 ++ tail)) = .ok (r.setHeader field, tail) := by
  obtain ⟨key, value⟩ := field
  obtain ⟨hkexpect, hkdecode⟩ := number_at hmp h.1 (pair.2 ++ tail)
  obtain ⟨hvexpect, hvdecode⟩ := number_at hmp h.2 tail
  have hkey : (UInt64.ofNat key.id.toNat).toUInt32 = key.id := by
    rw [ofNat_toUInt32, UInt32.ofNat_toNat]
  have hnext := Msgpuck.nextValue_append hmp (isValue_of_uintOf h.2) tail
  simp only [tpHeaderPair, hkexpect, ok_bind, hkdecode, hkey, hvexpect, hvdecode,
    UInt64.ofNat_toNat, hnext]
  cases key with
  | code => exact congrArg (· >>= _) (TpResponse.mark_eq (by decide) _)
  | sync => exact congrArg (· >>= _) (TpResponse.mark_eq (by decide) _)
  | schemaId => exact congrArg (· >>= _) (TpResponse.mark_eq (by decide) _)

theorem tpHeaderLoop_spells {pairs : List (Bytes × Bytes)} {fields : List (HeaderKey × UInt64)}
    (h : List.Forall₂ SpellsHeader pairs fields) (r : TpResponse) (tail : Bytes) :
    loop (tpHeaderPair mp) pairs.length (r, (unpair pairs).flatten ++ tail) =
      .ok (fields.foldl TpResponse.setHeader r, tail) := by
  induction h generalizing r with
  | nil => rfl
  | @cons pair field pairs fields hpair _ ih =>
      simp only [unpair, List.flatMap_cons, List.flatten_cons, List.cons_append, List.nil_append,
        List.append_assoc, List.length_cons, loop_succ]
      rw [tpHeaderPair_spells hmp hpair, ok_bind]
      exact ih _

theorem tpBodyPair_spells {pair : Bytes × Bytes} {field : BodyField} (h : SpellsBody pair field)
    {buf before tail : Bytes} {r : TpResponse} {f : Fields} (hr : TpReading buf r f)
    (hbuf : buf = before ++ (pair.1 ++ (pair.2 ++ tail))) :
    ∃ r', tpBodyPair mp buf.length (r, pair.1 ++ (pair.2 ++ tail)) = .ok (r', tail) ∧
      TpReading buf r' (f.setBody field) := by
  cases field with
  | data array =>
      obtain ⟨hkey, rfl, hvalue, hkind⟩ := h
      have hkdecode := (number_at hmp hkey (pair.2 ++ tail)).2
      have hkey' : (UInt64.ofNat ResponseKey.data.id.toNat).toUInt32 = TpResponseKey.data.id := by
        decide
      have hother : TpResponseKey.data.id ≠ TpResponseKey.error.id := by decide
      obtain ⟨hd, after, hhead, -, -⟩ := hvalue.head
      have hvhead := head_append hhead tail
      have hexpect : expect mp .array (pair.2 ++ tail) = .ok () := by
        rw [kindOf, hhead, Option.map_some, Option.some.injEq] at hkind
        exact expect_eq hmp hvhead hkind
      have hsplit : buf = (before ++ pair.1) ++ (pair.2 ++ tail) := by
        rw [hbuf, List.append_assoc]
      have hstart : buf.length - (pair.2 ++ tail).length = (before ++ pair.1).length := by
        rw [hsplit, List.length_append, Nat.add_sub_cancel]
      have hstop : buf.length - tail.length = (before ++ pair.1).length + pair.2.length := by
        rw [hsplit, ← List.append_assoc, List.length_append, Nat.add_sub_cancel,
          List.length_append]
      refine ⟨_, ?_, hr.setData hsplit hvalue hkind⟩
      simp only [tpBodyPair, hkdecode, ok_bind, hkey', hother, ite_false,
        ite_true, hexpect, Msgpuck.nextValue_append hmp hvalue, hstart, hstop]
      exact congrArg (· >>= _) (TpResponse.mark_eq (by decide) _)
  | error text =>
      obtain ⟨hkey, htext⟩ := h
      have hkdecode := (number_at hmp hkey (pair.2 ++ tail)).2
      have hkey' : (UInt64.ofNat ResponseKey.error.id.toNat).toUInt32 = TpResponseKey.error.id := by
        decide
      have hhead := head_of_textOf htext
      obtain ⟨used, hused, -, -⟩ := head_suffix hhead
      have hvhead := head_append hhead tail
      have hexpect : expect mp .str (pair.2 ++ tail) = .ok () := expect_eq hmp hvhead rfl
      have hlength : (UInt32.ofNat text.length).toNat = text.length :=
        UInt32.toNat_ofNat_of_lt' (fits_of_head hhead)
      have hsplit : buf = (before ++ pair.1 ++ used) ++ (text ++ tail) := by
        rw [hbuf, hused]
        simp only [List.append_assoc]
      have hstart : buf.length - (text ++ tail).length = (before ++ pair.1 ++ used).length := by
        rw [hsplit, List.length_append, Nat.add_sub_cancel]
      refine ⟨_, ?_, hr.setError hsplit⟩
      simp only [tpBodyPair, hkdecode, ok_bind, hkey', ite_true, hexpect,
        Msgpuck.decodeStr_eq hmp hvhead, hlength, hstart, Msgpuck.advance_append]
      exact congrArg (· >>= _) (TpResponse.mark_eq (by decide) _)

theorem tpBodyLoop_spells {pairs : List (Bytes × Bytes)} {fields : List BodyField}
    (h : List.Forall₂ SpellsBody pairs fields) {buf before tail : Bytes} {r : TpResponse}
    {f : Fields} (hr : TpReading buf r f)
    (hbuf : buf = before ++ ((unpair pairs).flatten ++ tail)) :
    ∃ r', loop (tpBodyPair mp buf.length) pairs.length (r, (unpair pairs).flatten ++ tail) =
        .ok (r', tail) ∧ TpReading buf r' (fields.foldl Fields.setBody f) := by
  induction h generalizing r f before with
  | nil => exact ⟨r, rfl, hr⟩
  | @cons pair field pairs fields hpair _ ih =>
      simp only [unpair, List.flatMap_cons, List.flatten_cons, List.cons_append, List.nil_append,
        List.append_assoc, List.length_cons, loop_succ] at hbuf ⊢
      obtain ⟨r', hturn, hr'⟩ := tpBodyPair_spells hmp hpair hr hbuf
      rw [hturn, ok_bind]
      refine @ih (before ++ (pair.1 ++ pair.2)) r' (f.setBody field) hr' ?_
      rw [hbuf]
      simp only [List.append_assoc, unpair]

theorem tpArrayItrInit_ok {buf array : Bytes} {start stop : Nat}
    (hslice : slice buf (some start) (some stop) = some array) (hvalue : IsValue array)
    (hkind : kindOf array = some .array) : ∃ itr, tpArrayItrInit mp buf start stop = .ok itr := by
  have hbytes : (buf.drop start).take (stop - start) = array := Option.some.inj hslice
  have hpos : array.length ≠ 0 := hvalue.length_pos.ne'
  obtain ⟨hd, after, hhead, -, -⟩ := hvalue.head
  rw [kindOf, hhead, Option.map_some, Option.some.injEq] at hkind
  have hexpect : expect mp .array array = .ok () := expect_eq hmp hhead hkind
  have hcheck : (mp.mpCheck array).isNone = false := by
    have hnext := next_append hvalue []
    rw [List.append_nil] at hnext
    rw [hmp.check_eq, hnext]
    rfl
  cases hd with
  | array count =>
      simp only [tpArrayItrInit, hbytes, hpos, ite_false, hexpect, ok_bind, hcheck,
        Msgpuck.decodeArray_eq hmp hhead]
      exact ⟨_, rfl⟩
  | _ => cases hkind

theorem tpReplyBody_spells {bodyMap : Bytes} {pairs : List (Bytes × Bytes)}
    {fields : List BodyField} (hbody : head bodyMap = some (.map pairs.length, []))
    (h : List.Forall₂ SpellsBody pairs fields) {buf before tail : Bytes} {r : TpResponse}
    {f : Fields} (hr : TpReading buf r f)
    (hbuf : buf = before ++ (bodyMap ++ ((unpair pairs).flatten ++ tail))) :
    ∃ r', tpReplyBody mp buf r (bodyMap ++ ((unpair pairs).flatten ++ tail)) =
        .ok (buf.length - tail.length, r') ∧ TpReading buf r' (fields.foldl Fields.setBody f) := by
  obtain ⟨n, -, hopen, hn, -, -⟩ := openMap_eq_ok hmp (mapOf_spelledBody hbody h tail)
  obtain ⟨r', hloop, hr'⟩ := tpBodyLoop_spells hmp h hr
    (show buf = (before ++ bodyMap) ++ ((unpair pairs).flatten ++ tail) by
      rw [hbuf, List.append_assoc])
  simp only [tpReplyBody, hopen, ok_bind, hn, hloop]
  cases hdata : r'.data with
  | none => exact ⟨r', rfl, hr'⟩
  | some start =>
      have hpaired := hr'.data_paired
      rw [hdata, Option.isSome_some] at hpaired
      obtain ⟨stop, hstop⟩ := Option.isSome_iff_exists.mp hpaired.symm
      have hslice := hr'.data_eq
      rw [TpResponse.dataBytes, hdata, hstop] at hslice
      obtain ⟨array, harray⟩ : ∃ array, (fields.foldl Fields.setBody f).data = some array :=
        ⟨_, hslice.symm⟩
      rw [harray] at hslice
      obtain ⟨hvalue, hkind⟩ := hr'.data_array array harray
      obtain ⟨itr, hitr⟩ := tpArrayItrInit_ok hmp hslice hvalue hkind
      refine ⟨{ r' with tupleItr := itr }, ?_, ?_⟩
      · simp only [hdata, hstop, Option.getD_some, hitr, ok_bind, pure_eq]
      · obtain ⟨hbitmap, hsync, hcode, herror, hdata, hpaired, harray⟩ := hr'
        exact ⟨hbitmap, hsync, hcode, herror, hdata, hpaired, harray⟩

end Decoding

/-- The bytes behind the header: none, or a map of body fields. -/
def SpellsRest (rest : Bytes) : Option (List BodyField) → Prop
  | none => rest = []
  | some body => ∃ bodyMap bodyPairs, head bodyMap = some (.map bodyPairs.length, []) ∧
      List.Forall₂ SpellsBody bodyPairs body ∧ rest = bodyMap ++ (unpair bodyPairs).flatten

/-- The payload is an encoding of a header and a body, or of a header alone. The keys may stand in
any order, and any number of times. -/
def SpellsReply (payload : Bytes) (header : List (HeaderKey × UInt64))
    (body : Option (List BodyField)) : Prop :=
  ∃ headerMap headerPairs rest, head headerMap = some (.map headerPairs.length, []) ∧
    List.Forall₂ SpellsHeader headerPairs header ∧
    payload = headerMap ++ ((unpair headerPairs).flatten ++ rest) ∧ SpellsRest rest body

/-- Both decoders succeed on the bytes, and they say the same. The code is compared in the 15 bits
that `beer_reply` keeps of it, if there is an error. -/
def RepliesAgree (mp : Msgpuck) (buf : Bytes) (r : Reply) : Prop :=
  ∃ n response off reply, tpReply mp buf = .ok (n, response) ∧ 0 < n ∧
    beerReply mp r buf = .ok (0, off, reply) ∧
    reply.sync = response.sync ∧ reply.errorText = response.errorText buf ∧
    reply.dataBytes = response.dataBytes buf ∧ reply.bitmap = response.bitmap ∧
    reply.code = if reply.errorText.isSome
      then response.code.toUInt64 &&& ((1 : UInt64) <<< 15 - 1) else response.code.toUInt64

section Frame

variable {mp : Msgpuck} (hmp : mp.Lawful)
variable {payload : Bytes} {header : List (HeaderKey × UInt64)}

include hmp

omit hmp in
theorem head_lengthBytes {len : Nat} (hlen : len < 2 ^ 32) :
    head (0xce :: store 4 len) = some (.uint len, []) :=
  head_store .uint rfl (by omega)

omit hmp in
theorem isValue_lengthBytes {len : Nat} (hlen : len < 2 ^ 32) : IsValue (0xce :: store 4 len) :=
  @isValue_of_uintOf _ len (by simp [uintOf, head_lengthBytes hlen])

theorem tpReply_front {len : Nat} (hlen : len < 2 ^ 32) (p : Bytes) :
    tpReply mp (0xce :: store 4 len ++ p) =
      if p.length + 5 < (len + 5) % 2 ^ 32 then .ok (0, {})
      else tpReplyHeader mp (0xce :: store 4 len ++ p) (UInt32.ofNat len) p := by
  have hhead : head (0xce :: store 4 len ++ p) = some (.uint len, p) :=
    head_append (head_lengthBytes hlen) p
  have hcheck : (mp.mpCheck (0xce :: store 4 len ++ p)).isNone = false := by
    rw [hmp.check_eq, next_append (isValue_lengthBytes hlen)]
    rfl
  have hexpect : expect mp .uint (0xce :: store 4 len ++ p) = .ok () := expect_eq hmp hhead rfl
  have hsize : (0xce :: store 4 len ++ p).length = p.length + 5 := by
    simp
    omega
  have hused : p.length + 5 - p.length = 5 := by omega
  have hsum : (UInt32.ofNat len + UInt32.ofNat 5).toNat = (len + 5) % 2 ^ 32 := by
    rw [UInt32.toNat_add, UInt32.toNat_ofNat_of_lt' hlen]
    rfl
  have hnonempty : ¬p.length + 5 = 0 := by omega
  simp only [tpReply, hsize, if_neg hnonempty, hcheck, Bool.false_eq_true, ite_false, hexpect,
    ok_bind, Msgpuck.decodeUint_eq hmp hhead, ofNat_toUInt32, hused, hsum]
  split <;> rfl

theorem tpReply_frame (hlength : payload.length < 2 ^ 32) (rest : Bytes) :
    tpReply mp (frame payload ++ rest) =
      tpReplyHeader mp (frame payload ++ rest) (UInt32.ofNat payload.length) (payload ++ rest) := by
  have hsplit : frame payload ++ rest = 0xce :: store 4 payload.length ++ (payload ++ rest) := by
    rw [frame, List.append_assoc]
  have henough : ¬(payload ++ rest).length + 5 < (payload.length + 5) % 2 ^ 32 := by
    have hle := Nat.mod_le (payload.length + 5) (2 ^ 32)
    rw [List.length_append]
    omega
  rw [hsplit, tpReply_front hmp hlength, if_neg henough]

theorem tpReply_spells (hlength : payload.length < 2 ^ 32) {body : List BodyField}
    (hspells : SpellsReply payload header (some body))
    (hcode : ∀ field ∈ header, field.1 = .code → field.2.toNat < 2 ^ 32) (rest : Bytes) :
    ∃ n response, tpReply mp (frame payload ++ rest) = .ok (n, response) ∧ 0 < n ∧
      TpReading (frame payload ++ rest) response
        (body.foldl Fields.setBody (header.foldl Fields.setHeader {})) := by
  obtain ⟨headerMap, headerPairs, _, hheader, hspell, hpayload, bodyMap, bodyPairs, hbody, hspell',
    rfl⟩ := hspells
  have hsplit : payload ++ rest = headerMap ++ ((unpair headerPairs).flatten ++
      (bodyMap ++ ((unpair bodyPairs).flatten ++ rest))) := by
    rw [hpayload]
    simp only [List.append_assoc]
  obtain ⟨n, -, hopen, hn, -, -⟩ := openMap_eq_ok hmp (mapOf_spelledHeader hheader hspell
    (bodyMap ++ ((unpair bodyPairs).flatten ++ rest)))
  have hbuf : frame payload ++ rest = (0xce :: store 4 payload.length ++
      (headerMap ++ (unpair headerPairs).flatten)) ++
        (bodyMap ++ ((unpair bodyPairs).flatten ++ rest)) := by
    rw [frame, List.append_assoc, hsplit]
    simp only [List.append_assoc]
  have hmore : ¬(frame payload ++ rest).length -
      (bodyMap ++ ((unpair bodyPairs).flatten ++ rest)).length =
        (UInt32.ofNat payload.length).toNat + 5 := by
    obtain ⟨used, hused, hpos, -⟩ := head_suffix hbody
    have hfront : (0xce :: store 4 payload.length).length = 5 := by simp
    have hlengths := congrArg List.length hpayload
    rw [List.append_nil] at hused
    rw [UInt32.toNat_ofNat_of_lt' hlength, hbuf]
    simp only [List.length_append, hfront] at hlengths ⊢
    rw [hused] at hlengths ⊢
    omega
  obtain ⟨response, hbody', hreading⟩ := tpReplyBody_spells hmp hbody hspell'
    ((tpReading_init (frame payload ++ rest)).setHeaders rfl hcode) hbuf
  refine ⟨(frame payload ++ rest).length - rest.length, response, ?_, ?_, hreading⟩
  · rw [tpReply_frame hmp hlength, hsplit, tpReplyHeader, hopen, ok_bind]
    dsimp only
    rw [hn, tpHeaderLoop_spells hmp hspell, ok_bind]
    dsimp only
    rw [if_neg hmore, hbody']
  · rw [List.length_append, length_frame]
    omega

/-- `beer_reply` takes a header for a reply only in front of a body. -/
theorem beerReply_spells (hlength : payload.length < 2 ^ 32) {body : List BodyField}
    (hspells : SpellsReply payload header (some body)) (rest : Bytes) (r : Reply) :
    ∃ off reply, beerReply mp r (frame payload ++ rest) = .ok (0, off, reply) ∧
      Reading payload reply (body.foldl Fields.setBody (header.foldl Fields.setHeader {})) := by
  obtain ⟨headerMap, headerPairs, _, hheader, hspell, hpayload, bodyMap, bodyPairs, hbody, hspell',
    rfl⟩ := hspells
  have hread := readPayload_spelled hheader hspell hbody hspell' []
  rw [List.append_nil, ← hpayload] at hread
  have hpos : 0 < payload.length := by
    obtain ⟨used, hused, hpos, -⟩ := head_suffix hheader
    rw [hpayload, hused, List.length_append, List.length_append]
    omega
  obtain ⟨reply, hreply, hreading⟩ :=
    beerReplyFrom_ok hmp (delivers_beerReplyCb payload rest) hpos hlength r hread
  refine ⟨some ((frame payload ++ rest).length - rest.length), reply, ?_, hreading⟩
  rw [beerReply_whole hmp hlength, hreply]
  rfl

theorem beerReply_bodyless (hlength : payload.length < 2 ^ 32)
    (hspells : SpellsReply payload header none) (rest : Bytes) (r : Reply) :
    ∃ off, beerReply mp r (frame payload ++ rest) = .ok (-1, off, Reply.init r.alloc) := by
  obtain ⟨headerMap, headerPairs, _, hheader, hspell, hpayload, rfl⟩ := hspells
  have hread : readPayload payload = .error .fail := by
    rw [hpayload, readPayload, mapOf_spelledHeader hheader hspell]
    simp only [headerFields_spell hspell, ok_bind]
    rfl
  have hpos : 0 < payload.length := by
    obtain ⟨used, hused, hpos, -⟩ := head_suffix hheader
    rw [hpayload, hused, List.length_append, List.length_append]
    omega
  have hfail := beerReplyFrom_error hmp (delivers_beerReplyCb payload rest) hpos hlength r hread
  refine ⟨some ((frame payload ++ rest).length - rest.length), ?_⟩
  rw [beerReply_whole hmp hlength, hfail]
  rfl

/-- The two decoders agree on a whole frame exactly when the reply has a body. -/
theorem repliesAgree_iff {body : Option (List BodyField)} (hlength : payload.length < 2 ^ 32)
    (hspells : SpellsReply payload header body)
    (hcode : ∀ field ∈ header, field.1 = .code → field.2.toNat < 2 ^ 32) (rest : Bytes)
    (r : Reply) : RepliesAgree mp (frame payload ++ rest) r ↔ body ≠ none := by
  cases body with
  | none =>
      obtain ⟨off, hfail⟩ := beerReply_bodyless hmp hlength hspells rest r
      refine iff_of_false ?_ (fun h => h rfl)
      rintro ⟨n, response, off', reply, -, -, hreply, -⟩
      rw [hfail] at hreply
      cases hreply
  | some body =>
      obtain ⟨n, response, htp, hpos, htpReading⟩ := tpReply_spells hmp hlength hspells hcode rest
      obtain ⟨off, reply, hreply, hreading⟩ := beerReply_spells hmp hlength hspells rest r
      refine iff_of_true ⟨n, response, off, reply, htp, hpos, hreply, ?_, ?_, ?_, ?_, ?_⟩
        (Option.some_ne_none body)
      · exact (congrArg Fields.sync hreading.fields_eq).trans htpReading.sync_eq.symm
      · exact (congrArg Fields.error hreading.fields_eq).trans htpReading.error_eq.symm
      · exact (congrArg Fields.data hreading.fields_eq).trans htpReading.data_eq.symm
      · exact (congrArg Fields.bitmap hreading.fields_eq).trans htpReading.bitmap_eq.symm
      · rw [show reply.errorText = _ from congrArg Fields.error hreading.fields_eq]
        exact (congrArg Fields.code hreading.fields_eq).trans htpReading.code_eq

end Frame

theorem repliesAgree_iff_error :
    RepliesAgree Msgpuck.reference
        (frame [0x83, 0x00, 0xcd, 0x80, 0x02, 0x01, 0x07, 0x05, 0x2a, 0x81, 0x31, 0xa2, 0x6e, 0x6f] ++
          []) (Reply.init false) ↔
      (some [BodyField.error [0x6e, 0x6f]]) ≠ none := by
  refine @repliesAgree_iff _ Msgpuck.reference_lawful _
    [(.code, 0x8002), (.sync, 7), (.schemaId, 42)] _ (by decide) ?_ (by decide) [] _
  exact ⟨[0x83], [([0x00], [0xcd, 0x80, 0x02]), ([0x01], [0x07]), ([0x05], [0x2a])], _, by decide,
    .cons ⟨by decide, by decide⟩ (.cons ⟨by decide, by decide⟩ (.cons ⟨by decide, by decide⟩ .nil)),
    by decide, [0x81], [([0x31], [0xa2, 0x6e, 0x6f])], by decide,
    .cons ⟨by decide, by decide⟩ .nil, rfl⟩

/-- The reply to a ping: a code and a sync, and no body. One decoder returns its size, and the
other one refuses it. -/
theorem not_repliesAgree :
    SpellsReply [0x82, 0x00, 0x00, 0x01, 0x07] [(.code, 0), (.sync, 7)] none ∧
      tpReply Msgpuck.reference (frame [0x82, 0x00, 0x00, 0x01, 0x07]) =
        .ok (10, { bitmap := 3, sync := 7 }) ∧
      ¬RepliesAgree Msgpuck.reference (frame [0x82, 0x00, 0x00, 0x01, 0x07]) (Reply.init false) := by
  refine ⟨⟨[0x82], [([0x00], [0x00]), ([0x01], [0x07])], [], by decide,
    .cons ⟨by decide, by decide⟩ (.cons ⟨by decide, by decide⟩ .nil), by decide, rfl⟩, by rfl, ?_⟩
  rintro ⟨n, response, off, reply, -, -, hreply, -⟩
  have hfail : beerReply Msgpuck.reference (Reply.init false)
      (frame [0x82, 0x00, 0x00, 0x01, 0x07]) = .ok (-1, some 10, Reply.init false) := by rfl
  rw [hfail] at hreply
  cases hreply

end BeeC
