import BeeC.Reply

namespace BeeC

open BeeC.Wire.BigEndian
open BeeC.Wire.MessagePack
open BeeC.Wire.Encoding
open BeeC.Wire.Loop

/-- The fields of a reply, with the bytes its pointers delimit. -/
structure Fields where
  bitmap : UInt64 := 0
  code : UInt64 := 0
  sync : UInt64 := 0
  schemaId : UInt64 := 0
  error : Option Bytes := none
  data : Option Bytes := none
  deriving DecidableEq, Repr

def Reply.fields (r : Reply) : Fields where
  bitmap := r.bitmap
  code := r.code
  sync := r.sync
  schemaId := r.schemaId
  error := r.errorText
  data := r.dataBytes

namespace Fields

def mark (f : Fields) (key : UInt32) : Except Stop Fields :=
  if key < 64 then .ok { f with bitmap := f.bitmap ||| (1 <<< key.toUInt64) }
  else .error (.fault .shiftTooFar)

def setBit (f : Fields) (key : UInt32) : Fields :=
  { f with bitmap := f.bitmap ||| (1 <<< key.toUInt64) }

def withSync (f : Fields) (value : UInt64) : Fields := { f with sync := value }

def withCode (f : Fields) (value : UInt64) : Fields := { f with code := value }

def withSchemaId (f : Fields) (value : UInt64) : Fields := { f with schemaId := value }

def withError (f : Fields) (text : Bytes) : Fields :=
  { f with error := some text, code := f.code &&& ((1 : UInt64) <<< 15 - 1) }

def withData (f : Fields) (array : Bytes) : Fields := { f with data := some array }

theorem mark_eq (key : UInt32) (h : key < 64) (f : Fields) : f.mark key = .ok (f.setBit key) :=
  if_pos h

theorem testBit_setBit {key : UInt32} (h : key < 64) (f : Fields) (i : Nat) :
    (f.setBit key).bitmap.toNat.testBit i =
      (f.bitmap.toNat.testBit i || decide (i = key.toNat)) := by
  have hkey : key.toNat < 64 := h
  have hshift : ((1 : UInt64) <<< key.toUInt64).toNat = 2 ^ key.toNat := by
    have hlt : 2 ^ key.toNat < 2 ^ 64 := Nat.pow_lt_pow_right (by decide) hkey
    simp only [UInt64.toNat_shiftLeft, UInt64.toNat_one, UInt32.toNat_toUInt64,
      Nat.mod_eq_of_lt hkey, Nat.shiftLeft_eq, Nat.one_mul, Nat.mod_eq_of_lt hlt]
  rw [setBit, UInt64.toNat_or, hshift, Nat.testBit_or, Nat.testBit_two_pow]
  simp [eq_comm]

end Fields

/-- A key as the decoder keeps it, in 32 bits. -/
def keyOf (item : Bytes) : Option UInt32 := (uintOf item).map UInt32.ofNat

/-- One field of the header. -/
def headerField (f : Fields) (field : Bytes × Bytes) : Except Stop Fields :=
  match keyOf field.1, uintOf field.2 with
  | some key, some value =>
      if key = HeaderKey.sync.id then (f.withSync (UInt64.ofNat value)).mark key
      else if key = HeaderKey.code.id then (f.withCode (UInt64.ofNat value)).mark key
      else if key = HeaderKey.schemaId.id then (f.withSchemaId (UInt64.ofNat value)).mark key
      else .error .fail
  | _, _ => .error .fail

/-- One turn of the body loop, on the items of the body. Only `ERROR` and `DATA` take the item
behind their key with them; behind every other key the next item is taken for a key. -/
def bodyItem (s : Fields × List Bytes) : Except Stop (Fields × List Bytes) :=
  match s.2 with
  | [] => .error .fail
  | item :: rest =>
      match keyOf item with
      | none => .error (.fault .wrongType)
      | some key =>
          if key = ResponseKey.error.id then
            match rest with
            | [] => .error .fail
            | value :: rest =>
                match textOf value with
                | none => .error .fail
                | some text => ((s.1.withError text).mark key).map fun f => (f, rest)
          else if key = ResponseKey.data.id then
            match rest with
            | [] => .error .fail
            | value :: rest =>
                if kindOf value = some .array then
                  ((s.1.withData value).mark key).map fun f => (f, rest)
                else .error .fail
          else (s.1.mark key).map fun f => (f, rest)

/-- The fields of a body with the given pairs. -/
def readBody (f : Fields) (body : List (Bytes × Bytes)) : Except Stop Fields :=
  (loop bodyItem body.length (f, unpair body)).map Prod.fst

/-- The fields of a payload. -/
def readPayload (buf : Bytes) : Except Stop Fields :=
  match mapOf buf with
  | none => .error .fail
  | some (header, rest) => do
      let f ← header.foldlM headerField {}
      match mapOf rest with
      | none => throw .fail
      | some (body, _) => readBody f body

theorem ofNat_toUInt32 (n : Nat) : (UInt64.ofNat n).toUInt32 = UInt32.ofNat n := by
  apply UInt32.toNat_inj.mp
  rw [UInt64.toNat_toUInt32, UInt64.toNat_ofNat', UInt32.toNat_ofNat']
  omega

theorem keyOf_of_uintOf {item : Bytes} {n : Nat} (h : uintOf item = some n) :
    keyOf item = some (UInt64.ofNat n).toUInt32 := by
  rw [keyOf, h, ofNat_toUInt32]
  rfl

/-- The decoder holds `buf` and has found the fields `f` in it. A pointer to the start of a text
is set together with the one to its end. -/
structure Reading (buf : Bytes) (r : Reply) (f : Fields) : Prop where
  buf_eq : r.buf = some buf
  fields_eq : r.fields = f
  error_paired : r.error.isSome = r.errorEnd.isSome
  data_paired : r.data.isSome = r.dataEnd.isSome

theorem Reading.mark {buf : Bytes} {r : Reply} {f : Fields} (h : Reading buf r f)
    (key : UInt32) : Matches (Reading buf) (r.mark key) (f.mark key) := by
  obtain ⟨hbuf, rfl, herror, hdata⟩ := h
  unfold Reply.mark Fields.mark
  split
  · exact ⟨hbuf, rfl, herror, hdata⟩
  · rfl

theorem Reading.withError {buf before text rest : Bytes} {r : Reply} {f : Fields}
    (h : Reading buf r f) (hbuf : buf = before ++ (text ++ rest)) :
    Reading buf
      { r with
        error := some before.length
        errorEnd := some (before.length + text.length)
        code := r.code &&& ((1 : UInt64) <<< 15 - 1) } (f.withError text) := by
  obtain ⟨hr, rfl, -, hdata⟩ := h
  refine ⟨hr, ?_, rfl, hdata⟩
  simp [Reply.fields, Fields.withError, Reply.errorText, Reply.dataBytes, slice, hr, hbuf]

theorem Reading.withData {buf before value rest : Bytes} {r : Reply} {f : Fields}
    (h : Reading buf r f) (hbuf : buf = before ++ (value ++ rest)) :
    Reading buf
      { r with
        data := some before.length
        dataEnd := some (before.length + value.length) } (f.withData value) := by
  obtain ⟨hr, rfl, herror, -⟩ := h
  refine ⟨hr, ?_, herror, rfl⟩
  simp [Reply.fields, Fields.withData, Reply.errorText, Reply.dataBytes, slice, hr, hbuf]

section Decoding

variable {mp : Msgpuck} (hmp : mp.Lawful)

include hmp

theorem expect_eq {kind : Kind} {p rest : Bytes} {hd : Head} (h : head p = some (hd, rest))
    (hkind : hd.kind = kind) : expect mp kind p = .ok () := by
  simp [expect, Msgpuck.typeofAt_eq hmp h, hkind]

theorem expect_wrongType {kind : Kind} {p rest : Bytes} {hd : Head}
    (h : head p = some (hd, rest)) (hkind : hd.kind ≠ kind) :
    expect mp kind p = .error .fail := by
  simp [expect, Msgpuck.typeofAt_eq hmp h, hkind]

theorem number_at {id : Bytes} {n : Nat} (h : uintOf id = some n) (rest : Bytes) :
    expect mp .uint (id ++ rest) = .ok () ∧
      mp.decodeUint (id ++ rest) = .ok (UInt64.ofNat n, rest) := by
  have hhead := head_append (head_of_uintOf h) rest
  exact ⟨expect_eq hmp hhead rfl, Msgpuck.decodeUint_eq hmp hhead⟩

theorem array_at {row : Bytes} {fields : List Bytes} (h : arrayOf row = some (fields, []))
    (rest : Bytes) : expect mp .array (row ++ rest) = .ok () ∧
      mp.decodeArray (row ++ rest) = .ok (UInt32.ofNat fields.length, fields.flatten ++ rest) := by
  have hhead := head_append (arrayOf_eq_some h).1 rest
  rw [List.append_nil] at hhead
  exact ⟨expect_eq hmp hhead rfl, Msgpuck.decodeArray_eq hmp hhead⟩

theorem headerPair_matches {buf key value : Bytes} {r : Reply} {f : Fields}
    (hr : Reading buf r f) (hkey : IsValue key) (hvalue : IsValue value) (tail : Bytes) :
    Matches (fun s t => Reading buf s.1 t ∧ s.2 = tail)
      (headerPair mp (r, key ++ (value ++ tail))) (headerField f (key, value)) := by
  rcases hkey.uint_or with ⟨n, -, huint⟩ | ⟨hd, rest, hhead, hkind, huint⟩
  · obtain ⟨hkexpect, hkdecode⟩ := number_at hmp huint (value ++ tail)
    rcases hvalue.uint_or with ⟨m, -, hvuint⟩ | ⟨hd, rest, hvhead, hvkind, hvuint⟩
    · obtain ⟨hvexpect, hvdecode⟩ := number_at hmp hvuint tail
      have hmark : ∀ (r' : Reply) (f' : Fields), Reading buf r' f' →
          Matches (fun s t => Reading buf s.1 t ∧ s.2 = tail)
            (r'.mark (UInt64.ofNat n).toUInt32 >>= fun r' => Except.ok (r', tail))
            (f'.mark (UInt64.ofNat n).toUInt32) := by
        intro r' f' h
        rw [← bind_pure (f'.mark _)]
        exact (h.mark _).bind fun _ _ h => ⟨h, rfl⟩
      obtain ⟨hbuf, rfl, herror, hdata⟩ := hr
      simp only [headerPair, headerField, hkexpect, ok_bind, hkdecode, hvexpect, hvdecode,
        throw_eq, pure_eq, keyOf_of_uintOf huint, hvuint]
      split
      · exact hmark _ _ ⟨hbuf, rfl, herror, hdata⟩
      split
      · exact hmark _ _ ⟨hbuf, rfl, herror, hdata⟩
      split
      · exact hmark _ _ ⟨hbuf, rfl, herror, hdata⟩
      · rfl
    · have hvhead := head_append hvhead tail
      simp only [headerPair, headerField, hkexpect, ok_bind, hkdecode,
        expect_wrongType hmp hvhead hvkind, error_bind, keyOf_of_uintOf huint, hvuint]
      rfl
  · have hkhead := head_append hhead (value ++ tail)
    simp only [headerPair, headerField, expect_wrongType hmp hkhead hkind, error_bind, keyOf,
      huint, Option.map_none]
    rfl

theorem headerLoop_matches {buf : Bytes} {pairs : List (Bytes × Bytes)}
    (hpairs : ∀ x ∈ unpair pairs, IsValue x) {r : Reply} {f : Fields} (hr : Reading buf r f)
    (tail : Bytes) :
    Matches (fun s t => Reading buf s.1 t ∧ s.2 = tail)
      (loop (headerPair mp) pairs.length (r, (unpair pairs).flatten ++ tail))
      (pairs.foldlM headerField f) := by
  induction pairs generalizing r f with
  | nil => exact ⟨hr, rfl⟩
  | cons pair pairs ih =>
      obtain ⟨key, value⟩ := pair
      simp only [unpair, List.flatMap_cons, List.cons_append, List.nil_append,
        List.mem_cons, forall_eq_or_imp] at hpairs
      obtain ⟨hkey, hvalue, hrest⟩ := hpairs
      simp only [unpair, List.flatMap_cons, List.flatten_cons, List.cons_append,
        List.nil_append, List.append_assoc, List.length_cons, loop_succ, List.foldlM_cons]
      refine (headerPair_matches hmp hr hkey hvalue _).bind ?_
      rintro ⟨r', p⟩ f' ⟨hr', rfl⟩
      exact ih hrest hr'

/-- Where the body loop stands: in front of items, at least two for each turn still to take. -/
def BodyReading (buf tail : Bytes) (left : Nat) (s : Reply × Bytes)
    (t : Fields × List Bytes) : Prop :=
  Reading buf s.1 t.1 ∧ (∃ before, buf = before ++ s.2) ∧ s.2 = t.2.flatten ++ tail ∧
    (∀ x ∈ t.2, IsValue x) ∧ 2 * left ≤ t.2.length

theorem errorValue_matches {buf before value tail : Bytes} {rest : List Bytes} {left : Nat}
    {key : UInt32} {r : Reply} {f : Fields} (hr : Reading buf r f)
    (hbuf : buf = before ++ (value ++ (rest.flatten ++ tail))) (hvalue : IsValue value)
    (hrest : ∀ x ∈ rest, IsValue x) (hleft : 2 * left ≤ rest.length) :
    Matches (BodyReading buf tail left)
      (do
        expect mp .str (value ++ (rest.flatten ++ tail))
        let (elen, p) ← mp.decodeStr (value ++ (rest.flatten ++ tail))
        let start := buf.length - p.length
        let p' ← Msgpuck.advance p elen.toNat
        let r ← Reply.mark { r with
          error := some start
          errorEnd := some (start + elen.toNat)
          code := r.code &&& ((1 : UInt64) <<< 15 - 1) } key
        pure (r, p'))
      (match textOf value with
        | none => .error .fail
        | some text => ((f.withError text).mark key).map fun f => (f, rest)) := by
  rcases hvalue.text_or with ⟨text, hhead, htext⟩ | ⟨hd, after, hhead, hkind, htext⟩
  · obtain ⟨used, rfl, -, -⟩ := head_suffix hhead
    have hlength : text.length < 2 ^ 32 := fits_of_head hhead
    have helen : (UInt32.ofNat text.length).toNat = text.length :=
      UInt32.toNat_ofNat_of_lt' hlength
    have hvhead := head_append hhead (rest.flatten ++ tail)
    have hexpect : expect mp .str (used ++ text ++ (rest.flatten ++ tail)) = .ok () :=
      expect_eq hmp hvhead rfl
    have hbuf' : buf = (before ++ used) ++ (text ++ (rest.flatten ++ tail)) := by
      rw [hbuf, List.append_assoc, List.append_assoc]
    have hstart : buf.length - (text ++ (rest.flatten ++ tail)).length =
        (before ++ used).length := by
      rw [hbuf', List.length_append, Nat.add_sub_cancel]
    simp only [hexpect, ok_bind, Msgpuck.decodeStr_eq hmp hvhead, htext, helen, hstart,
      Msgpuck.advance_append, pure_eq]
    exact ((hr.withError hbuf').mark key).map fun r' f' h =>
      ⟨h, ⟨before ++ used ++ text, by simp [hbuf']⟩, rfl, hrest, hleft⟩
  · have hvhead := head_append hhead (rest.flatten ++ tail)
    simp only [expect_wrongType hmp hvhead hkind, error_bind, htext]
    rfl

theorem dataValue_matches {buf before value tail : Bytes} {rest : List Bytes} {left : Nat}
    {key : UInt32} {r : Reply} {f : Fields} (hr : Reading buf r f)
    (hbuf : buf = before ++ (value ++ (rest.flatten ++ tail))) (hvalue : IsValue value)
    (hrest : ∀ x ∈ rest, IsValue x) (hleft : 2 * left ≤ rest.length) :
    Matches (BodyReading buf tail left)
      (do
        expect mp .array (value ++ (rest.flatten ++ tail))
        let p' ← mp.nextValue (value ++ (rest.flatten ++ tail))
        let r ← Reply.mark { r with
          data := some (buf.length - (value ++ (rest.flatten ++ tail)).length)
          dataEnd := some (buf.length - p'.length) } key
        pure (r, p'))
      (if kindOf value = some .array then
        ((f.withData value).mark key).map fun f => (f, rest)
      else .error .fail) := by
  obtain ⟨hd, after, hhead, -, -⟩ := hvalue.head
  have hvhead := head_append hhead (rest.flatten ++ tail)
  have hkind : kindOf value = some hd.kind := by simp [kindOf, hhead]
  by_cases harray : hd.kind = .array
  · have hstart : buf.length - (value ++ (rest.flatten ++ tail)).length = before.length := by
      rw [hbuf, List.length_append, Nat.add_sub_cancel]
    have hstop : buf.length - (rest.flatten ++ tail).length = before.length + value.length := by
      rw [hbuf, ← List.append_assoc, List.length_append, List.length_append, Nat.add_sub_cancel]
    simp only [expect_eq hmp hvhead harray, ok_bind, Msgpuck.nextValue_append hmp hvalue,
      hstart, hstop, hkind, harray, ite_true, pure_eq]
    exact ((hr.withData hbuf).mark key).map fun r' f' h =>
      ⟨h, ⟨before ++ value, by simp [hbuf]⟩, rfl, hrest, hleft⟩
  · simp only [expect_wrongType hmp hvhead harray, error_bind, hkind, Option.some.injEq,
      harray, ite_false]
    rfl

theorem bodyPair_matches {buf tail : Bytes} (left : Nat) (s : Reply × Bytes)
    (t : Fields × List Bytes) (h : BodyReading buf tail (left + 1) s t) :
    Matches (BodyReading buf tail left) (bodyPair mp buf.length s) (bodyItem t) := by
  obtain ⟨r, p⟩ := s
  obtain ⟨f, items⟩ := t
  obtain ⟨hr, ⟨before, hbuf⟩, hp, hitems, hleft⟩ := h
  simp only at hr hbuf hp hitems hleft
  match items with
  | [] => simp at hleft
  | [_] => simp at hleft; omega
  | key :: value :: rest =>
      simp only [List.flatten_cons, List.append_assoc, List.length_cons, List.mem_cons,
        forall_eq_or_imp] at hp hitems hleft
      obtain ⟨hkey, hvalue, hrest⟩ := hitems
      subst hp
      rcases hkey.uint_or with ⟨n, hhead, huint⟩ | ⟨hd, after, hhead, hkind, huint⟩
      · have hkhead := head_append hhead (value ++ (rest.flatten ++ tail))
        rw [List.nil_append] at hkhead
        have hsplit : buf = (before ++ key) ++ (value ++ (rest.flatten ++ tail)) := by
          rw [hbuf, List.append_assoc]
        simp only [bodyPair, bodyItem, Msgpuck.decodeUint_eq hmp hkhead, ok_bind,
          keyOf_of_uintOf huint]
        split
        · exact errorValue_matches hmp hr hsplit hvalue hrest (by omega)
        split
        · exact dataValue_matches hmp hr hsplit hvalue hrest (by omega)
        · exact (hr.mark _).map fun r' f' h =>
            ⟨h, ⟨before ++ key, hsplit⟩, by simp, by simpa using ⟨hvalue, hrest⟩, by simp; omega⟩
      · have hkhead := head_append hhead (value ++ (rest.flatten ++ tail))
        simp only [bodyPair, bodyItem, Msgpuck.decodeUint,
          Msgpuck.decodeAs_wrongType hmp hkhead hkind, error_bind, keyOf, huint, Option.map_none]
        rfl

theorem openMap_eq_error {p : Bytes} (h : mapOf p = none) : openMap mp p = .error .fail := by
  cases hnext : next p with
  | none => simp [openMap, hmp.check_eq, hnext]
  | some found =>
      obtain ⟨value, rest⟩ := found
      rcases mapOf_of_next hnext with ⟨ps, after, -, hmap, -⟩ | ⟨hd, after, hhead, hkind, -⟩
      · rw [h] at hmap
        cases hmap
      · simp [openMap, hmp.check_eq, hnext, expect_wrongType hmp hhead hkind]

theorem openMap_eq_ok {p rest : Bytes} {ps : List (Bytes × Bytes)}
    (h : mapOf p = some (ps, rest)) :
    ∃ n used, openMap mp p = .ok (n, (unpair ps).flatten ++ rest) ∧ n.toNat = ps.length ∧
      p = used ++ ((unpair ps).flatten ++ rest) ∧ ∀ x ∈ unpair ps, IsValue x := by
  obtain ⟨value, hnext⟩ := next_of_mapOf h
  rcases mapOf_of_next hnext with
    ⟨ps', after, hhead, hmap, hafter, hvalues⟩ | ⟨hd, after, -, -, hmap⟩
  · rw [h, Option.some.injEq, Prod.mk.injEq] at hmap
    obtain ⟨rfl, -⟩ := hmap
    have hcount : ps.length < 2 ^ 32 := fits_of_head hhead
    have hexpect : expect mp .map p = .ok () := expect_eq hmp hhead rfl
    obtain ⟨used, hsplit, -, -⟩ := head_suffix hhead
    refine ⟨UInt32.ofNat ps.length, used, ?_, UInt32.toNat_ofNat_of_lt' hcount,
      by rw [hsplit, hafter], hvalues⟩
    simp [openMap, hmp.check_eq, hnext, hexpect, Msgpuck.decodeMap_eq hmp hhead, hafter]
  · rw [h] at hmap
    cases hmap

theorem decodePayload_matches {buf : Bytes} {r : Reply} (hr : Reading buf r {}) :
    Matches (fun out f => out.1 = 0 ∧ Reading buf out.2 f) (decodePayload mp r buf)
      (readPayload buf) := by
  cases hheader : mapOf buf with
  | none =>
      simp only [decodePayload, readPayload, openMap_eq_error hmp hheader, hheader, error_bind]
      rfl
  | some found =>
      obtain ⟨header, rest⟩ := found
      obtain ⟨n, used, hopen, hn, hsplit, hvalues⟩ := openMap_eq_ok hmp hheader
      simp only [decodePayload, readPayload, hopen, hheader, ok_bind, hn]
      refine (headerLoop_matches hmp hvalues hr rest).bind ?_
      rintro ⟨r', p⟩ f' ⟨hr', rfl⟩
      have hnot : ¬ buf.length - p.length = buf.length + 5 := by omega
      simp only [hnot, ite_false]
      cases hbody : mapOf p with
      | none =>
          simp only [openMap_eq_error hmp hbody]
          rfl
      | some found =>
          obtain ⟨body, tail⟩ := found
          obtain ⟨m, used', hopen', hm, hsplit', hvalues'⟩ := openMap_eq_ok hmp hbody
          simp only [hopen', ok_bind, hm, readBody, pure_eq]
          have hbefore : buf = (used ++ ((unpair header).flatten ++ used')) ++
              ((unpair body).flatten ++ tail) := by
            rw [hsplit, hsplit']
            simp only [List.append_assoc]
          have hstart : BodyReading buf tail body.length (r', (unpair body).flatten ++ tail)
              (f', unpair body) :=
            ⟨hr', ⟨_, hbefore⟩, rfl, hvalues', by simp⟩
          exact (loop_matches _ (bodyPair_matches hmp) _ hstart).map fun _ _ h => ⟨rfl, h.1⟩

/-- A callback that hands over one frame when it is asked for its two parts. -/
def Delivers {σ : Type} (rcv : Nat → σ → Option Bytes × σ) (ptr : σ) (payload : Bytes)
    (ptr' : σ) : Prop :=
  ∃ between, rcv 5 ptr = (some (0xce :: store 4 payload.length), between) ∧
    rcv payload.length between = (some payload, ptr')

/-- A frame: the length of the payload in five bytes, and the payload. -/
def frame (payload : Bytes) : Bytes := 0xce :: store 4 payload.length ++ payload

omit hmp in
theorem length_frame (payload : Bytes) : (frame payload).length = payload.length + 5 := by
  simp [frame]
  omega

omit hmp in
theorem delivers_beerReplyCb (payload rest : Bytes) :
    Delivers beerReplyCb (frame payload ++ rest) payload rest := by
  have hfront : (0xce :: store 4 payload.length).length = 5 := by simp
  refine ⟨payload ++ rest, ?_, by simp [beerReplyCb]⟩
  rw [frame, List.append_assoc, beerReplyCb, List.take_left' hfront, List.drop_left' hfront]

/-- The reply before its payload is decoded. -/
def Reply.loaded (alloc : Bool) (payload : Bytes) : Reply :=
  { Reply.init alloc with buf := some payload, bufSize := payload.length }

omit hmp in
theorem reading_loaded (alloc : Bool) (payload : Bytes) :
    Reading payload (Reply.loaded alloc payload) {} :=
  ⟨rfl, rfl, rfl, rfl⟩

variable {σ : Type} {rcv : Nat → σ → Option Bytes × σ} {ptr ptr' : σ} {payload : Bytes}

theorem decodeLength_front {length : Nat} (h : length < 2 ^ 32) :
    decodeLength mp (0xce :: store 4 length) = .ok length := by
  have hhead : head (0xce :: store 4 length) = some (.uint length, []) :=
    head_store .uint rfl (by omega)
  have hexpect : expect mp .uint (0xce :: store 4 length) = .ok () := expect_eq hmp hhead rfl
  have hsize : (UInt64.ofNat length).toNat = length :=
    UInt64.toNat_ofNat_of_lt' (lt_trans h (by decide))
  simp only [decodeLength, hexpect, Msgpuck.decodeUint_eq hmp hhead, ok_bind, hsize, pure_eq]

theorem beerReplyFrom_delivers (h : Delivers rcv ptr payload ptr') (hpos : 0 < payload.length)
    (hlength : payload.length < 2 ^ 32) (r : Reply) :
    beerReplyFrom mp rcv r ptr =
      (Reply.finish r.alloc (decodePayload mp (Reply.loaded r.alloc payload) payload), ptr') := by
  obtain ⟨between, hfront, hpayload⟩ := h
  have hdecode := decodeLength_front hmp hlength
  have hnonzero : payload.length ≠ 0 := by omega
  simp only [beerReplyFrom, hfront, hdecode, hnonzero, ite_false, hpayload]
  rfl

theorem beerReplyFrom_empty (h : Delivers rcv ptr [] ptr') (r : Reply) :
    (beerReplyFrom mp rcv r ptr).1 = .ok (-1, Reply.init r.alloc) := by
  obtain ⟨between, hfront, -⟩ := h
  have hdecode := @decodeLength_front mp hmp 0 (by decide)
  rw [List.length_nil] at hfront
  simp only [beerReplyFrom, hfront, hdecode]
  rfl

theorem beerReplyFrom_ok (h : Delivers rcv ptr payload ptr') (hpos : 0 < payload.length)
    (hlength : payload.length < 2 ^ 32) (r : Reply) {f : Fields}
    (hread : readPayload payload = .ok f) :
    ∃ r', beerReplyFrom mp rcv r ptr = (.ok (0, r'), ptr') ∧ Reading payload r' f := by
  have hmatch := decodePayload_matches hmp (reading_loaded r.alloc payload)
  rw [beerReplyFrom_delivers hmp h hpos hlength, hread] at *
  cases hdecode : decodePayload mp (Reply.loaded r.alloc payload) payload with
  | error stop => simp [hdecode, Matches] at hmatch
  | ok out =>
      obtain ⟨rc, r'⟩ := out
      rw [hdecode] at hmatch
      obtain ⟨rfl, hreading⟩ := hmatch
      exact ⟨r', rfl, hreading⟩

theorem beerReplyFrom_error (h : Delivers rcv ptr payload ptr') (hpos : 0 < payload.length)
    (hlength : payload.length < 2 ^ 32) (r : Reply) {stop : Stop}
    (hread : readPayload payload = .error stop) :
    beerReplyFrom mp rcv r ptr = (Reply.finish r.alloc (.error stop), ptr') := by
  have hmatch := decodePayload_matches hmp (reading_loaded r.alloc payload)
  rw [beerReplyFrom_delivers hmp h hpos hlength]
  rw [hread] at hmatch
  cases hdecode : decodePayload mp (Reply.loaded r.alloc payload) payload with
  | error stop' =>
      rw [hdecode] at hmatch
      rw [show stop' = stop from hmatch]
  | ok out => simp [hdecode, Matches] at hmatch

end Decoding

variable {mp : Msgpuck}

/-- The bytes of a run of frames. -/
def frames (payloads : List Bytes) : Bytes := (payloads.map frame).flatten

/-- A frame that decodes, taken by itself. -/
structure Decodes (mp : Msgpuck) (payload : Bytes) : Prop where
  length_lt : payload.length < 2 ^ 32
  decode_eq : ∃ r reply, (beerReplyFrom mp beerReplyCb r (frame payload)).1 = .ok (0, reply)

namespace Decodes

theorem length_pos {payload : Bytes} (hmp : mp.Lawful) (h : Decodes mp payload) :
    0 < payload.length := by
  obtain ⟨-, r, reply, hdecode⟩ := h
  refine List.length_pos_of_ne_nil fun hnil => ?_
  subst hnil
  have halone : Delivers beerReplyCb (frame []) [] [] := by
    simpa using delivers_beerReplyCb [] []
  rw [beerReplyFrom_empty hmp halone] at hdecode
  cases hdecode

theorem delivers {σ : Type} {rcv : Nat → σ → Option Bytes × σ} {ptr ptr' : σ} {payload : Bytes}
    (hmp : mp.Lawful) (h : Decodes mp payload) (hdelivers : Delivers rcv ptr payload ptr')
    (r : Reply) :
    ∃ reply, beerReplyFrom mp rcv r ptr = (.ok (0, reply), ptr') ∧
      (beerReplyFrom mp beerReplyCb r (frame payload)).1 = .ok (0, reply) ∧
      reply.buf = some payload := by
  have hpos := h.length_pos hmp
  obtain ⟨hlength, r₀, reply₀, hdecode⟩ := h
  have halone : Delivers beerReplyCb (frame payload) payload [] := by
    simpa using delivers_beerReplyCb payload []
  cases hread : readPayload payload with
  | error stop =>
      rw [beerReplyFrom_error hmp halone hpos hlength r₀ hread] at hdecode
      cases stop <;> cases hdecode
  | ok f =>
      obtain ⟨reply, hreply, hreading⟩ := beerReplyFrom_ok hmp hdelivers hpos hlength r hread
      refine ⟨reply, hreply, ?_, hreading.buf_eq⟩
      rw [beerReplyFrom_delivers hmp hdelivers hpos hlength] at hreply
      rw [beerReplyFrom_delivers hmp halone hpos hlength]
      exact congrArg Prod.fst hreply

end Decodes

/-- The reply is what the frame of the payload gives by itself. -/
def IsReplyOf (mp : Msgpuck) (r : Reply) (payload : Bytes) (reply : Reply) : Prop :=
  (beerReplyFrom mp beerReplyCb r (frame payload)).1 = .ok (0, reply) ∧ reply.buf = some payload

theorem decodePayload_result {mp : Msgpuck} {r : Reply} {buf : Bytes} {out : Int × Reply}
    (h : decodePayload mp r buf = .ok out) : out.1 = 0 := by
  obtain ⟨⟨n, p⟩, -, h⟩ := bind_eq_ok.mp h
  obtain ⟨⟨r', p'⟩, -, h⟩ := bind_eq_ok.mp h
  have hend : ¬buf.length - p'.length = buf.length + 5 := by omega
  simp only [if_neg hend] at h
  obtain ⟨⟨m, p''⟩, -, h⟩ := bind_eq_ok.mp h
  obtain ⟨⟨r'', rest⟩, -, h⟩ := bind_eq_ok.mp h
  cases h
  rfl

theorem finish_result {alloc : Bool} {out : Except Stop (Int × Reply)} {result : Int × Reply}
    (h : Reply.finish alloc out = .ok result)
    (hout : ∀ {result}, out = .ok result → result.1 = 0) : result.1 = 0 ∨ result.1 = -1 := by
  rcases out with (_ | _) | read
  · cases h
    exact .inr rfl
  · cases h
  · cases h
    exact .inl (hout rfl)

theorem beerReplyFrom_result {mp : Msgpuck} {σ : Type} {rcv : Nat → σ → Option Bytes × σ}
    {r : Reply} {ptr : σ} {result : Int × Reply} (h : (beerReplyFrom mp rcv r ptr).1 = .ok result) :
    result.1 = 0 ∨ result.1 = -1 := by
  have hfail : ∀ stop, Reply.finish r.alloc (.error stop) = .ok result →
      result.1 = 0 ∨ result.1 = -1 := fun _ h => finish_result h fun h => by cases h
  unfold beerReplyFrom at h
  dsimp only at h
  split at h
  · exact hfail .fail h
  · split at h
    · rename_i stop _
      exact hfail stop h
    · split at h
      · exact hfail .fail h
      · split at h
        · exact hfail .fail h
        · exact finish_result h decodePayload_result

end BeeC
