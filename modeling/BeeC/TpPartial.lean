import BeeC.Wire.Stream
import BeeC.TpReply

namespace BeeC

open BeeC.Wire.BigEndian
open BeeC.Wire.Encoding
open BeeC.Wire.Loop
open BeeC.Wire.MessagePack
open BeeC.Wire.Stream

/-- A map as it stands in a frame: its own header, and its keys and values. -/
structure FrameMap where
  hdr : Bytes
  pairs : List (Bytes × Bytes)
  head_eq : head hdr = some (.map pairs.length, [])
  values : ∀ x ∈ unpair pairs, IsValue x

def FrameMap.bytes (m : FrameMap) : Bytes := m.hdr ++ (unpair m.pairs).flatten

/-- A field of the header of a response: a number under a number. -/
def HeaderTyped (pair : Bytes × Bytes) : Prop :=
  (uintOf pair.1).isSome ∧ (uintOf pair.2).isSome

instance (pair : Bytes × Bytes) : Decidable (HeaderTyped pair) :=
  inferInstanceAs (Decidable (_ ∧ _))

/-- A field of the body: an error is a text, and data is an array. -/
def BodyTyped (pair : Bytes × Bytes) : Prop :=
  ∃ key, keyOf pair.1 = some key ∧
    (key = TpResponseKey.error.id → (textOf pair.2).isSome) ∧
    (key = TpResponseKey.data.id → kindOf pair.2 = some .array)

/-- A response: a length, a header and, where there is one, a body. -/
structure TpFrame where
  header : FrameMap
  body : Option FrameMap := none
  header_typed : ∀ pair ∈ header.pairs, HeaderTyped pair
  body_typed : ∀ m ∈ body, ∀ pair ∈ m.pairs, BodyTyped pair
  fits : (header.bytes ++ (body.map FrameMap.bytes).getD []).length < 2 ^ 32

namespace TpFrame

def payload (f : TpFrame) : Bytes := f.header.bytes ++ (f.body.map FrameMap.bytes).getD []

def bytes (f : TpFrame) : Bytes := frame f.payload

/-- A key that a bit of the bitmap stands for. -/
def KeyFits (pair : Bytes × Bytes) : Prop := ∀ key ∈ keyOf pair.1, key < 64

/-- The bits of all fields fit in the bitmap. -/
def KeysFit (f : TpFrame) : Prop :=
  (∀ pair ∈ f.header.pairs, KeyFits pair) ∧ ∀ m ∈ f.body, ∀ pair ∈ m.pairs, KeyFits pair

end TpFrame

namespace FrameMap

variable (m : FrameMap)

theorem mapOf_append (tail : Bytes) : mapOf (m.bytes ++ tail) = some (m.pairs, tail) := by
  rw [bytes, List.append_assoc]
  exact Wire.MessagePack.mapOf_append m.head_eq m.values tail

theorem isValue : IsValue m.bytes := by
  obtain ⟨value, hnext⟩ := next_of_mapOf (m.mapOf_append [])
  obtain ⟨hbytes, hvalue⟩ := next_eq_some hnext
  rw [List.append_nil, List.append_nil] at hbytes
  rw [hbytes]
  exact hvalue

theorem flatMap_pairs :
    m.pairs.flatMap (fun pair => pair.1 ++ pair.2) = (unpair m.pairs).flatten := by
  induction m.pairs with
  | nil => rfl
  | cons pair pairs ih => simp [ih]

theorem isValue_snd {pair : Bytes × Bytes} (h : pair ∈ m.pairs) : IsValue pair.2 :=
  m.values _ (List.mem_flatMap.mpr ⟨pair, h, by simp⟩)

end FrameMap

/-- The data that has been found stands among the bytes that have been read. -/
def DataIn (r : TpResponse) (done : Bytes) : Prop :=
  ∀ start, r.data = some start → ∃ front array back, done = front ++ (array ++ back) ∧
    start = front.length ∧ r.dataEnd = some (start + array.length) ∧ IsValue array ∧
    kindOf array = some .array

theorem dataIn_init (done : Bytes) : DataIn {} done := fun _ h => by cases h

theorem DataIn.append {r r' : TpResponse} {done : Bytes} (h : DataIn r done)
    (hdata : r'.data = r.data) (hend : r'.dataEnd = r.dataEnd) (more : Bytes) :
    DataIn r' (done ++ more) := by
  intro start hstart
  obtain ⟨front, array, back, rfl, hfront, hstop, hvalue, hkind⟩ := h start (hdata ▸ hstart)
  refine ⟨front, array, back ++ more, ?_, hfront, hend.trans hstop, hvalue, hkind⟩
  simp only [List.append_assoc]

/-- A field of the header, but for the bit of its key. -/
def TpResponse.putHeader (r : TpResponse) (key : UInt32) (value : UInt64) : TpResponse :=
  if key.toUInt64 = TpHeaderKey.sync.id then { r with sync := value }
  else if key.toUInt64 = TpHeaderKey.code.id then { r with code := value.toUInt32 }
  else r

theorem TpResponse.putHeader_data (r : TpResponse) (key : UInt32) (value : UInt64) :
    (r.putHeader key value).data = r.data ∧ (r.putHeader key value).dataEnd = r.dataEnd := by
  unfold putHeader
  split
  · exact ⟨rfl, rfl⟩
  · split <;> exact ⟨rfl, rfl⟩

theorem consumes_of_mark {step : Nat → TpResponse × Bytes → Except Stop (TpResponse × Bytes)}
    {done item : Bytes} {r r' : TpResponse} {key : UInt32}
    (h : ∀ tail, step (done ++ (item ++ tail)).length (r, item ++ tail) =
      r'.mark key >>= fun r => .ok (r, tail)) :
    (key < 64 → Consumes step done item r (r'.setBit key)) ∧
      (¬key < 64 → Refuses step done item r) := by
  constructor
  · intro hkey tail
    rw [h, TpResponse.mark_eq hkey, ok_bind]
  · intro hkey tail
    exact ⟨.fault .shiftTooFar, by rw [h, TpResponse.mark, if_neg hkey, error_bind]⟩

/-- A turn takes a pair whose key fits, and stops at it otherwise. -/
def TakesFitting (step : Nat → TpResponse × Bytes → Except Stop (TpResponse × Bytes))
    (pair : Bytes × Bytes) : Prop :=
  ∀ r done, DataIn r done →
    (TpFrame.KeyFits pair → ∃ r', Consumes step done (pair.1 ++ pair.2) r r' ∧
      DataIn r' (done ++ (pair.1 ++ pair.2))) ∧
    (¬TpFrame.KeyFits pair → Refuses step done (pair.1 ++ pair.2) r)

theorem frameMap_loop {step : Nat → TpResponse × Bytes → Except Stop (TpResponse × Bytes)}
    (m : FrameMap) (hturn : ∀ pair ∈ m.pairs, TakesFitting step pair) {r : TpResponse}
    {done : Bytes} (hr : DataIn r done) :
    ((∀ pair ∈ m.pairs, TpFrame.KeyFits pair) →
        ∃ r', Consumes (fun size => loop (step size) m.pairs.length) done
            (unpair m.pairs).flatten r r' ∧
          DataIn r' (done ++ (unpair m.pairs).flatten)) ∧
      (¬(∀ pair ∈ m.pairs, TpFrame.KeyFits pair) →
        Refuses (fun size => loop (step size) m.pairs.length) done (unpair m.pairs).flatten r) := by
  rw [← m.flatMap_pairs]
  constructor
  · intro hfits
    refine loop_consumes ?_ hr
    intro pair hpair r done h
    exact (hturn pair hpair r done h).1 (hfits pair hpair)
  · intro hbad
    refine loop_refuses ?_ ?_ hbad hr
    · intro pair hpair hfits r done h
      exact (hturn pair hpair r done h).1 hfits
    · intro pair hpair hfits r done h
      exact (hturn pair hpair r done h).2 hfits

section Decoding

variable {mp : Msgpuck} (hmp : mp.Lawful)

include hmp

theorem tpHeaderPair_typed {pair : Bytes × Bytes} {key value : Nat}
    (hkey : uintOf pair.1 = some key) (hvalue : uintOf pair.2 = some value) (r : TpResponse)
    (tail : Bytes) :
    tpHeaderPair mp (r, (pair.1 ++ pair.2) ++ tail) =
      (r.putHeader (UInt32.ofNat key) (UInt64.ofNat value)).mark (UInt32.ofNat key) >>=
        fun r => .ok (r, tail) := by
  obtain ⟨hkexpect, hkdecode⟩ := number_at hmp hkey (pair.2 ++ tail)
  obtain ⟨hvexpect, hvdecode⟩ := number_at hmp hvalue tail
  have hnext := Msgpuck.nextValue_append hmp (isValue_of_uintOf hvalue) tail
  rw [List.append_assoc]
  simp only [tpHeaderPair, hkexpect, ok_bind, hkdecode, ofNat_toUInt32, hvexpect, hvdecode,
    hnext, TpResponse.putHeader]
  split
  · rfl
  · split <;> rfl

theorem tpBodyPair_typed {pair : Bytes × Bytes} {key : Nat} (hkey : uintOf pair.1 = some key)
    (hvalue : IsValue pair.2) (htext : UInt32.ofNat key = TpResponseKey.error.id →
      (textOf pair.2).isSome)
    (harray : UInt32.ofNat key = TpResponseKey.data.id → kindOf pair.2 = some .array)
    {r : TpResponse} {done : Bytes} (h : DataIn r done) :
    ∃ r', DataIn r' (done ++ (pair.1 ++ pair.2)) ∧
      ∀ tail, tpBodyPair mp (done ++ ((pair.1 ++ pair.2) ++ tail)).length
          (r, (pair.1 ++ pair.2) ++ tail) =
        r'.mark (UInt32.ofNat key) >>= fun r => .ok (r, tail) := by
  by_cases herror : UInt32.ofNat key = TpResponseKey.error.id
  · obtain ⟨text, htext⟩ := Option.isSome_iff_exists.mp (htext herror)
    have hhead := head_of_textOf htext
    obtain ⟨used, hused, -, -⟩ := head_suffix hhead
    refine ⟨{ r with
      error := some (done ++ pair.1 ++ used).length
      errorEnd := some ((done ++ pair.1 ++ used).length + text.length) }, h.append rfl rfl _,
      fun tail => ?_⟩
    have hkdecode := (number_at hmp hkey (pair.2 ++ tail)).2
    have hvhead := head_append hhead tail
    have hexpect : expect mp .str (pair.2 ++ tail) = .ok () := expect_eq hmp hvhead rfl
    have hlength : (UInt32.ofNat text.length).toNat = text.length :=
      UInt32.toNat_ofNat_of_lt' (fits_of_head hhead)
    have hstart : (done ++ (pair.1 ++ pair.2 ++ tail)).length - (text ++ tail).length =
        (done ++ pair.1 ++ used).length := by
      rw [hused]
      simp only [List.length_append]
      omega
    rw [List.append_assoc pair.1] at hstart ⊢
    simp only [tpBodyPair, hkdecode, ok_bind, ofNat_toUInt32, herror, ite_true, hexpect,
      Msgpuck.decodeStr_eq hmp hvhead, hlength, hstart, Msgpuck.advance_append]
    rfl
  · by_cases hdata : UInt32.ofNat key = TpResponseKey.data.id
    · have hother : TpResponseKey.data.id ≠ TpResponseKey.error.id := by decide
      refine ⟨{ r with
        data := some (done ++ pair.1).length
        dataEnd := some (done ++ (pair.1 ++ pair.2)).length }, ?_, fun tail => ?_⟩
      · intro start hstart
        cases hstart
        refine ⟨done ++ pair.1, pair.2, [], ?_, rfl, ?_, hvalue, harray hdata⟩
        · rw [List.append_nil, List.append_assoc]
        · simp only [List.length_append, Nat.add_assoc]
      · obtain ⟨hd, after, hhead, -, -⟩ := hvalue.head
        have hkind := harray hdata
        rw [kindOf, hhead, Option.map_some, Option.some.injEq] at hkind
        have hexpect : expect mp .array (pair.2 ++ tail) = .ok () :=
          expect_eq hmp (head_append hhead tail) hkind
        have hkdecode := (number_at hmp hkey (pair.2 ++ tail)).2
        have hstart : (done ++ (pair.1 ++ pair.2 ++ tail)).length - (pair.2 ++ tail).length =
            (done ++ pair.1).length := by
          simp only [List.length_append]
          omega
        have hstop : (done ++ (pair.1 ++ pair.2 ++ tail)).length - tail.length =
            (done ++ (pair.1 ++ pair.2)).length := by
          simp only [List.length_append]
          omega
        rw [List.append_assoc pair.1] at hstart hstop ⊢
        simp only [tpBodyPair, hkdecode, ok_bind, ofNat_toUInt32, hdata, hother, ite_false,
          ite_true, hexpect, Msgpuck.nextValue_append hmp hvalue, hstart, hstop]
        rfl
    · refine ⟨r, h.append rfl rfl _, fun tail => ?_⟩
      have hkdecode := (number_at hmp hkey (pair.2 ++ tail)).2
      simp only [tpBodyPair, List.append_assoc, hkdecode, ok_bind, ofNat_toUInt32, herror, hdata,
        ite_false, Msgpuck.nextValue_append hmp hvalue]
      rfl

theorem tpHeaderPair_turn {pair : Bytes × Bytes} (h : HeaderTyped pair) :
    TakesFitting (fun _ => tpHeaderPair mp) pair := by
  intro r done hr
  obtain ⟨key, hkey⟩ := Option.isSome_iff_exists.mp h.1
  obtain ⟨value, hvalue⟩ := Option.isSome_iff_exists.mp h.2
  have hfits : TpFrame.KeyFits pair ↔ UInt32.ofNat key < 64 := by
    simp [TpFrame.KeyFits, keyOf, hkey]
  obtain ⟨hconsumes, hrefuses⟩ := @consumes_of_mark (fun _ => tpHeaderPair mp) done
    (pair.1 ++ pair.2) r _ _ (tpHeaderPair_typed hmp hkey hvalue r)
  obtain ⟨hdata, hend⟩ := r.putHeader_data (UInt32.ofNat key) (UInt64.ofNat value)
  rw [hfits]
  exact ⟨fun hlt => ⟨_, hconsumes hlt, hr.append hdata hend _⟩, hrefuses⟩

theorem tpBodyPair_turn {pair : Bytes × Bytes} (h : BodyTyped pair) (hvalue : IsValue pair.2) :
    TakesFitting (tpBodyPair mp) pair := by
  intro r done hr
  obtain ⟨_, hkeyOf, htext, harray⟩ := h
  obtain ⟨key, hkey, rfl⟩ := Option.map_eq_some_iff.mp hkeyOf
  have hfits : TpFrame.KeyFits pair ↔ UInt32.ofNat key < 64 := by
    simp [TpFrame.KeyFits, hkeyOf]
  obtain ⟨r', hdata, hturn⟩ := tpBodyPair_typed hmp hkey hvalue htext harray hr
  obtain ⟨hconsumes, hrefuses⟩ := consumes_of_mark hturn
  rw [hfits]
  exact ⟨fun hlt => ⟨_, hconsumes hlt, hdata⟩, hrefuses⟩

theorem openMap_frameMap (m : FrameMap) (tail : Bytes) :
    ∃ n : UInt32, openMap mp (m.bytes ++ tail) = .ok (n, (unpair m.pairs).flatten ++ tail) ∧
      n.toNat = m.pairs.length := by
  obtain ⟨n, -, hopen, hn, -, -⟩ := openMap_eq_ok hmp (m.mapOf_append tail)
  exact ⟨n, hopen, hn⟩

theorem openMap_incomplete (m : FrameMap) {bytes missing : Bytes} (h : m.bytes = bytes ++ missing)
    (hmissing : missing ≠ []) : openMap mp bytes = .error .fail := by
  apply openMap_eq_error hmp
  cases hmap : mapOf bytes with
  | none => rfl
  | some found =>
      obtain ⟨value, hnext⟩ := next_of_mapOf hmap
      rw [next_incomplete m.isValue h hmissing] at hnext
      cases hnext

omit hmp in
theorem tpArrayItrInit_congr {buf buf' : Bytes} {start stop : Nat}
    (h : (buf.drop start).take (stop - start) = (buf'.drop start).take (stop - start)) :
    tpArrayItrInit mp buf start stop = tpArrayItrInit mp buf' start stop := by
  unfold tpArrayItrInit
  rw [h]

theorem tpArrayItrInit_dataIn {r : TpResponse} {done : Bytes} (h : DataIn r done) {start : Nat}
    (hdata : r.data = some start) :
    ∃ itr, ∀ tail, tpArrayItrInit mp (done ++ tail) start (r.dataEnd.getD 0) = .ok itr := by
  obtain ⟨front, array, back, rfl, rfl, hstop, hvalue, hkind⟩ := h start hdata
  have hslice (tail : Bytes) : ((front ++ (array ++ back) ++ tail).drop front.length).take
      (front.length + array.length - front.length) = array := by
    simp
  obtain ⟨itr, hitr⟩ := tpArrayItrInit_ok hmp (congrArg some (hslice [])) hvalue hkind
  refine ⟨itr, fun tail => ?_⟩
  rw [hstop, Option.getD_some, ← hitr]
  exact tpArrayItrInit_congr ((hslice tail).trans (hslice []).symm)

theorem tpReplyBody_frameMap (m : FrameMap) (htyped : ∀ pair ∈ m.pairs, BodyTyped pair)
    {r : TpResponse} {done : Bytes} (hr : DataIn r done) :
    ((∀ pair ∈ m.pairs, TpFrame.KeyFits pair) → ∃ r', ∀ tail,
        tpReplyBody mp (done ++ (m.bytes ++ tail)) r (m.bytes ++ tail) =
          .ok ((done ++ m.bytes).length, r')) ∧
      (¬(∀ pair ∈ m.pairs, TpFrame.KeyFits pair) → ∀ tail,
        ∃ e, tpReplyBody mp (done ++ (m.bytes ++ tail)) r (m.bytes ++ tail) = .error e) := by
  have hsplit (tail : Bytes) : done ++ (m.bytes ++ tail) =
      (done ++ m.hdr) ++ ((unpair m.pairs).flatten ++ tail) := by
    simp only [FrameMap.bytes, List.append_assoc]
  obtain ⟨hconsumes, hrefuses⟩ := frameMap_loop m
    (fun pair hpair => tpBodyPair_turn hmp (htyped pair hpair) (m.isValue_snd hpair))
    (hr.append rfl rfl m.hdr)
  constructor
  · intro hfits
    obtain ⟨r', hloop, hr'⟩ := hconsumes hfits
    have hsize (tail : Bytes) : (done ++ (m.bytes ++ tail)).length - tail.length =
        (done ++ m.bytes).length := by
      rw [← List.append_assoc, List.length_append, Nat.add_sub_cancel]
    have hread (tail : Bytes) : ∃ n : UInt32,
        openMap mp (m.bytes ++ tail) = .ok (n, (unpair m.pairs).flatten ++ tail) ∧
          loop (tpBodyPair mp (done ++ (m.bytes ++ tail)).length) n.toNat
            (r, (unpair m.pairs).flatten ++ tail) = .ok (r', tail) := by
      obtain ⟨n, hopen, hn⟩ := openMap_frameMap hmp m tail
      refine ⟨n, hopen, ?_⟩
      rw [hn, hsplit]
      exact hloop tail
    cases hdata : r'.data with
    | none =>
        refine ⟨r', fun tail => ?_⟩
        obtain ⟨n, hopen, hloop'⟩ := hread tail
        rw [tpReplyBody, hopen, ok_bind]
        simp only [hloop', ok_bind, hdata, hsize, pure_eq]
    | some start =>
        obtain ⟨itr, hitr⟩ := tpArrayItrInit_dataIn hmp hr' hdata
        refine ⟨{ r' with tupleItr := itr }, fun tail => ?_⟩
        obtain ⟨n, hopen, hloop'⟩ := hread tail
        have hitr' := hitr tail
        rw [List.append_assoc, ← hsplit] at hitr'
        rw [tpReplyBody, hopen, ok_bind]
        simp only [hloop', ok_bind, hdata, hitr', hsize, pure_eq]
  · intro hbad tail
    obtain ⟨n, hopen, hn⟩ := openMap_frameMap hmp m tail
    obtain ⟨e, hstop⟩ := hrefuses hbad tail
    refine ⟨e, ?_⟩
    rw [tpReplyBody, hopen, ok_bind]
    simp only [hn, hsplit, hstop, error_bind]

theorem tpReplyHeader_frameMap (m : FrameMap) (htyped : ∀ pair ∈ m.pairs, HeaderTyped pair)
    (done : Bytes) (len : UInt32) :
    ((∀ pair ∈ m.pairs, TpFrame.KeyFits pair) → ∃ r', DataIn r' (done ++ m.bytes) ∧ ∀ rest,
        tpReplyHeader mp (done ++ (m.bytes ++ rest)) len (m.bytes ++ rest) =
          if (done ++ m.bytes).length = len.toNat + 5 then .ok ((len + 5).toNat, r')
          else tpReplyBody mp (done ++ (m.bytes ++ rest)) r' rest) ∧
      (¬(∀ pair ∈ m.pairs, TpFrame.KeyFits pair) → ∀ rest,
        ∃ e, tpReplyHeader mp (done ++ (m.bytes ++ rest)) len (m.bytes ++ rest) = .error e) := by
  obtain ⟨hconsumes, hrefuses⟩ := frameMap_loop m
    (fun pair hpair => tpHeaderPair_turn hmp (htyped pair hpair))
    (dataIn_init (done ++ m.hdr))
  constructor
  · intro hfits
    obtain ⟨r', hloop, hr'⟩ := hconsumes hfits
    rw [List.append_assoc] at hr'
    refine ⟨r', hr', fun rest => ?_⟩
    obtain ⟨n, hopen, hn⟩ := openMap_frameMap hmp m rest
    have hsize : (done ++ (m.bytes ++ rest)).length - rest.length = (done ++ m.bytes).length := by
      rw [← List.append_assoc, List.length_append, Nat.add_sub_cancel]
    rw [tpReplyHeader, hopen, ok_bind]
    simp only [hn, hloop rest, ok_bind, hsize, pure_eq]
  · intro hbad rest
    obtain ⟨n, hopen, hn⟩ := openMap_frameMap hmp m rest
    obtain ⟨e, hstop⟩ := hrefuses hbad rest
    refine ⟨e, ?_⟩
    rw [tpReplyHeader, hopen, ok_bind]
    simp only [hn, hstop, error_bind]

end Decoding

namespace TpFrame

variable {mp : Msgpuck} (hmp : mp.Lawful) (f : TpFrame)

/-- The length in front of the payload. -/
def lengthBytes : Bytes := 0xce :: store 4 f.payload.length

theorem bytes_eq : f.bytes = f.lengthBytes ++ f.payload := rfl

theorem lengthBytes_length : f.lengthBytes.length = 5 := by simp [lengthBytes]

theorem bytes_length : f.bytes.length = f.payload.length + 5 := length_frame f.payload

def bodyBytes : Bytes := (f.body.map FrameMap.bytes).getD []

theorem payload_eq : f.payload = f.header.bytes ++ f.bodyBytes := rfl

theorem bodyBytes_eq_nil_iff : f.bodyBytes = [] ↔ f.body = none := by
  unfold bodyBytes
  cases f.body with
  | none => simp
  | some m =>
      have hne : m.bytes ≠ [] := List.ne_nil_of_length_pos m.isValue.length_pos
      simp [hne]

include hmp

theorem body_incomplete {rest missing : Bytes} (h : f.bodyBytes = rest ++ missing)
    (hmissing : missing ≠ []) {len : UInt32} (hlen : len.toNat = f.payload.length) :
    ∃ e, tpReplyHeader mp (f.lengthBytes ++ (f.header.bytes ++ rest)) len (f.header.bytes ++ rest) =
      .error e := by
  obtain ⟨hfit, hbad⟩ := tpReplyHeader_frameMap hmp f.header f.header_typed f.lengthBytes len
  by_cases hfits : ∀ pair ∈ f.header.pairs, KeyFits pair
  · obtain ⟨r', -, hrun⟩ := hfit hfits
    have hmore : ¬(f.lengthBytes ++ f.header.bytes).length = len.toNat + 5 := by
      have hpos := List.length_pos_of_ne_nil hmissing
      have hlengths := congrArg List.length h
      rw [hlen, payload_eq, List.length_append, lengthBytes_length, List.length_append]
      rw [List.length_append] at hlengths
      omega
    obtain ⟨m, hbody⟩ : ∃ m, f.body = some m := by
      apply Option.ne_none_iff_exists'.mp
      intro hnone
      rw [f.bodyBytes_eq_nil_iff.mpr hnone] at h
      exact hmissing (List.append_eq_nil_iff.mp h.symm).2
    have hcut : m.bytes = rest ++ missing := by
      rw [← h, bodyBytes, hbody]
      rfl
    refine ⟨.fail, ?_⟩
    rw [hrun, if_neg hmore, tpReplyBody, openMap_incomplete hmp m hcut hmissing, error_bind]
  · exact hbad hfits rest

theorem header_incomplete {p missing : Bytes} (h : f.payload = p ++ missing)
    (hmissing : missing ≠ [])
    {len : UInt32} (hlen : len.toNat = f.payload.length) :
    ∃ e, tpReplyHeader mp (f.lengthBytes ++ p) len p = .error e := by
  rw [payload_eq] at h
  rcases List.append_eq_append_iff.mp h with ⟨rest, rfl, hbody⟩ | ⟨cut, hheader, rfl⟩
  · exact f.body_incomplete hmp hbody hmissing hlen
  · by_cases hcut : cut = []
    · rw [hcut, List.append_nil] at hheader
      rw [hcut, List.nil_append] at hmissing
      have hwhole := f.body_incomplete hmp (List.nil_append _).symm hmissing hlen
      rwa [List.append_nil, hheader] at hwhole
    · refine ⟨.fail, ?_⟩
      rw [tpReplyHeader, openMap_incomplete hmp f.header hheader hcut, error_bind]

theorem tpReply_cutLength {t missing : Bytes} (h : f.lengthBytes = t ++ missing)
    (hmissing : missing ≠ []) (ht : t ≠ []) : tpReply mp t = .error .fail := by
  have hnone : next t = none := next_incomplete (isValue_lengthBytes f.fits) h hmissing
  have hcheck : (mp.mpCheck t).isNone = true := by
    rw [hmp.check_eq, hnone]
    rfl
  have hlength : ¬t.length = 0 := mt List.length_eq_zero_iff.mp ht
  simp only [tpReply, if_neg hlength, hcheck, ite_true, throw_eq, error_bind]

omit hmp in
theorem part_cases {t missing : Bytes} (h : f.bytes = t ++ missing) :
    (∃ cut, cut ≠ [] ∧ f.lengthBytes = t ++ cut) ∨
      ∃ p, t = f.lengthBytes ++ p ∧ f.payload = p ++ missing := by
  rw [bytes_eq] at h
  rcases List.append_eq_append_iff.mp h with ⟨p, hp, hpayload⟩ | ⟨cut, hlength, hcut⟩
  · exact .inr ⟨p, hp, hpayload⟩
  · by_cases hnil : cut = []
    · subst hnil
      rw [List.append_nil] at hlength
      exact .inr ⟨[], by rw [hlength, List.append_nil], hcut.symm⟩
    · exact .inl ⟨cut, hnil, hlength⟩

/-- A part of a frame is recognised if it is empty, or if its length is whole and the size of the
frame fits in 32 bits. -/
theorem tpReply_part {t missing : Bytes} (h : f.bytes = t ++ missing) (hmissing : missing ≠ []) :
    (∃ r, tpReply mp t = .ok (0, r)) ↔ t = [] ∨ (5 ≤ t.length ∧ f.payload.length + 5 < 2 ^ 32) := by
  rcases f.part_cases h with ⟨cut, hcut, hlength⟩ | ⟨p, rfl, hpayload⟩
  · have hfive : ¬5 ≤ t.length := by
      have hpos := List.length_pos_of_ne_nil hcut
      have hlengths := congrArg List.length hlength
      rw [lengthBytes_length, List.length_append] at hlengths
      omega
    by_cases ht : t = []
    · subst ht
      exact iff_of_true ⟨{}, rfl⟩ (.inl rfl)
    · refine iff_of_false ?_ (fun hor => hor.elim ht fun hand => hfive hand.1)
      rintro ⟨r, hr⟩
      rw [f.tpReply_cutLength hmp hlength hcut ht] at hr
      cases hr
  · have hpos := List.length_pos_of_ne_nil hmissing
    have hlengths := congrArg List.length hpayload
    have hfits : f.payload.length < 2 ^ 32 := f.fits
    have hfive : 5 ≤ (f.lengthBytes ++ p).length := by
      rw [List.length_append, lengthBytes_length]
      omega
    have hne : f.lengthBytes ++ p ≠ [] := List.ne_nil_of_length_pos (by omega)
    rw [List.length_append] at hlengths
    rw [or_iff_right hne, and_iff_right hfive, lengthBytes, tpReply_front hmp hfits]
    by_cases hsum : f.payload.length + 5 < 2 ^ 32
    · rw [Nat.mod_eq_of_lt hsum, if_pos (by omega)]
      exact iff_of_true ⟨{}, rfl⟩ hsum
    · -- the sum is less than five, and the bytes are taken for a whole frame
      have hwrap : ¬p.length + 5 < (f.payload.length + 5) % 2 ^ 32 := by omega
      rw [if_neg hwrap]
      refine iff_of_false ?_ hsum
      rintro ⟨r, hr⟩
      obtain ⟨e, hstop⟩ := f.header_incomplete hmp hpayload hmissing
        (UInt32.toNat_ofNat_of_lt' hfits)
      rw [lengthBytes] at hstop
      rw [hstop] at hr
      cases hr

omit hmp in
theorem toNat_length : (UInt32.ofNat f.payload.length).toNat = f.payload.length :=
  UInt32.toNat_ofNat_of_lt' f.fits

theorem tpReply_bytes (rest : Bytes) : tpReply mp (f.bytes ++ rest) =
    tpReplyHeader mp (f.lengthBytes ++ (f.header.bytes ++ (f.bodyBytes ++ rest)))
      (UInt32.ofNat f.payload.length) (f.header.bytes ++ (f.bodyBytes ++ rest)) := by
  have hfits : f.payload.length < 2 ^ 32 := f.fits
  rw [bytes, tpReply_frame hmp hfits, ← bytes, bytes_eq, payload_eq]
  simp only [List.append_assoc]

theorem tpReply_bodyless (hbody : f.body = none) (hheader : ∀ pair ∈ f.header.pairs, KeyFits pair) :
    ∃ r, ∀ rest, tpReply mp (f.bytes ++ rest) = .ok ((f.payload.length + 5) % 2 ^ 32, r) := by
  obtain ⟨r, -, hrun⟩ := (tpReplyHeader_frameMap hmp f.header f.header_typed f.lengthBytes
    (UInt32.ofNat f.payload.length)).1 hheader
  have hnil : f.bodyBytes = [] := f.bodyBytes_eq_nil_iff.mpr hbody
  have hwhole : (f.lengthBytes ++ f.header.bytes).length =
      (UInt32.ofNat f.payload.length).toNat + 5 := by
    rw [toNat_length, payload_eq, hnil, List.append_nil, List.length_append, lengthBytes_length,
      Nat.add_comm]
  have hsum : (UInt32.ofNat f.payload.length + 5).toNat = (f.payload.length + 5) % 2 ^ 32 := by
    rw [UInt32.toNat_add, toNat_length]
    rfl
  refine ⟨r, fun rest => ?_⟩
  rw [f.tpReply_bytes hmp, hrun, if_pos hwhole, hsum]

theorem tpReply_withBody {m : FrameMap} (hbody : f.body = some m)
    (hheader : ∀ pair ∈ f.header.pairs, KeyFits pair) :
    ((∀ pair ∈ m.pairs, KeyFits pair) →
        ∃ r, ∀ rest, tpReply mp (f.bytes ++ rest) = .ok (f.bytes.length, r)) ∧
      (¬(∀ pair ∈ m.pairs, KeyFits pair) →
        ∀ rest, ∃ e, tpReply mp (f.bytes ++ rest) = .error e) := by
  obtain ⟨r', hr', hrun⟩ := (tpReplyHeader_frameMap hmp f.header f.header_typed f.lengthBytes
    (UInt32.ofNat f.payload.length)).1 hheader
  have hbytes : f.bodyBytes = m.bytes := by
    rw [bodyBytes, hbody]
    rfl
  have hmore : ¬(f.lengthBytes ++ f.header.bytes).length =
      (UInt32.ofNat f.payload.length).toNat + 5 := by
    have hpos := m.isValue.length_pos
    rw [toNat_length, payload_eq, hbytes, List.length_append, lengthBytes_length,
      List.length_append]
    omega
  have hsize : ((f.lengthBytes ++ f.header.bytes) ++ m.bytes).length = f.bytes.length := by
    rw [bytes_eq, payload_eq, hbytes, List.append_assoc]
  have hresult (rest : Bytes) : tpReply mp (f.bytes ++ rest) =
      tpReplyBody mp ((f.lengthBytes ++ f.header.bytes) ++ (m.bytes ++ rest)) r'
        (m.bytes ++ rest) := by
    rw [f.tpReply_bytes hmp, hrun, if_neg hmore, hbytes, List.append_assoc]
  obtain ⟨hfit, hbad⟩ := tpReplyBody_frameMap hmp m (f.body_typed m hbody) hr'
  constructor
  · intro hkeys
    obtain ⟨r, hr⟩ := hfit hkeys
    exact ⟨r, fun rest => by rw [hresult, hr, hsize]⟩
  · intro hkeys rest
    rw [hresult]
    exact hbad hkeys rest

theorem tpReply_whole : (∃ r, ∀ rest, tpReply mp (f.bytes ++ rest) = .ok (f.bytes.length, r)) ↔
    f.KeysFit ∧ (f.body.isSome ∨ f.payload.length + 5 < 2 ^ 32) := by
  have hstops (hstop : ∃ e, tpReply mp (f.bytes ++ []) = .error e) :
      ¬∃ r, ∀ rest, tpReply mp (f.bytes ++ rest) = .ok (f.bytes.length, r) := by
    rintro ⟨r, hr⟩
    obtain ⟨e, he⟩ := hstop
    rw [hr []] at he
    cases he
  by_cases hheader : ∀ pair ∈ f.header.pairs, KeyFits pair
  · cases hbody : f.body with
    | none =>
        obtain ⟨r, hresult⟩ := f.tpReply_bodyless hmp hbody hheader
        have hkeys : f.KeysFit := by
          refine ⟨hheader, fun m hm => ?_⟩
          rw [hbody] at hm
          cases hm
        rw [and_iff_right hkeys, Option.isSome_none, or_iff_right Bool.false_ne_true, bytes_length]
        constructor
        · rintro ⟨r', hr'⟩
          have hsame := hr' []
          rw [hresult] at hsame
          have hmod := congrArg Prod.fst (Except.ok.inj hsame)
          dsimp only at hmod
          omega
        · intro hlt
          exact ⟨r, fun rest => by rw [hresult, Nat.mod_eq_of_lt hlt]⟩
    | some m =>
        obtain ⟨hfit, hbad⟩ := f.tpReply_withBody hmp hbody hheader
        by_cases hkeys : ∀ pair ∈ m.pairs, KeyFits pair
        · refine iff_of_true (hfit hkeys) ⟨⟨hheader, fun m' hm' => ?_⟩, .inl rfl⟩
          rw [hbody] at hm'
          cases hm'
          exact hkeys
        · exact iff_of_false (hstops (hbad hkeys [])) fun h => hkeys (h.1.2 m hbody)
  · refine iff_of_false (hstops ?_) fun h => hheader h.1.1
    rw [f.tpReply_bytes hmp]
    exact (tpReplyHeader_frameMap hmp f.header f.header_typed f.lengthBytes
      (UInt32.ofNat f.payload.length)).2 hheader _

end TpFrame

/-- When a part of a frame is recognised as one, and when a whole frame is, whatever follows it. -/
theorem tpReply_recognises_iff {mp : Msgpuck} (hmp : mp.Lawful) (f : TpFrame) :
    (∀ t, t <+: f.bytes → t ≠ f.bytes → ((∃ r, tpReply mp t = .ok (0, r)) ↔
        t = [] ∨ (5 ≤ t.length ∧ f.payload.length + 5 < 2 ^ 32))) ∧
      ((∃ r, ∀ rest, tpReply mp (f.bytes ++ rest) = .ok (f.bytes.length, r)) ↔
        f.KeysFit ∧ (f.body.isSome ∨ f.payload.length + 5 < 2 ^ 32)) := by
  refine ⟨?_, f.tpReply_whole hmp⟩
  rintro t ⟨missing, hsplit⟩ hne
  have hmissing : missing ≠ [] := by
    rintro rfl
    exact hne (by rw [← hsplit, List.append_nil])
  exact f.tpReply_part hmp hsplit.symm hmissing

/-- The reply to a ping: a code and a sync, and no body. -/
def pingFrame : TpFrame where
  header :=
    { hdr := [0x82]
      pairs := [([0x00], [0x00]), ([0x01], [0x07])]
      head_eq := by decide
      values := by decide }
  header_typed := by decide
  body_typed := fun _ h => by cases h
  fits := by decide

theorem tpReply_recognises_ping :
    (∀ t, t <+: pingFrame.bytes → t ≠ pingFrame.bytes →
        ((∃ r, tpReply Msgpuck.reference t = .ok (0, r)) ↔
          t = [] ∨ (5 ≤ t.length ∧ pingFrame.payload.length + 5 < 2 ^ 32))) ∧
      ((∃ r, ∀ rest, tpReply Msgpuck.reference (pingFrame.bytes ++ rest) =
          .ok (pingFrame.bytes.length, r)) ↔
        pingFrame.KeysFit ∧ (pingFrame.body.isSome ∨ pingFrame.payload.length + 5 < 2 ^ 32)) :=
  tpReply_recognises_iff Msgpuck.reference_lawful pingFrame

/-- The first byte of a frame is taken for an error. -/
theorem not_tpReply_recognises :
    [0xce] <+: pingFrame.bytes ∧ [0xce] ≠ pingFrame.bytes ∧
      tpReply Msgpuck.reference [0xce] = .error .fail :=
  ⟨⟨_, rfl⟩, by decide, by rfl⟩

end BeeC
