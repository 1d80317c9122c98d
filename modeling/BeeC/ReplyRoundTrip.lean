import BeeC.ReplyReading

namespace BeeC

open BeeC.Wire.MessagePack
open BeeC.Wire.Loop

/-- A body field that the decoder knows. -/
inductive BodyField where
  | data (array : Bytes)
  | error (text : Bytes)
  deriving DecidableEq, Repr

namespace BodyField

def key : BodyField → ResponseKey
  | data _ => .data
  | error _ => .error

def data? : BodyField → Option Bytes
  | data array => some array
  | error _ => none

def error? : BodyField → Option Bytes
  | data _ => none
  | error text => some text

end BodyField

/-- What a server answers: header fields and body fields, no key twice, each in any order. -/
structure Answer where
  header : List (HeaderKey × UInt64)
  body : List BodyField
  header_nodup : (header.map Prod.fst).Nodup
  body_nodup : (body.map BodyField.key).Nodup

namespace Answer

/-- The value of a header field, zero when the header has none. -/
def value (a : Answer) (key : HeaderKey) : UInt64 := (a.header.lookup key).getD 0

def data (a : Answer) : Option Bytes := a.body.findSome? BodyField.data?

def error (a : Answer) : Option Bytes := a.body.findSome? BodyField.error?

/-- The keys that occur, as numbers. -/
def keys (a : Answer) : List Nat :=
  a.header.map (fun field => field.1.id.toNat) ++ a.body.map fun field => field.key.id.toNat

end Answer

/-- The pair is an encoding of the header field, with integers of any width. -/
def SpellsHeader (pair : Bytes × Bytes) (field : HeaderKey × UInt64) : Prop :=
  uintOf pair.1 = some field.1.id.toNat ∧ uintOf pair.2 = some field.2.toNat

/-- The pair is an encoding of the body field: an array of any contents, or a string. -/
def SpellsBody (pair : Bytes × Bytes) : BodyField → Prop
  | .data array => uintOf pair.1 = some ResponseKey.data.id.toNat ∧ pair.2 = array ∧
      IsValue array ∧ kindOf array = some .array
  | .error text => uintOf pair.1 = some ResponseKey.error.id.toNat ∧ textOf pair.2 = some text

/-- The payload is an encoding of the answer: two maps in a row, with headers of any width. -/
def Encodes (payload : Bytes) (a : Answer) : Prop :=
  ∃ headerMap headerPairs bodyMap bodyPairs,
    head headerMap = some (.map headerPairs.length, []) ∧
    List.Forall₂ SpellsHeader headerPairs a.header ∧
    head bodyMap = some (.map bodyPairs.length, []) ∧
    List.Forall₂ SpellsBody bodyPairs a.body ∧
    payload = headerMap ++ ((unpair headerPairs).flatten ++
      (bodyMap ++ ((unpair bodyPairs).flatten ++ [])))

namespace Fields

/-- The field that holds a header value. -/
def get (f : Fields) : HeaderKey → UInt64
  | .code => f.code
  | .sync => f.sync
  | .schemaId => f.schemaId

def setHeader (f : Fields) (field : HeaderKey × UInt64) : Fields :=
  match field.1 with
  | .code => (f.withCode field.2).setBit HeaderKey.code.id
  | .sync => (f.withSync field.2).setBit HeaderKey.sync.id
  | .schemaId => (f.withSchemaId field.2).setBit HeaderKey.schemaId.id

def setBody (f : Fields) : BodyField → Fields
  | .data array => (f.withData array).setBit ResponseKey.data.id
  | .error text => (f.withError text).setBit ResponseKey.error.id

theorem get_setHeader (f : Fields) (field : HeaderKey × UInt64) (key : HeaderKey) :
    (f.setHeader field).get key = if key = field.1 then field.2 else f.get key := by
  obtain ⟨found, value⟩ := field
  cases found <;> cases key <;> rfl

theorem testBit_setHeader (f : Fields) (field : HeaderKey × UInt64) (i : Nat) :
    (f.setHeader field).bitmap.toNat.testBit i =
      (f.bitmap.toNat.testBit i || decide (i = field.1.id.toNat)) := by
  obtain ⟨found, value⟩ := field
  cases found <;> exact testBit_setBit (by decide) _ i

theorem testBit_setBody (f : Fields) (field : BodyField) (i : Nat) :
    (f.setBody field).bitmap.toNat.testBit i =
      (f.bitmap.toNat.testBit i || decide (i = field.key.id.toNat)) := by
  cases field <;> exact testBit_setBit (by decide) _ i

theorem setHeader_texts (f : Fields) (field : HeaderKey × UInt64) :
    (f.setHeader field).error = f.error ∧ (f.setHeader field).data = f.data := by
  obtain ⟨found, value⟩ := field
  cases found <;> exact ⟨rfl, rfl⟩

theorem setBody_get {key : HeaderKey} (hkey : key ≠ .code) (f : Fields) (field : BodyField) :
    (f.setBody field).get key = f.get key := by
  cases field <;> cases key <;> first | rfl | exact absurd rfl hkey

theorem testBit_foldl {α : Type} {step : Fields → α → Fields} {number : α → Nat}
    (hstep : ∀ f a i, (step f a).bitmap.toNat.testBit i =
      (f.bitmap.toNat.testBit i || decide (i = number a)))
    (l : List α) (f : Fields) (i : Nat) :
    (l.foldl step f).bitmap.toNat.testBit i =
      (f.bitmap.toNat.testBit i || decide (i ∈ l.map number)) := by
  induction l generalizing f with
  | nil => simp
  | cons a l ih =>
      rw [List.foldl_cons, ih, hstep, List.map_cons, Bool.or_assoc]
      simp [List.mem_cons]

theorem foldl_setHeader_get {l : List (HeaderKey × UInt64)} (h : (l.map Prod.fst).Nodup)
    (f : Fields) (key : HeaderKey) :
    (l.foldl setHeader f).get key = (l.lookup key).getD (f.get key) := by
  induction l generalizing f with
  | nil => rfl
  | cons field l ih =>
      rw [List.map_cons, List.nodup_cons] at h
      rw [List.foldl_cons, ih h.2, get_setHeader, List.lookup_cons]
      by_cases hkey : key = field.1
      · have hnone : l.lookup key = none := by
          rw [List.lookup_eq_none_iff]
          intro other hother
          have : other.1 ≠ key := fun heq =>
            h.1 (hkey ▸ heq ▸ List.mem_map_of_mem hother)
          simpa using fun heq => this heq.symm
        rw [if_pos hkey, beq_iff_eq.mpr hkey, hnone]
        rfl
      · rw [if_neg hkey, beq_eq_false_iff_ne.mpr hkey]

theorem foldl_setHeader_texts (l : List (HeaderKey × UInt64)) (f : Fields) :
    (l.foldl setHeader f).error = f.error ∧ (l.foldl setHeader f).data = f.data := by
  induction l generalizing f with
  | nil => exact ⟨rfl, rfl⟩
  | cons field l ih =>
      rw [List.foldl_cons, (ih _).1, (ih _).2]
      exact setHeader_texts f field

theorem foldl_setBody_get {key : HeaderKey} (hkey : key ≠ .code) (l : List BodyField)
    (f : Fields) : (l.foldl setBody f).get key = f.get key := by
  induction l generalizing f with
  | nil => rfl
  | cons field l ih => rw [List.foldl_cons, ih, setBody_get hkey]

theorem foldl_setBody_data {l : List BodyField} (h : (l.map BodyField.key).Nodup)
    (f : Fields) : (l.foldl setBody f).data = (l.findSome? BodyField.data?).or f.data := by
  induction l generalizing f with
  | nil => rfl
  | cons field l ih =>
      rw [List.map_cons, List.nodup_cons] at h
      rw [List.foldl_cons, ih h.2, List.findSome?_cons]
      cases field with
      | data array =>
          have hnone : l.findSome? BodyField.data? = none := by
            rw [List.findSome?_eq_none_iff]
            intro other hother
            cases other with
            | data => exact absurd (List.mem_map_of_mem hother) h.1
            | error => rfl
          rw [hnone]
          rfl
      | error text => rfl

theorem foldl_setBody_error {l : List BodyField} (h : (l.map BodyField.key).Nodup)
    (f : Fields) :
    (l.foldl setBody f).error = (l.findSome? BodyField.error?).or f.error ∧
      (l.foldl setBody f).code =
        if (l.findSome? BodyField.error?).isSome then f.code % 0x8000 else f.code := by
  induction l generalizing f with
  | nil => exact ⟨rfl, rfl⟩
  | cons field l ih =>
      rw [List.map_cons, List.nodup_cons] at h
      rw [List.foldl_cons, (ih h.2 _).1, (ih h.2 _).2, List.findSome?_cons]
      cases field with
      | data array => exact ⟨rfl, rfl⟩
      | error text =>
          have hnone : l.findSome? BodyField.error? = none := by
            rw [List.findSome?_eq_none_iff]
            intro other hother
            cases other with
            | data => rfl
            | error => exact absurd (List.mem_map_of_mem hother) h.1
          rw [hnone]
          refine ⟨rfl, ?_⟩
          apply UInt64.toNat_inj.mp
          have hmask : ((1 : UInt64) <<< 15 - 1).toNat = 2 ^ 15 - 1 := by decide
          show (f.code &&& ((1 : UInt64) <<< 15 - 1)).toNat = (f.code % 0x8000).toNat
          rw [UInt64.toNat_and, hmask, Nat.and_two_pow_sub_one_eq_mod, UInt64.toNat_mod]
          rfl

end Fields

theorem headerField_spells {pair : Bytes × Bytes} {field : HeaderKey × UInt64}
    (h : SpellsHeader pair field) (f : Fields) :
    headerField f pair = .ok (f.setHeader field) := by
  obtain ⟨key, value⟩ := field
  have hkey : keyOf pair.1 = some key.id := by
    rw [keyOf, h.1, Option.map_some, UInt32.ofNat_toNat]
  rw [headerField, hkey, h.2]
  simp only [UInt64.ofNat_toNat]
  cases key with
  | code => exact Fields.mark_eq HeaderKey.code.id (by decide) _
  | sync => exact Fields.mark_eq HeaderKey.sync.id (by decide) _
  | schemaId => exact Fields.mark_eq HeaderKey.schemaId.id (by decide) _

theorem headerFields_spell {pairs : List (Bytes × Bytes)} {fields : List (HeaderKey × UInt64)}
    (h : List.Forall₂ SpellsHeader pairs fields) (f : Fields) :
    pairs.foldlM headerField f = .ok (fields.foldl Fields.setHeader f) := by
  induction h generalizing f with
  | nil => rfl
  | cons hpair _ ih =>
      rw [List.foldlM_cons, headerField_spells hpair, ok_bind, ih, List.foldl_cons]

theorem bodyItem_spells {pair : Bytes × Bytes} {field : BodyField} (h : SpellsBody pair field)
    (f : Fields) (rest : List Bytes) :
    bodyItem (f, pair.1 :: pair.2 :: rest) = .ok (f.setBody field, rest) := by
  cases field with
  | data array =>
      obtain ⟨hkey, hvalue, -, hkind⟩ := h
      have hkey' : keyOf pair.1 = some ResponseKey.data.id := by
        rw [keyOf, hkey, Option.map_some, UInt32.ofNat_toNat]
      simp only [bodyItem, hkey', hvalue, hkind, ite_true]
      rfl
  | error text =>
      obtain ⟨hkey, htext⟩ := h
      have hkey' : keyOf pair.1 = some ResponseKey.error.id := by
        rw [keyOf, hkey, Option.map_some, UInt32.ofNat_toNat]
      simp only [bodyItem, hkey', htext, ite_true]
      rfl

theorem readBody_spells {pairs : List (Bytes × Bytes)} {fields : List BodyField}
    (h : List.Forall₂ SpellsBody pairs fields) (f : Fields) :
    readBody f pairs = .ok (fields.foldl Fields.setBody f) := by
  induction h generalizing f with
  | nil => rfl
  | @cons pair field pairs fields hpair _ ih =>
      have hunpair : unpair (pair :: pairs) = pair.1 :: pair.2 :: unpair pairs := rfl
      rw [readBody, List.length_cons, loop_succ, hunpair, bodyItem_spells hpair, ok_bind]
      exact ih _

theorem isValues_of_spellsHeader {pairs : List (Bytes × Bytes)}
    {fields : List (HeaderKey × UInt64)} (h : List.Forall₂ SpellsHeader pairs fields) :
    ∀ x ∈ unpair pairs, IsValue x := by
  induction h with
  | nil => simp [unpair]
  | cons hpair _ ih =>
      simp only [unpair, List.flatMap_cons, List.cons_append, List.nil_append, List.mem_cons,
        forall_eq_or_imp]
      exact ⟨isValue_of_uintOf hpair.1, isValue_of_uintOf hpair.2, ih⟩

theorem isValues_of_spellsBody {pairs : List (Bytes × Bytes)} {fields : List BodyField}
    (h : List.Forall₂ SpellsBody pairs fields) : ∀ x ∈ unpair pairs, IsValue x := by
  induction h with
  | nil => simp [unpair]
  | @cons pair field pairs fields hpair _ ih =>
      simp only [unpair, List.flatMap_cons, List.cons_append, List.nil_append, List.mem_cons,
        forall_eq_or_imp]
      cases field with
      | data array =>
          obtain ⟨hkey, rfl, hvalue, -⟩ := hpair
          exact ⟨isValue_of_uintOf hkey, hvalue, ih⟩
      | error text => exact ⟨isValue_of_uintOf hpair.1, isValue_of_textOf hpair.2, ih⟩

theorem mapOf_spelledHeader {headerMap : Bytes} {headerPairs : List (Bytes × Bytes)}
    {header : List (HeaderKey × UInt64)}
    (hheader : head headerMap = some (.map headerPairs.length, []))
    (hspell : List.Forall₂ SpellsHeader headerPairs header) (rest : Bytes) :
    mapOf (headerMap ++ ((unpair headerPairs).flatten ++ rest)) = some (headerPairs, rest) :=
  mapOf_append hheader (isValues_of_spellsHeader hspell) rest

theorem mapOf_spelledBody {bodyMap : Bytes} {bodyPairs : List (Bytes × Bytes)}
    {body : List BodyField} (hbody : head bodyMap = some (.map bodyPairs.length, []))
    (hspell : List.Forall₂ SpellsBody bodyPairs body) (rest : Bytes) :
    mapOf (bodyMap ++ ((unpair bodyPairs).flatten ++ rest)) = some (bodyPairs, rest) :=
  mapOf_append hbody (isValues_of_spellsBody hspell) rest

theorem readPayload_spelled {headerMap bodyMap : Bytes} {headerPairs bodyPairs : List (Bytes × Bytes)}
    {header : List (HeaderKey × UInt64)} {body : List BodyField}
    (hheader : head headerMap = some (.map headerPairs.length, []))
    (hspell : List.Forall₂ SpellsHeader headerPairs header)
    (hbody : head bodyMap = some (.map bodyPairs.length, []))
    (hspell' : List.Forall₂ SpellsBody bodyPairs body) (rest : Bytes) :
    readPayload (headerMap ++ ((unpair headerPairs).flatten ++
        (bodyMap ++ ((unpair bodyPairs).flatten ++ rest)))) =
      .ok (body.foldl Fields.setBody (header.foldl Fields.setHeader {})) := by
  rw [readPayload, mapOf_spelledHeader hheader hspell]
  simp only [headerFields_spell hspell, ok_bind, mapOf_spelledBody hbody hspell',
    readBody_spells hspell']

theorem readPayload_encodes {payload : Bytes} {a : Answer} (h : Encodes payload a) :
    readPayload payload =
      .ok (a.body.foldl Fields.setBody (a.header.foldl Fields.setHeader {})) := by
  obtain ⟨headerMap, headerPairs, bodyMap, bodyPairs, hheader, hspell, hbody, hspell', rfl⟩ := h
  exact readPayload_spelled hheader hspell hbody hspell' []

theorem length_pos_of_encodes {payload : Bytes} {a : Answer} (h : Encodes payload a) :
    0 < payload.length := by
  obtain ⟨headerMap, _, _, _, hheader, _, _, _, rfl⟩ := h
  obtain ⟨used, hused, hpos, -⟩ := head_suffix hheader
  rw [hused, List.length_append, List.length_append]
  omega

/-- What a decoded reply says is what the answer says: its values, the bytes its pointers
delimit, null pointers for what is absent, and one bit for each key. -/
structure Reply.Says (r : Reply) (a : Answer) : Prop where
  sync : r.sync = a.value .sync
  schemaId : r.schemaId = a.value .schemaId
  code : r.code = if a.error.isSome then a.value .code % 0x8000 else a.value .code
  data : r.dataBytes = a.data
  data_absent : a.data = none → r.data = none ∧ r.dataEnd = none
  error : r.errorText = a.error
  error_absent : a.error = none → r.error = none ∧ r.errorEnd = none
  bitmap : ∀ i, r.bitmap.toNat.testBit i = decide (i ∈ a.keys)

theorem slice_eq_none {buf : Bytes} {start stop : Option Nat}
    (hpaired : start.isSome = stop.isSome) (h : slice buf start stop = none) :
    start = none ∧ stop = none := by
  cases start <;> cases stop <;> simp_all [slice]

theorem Reading.says {buf : Bytes} {r : Reply} {a : Answer}
    (h : Reading buf r (a.body.foldl Fields.setBody (a.header.foldl Fields.setHeader {}))) :
    r.Says a := by
  have hget : ∀ key ≠ HeaderKey.code, r.fields.get key = a.value key := by
    intro key hkey
    rw [h.fields_eq, Fields.foldl_setBody_get hkey, Fields.foldl_setHeader_get a.header_nodup]
    cases key <;> rfl
  have hcode : r.fields.code = if a.error.isSome then a.value .code % 0x8000 else a.value .code := by
    have hheader := Fields.foldl_setHeader_get a.header_nodup {} .code
    rw [h.fields_eq, (Fields.foldl_setBody_error a.body_nodup _).2]
    exact congrArg (fun code => if a.error.isSome then code % 0x8000 else code) hheader
  have hdata : r.dataBytes = a.data := by
    have hfields := congrArg Fields.data h.fields_eq
    rw [Fields.foldl_setBody_data a.body_nodup, (Fields.foldl_setHeader_texts _ _).2,
      Option.or_none] at hfields
    exact hfields
  have herror : r.errorText = a.error := by
    have hfields := congrArg Fields.error h.fields_eq
    rw [(Fields.foldl_setBody_error a.body_nodup _).1, (Fields.foldl_setHeader_texts _ _).1,
      Option.or_none] at hfields
    exact hfields
  refine ⟨hget .sync (by decide), hget .schemaId (by decide), hcode, hdata, ?_, herror, ?_, ?_⟩
  · intro hnone
    exact slice_eq_none h.data_paired (hdata.trans hnone)
  · intro hnone
    exact slice_eq_none h.error_paired (herror.trans hnone)
  · intro i
    have hfields := congrArg (fun f => f.bitmap.toNat.testBit i) h.fields_eq
    simp only [Fields.testBit_foldl Fields.testBit_setBody,
      Fields.testBit_foldl Fields.testBit_setHeader] at hfields
    rw [show r.bitmap = r.fields.bitmap from rfl, hfields]
    simp only [Answer.keys, List.mem_append, Bool.decide_or, UInt64.toNat_zero,
      Nat.zero_testBit, Bool.false_or]

theorem beerReplyFrom_encodes {mp : Msgpuck} (hmp : mp.Lawful) {σ : Type}
    {rcv : Nat → σ → Option Bytes × σ} {ptr ptr' : σ} {payload : Bytes} {a : Answer}
    (hdelivers : Delivers rcv ptr payload ptr') (hlength : payload.length < 2 ^ 32)
    (hencodes : Encodes payload a) (r : Reply) :
    ∃ r', beerReplyFrom mp rcv r ptr = (.ok (0, r'), ptr') ∧ r'.Says a := by
  obtain ⟨r', hreply, hreading⟩ := beerReplyFrom_ok hmp hdelivers
    (length_pos_of_encodes hencodes) hlength r (readPayload_encodes hencodes)
  exact ⟨r', hreply, hreading.says⟩

theorem beerReplyFrom_encodes_error :
    ∃ r', beerReplyFrom Msgpuck.reference beerReplyCb (Reply.init false)
        (frame [0x82, 0x01, 0x07, 0x00, 0xcd, 0x80, 0x02, 0x81, 0x31, 0xa2, 0x6e, 0x6f] ++ []) =
          (.ok (0, r'), []) ∧
      r'.Says ⟨[(.sync, 7), (.code, 0x8002)], [.error [0x6e, 0x6f]], by decide, by decide⟩ :=
  beerReplyFrom_encodes Msgpuck.reference_lawful (delivers_beerReplyCb _ []) (by decide)
    ⟨[0x82], [([0x01], [0x07]), ([0x00], [0xcd, 0x80, 0x02])], [0x81],
      [([0x31], [0xa2, 0x6e, 0x6f])], by decide,
      .cons ⟨by decide, by decide⟩ (.cons ⟨by decide, by decide⟩ .nil), by decide,
      .cons ⟨by decide, by decide⟩ .nil, by decide⟩ _

end BeeC
