import BeeC.Wire.Encoding
import BeeC.Proto

namespace BeeC

open BeeC.Wire.BigEndian
open BeeC.Wire.MessagePack
open BeeC.Wire.Encoding

/-- The prefix of a payload of the given length. -/
def lengthPrefix (length : Nat) : Bytes :=
  if length ≤ 0xffffffff then 0xce :: store 4 length else 0xcf :: store 8 length

/-- A length prefix and as many bytes as it says. -/
def Framed (frame payload : Bytes) : Prop :=
  payload.length < 2 ^ 64 ∧ frame = lengthPrefix payload.length ++ payload

theorem lengthPrefix_length_le (length : Nat) : (lengthPrefix length).length ≤ 9 := by
  unfold lengthPrefix
  split <;> simp

theorem Framed.unique {frame payload payload' : Bytes} (h : Framed frame payload)
    (h' : Framed frame payload') : payload = payload' := by
  have heq := h.2.symm.trans h'.2
  unfold lengthPrefix at heq
  split at heq <;> split at heq
  · simp only [List.cons_append, List.cons.injEq, true_and] at heq
    exact (List.append_inj heq (by simp)).2
  · simp at heq
  · simp at heq
  · simp only [List.cons_append, List.cons.injEq, true_and] at heq
    exact (List.append_inj heq (by simp)).2

/-- A field's value: a number, a text, or the bytes of a value of another kind. -/
inductive Field where
  | number (n : Nat)
  | text (bytes : Bytes)
  | value (bytes : Bytes)
  deriving DecidableEq, Repr

def Field.of (bytes : Bytes) : Field :=
  match uintOf bytes, textOf bytes with
  | some n, _ => .number n
  | none, some str => .text str
  | none, none => .value bytes

/-- A request as it is read from a payload. -/
structure Package where
  code : Nat
  sync : Nat
  body : List (Nat × Field)
  deriving DecidableEq, Repr

def fieldOfPair (p : Bytes × Bytes) : Option (Nat × Field) :=
  (uintOf p.1).map fun key => (key, .of p.2)

/-- The code and the sync from the pairs of a header that has these two keys. -/
def headerOfPairs (ps : List (Bytes × Bytes)) : Option (Nat × Nat) :=
  match ps.mapM fieldOfPair with
  | some [(0, .number code), (1, .number sync)] => some (code, sync)
  | _ => none

/-- Decode a payload: two maps, and nothing left over. -/
def decodePackage (payload : Bytes) : Option Package :=
  match mapOf payload with
  | none => none
  | some (header, rest) =>
      match mapOf rest with
      | some (body, []) => do
          let (code, sync) ← headerOfPairs header
          let body ← body.mapM fieldOfPair
          return ⟨code, sync, body⟩
      | _ => none

theorem uintOf_encodeUint {n : Nat} (hn : n < 2 ^ 64) : uintOf (encodeUint n) = some n := by
  simp [uintOf, head_encodeUint hn]

theorem textOf_str {text : Bytes} (h : text.length < 2 ^ 32) :
    textOf (strHeader text.length ++ text) = some text := by
  simp [textOf, head_append (head_strHeader h)]

@[simp] theorem Field.of_encodeUint {n : Nat} (hn : n < 2 ^ 64) :
    Field.of (encodeUint n) = .number n := by
  simp [Field.of, uintOf_encodeUint hn]

@[simp] theorem Field.of_str {text : Bytes} (h : text.length < 2 ^ 32) :
    Field.of (strHeader text.length ++ text) = .text text := by
  have huint : uintOf (strHeader text.length ++ text) = none := by
    simp [uintOf, head_append (head_strHeader h)]
  simp [Field.of, huint, textOf_str h]

theorem Field.of_array {array : Bytes} (h : kindOf array = some .array) :
    Field.of array = .value array := by
  simp only [kindOf, Option.map_eq_some_iff] at h
  obtain ⟨⟨hd, rest⟩, hhead, hkind⟩ := h
  cases hd with
  | array count => simp [Field.of, uintOf, textOf, hhead]
  | _ => cases hkind

/-- The header map of a request. -/
def encodeHeaderMap (code sync : Nat) : Bytes :=
  mapHeader 2 ++ (unpair [(encodeUint 0, encodeUint code), (encodeUint 1, encodeUint sync)]).flatten

theorem encodeHeaderMap_length_le {code : Nat} (hcode : code < 0x80) (sync : Nat) :
    (encodeHeaderMap code sync).length ≤ 13 := by
  have hshort : (encodeUint code).length = 1 := by simp [encodeUint, hcode]
  have hone : (encodeUint 0).length = 1 ∧ (encodeUint 1).length = 1 ∧ (mapHeader 2).length = 1 := by
    decide
  have hsync := encodeUint_length_le sync
  simp [encodeHeaderMap, unpair, hshort, hone]
  omega

/-- An entry of the body as the bytes of its key and its value. -/
def entryPair (entry : BodyKey × Bytes) : Bytes × Bytes :=
  (encodeUint entry.1.id.toNat, entry.2)

/-- The entries of the body, one behind the other. -/
def encodeEntries (entries : List (BodyKey × Bytes)) : Bytes :=
  (unpair (entries.map entryPair)).flatten

@[simp] theorem encodeEntries_nil : encodeEntries [] = [] := rfl

@[simp] theorem encodeEntries_cons (entry : BodyKey × Bytes) (entries : List (BodyKey × Bytes)) :
    encodeEntries (entry :: entries) =
      encodeUint entry.1.id.toNat ++ (entry.2 ++ encodeEntries entries) := by
  simp [encodeEntries, entryPair]

theorem encodeEntries_append (entries more : List (BodyKey × Bytes)) :
    encodeEntries (entries ++ more) = encodeEntries entries ++ encodeEntries more := by
  simp [encodeEntries]

theorem isValue_of_mem_entries {entries : List (BodyKey × Bytes)}
    (h : ∀ entry ∈ entries, IsValue entry.2) :
    ∀ x ∈ unpair (entries.map entryPair), IsValue x := by
  induction entries with
  | nil => simp [unpair]
  | cons entry entries ih =>
      have hkey : IsValue (encodeUint entry.1.id.toNat) :=
        isValue_encodeUint (lt_trans entry.1.id.toNat_lt (by decide))
      intro x hx
      simp only [List.map_cons, unpair_cons, List.mem_cons] at hx
      rcases hx with rfl | rfl | hx
      · exact hkey
      · exact h entry (by simp)
      · exact ih (fun e he => h e (by simp [he])) x hx

/-- What the fields of an encoded body are read as. -/
def readEntry (entry : BodyKey × Bytes) : Nat × Field := (entry.1.id.toNat, .of entry.2)

/-- An entry whose value is a number. -/
def numberEntry (field : BodyKey) (n : UInt64) : BodyKey × Bytes := (field, encodeUint n.toNat)

/-- An entry whose value is a text. -/
def textEntry (field : BodyKey) (text : Bytes) : BodyKey × Bytes :=
  (field, strHeader text.length ++ text)

theorem isValue_numberEntry (field : BodyKey) (n : UInt64) : IsValue (numberEntry field n).2 :=
  isValue_encodeUint n.toNat_lt

@[simp] theorem readEntry_numberEntry (field : BodyKey) (n : UInt64) :
    readEntry (numberEntry field n) = (field.id.toNat, .number n.toNat) := by
  rw [readEntry, numberEntry, Field.of_encodeUint n.toNat_lt]

theorem readEntry_textEntry (field : BodyKey) {text : Bytes} (h : text.length < 2 ^ 32) :
    readEntry (textEntry field text) = (field.id.toNat, .text text) := by
  rw [readEntry, textEntry, Field.of_str h]

theorem mapM_entryPair (entries : List (BodyKey × Bytes)) :
    (entries.map entryPair).mapM fieldOfPair = some (entries.map readEntry) := by
  induction entries with
  | nil => rfl
  | cons entry entries ih =>
      have hkey : uintOf (encodeUint entry.1.id.toNat) = some entry.1.id.toNat :=
        uintOf_encodeUint (lt_trans entry.1.id.toNat_lt (by decide))
      simp [List.mapM_cons, ih, fieldOfPair, entryPair, hkey, readEntry]

theorem headerOfPairs_eq {code sync : Nat} (hcode : code < 2 ^ 64) (hsync : sync < 2 ^ 64) :
    headerOfPairs [(encodeUint 0, encodeUint code), (encodeUint 1, encodeUint sync)] =
      some (code, sync) := by
  simp [headerOfPairs, fieldOfPair, uintOf_encodeUint, Field.of_encodeUint hcode,
    Field.of_encodeUint hsync]

theorem mapOf_encodeHeaderMap {code sync : Nat} (hcode : code < 2 ^ 64) (hsync : sync < 2 ^ 64)
    (tail : Bytes) : mapOf (encodeHeaderMap code sync ++ tail) =
      some ([(encodeUint 0, encodeUint code), (encodeUint 1, encodeUint sync)], tail) := by
  rw [encodeHeaderMap, List.append_assoc]
  refine mapOf_append (@head_mapHeader 2 (by decide)) ?_ tail
  simp [unpair, isValue_encodeUint, isValue_encodeUint hcode, isValue_encodeUint hsync]

theorem decodePackage_eq {code sync : Nat} (hcode : code < 2 ^ 64) (hsync : sync < 2 ^ 64)
    {entries : List (BodyKey × Bytes)} (hcount : entries.length < 2 ^ 32)
    (h : ∀ entry ∈ entries, IsValue entry.2) :
    decodePackage (encodeHeaderMap code sync ++
      (mapHeader entries.length ++ encodeEntries entries)) =
        some ⟨code, sync, entries.map readEntry⟩ := by
  have hbody : mapOf (mapHeader entries.length ++ encodeEntries entries) =
      some (entries.map entryPair, []) := by
    have hhead := head_mapHeader hcount
    rw [← List.length_map entryPair] at hhead
    have := mapOf_append hhead (isValue_of_mem_entries h) []
    rwa [List.append_nil, List.length_map] at this
  simp only [decodePackage, mapOf_encodeHeaderMap hcode hsync, hbody,
    headerOfPairs_eq hcode hsync, mapM_entryPair]
  rfl

end BeeC
