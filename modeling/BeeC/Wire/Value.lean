import BeeC.Wire.Encoding

/-!
MessagePack value trees. An encoding is a choice of headers for arrays and maps; all else is
written in the shortest form.
-/

namespace BeeC.Wire

open BeeC.Wire.BigEndian
open BeeC.Wire.MessagePack
open BeeC.Wire.Encoding

/-- A byte string whose length fits in a header. -/
structure Chunk where
  bytes : Bytes
  length_lt : bytes.length < 2 ^ 32

inductive Value where
  | nil
  | bool (value : Bool)
  | uint (value : UInt64)
  | int (value : Int64)
  | float (bits : UInt32)
  | double (bits : UInt64)
  | str (text : Chunk)
  | bin (data : Chunk)
  | array (elements : List Value)
  | map (pairs : List (Value × Value))

namespace Value

/-- An induction over trees that treats a map's keys and values as its elements. -/
theorem induct {P : Value → Prop} (nil : P .nil) (bool : ∀ value, P (.bool value))
    (uint : ∀ value, P (.uint value)) (int : ∀ value, P (.int value))
    (float : ∀ bits, P (.float bits)) (double : ∀ bits, P (.double bits))
    (str : ∀ text, P (.str text)) (bin : ∀ data, P (.bin data))
    (array : ∀ elements, (∀ x ∈ elements, P x) → P (.array elements))
    (map : ∀ pairs, (∀ x ∈ unpair pairs, P x) → P (.map pairs)) : ∀ v, P v :=
  @Value.rec P (fun xs => ∀ x ∈ xs, P x) (fun ps => ∀ x ∈ unpair ps, P x)
    (fun p => P p.1 ∧ P p.2) nil bool uint int float double str bin array map
    (by simp) (by simp +contextual) (by simp [unpair])
    (by simp +contextual) (by simp +contextual)

/-- A number with a sign: negative in two's complement, otherwise as an unsigned one. -/
def encodeSigned (z : Int) : Bytes := if z < 0 then encodeInt z else encodeUint z.toNat

mutual

def encodeWith (arrayHdr mapHdr : Nat → Bytes) : Value → Bytes
  | nil => encodeNil
  | bool value => encodeBool value
  | uint value => encodeUint value.toNat
  | int value => encodeSigned value.toInt
  | float bits => encodeFloat bits.toNat
  | double bits => encodeDouble bits.toNat
  | str text => strHeader text.bytes.length ++ text.bytes
  | bin data => binHeader data.bytes.length ++ data.bytes
  | array elements => arrayHdr elements.length ++ encodeElements arrayHdr mapHdr elements
  | map pairs => mapHdr pairs.length ++ encodePairs arrayHdr mapHdr pairs

def encodeElements (arrayHdr mapHdr : Nat → Bytes) : List Value → Bytes
  | [] => []
  | x :: xs => encodeWith arrayHdr mapHdr x ++ encodeElements arrayHdr mapHdr xs

def encodePairs (arrayHdr mapHdr : Nat → Bytes) : List (Value × Value) → Bytes
  | [] => []
  | (key, value) :: ps =>
      encodeWith arrayHdr mapHdr key ++
        (encodeWith arrayHdr mapHdr value ++ encodePairs arrayHdr mapHdr ps)

end

mutual

/-- How many containers are open at once, at most, while the tree is written. -/
def nesting : Value → Nat
  | array elements => nestingOfElements elements + 1
  | map pairs => nestingOfPairs pairs + 1
  | _ => 0

def nestingOfElements : List Value → Nat
  | [] => 0
  | x :: xs => max (nesting x) (nestingOfElements xs)

def nestingOfPairs : List (Value × Value) → Nat
  | [] => 0
  | (key, value) :: ps => max (nesting key) (max (nesting value) (nestingOfPairs ps))

end

/-- The head of a container. -/
def containerHead : Value → Option Head
  | array elements => some (.array elements.length)
  | map pairs => some (.map pairs.length)
  | _ => none

theorem exists_containerHead {v : Value} (h : 0 < v.nesting) : ∃ hd, v.containerHead = some hd := by
  cases v with
  | array elements => exact ⟨_, rfl⟩
  | map pairs => exact ⟨_, rfl⟩
  | _ => exact absurd h (Nat.lt_irrefl 0)

mutual

/-- How many containers there are in the tree. -/
def containers : Value → Nat
  | array elements => containersOfElements elements + 1
  | map pairs => containersOfPairs pairs + 1
  | _ => 0

def containersOfElements : List Value → Nat
  | [] => 0
  | x :: xs => containers x + containersOfElements xs

def containersOfPairs : List (Value × Value) → Nat
  | [] => 0
  | (key, value) :: ps => containers key + (containers value + containersOfPairs ps)

end

mutual

/-- No container of the tree has as many elements or pairs as the bounds say. -/
def CountsBelow (elementBound pairBound : Nat) : Value → Prop
  | array elements => elements.length < elementBound ∧
      ElementCountsBelow elementBound pairBound elements
  | map pairs => pairs.length < pairBound ∧ PairCountsBelow elementBound pairBound pairs
  | _ => True

def ElementCountsBelow (elementBound pairBound : Nat) : List Value → Prop
  | [] => True
  | x :: xs => CountsBelow elementBound pairBound x ∧
      ElementCountsBelow elementBound pairBound xs

def PairCountsBelow (elementBound pairBound : Nat) : List (Value × Value) → Prop
  | [] => True
  | (key, value) :: ps => CountsBelow elementBound pairBound key ∧
      CountsBelow elementBound pairBound value ∧ PairCountsBelow elementBound pairBound ps

end

theorem encodePairs_eq (arrayHdr mapHdr : Nat → Bytes) (ps : List (Value × Value)) :
    encodePairs arrayHdr mapHdr ps = encodeElements arrayHdr mapHdr (unpair ps) := by
  induction ps with
  | nil => rfl
  | cons p ps ih => rw [encodePairs, unpair_cons, encodeElements, encodeElements, ih]

theorem nestingOfPairs_eq (ps : List (Value × Value)) :
    nestingOfPairs ps = nestingOfElements (unpair ps) := by
  induction ps with
  | nil => rfl
  | cons p ps ih => rw [nestingOfPairs, unpair_cons, nestingOfElements, nestingOfElements, ih]

theorem containersOfPairs_eq (ps : List (Value × Value)) :
    containersOfPairs ps = containersOfElements (unpair ps) := by
  induction ps with
  | nil => rfl
  | cons p ps ih =>
      rw [containersOfPairs, unpair_cons, containersOfElements, containersOfElements, ih]

theorem pairCountsBelow_iff (elementBound pairBound : Nat) (ps : List (Value × Value)) :
    PairCountsBelow elementBound pairBound ps ↔
      ElementCountsBelow elementBound pairBound (unpair ps) := by
  induction ps with
  | nil => exact Iff.rfl
  | cons p ps ih => rw [PairCountsBelow, unpair_cons, ElementCountsBelow, ElementCountsBelow, ih]

theorem encodeElements_eq (arrayHdr mapHdr : Nat → Bytes) (xs : List Value) :
    encodeElements arrayHdr mapHdr xs = (xs.map (encodeWith arrayHdr mapHdr)).flatten := by
  induction xs with
  | nil => rfl
  | cons x xs ih => rw [encodeElements, List.map_cons, List.flatten_cons, ih]

theorem elementCountsBelow_iff (elementBound pairBound : Nat) (xs : List Value) :
    ElementCountsBelow elementBound pairBound xs ↔
      ∀ x ∈ xs, CountsBelow elementBound pairBound x := by
  induction xs with
  | nil => exact iff_of_true trivial (fun _ h => nomatch h)
  | cons x xs ih => rw [ElementCountsBelow, List.forall_mem_cons, ih]

theorem ElementCountsBelow.of_mem {elementBound pairBound : Nat} {xs : List Value}
    (h : ElementCountsBelow elementBound pairBound xs) {x : Value} (hx : x ∈ xs) :
    CountsBelow elementBound pairBound x :=
  (elementCountsBelow_iff elementBound pairBound xs).mp h x hx

theorem isValue_encodeSigned (z : Int64) : IsValue (encodeSigned z.toInt) := by
  have hlow := z.le_toInt
  have hhigh := z.toInt_lt
  unfold encodeSigned
  split
  · exact isValue_encodeInt hlow ‹_›
  · exact isValue_encodeUint (by omega)

theorem isValue_encodeWith {arrayHdr mapHdr : Nat → Bytes} {elementBound pairBound : Nat}
    (harray : ∀ n < elementBound, head (arrayHdr n) = some (.array n, []))
    (hmap : ∀ n < pairBound, head (mapHdr n) = some (.map n, [])) (v : Value)
    (h : CountsBelow elementBound pairBound v) : IsValue (encodeWith arrayHdr mapHdr v) := by
  induction v using induct with
  | nil => exact (by decide : IsValue encodeNil)
  | bool value =>
      have hbool : ∀ value, IsValue (encodeBool value) := by decide
      exact hbool value
  | uint value => exact isValue_encodeUint value.toNat_lt
  | int value => exact isValue_encodeSigned value
  | float bits =>
      exact .of_item (by
        simp [item, head_store .float (rfl : layout (0xca : UInt8).toNat = some (4, .float))
          bits.toNat_lt, encodeWith, encodeFloat, Head.payload, Head.children])
  | double bits =>
      exact .of_item (by
        simp [item, head_store .double (rfl : layout (0xcb : UInt8).toNat = some (8, .double))
          bits.toNat_lt, encodeWith, encodeDouble, Head.payload, Head.children])
  | str text => exact isValue_str text.length_lt
  | bin data => exact isValue_bin data.length_lt
  | array elements ih =>
      rw [encodeWith, encodeElements_eq]
      refine isValue_container (harray _ h.1) rfl (by rw [List.length_map]; rfl) ?_
      intro x hx
      obtain ⟨y, hy, rfl⟩ := List.mem_map.mp hx
      exact ih y hy (h.2.of_mem hy)
  | map pairs ih =>
      rw [encodeWith, encodePairs_eq, encodeElements_eq]
      refine isValue_container (hmap _ h.1) rfl (by rw [List.length_map, unpair_length]; rfl) ?_
      intro x hx
      obtain ⟨y, hy, rfl⟩ := List.mem_map.mp hx
      exact ih y hy (((pairCountsBelow_iff _ _ _).mp h.2).of_mem hy)

/-- Two header forms for maps, of which the first loses count from a bound on. -/
theorem encodeWith_congr {arrayHdr mapHdr mapHdr' : Nat → Bytes} {elementBound pairBound : Nat}
    (hmap : ∀ n < pairBound, mapHdr' n = mapHdr n) (v : Value)
    (h : CountsBelow elementBound pairBound v) :
    encodeWith arrayHdr mapHdr' v = encodeWith arrayHdr mapHdr v := by
  induction v using induct with
  | array elements ih =>
      rw [encodeWith, encodeWith, encodeElements_eq, encodeElements_eq]
      exact congrArg _ (congrArg _ (List.map_congr_left fun x hx => ih x hx (h.2.of_mem hx)))
  | map pairs ih =>
      have hbelow := (pairCountsBelow_iff _ _ _).mp h.2
      rw [encodeWith, encodeWith, encodePairs_eq, encodePairs_eq, encodeElements_eq,
        encodeElements_eq, hmap _ h.1]
      exact congrArg _ (congrArg _ (List.map_congr_left fun x hx => ih x hx (hbelow.of_mem hx)))
  | _ => rfl

theorem CountsBelow.mono {elementBound pairBound largeBound : Nat} (hle : pairBound ≤ largeBound)
    {v : Value} (h : CountsBelow elementBound pairBound v) :
    CountsBelow elementBound largeBound v := by
  induction v using Value.induct with
  | array elements ih =>
      exact ⟨h.1, (elementCountsBelow_iff _ _ _).mpr fun x hx => ih x hx (h.2.of_mem hx)⟩
  | map pairs ih =>
      have hbelow := (pairCountsBelow_iff _ _ _).mp h.2
      exact ⟨lt_of_lt_of_le h.1 hle, (pairCountsBelow_iff _ _ _).mpr
        ((elementCountsBelow_iff _ _ _).mpr fun x hx => ih x hx (hbelow.of_mem hx))⟩
  | _ => trivial

/-- Two ways to write the elements of a list, of which the first may be wrong: if they give the same
bytes, it is right for each element. -/
theorem forall_of_flatten_eq {write write' : Value → Bytes} {Right : Value → Prop}
    {xs : List Value}
    (hxs : ∀ x ∈ xs, ∀ t t' : Bytes, write' x ++ t = write x ++ t' → Right x ∧ t = t')
    {t t' : Bytes} (heq : (xs.map write').flatten ++ t = (xs.map write).flatten ++ t') :
    (∀ x ∈ xs, Right x) ∧ t = t' := by
  induction xs with
  | nil => exact ⟨fun _ hx => (nomatch hx), heq⟩
  | cons x xs ih =>
      rw [List.forall_mem_cons] at hxs ⊢
      rw [List.map_cons, List.map_cons, List.flatten_cons, List.flatten_cons, List.append_assoc,
        List.append_assoc] at heq
      obtain ⟨hx, hrest⟩ := hxs.1 _ _ heq
      obtain ⟨hright, ht⟩ := ih hxs.2 hrest
      exact ⟨⟨hx, hright⟩, ht⟩

theorem countsBelow_of_encodeWith_eq {arrayHdr mapHdr mapHdr' : Nat → Bytes}
    {elementBound largeBound pairBound : Nat}
    (hmap : ∀ n < largeBound, ∀ t t', mapHdr' n ++ t = mapHdr n ++ t' → n < pairBound ∧ t = t')
    (v : Value) (h : CountsBelow elementBound largeBound v) {t t' : Bytes}
    (heq : encodeWith arrayHdr mapHdr' v ++ t = encodeWith arrayHdr mapHdr v ++ t') :
    CountsBelow elementBound pairBound v ∧ t = t' := by
  induction v using induct generalizing t t' with
  | array elements ih =>
      rw [encodeWith, encodeWith, List.append_assoc, List.append_assoc, encodeElements_eq,
        encodeElements_eq] at heq
      obtain ⟨hbelow, ht⟩ := forall_of_flatten_eq
        (fun x hx _ _ heq => ih x hx (h.2.of_mem hx) heq) (List.append_cancel_left heq)
      exact ⟨⟨h.1, (elementCountsBelow_iff _ _ _).mpr hbelow⟩, ht⟩
  | map pairs ih =>
      rw [encodeWith, encodeWith, List.append_assoc, List.append_assoc, encodePairs_eq,
        encodePairs_eq, encodeElements_eq, encodeElements_eq] at heq
      obtain ⟨hcount, hrest⟩ := hmap _ h.1 _ _ heq
      have hlarge := (pairCountsBelow_iff _ _ _).mp h.2
      obtain ⟨hbelow, ht⟩ := forall_of_flatten_eq
        (fun x hx _ _ heq => ih x hx (hlarge.of_mem hx) heq) hrest
      exact ⟨⟨hcount, (pairCountsBelow_iff _ _ _).mpr
        ((elementCountsBelow_iff _ _ _).mpr hbelow)⟩, ht⟩
  | _ => exact ⟨trivial, List.append_cancel_left heq⟩

end Value

end BeeC.Wire
