import BeeC.Wire.Value

namespace BeeC.Wire

open BeeC.Wire.MessagePack
open BeeC.Wire.Encoding

namespace Value

mutual

/-- Each unsigned number in two's complement. -/
def signed : Value → Value
  | uint value => int value.toInt64
  | array elements => array (signedElements elements)
  | map pairs => map (signedPairs pairs)
  | v => v

def signedElements : List Value → List Value
  | [] => []
  | x :: xs => signed x :: signedElements xs

def signedPairs : List (Value × Value) → List (Value × Value)
  | [] => []
  | (key, value) :: ps => (signed key, signed value) :: signedPairs ps

end

mutual

/-- The unsigned numbers of the tree fit in a signed variable. -/
def FitsSigned : Value → Prop
  | uint value => value.toNat < 2 ^ 63
  | array elements => ElementsFitSigned elements
  | map pairs => PairsFitSigned pairs
  | _ => True

def ElementsFitSigned : List Value → Prop
  | [] => True
  | x :: xs => FitsSigned x ∧ ElementsFitSigned xs

def PairsFitSigned : List (Value × Value) → Prop
  | [] => True
  | (key, value) :: ps => FitsSigned key ∧ FitsSigned value ∧ PairsFitSigned ps

end

theorem signedElements_eq (xs : List Value) : signedElements xs = xs.map signed := by
  induction xs with
  | nil => rfl
  | cons x xs ih => rw [signedElements, List.map_cons, ih]

theorem unpair_signedPairs (ps : List (Value × Value)) :
    unpair (signedPairs ps) = (unpair ps).map signed := by
  induction ps with
  | nil => rfl
  | cons p ps ih => rw [signedPairs, unpair_cons, unpair_cons, List.map_cons, List.map_cons, ih]

theorem signedPairs_length (ps : List (Value × Value)) :
    (signedPairs ps).length = ps.length := by
  induction ps with
  | nil => rfl
  | cons p ps ih => rw [signedPairs, List.length_cons, ih, List.length_cons]

theorem pairsFitSigned_iff (ps : List (Value × Value)) :
    PairsFitSigned ps ↔ ElementsFitSigned (unpair ps) := by
  induction ps with
  | nil => exact Iff.rfl
  | cons p ps ih => rw [PairsFitSigned, unpair_cons, ElementsFitSigned, ElementsFitSigned, ih]

theorem elementsFitSigned_iff (xs : List Value) :
    ElementsFitSigned xs ↔ ∀ x ∈ xs, FitsSigned x := by
  induction xs with
  | nil => exact iff_of_true trivial (fun _ h => nomatch h)
  | cons x xs ih => rw [ElementsFitSigned, List.forall_mem_cons, ih]

theorem nestingOfElements_signed {xs : List Value} (h : ∀ x ∈ xs, (signed x).nesting = x.nesting) :
    nestingOfElements (xs.map signed) = nestingOfElements xs := by
  induction xs with
  | nil => rfl
  | cons x xs ih =>
      rw [List.forall_mem_cons] at h
      rw [List.map_cons, nestingOfElements, nestingOfElements, h.1, ih h.2]

@[simp] theorem nesting_signed (v : Value) : (signed v).nesting = v.nesting := by
  induction v using Value.induct with
  | array elements ih =>
      rw [signed, signedElements_eq, nesting, nesting, nestingOfElements_signed ih]
  | map pairs ih =>
      rw [signed, nesting, nesting, nestingOfPairs_eq, nestingOfPairs_eq, unpair_signedPairs,
        nestingOfElements_signed ih]
  | _ => rfl

theorem containerHead_signed (v : Value) : v.signed.containerHead = v.containerHead := by
  cases v with
  | array elements =>
      rw [signed, signedElements_eq, containerHead, containerHead, List.length_map]
  | map pairs => rw [signed, containerHead, containerHead, signedPairs_length]
  | _ => rfl

theorem CountsBelow.signed {elementBound pairBound : Nat} {v : Value}
    (h : CountsBelow elementBound pairBound v) :
    CountsBelow elementBound pairBound v.signed := by
  induction v using Value.induct with
  | array elements ih =>
      rw [Value.signed, signedElements_eq]
      refine ⟨by rw [List.length_map]; exact h.1, (elementCountsBelow_iff _ _ _).mpr ?_⟩
      intro x hx
      obtain ⟨y, hy, rfl⟩ := List.mem_map.mp hx
      exact ih y hy (h.2.of_mem hy)
  | map pairs ih =>
      rw [Value.signed]
      refine ⟨by rw [signedPairs_length]; exact h.1, (pairCountsBelow_iff _ _ _).mpr ?_⟩
      rw [unpair_signedPairs, elementCountsBelow_iff]
      intro x hx
      obtain ⟨y, hy, rfl⟩ := List.mem_map.mp hx
      exact ih y hy (((pairCountsBelow_iff _ _ _).mp h.2).of_mem hy)
  | uint value => trivial
  | _ => exact h

theorem toInt_toInt64 (value : UInt64) :
    value.toInt64.toInt = Int.bmod value.toNat (2 ^ 64) := by
  rw [← Int64.toInt_toBitVec, BitVec.toInt_eq_toNat_bmod]
  rfl

theorem encodeSigned_of_fits {value : UInt64} (h : value.toNat < 2 ^ 63) :
    encodeSigned value.toInt64.toInt = encodeUint value.toNat := by
  rw [toInt_toInt64, Int.bmod_eq_of_le (by omega) (by omega), encodeSigned, if_neg (by omega),
    Int.toNat_natCast]

theorem head_encodeSigned_of_not_fits {value : UInt64} (h : ¬value.toNat < 2 ^ 63) :
    head (encodeSigned value.toInt64.toInt) = some (.int value.toInt64.toInt, []) := by
  have hneg : value.toInt64.toInt < 0 := by
    have hlt := value.toNat_lt
    rw [toInt_toInt64, Int.bmod]
    omega
  rw [encodeSigned, if_pos hneg, head_encodeInt value.toInt64.le_toInt hneg]

theorem encodeWith_signed (arrayHdr mapHdr : Nat → Bytes) {v : Value} (h : FitsSigned v) :
    encodeWith arrayHdr mapHdr v.signed = encodeWith arrayHdr mapHdr v := by
  induction v using Value.induct with
  | uint value => exact encodeSigned_of_fits h
  | array elements ih =>
      have hfits := (elementsFitSigned_iff elements).mp h
      rw [signed, encodeWith, encodeWith, encodeElements_eq, encodeElements_eq, signedElements_eq,
        List.length_map, List.map_map]
      exact congrArg _ (congrArg _ (List.map_congr_left fun x hx => ih x hx (hfits x hx)))
  | map pairs ih =>
      have hfits := (elementsFitSigned_iff _).mp ((pairsFitSigned_iff pairs).mp h)
      rw [signed, encodeWith, encodeWith, encodePairs_eq, encodePairs_eq, encodeElements_eq,
        encodeElements_eq, signedPairs_length, unpair_signedPairs, List.map_map]
      exact congrArg _ (congrArg _ (List.map_congr_left fun x hx => ih x hx (hfits x hx)))
  | _ => rfl

/-- If the numbers are kept in signed variables, the form of a map's header loses count, and the
bytes are the same, the numbers fit and every map is below the bound. -/
theorem fitsSigned_of_encodeWith_eq {arrayHdr mapHdr mapHdr' : Nat → Bytes}
    {elementBound largeBound pairBound : Nat}
    (hmap : ∀ n < largeBound, ∀ t t', mapHdr' n ++ t = mapHdr n ++ t' → n < pairBound ∧ t = t')
    (v : Value) (h : CountsBelow elementBound largeBound v) {t t' : Bytes}
    (heq : encodeWith arrayHdr mapHdr' v.signed ++ t = encodeWith arrayHdr mapHdr v ++ t') :
    (FitsSigned v ∧ CountsBelow elementBound pairBound v) ∧ t = t' := by
  induction v using Value.induct generalizing t t' with
  | uint value =>
      by_cases hfits : value.toNat < 2 ^ 63
      · rw [signed, encodeWith, encodeWith, encodeSigned_of_fits hfits] at heq
        exact ⟨⟨hfits, trivial⟩, List.append_cancel_left heq⟩
      · have hhead := congrArg head heq
        rw [signed, encodeWith, encodeWith, head_append (head_encodeSigned_of_not_fits hfits),
          head_append (head_encodeUint value.toNat_lt)] at hhead
        cases hhead
  | array elements ih =>
      rw [signed, encodeWith, encodeWith, List.append_assoc, List.append_assoc, encodeElements_eq,
        encodeElements_eq, signedElements_eq, List.length_map, List.map_map] at heq
      obtain ⟨hright, ht⟩ := forall_of_flatten_eq
        (fun x hx _ _ heq => ih x hx (h.2.of_mem hx) heq) (List.append_cancel_left heq)
      exact ⟨⟨(elementsFitSigned_iff _).mpr fun x hx => (hright x hx).1,
        h.1, (elementCountsBelow_iff _ _ _).mpr fun x hx => (hright x hx).2⟩, ht⟩
  | map pairs ih =>
      rw [signed, encodeWith, encodeWith, List.append_assoc, List.append_assoc, encodePairs_eq,
        encodePairs_eq, encodeElements_eq, encodeElements_eq, signedPairs_length,
        unpair_signedPairs, List.map_map] at heq
      obtain ⟨hcount, hrest⟩ := hmap _ h.1 _ _ heq
      have hlarge := (pairCountsBelow_iff _ _ _).mp h.2
      obtain ⟨hright, ht⟩ := forall_of_flatten_eq
        (fun x hx _ _ heq => ih x hx (hlarge.of_mem hx) heq) hrest
      exact ⟨⟨(pairsFitSigned_iff _).mpr
          ((elementsFitSigned_iff _).mpr fun x hx => (hright x hx).1),
        hcount, (pairCountsBelow_iff _ _ _).mpr
          ((elementCountsBelow_iff _ _ _).mpr fun x hx => (hright x hx).2)⟩, ht⟩
  | _ => exact ⟨⟨trivial, trivial⟩, List.append_cancel_left heq⟩

end Value

end BeeC.Wire
