import BeeC.Assoc

namespace BeeC

open BeeC.Wire.Probing

namespace MhTable

variable {κ ν : Type}

/-! The bits of the words. -/

theorem and_bit_ne_zero (w : BitVec 32) {k : Nat} (hk : k < 32) :
    ((w &&& 1#32 <<< k) != 0) = w.getLsbD k := by
  rw [← BitVec.twoPow_eq, BitVec.and_twoPow]
  cases hbit : w.getLsbD k with
  | false => simp
  | true =>
      have hne : BitVec.twoPow 32 k ≠ 0#32 := by
        intro heq
        have hget := congrArg (fun v => v.getLsbD k) heq
        simp [hk] at hget
      simpa using hne

theorem exist_eq (h : MhTable ν) (i : Nat) :
    h.exist i = (h.b.getD (i >>> 4) 0).getLsbD (i % 16) :=
  and_bit_ne_zero _ (by omega)

theorem dirty_eq (h : MhTable ν) (i : Nat) :
    h.dirty i = (h.b.getD (i >>> 4) 0).getLsbD (i % 16 + 16) :=
  and_bit_ne_zero _ (by omega)

theorem getD_modify {α : Type} (a : Array α) (f : α → α) (d : α) {i : Nat} (hi : i < a.size)
    (j : Nat) : (a.modify i f).getD j d = if j = i then f (a.getD i d) else a.getD j d := by
  rw [Array.getD_eq_getD_getElem?, Array.getD_eq_getD_getElem?, Array.getD_eq_getD_getElem?,
    Array.getElem?_modify]
  by_cases hij : i = j
  · subst hij
    simp [hi]
  · rw [if_neg hij, if_neg (Ne.symm hij)]

theorem getLsbD_or_bit (w : BitVec 32) (j : Nat) {k : Nat} (hk : k < 32) :
    (w ||| 1#32 <<< j).getLsbD k = (w.getLsbD k || decide (k = j)) := by
  rw [← BitVec.twoPow_eq, BitVec.getLsbD_or, BitVec.getLsbD_twoPow]
  by_cases hkj : j = k
  · subst hkj
    simp [hk]
  · simp [hkj, Ne.symm hkj]

theorem getLsbD_and_not_bit (w : BitVec 32) (j : Nat) {k : Nat} (hk : k < 32) :
    (w &&& ~~~(1#32 <<< j)).getLsbD k = (w.getLsbD k && !decide (k = j)) := by
  rw [← BitVec.twoPow_eq, BitVec.getLsbD_and, BitVec.getLsbD_not, BitVec.getLsbD_twoPow]
  by_cases hkj : j = k
  · subst hkj
    simp [hk]
  · simp [hkj, hk, Ne.symm hkj]

theorem eq_iff_word_bit (i j : Nat) : j = i ↔ j >>> 4 = i >>> 4 ∧ j % 16 = i % 16 := by
  rw [Nat.shiftRight_eq_div_pow, Nat.shiftRight_eq_div_pow]
  omega

section Bits

variable (h : MhTable ν) {i : Nat} (hi : i >>> 4 < h.b.size) (j : Nat)

include hi

theorem exist_setExist : (h.setExist i).exist j = (h.exist j || j == i) := by
  rw [exist_eq, exist_eq]
  unfold setExist
  rw [getD_modify _ _ _ hi]
  by_cases hword : j >>> 4 = i >>> 4
  · rw [if_pos hword, getLsbD_or_bit _ _ (by omega), hword]
    congr 1
    rw [Bool.eq_iff_iff, beq_iff_eq, decide_eq_true_iff, eq_iff_word_bit i j]
    exact ⟨fun hbit => ⟨hword, hbit⟩, fun hboth => hboth.2⟩
  · have hne : (j == i) = false := beq_false_of_ne fun heq => hword (heq ▸ rfl)
    rw [if_neg hword, hne, Bool.or_false]

theorem dirty_setExist : (h.setExist i).dirty j = h.dirty j := by
  rw [dirty_eq, dirty_eq]
  unfold setExist
  rw [getD_modify _ _ _ hi]
  by_cases hword : j >>> 4 = i >>> 4
  · rw [if_pos hword, getLsbD_or_bit _ _ (by omega), hword, decide_eq_false (by omega),
      Bool.or_false]
  · rw [if_neg hword]

theorem exist_setFree : (h.setFree i).exist j = (h.exist j && !(j == i)) := by
  rw [exist_eq, exist_eq]
  unfold setFree
  rw [getD_modify _ _ _ hi]
  by_cases hword : j >>> 4 = i >>> 4
  · rw [if_pos hword, getLsbD_and_not_bit _ _ (by omega), hword]
    congr 2
    rw [Bool.eq_iff_iff, beq_iff_eq, decide_eq_true_iff, eq_iff_word_bit i j]
    exact ⟨fun hbit => ⟨hword, hbit⟩, fun hboth => hboth.2⟩
  · have hne : (j == i) = false := beq_false_of_ne fun heq => hword (heq ▸ rfl)
    rw [if_neg hword, hne, Bool.not_false, Bool.and_true]

theorem dirty_setFree : (h.setFree i).dirty j = h.dirty j := by
  rw [dirty_eq, dirty_eq]
  unfold setFree
  rw [getD_modify _ _ _ hi]
  by_cases hword : j >>> 4 = i >>> 4
  · rw [if_pos hword, getLsbD_and_not_bit _ _ (by omega), hword, decide_eq_false (by omega),
      Bool.not_false, Bool.and_true]
  · rw [if_neg hword]

theorem exist_setDirty : (h.setDirty i).exist j = h.exist j := by
  rw [exist_eq, exist_eq]
  unfold setDirty
  rw [getD_modify _ _ _ hi]
  by_cases hword : j >>> 4 = i >>> 4
  · rw [if_pos hword, getLsbD_or_bit _ _ (by omega), hword, decide_eq_false (by omega),
      Bool.or_false]
  · rw [if_neg hword]

theorem dirty_setDirty : (h.setDirty i).dirty j = (h.dirty j || j == i) := by
  rw [dirty_eq, dirty_eq]
  unfold setDirty
  rw [getD_modify _ _ _ hi]
  by_cases hword : j >>> 4 = i >>> 4
  · rw [if_pos hword, getLsbD_or_bit _ _ (by omega), hword]
    congr 1
    rw [Bool.eq_iff_iff, beq_iff_eq, decide_eq_true_iff, eq_iff_word_bit i j]
    constructor
    · intro hbit
      exact ⟨hword, Nat.add_right_cancel hbit⟩
    · rintro ⟨-, hbit⟩
      rw [hbit]
  · have hne : (j == i) = false := beq_false_of_ne fun heq => hword (heq ▸ rfl)
    rw [if_neg hword, hne, Bool.or_false]

end Bits

/-- The arrays are as long as the number of places asks for. -/
structure Sized (h : MhTable ν) : Prop where
  nodes : h.p.size = h.nBuckets
  words : h.b.size = h.nBuckets / 16 + 1

theorem Sized.word_lt {h : MhTable ν} (hsized : h.Sized) {i : Nat} (hi : i < h.nBuckets) :
    i >>> 4 < h.b.size := by
  rw [hsized.words, Nat.shiftRight_eq_div_pow]
  omega

variable [Inhabited ν]

theorem node_setNode (h : MhTable ν) {x : Nat} (hx : x < h.p.size) (v : ν) (i : Nat) :
    (h.setNode x v).node i = if i = x then v else h.node i := by
  unfold node setNode
  rw [Array.getD_eq_getD_getElem?, Array.getD_eq_getD_getElem?, Array.getElem?_setIfInBounds]
  by_cases hix : x = i
  · subst hix
    simp [hx]
  · rw [if_neg hix, if_neg (Ne.symm hix)]

/-! The places of a table. -/

/-- The nodes that exist are the values of the places, and a dirty place is marked. -/
def places (h : MhTable ν) : Slots ν where
  value i := if h.exist i then some (h.node i) else none
  marked := h.dirty

theorem value_of_exist {h : MhTable ν} {i : Nat} (hi : h.exist i = true) :
    h.places.value i = some (h.node i) := if_pos hi

theorem value_eq_none {h : MhTable ν} {i : Nat} : h.places.value i = none ↔ h.exist i = false := by
  show (if h.exist i then some (h.node i) else none) = none ↔ _
  split
  · next hi => simp [hi]
  · next hi => simp [hi]

theorem value_eq_some {h : MhTable ν} {i : Nat} {v : ν} :
    h.places.value i = some v ↔ h.exist i = true ∧ h.node i = v := by
  show (if h.exist i then some (h.node i) else none) = some v ↔ _
  split
  · next hi => simp [hi]
  · next hi => simp [hi]

theorem hasKey_iff {K : Keyed κ ν} {h : MhTable ν} {k : κ} {i : Nat} :
    h.places.HasKey K.key k i ↔ h.exist i = true ∧ K.key (h.node i) = k := by
  constructor
  · rintro ⟨v, hv, hk⟩
    obtain ⟨hi, rfl⟩ := value_eq_some.mp hv
    exact ⟨hi, hk⟩
  · rintro ⟨hi, hk⟩
    exact ⟨h.node i, value_of_exist hi, hk⟩

section Slots

variable {h : MhTable ν} (hsized : h.Sized) {x : Nat} (hx : x < h.nBuckets)

include hsized hx

theorem places_setDirty : (h.setDirty x).places = h.places.mark x := by
  have hword := hsized.word_lt hx
  unfold places Slots.mark
  congr 1
  · funext i
    rw [exist_setDirty h hword]
    rfl
  · funext i
    exact dirty_setDirty h hword i

theorem places_setNode_setExist (v : ν) : ((h.setExist x).setNode x v).places = h.places.put x v := by
  have hword := hsized.word_lt hx
  unfold places Slots.put
  congr 1
  · funext i
    show (if (h.setExist x).exist i then some (((h.setExist x).setNode x v).node i) else none) = _
    rw [exist_setExist h hword, node_setNode _ (by rw [← hsized.nodes] at hx; exact hx)]
    by_cases hi : i = x
    · simp [hi]
    · simp [hi]
      rfl
  · funext i
    exact dirty_setExist h hword i

theorem places_setNode (v : ν) (hexist : h.exist x = true) :
    (h.setNode x v).places = h.places.put x v := by
  unfold places Slots.put
  congr 1
  funext i
  show (if h.exist i then some ((h.setNode x v).node i) else none) = _
  rw [node_setNode _ (by rw [hsized.nodes]; exact hx)]
  by_cases hi : i = x
  · simp [hi, hexist]
  · simp [hi]

theorem places_setFree : (h.setFree x).places = h.places.erase x := by
  have hword := hsized.word_lt hx
  unfold places Slots.erase
  congr 1
  · funext i
    rw [exist_setFree h hword]
    by_cases hi : i = x
    · simp [hi]
    · simp [hi]
      rfl
  · funext i
    exact dirty_setFree h hword i

end Slots

end MhTable

end BeeC
