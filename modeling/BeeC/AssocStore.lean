import BeeC.AssocSearch

namespace BeeC

open BeeC.Wire.Probing

namespace MhTable

variable {κ ν : Type} [Inhabited ν] {K : Keyed κ ν}

/-- A table to which the node was put at a place that fits. -/
structure PutAt (K : Keyed κ ν) (h h' : MhTable ν) (v : ν) (x : Nat) : Prop where
  nBuckets : h'.nBuckets = h.nBuckets
  sized : h'.Sized
  places : h'.places = h.places.put x v

section PutAt

variable {h h' : MhTable ν} {v : ν} {x : Nat}

theorem PutAt.sound (hput : PutAt K h h' v x) (hsound : Sound K h) (hfits : Fits K h (K.key v) x) :
    Sound K h' where
  prime := by
    rw [hput.nBuckets]
    exact hsound.prime
  small := by
    rw [hput.nBuckets]
    exact hsound.small
  sized := hput.sized
  chained := by
    obtain ⟨step, hstep, hmarks⟩ := hfits.path
    rw [hput.nBuckets, hput.places]
    exact hsound.chained.put hstep hmarks hfits.only

theorem PutAt.holds (hput : PutAt K h h' v x) (hfits : Fits K h (K.key v) x) (w : ν) :
    h'.Holds w ↔ w = v ∨ (h.Holds w ∧ K.key w ≠ K.key v) := by
  unfold Holds
  rw [hput.nBuckets, hput.places]
  exact holds_put hfits.lt hfits.free hfits.only

theorem PutAt.held_of_none (hput : PutAt K h h' v x) (hx : x < h.nBuckets)
    (hnone : h.exist x = false) : h'.heldPlaces = h.heldPlaces + 1 := by
  unfold heldPlaces
  rw [hput.nBuckets, hput.places]
  exact held_put_of_none hx (value_eq_none.mpr hnone)

theorem PutAt.held_of_exist (hput : PutAt K h h' v x) (hexist : h.exist x = true) :
    h'.heldPlaces = h.heldPlaces := by
  unfold heldPlaces
  rw [hput.nBuckets, hput.places]
  apply held_put_of_some
  rw [value_of_exist hexist]
  rfl

theorem PutAt.used_of_used (hput : PutAt K h h' v x) (hused : (h.exist x || h.dirty x) = true) :
    h'.usedPlaces = h.usedPlaces := by
  unfold usedPlaces
  rw [hput.nBuckets, hput.places]
  apply used_put_of_used
  cases hexist : h.exist x with
  | true =>
      rw [value_of_exist hexist]
      rfl
  | false =>
      rw [hexist, Bool.false_or] at hused
      exact Bool.or_eq_true_iff.mpr (.inr hused)

theorem PutAt.used_of_unused (hput : PutAt K h h' v x) (hx : x < h.nBuckets)
    (hexist : h.exist x = false) (hdirty : h.dirty x = false) :
    h'.usedPlaces = h.usedPlaces + 1 := by
  unfold usedPlaces
  rw [hput.nBuckets, hput.places]
  exact used_put_of_unused hx (value_eq_none.mpr hexist) hdirty

theorem putAt_setExist (hsized : h.Sized) (hx : x < h.nBuckets) (v : ν) :
    PutAt K h ((h.setExist x).setNode x v) v x where
  nBuckets := rfl
  sized := by
    constructor
    · exact (Array.size_setIfInBounds).trans hsized.nodes
    · exact (Array.size_modify).trans hsized.words
  places := places_setNode_setExist hsized hx v

theorem putAt_setNode (hsized : h.Sized) (hx : x < h.nBuckets) (hexist : h.exist x = true) (v : ν) :
    PutAt K h (h.setNode x v) v x where
  nBuckets := rfl
  sized := by
    constructor
    · exact (Array.size_setIfInBounds).trans hsized.nodes
    · exact hsized.words
  places := places_setNode hsized hx v hexist

end PutAt

/-- What a table is after a node was stored in it. -/
structure Stored (K : Keyed κ ν) (h h' : MhTable ν) (v : ν) (x : Nat) (old : Option ν) :
    Prop where
  sound : Sound K h'
  rest : h' = { h with p := h'.p, b := h'.b, size := h'.size, nDirty := h'.nDirty }
  lt : x < h.nBuckets
  exist : h'.exist x = true
  node : h'.node x = v
  others : ∀ i, i ≠ x → h'.places.value i = h.places.value i
  holds : ∀ w, h'.Holds w ↔ w = v ∨ (h.Holds w ∧ K.key w ≠ K.key v)
  old : (old = none ∧ (∀ w, h.Holds w → K.key w ≠ K.key v) ∧ h'.size = mhInc h.size ∧
      h'.heldPlaces = h.heldPlaces + 1) ∨
    (∃ u, old = some u ∧ h.Holds u ∧ K.key u = K.key v ∧ h'.size = h.size ∧
      h'.heldPlaces = h.heldPlaces)
  used : (h'.usedPlaces = h.usedPlaces ∧ h'.nDirty = h.nDirty) ∨
    (h'.usedPlaces = h.usedPlaces + 1 ∧ h'.nDirty = mhInc h.nDirty)

theorem Stored.nBuckets {h h' : MhTable ν} {v : ν} {x : Nat} {old : Option ν}
    (hstored : Stored K h h' v x old) : h'.nBuckets = h.nBuckets := by
  rw [hstored.rest]

section Store

variable [DecidableEq κ]

theorem store_spec {h : MhTable ν} (hsound : Sound K h) (hused : h.usedPlaces < h.nBuckets)
    (v : ν) : ∃ h' x old, h.store K v = some (h', x, old) ∧ Stored K h h' v x old := by
  obtain ⟨h₁, x, hputSlot, hmarks, hsound₁, hfits⟩ := putSlot_spec hsound hused v
  have hn := hmarks.nBuckets
  have hx := hfits.lt
  have hword := hsound₁.sized.word_lt hx
  have hothers : ∀ {h₂}, PutAt K h₁ h₂ v x → ∀ i, i ≠ x →
      h₂.places.value i = h.places.value i := by
    intro h₂ hput i hi
    rw [hput.places, ← hmarks.value]
    exact if_neg hi
  have hholds : ∀ {h₂}, PutAt K h₁ h₂ v x → ∀ w,
      h₂.Holds w ↔ w = v ∨ (h.Holds w ∧ K.key w ≠ K.key v) := by
    intro h₂ hput w
    rw [hput.holds hfits, hmarks.holds]
  unfold store
  rw [hputSlot]
  dsimp only [Option.bind_eq_bind, Option.bind_some]
  cases hexist : h₁.exist x with
  | true =>
      have hput := putAt_setNode (K := K) hsound₁.sized hx hexist v
      have hkey : K.key (h₁.node x) = K.key v := by
        rcases hfits.free with hnone | hkey
        · rw [value_of_exist hexist] at hnone
          cases hnone
        · exact (hasKey_iff.mp hkey).2
      have hold : h.Holds (h₁.node x) :=
        (hmarks.holds _).mp ⟨x, hx, value_of_exist hexist⟩
      refine ⟨_, x, some (h₁.node x), rfl, hput.sound hsound₁ hfits, ?_, hn ▸ hx, hexist, ?_,
        hothers hput, hholds hput, .inr ⟨_, rfl, hold, hkey, ?_, ?_⟩, .inl ⟨?_, ?_⟩⟩
      · rw [hmarks.rest]
        rfl
      · rw [node_setNode _ (by rw [hsound₁.sized.nodes]; exact hx), if_pos rfl]
      · show h₁.size = h.size
        rw [hmarks.rest]
      · exact (hput.held_of_exist hexist).trans hmarks.held
      · rw [hput.used_of_used (by rw [hexist]; rfl), hmarks.used]
      · show h₁.nDirty = h.nDirty
        rw [hmarks.rest]
  | false =>
      have hput := putAt_setExist (K := K) hsound₁.sized hx v
      have hdirty : (h₁.setExist x).dirty x = h₁.dirty x := dirty_setExist h₁ hword x
      have hsize : h₁.size = h.size := by rw [hmarks.rest]
      have hnDirty : h₁.nDirty = h.nDirty := by rw [hmarks.rest]
      have hnodes : x < (h₁.setExist x).p.size := by
        show x < h₁.p.size
        rw [hsound₁.sized.nodes]
        exact hx
      have habsent : ∀ w, h.Holds w → K.key w ≠ K.key v := by
        rintro w hw heq
        obtain ⟨i, hi, hwi⟩ := (hmarks.holds w).mpr hw
        cases hfits.only i hi ⟨w, hwi, heq⟩
        rw [value_eq_none.mpr hexist] at hwi
        cases hwi
      have hput' : PutAt K h₁ { (h₁.setExist x).setNode x v with
          size := mhInc h₁.size
          nDirty := if (h₁.setExist x).dirty x then h₁.nDirty else mhInc h₁.nDirty } v x :=
        ⟨hput.nBuckets, ⟨hput.sized.nodes, hput.sized.words⟩, hput.places⟩
      refine ⟨_, x, none, rfl, hput'.sound hsound₁ hfits, ?_, hn ▸ hx, ?_, ?_,
        hothers hput', hholds hput', .inl ⟨rfl, habsent, ?_, ?_⟩, ?_⟩
      · rw [hmarks.rest]
        rfl
      · show (h₁.setExist x).exist x = true
        rw [exist_setExist h₁ hword, beq_self_eq_true, Bool.or_true]
      · exact (node_setNode (h₁.setExist x) hnodes v x).trans (if_pos rfl)
      · show mhInc h₁.size = mhInc h.size
        rw [hsize]
      · exact (hput'.held_of_none hx hexist).trans (congrArg (· + 1) hmarks.held)
      · show (_ ∧ (if (h₁.setExist x).dirty x then h₁.nDirty else mhInc h₁.nDirty) = h.nDirty) ∨
          (_ ∧ (if (h₁.setExist x).dirty x then h₁.nDirty else mhInc h₁.nDirty) = mhInc h.nDirty)
        rw [hdirty, hnDirty]
        cases hd : h₁.dirty x with
        | true =>
            have hused' := hput'.used_of_used (by rw [hd, Bool.or_true])
            exact .inl ⟨hused'.trans hmarks.used, if_pos rfl⟩
        | false =>
            have hused' := hput'.used_of_unused hx hexist hd
            exact .inr ⟨hused'.trans (congrArg (· + 1) hmarks.used), if_neg Bool.false_ne_true⟩

end Store

/-- What a table is after the node in one of its places was taken out. -/
structure Freed (K : Keyed κ ν) (h h' : MhTable ν) (v : ν) : Prop where
  sound : Sound K h'
  rest : h' = { h with b := h'.b, size := h'.size, nDirty := h'.nDirty }
  size : h'.size = mhDec h.size
  held : h.heldPlaces = h'.heldPlaces + 1
  value : ∀ i w, h'.places.value i = some w → h.places.value i = some w
  holds : ∀ w, h'.Holds w ↔ h.Holds w ∧ K.key w ≠ K.key v
  used : (h'.usedPlaces = h.usedPlaces ∧ h'.nDirty = h.nDirty) ∨
    (h.usedPlaces = h'.usedPlaces + 1 ∧ h'.nDirty = mhDec h.nDirty)

theorem free_spec {h : MhTable ν} (hsound : Sound K h) {x : Nat} (hx : x < h.nBuckets)
    (hexist : h.exist x = true) : Freed K h (h.free x) (h.node x) := by
  have hplaces : (h.free x).places = h.places.erase x := places_setFree hsound.sized hx
  have hvalue := value_of_exist hexist
  refine ⟨⟨hsound.prime, hsound.small, ?_, ?_⟩, rfl, rfl, ?_, ?_, ?_, ?_⟩
  · exact ⟨hsound.sized.nodes, (Array.size_modify).trans hsound.sized.words⟩
  · show Chained _ _ h.nBuckets _
    rw [hplaces]
    exact hsound.chained.erase x
  · unfold heldPlaces
    rw [hplaces]
    exact held_erase hx hvalue
  · intro i w hw
    rw [hplaces] at hw
    unfold Slots.erase at hw
    dsimp only at hw
    split at hw
    · cases hw
    · exact hw
  · intro w
    unfold Holds
    rw [hplaces]
    exact hsound.chained.holds_erase hx hvalue
  · have hdirty : (h.setFree x).dirty x = h.dirty x := dirty_setFree h (hsound.sized.word_lt hx) x
    show (_ ∧ (if (h.setFree x).dirty x then h.nDirty else mhDec h.nDirty) = h.nDirty) ∨
      (_ ∧ (if (h.setFree x).dirty x then h.nDirty else mhDec h.nDirty) = mhDec h.nDirty)
    rw [hdirty]
    unfold usedPlaces
    rw [hplaces]
    cases hd : h.dirty x with
    | true => exact .inl ⟨used_erase_of_marked hd, if_pos rfl⟩
    | false => exact .inr ⟨used_erase_of_not_marked hx hvalue hd, if_neg Bool.false_ne_true⟩

/-- What the shadow is after `_mh(resize)` has moved a node to it. -/
structure Moved (K : Keyed κ ν) (s s' : MhTable ν) (v : ν) : Prop where
  sound : Sound K s'
  rest : s' = { s with p := s'.p, b := s'.b, nDirty := s'.nDirty }
  nDirty : s'.nDirty = mhInc s.nDirty
  used : s'.usedPlaces ≤ s.usedPlaces + 1
  holds : ∀ w, s'.Holds w ↔ w = v ∨ (s.Holds w ∧ K.key w ≠ K.key v)

theorem move_spec [DecidableEq κ] {s : MhTable ν} (hsound : Sound K s)
    (hused : s.usedPlaces < s.nBuckets) (v : ν) :
    ∃ s₁ n, s.putSlot K v = some (s₁, n) ∧ Moved K s (s₁.adopt n v) v := by
  obtain ⟨s₁, n, hputSlot, hmarks, hsound₁, hfits⟩ := putSlot_spec hsound hused v
  refine ⟨s₁, n, hputSlot, ?_⟩
  have hput := putAt_setExist (K := K) hsound₁.sized hfits.lt v
  have hput' : PutAt K s₁ (s₁.adopt n v) v n :=
    ⟨hput.nBuckets, ⟨hput.sized.nodes, hput.sized.words⟩, hput.places⟩
  have hnDirty : s₁.nDirty = s.nDirty := by rw [hmarks.rest]
  refine ⟨hput'.sound hsound₁ hfits, ?_, ?_, ?_, ?_⟩
  · rw [hmarks.rest]
    rfl
  · show mhInc s₁.nDirty = mhInc s.nDirty
    rw [hnDirty]
  · rw [← hmarks.used]
    by_cases hused : (s₁.exist n || s₁.dirty n) = true
    · rw [hput'.used_of_used hused]
      exact Nat.le_succ _
    · rw [Bool.not_eq_true, Bool.or_eq_false_iff] at hused
      exact le_of_eq (hput'.used_of_unused hfits.lt hused.1 hused.2)
  · intro w
    rw [hput'.holds hfits, hmarks.holds]

end MhTable

end BeeC
