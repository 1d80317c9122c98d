import Mathlib.Data.Set.Card
import Mathlib.Data.Nat.ModEq
import Mathlib.Data.Nat.Prime.Basic

/-!
Open addressing. Values lie in places, and each key has a path that it is looked for along. A place
is marked where the path of some value goes on behind it. Double hashing gives paths that come to
every place of a table of prime size.
-/

namespace BeeC.Wire.Probing

/-- Double hashing: the place that a path comes to after a number of steps. -/
def probe (start inc n step : Nat) : Nat := (start + step * inc) % n

section Probe

variable {start inc n : Nat}

theorem probe_lt (hn : 0 < n) (step : Nat) : probe start inc n step < n := Nat.mod_lt _ hn

theorem probe_zero (hstart : start < n) : probe start inc n 0 = start := by
  rw [probe, Nat.zero_mul, Nat.add_zero, Nat.mod_eq_of_lt hstart]

theorem probe_succ (hinc : inc < n) (step : Nat) :
    probe start inc n (step + 1) =
      if n ≤ probe start inc n step + inc then probe start inc n step + inc - n
      else probe start inc n step + inc := by
  have hlt := @probe_lt start inc n (Nat.zero_lt_of_lt hinc) step
  have hsucc : probe start inc n (step + 1) = (probe start inc n step + inc) % n := by
    unfold probe
    rw [Nat.mod_add_mod, Nat.succ_mul, Nat.add_assoc]
  rw [hsucc]
  split
  · next hge =>
      rw [Nat.mod_eq_sub_mod hge, Nat.mod_eq_of_lt]
      omega
  · next hless => exact Nat.mod_eq_of_lt (Nat.lt_of_not_le hless)

theorem probe_injOn (hprime : n.Prime) (hpos : 0 < inc) (hinc : inc < n) :
    Set.InjOn (probe start inc n) (Finset.range n : Set Nat) := by
  intro s hs t ht heq
  rw [Finset.mem_coe, Finset.mem_range] at hs ht
  have hcop : Nat.gcd n inc = 1 := by
    apply (Nat.Prime.coprime_iff_not_dvd hprime).mpr
    intro hdvd
    exact absurd (Nat.le_of_dvd hpos hdvd) (Nat.not_le.mpr hinc)
  have hmul : s * inc ≡ t * inc [MOD n] := Nat.ModEq.add_left_cancel' start heq
  have hmod : s ≡ t [MOD n] := Nat.ModEq.cancel_right_of_coprime hcop hmul
  rwa [Nat.ModEq, Nat.mod_eq_of_lt hs, Nat.mod_eq_of_lt ht] at hmod

theorem exists_probe (hprime : n.Prime) (hpos : 0 < inc) (hinc : inc < n) {i : Nat} (hi : i < n) :
    ∃ step < n, probe start inc n step = i := by
  have hmaps : Set.MapsTo (probe start inc n) (Finset.range n : Set Nat) (Finset.range n) := by
    intro step _
    exact Finset.mem_coe.mpr (Finset.mem_range.mpr (probe_lt hprime.pos step))
  have hsurj := Finset.surjOn_of_injOn_of_card_le _ hmaps (probe_injOn hprime hpos hinc) le_rfl
  obtain ⟨step, hstep, heq⟩ := hsurj (Finset.mem_coe.mpr (Finset.mem_range.mpr hi))
  exact ⟨step, Finset.mem_range.mp (Finset.mem_coe.mp hstep), heq⟩

end Probe

/-- Places that hold a value or none, and are marked or not. -/
structure Slots (V : Type) where
  value : Nat → Option V
  marked : Nat → Bool

namespace Slots

variable {K V : Type}

/-- Put a value in a place. -/
def put (P : Slots V) (x : Nat) (v : V) : Slots V :=
  { P with value := fun i => if i = x then some v else P.value i }

/-- Take the value out of a place. -/
def erase (P : Slots V) (x : Nat) : Slots V :=
  { P with value := fun i => if i = x then none else P.value i }

/-- Mark a place. -/
def mark (P : Slots V) (x : Nat) : Slots V :=
  { P with marked := fun i => P.marked i || i == x }

/-- One of the first `n` places holds the value. -/
def Holds (P : Slots V) (n : Nat) (v : V) : Prop := ∃ i < n, P.value i = some v

/-- The place holds a value of the key. -/
def HasKey (P : Slots V) (key : V → K) (k : K) (i : Nat) : Prop :=
  ∃ v, P.value i = some v ∧ key v = k

/-- How many of the first `n` places hold a value. -/
def held (P : Slots V) (n : Nat) : Nat :=
  ((Finset.range n).filter fun i => (P.value i).isSome = true).card

/-- How many of the first `n` places hold a value or are marked. -/
def used (P : Slots V) (n : Nat) : Nat :=
  ((Finset.range n).filter fun i => ((P.value i).isSome || P.marked i) = true).card

end Slots

section Count

private theorem card_filter_gain {n x : Nat} {p q : Nat → Bool} (hx : x < n)
    (hq : ∀ i, q i = (p i || i == x)) (hp : p x = false) :
    ((Finset.range n).filter fun i => q i = true).card =
      ((Finset.range n).filter fun i => p i = true).card + 1 := by
  have hinsert : ((Finset.range n).filter fun i => q i = true) =
      insert x ((Finset.range n).filter fun i => p i = true) := by
    ext i
    simp only [Finset.mem_filter, Finset.mem_range, Finset.mem_insert, hq, Bool.or_eq_true,
      beq_iff_eq]
    constructor
    · rintro ⟨hi, hp | rfl⟩
      · exact .inr ⟨hi, hp⟩
      · exact .inl rfl
    · rintro (rfl | ⟨hi, hp⟩)
      · exact ⟨hx, .inr rfl⟩
      · exact ⟨hi, .inl hp⟩
  rw [hinsert, Finset.card_insert_of_notMem]
  rw [Finset.mem_filter, hp]
  exact fun h => Bool.false_ne_true h.2

variable {V : Type} {P : Slots V} {n x : Nat} {v : V}

theorem held_put_of_none (hx : x < n) (hnone : P.value x = none) :
    (P.put x v).held n = P.held n + 1 := by
  refine card_filter_gain hx (fun i => ?_) (by rw [hnone]; rfl)
  by_cases hi : i = x
  · simp [Slots.put, hi]
  · simp [Slots.put, hi]

theorem held_put_of_some (hsome : (P.value x).isSome = true) :
    (P.put x v).held n = P.held n := by
  unfold Slots.held
  congr 1
  apply Finset.filter_congr
  intro i _
  by_cases hi : i = x
  · simp [Slots.put, hi, hsome]
  · simp [Slots.put, hi]

theorem used_put_of_unused (hx : x < n) (hnone : P.value x = none) (hmark : P.marked x = false) :
    (P.put x v).used n = P.used n + 1 := by
  refine card_filter_gain hx (fun i => ?_) (by rw [hnone, hmark]; rfl)
  by_cases hi : i = x
  · simp [Slots.put, hi]
  · simp [Slots.put, hi]

theorem used_put_of_used (hused : ((P.value x).isSome || P.marked x) = true) :
    (P.put x v).used n = P.used n := by
  unfold Slots.used
  congr 1
  apply Finset.filter_congr
  intro i _
  by_cases hi : i = x
  · rw [hi, hused]
    simp [Slots.put]
  · simp [Slots.put, hi]

theorem held_erase (hx : x < n) (hsome : P.value x = some v) :
    P.held n = (P.erase x).held n + 1 := by
  refine card_filter_gain hx (fun i => ?_) (by simp [Slots.erase])
  by_cases hi : i = x
  · simp [Slots.erase, hi, hsome]
  · simp [Slots.erase, hi]

theorem used_erase_of_marked (hmark : P.marked x = true) : (P.erase x).used n = P.used n := by
  unfold Slots.used
  congr 1
  apply Finset.filter_congr
  intro i _
  by_cases hi : i = x
  · simp [Slots.erase, hi, hmark]
  · simp [Slots.erase, hi]

theorem used_erase_of_not_marked (hx : x < n) (hsome : P.value x = some v)
    (hmark : P.marked x = false) : P.used n = (P.erase x).used n + 1 := by
  refine card_filter_gain hx (fun i => ?_) (by simp [Slots.erase, hmark])
  by_cases hi : i = x
  · simp [Slots.erase, hi, hsome]
  · simp [Slots.erase, hi]

theorem used_mark (hsome : (P.value x).isSome = true) : (P.mark x).used n = P.used n := by
  unfold Slots.used
  congr 1
  apply Finset.filter_congr
  intro i _
  by_cases hi : i = x
  · simp [Slots.mark, hi, hsome]
  · simp [Slots.mark, hi]

theorem held_le_used : P.held n ≤ P.used n := by
  apply Finset.card_le_card
  intro i hi
  rw [Finset.mem_filter] at hi ⊢
  exact ⟨hi.1, by rw [hi.2]; rfl⟩

theorem exists_unused (h : P.used n < n) :
    ∃ i < n, P.value i = none ∧ P.marked i = false := by
  by_contra hcon
  have hall : (Finset.range n).filter (fun i => ((P.value i).isSome || P.marked i) = true) =
      Finset.range n := by
    apply Finset.filter_true_of_mem
    intro i hi
    by_contra hi'
    rw [Bool.not_eq_true, Bool.or_eq_false_iff] at hi'
    exact hcon ⟨i, Finset.mem_range.mp hi, by simpa using hi'.1, hi'.2⟩
  rw [Slots.used, hall, Finset.card_range] at h
  exact Nat.lt_irrefl n h

end Count

section Chains

variable {K V : Type} {key : V → K} {path : K → Nat → Nat} {n : Nat} {P : Slots V}

/-- Every value is reached from the start of the path of its key over marked places, and no two
places hold values of one key. -/
structure Chained (key : V → K) (path : K → Nat → Nat) (n : Nat) (P : Slots V) : Prop where
  reached : ∀ i v, i < n → P.value i = some v →
    ∃ step, path (key v) step = i ∧ ∀ before < step, P.marked (path (key v) before) = true
  unique : ∀ i j v w, i < n → j < n → P.value i = some v → P.value j = some w → key v = key w →
    i = j

/-- A path that has come to the end of its marks without the key, has shown that no place has it. -/
theorem Chained.absent (h : Chained key path n P) {k : K} {step : Nat}
    (hend : P.marked (path k step) = false)
    (hnot : ∀ before ≤ step, ¬ P.HasKey key k (path k before)) :
    ∀ i < n, ¬ P.HasKey key k i := by
  rintro i hi ⟨v, hv, rfl⟩
  obtain ⟨last, rfl, hmarks⟩ := h.reached i v hi hv
  rcases Nat.lt_or_ge step last with hlt | hge
  · rw [hmarks step hlt] at hend
    exact Bool.noConfusion hend
  · exact hnot last hge ⟨v, hv, rfl⟩

theorem Chained.mark (h : Chained key path n P) (x : Nat) : Chained key path n (P.mark x) where
  reached i v hi hv := by
    obtain ⟨step, hstep, hmarks⟩ := h.reached i v hi hv
    refine ⟨step, hstep, fun before hbefore => ?_⟩
    show (P.marked _ || _) = true
    rw [hmarks before hbefore, Bool.true_or]
  unique := h.unique

theorem Chained.erase (h : Chained key path n P) (x : Nat) : Chained key path n (P.erase x) where
  reached i v hi hv := by
    unfold Slots.erase at hv
    dsimp only at hv
    split at hv
    · cases hv
    · exact h.reached i v hi hv
  unique i j v w hi hj hv hw heq := by
    unfold Slots.erase at hv hw
    dsimp only at hv hw
    split at hv
    · cases hv
    · split at hw
      · cases hw
      · exact h.unique i j v w hi hj hv hw heq

/-- A value may be put where its path comes to over marked places, if no other place has its key. -/
theorem Chained.put (h : Chained key path n P) {x : Nat} {v : V} {step : Nat}
    (hx : path (key v) step = x)
    (hmarks : ∀ before < step, P.marked (path (key v) before) = true)
    (honly : ∀ i < n, P.HasKey key (key v) i → i = x) : Chained key path n (P.put x v) where
  reached i w hi hw := by
    unfold Slots.put at hw
    dsimp only at hw
    split at hw
    · next hix =>
        cases hw
        exact ⟨step, hx.trans hix.symm, hmarks⟩
    · exact h.reached i w hi hw
  unique i j w w' hi hj hw hw' heq := by
    unfold Slots.put at hw hw'
    dsimp only at hw hw'
    split at hw
    · next hix =>
        cases hw
        split at hw'
        · next hjx => exact hix.trans hjx.symm
        · exact hix.trans (honly j hj ⟨w', hw', heq.symm⟩).symm
    · split at hw'
      · next hjx =>
          cases hw'
          exact (honly i hi ⟨w, hw, heq⟩).trans hjx.symm
      · exact h.unique i j w w' hi hj hw hw' heq

theorem Chained.of_empty (h : ∀ i, P.value i = none) : Chained key path n P where
  reached i v _ hv := by
    rw [h] at hv
    cases hv
  unique i j v w _ _ hv := by
    rw [h] at hv
    cases hv

theorem holds_put {x : Nat} {v w : V} (hx : x < n)
    (hfits : P.value x = none ∨ P.HasKey key (key v) x)
    (honly : ∀ i < n, P.HasKey key (key v) i → i = x) :
    (P.put x v).Holds n w ↔ w = v ∨ (P.Holds n w ∧ key w ≠ key v) := by
  constructor
  · rintro ⟨i, hi, hw⟩
    unfold Slots.put at hw
    dsimp only at hw
    split at hw
    · cases hw
      exact .inl rfl
    · next hne => exact .inr ⟨⟨i, hi, hw⟩, fun heq => hne (honly i hi ⟨w, hw, heq⟩)⟩
  · rintro (rfl | ⟨⟨i, hi, hw⟩, hne⟩)
    · exact ⟨x, hx, if_pos rfl⟩
    · refine ⟨i, hi, ?_⟩
      have hix : i ≠ x := by
        rintro rfl
        rcases hfits with hnone | ⟨u, hu, hkey⟩
        · rw [hnone] at hw
          cases hw
        · rw [hu] at hw
          cases hw
          exact hne hkey
      exact (if_neg hix).trans hw

theorem Chained.holds_erase (h : Chained key path n P) {x : Nat} {v w : V} (hx : x < n)
    (hv : P.value x = some v) : (P.erase x).Holds n w ↔ P.Holds n w ∧ key w ≠ key v := by
  constructor
  · rintro ⟨i, hi, hw⟩
    unfold Slots.erase at hw
    dsimp only at hw
    split at hw
    · cases hw
    · next hne => exact ⟨⟨i, hi, hw⟩, fun heq => hne (h.unique i x w v hi hx hw hv heq)⟩
  · rintro ⟨⟨i, hi, hw⟩, hne⟩
    refine ⟨i, hi, ?_⟩
    have hix : i ≠ x := by
      rintro rfl
      rw [hv] at hw
      cases hw
      exact hne rfl
    exact (if_neg hix).trans hw

theorem Chained.ncard_holds (h : Chained key path n P) : {v | P.Holds n v}.ncard = P.held n := by
  have himage : (some '' {v | P.Holds n v} : Set (Option V)) =
      P.value '' ((Finset.range n).filter fun i => (P.value i).isSome = true : Finset Nat) := by
    ext u
    simp only [Set.mem_image, Set.mem_ofPred_eq, Finset.mem_coe, Finset.mem_filter, Finset.mem_range]
    constructor
    · rintro ⟨v, ⟨i, hi, hv⟩, rfl⟩
      exact ⟨i, ⟨hi, by rw [hv]; rfl⟩, hv⟩
    · rintro ⟨i, ⟨hi, hsome⟩, rfl⟩
      obtain ⟨v, hv⟩ := Option.isSome_iff_exists.mp hsome
      exact ⟨v, ⟨i, hi, hv⟩, hv.symm⟩
  have hinj : Set.InjOn P.value
      ((Finset.range n).filter fun i => (P.value i).isSome = true : Finset Nat) := by
    intro i hi j hj heq
    rw [Finset.mem_coe, Finset.mem_filter, Finset.mem_range] at hi hj
    obtain ⟨v, hv⟩ := Option.isSome_iff_exists.mp hi.2
    exact h.unique i j v v hi.1 hj.1 hv (heq ▸ hv) rfl
  have hcard := congrArg Set.ncard himage
  rw [Set.ncard_image_of_injective _ (Option.some_injective V), hinj.ncard_image,
    Set.ncard_coe_finset] at hcard
  exact hcard

end Chains

end BeeC.Wire.Probing
