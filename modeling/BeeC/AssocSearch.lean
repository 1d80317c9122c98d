import BeeC.AssocTable

namespace BeeC

open BeeC.Wire.Probing

namespace MhTable

variable {κ ν : Type}

/-- The path of a key in a table of so many places. -/
def slotPath (K : Keyed κ ν) (n : Nat) (k : κ) (step : Nat) : Nat :=
  probe ((K.hash k).toNat % n) (1 + (K.hash k).toNat % (n - 1)) n step

section Path

variable {K : Keyed κ ν} {n : Nat} {k : κ}

theorem inc_lt (hprime : n.Prime) : 1 + (K.hash k).toNat % (n - 1) < n := by
  have htwo := hprime.two_le
  have hmod := Nat.mod_lt (K.hash k).toNat (show 0 < n - 1 by omega)
  omega

theorem slotPath_lt (hprime : n.Prime) (step : Nat) : slotPath K n k step < n :=
  probe_lt hprime.pos step

theorem slotPath_zero (hprime : n.Prime) : slotPath K n k 0 = (K.hash k).toNat % n :=
  probe_zero (Nat.mod_lt _ hprime.pos)

theorem exists_slotPath (hprime : n.Prime) {i : Nat} (hi : i < n) :
    ∃ step < n, slotPath K n k step = i :=
  exists_probe hprime (by omega) (inc_lt hprime) hi

/-- In a table of fewer than 2^31 places, the sum of `_mh(next_slot)` does not wrap. -/
theorem nextSlot_slotPath (hprime : n.Prime) (hsmall : n < 2 ^ 31) (step : Nat) :
    nextSlot (slotPath K n k step) (1 + (K.hash k).toNat % (n - 1)) n =
      slotPath K n k (step + 1) := by
  have hinc : 1 + (K.hash k).toNat % (n - 1) < n := inc_lt hprime
  have hlt := slotPath_lt (K := K) (k := k) hprime step
  have hsum : (slotPath K n k step + (1 + (K.hash k).toNat % (n - 1))) % 2 ^ 32 =
      slotPath K n k step + (1 + (K.hash k).toNat % (n - 1)) := Nat.mod_eq_of_lt (by omega)
  unfold nextSlot
  rw [hsum]
  exact (probe_succ hinc step).symm

end Path

/-- What holds of every table that is in use. -/
structure Sound (K : Keyed κ ν) (h : MhTable ν) [Inhabited ν] : Prop where
  prime : h.nBuckets.Prime
  small : h.nBuckets < 2 ^ 31
  sized : h.Sized
  chained : Chained K.key (slotPath K h.nBuckets) h.nBuckets h.places

/-- How many places of a table are in use or dirty. -/
def usedPlaces [Inhabited ν] (h : MhTable ν) : Nat := h.places.used h.nBuckets

/-- How many places of a table are in use. -/
def heldPlaces [Inhabited ν] (h : MhTable ν) : Nat := h.places.held h.nBuckets

/-- The node is stored in the table. -/
def Holds [Inhabited ν] (h : MhTable ν) (v : ν) : Prop := h.places.Holds h.nBuckets v

/-- The answer of a search: the place of a node with the key, or the end if there is none. -/
def Found [Inhabited ν] (K : Keyed κ ν) (h : MhTable ν) (k : κ) (x : Nat) : Prop :=
  (x < h.nBuckets ∧ h.places.HasKey K.key k x) ∨
    (x = h.nBuckets ∧ ∀ i < h.nBuckets, ¬ h.places.HasKey K.key k i)

variable [Inhabited ν] {K : Keyed κ ν}

theorem exists_unmarked {h : MhTable ν} (hprime : h.nBuckets.Prime)
    (hused : h.usedPlaces < h.nBuckets) (k : κ) :
    ∃ step < h.nBuckets, h.dirty (slotPath K h.nBuckets k step) = false ∧
      h.exist (slotPath K h.nBuckets k step) = false := by
  obtain ⟨i, hi, hnone, hmark⟩ := exists_unused hused
  obtain ⟨step, hstep, rfl⟩ := exists_slotPath (K := K) (k := k) hprime hi
  exact ⟨step, hstep, hmark, value_eq_none.mp hnone⟩

theorem findLoop_spec {h : MhTable ν} (hsound : Sound K h) (hused : h.usedPlaces < h.nBuckets)
    {k : κ} {eq : ν → Bool} (heq : ∀ v, eq v = true ↔ K.key v = k) (fuel step : Nat)
    (hfuel : h.nBuckets ≤ step + fuel)
    (hbefore : ∀ s < step, h.dirty (slotPath K h.nBuckets k s) = true ∧
      ¬ h.places.HasKey K.key k (slotPath K h.nBuckets k s)) :
    ∃ x, h.findLoop eq (1 + (K.hash k).toNat % (h.nBuckets - 1)) fuel
      (slotPath K h.nBuckets k step) = some x ∧ Found K h k x := by
  induction fuel generalizing step with
  | zero =>
      obtain ⟨last, hlast, hunmarked, -⟩ := exists_unmarked (K := K) hsound.prime hused k
      have hmarked := (hbefore last (by omega)).1
      rw [hunmarked] at hmarked
      cases hmarked
  | succ fuel ih =>
      have hlt := slotPath_lt (K := K) (k := k) hsound.prime step
      unfold findLoop
      by_cases hhit : (h.exist (slotPath K h.nBuckets k step) &&
          eq (h.node (slotPath K h.nBuckets k step))) = true
      · rw [if_pos hhit]
        rw [Bool.and_eq_true, heq] at hhit
        exact ⟨_, rfl, .inl ⟨hlt, hasKey_iff.mpr hhit⟩⟩
      · rw [if_neg hhit]
        have hnot : ¬ h.places.HasKey K.key k (slotPath K h.nBuckets k step) := by
          intro hkey
          rw [Bool.and_eq_true, heq] at hhit
          exact hhit (hasKey_iff.mp hkey)
        cases hdirty : h.dirty (slotPath K h.nBuckets k step) with
        | false =>
            refine ⟨h.nBuckets, rfl, .inr ⟨rfl, hsound.chained.absent hdirty ?_⟩⟩
            intro s hs
            rcases Nat.lt_or_eq_of_le hs with hlt | rfl
            · exact (hbefore s hlt).2
            · exact hnot
        | true =>
            rw [nextSlot_slotPath hsound.prime hsound.small]
            apply ih (step + 1) (by omega)
            intro s hs
            rcases Nat.lt_or_eq_of_le (Nat.le_of_lt_succ hs) with hlt | rfl
            · exact hbefore s hlt
            · exact ⟨hdirty, hnot⟩

theorem find_spec [DecidableEq κ] {h : MhTable ν} (hsound : Sound K h)
    (hused : h.usedPlaces < h.nBuckets) (k : κ) :
    ∃ x, h.find K k = some x ∧ Found K h k x := by
  have heq : ∀ v, decide (K.key v = k) = true ↔ K.key v = k := fun v => decide_eq_true_iff
  have hloop := findLoop_spec hsound hused heq h.nBuckets 0 (by omega) (fun s hs => by omega)
  rwa [slotPath_zero hsound.prime] at hloop

theorem get_spec [DecidableEq κ] {h : MhTable ν} (hsound : Sound K h)
    (hused : h.usedPlaces < h.nBuckets) (v : ν) :
    ∃ x, h.get K v = some x ∧ Found K h (K.key v) x := by
  have heq : ∀ w, decide (K.key v = K.key w) = true ↔ K.key w = K.key v :=
    fun w => decide_eq_true_iff.trans eq_comm
  have hloop := findLoop_spec hsound hused heq h.nBuckets 0 (by omega) (fun s hs => by omega)
  rwa [slotPath_zero hsound.prime] at hloop

/-- More places with nodes are marked, and nothing else changes. -/
structure Remarked (h h' : MhTable ν) : Prop where
  rest : h' = { h with b := h'.b }
  words : h'.b.size = h.b.size
  value : h'.places.value = h.places.value
  marked : ∀ i, h.dirty i = true → h'.dirty i = true
  used : h'.usedPlaces = h.usedPlaces

theorem Remarked.refl (h : MhTable ν) : Remarked h h := ⟨rfl, rfl, rfl, fun _ hi => hi, rfl⟩

theorem Remarked.trans {h h' h'' : MhTable ν} (hfirst : Remarked h h') (hthen : Remarked h' h'') :
    Remarked h h'' where
  rest := by
    rw [hthen.rest, hfirst.rest]
  words := hthen.words.trans hfirst.words
  value := hthen.value.trans hfirst.value
  marked i hi := hthen.marked i (hfirst.marked i hi)
  used := hthen.used.trans hfirst.used

theorem Remarked.nBuckets {h h' : MhTable ν} (hmarks : Remarked h h') :
    h'.nBuckets = h.nBuckets := by
  rw [hmarks.rest]

theorem Remarked.hasKey {h h' : MhTable ν} (hmarks : Remarked h h') {k : κ} {i : Nat} :
    h'.places.HasKey K.key k i ↔ h.places.HasKey K.key k i := by
  unfold Slots.HasKey
  rw [hmarks.value]

theorem Remarked.held {h h' : MhTable ν} (hmarks : Remarked h h') :
    h'.heldPlaces = h.heldPlaces := by
  unfold heldPlaces Slots.held
  rw [hmarks.value, hmarks.nBuckets]

theorem Remarked.holds {h h' : MhTable ν} (hmarks : Remarked h h') (v : ν) :
    h'.Holds v ↔ h.Holds v := by
  unfold Holds Slots.Holds
  rw [hmarks.value, hmarks.nBuckets]

theorem Remarked.sized {h h' : MhTable ν} (hmarks : Remarked h h') (hsized : h.Sized) :
    h'.Sized where
  nodes := by
    rw [hmarks.rest]
    exact hsized.nodes
  words := by
    rw [hmarks.words, hmarks.nBuckets]
    exact hsized.words

theorem remarked_setDirty {h : MhTable ν} (hsized : h.Sized) {x : Nat} (hx : x < h.nBuckets)
    (hexist : h.exist x = true) : Remarked h (h.setDirty x) where
  rest := rfl
  words := Array.size_modify
  value := by
    rw [places_setDirty hsized hx]
    rfl
  marked i hi := by
    rw [dirty_setDirty h (hsized.word_lt hx), hi, Bool.true_or]
  used := by
    have hsome : (h.places.value x).isSome = true := by
      rw [value_of_exist hexist]
      rfl
    show (h.setDirty x).places.used _ = _
    rw [places_setDirty hsized hx]
    exact used_mark hsome

theorem Sound.setDirty {h : MhTable ν} (hsound : Sound K h) {x : Nat} (hx : x < h.nBuckets)
    (hexist : h.exist x = true) : Sound K (h.setDirty x) where
  prime := hsound.prime
  small := hsound.small
  sized := (remarked_setDirty hsound.sized hx hexist).sized hsound.sized
  chained := by
    rw [places_setDirty hsound.sized hx]
    exact hsound.chained.mark x

theorem skipLoop_spec {k : κ} {eq : ν → Bool} (heq : ∀ v, eq v = true ↔ K.key v = k) (fuel : Nat)
    {h : MhTable ν} (hsound : Sound K h) (hused : h.usedPlaces < h.nBuckets) (step : Nat)
    (hfuel : h.nBuckets ≤ step + fuel)
    (hbefore : ∀ s < step, h.dirty (slotPath K h.nBuckets k s) = true ∧
      ¬ h.places.HasKey K.key k (slotPath K h.nBuckets k s)) :
    ∃ h' last duplicate, skipLoop eq (1 + (K.hash k).toNat % (h.nBuckets - 1)) fuel h
        (slotPath K h.nBuckets k step) = some (h', slotPath K h.nBuckets k last, duplicate) ∧
      Remarked h h' ∧ Sound K h' ∧
      (∀ s < last, h'.dirty (slotPath K h.nBuckets k s) = true ∧
        ¬ h.places.HasKey K.key k (slotPath K h.nBuckets k s)) ∧
      (duplicate = true ∧ h.places.HasKey K.key k (slotPath K h.nBuckets k last) ∨
        duplicate = false ∧ h.places.value (slotPath K h.nBuckets k last) = none) := by
  induction fuel generalizing h step with
  | zero =>
      obtain ⟨last, hlast, hunmarked, -⟩ := exists_unmarked (K := K) hsound.prime hused k
      have hmarked := (hbefore last (by omega)).1
      rw [hunmarked] at hmarked
      cases hmarked
  | succ fuel ih =>
      have hlt := slotPath_lt (K := K) (k := k) hsound.prime step
      unfold skipLoop
      cases hexist : h.exist (slotPath K h.nBuckets k step) with
      | false =>
          exact ⟨h, step, false, rfl, .refl h, hsound, hbefore, .inr ⟨rfl, value_eq_none.mpr hexist⟩⟩
      | true =>
          rw [if_pos rfl]
          by_cases hhit : eq (h.node (slotPath K h.nBuckets k step)) = true
          · rw [if_pos hhit]
            have hkey := hasKey_iff.mpr ⟨hexist, (heq _).mp hhit⟩
            exact ⟨h, step, true, rfl, .refl h, hsound, hbefore, .inl ⟨rfl, hkey⟩⟩
          · rw [if_neg hhit, nextSlot_slotPath hsound.prime hsound.small]
            have hmarks := remarked_setDirty hsound.sized hlt hexist
            have hnot : ¬ h.places.HasKey K.key k (slotPath K h.nBuckets k step) := by
              intro hkey
              exact hhit ((heq _).mpr (hasKey_iff.mp hkey).2)
            have hnext : ∀ s < step + 1,
                (h.setDirty (slotPath K h.nBuckets k step)).dirty (slotPath K h.nBuckets k s) =
                  true ∧ ¬ h.places.HasKey K.key k (slotPath K h.nBuckets k s) := by
              intro s hs
              rcases Nat.lt_or_eq_of_le (Nat.le_of_lt_succ hs) with hless | rfl
              · exact ⟨hmarks.marked _ (hbefore s hless).1, (hbefore s hless).2⟩
              · refine ⟨?_, hnot⟩
                rw [dirty_setDirty h (hsound.sized.word_lt hlt), beq_self_eq_true, Bool.or_true]
            obtain ⟨h', last, duplicate, hloop, hmarks', hsound', hlast, hend⟩ :=
              ih (hsound.setDirty hlt hexist) (by rw [hmarks.used]; exact hused) (step + 1)
                (by show h.nBuckets ≤ _; omega)
                (fun s hs => ⟨(hnext s hs).1, fun hkey => (hnext s hs).2 (hmarks.hasKey.mp hkey)⟩)
            refine ⟨h', last, duplicate, hloop, hmarks.trans hmarks', hsound', ?_, ?_⟩
            · intro s hs
              exact ⟨(hlast s hs).1, fun hkey => (hlast s hs).2 (hmarks.hasKey.mpr hkey)⟩
            · rcases hend with ⟨hdup, hkey⟩ | ⟨hdup, hnone⟩
              · exact .inl ⟨hdup, hmarks.hasKey.mp hkey⟩
              · rw [hmarks.value] at hnone
                exact .inr ⟨hdup, hnone⟩

theorem downLoop_spec {h : MhTable ν} (hsound : Sound K h) (hused : h.usedPlaces < h.nBuckets)
    {k : κ} {eq : ν → Bool} (heq : ∀ v, eq v = true ↔ K.key v = k) (saved fuel step : Nat)
    (hfuel : h.nBuckets ≤ step + fuel)
    (hmarks : ∀ s < step, h.dirty (slotPath K h.nBuckets k s) = true)
    (hbefore : ∀ s ≤ step, ¬ h.places.HasKey K.key k (slotPath K h.nBuckets k s)) :
    ∃ x, h.downLoop eq (1 + (K.hash k).toNat % (h.nBuckets - 1)) saved fuel
        (slotPath K h.nBuckets k step) = some x ∧
      ((∃ last, x = slotPath K h.nBuckets k last ∧ h.places.HasKey K.key k x ∧
          ∀ s < last, h.dirty (slotPath K h.nBuckets k s) = true) ∨
        (x = saved ∧ ∀ i < h.nBuckets, ¬ h.places.HasKey K.key k i)) := by
  induction fuel generalizing step with
  | zero =>
      obtain ⟨last, hlast, hunmarked, -⟩ := exists_unmarked (K := K) hsound.prime hused k
      rw [hmarks last (by omega)] at hunmarked
      cases hunmarked
  | succ fuel ih =>
      unfold downLoop
      cases hdirty : h.dirty (slotPath K h.nBuckets k step) with
      | false => exact ⟨saved, rfl, .inr ⟨rfl, hsound.chained.absent hdirty hbefore⟩⟩
      | true =>
          have hmarks' : ∀ s < step + 1, h.dirty (slotPath K h.nBuckets k s) = true := by
            intro s hs
            rcases Nat.lt_or_eq_of_le (Nat.le_of_lt_succ hs) with hless | rfl
            · exact hmarks s hless
            · exact hdirty
          rw [if_pos rfl, nextSlot_slotPath hsound.prime hsound.small]
          dsimp only
          by_cases hhit : (h.exist (slotPath K h.nBuckets k (step + 1)) &&
              eq (h.node (slotPath K h.nBuckets k (step + 1)))) = true
          · rw [if_pos hhit]
            rw [Bool.and_eq_true, heq] at hhit
            exact ⟨_, rfl, .inl ⟨step + 1, rfl, hasKey_iff.mpr hhit, hmarks'⟩⟩
          · rw [if_neg hhit]
            apply ih (step + 1) (by omega) hmarks'
            intro s hs
            rcases Nat.lt_or_eq_of_le hs with hless | rfl
            · exact hbefore s (Nat.le_of_lt_succ hless)
            · intro hkey
              rw [Bool.and_eq_true, heq] at hhit
              exact hhit (hasKey_iff.mp hkey)

/-- The place is one where a node with the key can be put. -/
structure Fits (K : Keyed κ ν) (h : MhTable ν) (k : κ) (x : Nat) : Prop where
  lt : x < h.nBuckets
  path : ∃ step, slotPath K h.nBuckets k step = x ∧
    ∀ s < step, h.dirty (slotPath K h.nBuckets k s) = true
  free : h.places.value x = none ∨ h.places.HasKey K.key k x
  only : ∀ i < h.nBuckets, h.places.HasKey K.key k i → i = x

theorem putSlot_spec [DecidableEq κ] {h : MhTable ν} (hsound : Sound K h) (hused : h.usedPlaces < h.nBuckets)
    (v : ν) : ∃ h' x, h.putSlot K v = some (h', x) ∧ Remarked h h' ∧ Sound K h' ∧
      Fits K h' (K.key v) x := by
  have heq : ∀ w, decide (K.key v = K.key w) = true ↔ K.key w = K.key v := fun w =>
    decide_eq_true_iff.trans eq_comm
  obtain ⟨h', last, duplicate, hloop, hmarks, hsound', hlast, hend⟩ := skipLoop_spec heq h.nBuckets
    hsound hused 0 (by omega) (fun s hs => by omega)
  rw [slotPath_zero hsound.prime] at hloop
  have hn := hmarks.nBuckets
  have hlt : slotPath K h.nBuckets (K.key v) last < h.nBuckets := slotPath_lt hsound.prime last
  have hputSlot : h.putSlot K v = (if duplicate = true then
      some (h', slotPath K h.nBuckets (K.key v) last)
    else (h'.downLoop (fun w => decide (K.key v = K.key w)) (h'.inc (K.hash (K.key v)))
      (slotPath K h.nBuckets (K.key v) last) h'.nBuckets
      (slotPath K h.nBuckets (K.key v) last)).bind fun x => some (h', x)) := by
    unfold putSlot start inc
    dsimp only
    rw [hloop]
    rfl
  rw [hputSlot]
  have hunique : ∀ x < h.nBuckets, h.places.HasKey K.key (K.key v) x →
      ∀ i < h.nBuckets, h.places.HasKey K.key (K.key v) i → i = x := by
    rintro x hx ⟨w, hw, hwk⟩ i hi ⟨u, hu, huk⟩
    exact hsound.chained.unique i x u w hi hx hu hw (huk.trans hwk.symm)
  rcases hend with ⟨rfl, hkey⟩ | ⟨rfl, hnone⟩
  · refine ⟨h', _, if_pos rfl, hmarks, hsound', ?_⟩
    refine ⟨by rw [hn]; exact hlt, ⟨last, by rw [hn], ?_⟩, .inr (hmarks.hasKey.mpr hkey), ?_⟩
    · intro s hs
      rw [hn]
      exact (hlast s hs).1
    · intro i hi hkey'
      rw [hn] at hi
      exact hunique _ hlt hkey i hi (hmarks.hasKey.mp hkey')
  · rw [if_neg Bool.false_ne_true]
    have hempty : ∀ s ≤ last, ¬ h'.places.HasKey K.key (K.key v)
        (slotPath K h'.nBuckets (K.key v) s) := by
      intro s hs hkey
      rw [hn] at hkey
      rcases Nat.lt_or_eq_of_le hs with hless | rfl
      · exact (hlast s hless).2 (hmarks.hasKey.mp hkey)
      · obtain ⟨w, hw, -⟩ := hmarks.hasKey.mp hkey
        rw [hnone] at hw
        cases hw
    have hmarks' : ∀ s < last, h'.dirty (slotPath K h'.nBuckets (K.key v) s) = true := by
      intro s hs
      rw [hn]
      exact (hlast s hs).1
    obtain ⟨x, hdown, hx⟩ := downLoop_spec hsound' (by rw [hmarks.used, hn]; exact hused) heq
      (slotPath K h.nBuckets (K.key v) last) h'.nBuckets last (by omega) hmarks' hempty
    have hdown' : h'.downLoop (fun w => decide (K.key v = K.key w)) (h'.inc (K.hash (K.key v)))
        (slotPath K h.nBuckets (K.key v) last) h'.nBuckets
        (slotPath K h.nBuckets (K.key v) last) = some x := by
      rw [← hn]
      rw [← hn] at hdown
      exact hdown
    rw [hdown']
    refine ⟨h', x, rfl, hmarks, hsound', ?_⟩
    rcases hx with ⟨step, rfl, hkey, hpath⟩ | ⟨rfl, habsent⟩
    · refine ⟨slotPath_lt hsound'.prime step, ⟨step, rfl, hpath⟩, .inr hkey, ?_⟩
      intro i hi hkey'
      have hlt' : slotPath K h'.nBuckets (K.key v) step < h.nBuckets := by
        rw [← hn]
        exact slotPath_lt hsound'.prime step
      exact hunique _ hlt' (hmarks.hasKey.mp hkey) i (hn ▸ hi) (hmarks.hasKey.mp hkey')
    · refine ⟨by rw [hn]; exact hlt, ⟨last, by rw [hn], hmarks'⟩, .inl ?_, ?_⟩
      · rw [hmarks.value]
        exact hnone
      · intro i hi hkey
        exact absurd hkey (habsent i hi)

end MhTable

end BeeC
