import BeeC.AssocSizes
import BeeC.AssocStore

/-!
The resize of the hash. While it goes on, the shadow holds a part of what the table holds, and all of
what lay in the places that were passed. A batch is large enough for neither of the two to fill up
before the resize is over.
-/

namespace BeeC

open BeeC.Wire.Probing

variable {κ ν : Type} [Inhabited ν] {K : Keyed κ ν}

namespace MhTable

theorem heldPlaces_congr {h h' : MhTable ν} (hsound : Sound K h) (hsound' : Sound K h')
    (hholds : ∀ v, h'.Holds v ↔ h.Holds v) : h'.heldPlaces = h.heldPlaces := by
  have hset : {v | h'.places.Holds h'.nBuckets v} = {v | h.places.Holds h.nBuckets v} :=
    Set.ext hholds
  have hncard := congrArg Set.ncard hset
  rwa [hsound'.chained.ncard_holds, hsound.chained.ncard_holds] at hncard

/-- What the loop of `_mh(resize)` keeps: the shadow holds what the places in front of `i` hold, and
nothing that the table does not. -/
structure Shadows (K : Keyed κ ν) (h s : MhTable ν) (i : Nat) : Prop where
  sound : Sound K s
  used : s.usedPlaces ≤ s.nDirty
  sub : ∀ v, s.Holds v → h.Holds v
  moved : ∀ j < i, ∀ v, h.places.value j = some v → s.Holds v

theorem Shadows.of_moved {h s s' : MhTable ν} {i : Nat} (hsound : Sound K h)
    (hshadows : Shadows K h s i) (hi : i < h.nBuckets) (hexist : h.exist i = true)
    (hmoved : Moved K s s' (h.node i)) (hwrap : s.nDirty + 1 < 2 ^ 32) :
    Shadows K h s' (i + 1) where
  sound := hmoved.sound
  used := by
    have hused := hshadows.used
    have hmore := hmoved.used
    rw [hmoved.nDirty, mhInc_of_lt hwrap]
    omega
  sub v hv := by
    rcases (hmoved.holds v).mp hv with rfl | ⟨hs, -⟩
    · exact ⟨i, hi, value_of_exist hexist⟩
    · exact hshadows.sub v hs
  moved j hj v hv := by
    apply (hmoved.holds v).mpr
    by_cases heq : v = h.node i
    · exact .inl heq
    · refine .inr ⟨?_, ?_⟩
      · rcases Nat.lt_or_eq_of_le (Nat.le_of_lt_succ hj) with hlt | rfl
        · exact hshadows.moved j hlt v hv
        · rw [value_of_exist hexist] at hv
          exact absurd (Option.some.inj hv).symm heq
      · intro hkey
        have hplace := hsound.chained.unique j i v (h.node i) (by omega) hi hv
          (value_of_exist hexist) hkey
        subst hplace
        rw [value_of_exist hexist] at hv
        exact heq (Option.some.inj hv).symm

theorem Shadows.of_skipped {h s : MhTable ν} {i : Nat} (hshadows : Shadows K h s i)
    (hexist : h.exist i = false) : Shadows K h s (i + 1) where
  sound := hshadows.sound
  used := hshadows.used
  sub := hshadows.sub
  moved j hj v hv := by
    rcases Nat.lt_or_eq_of_le (Nat.le_of_lt_succ hj) with hlt | rfl
    · exact hshadows.moved j hlt v hv
    · rw [value_eq_none.mpr hexist] at hv
      cases hv

/-- The loop of `_mh(resize)`: it passes a batch of places, or all that are left. -/
theorem migrate_spec [DecidableEq κ] {h : MhTable ν} (hsound : Sound K h) (left batch i : Nat)
    (hi : i + left = h.nBuckets) {s : MhTable ν} (hshadows : Shadows K h s i)
    (hroom : s.nDirty + min batch left < s.nBuckets) :
    ∃ s', h.migrate K left batch i s =
        some (if batch < left then some (i + batch) else none, s') ∧
      s' = { s with p := s'.p, b := s'.b, nDirty := s'.nDirty } ∧
      s'.nDirty ≤ s.nDirty + min batch left ∧ Shadows K h s' (i + min batch left) := by
  induction left generalizing batch i s with
  | zero =>
      rw [Nat.min_zero]
      exact ⟨s, rfl, rfl, Nat.le_refl _, hshadows⟩
  | succ left ih =>
      cases batch with
      | zero =>
          rw [Nat.zero_min]
          exact ⟨s, rfl, rfl, Nat.le_refl _, hshadows⟩
      | succ batch =>
          have hmin : min (batch + 1) (left + 1) = min batch left + 1 := by omega
          have hlt : i < h.nBuckets := by omega
          have hsmall := hshadows.sound.small
          rw [hmin] at hroom ⊢
          unfold migrate
          cases hexist : h.exist i with
          | false =>
              rw [if_neg Bool.false_ne_true]
              obtain ⟨s', hloop, hrest, hdirty, hshadows'⟩ :=
                ih batch (i + 1) (by omega) (hshadows.of_skipped hexist) (by omega)
              rw [show i + 1 + min batch left = i + (min batch left + 1) by omega] at hshadows'
              refine ⟨s', ?_, hrest, by omega, hshadows'⟩
              rw [hloop]
              simp only [Nat.add_lt_add_iff_right, Nat.add_assoc, Nat.add_comm 1 batch]
          | true =>
              rw [if_pos rfl]
              have hused : s.usedPlaces < s.nBuckets := by
                have hle := hshadows.used
                omega
              obtain ⟨s₁, n, hputSlot, hmoved⟩ := move_spec hshadows.sound hused (h.node i)
              rw [hputSlot]
              dsimp only [Option.bind_eq_bind, Option.bind_some]
              have hnext := hshadows.of_moved hsound hlt hexist hmoved (by omega)
              have hbuckets : (s₁.adopt n (h.node i)).nBuckets = s.nBuckets := by
                rw [hmoved.rest]
              have hnDirty := hmoved.nDirty
              rw [mhInc_of_lt (show s.nDirty + 1 < 2 ^ 32 by omega)] at hnDirty
              obtain ⟨s', hloop, hrest, hdirty, hshadows'⟩ :=
                ih batch (i + 1) (by omega) hnext (by omega)
              rw [show i + 1 + min batch left = i + (min batch left + 1) by omega] at hshadows'
              refine ⟨s', ?_, ?_, by omega, hshadows'⟩
              · rw [hloop]
                simp only [Nat.add_lt_add_iff_right, Nat.add_assoc, Nat.add_comm 1 batch]
              · rw [hrest, hmoved.rest]

/-! The counts after a node was stored, or taken out. -/

theorem Stored.dirty {h h' : MhTable ν} {v : ν} {x : Nat} {old : Option ν}
    (hstored : Stored K h h' v x old) (hwrap : h.nDirty + 1 < 2 ^ 32)
    (hused : h.usedPlaces ≤ h.nDirty) : h'.usedPlaces ≤ h'.nDirty ∧ h'.nDirty ≤ h.nDirty + 1 := by
  rcases hstored.used with ⟨hused', hdirty⟩ | ⟨hused', hdirty⟩
  · rw [hused', hdirty]
    exact ⟨hused, Nat.le_succ _⟩
  · rw [hused', hdirty, mhInc_of_lt hwrap]
    exact ⟨Nat.succ_le_succ hused, Nat.le_refl _⟩

theorem Stored.counted {h h' : MhTable ν} {v : ν} {x : Nat} {old : Option ν}
    (hstored : Stored K h h' v x old) (hwrap : h.size + 1 < 2 ^ 32) (hsize : h.size = h.heldPlaces) :
    h'.size = h'.heldPlaces := by
  rcases hstored.old with ⟨-, -, hsize', hheld⟩ | ⟨-, -, -, -, hsize', hheld⟩
  · rw [hsize', hheld, mhInc_of_lt hwrap, hsize]
  · rw [hsize', hheld, hsize]

theorem Freed.dirty {h h' : MhTable ν} {v : ν} (hfreed : Freed K h h' v)
    (hwrap : h.nDirty < 2 ^ 32) (hused : h.usedPlaces ≤ h.nDirty) :
    h'.usedPlaces ≤ h'.nDirty ∧ h'.nDirty ≤ h.nDirty := by
  rcases hfreed.used with ⟨hused', hdirty⟩ | ⟨hused', hdirty⟩
  · rw [hused', hdirty]
    exact ⟨hused, Nat.le_refl _⟩
  · rw [hdirty, mhDec_of_pos (by omega) hwrap]
    omega

theorem Freed.counted {h h' : MhTable ν} {v : ν} (hfreed : Freed K h h' v)
    (hwrap : h.size < 2 ^ 32) (hpos : 0 < h.size) : h'.size = h.size - 1 := by
  rw [hfreed.size, mhDec_of_pos hpos hwrap]

end MhTable

end BeeC
