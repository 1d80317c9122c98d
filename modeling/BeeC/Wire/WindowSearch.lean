import Mathlib.Data.List.Infix

namespace BeeC.Wire.WindowSearch

variable {α : Type}

/-- Move the window over one more element. -/
def slide (window : List α) (c : α) : List α := window.tail ++ [c]

@[simp] theorem slide_length {window : List α} (h : window ≠ []) (c : α) :
    (slide window c).length = window.length := by
  have hpos := List.length_pos_of_ne_nil h
  simp only [slide, List.length_append, List.length_tail, List.length_singleton]
  omega

theorem slide_append {window : List α} (h : window ≠ []) (c : α) (rest : List α) :
    slide window c ++ rest = (window ++ c :: rest).drop 1 := by
  obtain ⟨first, others, rfl⟩ := List.exists_cons_of_ne_nil h
  simp [slide]

/-- The pattern starts at this place of the stream. -/
def OccursAt (pattern stream : List α) (place : Nat) : Prop := pattern <+: stream.drop place

/-- The pattern occurs where the first part of the stream ends, and nowhere before. -/
def FirstAfter (pattern before : List α) : Prop :=
  ∀ place < before.length, ¬OccursAt pattern (before ++ pattern) place

instance [DecidableEq α] (pattern stream : List α) (place : Nat) :
    Decidable (OccursAt pattern stream place) :=
  inferInstanceAs (Decidable (_ <+: _))

instance [DecidableEq α] (pattern before : List α) : Decidable (FirstAfter pattern before) :=
  inferInstanceAs (Decidable (∀ place < _, _))

theorem firstAfter_nil (pattern : List α) : FirstAfter pattern [] :=
  fun _ h => absurd h (Nat.not_lt_zero _)

theorem FirstAfter.append {pattern before : List α} (h : FirstAfter pattern before)
    (rest : List α) {place : Nat} (hplace : place < before.length) :
    ¬OccursAt pattern (before ++ pattern ++ rest) place := by
  intro hoccurs
  apply h place hplace
  have hroom : pattern.length ≤ ((before ++ pattern).drop place).length := by
    rw [List.length_drop, List.length_append]
    omega
  unfold OccursAt at hoccurs
  rw [List.drop_append_of_le_length (by rw [List.length_append]; omega)] at hoccurs
  exact List.prefix_of_prefix_length_le hoccurs (List.prefix_append _ _) hroom

theorem occursAt_zero {pattern window rest : List α} (h : window.length = pattern.length) :
    OccursAt pattern (window ++ rest) 0 ↔ window = pattern := by
  unfold OccursAt
  rw [List.drop_zero]
  constructor
  · intro hprefix
    exact ((List.prefix_of_prefix_length_le hprefix (List.prefix_append _ _) h.ge).eq_of_length
      h.symm).symm
  · rintro rfl
    exact List.prefix_append _ _

variable [DecidableEq α]

/-- How many elements are taken until the window is the pattern. -/
def seek (pattern : List α) : (window rest : List α) → Option Nat
  | window, [] => if window = pattern then some 0 else none
  | window, c :: rest =>
      if window = pattern then some 0 else (seek pattern (slide window c) rest).map (· + 1)

theorem seek_eq_some {pattern : List α} {rest : List α} :
    ∀ {window : List α} {place : Nat}, window.length = pattern.length →
      (∀ i < place, ¬OccursAt pattern (window ++ rest) i) →
      OccursAt pattern (window ++ rest) place → seek pattern window rest = some place := by
  induction rest with
  | nil =>
      intro window place hlength hbefore hoccurs
      cases place with
      | zero => rw [seek, if_pos ((occursAt_zero hlength).mp hoccurs)]
      | succ place =>
          have hnot : pattern.length ≠ 0 := by
            intro hzero
            rw [List.length_eq_zero_iff] at hzero
            subst hzero
            exact hbefore 0 (Nat.succ_pos _) List.nil_prefix
          have hroom := List.IsPrefix.length_le hoccurs
          rw [List.append_nil, List.length_drop] at hroom
          omega
  | cons c rest ih =>
      intro window place hlength hbefore hoccurs
      cases place with
      | zero => rw [seek, if_pos ((occursAt_zero hlength).mp hoccurs)]
      | succ place =>
          have hne : window ≠ pattern :=
            fun h => hbefore 0 (Nat.succ_pos _) ((occursAt_zero hlength).mpr h)
          have hwindow : window ≠ [] := by
            rintro rfl
            exact hne (List.length_eq_zero_iff.mp hlength.symm).symm
          have hshift : ∀ i, OccursAt pattern (slide window c ++ rest) i ↔
              OccursAt pattern (window ++ c :: rest) (i + 1) := by
            intro i
            rw [slide_append hwindow, OccursAt, OccursAt, List.drop_drop, Nat.add_comm]
          rw [seek, if_neg hne, ih ((slide_length hwindow c).trans hlength)
            (fun i hi => mt (hshift i).mp (hbefore (i + 1) (Nat.succ_lt_succ hi)))
            ((hshift place).mpr hoccurs)]
          rfl

theorem seek_eq_none {pattern rest window : List α} (hlength : window.length = pattern.length)
    (hnowhere : ∀ place, ¬OccursAt pattern (window ++ rest) place) :
    seek pattern window rest = none := by
  have hne : window ≠ pattern := fun h => hnowhere 0 ((occursAt_zero hlength).mpr h)
  induction rest generalizing window with
  | nil => rw [seek, if_neg hne]
  | cons c rest ih =>
      have hwindow : window ≠ [] := by
        rintro rfl
        exact hne (List.length_eq_zero_iff.mp hlength.symm).symm
      have hslid : (slide window c).length = pattern.length :=
        (slide_length hwindow c).trans hlength
      have hlater : ∀ place, ¬OccursAt pattern (slide window c ++ rest) place := by
        intro place hoccurs
        rw [slide_append hwindow, OccursAt, List.drop_drop] at hoccurs
        exact hnowhere (1 + place) hoccurs
      rw [seek, if_neg hne,
        ih hslid hlater fun h => hlater 0 ((occursAt_zero hslid).mpr h)]
      rfl

theorem seek_first {pattern before rest window stream : List α} (h : FirstAfter pattern before)
    (hlength : window.length = pattern.length)
    (hstream : window ++ stream = before ++ pattern ++ rest) :
    seek pattern window stream = some before.length := by
  apply seek_eq_some hlength
  · intro i hi
    rw [hstream]
    exact h.append rest hi
  · rw [hstream, OccursAt, List.append_assoc, List.drop_left]
    exact List.prefix_append _ _

end BeeC.Wire.WindowSearch
