import Mathlib.Data.List.Basic

namespace BeeC.Wire.Absorb

variable {σ α : Type} (take : σ → List α → σ) (n : Nat)

/-- Take so many blocks. -/
def absorbBlocks : (count : Nat) → σ → List α → σ × List α
  | 0, s, data => (s, data)
  | count + 1, s, data => absorbBlocks count (take s (data.take n)) (data.drop n)

/-- Take all full blocks. -/
def absorb (s : σ) (data : List α) : σ × List α := absorbBlocks take n (data.length / n) s data

variable {take n}

theorem absorb_short {data : List α} (h : data.length < n) (s : σ) :
    absorb take n s data = (s, data) := by
  unfold absorb
  rw [Nat.div_eq_of_lt h]
  rfl

theorem absorb_step (hn : 0 < n) {data : List α} (h : n ≤ data.length) (s : σ) :
    absorb take n s data = absorb take n (take s (data.take n)) (data.drop n) := by
  have hcount : data.length / n = (data.drop n).length / n + 1 := by
    rw [List.length_drop, ← Nat.sub_add_cancel h, Nat.add_div_right _ hn, Nat.add_sub_cancel]
  unfold absorb
  rw [hcount]
  rfl

theorem absorb_block (hn : 0 < n) {block : List α} (h : block.length = n) (rest : List α) (s : σ) :
    absorb take n s (block ++ rest) = absorb take n (take s block) rest := by
  rw [absorb_step hn (by rw [List.length_append]; omega), List.take_left' h, List.drop_left' h]

theorem absorb_exact (hn : 0 < n) {block : List α} (h : block.length = n) (s : σ) :
    absorb take n s block = (take s block, []) := by
  have hblock := @absorb_block _ _ take n hn _ h [] s
  rw [List.append_nil] at hblock
  rw [hblock]
  exact absorb_short hn _

theorem blocks_induction (hn : 0 < n) {P : List α → Prop}
    (short : ∀ data, data.length < n → P data)
    (block : ∀ data, n ≤ data.length → P (data.drop n) → P data) (data : List α) : P data := by
  induction hlength : data.length using Nat.strongRecOn generalizing data with
  | ind length ih =>
      rcases Nat.lt_or_ge data.length n with hshort | hlong
      · exact short data hshort
      · apply block data hlong
        exact ih (data.drop n).length (by rw [List.length_drop]; omega) _ rfl

theorem absorb_append (hn : 0 < n) (s : σ) (front back : List α) :
    absorb take n s (front ++ back) =
      absorb take n (absorb take n s front).1 ((absorb take n s front).2 ++ back) := by
  induction front using blocks_induction hn generalizing s with
  | short front hshort => rw [absorb_short hshort]
  | block front hlong ih =>
      rw [absorb_step hn hlong, absorb_step hn (by rw [List.length_append]; omega),
        List.take_append_of_le_length hlong, List.drop_append_of_le_length hlong]
      exact ih _

theorem absorb_rest_length (hn : 0 < n) (s : σ) (data : List α) :
    (absorb take n s data).2.length = data.length % n := by
  induction data using blocks_induction hn generalizing s with
  | short data hshort => rw [absorb_short hshort, Nat.mod_eq_of_lt hshort]
  | block data hlong ih =>
      rw [absorb_step hn hlong, ih, List.length_drop, ← Nat.mod_eq_sub_mod hlong]

end BeeC.Wire.Absorb
