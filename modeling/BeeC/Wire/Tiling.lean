import BeeC.Wire.MessagePack

namespace BeeC.Wire.Tiling

open BeeC.Wire.MessagePack

/-- A range of offsets, from the first to the one behind the last. -/
abbrev Range := Nat × Nat

/-- The ranges lead from one offset to another, each starts where the one before it ends, and each
of them holds one complete value. -/
def Tiles (buf : Bytes) : (start : Nat) → List Range → (stop : Nat) → Prop
  | start, [], stop => start = stop
  | start, range :: ranges, stop =>
      range.1 = start ∧ range.1 ≤ range.2 ∧ range.2 ≤ buf.length ∧
        IsValue ((buf.drop range.1).take (range.2 - range.1)) ∧ Tiles buf range.2 ranges stop

/-- The ranges of some byte strings that stand one behind the other. -/
def tile : (start : Nat) → List Bytes → List Range
  | _, [] => []
  | start, x :: xs => (start, start + x.length) :: tile (start + x.length) xs

theorem tile_append (start : Nat) (xs ys : List Bytes) :
    tile start (xs ++ ys) = tile start xs ++ tile (start + xs.flatten.length) ys := by
  induction xs generalizing start with
  | nil => rfl
  | cons x xs ih =>
      rw [List.cons_append, tile, tile, ih, List.cons_append, List.flatten_cons,
        List.length_append, Nat.add_assoc]

theorem tiles_tile {before rest : Bytes} {xs : List Bytes} (h : ∀ x ∈ xs, IsValue x) :
    Tiles (before ++ (xs.flatten ++ rest)) before.length (tile before.length xs)
      (before.length + xs.flatten.length) := by
  induction xs generalizing before with
  | nil => rfl
  | cons x xs ih =>
      rw [List.forall_mem_cons] at h
      have hsplit : before ++ ((x :: xs).flatten ++ rest) =
          (before ++ x) ++ (xs.flatten ++ rest) := by
        rw [List.flatten_cons]
        simp only [List.append_assoc]
      have hlength : (before ++ x).length = before.length + x.length := List.length_append
      have hrest := @ih (before ++ x) h.2
      rw [← hsplit, hlength] at hrest
      refine ⟨rfl, Nat.le_add_right _ _, ?_, ?_, ?_⟩
      · simp only [List.length_append, List.flatten_cons]
        omega
      · dsimp only
        rw [hsplit, List.append_assoc, List.drop_left, Nat.add_sub_cancel_left, List.take_left]
        exact h.1
      · rw [List.flatten_cons, List.length_append, ← Nat.add_assoc]
        exact hrest

/-- The ranges of groups of byte strings that stand one behind the other. -/
def tileGroups : (start : Nat) → List (List Bytes) → List (List Range)
  | _, [] => []
  | start, group :: groups => tile start group :: tileGroups (start + group.flatten.length) groups

theorem tileGroups_flatten (start : Nat) (groups : List (List Bytes)) :
    (tileGroups start groups).flatten = tile start groups.flatten := by
  induction groups generalizing start with
  | nil => rfl
  | cons group groups ih =>
      rw [tileGroups, List.flatten_cons, List.flatten_cons, tile_append, ih]

theorem tileGroups_length (start : Nat) (groups : List (List Bytes)) :
    (tileGroups start groups).length = groups.length := by
  induction groups generalizing start with
  | nil => rfl
  | cons group groups ih => rw [tileGroups, List.length_cons, ih, List.length_cons]

theorem tileGroups_append (start : Nat) (groups more : List (List Bytes)) :
    tileGroups start (groups ++ more) =
      tileGroups start groups ++ tileGroups (start + groups.flatten.flatten.length) more := by
  induction groups generalizing start with
  | nil => rfl
  | cons group groups ih =>
      rw [List.cons_append, tileGroups, tileGroups, ih, List.cons_append, List.flatten_cons,
        List.flatten_append, List.length_append, Nat.add_assoc]

theorem tileGroups_getElem? (start : Nat) (before : List (List Bytes)) (group : List Bytes)
    (after : List (List Bytes)) :
    (tileGroups start (before ++ group :: after))[before.length]? =
      some (tile (start + before.flatten.flatten.length) group) := by
  have hlength := tileGroups_length start before
  rw [tileGroups_append, ← hlength, List.getElem?_append_right (le_refl _), Nat.sub_self]
  rfl

theorem tile_length (start : Nat) (xs : List Bytes) : (tile start xs).length = xs.length := by
  induction xs generalizing start with
  | nil => rfl
  | cons x xs ih => rw [tile, List.length_cons, ih, List.length_cons]

theorem exists_group_of_mem {start : Nat} {groups : List (List Bytes)} {ranges : List Range}
    (h : ranges ∈ tileGroups start groups) : ∃ group ∈ groups, ranges.length = group.length := by
  induction groups generalizing start with
  | nil => cases h
  | cons group groups ih =>
      rcases List.mem_cons.mp h with rfl | hmem
      · exact ⟨group, List.mem_cons_self, tile_length _ _⟩
      · obtain ⟨other, hother, hlength⟩ := ih hmem
        exact ⟨other, List.mem_cons_of_mem _ hother, hlength⟩

end BeeC.Wire.Tiling
