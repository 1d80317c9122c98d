import BeeC.Wire.Loop
import Mathlib.Data.List.Basic

/-!
Blocks of memory that are allocated one after another, and are freed at most once. A block that is
freed remembers what it held in the end, but it can no longer be read. Nothing here refers to a
program.
-/

namespace BeeC.Wire.Blocks

variable {α : Type}

/-- What must not be done to a block. -/
inductive Misuse where
  | usedAfterFree
  | freedTwice
  | wildPointer
  deriving DecidableEq, Repr

structure Block (α : Type) where
  held : α
  live : Bool := true
  deriving DecidableEq, Repr

namespace Block

def read (block : Block α) : Except Misuse α :=
  if block.live then .ok block.held else .error .usedAfterFree

def free (block : Block α) : Except Misuse (Block α) :=
  if block.live then .ok { block with live := false } else .error .freedTwice

theorem read_of_live {block : Block α} (h : block.live = true) : block.read = .ok block.held :=
  if_pos h

theorem free_of_live {block : Block α} (h : block.live = true) :
    block.free = .ok { block with live := false } :=
  if_pos h

end Block

/-- Apply a function to the block that a pointer leads to. -/
def reach {β : Type} (f : Block α → Except Misuse β) (blocks : List (Block α)) (ref : Nat) :
    Except Misuse β :=
  match blocks[ref]? with
  | none => .error .wildPointer
  | some block => f block

def readAt (blocks : List (Block α)) (ref : Nat) : Except Misuse α := reach Block.read blocks ref

/-- Free a block, which has come to hold this. -/
def freeAt (blocks : List (Block α)) (ref : Nat) (last : α) : Except Misuse (List (Block α)) :=
  reach (fun block => do
    let block ← { block with held := last }.free
    return blocks.set ref block) blocks ref

/-- Change what a block holds. -/
def updateAt (blocks : List (Block α)) (ref : Nat) (f : α → α) : List (Block α) :=
  blocks.modify ref fun block => { block with held := f block.held }

/-- A pointer leads to a live block that holds this. -/
def LiveAt (blocks : List (Block α)) (ref : Nat) (held : α) : Prop :=
  blocks[ref]? = some ⟨held, true⟩

/-- A pointer leads to a block that was freed, and held this in the end. -/
def FreedAt (blocks : List (Block α)) (ref : Nat) (held : α) : Prop :=
  blocks[ref]? = some ⟨held, false⟩

variable {blocks : List (Block α)} {ref other : Nat} {held held' : α}

theorem LiveAt.unique (h : LiveAt blocks ref held) (h' : LiveAt blocks ref held') : held = held' :=
  congrArg Block.held (Option.some.inj (h.symm.trans h'))

theorem LiveAt.readAt (h : LiveAt blocks ref held) : readAt blocks ref = .ok held := by
  rw [Blocks.readAt, reach, h]
  rfl

theorem LiveAt.freeAt (h : LiveAt blocks ref held) (last : α) :
    freeAt blocks ref last = .ok (blocks.set ref ⟨last, false⟩) := by
  rw [Blocks.freeAt, reach, h]
  rfl

theorem LiveAt.set_ne (h : LiveAt blocks ref held) (block : Block α) (hne : ref ≠ other) :
    LiveAt (blocks.set other block) ref held := by
  rw [LiveAt, List.getElem?_set_ne hne.symm]
  exact h

theorem LiveAt.of_freed {last : α} (h : LiveAt (blocks.set other ⟨last, false⟩) ref held) :
    LiveAt blocks ref held := by
  rw [LiveAt, List.getElem?_set] at h
  split at h
  · split at h <;> cases h
  · exact h

theorem FreedAt.of_freed {last : α} (h : FreedAt (blocks.set other ⟨last, false⟩) ref held) :
    held = last ∨ FreedAt blocks ref held := by
  rw [FreedAt, List.getElem?_set] at h
  split at h
  · split at h
    · cases h
      exact .inl rfl
    · cases h
  · exact .inr h

/-- Freeing is all that has been done to the blocks. -/
structure Aged (blocks blocks' : List (Block α)) : Prop where
  live : ∀ ref held, LiveAt blocks' ref held → LiveAt blocks ref held
  freed : ∀ ref held, FreedAt blocks ref held → FreedAt blocks' ref held

theorem Aged.refl (blocks : List (Block α)) : Aged blocks blocks := ⟨fun _ _ h => h, fun _ _ h => h⟩

theorem Aged.trans {between blocks' : List (Block α)} (h : Aged blocks between)
    (h' : Aged between blocks') : Aged blocks blocks' :=
  ⟨fun ref held hlive => h.live ref held (h'.live ref held hlive),
    fun ref held hfreed => h'.freed ref held (h.freed ref held hfreed)⟩

theorem LiveAt.freed (h : LiveAt blocks ref held) (last : α) :
    FreedAt (blocks.set ref ⟨last, false⟩) ref last :=
  List.getElem?_set_self (List.getElem?_eq_some_iff.mp h).1

theorem LiveAt.aged (h : LiveAt blocks ref held) (last : α) :
    Aged blocks (blocks.set ref ⟨last, false⟩) where
  live _ _ hlive := hlive.of_freed
  freed := by
    intro other held' hfreed
    rw [FreedAt, List.getElem?_set_ne]
    · exact hfreed
    · rintro rfl
      rw [LiveAt, hfreed] at h
      cases h

theorem LiveAt.append (h : LiveAt blocks ref held) (more : List (Block α)) :
    LiveAt (blocks ++ more) ref held := by
  rw [LiveAt, List.getElem?_append_left (List.getElem?_eq_some_iff.mp h).1]
  exact h

theorem LiveAt.append_right {more : List (Block α)} (h : LiveAt more ref held) :
    LiveAt (blocks ++ more) (blocks.length + ref) held := by
  rw [LiveAt, List.getElem?_append_right (Nat.le_add_right _ _), Nat.add_sub_cancel_left]
  exact h

theorem LiveAt.updateAt (h : LiveAt blocks ref held) (f : α → α) (other : Nat) :
    LiveAt (updateAt blocks other f) ref (if other = ref then f held else held) := by
  rw [LiveAt, Blocks.updateAt, List.getElem?_modify, h]
  split <;> rfl

theorem FreedAt.of_updateAt {f : α → α} (h : FreedAt (updateAt blocks other f) ref held)
    (hlive : LiveAt blocks other held') : FreedAt blocks ref held := by
  rw [FreedAt, updateAt, List.getElem?_modify] at h
  split at h
  · next heq =>
    rw [← heq, hlive] at h
    cases h
  · rw [id_map'] at h
    exact h

theorem map_updateAt {β : Type} {f : α → α} {g : β → β} {v : α → β}
    (hlive : LiveAt blocks ref held) (hv : v (f held) = g (v held)) :
    (updateAt blocks ref f).map (fun block => v block.held) =
      (blocks.map fun block => v block.held).modify ref g := by
  apply List.ext_getElem?
  intro other
  rw [updateAt, List.getElem?_map, List.getElem?_modify, List.getElem?_modify, List.getElem?_map]
  split
  · next heq =>
    subst heq
    rw [hlive]
    exact congrArg some hv
  · simp

theorem FreedAt.of_append {more : List (Block α)} (h : FreedAt (blocks ++ more) ref held)
    (hlive : ∀ block ∈ more, block.live = true) : FreedAt blocks ref held := by
  rw [FreedAt, List.getElem?_append] at h
  split at h
  · exact h
  · cases hlive _ (List.mem_of_getElem? h)

end BeeC.Wire.Blocks
