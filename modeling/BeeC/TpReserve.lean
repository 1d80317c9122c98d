import BeeC.TpFraming

namespace BeeC

open BeeC.Wire
open BeeC.Wire.Loop
open BeeC.Wire.MessagePack

variable {τ : Type}

/-- `realloc`, with the state of the memory it takes blocks from: of a block at an address and of a
size, the address and the bytes of the block of the other size, or no block. -/
abbrev Realloc (τ : Type) := τ → Nat → Bytes → Nat → Option (Nat × Bytes) × τ

/-- A block has the size that is asked for, and the bytes of the old one as far as they fit. No
block is larger than a difference of pointers can be. -/
def Realloc.Lawful (realloc : Realloc τ) : Prop :=
  ∀ (obj : τ) (ptr : Nat) (block : Bytes) (size np : Nat) (mem : Bytes) (obj' : τ),
    realloc obj ptr block size = (some (np, mem), obj') →
      mem.length = size ∧ mem.take block.length = block.take size ∧ size < 2 ^ 63

namespace Tp

def tpSize (t : Tp τ) : Nat := t.e - t.s

def tpUsed (t : Tp τ) : Nat := t.p - t.s

def tpUnused (t : Tp τ) : Nat := t.e - t.p

/-- `toalloc`, a `size_t`. -/
def toalloc (t : Tp τ) (required : Nat) : Nat :=
  let toalloc := t.tpSize * 2 % 2 ^ 64
  if toalloc < required then (t.tpSize + required) % 2 ^ 64 else toalloc

end Tp

/-- `tp_realloc`. -/
def tpRealloc (realloc : Realloc τ) : TpReserve τ := fun t required =>
  realloc t.obj t.s t.mem (t.toalloc required)

/-- The room is there, so that nothing of that length is written outside of the block; the bytes in
use are the same, and the two fields are at the same offsets. -/
structure Tp.Ensured (t t' : Tp τ) (required : Nat) : Prop where
  room : required ≤ t'.tpUnused
  writes : ∀ parts : List Bytes, parts.flatten.length ≤ required →
    ∃ result, t'.encode t'.p parts = .ok result
  used_eq : t'.tpUsed = t.tpUsed ∧ t'.used = t.used
  size_eq : t'.size.map (· - t'.s) = t.size.map (· - t.s)
  sync_eq : t'.sync.map (· - t'.s) = t.sync.map (· - t.s)

/-- There is room already, or as much in a block of twice the size. Or twice the size is less than
what is asked for, and that and the size are a number of 64 bits. -/
def Tp.Reservable (t : Tp τ) (required : Nat) : Prop :=
  required ≤ t.tpUnused ∨ t.tpUsed + required ≤ 2 * t.tpSize ∨
    2 * t.tpSize < required ∧ t.tpSize + required < 2 ^ 64

namespace Tp

variable {t : Tp τ} {used : Bytes} {size sync : Option Nat}

theorem map_offset (s : Nat) (offset : Option Nat) :
    (offset.map (s + ·)).map (· - s) = offset := by
  cases offset with
  | none => rfl
  | some offset => exact congrArg some (Nat.add_sub_cancel_left s offset)

theorem Holds.sizes (h : t.Holds used size sync) : t.tpSize = t.mem.length ∧
    t.tpUsed = used.length ∧ t.tpUnused = t.mem.length - used.length ∧
    used.length ≤ t.mem.length := by
  obtain ⟨room, hmem⟩ := h.mem_eq
  refine ⟨?_, ?_, ?_, ?_⟩
  · rw [tpSize, h.e_eq, Nat.add_sub_cancel_left]
  · rw [tpUsed, h.p_eq, Nat.add_sub_cancel_left]
  · rw [tpUnused, h.e_eq, h.p_eq, Nat.add_sub_add_left]
  · rw [hmem, List.length_append]
    exact Nat.le_add_right _ _

theorem Holds.ensured (h : t.Holds used size sync) {t' : Tp τ} (h' : t'.Holds used size sync)
    {required : Nat} (hroom : required ≤ t'.tpUnused) : t.Ensured t' required := by
  refine ⟨hroom, fun parts hparts => ?_, ?_, ?_, ?_⟩
  · obtain ⟨room, hmem⟩ := h'.mem_eq
    have hlength : parts.flatten.length ≤ room.length := by
      rw [h'.sizes.2.2.1, hmem, List.length_append, Nat.add_sub_cancel_left] at hroom
      exact hparts.trans hroom
    rw [h'.p_eq, encode_eq hmem hlength]
    exact ⟨_, rfl⟩
  · rw [h'.sizes.2.1, h.sizes.2.1, h'.used_eq, h.used_eq]
    exact ⟨rfl, rfl⟩
  · rw [h'.size_eq, h.size_eq, map_offset, map_offset]
  · rw [h'.sync_eq, h.sync_eq, map_offset, map_offset]

theorem Holds.toalloc_iff (h : t.Holds used size sync) {required : Nat}
    (hfull : ¬required ≤ t.tpUnused) :
    t.tpUsed + required ≤ t.toalloc required ↔ t.Reservable required := by
  obtain ⟨hsize, hused, hunused, hle⟩ := h.sizes
  have hlt := h.length_lt
  rw [Reservable, toalloc, hsize, hused]
  rw [hunused] at hfull ⊢
  have hmod : t.mem.length * 2 % 2 ^ 64 = 2 * t.mem.length := by
    rw [Nat.mod_eq_of_lt (by omega), Nat.mul_comm]
  simp only [hmod]
  split
  · by_cases hwrap : t.mem.length + required < 2 ^ 64
    · rw [Nat.mod_eq_of_lt hwrap]
      omega
    · have hless : (t.mem.length + required) % 2 ^ 64 < required := by omega
      omega
  · omega

end Tp

/-- With `tp_realloc`, in every state of the buffer and for every size, what `tp_ensure` promises
holds exactly if the room is reservable, or there is no block to be had and it says so. -/
theorem tpEnsure_ensured_iff {realloc : Realloc τ} (hrealloc : realloc.Lawful) {t : Tp τ}
    {used : Bytes} {size sync : Option Nat} (h : t.Holds used size sync) (required : Nat) :
    ((t.tpEnsure (some (tpRealloc realloc)) required).1 ≠ -1 →
      t.Ensured (t.tpEnsure (some (tpRealloc realloc)) required).2 required) ↔
    t.Reservable required ∨
      (realloc t.obj t.s t.mem (t.toalloc required)).1 = none := by
  obtain ⟨hsize, hused, hunused, hle⟩ := h.sizes
  by_cases hroom : required ≤ t.tpUnused
  · have hensure : t.tpEnsure (some (tpRealloc realloc)) required = (0, t) := if_pos hroom
    rw [hensure]
    exact iff_of_true (fun _ => h.ensured h hroom) (.inl (.inl hroom))
  rw [← h.toalloc_iff hroom]
  have hensure : t.tpEnsure (some (tpRealloc realloc)) required = _ := if_neg hroom
  rw [hensure]
  dsimp only [tpRealloc]
  rcases hnew : realloc t.obj t.s t.mem (t.toalloc required) with ⟨_ | ⟨np, mem⟩, obj⟩
  · exact iff_of_true (fun hrc => absurd rfl hrc) (.inr rfl)
  obtain ⟨hlength, hbytes, hlt⟩ := hrealloc _ _ _ _ _ _ _ hnew
  have hrc : ((mem.length : Nat) : Int) ≠ -1 := by omega
  dsimp only
  rw [or_iff_left (fun h => nomatch h)]
  constructor
  · intro hensured
    have hroom' : required ≤ np + mem.length - (np + t.tpUsed) := (hensured hrc).room
    omega
  · intro henough _
    rw [← hlength, hused] at henough
    have hkept : mem.take used.length = used := by
      obtain ⟨room, hmem⟩ := h.mem_eq
      have htake := congrArg (List.take used.length) hbytes
      rw [List.take_take, List.take_take, Nat.min_eq_left hle, Nat.min_eq_left (by omega), hmem,
        List.take_left] at htake
      exact htake
    have hmem : mem = used ++ mem.drop used.length := by
      conv_lhs => rw [← List.take_append_drop used.length mem, hkept]
    have hmoved := h.move hmem (hlength ▸ hlt) np obj
    refine h.ensured hmoved ?_
    rw [hmoved.sizes.2.2.1]
    dsimp only
    omega

/-- A memory that has room behind every block. -/
def extending : Realloc Unit := fun _ ptr block size =>
  if size < 2 ^ 63 then
    (some (ptr, block.take size ++ List.replicate (size - block.length) 0), ())
  else (none, ())

theorem extending_lawful : extending.Lawful := by
  intro obj ptr block size np mem obj' h
  unfold extending at h
  split at h
  · rename_i hlt
    cases h
    refine ⟨?_, ?_, hlt⟩
    · rw [List.length_append, List.length_take, List.length_replicate]
      omega
    · by_cases hle : block.length ≤ size
      · rw [List.take_of_length_le hle, List.take_left]
      · rw [show size - block.length = 0 by omega, List.replicate_zero, List.append_nil,
          List.take_take, Nat.min_eq_right (by omega)]
  · cases h

/-- Five bytes, four of them in use, and both of the fields. -/
def partlyUsed : Tp Unit :=
  { Tp.tpInit 16 [1, 2, 3, 4, 0] () with p := 20, size := some 16, sync := some 18 }

theorem tpEnsure_ensured_iff_partlyUsed :
    partlyUsed.Ensured (partlyUsed.tpEnsure (some (tpRealloc extending)) 6).2 6 :=
  have hused : partlyUsed.Holds [1, 2, 3, 4] (some 0) (some 2) :=
    ⟨⟨[0], rfl⟩, rfl, rfl, rfl, rfl, by decide⟩
  (tpEnsure_ensured_iff extending_lawful hused 6).mpr (.inl (.inr (.inl (by decide)))) (by decide)

/-- Four bytes, three of them in use. -/
def nearlyFull : Tp Unit := { Tp.tpInit 0 [1, 2, 3, 0] () with p := 3 }

/-- Six more bytes are asked for, and the block becomes one of eight. -/
theorem not_tpEnsure_ensured :
    nearlyFull.Holds [1, 2, 3] none none ∧
      (nearlyFull.tpEnsure (some (tpRealloc extending)) 6).1 ≠ -1 ∧
      ¬nearlyFull.Ensured (nearlyFull.tpEnsure (some (tpRealloc extending)) 6).2 6 :=
  ⟨⟨⟨[0], rfl⟩, rfl, rfl, rfl, rfl, by decide⟩, by decide,
    fun h => absurd h.room (by decide)⟩

end BeeC
