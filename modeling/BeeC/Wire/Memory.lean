import Mathlib.Data.List.Basic

/-!
Blocks of memory that are overwritten in place, and a cursor that writes one byte string after
the other. What would write or read outside the block has no result.
-/

namespace BeeC.Wire.Memory

/-- Overwrite the bytes from an offset on. -/
def poke (mem : List UInt8) (offset : Nat) (data : List UInt8) : Option (List UInt8) :=
  if offset + data.length ≤ mem.length then
    some (mem.take offset ++ (data ++ mem.drop (offset + data.length)))
  else none

/-- The items of a block from an offset on. -/
def peek {α : Type} (mem : List α) (offset count : Nat) : Option (List α) :=
  if offset + count ≤ mem.length then some ((mem.drop offset).take count) else none

/-- Copy bytes within the block. The two ranges may overlap. -/
def move (mem : List UInt8) (target source count : Nat) : Option (List UInt8) :=
  if source + count ≤ mem.length then poke mem target ((mem.drop source).take count) else none

theorem poke_length {mem mem' : List UInt8} {offset : Nat} {data : List UInt8}
    (h : poke mem offset data = some mem') : mem'.length = mem.length := by
  unfold poke at h
  split at h
  · cases h
    simp only [List.length_append, List.length_take, List.length_drop]
    omega
  · cases h

theorem poke_drop {mem mem' : List UInt8} {offset n : Nat} {data : List UInt8}
    (h : poke mem offset data = some mem') (hn : offset + data.length ≤ n) :
    mem'.drop n = mem.drop n := by
  unfold poke at h
  split at h
  · cases h
    have hlength : (mem.take offset ++ data).length = offset + data.length := by
      rw [List.length_append, List.length_take]
      omega
    rw [← List.append_assoc, List.drop_append, hlength, List.drop_drop,
      List.drop_eq_nil_of_le (Nat.le_trans (Nat.le_of_eq hlength) hn), List.nil_append, Nat.add_sub_cancel' hn]
  · cases h

theorem take_overwritten_iff {mem bytes : List UInt8} {count : Nat} (hcount : count ≤ mem.length) :
    (bytes ++ mem.drop bytes.length).take count = mem.take count ↔
      bytes <+: mem.take count ∨ mem.take count <+: bytes := by
  have hlength : (mem.take count).length = count := by
    rw [List.length_take]
    omega
  by_cases hshort : bytes.length ≤ count
  · have htake : (bytes ++ mem.drop bytes.length).take count =
        bytes ++ (mem.take count).drop bytes.length := by
      rw [List.take_append, List.take_of_length_le hshort, List.drop_take]
    rw [htake]
    constructor
    · intro h
      exact .inl ⟨_, h⟩
    · rintro (⟨after, hafter⟩ | halike)
      · rw [← hafter, List.drop_left]
      · rw [← halike.eq_of_length_le (by omega), List.drop_length, List.append_nil]
  · have htake : (bytes ++ mem.drop bytes.length).take count = bytes.take count :=
      List.take_append_of_le_length (by omega)
    rw [htake]
    constructor
    · intro h
      exact .inr (h ▸ List.take_prefix count bytes)
    · rintro (halike | halike)
      · have hle := halike.length_le
        omega
      · rw [List.prefix_iff_eq_take, hlength] at halike
        exact halike.symm

theorem poke_append {before old data after : List UInt8} (h : old.length = data.length) :
    poke (before ++ (old ++ after)) before.length data = some (before ++ (data ++ after)) := by
  have hfits : before.length + data.length ≤ (before ++ (old ++ after)).length := by
    simp only [List.length_append]
    omega
  rw [poke, if_pos hfits, List.take_left, List.drop_append, ← h]
  simp

theorem poke_room {before room data : List UInt8} (h : data.length ≤ room.length) :
    poke (before ++ room) before.length data =
      some ((before ++ data) ++ room.drop data.length) := by
  have hroom : (room.take data.length).length = data.length := by
    rw [List.length_take]; omega
  rw [← List.take_append_drop data.length room, poke_append hroom, List.take_append_drop,
    List.append_assoc]

theorem peek_append {α : Type} {before data after : List α} {count : Nat}
    (h : count = data.length) : peek (before ++ (data ++ after)) before.length count = some data := by
  have hfits : before.length + count ≤ (before ++ (data ++ after)).length := by
    simp only [List.length_append]
    omega
  rw [peek, if_pos hfits, List.drop_left, List.take_left' h.symm]

theorem move_up {before elements room : List UInt8} (header : UInt8) {more : Nat}
    (h : more ≤ room.length) :
    ∃ gap, gap.length = more + 1 ∧
      move (before ++ (header :: (elements ++ room))) (before.length + (more + 1))
        (before.length + 1) elements.length =
          some (before ++ (gap ++ (elements ++ room.drop more))) := by
  have hsource : ((before ++ (header :: (elements ++ room))).drop (before.length + 1)).take
      elements.length = elements := by
    rw [← List.drop_drop, List.drop_left, List.drop_succ_cons, List.drop_zero, List.take_left]
  have hfits : before.length + 1 + elements.length ≤
      (before ++ (header :: (elements ++ room))).length := by
    simp only [List.length_append, List.length_cons]
    omega
  have hgap : ((elements ++ room).take more).length = more := by
    rw [List.length_take, List.length_append]
    omega
  have hold : (((elements ++ room).drop more).take elements.length).length =
      elements.length := by
    rw [List.length_take, List.length_drop, List.length_append]
    omega
  have hafter : ((elements ++ room).drop more).drop elements.length = room.drop more := by
    rw [List.drop_drop, Nat.add_comm, ← List.drop_drop, List.drop_left]
  have hsplit : before ++ (header :: (elements ++ room)) =
      (before ++ (header :: (elements ++ room).take more)) ++
        (((elements ++ room).drop more).take elements.length ++ room.drop more) := by
    rw [← hafter, List.take_append_drop, List.append_assoc, List.cons_append,
      List.take_append_drop]
  have htarget : (before ++ (header :: (elements ++ room).take more)).length =
      before.length + (more + 1) := by
    rw [List.length_append, List.length_cons, hgap]
  refine ⟨header :: (elements ++ room).take more, by rw [List.length_cons, hgap], ?_⟩
  rw [move, if_pos hfits, hsource, hsplit, ← htarget, poke_append hold]
  simp only [List.append_assoc, List.cons_append]

/-- A block and the place in it where the next bytes go. -/
structure Cursor where
  mem : List UInt8
  pos : Nat

namespace Cursor

def put (c : Cursor) (data : List UInt8) : Option Cursor :=
  (poke c.mem c.pos data).map fun mem => ⟨mem, c.pos + data.length⟩

/-- The bytes between two offsets. -/
def slice (c : Cursor) (start stop : Nat) : List UInt8 := (c.mem.drop start).take (stop - start)

theorem put_eq {before room data : List UInt8} (h : data.length ≤ room.length) :
    put ⟨before ++ room, before.length⟩ data =
      some ⟨(before ++ data) ++ room.drop data.length, (before ++ data).length⟩ := by
  rw [put, poke_room h, Option.map_some, List.length_append]

/-- Bytes have been written up to the cursor, into a block of the given size. -/
def Holds (c : Cursor) (bytes : List UInt8) (size : Nat) : Prop :=
  ∃ room, c = ⟨bytes ++ room, bytes.length⟩ ∧ bytes.length + room.length = size

theorem Holds.pos_eq {c : Cursor} {bytes : List UInt8} {size : Nat} (h : c.Holds bytes size) :
    c.pos = bytes.length := by
  obtain ⟨room, rfl, -⟩ := h
  rfl

theorem Holds.put {c : Cursor} {bytes : List UInt8} {size : Nat} (h : c.Holds bytes size)
    (data : List UInt8) (hroom : bytes.length + data.length ≤ size) :
    ∃ c', c.put data = some c' ∧ c'.Holds (bytes ++ data) size := by
  obtain ⟨room, rfl, hsize⟩ := h
  refine ⟨_, put_eq (by omega), _, rfl, ?_⟩
  rw [List.length_append, List.length_drop]
  omega

theorem Holds.skip {c : Cursor} {bytes : List UInt8} {size : Nat} (h : c.Holds bytes size)
    (hroom : bytes.length < size) : ∃ gap, Holds ⟨c.mem, c.pos + 1⟩ (bytes ++ [gap]) size := by
  obtain ⟨room, rfl, hsize⟩ := h
  cases room with
  | nil => simp at hsize; omega
  | cons gap room =>
      refine ⟨gap, room, by simp, ?_⟩
      rw [← hsize]
      simp
      omega

theorem Holds.slice {c : Cursor} {before data after : List UInt8} {size start stop : Nat}
    (h : c.Holds (before ++ (data ++ after)) size) (hstart : start = before.length)
    (hstop : stop = before.length + data.length) : c.slice start stop = data := by
  obtain ⟨room, rfl, -⟩ := h
  subst hstart hstop
  simp [Cursor.slice]

theorem Holds.slice_pos {c : Cursor} {data : List UInt8} {size : Nat} (h : c.Holds data size) :
    c.slice 0 c.pos = data := by
  have h' : c.Holds ([] ++ (data ++ [])) size := by simpa using h
  exact h'.slice rfl (by rw [h.pos_eq, List.length_nil, Nat.zero_add])

end Cursor

end BeeC.Wire.Memory
