import BeeC.Object
import BeeC.Wire.Loop

/-!
Streams in memory (`beer_buf.c`). Allocations succeed.
-/

namespace BeeC

open BeeC.Wire
open BeeC.Wire.Loop
open BeeC.Wire.MessagePack

/-- A stream over `struct beer_stream_buf`: the block `data`, of which `size` bytes are used and
`rdoff` bytes have been read. -/
structure Buf where
  wrcnt : UInt32 := 0
  data : Option Bytes := none
  size : Nat := 0
  alloc : Nat := 0
  rdoff : Nat := 0
  as : Bool := false
  deriving DecidableEq, Repr

/-- `beer_buf(NULL)`. -/
def beerBuf : Buf := {}

/-- `realloc`. What it adds has no determined value; its callers overwrite all of it. A block that
is to have no bytes is freed, and there is none in its place. -/
def realloc (data : Option Bytes) (size : Nat) : Option Bytes :=
  if data.isSome ∧ size = 0 then none
  else some ((data.getD []).take size ++ List.replicate (size - (data.getD []).length) 0)

namespace Buf

/-- The bytes in use. -/
def contents (s : Buf) : Bytes := (s.data.getD []).take s.size

/-- The bytes in use that have not been read. -/
def unread (s : Buf) : Bytes := s.contents.drop s.rdoff

/-- `memcpy` into the block. -/
def store (s : Buf) (offset : Nat) (bytes : Bytes) : Except Fault Buf :=
  match s.data with
  | none => .error .nullPointer
  | some mem =>
      match Memory.poke mem offset bytes with
      | none => .error .outOfBounds
      | some mem => .ok { s with data := some mem }

/-- `beer_buf_read` into a caller's buffer. Besides its result, it gives back the caller's buffer.
The arguments of its `memcpy` are the wrong way round, and it is the block that is written to. -/
def read (s : Buf) (buf : Bytes) : Except Fault (Ssize × Bytes × Buf) := do
  if s.data = none then return (0, buf, s)
  if s.size = s.rdoff then return (0, buf, s)
  let avail := s.size - s.rdoff
  let size := if avail < buf.length then avail else buf.length
  let s ← s.store s.rdoff (buf.take size)
  return ((size : Nat), buf, { s with rdoff := s.rdoff + size })

/-- `beer_buf_resize`. The pointer it returns is to the end of the bytes in use. Without a new block
it frees the old one, which `realloc` has freed. -/
def resize (s : Buf) (size : Nat) : Except Fault Buf :=
  match realloc s.data (s.size + size) with
  | none => .error .doubleFree
  | some nd => .ok { s with data := some nd, alloc := s.size + size }

/-- `beer_buf_write`. -/
def write (s : Buf) (buf : Bytes) : Except Fault (Ssize × Buf) := do
  if s.as then return (-1, s)
  let p := s.size
  let s ← s.resize buf.length
  let s ← s.store p buf
  return ((buf.length : Nat), { s with size := s.size + buf.length, wrcnt := s.wrcnt + 1 })

/-- The second loop of `beer_buf_writev`. -/
def storeParts (s : Buf) (p : Nat) : List Bytes → Except Fault Buf
  | [] => .ok s
  | part :: parts => do
      let s ← s.store p part
      s.storeParts (p + part.length) parts

/-- `beer_buf_writev`. -/
def writev (s : Buf) (iov : List Bytes) : Except Fault (Ssize × Buf) := do
  if s.as then return (-1, s)
  let size := (iov.map List.length).sum
  let p := s.size
  let s ← s.resize size
  let s ← s.storeParts p iov
  return ((size : Nat), { s with size := s.size + size, wrcnt := s.wrcnt + 1 })

/-- The block has the size that was asked for, and holds the bytes in use. -/
structure Sound (s : Buf) : Prop where
  length_eq : (s.data.getD []).length = s.alloc
  rdoff_le : s.rdoff ≤ s.size
  size_le : s.size ≤ s.alloc

theorem sound_beerBuf : beerBuf.Sound := ⟨rfl, le_refl _, le_refl _⟩

theorem Sound.contents_length {s : Buf} (h : s.Sound) : s.contents.length = s.size := by
  rw [contents, List.length_take, h.length_eq, Nat.min_eq_left h.size_le]

theorem Sound.unread_length {s : Buf} (h : s.Sound) : s.unread.length = s.size - s.rdoff := by
  rw [unread, List.length_drop, h.contents_length]

theorem data_split {s : Buf} {mem : Bytes} (hdata : s.data = some mem) :
    mem = s.contents.take s.rdoff ++ (s.unread ++ mem.drop s.size) := by
  rw [← List.append_assoc, unread, List.take_append_drop, contents, hdata, Option.getD_some,
    List.take_append_drop]

/-- There is no block yet, or it will have bytes when it has so many more. -/
def Growable (s : Buf) (size : Nat) : Prop :=
  s.data = none ∨ 0 < s.size + size

theorem resize_freed {s : Buf} {size : Nat} (h : ¬s.Growable size) :
    s.resize size = .error .doubleFree := by
  obtain ⟨hdata, hsize⟩ := not_or.mp h
  have hnone : realloc s.data (s.size + size) = none :=
    if_pos ⟨Option.isSome_iff_ne_none.mpr hdata, by omega⟩
  rw [resize, hnone]

theorem Sound.resize_eq {s : Buf} (h : s.Sound) {size : Nat} (hgrow : s.Growable size) :
    ∃ room, room.length = size ∧
      s.resize size = .ok { s with data := some (s.contents ++ room), alloc := s.size + size } := by
  have hlength := h.length_eq
  have hsize := h.size_le
  have hkeep : ¬(s.data.isSome = true ∧ s.size + size = 0) := by
    rintro ⟨hdata, hzero⟩
    rcases hgrow with hnone | hpos
    · exact absurd hnone (Option.isSome_iff_ne_none.mp hdata)
    · omega
  refine ⟨((s.data.getD []).drop s.size).take size ++
    List.replicate (s.size + size - (s.data.getD []).length) 0, ?_, ?_⟩
  · simp only [List.length_append, List.length_take, List.length_drop, List.length_replicate]
    omega
  · rw [resize, realloc, if_neg hkeep, List.take_add, List.append_assoc]
    rfl

theorem storeParts_eq {s : Buf} {before room after : Bytes} {parts : List Bytes}
    (hdata : s.data = some (before ++ (room ++ after))) (hroom : room.length = parts.flatten.length) :
    s.storeParts before.length parts =
      .ok { s with data := some (before ++ (parts.flatten ++ after)) } := by
  induction parts generalizing s before room with
  | nil =>
      have hnil : room = [] := List.length_eq_zero_iff.mp hroom
      subst hnil
      rw [storeParts, List.flatten_nil, ← hdata]
  | cons part parts ih =>
      rw [List.flatten_cons, List.length_append] at hroom
      have hfirst : (room.take part.length).length = part.length := by
        rw [List.length_take]
        omega
      have hstore : s.store before.length part = .ok { s with
          data := some (before ++ (part ++ (room.drop part.length ++ after))) } := by
        rw [store, hdata]
        dsimp only
        rw [← List.take_append_drop part.length room, List.append_assoc,
          Memory.poke_append hfirst, List.drop_left' hfirst]
      rw [storeParts, hstore]
      have hnext : (before ++ part).length = before.length + part.length := List.length_append
      have hrest : (room.drop part.length).length = parts.flatten.length := by
        rw [List.length_drop]
        omega
      have hsame : before ++ (part ++ (room.drop part.length ++ after)) =
          (before ++ part) ++ (room.drop part.length ++ after) := by
        rw [List.append_assoc]
      rw [hsame, ← hnext]
      simp only [ok_bind]
      rw [ih rfl hrest]
      simp only [List.flatten_cons, List.append_assoc]

theorem storeParts_singleton (s : Buf) (p : Nat) (part : Bytes) :
    s.storeParts p [part] = s.store p part := by
  rw [storeParts]
  cases s.store p part <;> rfl

theorem write_eq_writev (s : Buf) (buf : Bytes) : s.write buf = s.writev [buf] := by
  simp only [write, writev, storeParts_singleton, List.map_cons, List.map_nil, List.sum_cons,
    List.sum_nil, Nat.add_zero]

/-- The stream after its bytes have been followed by others. -/
def appended (s : Buf) (bytes : Bytes) : Buf where
  wrcnt := s.wrcnt + 1
  data := some (s.contents ++ bytes)
  size := s.size + bytes.length
  alloc := s.size + bytes.length
  rdoff := s.rdoff
  as := s.as

theorem writev_freed {s : Buf} (has : s.as = false) {iov : List Bytes}
    (h : ¬s.Growable iov.flatten.length) : s.writev iov = .error .doubleFree := by
  have hsum : (iov.map List.length).sum = iov.flatten.length := List.length_flatten.symm
  simp only [writev, has, hsum, resize_freed h, Bool.false_eq_true, if_false, error_bind]

theorem Sound.writev_eq {s : Buf} (h : s.Sound) (has : s.as = false) {iov : List Bytes}
    (hgrow : s.Growable iov.flatten.length) :
    s.writev iov = .ok ((iov.flatten.length : Nat), s.appended iov.flatten) := by
  have hsum : (iov.map List.length).sum = iov.flatten.length := List.length_flatten.symm
  obtain ⟨room, hroom, hresize⟩ := h.resize_eq hgrow
  have hstore := @storeParts_eq { s with
    data := some (s.contents ++ room), alloc := s.size + iov.flatten.length } s.contents room []
    iov (by rw [List.append_nil]) hroom
  rw [h.contents_length] at hstore
  have hown : ¬s.as = true := by rw [has]; decide
  simp only [writev, if_neg hown, hsum, hresize, hstore, ok_bind, pure_eq, List.append_nil]
  rfl

theorem Sound.writev_flatten {s : Buf} (h : s.Sound) (has : s.as = false) (iov : List Bytes) :
    s.writev iov = s.write iov.flatten := by
  have hone : [iov.flatten].flatten = iov.flatten := by
    rw [List.flatten_cons, List.flatten_nil, List.append_nil]
  rw [write_eq_writev]
  by_cases hgrow : s.Growable iov.flatten.length
  · rw [h.writev_eq has hgrow, h.writev_eq has (hone.symm ▸ hgrow), hone]
  · rw [writev_freed has hgrow, writev_freed has (hone.symm ▸ hgrow)]

theorem write_freed {s : Buf} (has : s.as = false) {buf : Bytes} (h : ¬s.Growable buf.length) :
    s.write buf = .error .doubleFree := by
  rw [write_eq_writev, writev_freed has]
  rwa [List.flatten_cons, List.flatten_nil, List.append_nil]

theorem Sound.write_eq {s : Buf} (h : s.Sound) (has : s.as = false) {buf : Bytes}
    (hgrow : s.Growable buf.length) : s.write buf = .ok ((buf.length : Nat), s.appended buf) := by
  have hone : [buf].flatten = buf := by
    rw [List.flatten_cons, List.flatten_nil, List.append_nil]
  rw [write_eq_writev, h.writev_eq has (hone.symm ▸ hgrow), hone]

theorem Sound.appended {s : Buf} (h : s.Sound) (bytes : Bytes) : (s.appended bytes).Sound := by
  have hrdoff := h.rdoff_le
  refine ⟨?_, ?_, le_refl _⟩
  · simp only [Buf.appended, Option.getD_some, List.length_append, h.contents_length]
  · simp only [Buf.appended]
    omega

theorem Sound.contents_appended {s : Buf} (h : s.Sound) (bytes : Bytes) :
    (s.appended bytes).contents = s.contents ++ bytes := by
  have hlength : (s.contents ++ bytes).length = s.size + bytes.length := by
    rw [List.length_append, h.contents_length]
  simp only [contents, Buf.appended, Option.getD_some] at hlength ⊢
  rw [← hlength, List.take_length]

/-- So many bytes a read into the buffer asks for and can have. -/
def readable (s : Buf) (buf : Bytes) : Nat := min buf.length s.unread.length

theorem Sound.read_eq {s : Buf} (h : s.Sound) (buf : Bytes) :
    ∃ s', s.read buf = .ok ((s.readable buf : Nat), buf, s') ∧ s'.Sound ∧ s'.as = s.as ∧
      s'.rdoff = s.rdoff + s.readable buf ∧
      s'.contents = s.contents.take s.rdoff ++
        (buf.take (s.readable buf) ++ s.unread.drop (s.readable buf)) := by
  have hunread := h.unread_length
  have hrdoff := h.rdoff_le
  by_cases hend : s.size = s.rdoff
  · have hempty : s.unread = [] := List.length_eq_zero_iff.mp (by omega)
    have hcount : s.readable buf = 0 := by rw [readable, hempty, List.length_nil, Nat.min_zero]
    refine ⟨s, ?_, h, rfl, by rw [hcount, Nat.add_zero], ?_⟩
    · simp only [read, hend, if_true, hcount]
      split <;> rfl
    · rw [hcount, hempty, ← hend, ← h.contents_length]
      simp
  · cases hdata : s.data with
    | none =>
        have hlength := h.length_eq
        have hsize := h.size_le
        rw [hdata, Option.getD_none, List.length_nil] at hlength
        omega
    | some mem =>
        have hle : s.readable buf ≤ s.unread.length := Nat.min_le_right _ _
        have hcount : (if s.size - s.rdoff < buf.length then s.size - s.rdoff else buf.length) =
            s.readable buf := by
          rw [readable, hunread]
          split <;> omega
        have hold : (s.unread.take (s.readable buf)).length =
            (buf.take (s.readable buf)).length := by
          rw [List.length_take, List.length_take, Nat.min_eq_left hle]
          exact (Nat.min_eq_left (Nat.min_le_left _ _)).symm
        have hbefore : (s.contents.take s.rdoff).length = s.rdoff := by
          rw [List.length_take, h.contents_length, Nat.min_eq_left hrdoff]
        have hnew : (s.contents.take s.rdoff ++ (buf.take (s.readable buf) ++
            s.unread.drop (s.readable buf))).length = s.size := by
          rw [List.length_append, List.length_append, hbefore, ← hold, List.length_take,
            List.length_drop]
          omega
        have hlength := h.length_eq
        have hsize := h.size_le
        rw [hdata, Option.getD_some] at hlength
        have hstore : s.store s.rdoff (buf.take (s.readable buf)) = .ok { s with
            data := some ((s.contents.take s.rdoff ++ (buf.take (s.readable buf) ++
              s.unread.drop (s.readable buf))) ++ mem.drop s.size) } := by
          have hpoke := @Memory.poke_append (s.contents.take s.rdoff) _ _
            (s.unread.drop (s.readable buf) ++ mem.drop s.size) hold
          rw [← List.append_assoc (s.unread.take _), List.take_append_drop, ← data_split hdata,
            hbefore] at hpoke
          simp only [store, hdata, hpoke, List.append_assoc]
        refine ⟨{ s with
          data := some ((s.contents.take s.rdoff ++ (buf.take (s.readable buf) ++
            s.unread.drop (s.readable buf))) ++ mem.drop s.size)
          rdoff := s.rdoff + s.readable buf }, ?_, ⟨?_, ?_, hsize⟩, rfl, rfl, ?_⟩
        · simp only [read, hdata, reduceCtorEq, if_false, hend, hcount, hstore, ok_bind, pure_eq]
        · rw [Option.getD_some, List.length_append, hnew, List.length_drop]
          dsimp only
          omega
        · dsimp only
          omega
        · simp only [contents, Option.getD_some]
          exact List.take_left' hnew

end Buf

end BeeC
