import BeeC.Io

namespace BeeC

open BeeC.Wire.MessagePack

/-- The bytes in the results of some reads. -/
def deliveries (heard : List (Option Bytes)) : Bytes := (heard.filterMap id).flatten

@[simp] theorem deliveries_nil : deliveries [] = [] := rfl

@[simp] theorem deliveries_append (heard more : List (Option Bytes)) :
    deliveries (heard ++ more) = deliveries heard ++ deliveries more := by
  simp [deliveries]

@[simp] theorem deliveries_some (bytes : Bytes) : deliveries [some bytes] = bytes := by
  simp [deliveries]

@[simp] theorem deliveries_none : deliveries [none] = [] := rfl

/-- One state of a link follows another by reads with the given results. -/
structure Link.Hears {τ : Type} (l : Link τ) (heard : List (Option Bytes)) (l' : Link τ) :
    Prop where
  heard_eq : l'.heard = l.heard ++ heard
  taken_eq : l'.taken = l.taken

/-- The part of a receive buffer that is filled and has not been handed over. -/
def Iob.unread (b : Iob) : Bytes := b.read (b.top - b.off)

/-- The invariant of a receive buffer. -/
structure Iob.Readable (b : Iob) : Prop where
  off_le : b.off ≤ b.top
  top_le : b.top ≤ b.size

variable {τ : Type} {t : Transport τ}

/-- Asked again and again for as much as there is room for, the transport fails before it has
delivered as much as is wanted. -/
inductive Transport.Starves (t : Transport τ) (room : Nat) : (want : Nat) → τ → Prop
  | fails {want : Nat} {st : τ} (h : (t.recv room st).1 = none) : t.Starves room want st
  | later {want : Nat} {st : τ} {r : Delivery room} (h : (t.recv room st).1 = some r)
      (hmore : r.bytes.length < want)
      (hstarves : t.Starves room (want - r.bytes.length) (t.recv room st).2) :
      t.Starves room want st

theorem Transport.starves_iff {room want : Nat} {st : τ} {r : Delivery room}
    (h : (t.recv room st).1 = some r) :
    t.Starves room want st ↔
      r.bytes.length < want ∧ t.Starves room (want - r.bytes.length) (t.recv room st).2 := by
  constructor
  · rintro (hnone | ⟨hsome, hmore, hstarves⟩)
    · rw [h] at hnone
      cases hnone
    · rw [h, Option.some.injEq] at hsome
      subst hsome
      exact ⟨hmore, hstarves⟩
  · rintro ⟨hmore, hstarves⟩
    exact .later h hmore hstarves

namespace Link

theorem Hears.refl (l : Link τ) : l.Hears [] l := ⟨by simp, rfl⟩

theorem Hears.trans {l l' l'' : Link τ} {heard more : List (Option Bytes)} (h : l.Hears heard l')
    (h' : l'.Hears more l'') : l.Hears (heard ++ more) l'' :=
  ⟨by rw [h'.heard_eq, h.heard_eq, List.append_assoc], h'.taken_eq.trans h.taken_eq⟩

theorem recv_hears (room : Nat) (l : Link τ) :
    l.Hears [(l.recv t room).1.map Delivery.bytes] (l.recv t room).2 :=
  ⟨rfl, rfl⟩

/-- How a call of `beer_io_recv_raw` ends, when some bytes are stored before it. -/
def RecvEnds (size : Nat) (all : Bool) (before : Bytes) (l : Link τ)
    (out : Ssize × Bytes × Link τ) : Prop :=
  ∃ heard, l.Hears heard out.2.2 ∧ out.2.1 = before ++ deliveries heard ∧
    ((out.1 = -1 ∧ none ∈ heard) ∨
      (out.1 = out.2.1.length ∧ none ∉ heard ∧ before.length < out.2.1.length ∧
        out.2.1.length ≤ size ∧ (all → out.2.1.length = size)))

theorem recvFrom_ends (size : Nat) (all : Bool) {fuel : Nat} {stored : Bytes} (l : Link τ)
    (hsize : stored.length ≤ size) (hfuel : size < stored.length + fuel) :
    RecvEnds size all stored l (l.recvFrom t size all fuel stored) := by
  induction fuel generalizing stored l with
  | zero => omega
  | succ fuel ih =>
      have hhears := @recv_hears _ t (size - stored.length) l
      unfold recvFrom
      cases hrecv : l.recv t (size - stored.length) with
      | mk r l' =>
          rw [hrecv] at hhears
          cases r with
          | none => exact ⟨[none], hhears, by simp, .inl ⟨rfl, by simp⟩⟩
          | some r =>
              have hpos := r.length_pos
              have hle := r.length_le
              have hlength : (stored ++ r.bytes).length = stored.length + r.bytes.length :=
                List.length_append
              have hroom : (stored ++ r.bytes).length ≤ size := by omega
              dsimp only
              split
              · obtain ⟨heard, hhears', hstored, hends⟩ := ih l' hroom (by omega)
                refine ⟨some r.bytes :: heard, hhears.trans hhears', ?_, ?_⟩
                · rw [hstored, List.append_assoc]
                  rfl
                · rcases hends with ⟨hrc, hnone⟩ | ⟨hrc, hnone, hlt, hends⟩
                  · exact .inl ⟨hrc, List.mem_cons_of_mem _ hnone⟩
                  · exact .inr ⟨hrc, by simpa using hnone, by omega, hends⟩
              · rename_i hdone
                refine ⟨[some r.bytes], hhears, by simp, .inr ⟨rfl, by simp, ?_, hroom,
                  fun hall => ?_⟩⟩
                · dsimp only
                  omega
                · by_contra hne
                  exact hdone ⟨hne, hall⟩

theorem recvRaw_ends (size : Nat) (all : Bool) (l : Link τ) :
    RecvEnds size all [] l (l.recvRaw t size all) :=
  recvFrom_ends size all l (Nat.zero_le _) (by simp)

end Link

namespace Iob

theorem read_length {b : Iob} (h : b.Readable) {count : Nat} (hcount : b.off + count ≤ b.top) :
    (b.read count).length = count := by
  have htop := h.top_le
  unfold size at htop
  simp only [read, List.length_take, List.length_drop]
  omega

theorem read_append_unread (b : Iob) {count : Nat} (hcount : b.off + count ≤ b.top) :
    b.read count ++ unread { b with off := b.off + count } = b.unread := by
  have hrest : b.top - b.off = count + (b.top - (b.off + count)) := by omega
  simp only [unread, read, bytes]
  rw [hrest, List.take_add, List.drop_drop]

theorem bytes_write_zero {b : Iob} (hbuf : b.buf ≠ none) (chunk : Bytes) :
    (b.write 0 chunk).bytes = chunk ++ b.bytes.drop chunk.length := by
  obtain ⟨buf, hbuf⟩ := Option.ne_none_iff_exists'.mp hbuf
  simp [write, bytes, hbuf]

/-- A buffer after a read into it, from an offset on. -/
def filled (b : Iob) (chunk : Bytes) (off : Nat) : Iob :=
  { b.write 0 chunk with off, top := chunk.length }

section Filled

variable {b : Iob} (hbuf : b.buf ≠ none) {chunk : Bytes} (hchunk : chunk.length ≤ b.size)

include hbuf hchunk

theorem filled_size (off : Nat) : (b.filled chunk off).size = b.size := by
  have hbytes := bytes_write_zero hbuf chunk
  unfold size at *
  change (b.write 0 chunk).bytes.length = _
  rw [hbytes, List.length_append, List.length_drop]
  omega

theorem filled_readable {off : Nat} (hoff : off ≤ chunk.length) :
    (b.filled chunk off).Readable :=
  ⟨hoff, by rw [filled_size hbuf hchunk]; exact hchunk⟩

omit hchunk in
theorem filled_unread : (b.filled chunk 0).unread = chunk := by
  have hbytes : (b.filled chunk 0).bytes = chunk ++ b.bytes.drop chunk.length :=
    bytes_write_zero hbuf chunk
  rw [unread, read, hbytes]
  simp [filled]

end Filled

end Iob

theorem Link.recvRaw_none {size : Nat} {l l' : Link τ} (h : l.recv t size = (none, l')) :
    l.recvRaw t size false = (-1, [], l') := by
  have h' : l.recv t (size - ([] : Bytes).length) = (none, l') := h
  rw [recvRaw, recvFrom, h']

theorem Link.recvRaw_some {size : Nat} {l l' : Link τ} {r : Delivery size}
    (h : l.recv t size = (some r, l')) :
    l.recvRaw t size false = ((r.bytes.length : Ssize), r.bytes, l') := by
  have h' : l.recv t (size - ([] : Bytes).length) = (some r, l') := h
  rw [recvRaw, recvFrom, h']
  simp

theorem recvBuffered_succ (size fuel left : Nat) (stored : Bytes) (b : Iob) (l : Link τ) :
    recvBuffered t size (fuel + 1) left stored b l =
      if b.off + left ≤ b.top then
        ((size : Ssize), stored ++ b.read left, { b with off := b.off + left }, l)
      else
        match l.recv t b.size with
        | (none, l') => (-1, stored ++ b.unread, { b with off := 0 }, l')
        | (some r, l') =>
            if left - (b.top - b.off) ≤ r.bytes.length then
              (size, stored ++ b.unread ++ (b.filled r.bytes 0).read (left - (b.top - b.off)),
                b.filled r.bytes (left - (b.top - b.off)), l')
            else
              recvBuffered t size fuel (left - (b.top - b.off)) (stored ++ b.unread)
                (b.filled r.bytes 0) l' := by
  conv_lhs => unfold recvBuffered
  split
  · rfl
  · have hsize : ({ b with off := 0 } : Iob).size = b.size := rfl
    dsimp only
    rw [hsize]
    rcases hrecv : l.recv t b.size with ⟨_ | r, l'⟩
    · rw [Link.recvRaw_none hrecv]
      rfl
    · have hgot : ¬((r.bytes.length : Ssize) ≤ 0) :=
        Int.not_le.mpr (Int.natCast_pos.mpr r.length_pos)
      rw [Link.recvRaw_some hrecv]
      dsimp only
      rw [if_neg hgot, Int.toNat_natCast]
      rfl

/-- How a call of `beer_io_recv` ends that finds a buffer of some size, with `before` the bytes
it has stored and those it can take from the buffer. -/
def ReceiveEnds (size capacity : Nat) (before : Bytes) (l : Link τ)
    (out : Ssize × Bytes × Iob × Link τ) : Prop :=
  ∃ heard, l.Hears heard out.2.2.2 ∧ out.2.2.1.Readable ∧ out.2.2.1.size = capacity ∧
    out.2.2.1.buf ≠ none ∧
    ((out.1 = -1 ∧ none ∈ heard ∧ out.2.1 = before ++ deliveries heard ∧ out.2.2.1.off = 0) ∨
      (out.1 = size ∧ none ∉ heard ∧ out.2.1.length = size ∧
        before ++ deliveries heard = out.2.1 ++ out.2.2.1.unread))

theorem ReceiveEnds.after_hears {size capacity : Nat} {before : Bytes} {l l' : Link τ}
    {heard : List (Option Bytes)} {out : Ssize × Bytes × Iob × Link τ} (h : l.Hears heard l')
    (hnone : none ∉ heard) (hout : ReceiveEnds size capacity (before ++ deliveries heard) l' out) :
    ReceiveEnds size capacity before l out := by
  obtain ⟨more, hhears, hreadable, hsize, hbuf, hends⟩ := hout
  refine ⟨heard ++ more, h.trans hhears, hreadable, hsize, hbuf, ?_⟩
  rcases hends with ⟨hrc, hmore, hstored, hoff⟩ | ⟨hrc, hmore, hlength, hbytes⟩
  · refine .inl ⟨hrc, List.mem_append_right _ hmore, ?_, hoff⟩
    rw [hstored, deliveries_append, List.append_assoc]
  · refine .inr ⟨hrc, by simp [hnone, hmore], hlength, ?_⟩
    rw [deliveries_append, ← List.append_assoc, hbytes]

theorem receiveEnds_of_le {size left : Nat} {stored : Bytes} {b : Iob} (l : Link τ)
    (hbuf : b.buf ≠ none) (hreadable : b.Readable) (hsize : stored.length + left = size)
    (h : b.off + left ≤ b.top) :
    ReceiveEnds size b.size (stored ++ b.unread) l
      (size, stored ++ b.read left, { b with off := b.off + left }, l) := by
  refine ⟨[], .refl l, ⟨h, hreadable.top_le⟩, rfl, hbuf, .inr ⟨rfl, by simp, ?_, ?_⟩⟩
  · rw [List.length_append, Iob.read_length hreadable h, hsize]
  · rw [deliveries_nil, List.append_nil, List.append_assoc, b.read_append_unread h]

theorem recvBuffered_ends (size : Nat) {fuel left : Nat} {stored : Bytes} {b : Iob} (l : Link τ)
    (hbuf : b.buf ≠ none) (hreadable : b.Readable) (hsize : stored.length + left = size)
    (hfuel : left + (if b.top = b.off then 1 else 0) < fuel) :
    ReceiveEnds size b.size (stored ++ b.unread) l
      (recvBuffered t size fuel left stored b l) := by
  induction fuel generalizing left stored b l with
  | zero => omega
  | succ fuel ih =>
      have hoff := hreadable.off_le
      have htop := hreadable.top_le
      have hhears := @Link.recv_hears _ t b.size l
      have hstored : (stored ++ b.unread).length = stored.length + (b.top - b.off) := by
        rw [List.length_append, Iob.unread, Iob.read_length hreadable (by omega)]
      rw [recvBuffered_succ]
      split
      · rename_i hthere
        exact receiveEnds_of_le l hbuf hreadable hsize hthere
      · rename_i hthere
        rcases hrecv : l.recv t b.size with ⟨_ | r, l'⟩
        · rw [hrecv] at hhears
          exact ⟨_, hhears, ⟨Nat.zero_le _, htop⟩, rfl, hbuf, .inl ⟨rfl, by simp, by simp, rfl⟩⟩
        · rw [hrecv] at hhears
          have hpos := r.length_pos
          have hle := r.length_le
          have hfilled := Iob.filled_readable hbuf hle (Nat.zero_le _)
          have hbuf' : (b.filled r.bytes 0).buf ≠ none := by
            simpa [Iob.filled, Iob.write] using hbuf
          have hunread := @Iob.filled_unread b hbuf r.bytes
          refine ReceiveEnds.after_hears hhears (by simp) ?_
          rw [Option.map_some, deliveries_some]
          dsimp only
          split
          · rename_i hlast
            have hends := receiveEnds_of_le l' hbuf' hfilled
              (show (stored ++ b.unread).length + (left - (b.top - b.off)) = size by omega)
              ((Nat.zero_add _).trans_le hlast)
            have hoff' : (b.filled r.bytes 0).off + (left - (b.top - b.off)) =
                left - (b.top - b.off) := Nat.zero_add _
            rw [hoff', hunread, Iob.filled_size hbuf hle] at hends
            exact hends
          · have hfresh : (b.filled r.bytes 0).top ≠ (b.filled r.bytes 0).off := hpos.ne'
            have hends := ih l' hbuf' hfilled
              (show (stored ++ b.unread).length + (left - (b.top - b.off)) = size by omega)
              (by rw [if_neg hfresh]; split at hfuel <;> omega)
            rw [hunread, Iob.filled_size hbuf hle] at hends
            exact hends

theorem recvBuffered_fails_iff (size : Nat) {fuel left : Nat} {stored : Bytes} {b : Iob}
    (l : Link τ) (hbuf : b.buf ≠ none) (hreadable : b.Readable)
    (hfuel : left + (if b.top = b.off then 1 else 0) < fuel) :
    ((recvBuffered t size fuel left stored b l).1 = -1 ↔
      b.top - b.off < left ∧ t.Starves b.size (left - (b.top - b.off)) l.state) ∧
    ((recvBuffered t size fuel left stored b l).1 = -1 →
      ((recvBuffered t size fuel left stored b l).2.2.1.top = 0 ↔
        b.top = 0 ∧ (t.recv b.size l.state).1 = none)) := by
  induction fuel generalizing left stored b l with
  | zero => omega
  | succ fuel ih =>
      have hoff := hreadable.off_le
      have hfst : (l.recv t b.size).1 = (t.recv b.size l.state).1 := rfl
      have hsnd : (l.recv t b.size).2.state = (t.recv b.size l.state).2 := rfl
      rw [recvBuffered_succ, ← hfst]
      split
      · rename_i hthere
        have hne := natCast_ne_neg_one size
        exact ⟨iff_of_false hne (fun h => by omega), fun h => absurd h hne⟩
      · rename_i hthere
        rcases hrecv : l.recv t b.size with ⟨_ | r, l'⟩
        · rw [hrecv] at hfst
          exact ⟨iff_of_true rfl ⟨by omega, .fails hfst.symm⟩, fun _ => by simp⟩
        · rw [hrecv] at hfst hsnd
          have hpos := r.length_pos
          have hstarves := @Transport.starves_iff _ t b.size (left - (b.top - b.off)) _ _ hfst.symm
          rw [hstarves, ← hsnd]
          dsimp only
          split
          · rename_i hlast
            have hne := natCast_ne_neg_one size
            exact ⟨iff_of_false hne (fun h => by omega), fun h => absurd h hne⟩
          · rename_i hmore
            have hle := r.length_le
            have hfilled := Iob.filled_readable hbuf hle (Nat.zero_le _)
            have hbuf' : (b.filled r.bytes 0).buf ≠ none := by
              simpa [Iob.filled, Iob.write] using hbuf
            have hfresh : (b.filled r.bytes 0).top ≠ (b.filled r.bytes 0).off := hpos.ne'
            obtain ⟨hrc, htop⟩ := @ih (left - (b.top - b.off)) (stored ++ b.unread)
              (b.filled r.bytes 0) l' hbuf' hfilled
              (by rw [if_neg hfresh]; split at hfuel <;> omega)
            rw [Iob.filled_size hbuf hle] at hrc
            have hfilledTop : (b.filled r.bytes 0).top - (b.filled r.bytes 0).off =
                r.bytes.length := rfl
            rw [hfilledTop] at hrc
            refine ⟨hrc.trans ?_, fun h => (htop h).trans ?_⟩
            · constructor
              · rintro ⟨hlt, hstarves⟩
                exact ⟨by omega, hlt, hstarves⟩
              · rintro ⟨-, hlt, hstarves⟩
                exact ⟨hlt, hstarves⟩
            · exact iff_of_false (fun h => hpos.ne' h.1) (fun h => by simp at h)

theorem beerIoRecv_buffered (size : Nat) {n : Net τ} (hbuf : n.rbuf.buf ≠ none) :
    beerIoRecv t size n =
      ((recvBuffered t size (size + 2) size [] n.rbuf n.link).1,
        (recvBuffered t size (size + 2) size [] n.rbuf n.link).2.1,
        { n.after (recvBuffered t size (size + 2) size [] n.rbuf n.link).1
            (recvBuffered t size (size + 2) size [] n.rbuf n.link).2.2.2 with
          rbuf := (recvBuffered t size (size + 2) size [] n.rbuf n.link).2.2.1 }) := by
  rw [beerIoRecv, if_neg hbuf]

variable (t) in
/-- The specification of `beer_io_recv`: unless the transport fails, it hands over the next bytes,
and keeps what else it has read. -/
theorem beerIoRecv_spec (size : Nat) {n : Net τ} (h : n.rbuf.Readable) :
    ∃ rbuf link error heard, (beerIoRecv t size n).2.2 = { n with rbuf, link, error } ∧
      n.link.Hears heard link ∧ rbuf.Readable ∧
      (((beerIoRecv t size n).1 = -1 ∧ none ∈ heard) ∨
        ((beerIoRecv t size n).1 = size ∧ none ∉ heard ∧ (beerIoRecv t size n).2.1.length = size ∧
          n.rbuf.unread ++ deliveries heard = (beerIoRecv t size n).2.1 ++ rbuf.unread)) := by
  unfold beerIoRecv
  split
  · rename_i hbuf
    have hunread : n.rbuf.unread = [] := by
      simp [Iob.unread, Iob.read, Iob.bytes, hbuf]
    obtain ⟨heard, hhears, hstored, hends⟩ := @Link.recvRaw_ends _ t size true n.link
    refine ⟨n.rbuf, _, _, heard, rfl, hhears, h, ?_⟩
    rcases hends with hfail | ⟨hrc, hnone, -, -, hall⟩
    · exact .inl hfail
    · refine .inr ⟨?_, hnone, hall rfl, ?_⟩
      · exact hrc.trans (congrArg Nat.cast (hall rfl))
      · rw [hunread, List.append_nil, List.nil_append]
        exact hstored.symm
  · rename_i hbuf
    have hflag : (if n.rbuf.top = n.rbuf.off then 1 else 0) ≤ 1 := by split <;> omega
    obtain ⟨heard, hhears, hreadable, -, -, hends⟩ :=
      @recvBuffered_ends _ t size (size + 2) size [] n.rbuf n.link hbuf h (by simp) (by omega)
    refine ⟨_, _, _, heard, rfl, hhears, hreadable, ?_⟩
    rcases hends with ⟨hrc, hnone, -⟩ | hends
    · exact .inl ⟨hrc, hnone⟩
    · exact .inr hends

end BeeC
