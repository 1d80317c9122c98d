import BeeC.Wire.Run
import BeeC.IoReceive
import BeeC.Script

namespace BeeC

open BeeC.Wire.Run
open BeeC.Wire.MessagePack

variable {τ : Type} {t : Transport τ}

/-- A network stream, and all that has been copied out of it, by calls that succeeded and by calls
that failed. -/
structure Receiving (τ : Type) where
  net : Net τ
  copied : Bytes := []

namespace Receiving

variable (t) in
def call (s : Receiving τ) (size : Nat) : Receiving τ where
  net := (beerIoRecv t size s.net).2.2
  copied := s.copied ++ (beerIoRecv t size s.net).2.1

/-- What has been copied out, and then what is readable, is what the transport has delivered:
nothing is readable that has been copied out before. -/
def Once (s : Receiving τ) : Prop :=
  s.copied ++ s.net.rbuf.unread <+: s.net.link.delivered

/-- If the transport fails to deliver what the buffer lacks, then it fails at once, and the buffer
has never been filled. -/
def Unfilled (t : Transport τ) (s : Receiving τ) (size : Nat) : Prop :=
  s.net.rbuf.unread.length < size →
    t.Starves s.net.rbuf.size (size - s.net.rbuf.unread.length) s.net.link.state →
      s.net.rbuf.top = 0 ∧ (t.recv s.net.rbuf.size s.net.link.state).1 = none

/-- What holds whatever happens: nothing is lost. -/
structure Inv (s : Receiving τ) : Prop where
  buf_ne : s.net.rbuf.buf ≠ none
  readable : s.net.rbuf.Readable
  length_le : s.net.link.delivered.length ≤ (s.copied ++ s.net.rbuf.unread).length

theorem Inv.once_iff {s : Receiving τ} (h : s.Inv) :
    s.Once ↔ s.copied ++ s.net.rbuf.unread = s.net.link.delivered :=
  ⟨fun honce => honce.eq_of_length_le h.length_le, fun heq => ⟨[], by rw [List.append_nil, heq]⟩⟩

end Receiving

theorem Iob.unread_length {b : Iob} (h : b.Readable) : b.unread.length = b.top - b.off :=
  Iob.read_length h (by have := h.off_le; omega)

theorem Receiving.call_spec {s : Receiving τ} (h : s.Inv) (size : Nat) :
    ∃ heard, (s.call t size).net.link.delivered =
        s.net.link.delivered ++ deliveries heard ∧
      (s.call t size).net.rbuf.buf ≠ none ∧ (s.call t size).net.rbuf.Readable ∧
      ((s.net.rbuf.unread ++ deliveries heard =
            (beerIoRecv t size s.net).2.1 ++ (s.call t size).net.rbuf.unread ∧ s.Unfilled t size) ∨
        (s.net.rbuf.unread ++ deliveries heard = (beerIoRecv t size s.net).2.1 ∧
          ((s.call t size).net.rbuf.unread = [] ↔ s.Unfilled t size))) := by
  obtain ⟨hbuf, hreadable, -⟩ := h
  have hflag : (if s.net.rbuf.top = s.net.rbuf.off then 1 else 0) ≤ 1 := by split <;> omega
  obtain ⟨heard, hhears, hreadable', -, hbuf', hends⟩ :=
    @recvBuffered_ends _ t size (size + 2) size [] s.net.rbuf s.net.link hbuf hreadable (by simp)
      (by omega)
  obtain ⟨hfails, htop⟩ := @recvBuffered_fails_iff _ t size (size + 2) size [] s.net.rbuf
    s.net.link hbuf hreadable (by omega)
  rw [← Iob.unread_length hreadable] at hfails
  simp only [call, beerIoRecv_buffered size hbuf]
  refine ⟨heard, ?_, hbuf', hreadable', ?_⟩
  · simp only [Link.delivered, Net.after, hhears.heard_eq, List.filterMap_append,
      List.flatten_append]
    rfl
  · rcases hends with ⟨hrc, -, hstored, hoff⟩ | ⟨hrc, -, -, hbytes⟩
    · refine .inr ⟨by simpa using hstored.symm, ?_⟩
      obtain ⟨hlt, hstarves⟩ := hfails.mp hrc
      rw [← List.length_eq_zero_iff, Iob.unread_length hreadable', hoff, Nat.sub_zero, htop hrc]
      exact ⟨fun h _ _ => h, fun h => h hlt hstarves⟩
    · refine .inl ⟨by simpa using hbytes, fun hlt hstarves => ?_⟩
      exact absurd (hrc.symm.trans (hfails.mpr ⟨hlt, hstarves⟩)) (natCast_ne_neg_one _)

namespace Receiving

theorem call_inv {s : Receiving τ} (h : s.Inv) (size : Nat) : (s.call t size).Inv := by
  obtain ⟨heard, hdelivered, hbuf, hreadable, hends⟩ := @call_spec _ t _ h size
  refine ⟨hbuf, hreadable, ?_⟩
  have hle := h.length_le
  have hcopied : (s.call t size).copied = s.copied ++ (beerIoRecv t size s.net).2.1 := rfl
  rw [hdelivered, hcopied]
  simp only [List.length_append] at hle ⊢
  rcases hends with ⟨hbytes, -⟩ | ⟨hbytes, -⟩
  all_goals
    have hlength := congrArg List.length hbytes
    simp only [List.length_append] at hlength
    omega

theorem call_once_iff {s : Receiving τ} (h : s.Inv) (hs : s.Once) (size : Nat) :
    (s.call t size).Once ↔ s.Unfilled t size := by
  obtain ⟨heard, hdelivered, -, -, hends⟩ := @call_spec _ t _ h size
  have hcopied : (s.call t size).copied = s.copied ++ (beerIoRecv t size s.net).2.1 := rfl
  rw [(call_inv h size).once_iff, hdelivered, hcopied, ← h.once_iff.mp hs, List.append_assoc,
    List.append_assoc, List.append_right_inj]
  rcases hends with ⟨hbytes, hunfilled⟩ | ⟨hbytes, hunread⟩
  · exact iff_of_true hbytes.symm hunfilled
  · rw [hbytes, List.append_right_eq_self, hunread]

end Receiving

/-- Over any run of receiving calls on a stream with a receive buffer, no byte is copied out or
readable twice at any moment exactly when no call fails on a buffer that has been filled. -/
theorem receiving_once_iff {n : Net τ} (hbuf : n.rbuf.buf ≠ none) (hoff : n.rbuf.off = 0)
    (htop : n.rbuf.top = 0) (hheard : n.link.heard = []) (sizes : List Nat) :
    Always (Receiving.call t) Receiving.Once { net := n } sizes ↔
      Every (Receiving.call t) (Receiving.Unfilled t) { net := n } sizes := by
  have hunread : n.rbuf.unread = [] := by simp [Iob.unread, Iob.read, hoff, htop]
  have hdelivered : n.link.delivered = [] := by simp [Link.delivered, hheard]
  have hinv : Receiving.Inv { net := n } :=
    ⟨hbuf, ⟨by simp [hoff, htop], by simp [htop]⟩, by simp [hdelivered]⟩
  have honce : Receiving.Once { net := n } := by simp [Receiving.Once, hunread]
  exact @always_iff_every _ _ _ Receiving.Inv _ _ (fun _ size h => Receiving.call_inv h size)
    (fun _ size h hs => Receiving.call_once_iff h hs size) _ hinv honce sizes

/-- A stream with a receive buffer of four bytes, on a transport that delivers two bytes, fails,
and delivers another. -/
def timedOut : Net Script where
  rbuf := { buf := some [0, 0, 0, 0] }
  greeting := []
  link := { state := { gives := [some [1, 2], none, some [3]] } }

theorem receiving_once_iff_timedOut :
    Always (Receiving.call Script.transport) Receiving.Once { net := timedOut } [3, 3] ↔
      Every (Receiving.call Script.transport) (Receiving.Unfilled Script.transport)
        { net := timedOut } [3, 3] :=
  receiving_once_iff (by decide) rfl rfl rfl _

/-- The call that fails has copied two bytes out, and the next call returns them again. -/
theorem not_receiving_once :
    ¬Always (Receiving.call Script.transport) Receiving.Once { net := timedOut } [3, 3] := by
  intro h
  have hcopied : (([3, 3] : List Nat).foldl (Receiving.call Script.transport)
      { net := timedOut }).copied = [1, 2, 1, 2, 3] := by decide
  have hdelivered : (([3, 3] : List Nat).foldl (Receiving.call Script.transport)
      { net := timedOut }).net.link.delivered = [1, 2, 3] := by decide
  have hfront := (List.prefix_append _ _).trans (h _ (List.prefix_refl _))
  rw [hcopied, hdelivered] at hfront
  exact absurd hfront (by decide)

end BeeC
