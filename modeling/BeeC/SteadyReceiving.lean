import BeeC.IoChecked
import BeeC.Receiving

namespace BeeC

open BeeC.Wire.Loop
open BeeC.Wire.Run
open BeeC.Wire.MessagePack

variable {τ : Type} {t : Transport τ}

/-- The transport delivers something whenever there is room for it. -/
def Transport.AlwaysDelivers (t : Transport τ) : Prop :=
  ∀ room st, 0 < room → (t.recv room st).1 ≠ none

theorem Transport.AlwaysDelivers.not_starves (ht : t.AlwaysDelivers) {room want : Nat} {st : τ}
    (hroom : 0 < room) : ¬t.Starves room want st := by
  intro h
  induction h with
  | fails h => exact ht _ _ hroom h
  | later _ _ _ ih => exact ih

/-- A network stream, and the bytes that the calls on it have returned. -/
structure Returning (τ : Type) where
  net : Net τ
  returned : Bytes := []

namespace Returning

variable (t) in
/-- `beer_io_recv` into a buffer of the caller's. -/
def call (s : Returning τ) (buf : Bytes) : Except Breach (Returning τ) := do
  let (rc, buf, net) ← beerIoRecvChecked t buf s.net
  return { net, returned := if rc = -1 then s.returned else s.returned ++ buf }

/-- What the transport has delivered has been returned, or stands between the offsets of the
receive buffer. -/
structure Steady (size : Nat) (s : Returning τ) : Prop where
  buf_ne : s.net.rbuf.buf ≠ none
  readable : s.net.rbuf.Readable
  size_eq : s.net.rbuf.size = size
  account : s.net.link.delivered = s.returned ++ s.net.rbuf.unread

variable (t) in
/-- The call fills the whole buffer of the caller with the bytes that come next. -/
def Fills (s : Returning τ) (buf : Bytes) : Prop :=
  ∃ buf' net', beerIoRecvChecked t buf s.net = .ok (buf.length, buf', net') ∧
    buf'.length = buf.length ∧ s.returned ++ buf' <+: net'.link.delivered

theorem Steady.recv (ht : t.AlwaysDelivers) {size : Nat} (hsize : 0 < size) {s : Returning τ}
    (h : s.Steady size) (buf : Bytes) :
    ∃ buf' net', beerIoRecvChecked t buf s.net = .ok (buf.length, buf', net') ∧
      buf'.length = buf.length ∧
      Steady size { net := net', returned := s.returned ++ buf' } := by
  obtain ⟨hbuf, hreadable, hsame, haccount⟩ := h
  have hflag : (if s.net.rbuf.top = s.net.rbuf.off then 1 else 0) ≤ 1 := by split <;> omega
  obtain ⟨heard, hhears, hreadable', hsize', hbuf', hends⟩ :=
    @recvBuffered_ends _ t buf.length (buf.length + 2) buf.length [] s.net.rbuf s.net.link hbuf
      hreadable (by simp) (by omega)
  have hfails := (@recvBuffered_fails_iff _ t buf.length (buf.length + 2) buf.length []
    s.net.rbuf s.net.link hbuf hreadable (by omega)).1
  obtain ⟨rest, hchecked, hlength⟩ := @beerIoRecvChecked_eq _ t buf _ hbuf hreadable
  rw [beerIoRecv_buffered _ hbuf] at hchecked hlength
  dsimp only at hchecked hlength
  rcases hends with ⟨hrc, -⟩ | ⟨hrc, -, hfilled, hbytes⟩
  · exact absurd (hfails.mp hrc).2 (ht.not_starves (by omega))
  · have hnil : rest = [] := List.eq_nil_of_length_eq_zero (by omega)
    rw [hnil, List.append_nil, hrc] at hchecked
    refine ⟨_, _, hchecked, hfilled, hbuf', hreadable', hsize'.trans hsame, ?_⟩
    have hdelivered : ∀ l : Link τ, l.delivered = deliveries l.heard := fun _ => rfl
    rw [hdelivered] at haccount ⊢
    simp only [Net.after, hhears.heard_eq, deliveries_append, haccount]
    rw [List.append_assoc, List.append_assoc]
    exact congrArg (s.returned ++ ·) hbytes

theorem Steady.call (ht : t.AlwaysDelivers) {size : Nat} (hsize : 0 < size) {s : Returning τ}
    (h : s.Steady size) (buf : Bytes) : ∃ next, s.call t buf = .ok next ∧ next.Steady size := by
  obtain ⟨buf', net', hrecv, -, hnext⟩ := h.recv ht hsize buf
  refine ⟨_, ?_, hnext⟩
  rw [Returning.call, hrecv, ok_bind]
  dsimp only
  rw [if_neg (natCast_ne_neg_one _), pure_eq]

theorem Steady.fills (ht : t.AlwaysDelivers) {size : Nat} (hsize : 0 < size) {s : Returning τ}
    (h : s.Steady size) (buf : Bytes) : s.Fills t buf := by
  obtain ⟨buf', net', hrecv, hlength, hnext⟩ := h.recv ht hsize buf
  exact ⟨buf', net', hrecv, hlength, _, hnext.account.symm⟩

end Returning

/-- Over a transport that does not fail, every call of a run of receiving calls ends, stays within
both buffers, and fills the buffer of the caller with the bytes that come next. What has been
delivered and not yet returned is what stands in the receive buffer. -/
theorem receiving_exact (ht : t.AlwaysDelivers) {n : Net τ} (hbuf : n.rbuf.buf ≠ none)
    (hsize : 0 < n.rbuf.size) (hoff : n.rbuf.off = 0) (htop : n.rbuf.top = 0)
    (hheard : n.link.heard = []) (bufs : List Bytes) :
    AlwaysOk (Returning.call t)
        (fun s => s.net.rbuf.off ≤ s.net.rbuf.top ∧ s.net.rbuf.top ≤ s.net.rbuf.size ∧
          s.net.rbuf.size = n.rbuf.size ∧
          s.net.link.delivered = s.returned ++ s.net.rbuf.unread)
        { net := n } bufs ∧
      EveryOk (Returning.call t) (fun s buf => s.Fills t buf) { net := n } bufs := by
  have hstart : Returning.Steady n.rbuf.size { net := n } :=
    ⟨hbuf, ⟨by rw [hoff]; exact Nat.zero_le _, by rw [htop]; exact Nat.zero_le _⟩, rfl,
      by simp [Link.delivered, hheard, Iob.unread, Iob.read, hoff, htop]⟩
  have halways : AlwaysOk (Returning.call t) (Returning.Steady n.rbuf.size) { net := n } bufs :=
    @alwaysOk_of_everyOk _ _ _ _ _ (fun _ _ => True) (fun _ buf h _ => h.call ht hsize buf) _
      hstart _ (fun _ _ _ _ _ => trivial)
  exact ⟨halways.imp fun s h => ⟨h.readable.off_le, h.readable.top_le, h.size_eq, h.account⟩,
    halways.every fun s buf h => h.fills ht hsize buf⟩

theorem trickle_alwaysDelivers : trickle.AlwaysDelivers := fun _ _ hroom =>
  Delivery.of_ne_none Nat.one_pos hroom

theorem receiving_exact_trickle :
    AlwaysOk (Returning.call trickle)
        (fun s => s.net.rbuf.off ≤ s.net.rbuf.top ∧ s.net.rbuf.top ≤ s.net.rbuf.size ∧
          s.net.rbuf.size = slow.rbuf.size ∧
          s.net.link.delivered = s.returned ++ s.net.rbuf.unread)
        { net := slow } [[0, 0, 0], List.replicate 9 0, []] ∧
      EveryOk (Returning.call trickle) (fun s buf => s.Fills trickle buf) { net := slow }
        [[0, 0, 0], List.replicate 9 0, []] :=
  receiving_exact trickle_alwaysDelivers (by decide) (by decide) rfl rfl rfl _

end BeeC
