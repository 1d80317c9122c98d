import BeeC.IoChecked
import BeeC.Sending

namespace BeeC

open BeeC.Wire.Run
open BeeC.Wire.MessagePack

variable {τ : Type} {t : Transport τ}

/-- The transport takes something whenever it is offered something. -/
def Transport.AlwaysTakes (t : Transport τ) : Prop :=
  ∀ data st, data ≠ [] → (t.send data st).1 ≠ none

/-- The same for a vector of parts. -/
def Transport.AlwaysTakesParts (t : Transport τ) : Prop :=
  ∀ iov st, iov.flatten ≠ [] → (t.sendv iov st).1 ≠ none

theorem Transport.AlwaysTakes.not_breaks (ht : t.AlwaysTakes) {data : Bytes} {st : τ}
    (hdata : data ≠ []) : ¬t.Breaks data st := by
  intro h
  induction h with
  | fails h => exact ht _ _ hdata h
  | later h hmore _ ih =>
      refine ih fun hnil => ?_
      rw [List.drop_eq_nil_iff] at hnil
      omega

theorem Transport.AlwaysTakesParts.not_breaksParts (ht : t.AlwaysTakesParts) {iov : List Bytes}
    {st : τ} (hwindow : (if t.txv then iov.take Link.iovMax else iov).flatten ≠ []) :
    ¬t.BreaksParts iov st := by
  intro h
  induction h with
  | fails _ h => exact ht _ _ hwindow h
  | @later iov st r hleft h hbreaks ih =>
      rcases Link.advance_window t.txv r.count iov with hnil | hwindow'
      · rw [hnil] at hbreaks
        rcases hbreaks with ⟨hleft, -⟩ | ⟨hleft, -⟩ <;> exact hleft rfl
      · exact ih hwindow'

/-- Where one of the parts that the transport is offered first has bytes, the vector loop ends,
stays within the array of parts, and has the transport take all their bytes in order. It does not
call the transport again then. -/
theorem beerIoSendvRaw_exact (ht : t.AlwaysTakesParts) {iov : List Bytes}
    (hfirst : ∃ part ∈ iov.take Link.iovMax, part ≠ []) (n : Net τ) :
    ∃ calls n', beerIoSendvRawChecked t iov true n = .ok (iov.flatten.length, calls, n') ∧
      n'.link.taken = n.link.taken ++ iov.flatten ∧
      ∀ call ∈ calls, Pending iov.flatten.length call := by
  obtain ⟨part, hpart, hne⟩ := hfirst
  have hwindow : (if t.txv then iov.take Link.iovMax else iov).flatten ≠ [] := by
    intro hnil
    rw [List.flatten_eq_nil_iff] at hnil
    refine hne (hnil part ?_)
    split
    · exact hpart
    · exact List.mem_of_mem_take hpart
  obtain ⟨calls, hchecked, hcalls⟩ := beerIoSendvRawChecked_eq iov true n (.inr hwindow)
  obtain ⟨sent, htakes, hends⟩ :=
    @Link.sendvFrom_ends _ t (iov.flatten.length + 1) 0 iov n.link (Nat.lt_succ_self _)
  have hfails := @Link.sendvFrom_eq_neg_one_iff _ t (iov.flatten.length + 1) 0 iov n.link
    (Nat.lt_succ_self _)
  refine ⟨calls, (beerIoSendvRaw t iov true n).2, ?_, ?_, hcalls⟩
  all_goals rcases hends with ⟨hrc, rfl⟩ | ⟨hrc, -⟩
  · have hresult : (beerIoSendvRaw t iov true n).1 = iov.flatten.length := by
      rw [Nat.zero_add] at hrc
      exact hrc
    rw [hchecked, hresult]
  · exact absurd (hfails.mp hrc) (ht.not_breaksParts hwindow)
  · exact htakes.taken_eq
  · exact absurd (hfails.mp hrc) (ht.not_breaksParts hwindow)

theorem trickle_alwaysTakesParts : trickle.AlwaysTakesParts := fun _ _ h =>
  Taking.atMost_ne_none Nat.one_pos (List.length_pos_of_ne_nil h)

theorem beerIoSendvRaw_exact_trickle :
    ∃ calls n', beerIoSendvRawChecked trickle [[], [1, 2], [], [3]] true slow =
        .ok (([[], [1, 2], [], [3]] : List Bytes).flatten.length, calls, n') ∧
      n'.link.taken = slow.link.taken ++ ([[], [1, 2], [], [3]] : List Bytes).flatten ∧
      ∀ call ∈ calls, Pending ([[], [1, 2], [], [3]] : List Bytes).flatten.length call :=
  beerIoSendvRaw_exact trickle_alwaysTakesParts ⟨[1, 2], by decide, by decide⟩ slow

namespace SendCall

/-- What the call returns when it succeeds: a flush returns how much it has flushed. -/
def count (b : Iob) : SendCall → Nat
  | flush => b.unsent.length
  | call => call.bytes.length

theorem flush_ends (n : Net τ) :
    (beerIoFlush t n).1 = -1 ∨ ((beerIoFlush t n).1 = n.sbuf.unsent.length ∧
      (beerIoFlush t n).2.link.taken = n.link.taken ++ n.sbuf.unsent ∧
      (beerIoFlush t n).2.sbuf.off = 0) := by
  obtain ⟨sent, htakes, hends⟩ := @Link.sendFrom_ends _ t n.sbuf.unsent
    (n.sbuf.unsent.length + 1) 0 n.link (by omega) (by omega)
  unfold beerIoFlush
  split
  · rename_i hoff
    exact .inr ⟨by simp [Iob.unsent, hoff], by simp [Iob.unsent, hoff], hoff⟩
  · rw [← Iob.unsent]
    dsimp only
    split
    · exact .inl rfl
    · rename_i hne
      rcases hends with ⟨hrc, hsent⟩ | ⟨hrc, -⟩
      · rw [Nat.zero_add] at hrc
        rw [List.drop_zero] at hsent
        exact .inr ⟨hrc, hsent ▸ htakes.taken_eq, rfl⟩
      · exact absurd hrc hne

theorem run_result {n : Net τ} (h : n.sbuf.Writable) (c : SendCall) :
    (c.run t n).1 = -1 ∨ (c.run t n).1 = c.count n.sbuf := by
  have hsend : ∀ buf : Bytes, (beerIoSend t buf n).1 = -1 ∨ (beerIoSend t buf n).1 = buf.length := by
    intro buf
    unfold beerIoSend
    rw [if_neg h.buf_ne]
    split
    · exact .inl rfl
    split
    · exact .inr rfl
    dsimp only
    split
    · exact .inl rfl
    · exact .inr rfl
  cases c with
  | send buf => exact hsend buf
  | sendv iov =>
      rw [run, beerIoSendv_eq h.buf_ne]
      exact hsend iov.flatten
  | flush => exact (flush_ends n).imp_right And.left

theorem size_lt_of_fails {n : Net τ} (h : n.sbuf.Writable) {c : SendCall}
    (hempties : ¬c.Empties n.sbuf) (hrc : (c.run t n).1 = -1) : n.sbuf.size < c.bytes.length := by
  have hsend : ∀ buf : Bytes, ¬(send buf).Empties n.sbuf →
      (beerIoSend t buf n).1 = -1 → n.sbuf.size < buf.length := by
    intro buf hempties hrc
    unfold beerIoSend at hrc
    rw [if_neg h.buf_ne] at hrc
    split at hrc
    · assumption
    · rename_i hle
      have hfits : n.sbuf.off + buf.length ≤ n.sbuf.size := by
        by_contra hmore
        exact hempties ⟨Nat.not_lt.mp hle, Nat.not_le.mp hmore⟩
      rw [if_pos hfits] at hrc
      exact absurd hrc (natCast_ne_neg_one _)
  cases c with
  | send buf => exact hsend buf hempties hrc
  | sendv iov =>
      rw [run, beerIoSendv_eq h.buf_ne] at hrc
      exact hsend iov.flatten hempties hrc
  | flush =>
      have hoff : n.sbuf.off = 0 := not_not.mp hempties
      rw [run, beerIoFlush, if_pos hoff] at hrc
      exact absurd (show (0 : Ssize) = -1 from hrc) (by decide)

theorem unsent_ne_nil {b : Iob} (h : b.Writable) {c : SendCall} (hempties : c.Empties b) :
    b.unsent ≠ [] := by
  have hoff : 0 < b.off := by
    cases c with
    | send buf => have := hempties.1; have := hempties.2; omega
    | sendv iov => have := hempties.1; have := hempties.2; omega
    | flush => exact Nat.pos_of_ne_zero hempties
  refine List.ne_nil_of_length_pos ?_
  rw [Iob.unsent, List.length_take]
  exact Nat.lt_min.mpr ⟨hoff, hoff.trans_le h.off_le⟩

variable (t) in
/-- How a call ends on a transport that does not fail: it has more bytes than the buffer, and has
changed nothing but the error; or it returns how much it has written or flushed, and a flush has
handed it to the transport and emptied the buffer. -/
def Exact (n : Net τ) (c : SendCall) : Prop :=
  ((c.run t n).1 = -1 ∧ n.sbuf.size < c.bytes.length ∧ (c.run t n).2.sbuf = n.sbuf ∧
      (c.run t n).2.link = n.link) ∨
    ((c.run t n).1 = c.count n.sbuf ∧
      (c = .flush → (c.run t n).2.link.taken = n.link.taken ++ n.sbuf.unsent ∧
        (c.run t n).2.sbuf.off = 0))

theorem run_exact (ht : t.AlwaysTakes) {n : Net τ} (h : n.sbuf.Writable) (c : SendCall) :
    c.Exact t n := by
  obtain ⟨sbuf, link, error, hnet, -, -, -, hends⟩ := @run_ends _ t c _ h
  by_cases hrc : (c.run t n).1 = -1
  · rcases hends with ⟨hempties, hlink, ⟨-, hsbuf⟩ | ⟨hne, -⟩⟩ | ⟨hempties, hemptied, -⟩
    · refine .inl ⟨hrc, size_lt_of_fails h hempties hrc, ?_, ?_⟩ <;> rw [hnet]
      · exact hsbuf
      · exact hlink
    · exact absurd hrc hne
    · rcases hemptied with ⟨-, hbreaks, -⟩ | ⟨hne, -⟩
      · exact absurd hbreaks (ht.not_breaks (unsent_ne_nil h hempties))
      · exact absurd hrc hne
  · refine .inr ⟨(run_result h c).resolve_left hrc, ?_⟩
    rintro rfl
    exact ((flush_ends n).resolve_left hrc).2

end SendCall

/-- What is kept at every moment: the account of what has been written, and the bounds of the send
buffer. -/
structure Sending.Steady (size : Nat) (s : Sending τ) : Prop where
  writable : s.net.sbuf.Writable
  size_eq : s.net.sbuf.size = size
  account : s.net.link.taken ++ s.net.sbuf.unsent = s.written

theorem Sending.Steady.call (ht : t.AlwaysTakes) {size : Nat} {s : Sending τ} (h : s.Steady size)
    (c : SendCall) : (s.call t c).Steady size := by
  obtain ⟨sbuf, link, error, hnet, hwritable, hsize, -⟩ := @SendCall.run_ends _ t c _ h.writable
  have huncut : s.Uncut t c := fun hempties hcuts =>
    ht.not_breaks (SendCall.unsent_ne_nil h.writable hempties) hcuts.2
  have hfaithful := (Sending.call_faithful_iff h.writable (Sending.faithful_iff.mpr h.account) c).mpr
    huncut
  refine ⟨Sending.call_writable h.writable c, ?_, Sending.faithful_iff.mp hfaithful⟩
  simp only [Sending.call, hnet]
  exact hsize.trans h.size_eq

/-- Over a transport that does not fail, any run of sending calls on a stream with a send buffer
keeps the account, and every call succeeds but those with more bytes than the buffer, which have
no effect. -/
theorem sending_exact (ht : t.AlwaysTakes) {n : Net τ} (hbuf : n.sbuf.buf ≠ none)
    (hoff : n.sbuf.off = 0) (htaken : n.link.taken = []) (calls : List SendCall) :
    Always (Sending.call t)
        (fun s => s.net.link.taken ++ s.net.sbuf.unsent = s.written ∧
          s.net.sbuf.off ≤ s.net.sbuf.size ∧ s.net.sbuf.size = n.sbuf.size)
        { net := n } calls ∧
      Every (Sending.call t) (fun s c => c.Exact t s.net) { net := n } calls := by
  have hstart : Sending.Steady n.sbuf.size { net := n } :=
    ⟨⟨hbuf, by rw [hoff]; exact Nat.zero_le _⟩, rfl, by simp [htaken, Iob.unsent, hoff]⟩
  have halways := @always_of_step _ _ (Sending.call t) (Sending.Steady n.sbuf.size)
    (fun _ c h => h.call ht c) _ hstart calls
  exact ⟨halways.imp fun s h => ⟨h.account, h.writable.off_le, h.size_eq⟩,
    halways.every fun s c h => SendCall.run_exact ht h.writable c⟩

theorem trickle_alwaysTakes : trickle.AlwaysTakes := fun _ _ h =>
  Taking.atMost_ne_none Nat.one_pos (List.length_pos_of_ne_nil h)

theorem sending_exact_trickle :
    Always (Sending.call trickle)
        (fun s => s.net.link.taken ++ s.net.sbuf.unsent = s.written ∧
          s.net.sbuf.off ≤ s.net.sbuf.size ∧ s.net.sbuf.size = slow.sbuf.size)
        { net := slow } [.send [1, 2], .send [3, 4, 5, 6, 7], .sendv [[8], [], [9, 10]], .flush] ∧
      Every (Sending.call trickle) (fun s c => c.Exact trickle s.net) { net := slow }
        [.send [1, 2], .send [3, 4, 5, 6, 7], .sendv [[8], [], [9, 10]], .flush] :=
  sending_exact trickle_alwaysTakes (by decide) rfl rfl _

end BeeC
