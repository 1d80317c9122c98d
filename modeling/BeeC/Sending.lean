import BeeC.Wire.Run
import BeeC.IoSend
import BeeC.Script

/-!
Runs of sending calls on a stream with a send buffer. What the transport has taken and what is in
the buffer make up what has been written, as long as no flush is cut off in the middle.
-/

namespace BeeC

open BeeC.Wire.Run
open BeeC.Wire.MessagePack

variable {τ : Type} {t : Transport τ}

/-- The bytes of a send buffer that are to be sent. -/
def Iob.unsent (b : Iob) : Bytes := b.bytes.take b.off

/-- The invariant of a send buffer. -/
structure Iob.Writable (b : Iob) : Prop where
  buf_ne : b.buf ≠ none
  off_le : b.off ≤ b.size

namespace Iob

theorem size_write {b : Iob} {offset : Nat} {data : Bytes} (h : offset + data.length ≤ b.size) :
    (b.write offset data).size = b.size := by
  cases hbuf : b.buf with
  | none => simp [size, write, bytes, hbuf]
  | some buf =>
      simp only [size, write, bytes, hbuf, Option.map_some, Option.getD_some] at h ⊢
      simp only [List.length_append, List.length_take, List.length_drop]
      omega

theorem write_write {b : Iob} {offset : Nat} (h : offset ≤ b.size) (first second : Bytes) :
    (b.write offset first).write (offset + first.length) second =
      b.write offset (first ++ second) := by
  cases hbuf : b.buf with
  | none => simp [write, hbuf]
  | some buf =>
      simp only [size, bytes, hbuf, Option.getD_some] at h
      obtain ⟨before, rest, rfl, hbefore⟩ : ∃ before rest, buf = before ++ rest ∧
          before.length = offset :=
        ⟨buf.take offset, buf.drop offset, (List.take_append_drop _ _).symm, by
          rw [List.length_take]; omega⟩
      subst hbefore
      have hlength : (before ++ first).length = before.length + first.length :=
        List.length_append
      simp only [write, hbuf, Option.map_some, List.take_left, ← List.drop_drop, List.drop_left]
      rw [← List.append_assoc before first, ← hlength, List.take_left, List.drop_drop,
        ← List.length_append]
      simp only [List.append_assoc]

theorem size_put {b : Iob} {data : Bytes} (h : b.off + data.length ≤ b.size) :
    (b.put data).size = b.size :=
  size_write h

theorem put_put {b : Iob} (h : b.off ≤ b.size) (first second : Bytes) :
    (b.put first).put second = b.put (first ++ second) := by
  have hwrite := write_write h first second
  simp only [put, List.length_append, ← Nat.add_assoc, ← hwrite]
  rfl

theorem beerIoSendvPut_eq {b : Iob} {iov : List Bytes} (h : b.off + iov.flatten.length ≤ b.size) :
    beerIoSendvPut iov b = b.put iov.flatten := by
  induction iov generalizing b with
  | nil =>
      obtain ⟨buf, off, top⟩ := b
      cases buf <;> simp [beerIoSendvPut, put, write]
  | cons part parts ih =>
      rw [List.flatten_cons, List.length_append] at h
      have hput := @size_put b part (by omega)
      have hoff : (b.put part).off = b.off + part.length := rfl
      rw [List.flatten_cons, ← put_put (by omega)]
      exact ih (by omega)

theorem Writable.put {b : Iob} (h : b.Writable) {data : Bytes}
    (hfits : b.off + data.length ≤ b.size) : (b.put data).Writable := by
  refine ⟨?_, by rw [size_put hfits]; exact hfits⟩
  simpa [Iob.put, write] using h.buf_ne

theorem unsent_put {b : Iob} (h : b.Writable) (data : Bytes) :
    (b.put data).unsent = b.unsent ++ data := by
  obtain ⟨buf, hbuf⟩ := Option.ne_none_iff_exists'.mp h.buf_ne
  have hoff := h.off_le
  simp only [size, bytes, hbuf, Option.getD_some] at hoff
  have hlength : (buf.take b.off ++ data).length = b.off + data.length := by
    rw [List.length_append, List.length_take, Nat.min_eq_left hoff]
  simp only [unsent, put, write, bytes, hbuf, Option.map_some, Option.getD_some]
  rw [← List.append_assoc, ← hlength, List.take_left]

end Iob

/-- A call that sends. -/
inductive SendCall where
  | send (buf : Bytes)
  | sendv (iov : List Bytes)
  | flush

namespace SendCall

/-- The bytes that the call is to write. -/
def bytes : SendCall → Bytes
  | send buf => buf
  | sendv iov => iov.flatten
  | flush => []

variable (t) in
def run (n : Net τ) : SendCall → Ssize × Net τ
  | send buf => beerIoSend t buf n
  | sendv iov => beerIoSendv t iov n
  | flush => beerIoFlush t n

/-- The call has to empty the buffer: it is a flush, or a write that fits only into the empty
buffer. -/
def Empties (b : Iob) : SendCall → Prop
  | flush => b.off ≠ 0
  | call => call.bytes.length ≤ b.size ∧ b.size < b.off + call.bytes.length

end SendCall

/-- The transport takes some of the bytes, and fails before it has taken all of them. -/
def Transport.Cuts (t : Transport τ) (data : Bytes) (st : τ) : Prop :=
  (t.send data st).1 ≠ none ∧ t.Breaks data st

theorem beerIoSendv_eq {n : Net τ} (h : n.sbuf.buf ≠ none) (iov : List Bytes) :
    beerIoSendv t iov n = beerIoSend t iov.flatten n := by
  unfold beerIoSendv beerIoSend
  rw [if_neg h, if_neg h, ← List.length_flatten]
  dsimp only
  split
  · rfl
  · rename_i hfits
    split
    · rename_i hroom
      rw [Iob.beerIoSendvPut_eq hroom]
    · split
      · rfl
      · rw [Iob.beerIoSendvPut_eq]
        · simp [Iob.put, Iob.write, beerIoSendRaw, Net.after]
        · exact (Nat.zero_add _).trans_le (Nat.not_lt.mp hfits)

/-- How emptying the buffer ends. -/
def Emptied (t : Transport τ) (n : Net τ) (rc : Ssize) (link : Link τ) : Prop :=
  (rc = -1 ∧ t.Breaks n.sbuf.unsent n.link.state ∧
      (link.taken = n.link.taken ↔ (t.send n.sbuf.unsent n.link.state).1 = none)) ∨
    (rc ≠ -1 ∧ ¬t.Breaks n.sbuf.unsent n.link.state ∧
      link.taken = n.link.taken ++ n.sbuf.unsent)

theorem Emptied.of_ne {n : Net τ} {rc rc' : Ssize} {link : Link τ} (h : Emptied t n rc link)
    (hrc : rc ≠ -1) (hrc' : rc' ≠ -1) : Emptied t n rc' link := by
  rcases h with ⟨hfail, -⟩ | ⟨-, h⟩
  · exact absurd hfail hrc
  · exact .inr ⟨hrc', h⟩

theorem sendRaw_emptied (n : Net τ) :
    ∃ link error, (beerIoSendRaw t n.sbuf.unsent true n).2 = { n with link, error } ∧
      n.link.heard = link.heard ∧ Emptied t n (beerIoSendRaw t n.sbuf.unsent true n).1 link := by
  obtain ⟨sent, htakes, hends⟩ :=
    @Link.sendFrom_ends _ t n.sbuf.unsent (n.sbuf.unsent.length + 1) 0 n.link (by omega) (by omega)
  have hbreaks := @Link.sendFrom_eq_neg_one_iff _ t n.sbuf.unsent (n.sbuf.unsent.length + 1) 0
    n.link (by omega) (by omega)
  have hfirst := @Link.sendFrom_taken_eq_iff _ t n.sbuf.unsent (n.sbuf.unsent.length + 1) 0
    n.link (by omega) (by omega)
  refine ⟨_, _, rfl, htakes.heard_eq.symm, ?_⟩
  rcases hends with ⟨hrc, rfl⟩ | ⟨hrc, -⟩
  · have hne : (beerIoSendRaw t n.sbuf.unsent true n).1 ≠ -1 :=
      fun h => natCast_ne_neg_one _ (hrc.symm.trans h)
    exact .inr ⟨hne, mt hbreaks.mpr hne, htakes.taken_eq⟩
  · exact .inl ⟨hrc, hbreaks.mp hrc, hfirst⟩

/-- What a sending call leaves behind. -/
def SendCall.Ends (t : Transport τ) (c : SendCall) (n : Net τ) (out : Ssize × Net τ) : Prop :=
  ∃ sbuf link error, out.2 = { n with sbuf, link, error } ∧ sbuf.Writable ∧
    sbuf.size = n.sbuf.size ∧ n.link.heard = link.heard ∧
    ((¬c.Empties n.sbuf ∧ link = n.link ∧
        ((out.1 = -1 ∧ sbuf = n.sbuf) ∨
          (out.1 ≠ -1 ∧ sbuf.unsent = n.sbuf.unsent ++ c.bytes))) ∨
      (c.Empties n.sbuf ∧ Emptied t n out.1 link ∧
        ((out.1 = -1 ∧ sbuf = n.sbuf) ∨ (out.1 ≠ -1 ∧ sbuf.unsent = c.bytes))))

theorem beerIoFlush_ends {n : Net τ} (h : n.sbuf.Writable) :
    SendCall.flush.Ends t n (beerIoFlush t n) := by
  unfold beerIoFlush
  split
  · rename_i hoff
    exact ⟨n.sbuf, n.link, n.error, rfl, h, rfl, rfl, .inl ⟨fun hne => hne hoff, rfl,
      .inr ⟨show (0 : Ssize) ≠ -1 by decide, by simp [SendCall.bytes]⟩⟩⟩
  · rename_i hoff
    obtain ⟨link, error, hraw, hheard, hemptied⟩ := @sendRaw_emptied _ t n
    rw [← Iob.unsent]
    cases hout : beerIoSendRaw t n.sbuf.unsent true n with
    | mk rc n' =>
        rw [hout] at hraw hemptied
        subst hraw
        dsimp only at hemptied ⊢
        split
        · rename_i hrc
          subst hrc
          exact ⟨n.sbuf, link, error, rfl, h, rfl, hheard, .inr ⟨hoff, hemptied, .inl ⟨rfl, rfl⟩⟩⟩
        · rename_i hrc
          exact ⟨{ n.sbuf with off := 0 }, link, error, rfl, ⟨h.buf_ne, Nat.zero_le _⟩, rfl, hheard,
            .inr ⟨hoff, hemptied, .inr ⟨hrc, rfl⟩⟩⟩

theorem beerIoSend_ends {n : Net τ} (h : n.sbuf.Writable) (buf : Bytes) :
    (SendCall.send buf).Ends t n (beerIoSend t buf n) := by
  unfold beerIoSend
  rw [if_neg h.buf_ne]
  split
  · rename_i hbig
    exact ⟨n.sbuf, n.link, _, rfl, h, rfl, rfl,
      .inl ⟨fun hempties => absurd hempties.1 (by simpa [SendCall.bytes] using hbig), rfl,
        .inl ⟨rfl, rfl⟩⟩⟩
  · rename_i hfits
    split
    · rename_i hroom
      refine ⟨n.sbuf.put buf, n.link, n.error, rfl, h.put hroom, Iob.size_put hroom, rfl,
        .inl ⟨fun hempties => ?_, rfl, .inr ⟨natCast_ne_neg_one _, Iob.unsent_put h buf⟩⟩⟩
      exact absurd hempties.2 (Nat.not_lt.mpr hroom)
    · rename_i hroom
      have hempties : (SendCall.send buf).Empties n.sbuf :=
        ⟨Nat.not_lt.mp hfits, Nat.not_le.mp hroom⟩
      obtain ⟨link, error, hraw, hheard, hemptied⟩ := @sendRaw_emptied _ t n
      rw [← Iob.unsent]
      cases hout : beerIoSendRaw t n.sbuf.unsent true n with
      | mk rc n' =>
          rw [hout] at hraw hemptied
          subst hraw
          dsimp only at hemptied ⊢
          split
          · rename_i hrc
            subst hrc
            exact ⟨n.sbuf, link, error, rfl, h, rfl, hheard,
              .inr ⟨hempties, hemptied, .inl ⟨rfl, rfl⟩⟩⟩
          · rename_i hrc
            have hfresh : ({ n.sbuf with off := 0 } : Iob).Writable := ⟨h.buf_ne, Nat.zero_le _⟩
            have hput : ({ n.sbuf.write 0 buf with off := buf.length } : Iob) =
                ({ n.sbuf with off := 0 } : Iob).put buf := by simp [Iob.put, Iob.write]
            have hroom' : ({ n.sbuf with off := 0 } : Iob).off + buf.length ≤
                ({ n.sbuf with off := 0 } : Iob).size :=
              (Nat.zero_add _).trans_le (Nat.not_lt.mp hfits)
            rw [hput]
            exact ⟨_, link, error, rfl, hfresh.put hroom', Iob.size_put hroom', hheard,
              .inr ⟨hempties, hemptied.of_ne hrc (natCast_ne_neg_one _),
                .inr ⟨natCast_ne_neg_one _, Iob.unsent_put hfresh buf⟩⟩⟩

theorem SendCall.run_ends (c : SendCall) {n : Net τ} (h : n.sbuf.Writable) :
    c.Ends t n (c.run t n) := by
  cases c with
  | send buf => exact beerIoSend_ends h buf
  | sendv iov =>
      rw [SendCall.run, beerIoSendv_eq h.buf_ne]
      exact beerIoSend_ends h iov.flatten
  | flush => exact beerIoFlush_ends h

/-- A network stream, and all that has been written to it: the bytes of the writes that returned
success, one behind the other. -/
structure Sending (τ : Type) where
  net : Net τ
  written : Bytes := []

namespace Sending

variable (t) in
def call (s : Sending τ) (c : SendCall) : Sending τ where
  net := (c.run t s.net).2
  written := if (c.run t s.net).1 = -1 then s.written else s.written ++ c.bytes

/-- The transport has taken the first of the bytes that have been written, and the others are in
the buffer. -/
def Faithful (s : Sending τ) : Prop :=
  s.net.link.taken <+: s.written ∧ s.net.link.taken ++ s.net.sbuf.unsent = s.written

/-- If the call empties the buffer, the transport does not fail in the middle of it. -/
def Uncut (t : Transport τ) (s : Sending τ) (c : SendCall) : Prop :=
  c.Empties s.net.sbuf → ¬t.Cuts s.net.sbuf.unsent s.net.link.state

theorem faithful_iff {s : Sending τ} :
    s.Faithful ↔ s.net.link.taken ++ s.net.sbuf.unsent = s.written :=
  ⟨And.right, fun h => ⟨⟨_, h⟩, h⟩⟩

theorem call_writable {s : Sending τ} (h : s.net.sbuf.Writable) (c : SendCall) :
    (s.call t c).net.sbuf.Writable := by
  obtain ⟨sbuf, link, error, hnet, hsbuf, -⟩ := @SendCall.run_ends _ t c _ h
  simp only [call, hnet]
  exact hsbuf

theorem call_faithful_iff {s : Sending τ} (h : s.net.sbuf.Writable) (hs : s.Faithful)
    (c : SendCall) : (s.call t c).Faithful ↔ s.Uncut t c := by
  obtain ⟨sbuf, link, error, hnet, -, -, -, hends⟩ := @SendCall.run_ends _ t c _ h
  rw [faithful_iff] at hs ⊢
  simp only [call, hnet]
  rcases hends with ⟨hempties, rfl, hends⟩ | ⟨hempties, hemptied, hends⟩
  · refine iff_of_true ?_ (fun h => absurd h hempties)
    rcases hends with ⟨hrc, rfl⟩ | ⟨hrc, hunsent⟩
    · rw [if_pos hrc, hs]
    · rw [if_neg hrc, hunsent, ← List.append_assoc, hs]
  · rcases hemptied with ⟨hrc, hbreaks, hfirst⟩ | ⟨hrc, hbreaks, htaken⟩
    · rcases hends with ⟨-, rfl⟩ | ⟨hne, -⟩
      · rw [if_pos hrc, ← hs, List.append_left_inj, hfirst]
        constructor
        · intro hnone _ hcuts
          exact hcuts.1 hnone
        · intro huncut
          by_contra hsome
          exact huncut hempties ⟨hsome, hbreaks⟩
      · exact absurd hrc hne
    · rcases hends with ⟨hfail, -⟩ | ⟨-, hunsent⟩
      · exact absurd hfail hrc
      · refine iff_of_true ?_ (fun _ hcuts => hbreaks hcuts.2)
        rw [if_neg hrc, htaken, hunsent, hs]

end Sending

/-- Over any run of sending calls on a stream with a send buffer, the account of the written bytes
is kept at every moment exactly when no call is cut off in the middle of emptying the buffer. -/
theorem sending_faithful_iff {n : Net τ} (hbuf : n.sbuf.buf ≠ none) (hoff : n.sbuf.off = 0)
    (htaken : n.link.taken = []) (calls : List SendCall) :
    Always (Sending.call t) Sending.Faithful { net := n } calls ↔
      Every (Sending.call t) (Sending.Uncut t) { net := n } calls := by
  have hwritable : n.sbuf.Writable := ⟨hbuf, by rw [hoff]; exact Nat.zero_le _⟩
  have hfaithful : Sending.Faithful { net := n } := by
    simp [Sending.Faithful, htaken, Iob.unsent, hoff]
  exact @always_iff_every _ _ _ (fun s : Sending τ => s.net.sbuf.Writable) _ _
    (fun _ c h => Sending.call_writable h c) (fun _ c h hs => Sending.call_faithful_iff h hs c)
    _ hwritable hfaithful calls

/-- A stream with a send buffer of four bytes, on a transport whose first write takes one byte and
whose second write fails. -/
def interrupted : Net Script where
  sbuf := { buf := some [0, 0, 0, 0] }
  greeting := []
  link := { state := { takes := [some 1, none] } }

theorem sending_faithful_iff_interrupted :
    Always (Sending.call Script.transport) Sending.Faithful { net := interrupted }
        [.send [1, 2], .flush, .flush] ↔
      Every (Sending.call Script.transport) (Sending.Uncut Script.transport)
        { net := interrupted } [.send [1, 2], .flush, .flush] :=
  sending_faithful_iff (by decide) rfl rfl _

/-- The flush that fails leaves the byte in the buffer that the transport has taken, and the next
flush sends it again. -/
theorem not_sending_faithful :
    ¬Always (Sending.call Script.transport) Sending.Faithful { net := interrupted }
      [.send [1, 2], .flush, .flush] := by
  intro h
  have htwice : (([.send [1, 2], .flush, .flush] : List SendCall).foldl
      (Sending.call Script.transport) { net := interrupted }).net.link.taken = [1, 1, 2] := by
    decide
  have hwritten : (([.send [1, 2], .flush, .flush] : List SendCall).foldl
      (Sending.call Script.transport) { net := interrupted }).written = [1, 2] := by
    decide
  have hfront := (h _ (List.prefix_refl _)).1
  rw [htwice, hwritten] at hfront
  exact absurd hfront (by decide)

end BeeC
