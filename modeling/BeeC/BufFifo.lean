import BeeC.Buf
import BeeC.Wire.Run

namespace BeeC

open BeeC.Wire.Loop
open BeeC.Wire.MessagePack
open BeeC.Wire.Run

/-- A call on a memory stream. A read is given by the caller's buffer. -/
inductive BufCall where
  | write (buf : Bytes)
  | writev (iov : List Bytes)
  | read (buf : Bytes)

/-- A memory stream, what has been written to it, and what its reads have returned. -/
structure BufTrace where
  s : Buf
  written : Bytes := []
  returned : Bytes := []

namespace BufTrace

def call (h : BufTrace) : BufCall → Except Fault BufTrace
  | .write buf => do
      let (_, s) ← h.s.write buf
      return { h with s, written := h.written ++ buf }
  | .writev iov => do
      let (_, s) ← h.s.writev iov
      return { h with s, written := h.written ++ iov.flatten }
  | .read buf => do
      let (rc, stored, s) ← h.s.read buf
      return { h with s, returned := h.returned ++ stored.take rc.toNat }

/-- What has been returned is the start of what has been written. -/
structure Fifo (h : BufTrace) : Prop where
  returned_front : h.returned <+: h.written
  rdoff_le : h.s.rdoff ≤ h.s.size
  size_le : h.s.size ≤ h.s.alloc

/-- A read returns as many bytes as are asked for and can be had, and leaves the stored bytes as
they are. -/
def ReadsRight (h : BufTrace) : BufCall → Prop
  | .read buf => ∃ stored s, h.s.read buf = .ok ((min buf.length h.s.unread.length : Nat), stored, s) ∧
      s.contents = h.s.contents
  | _ => True

/-- A read finds the bytes that it is to return in the caller's buffer already, and a write does not
leave a block of the stream without bytes. -/
def Harmless (h : BufTrace) : BufCall → Prop
  | .write buf => h.s.Growable buf.length
  | .writev iov => h.s.Growable iov.flatten.length
  | .read buf => buf.take h.s.unread.length = h.s.unread.take buf.length

/-- What holds whatever the reads do to the stored bytes. -/
structure Inv (h : BufTrace) : Prop where
  sound : h.s.Sound
  as_eq : h.s.as = false

/-- What holds as long as the reads leave the stored bytes as they are. -/
structure Intact (h : BufTrace) : Prop where
  inv : h.Inv
  contents_eq : h.s.contents = h.written
  returned_eq : h.returned = h.s.contents.take h.s.rdoff

theorem Intact.fifo {h : BufTrace} (hh : h.Intact) : h.Fifo := by
  obtain ⟨⟨hsound, -⟩, hcontents, hreturned⟩ := hh
  refine ⟨?_, hsound.rdoff_le, hsound.size_le⟩
  rw [hreturned, ← hcontents]
  exact List.take_prefix _ _

theorem call_write {h : BufTrace} (hh : h.Inv) {buf : Bytes} (hgrow : h.s.Growable buf.length) :
    h.call (.write buf) = .ok { h with s := h.s.appended buf, written := h.written ++ buf } := by
  rw [call, hh.sound.write_eq hh.as_eq hgrow]
  rfl

theorem call_write_freed {h : BufTrace} (hh : h.Inv) {buf : Bytes}
    (hgrow : ¬h.s.Growable buf.length) : h.call (.write buf) = .error .doubleFree := by
  rw [call, Buf.write_freed hh.as_eq hgrow]
  rfl

theorem call_writev {h : BufTrace} (hh : h.Inv) (iov : List Bytes) :
    h.call (.writev iov) = h.call (.write iov.flatten) := by
  rw [call, call, hh.sound.writev_flatten hh.as_eq]

theorem call_write_ok_iff {h : BufTrace} (hh : h.Inv) (buf : Bytes) :
    (∃ next, h.call (.write buf) = .ok next) ↔ h.s.Growable buf.length := by
  constructor
  · rintro ⟨next, hnext⟩
    by_contra hgrow
    rw [call_write_freed hh hgrow] at hnext
    cases hnext
  · intro hgrow
    exact ⟨_, call_write hh hgrow⟩

theorem Intact.write {h : BufTrace} (hh : h.Intact) {buf : Bytes}
    (hgrow : h.s.Growable buf.length) :
    ∃ next, h.call (.write buf) = .ok next ∧ next.Intact := by
  obtain ⟨⟨hsound, has⟩, hcontents, hreturned⟩ := hh
  have hle : h.s.rdoff ≤ h.s.contents.length := hsound.contents_length.symm ▸ hsound.rdoff_le
  refine ⟨_, call_write ⟨hsound, has⟩ hgrow, ⟨hsound.appended buf, has⟩, ?_, ?_⟩
  · rw [hsound.contents_appended, hcontents]
  · rw [hsound.contents_appended, hreturned]
    exact (List.take_append_of_le_length hle).symm

theorem take_readable {s : Buf} (buf : Bytes) :
    buf.take (s.readable buf) = buf.take s.unread.length ∧
      s.unread.take (s.readable buf) = s.unread.take buf.length := by
  refine ⟨?_, ?_⟩
  · rw [Buf.readable, Nat.min_comm, ← List.take_eq_take_min]
  · rw [Buf.readable, ← List.take_eq_take_min]

theorem readsRight_iff {h : BufTrace} (hh : h.Inv) (buf : Bytes) :
    h.ReadsRight (.read buf) ↔ h.Harmless (.read buf) := by
  obtain ⟨s, hread, -, -, -, hcontents⟩ := hh.sound.read_eq buf
  obtain ⟨hbuf, hunread⟩ := @take_readable h.s buf
  have hsplit : h.s.contents = h.s.contents.take h.s.rdoff ++
      (h.s.unread.take (h.s.readable buf) ++ h.s.unread.drop (h.s.readable buf)) := by
    rw [List.take_append_drop, Buf.unread, List.take_append_drop]
  have hsame : s.contents = h.s.contents ↔
      buf.take h.s.unread.length = h.s.unread.take buf.length := by
    rw [Eq.congr hcontents hsplit, List.append_right_inj, List.append_left_inj, hbuf, hunread]
  rw [Harmless, ← hsame]
  constructor
  · rintro ⟨stored, s', hread', hcontents'⟩
    rw [hread] at hread'
    cases hread'
    exact hcontents'
  · intro hsame
    exact ⟨buf, s, hread, hsame⟩

theorem call_read_ok {h : BufTrace} (hh : h.Inv) (buf : Bytes) :
    ∃ next, h.call (.read buf) = .ok next ∧ next.Inv := by
  obtain ⟨s, hread, hsound, has, -⟩ := hh.sound.read_eq buf
  refine ⟨{ h with s, returned := h.returned ++ buf.take (h.s.readable buf) }, ?_, hsound,
    has.trans hh.as_eq⟩
  rw [call, hread]
  rfl

theorem harmless_iff {h : BufTrace} (hh : h.Inv) (call : BufCall) :
    ((∃ next, h.call call = .ok next) ∧ h.ReadsRight call) ↔ h.Harmless call := by
  cases call with
  | write buf =>
      rw [call_write_ok_iff hh]
      exact and_iff_left trivial
  | writev iov =>
      rw [call_writev hh, call_write_ok_iff hh]
      exact and_iff_left trivial
  | read buf =>
      obtain ⟨next, hnext, -⟩ := call_read_ok hh buf
      rw [readsRight_iff hh]
      exact and_iff_right ⟨next, hnext⟩

theorem write_inv {h next : BufTrace} (hh : h.Inv) {buf : Bytes}
    (hnext : h.call (.write buf) = .ok next) : next.Inv := by
  have hgrow := (call_write_ok_iff hh buf).mp ⟨next, hnext⟩
  rw [call_write hh hgrow] at hnext
  cases hnext
  exact ⟨hh.sound.appended buf, hh.as_eq⟩

theorem call_inv {h next : BufTrace} (hh : h.Inv) {call : BufCall} (hnext : h.call call = .ok next) :
    next.Inv := by
  cases call with
  | write buf => exact write_inv hh hnext
  | writev iov =>
      rw [call_writev hh] at hnext
      exact write_inv hh hnext
  | read buf =>
      obtain ⟨next', hnext', hinv⟩ := call_read_ok hh buf
      rw [hnext] at hnext'
      cases hnext'
      exact hinv

theorem Intact.read {h : BufTrace} (hh : h.Intact) {buf : Bytes} (hbuf : h.Harmless (.read buf)) :
    ∃ next, h.call (.read buf) = .ok next ∧ next.Intact := by
  obtain ⟨stored, s', hread', hsame⟩ := (readsRight_iff hh.inv buf).mpr hbuf
  obtain ⟨⟨hsound, has⟩, hcontents, hreturned⟩ := hh
  obtain ⟨s, hread, hsound', has', hrdoff, -⟩ := hsound.read_eq buf
  rw [hread] at hread'
  cases hread'
  obtain ⟨hstored, hunread⟩ := @take_readable h.s buf
  refine ⟨{ h with s := s', returned := h.returned ++ buf.take (h.s.readable buf) }, ?_,
    ⟨hsound', has'.trans has⟩, hsame.trans hcontents, ?_⟩
  · rw [call, hread]
    rfl
  · have htaken : buf.take (h.s.readable buf) = h.s.unread.take (h.s.readable buf) := by
      rw [hstored, hunread]
      exact hbuf
    rw [hsame, hrdoff, htaken, List.take_add, hreturned]
    rfl

theorem call_intact {h : BufTrace} (hh : h.Intact) {call : BufCall} (hcall : h.Harmless call) :
    ∃ next, h.call call = .ok next ∧ next.Intact := by
  cases call with
  | write buf => exact hh.write hcall
  | writev iov =>
      rw [call_writev hh.inv]
      exact hh.write hcall
  | read buf => exact hh.read hcall

end BufTrace

/-- Over any run of calls on a memory stream, reads return what was written, as much as there is,
and leave it as it is, exactly when every caller's buffer starts with these bytes already and no
write leaves a block without bytes. -/
theorem beerBuf_fifo_iff (calls : List BufCall) :
    (AlwaysOk BufTrace.call BufTrace.Fifo { s := beerBuf } calls ∧
        EveryOk BufTrace.call BufTrace.ReadsRight { s := beerBuf } calls) ↔
      EveryOk BufTrace.call BufTrace.Harmless { s := beerBuf } calls := by
  have hinv : BufTrace.Inv { s := beerBuf } := ⟨Buf.sound_beerBuf, rfl⟩
  constructor
  · rintro ⟨halways, hreads⟩
    exact (halways.steps.and hreads).imp (fun _ _ _ hh _ hnext => BufTrace.call_inv hh hnext)
      (fun _ call hh => (BufTrace.harmless_iff hh call).mp) hinv
  · intro h
    refine ⟨?_, h.imp (fun _ _ _ hh _ hnext => BufTrace.call_inv hh hnext)
      (fun _ call hh hcall => ((BufTrace.harmless_iff hh call).mpr hcall).2) hinv⟩
    have hintact : AlwaysOk BufTrace.call BufTrace.Intact { s := beerBuf } calls :=
      alwaysOk_of_everyOk (fun _ _ hh hcall => BufTrace.call_intact hh hcall) ⟨hinv, rfl, rfl⟩ h
    exact hintact.imp fun _ hh => hh.fifo

/-- The second of two writes of nothing frees the block twice. -/
example : ([.write [], .writev [[], []]] : List BufCall).foldlM BufTrace.call { s := beerBuf } =
    .error .doubleFree := rfl

/-- Two bytes are written and then read: the caller's buffer stays as it was, and it is the stored
bytes that are lost. -/
theorem not_beerBuf_fifo :
    ¬(AlwaysOk BufTrace.call BufTrace.Fifo { s := beerBuf } [.write [1, 2], .read [7, 7]] ∧
      EveryOk BufTrace.call BufTrace.ReadsRight { s := beerBuf } [.write [1, 2], .read [7, 7]]) := by
  rintro ⟨h, -⟩
  obtain ⟨s', hs', hfifo⟩ := h _ (List.prefix_refl _)
  have hrun : ([.write [1, 2], .read [7, 7]] : List BufCall).foldlM BufTrace.call { s := beerBuf } =
      .ok { s := { wrcnt := 1, data := some [7, 7], size := 2, alloc := 2, rdoff := 2 },
            written := [1, 2], returned := [7, 7] } := by rfl
  rw [hrun] at hs'
  cases hs'
  exact absurd hfifo.returned_front (by decide)

end BeeC
