import BeeC.Wire.Loop
import BeeC.Wire.Memory
import BeeC.IoReceive
import BeeC.IoSend

/-!
The loops of `beer_io_sendv_raw` and `beer_io_recv` on the memory they work on. Every access to a
buffer or to the array of parts is checked, and so is every difference of two sizes. The checks
never fail, and but for them the loops are those of the stream.
-/

namespace BeeC

open BeeC.Wire.Loop
open BeeC.Wire.Memory
open BeeC.Wire.MessagePack

variable {τ : Type} (t : Transport τ)

/-- What a loop must not run into: an access outside of an object, a difference below zero, and
turns without end. -/
inductive Breach where
  | outside
  | wrapped
  | endless
  deriving DecidableEq, Repr

/-- An access to a block, which has no result outside of the block. -/
def within {α : Type} : Option α → Except Breach α
  | some a => .ok a
  | none => .error .outside

/-- The difference of two `size_t`. -/
def minus (a b : Nat) : Except Breach Nat := if b ≤ a then .ok (a - b) else .error .wrapped

/-- The inner loop of `beer_io_sendv_raw`, on the array of parts, the index of the part that `iov`
points to, and `count`. -/
def skipTaken (arr : List Bytes) : (r iov count : Nat) → Except Breach (List Bytes × Nat × Nat)
  | _, iov, 0 => .ok (arr, iov, 0)
  | r, iov, count + 1 => do
      let part ← within arr[iov]?
      if part.length > r then return (arr.set iov (part.drop r), iov, count + 1)
      let r ← minus r part.length
      skipTaken arr r (iov + 1) count

/-- The outer loop. `offered` tells for each call on the transport how much had been taken before
it, and what it was offered. -/
def sendvLoop (all : Bool) : (fuel : Nat) → (arr : List Bytes) → (iov count total : Nat) →
    (offered : List (Nat × List Bytes)) → Link τ →
    Except Breach (Ssize × List (Nat × List Bytes) × Link τ)
  | _, _, _, 0, total, offered, l => .ok (total, offered, l)
  | 0, _, _, _ + 1, _, _, _ => .error .endless
  | fuel + 1, arr, iov, count + 1, total, offered, l => do
      let window ← within
        (peek arr iov (if t.txv then min (count + 1) Link.iovMax else count + 1))
      let offered := offered ++ [(total, window)]
      match l.sendv t window with
      | (none, l) => return (-1, offered, l)
      | (some r, l) =>
          if all then
            let (arr, iov, count) ← skipTaken arr r.count iov (count + 1)
            sendvLoop all fuel arr iov count (total + r.count) offered l
          else return ((total + r.count : Nat), offered, l)

/-- `beer_io_sendv_raw`, with the calls on the transport. -/
def beerIoSendvRawChecked (iov : List Bytes) (all : Bool) (n : Net τ) :
    Except Breach (Ssize × List (Nat × List Bytes) × Net τ) := do
  let (rc, offered, link) ←
    sendvLoop t all (iov.flatten.length + 1) iov 0 iov.length 0 [] n.link
  return (rc, offered, n.after rc link)

/-- `memcpy`. -/
def memcpy (target : Bytes) (offset : Nat) (source : Bytes) (start count : Nat) :
    Except Breach Bytes := do
  let data ← within (peek source start count)
  within (poke target offset data)

/-- `beer_io_recv`, where it copies what is in the receive buffer. -/
def copyHeld (b : Iob) (lv : Nat) (buf : Bytes) (off : Nat) : Except Breach (Bytes × Nat) :=
  if lv ≠ 0 then do
    let buf ← memcpy buf off b.bytes b.off lv
    return (buf, off + lv)
  else return (buf, off)

/-- The loop of `beer_io_recv`. The buffer of the caller is `buf`. -/
def recvLoop (size : Nat) : (fuel : Nat) → (buf : Bytes) → (off left : Nat) → Iob → Link τ →
    Except Breach (Ssize × Bytes × Iob × Link τ)
  | 0, _, _, _, _, _ => .error .endless
  | fuel + 1, buf, off, left, b, l => do
      if b.off + left ≤ b.top then
        let buf ← memcpy buf off b.bytes b.off left
        return ((size : Ssize), buf, { b with off := b.off + left }, l)
      let lv ← minus b.top b.off
      let rv ← minus left lv
      let (buf, off) ← copyHeld b lv buf off
      let b := { b with off := 0 }
      let (top, chunk, l) := l.recvRaw t b.size false
      let bytes ← within (poke b.bytes 0 chunk)
      let b := { b with buf := some bytes }
      if top ≤ 0 then return (-1, buf, b, l)
      let b := { b with top := top.toNat }
      if rv ≤ b.top then
        let buf ← memcpy buf off b.bytes 0 rv
        return ((size : Ssize), buf, { b with off := rv }, l)
      let left ← minus left lv
      recvLoop size fuel buf off left b l

/-- `beer_io_recv`, with the buffer of the caller. -/
def beerIoRecvChecked (buf : Bytes) (n : Net τ) : Except Breach (Ssize × Bytes × Net τ) := do
  if n.rbuf.buf = none then
    let (rc, stored, n) := beerIoRecvRaw t buf.length true n
    let buf ← within (poke buf 0 stored)
    return (rc, buf, n)
  let (rc, buf, rbuf, link) ← recvLoop t buf.length (buf.length + 2) buf 0 buf.length n.rbuf n.link
  return (rc, buf, { n.after rc link with rbuf })

@[simp] theorem within_some {α : Type} (a : α) : within (some a) = .ok a := rfl

theorem minus_eq {a b : Nat} (h : b ≤ a) : minus a b = .ok (a - b) := if_pos h

theorem skipTaken_eq (before parts : List Bytes) (r : Nat) :
    ∃ before', skipTaken (before ++ parts) r before.length parts.length =
      .ok (before' ++ Link.advance r parts, before'.length, (Link.advance r parts).length) := by
  induction parts generalizing before r with
  | nil => exact ⟨before, rfl⟩
  | cons part parts ih =>
      have hpart : (before ++ part :: parts)[before.length]? = some part := by simp
      rw [List.length_cons, skipTaken, Link.advance, hpart, within_some, ok_bind]
      split
      · rename_i hmore
        exact ⟨before, by simp⟩
      · rename_i hdone
        obtain ⟨before', h⟩ := ih (before ++ [part]) (r - part.length)
        rw [List.append_assoc, List.length_append] at h
        refine ⟨before', ?_⟩
        rw [minus_eq (Nat.not_lt.mp hdone), ok_bind]
        exact h

theorem window_eq (before parts : List Bytes) (txv : Bool) :
    within (peek (before ++ parts) before.length
        (if txv then min parts.length Link.iovMax else parts.length)) =
      .ok (if txv then parts.take Link.iovMax else parts) := by
  have hpeek : ∀ count ≤ parts.length,
      peek (before ++ parts) before.length count = some (parts.take count) := by
    intro count hcount
    conv_lhs => rw [← List.take_append_drop count parts]
    exact peek_append (by rw [List.length_take, Nat.min_eq_left hcount])
  split
  · rw [hpeek _ (Nat.min_le_left _ _), within_some, Nat.min_comm, ← List.take_eq_take_min]
  · rw [hpeek _ (le_refl _), within_some, List.take_length]

variable {t}

/-- A call on the transport is made where something is left to take. -/
def Pending (total : Nat) (call : Nat × List Bytes) : Prop :=
  call.1 < total ∧ call.2.flatten ≠ []

theorem sendvLoop_eq (all : Bool) {fuel total : Nat} (before parts : List Bytes)
    (offered : List (Nat × List Bytes)) (l : Link τ) (hfuel : parts.flatten.length < fuel)
    (hwindow : parts = [] ∨ (if t.txv then parts.take Link.iovMax else parts).flatten ≠ []) :
    ∃ calls, sendvLoop t all fuel (before ++ parts) before.length parts.length total offered l =
        .ok ((l.sendvFrom t all fuel total parts).1, offered ++ calls,
          (l.sendvFrom t all fuel total parts).2) ∧
      ∀ call ∈ calls, Pending (total + parts.flatten.length) call := by
  induction fuel generalizing total before parts offered l with
  | zero => omega
  | succ fuel ih =>
      cases parts with
      | nil => exact ⟨[], by simp [sendvLoop, Link.sendvFrom], by simp⟩
      | cons part parts =>
          have hne := hwindow.resolve_left (List.cons_ne_nil _ _)
          have hfront := (Link.window_flatten_front t.txv (part :: parts)).length_le
          have hlength := List.length_pos_of_ne_nil hne
          have hfirst : Pending (total + (part :: parts).flatten.length)
              (total, if t.txv then (part :: parts).take Link.iovMax else part :: parts) :=
            ⟨by dsimp only; omega, hne⟩
          have hoffer := window_eq before (part :: parts) t.txv
          rw [List.length_cons] at hoffer ⊢
          rw [sendvLoop, hoffer, ok_bind, Link.sendvFrom]
          dsimp only
          rcases hsend : l.sendv t
            (if t.txv then (part :: parts).take Link.iovMax else part :: parts) with ⟨_ | r, l'⟩
          · exact ⟨_, rfl, by simpa using hfirst⟩
          · dsimp only
            have hcount := r.count_le.trans hfront
            have hpos := r.count_pos
            have hleft := Link.flatten_advance hcount
            split
            · obtain ⟨before', hskip⟩ := skipTaken_eq before (part :: parts) r.count
              have hlength' : (Link.advance r.count (part :: parts)).flatten.length + r.count =
                  (part :: parts).flatten.length := by
                rw [hleft, List.length_drop]
                omega
              obtain ⟨calls, hloop, hcalls⟩ := @ih (total + r.count) before'
                (Link.advance r.count (part :: parts))
                (offered ++ [(total,
                  if t.txv then (part :: parts).take Link.iovMax else part :: parts)]) l'
                (by omega) (Link.advance_window t.txv r.count (part :: parts))
              refine ⟨(total, if t.txv then (part :: parts).take Link.iovMax else part :: parts) ::
                calls, ?_, ?_⟩
              · rw [List.length_cons] at hskip
                rw [hskip, ok_bind]
                simpa using hloop
              · intro call hcall
                rcases List.mem_cons.mp hcall with rfl | hcall
                · exact hfirst
                · have hpending := hcalls call hcall
                  rwa [Nat.add_assoc, Nat.add_comm r.count, hlength'] at hpending
            · exact ⟨_, rfl, by simpa using hfirst⟩

theorem memcpy_eq {stored room : Bytes} {b : Iob} {count : Nat} (hreadable : b.Readable)
    (hcount : b.off + count ≤ b.top) (hroom : count ≤ room.length) :
    memcpy (stored ++ room) stored.length b.bytes b.off count =
      .ok ((stored ++ b.read count) ++ room.drop count) := by
  have hread := Iob.read_length hreadable hcount
  have hpeek : peek b.bytes b.off count = some (b.read count) :=
    if_pos (hcount.trans hreadable.top_le)
  rw [memcpy, hpeek, within_some, ok_bind, poke_room (by omega), within_some, hread]

theorem copyHeld_eq {stored room : Bytes} {b : Iob} (hreadable : b.Readable)
    (hroom : b.top - b.off ≤ room.length) :
    copyHeld b (b.top - b.off) (stored ++ room) stored.length =
      .ok ((stored ++ b.unread) ++ room.drop (b.top - b.off), (stored ++ b.unread).length) := by
  have hoff := hreadable.off_le
  have hunread : b.unread.length = b.top - b.off := Iob.read_length hreadable (by omega)
  unfold copyHeld
  split
  · rw [memcpy_eq hreadable (by omega) hroom, ok_bind, pure_eq, List.length_append, hunread]
    rfl
  · rename_i hnone
    have hnil : b.unread = [] := List.eq_nil_of_length_eq_zero (by omega)
    rw [not_not.mp hnone, hnil, List.append_nil, List.drop_zero, pure_eq]

theorem poke_filled {b : Iob} (hbuf : b.buf ≠ none) {chunk : Bytes} (h : chunk.length ≤ b.size) :
    ∃ bytes, poke b.bytes 0 chunk = some bytes ∧
      ∀ off, b.filled chunk off = { b with buf := some bytes, off, top := chunk.length } := by
  obtain ⟨buf, hbuf⟩ := Option.ne_none_iff_exists'.mp hbuf
  refine ⟨_, if_pos (by rw [Nat.zero_add]; exact h), fun off => ?_⟩
  simp [Iob.filled, Iob.write, Iob.bytes, hbuf]

/-- The loop stays within both buffers, no difference is below zero, and it is the loop of the
stream: what is stored stands in front of what is left of the caller's buffer. -/
theorem recvLoop_eq (size : Nat) {fuel : Nat} {stored room : Bytes} {b : Iob} (l : Link τ)
    (hbuf : b.buf ≠ none) (hreadable : b.Readable)
    (hfuel : room.length + (if b.top = b.off then 1 else 0) < fuel) :
    ∃ rest, recvLoop t size fuel (stored ++ room) stored.length room.length b l =
        .ok ((recvBuffered t size fuel room.length stored b l).1,
          (recvBuffered t size fuel room.length stored b l).2.1 ++ rest,
          (recvBuffered t size fuel room.length stored b l).2.2) ∧
      (recvBuffered t size fuel room.length stored b l).2.1.length + rest.length =
        stored.length + room.length := by
  induction fuel generalizing stored room b l with
  | zero => omega
  | succ fuel ih =>
      have hoff := hreadable.off_le
      have htop := hreadable.top_le
      rw [recvBuffered_succ]
      unfold recvLoop
      split
      · rename_i hthere
        have hread := Iob.read_length hreadable hthere
        rw [memcpy_eq hreadable hthere (le_refl _), ok_bind, pure_eq]
        exact ⟨room.drop room.length, rfl, by simp [hread]⟩
      · rename_i hthere
        have hunread : b.unread.length = b.top - b.off := Iob.read_length hreadable (by omega)
        have hle : b.top - b.off ≤ room.length := by omega
        have hstored : (stored ++ b.unread).length = stored.length + (b.top - b.off) := by
          rw [List.length_append, hunread]
        have hroom : (room.drop (b.top - b.off)).length = room.length - (b.top - b.off) :=
          List.length_drop
        have hsize : ({ b with off := 0 } : Iob).size = b.size := rfl
        rw [minus_eq hoff, ok_bind, minus_eq hle, ok_bind, copyHeld_eq hreadable hle, ok_bind]
        dsimp only
        rw [hsize]
        rcases hrecv : l.recv t b.size with ⟨_ | r, l'⟩
        · have hpoke : poke ({ b with off := 0 } : Iob).bytes 0 [] = some b.bytes := by
            simp [poke, Iob.bytes]
          have hbytes : b.buf = some b.bytes := by
            obtain ⟨buf, hsome⟩ := Option.ne_none_iff_exists'.mp hbuf
            rw [Iob.bytes, hsome]
            rfl
          rw [Link.recvRaw_none hrecv]
          dsimp only
          rw [hpoke, within_some, ok_bind, if_pos (by decide), ← hbytes]
          exact ⟨room.drop (b.top - b.off), rfl, by omega⟩
        · have hgot : ¬((r.bytes.length : Ssize) ≤ 0) :=
            Int.not_le.mpr (Int.natCast_pos.mpr r.length_pos)
          obtain ⟨bytes, hpoke, hfilled⟩ := poke_filled hbuf r.length_le
          have hpoke' : poke ({ b with off := 0 } : Iob).bytes 0 r.bytes = some bytes := hpoke
          have hreadable' := Iob.filled_readable hbuf r.length_le (Nat.zero_le _)
          have hbuf' : (b.filled r.bytes 0).buf ≠ none := by simp [hfilled]
          have hfresh : (b.filled r.bytes 0).top ≠ (b.filled r.bytes 0).off := r.length_pos.ne'
          rw [Link.recvRaw_some hrecv]
          dsimp only
          rw [hpoke', within_some, ok_bind, if_neg hgot, Int.toNat_natCast]
          have hzero := hfilled 0
          split
          · rename_i hlast
            have hcopy := @memcpy_eq (stored ++ b.unread) (room.drop (b.top - b.off)) _
              (room.length - (b.top - b.off)) hreadable' ((Nat.zero_add _).trans_le hlast)
              hroom.ge
            rw [hzero] at hcopy
            refine ⟨(room.drop (b.top - b.off)).drop (room.length - (b.top - b.off)), ?_, ?_⟩
            · rw [hcopy, ok_bind, pure_eq, hzero, hfilled (room.length - (b.top - b.off))]
            · have hread := @Iob.read_length _ hreadable' (room.length - (b.top - b.off))
                ((Nat.zero_add _).trans_le hlast)
              simp only [List.length_append, List.length_drop, hread] at hstored ⊢
              omega
          · have hends := @ih (stored ++ b.unread) (room.drop (b.top - b.off)) _ l' hbuf'
              hreadable' (by rw [if_neg hfresh, hroom]; split at hfuel <;> omega)
            rw [ok_bind]
            rw [hroom, hzero] at hends
            obtain ⟨rest, hloop, hlength⟩ := hends
            refine ⟨rest, ?_, ?_⟩
            · rw [hzero]
              exact hloop
            · rw [hzero]
              omega

theorem beerIoRecvChecked_eq (buf : Bytes) {n : Net τ} (hbuf : n.rbuf.buf ≠ none)
    (hreadable : n.rbuf.Readable) :
    ∃ rest, beerIoRecvChecked t buf n =
        .ok ((beerIoRecv t buf.length n).1, (beerIoRecv t buf.length n).2.1 ++ rest,
          (beerIoRecv t buf.length n).2.2) ∧
      (beerIoRecv t buf.length n).2.1.length + rest.length = buf.length := by
  have hflag : (if n.rbuf.top = n.rbuf.off then 1 else 0) ≤ 1 := by split <;> omega
  obtain ⟨rest, hloop, hlength⟩ := @recvLoop_eq _ t buf.length (buf.length + 2) [] buf n.rbuf
    n.link hbuf hreadable (by omega)
  rw [List.nil_append, List.length_nil] at hloop
  rw [List.length_nil, Nat.zero_add] at hlength
  unfold beerIoRecvChecked beerIoRecv
  rw [if_neg hbuf, if_neg hbuf, hloop]
  exact ⟨rest, rfl, hlength⟩

theorem beerIoSendvRawChecked_eq (iov : List Bytes) (all : Bool) (n : Net τ)
    (hwindow : iov = [] ∨ (if t.txv then iov.take Link.iovMax else iov).flatten ≠ []) :
    ∃ calls, beerIoSendvRawChecked t iov all n =
        .ok ((beerIoSendvRaw t iov all n).1, calls, (beerIoSendvRaw t iov all n).2) ∧
      ∀ call ∈ calls, Pending iov.flatten.length call := by
  obtain ⟨calls, hloop, hcalls⟩ := @sendvLoop_eq _ t all (iov.flatten.length + 1) 0 [] iov []
    n.link (Nat.lt_succ_self _) hwindow
  rw [Nat.zero_add] at hcalls
  refine ⟨calls, ?_, hcalls⟩
  unfold beerIoSendvRawChecked
  rw [List.nil_append, List.length_nil, List.nil_append] at hloop
  rw [hloop]
  rfl

end BeeC
