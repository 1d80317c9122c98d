import BeeC.Object

/-!
The transport of a network stream and its two buffers (`beer_io.c`, `beer_iob.c`). What the
transport has taken and delivered so far is recorded.
-/

namespace BeeC

open BeeC.Wire.MessagePack

/-- `enum beer_error`. -/
inductive BeerError where
  | eok | efail | ememory | esystem | ebig | esize | eresolve | etmout | ebadval | elogin
  deriving DecidableEq, Repr

theorem natCast_ne_neg_one (n : Nat) : (n : Ssize) ≠ -1 := by
  exact (Int.natCast_nonneg n).trans_lt' (by decide) |>.ne'

/-- What a read delivers: at least one byte, and no more than there is room for. -/
structure Delivery (room : Nat) where
  bytes : Bytes
  length_pos : 0 < bytes.length
  length_le : bytes.length ≤ room

/-- How much of what is offered to it a write takes: at least one byte. -/
structure Taking (offered : Nat) where
  count : Nat
  count_pos : 0 < count
  count_le : count ≤ offered

/-- What is behind a network stream: a socket, or the callbacks that are set in its place. A call
whose result is zero or negative has the result `none`. -/
structure Transport (τ : Type) where
  connect : τ → BeerError × τ
  close : τ → τ
  recv : (room : Nat) → τ → Option (Delivery room) × τ
  send : (data : Bytes) → τ → Option (Taking data.length) × τ
  sendv : (iov : List Bytes) → τ → Option (Taking iov.flatten.length) × τ
  /-- Whether `sendv` is a callback. -/
  txv : Bool

/-- The state of a transport, the bytes it has taken, and the results of its reads. -/
structure Link (τ : Type) where
  state : τ
  taken : Bytes := []
  heard : List (Option Bytes) := []

namespace Link

variable {τ : Type} (t : Transport τ)

def recv (room : Nat) (l : Link τ) : Option (Delivery room) × Link τ :=
  ((t.recv room l.state).1, { l with
    state := (t.recv room l.state).2
    heard := l.heard ++ [(t.recv room l.state).1.map Delivery.bytes] })

def send (data : Bytes) (l : Link τ) : Option (Taking data.length) × Link τ :=
  ((t.send data l.state).1, { l with
    state := (t.send data l.state).2
    taken := l.taken ++ data.take ((t.send data l.state).1.elim 0 Taking.count) })

def sendv (iov : List Bytes) (l : Link τ) : Option (Taking iov.flatten.length) × Link τ :=
  ((t.sendv iov l.state).1, { l with
    state := (t.sendv iov l.state).2
    taken := l.taken ++ iov.flatten.take ((t.sendv iov l.state).1.elim 0 Taking.count) })

/-- The bytes that the reads have delivered. -/
def delivered (l : Link τ) : Bytes := (l.heard.filterMap id).flatten

/-- The loop of `beer_io_send_raw`, from an offset on. -/
def sendFrom (all : Bool) (buf : Bytes) : (fuel off : Nat) → Link τ → Ssize × Link τ
  | 0, _, l => (-1, l)
  | fuel + 1, off, l =>
      match l.send t (buf.drop off) with
      | (none, l) => (-1, l)
      | (some r, l) =>
          if off + r.count ≠ buf.length ∧ all then sendFrom all buf fuel (off + r.count) l
          else ((off + r.count : Nat), l)

/-- The inner loop of `beer_io_sendv_raw`: the parts that are left when some bytes are taken. -/
def advance : (r : Nat) → List Bytes → List Bytes
  | _, [] => []
  | r, part :: parts =>
      if part.length > r then part.drop r :: parts else advance (r - part.length) parts

/-- `IOV_MAX`. -/
def iovMax : Nat := 1024

/-- The loop of `beer_io_sendv_raw`, where `total` bytes have been taken. -/
def sendvFrom (all : Bool) : (fuel total : Nat) → List Bytes → Link τ → Ssize × Link τ
  | _, total, [], l => (total, l)
  | 0, _, _ :: _, l => (-1, l)
  | fuel + 1, total, part :: parts, l =>
      let iov := part :: parts
      match l.sendv t (if t.txv then iov.take iovMax else iov) with
      | (none, l) => (-1, l)
      | (some r, l) =>
          if all then sendvFrom all fuel (total + r.count) (advance r.count iov) l
          else ((total + r.count : Nat), l)

/-- The loop of `beer_io_recv_raw`, where some bytes are stored. -/
def recvFrom (size : Nat) (all : Bool) : (fuel : Nat) → (stored : Bytes) → Link τ →
    Ssize × Bytes × Link τ
  | 0, stored, l => (-1, stored, l)
  | fuel + 1, stored, l =>
      match l.recv t (size - stored.length) with
      | (none, l) => (-1, stored, l)
      | (some r, l) =>
          let stored := stored ++ r.bytes
          if stored.length ≠ size ∧ all then recvFrom size all fuel stored l
          else (stored.length, stored, l)

/-- `beer_io_recv_raw`, with the bytes that it stores. -/
def recvRaw (size : Nat) (all : Bool) (l : Link τ) : Ssize × Bytes × Link τ :=
  l.recvFrom t size all (size + 1) []

end Link

/-- `struct beer_iob`; without a buffer, its size does not matter. -/
structure Iob where
  buf : Option Bytes := none
  off : Nat := 0
  top : Nat := 0
  deriving DecidableEq, Repr

namespace Iob

def bytes (b : Iob) : Bytes := b.buf.getD []

def size (b : Iob) : Nat := b.bytes.length

/-- `beer_iob_init`. The `int` it is given becomes a `size_t`; there is no memory for a negative
one, and otherwise there is. -/
def beerIobInit (size : Int32) : Int × Iob :=
  if size = 0 then (0, {})
  else if size < 0 then (-1, {})
  else (0, { buf := some (List.replicate size.toInt.toNat 0) })

def beerIobClear (b : Iob) : Iob := { b with off := 0, top := 0 }

/-- `memcpy` to the bytes from an offset on. -/
def write (b : Iob) (offset : Nat) (data : Bytes) : Iob :=
  { b with buf := b.buf.map fun buf =>
      buf.take offset ++ (data ++ buf.drop (offset + data.length)) }

/-- Store bytes at `off`, and move `off` behind them. -/
def put (b : Iob) (data : Bytes) : Iob :=
  { b.write b.off data with off := b.off + data.length }

/-- The bytes from `off` on. -/
def read (b : Iob) (count : Nat) : Bytes := (b.bytes.drop b.off).take count

end Iob

/-- `struct beer_opt`, as far as it is not part of the transport. The URI is parsed: its login and
its password. -/
structure Opt where
  login : Option Bytes := none
  password : Option Bytes := none
  sendBuf : Int32 := 16384
  recvBuf : Int32 := 16384
  deriving DecidableEq, Repr

/-- `struct beer_stream_net`, and the count of writes from the stream it belongs to. -/
structure Net (τ : Type) where
  wrcnt : UInt32 := 0
  opt : Opt := {}
  connected : Bool := false
  inited : Bool := false
  sbuf : Iob := {}
  rbuf : Iob := {}
  error : BeerError := .eok
  greeting : Bytes
  link : Link τ

variable {τ : Type} (t : Transport τ)

/-- What a call on the transport leaves behind: where it failed, the error is set. -/
def Net.after (n : Net τ) (rc : Ssize) (link : Link τ) : Net τ :=
  { n with link, error := if rc = -1 then .esystem else n.error }

def beerIoSendRaw (buf : Bytes) (all : Bool) (n : Net τ) : Ssize × Net τ :=
  let (rc, link) := n.link.sendFrom t all buf (buf.length + 1) 0
  (rc, n.after rc link)

def beerIoSendvRaw (iov : List Bytes) (all : Bool) (n : Net τ) : Ssize × Net τ :=
  let (rc, link) := n.link.sendvFrom t all (iov.flatten.length + 1) 0 iov
  (rc, n.after rc link)

def beerIoFlush (n : Net τ) : Ssize × Net τ :=
  if n.sbuf.off = 0 then (0, n)
  else
    let (rc, n) := beerIoSendRaw t (n.sbuf.bytes.take n.sbuf.off) true n
    if rc = -1 then (-1, n) else (rc, { n with sbuf := { n.sbuf with off := 0 } })

def beerIoSend (buf : Bytes) (n : Net τ) : Ssize × Net τ :=
  if n.sbuf.buf = none then beerIoSendRaw t buf true n
  else if buf.length > n.sbuf.size then (-1, { n with error := .ebig })
  else if n.sbuf.off + buf.length ≤ n.sbuf.size then
    (buf.length, { n with sbuf := n.sbuf.put buf })
  else
    let (rc, n) := beerIoSendRaw t (n.sbuf.bytes.take n.sbuf.off) true n
    if rc = -1 then (-1, n)
    else (buf.length, { n with sbuf := { n.sbuf.write 0 buf with off := buf.length } })

def beerIoSendvPut (iov : List Bytes) (b : Iob) : Iob := iov.foldl Iob.put b

def beerIoSendv (iov : List Bytes) (n : Net τ) : Ssize × Net τ :=
  if n.sbuf.buf = none then beerIoSendvRaw t iov true n
  else
    let size := (iov.map List.length).sum
    if size > n.sbuf.size then (-1, { n with error := .ebig })
    else if n.sbuf.off + size ≤ n.sbuf.size then
      (size, { n with sbuf := beerIoSendvPut iov n.sbuf })
    else
      let (rc, n) := beerIoSendRaw t (n.sbuf.bytes.take n.sbuf.off) true n
      if rc = -1 then (-1, n)
      else (size, { n with sbuf := beerIoSendvPut iov { n.sbuf with off := 0 } })

def beerIoRecvRaw (size : Nat) (all : Bool) (n : Net τ) : Ssize × Bytes × Net τ :=
  let (rc, stored, link) := n.link.recvRaw t size all
  (rc, stored, n.after rc link)

/-- The loop of `beer_io_recv`, where `left` bytes have not been there before. -/
def recvBuffered (size : Nat) : (fuel left : Nat) → (stored : Bytes) → Iob → Link τ →
    Ssize × Bytes × Iob × Link τ
  | 0, _, stored, b, l => (-1, stored, b, l)
  | fuel + 1, left, stored, b, l =>
      if b.off + left ≤ b.top then
        (size, stored ++ b.read left, { b with off := b.off + left }, l)
      else
        let lv := b.top - b.off
        let rv := left - lv
        let stored := stored ++ b.read lv
        let b := { b with off := 0 }
        match l.recvRaw t b.size false with
        | (top, chunk, l) =>
            if top ≤ 0 then (-1, stored, b, l)
            else
              let b := { b.write 0 chunk with top := top.toNat }
              if rv ≤ b.top then (size, stored ++ b.read rv, { b with off := rv }, l)
              else recvBuffered size fuel (left - lv) stored b l

def beerIoRecv (size : Nat) (n : Net τ) : Ssize × Bytes × Net τ :=
  if n.rbuf.buf = none then beerIoRecvRaw t size true n
  else
    let (rc, stored, rbuf, link) := recvBuffered t size (size + 2) size [] n.rbuf n.link
    (rc, stored, { n.after rc link with rbuf })

end BeeC
