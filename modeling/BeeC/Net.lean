import BeeC.Io
import BeeC.Iter
import BeeC.ProtoInternal

namespace BeeC

open BeeC.Wire.MessagePack

variable {τ : Type} (t : Transport τ) (mp : Msgpuck)

/-- `beer_net`: nothing is set up but the options and the memory of the greeting. -/
def beerNet (greeting : Bytes) (state : τ) : Net τ := { greeting, link := { state } }

def beerInit (n : Net τ) : Int × Net τ :=
  let (rc, sbuf) := Iob.beerIobInit n.opt.sendBuf
  if rc = -1 then (-1, { n with sbuf, error := .ememory })
  else
    let (rc, rbuf) := Iob.beerIobInit n.opt.recvBuf
    if rc = -1 then (-1, { n with sbuf, rbuf, error := .ememory })
    else (0, { n with sbuf, rbuf, inited := true })

def beerNetRead (size : Nat) (n : Net τ) : Ssize × Bytes × Net τ := beerIoRecv t size n

/-- `pm_atomic_fetch_add(&s->wrcnt, 1)`, after a write that has not failed. -/
def Net.count : Ssize × Net τ → Ssize × Net τ
  | (rc, n) => (rc, if rc = -1 then n else { n with wrcnt := n.wrcnt + 1 })

def beerNetWrite (buf : Bytes) (n : Net τ) : Ssize × Net τ := Net.count (beerIoSend t buf n)

def beerNetWritev (iov : List Bytes) (n : Net τ) : Ssize × Net τ :=
  Net.count (beerIoSendv t iov n)

/-- `beer_net_recv_cb`, as `beer_reply_from` looks at it. -/
def beerNetRecvCb (size : Nat) (n : Net τ) : Option Bytes × Net τ :=
  let (rc, stored, n) := beerIoRecv t size n
  (if rc = -1 then none else some stored, n)

def beerNetReply (r : Reply) (n : Net τ) : Except Fault (Int × Reply) × Net τ :=
  if n.wrcnt = 0 then (.ok (1, r), n)
  else beerReplyFrom mp (beerNetRecvCb t) r { n with wrcnt := n.wrcnt - 1 }

def beerFlush (n : Net τ) : Ssize × Net τ := beerIoFlush t n

/-- `struct beer_iter` over replies. -/
structure ReplyIter where
  status : IterStatus := .ok
  r : Reply := Reply.init false
  deriving DecidableEq, Repr

/-- `beer_iter_reply_next`; whether there is a reply. -/
def beerIterReplyNext (it : ReplyIter) (n : Net τ) :
    Except Fault (Bool × ReplyIter) × Net τ :=
  match beerNetReply t mp (Reply.init false) n with
  | (.error reason, n) => (.error reason, n)
  | (.ok (rc, r), n) =>
      if rc = -1 then (.ok (false, { status := .fail, r }), n)
      else (.ok (rc ≠ 1, { it with r }), n)

/-- What a loop over the replies has come to: the replies, the status of the iterator, and whether
there was no other reply when it ended. -/
structure Iteration where
  visited : List Reply
  status : IterStatus
  stopped : Bool
  deriving DecidableEq, Repr

/-- `while (beer_next(&it))`, for at most so many replies. -/
def iterateFrom : (limit : Nat) → ReplyIter → Net τ → Except Fault Iteration × Net τ
  | 0, it, n => (.ok ⟨[], it.status, false⟩, n)
  | limit + 1, it, n =>
      match beerIterReplyNext t mp it n with
      | (.error reason, n) => (.error reason, n)
      | (.ok (false, it), n) => (.ok ⟨[], it.status, true⟩, n)
      | (.ok (true, it), n) =>
          match iterateFrom limit it n with
          | (.error reason, n) => (.error reason, n)
          | (.ok i, n) => (.ok { i with visited := it.r :: i.visited }, n)

/-- A loop with `beer_iter_reply`. A call of `beer_next` that finds a reply counts one write down,
so that the loop is over after as many calls as there are writes, and one. -/
def iterate (n : Net τ) : Except Fault Iteration × Net τ :=
  iterateFrom t mp (n.wrcnt.toNat + 1) {} n

end BeeC
