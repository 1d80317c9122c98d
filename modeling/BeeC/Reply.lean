import BeeC.Wire.Loop
import BeeC.Msgpuck
import BeeC.Proto

/-!
Decoding a reply (`beer_reply.c`). A pointer into the receive buffer is modelled by the bytes
from it to the end of the buffer; a pointer kept in the reply is an offset into the buffer.
-/

namespace BeeC

open BeeC.Wire.MessagePack
open BeeC.Wire.Loop

/-- `struct beer_reply`. -/
structure Reply where
  alloc : Bool
  bitmap : UInt64 := 0
  buf : Option Bytes := none
  bufSize : Nat := 0
  code : UInt64 := 0
  sync : UInt64 := 0
  schemaId : UInt64 := 0
  error : Option Nat := none
  errorEnd : Option Nat := none
  data : Option Nat := none
  dataEnd : Option Nat := none
  deriving DecidableEq, Repr

/-- The bytes between two pointers into a buffer. -/
def slice (buf : Bytes) : Option Nat → Option Nat → Option Bytes
  | some start, some stop => some ((buf.drop start).take (stop - start))
  | _, _ => none

namespace Reply

/-- `beer_reply_init`: all fields zero, but for the allocation mark. -/
def init (alloc : Bool) : Reply := { alloc }

def errorText (r : Reply) : Option Bytes := slice (r.buf.getD []) r.error r.errorEnd

def dataBytes (r : Reply) : Option Bytes := slice (r.buf.getD []) r.data r.dataEnd

/-- `r->bitmap |= (1ULL << key)`. -/
def mark (r : Reply) (key : UInt32) : Except Stop Reply :=
  if key < 64 then .ok { r with bitmap := r.bitmap ||| (1 <<< key.toUInt64) }
  else .error (.fault .shiftTooFar)

end Reply

/-- `if (mp_typeof(*p) != kind) goto rollback;` -/
def expect (mp : Msgpuck) (kind : Kind) (p : Bytes) : Except Stop Unit := do
  let found ← mp.typeofAt p
  if found ≠ kind then throw .fail

/-- One turn of the header loop of `beer_reply_from`. -/
def headerPair (mp : Msgpuck) (s : Reply × Bytes) : Except Stop (Reply × Bytes) := do
  let (r, p) := s
  expect mp .uint p
  let (key, p) ← mp.decodeUint p
  let key := key.toUInt32
  expect mp .uint p
  if key = HeaderKey.sync.id then
    expect mp .uint p
    let (value, p) ← mp.decodeUint p
    let r ← Reply.mark { r with sync := value } key
    return (r, p)
  else if key = HeaderKey.code.id then
    expect mp .uint p
    let (value, p) ← mp.decodeUint p
    let r ← Reply.mark { r with code := value } key
    return (r, p)
  else if key = HeaderKey.schemaId.id then
    expect mp .uint p
    let (value, p) ← mp.decodeUint p
    let r ← Reply.mark { r with schemaId := value } key
    return (r, p)
  else
    throw .fail

/-- One turn of the body loop of `beer_reply_from`, on a buffer of `size` bytes. The value of a
key that is neither `ERROR` nor `DATA` is not skipped. -/
def bodyPair (mp : Msgpuck) (size : Nat) (s : Reply × Bytes) : Except Stop (Reply × Bytes) := do
  let (r, p) := s
  let (key, p) ← mp.decodeUint p
  let key := key.toUInt32
  if key = ResponseKey.error.id then
    expect mp .str p
    let (elen, p) ← mp.decodeStr p
    let start := size - p.length
    let rest ← Msgpuck.advance p elen.toNat
    let r ← Reply.mark { r with
      error := some start
      errorEnd := some (start + elen.toNat)
      code := r.code &&& ((1 : UInt64) <<< 15 - 1) } key
    return (r, rest)
  else if key = ResponseKey.data.id then
    expect mp .array p
    let rest ← mp.nextValue p
    let r ← Reply.mark { r with
      data := some (size - p.length)
      dataEnd := some (size - rest.length) } key
    return (r, rest)
  else
    let r ← Reply.mark r key
    return (r, p)

/-- `mp_check`, `mp_typeof` and `mp_decode_map`, as they open the header and the body. -/
def openMap (mp : Msgpuck) (p : Bytes) : Except Stop (UInt32 × Bytes) := do
  if (mp.mpCheck p).isNone then throw .fail
  expect mp .map p
  mp.decodeMap p

/-- `beer_reply_from` from the point where the payload is in `r->buf`. -/
def decodePayload (mp : Msgpuck) (r : Reply) (buf : Bytes) : Except Stop (Int × Reply) := do
  let size := buf.length
  let (n, p) ← openMap mp buf
  let (r, p) ← loop (headerPair mp) n.toNat (r, p)
  if size - p.length = size + 5 then
    return ((size + 5 : Nat), r)
  let (n, p) ← openMap mp p
  let (r, _) ← loop (bodyPair mp size) n.toNat (r, p)
  return (0, r)

/-- The five bytes of the length prefix give the size of the payload. -/
def decodeLength (mp : Msgpuck) (length : Bytes) : Except Stop Nat := do
  expect mp .uint length
  let (size, _) ← mp.decodeUint length
  return size.toNat

/-- The reply that the error exit leaves behind. -/
def Reply.finish (alloc : Bool) : Except Stop (Int × Reply) → Except Fault (Int × Reply)
  | .ok result => .ok result
  | .error .fail => .ok (-1, Reply.init alloc)
  | .error (.fault reason) => .error reason

/-- `beer_reply_from`. The callback returns the bytes it stored, or `none` for its `-1`; the
allocator has no memory to give for a size of zero, and otherwise succeeds. -/
def beerReplyFrom {σ : Type} (mp : Msgpuck) (rcv : Nat → σ → Option Bytes × σ) (r : Reply)
    (ptr : σ) : Except Fault (Int × Reply) × σ :=
  let r := Reply.init r.alloc
  match rcv 5 ptr with
  | (none, ptr) => (Reply.finish r.alloc (.error .fail), ptr)
  | (some length, ptr) =>
      match decodeLength mp length with
      | .error stop => (Reply.finish r.alloc (.error stop), ptr)
      | .ok size =>
          if size = 0 then (Reply.finish r.alloc (.error .fail), ptr)
          else
            match rcv size ptr with
            | (none, ptr) => (Reply.finish r.alloc (.error .fail), ptr)
            | (some buf, ptr) =>
                (Reply.finish r.alloc
                  (decodePayload mp { r with buf := some buf, bufSize := size } buf), ptr)

/-- `beer_reply_cb`: the next bytes of a buffer that the caller vouches for. -/
def beerReplyCb (size : Nat) (src : Bytes) : Option Bytes × Bytes :=
  (some (src.take size), src.drop size)

end BeeC
