import BeeC.Wire.Gather
import BeeC.ProtoInternal

namespace BeeC

open BeeC.Wire.Memory
open BeeC.Wire.Gather
open BeeC.Wire.MessagePack

/-- `struct beer_request`. A key and a tuple are the bytes between their two pointers. -/
structure Request where
  sync : UInt64 := 0
  type : RequestType
  spaceId : UInt32 := 0
  indexId : UInt32 := 0
  offset : UInt32 := 0
  limit : UInt32 := 0xffffffff
  iterator : UInt32 := 0
  key : Option Bytes := none
  tuple : Option Bytes := none
  indexBase : Int32 := 0

/-- `beer_request_select`, `beer_request_insert` and the other functions of the family, on a
request that `beer_request_init` has set up. -/
def beerRequest (type : RequestType) : Request := { type }

namespace Request

def setSpace (req : Request) (space : UInt32) : Int × Request := (0, { req with spaceId := space })

def setIndex (req : Request) (index : UInt32) : Int × Request := (0, { req with indexId := index })

def setOffset (req : Request) (offset : UInt32) : Int × Request := (0, { req with offset })

def setLimit (req : Request) (limit : UInt32) : Int × Request := (0, { req with limit })

def setIterator (req : Request) (iterator : UInt32) : Int × Request := (0, { req with iterator })

def setIndexBase (req : Request) (indexBase : UInt32) : Int × Request :=
  (0, { req with indexBase := indexBase.toInt32 })

/-- The bytes that an object's data pointer and size delimit, if it has any data. -/
def span (obj : Object) : Option Bytes := obj.data.map fun _ => obj.contents

def setKey (req : Request) (s : Object) : Int × Request := (0, { req with key := span s })

/-- `beer_request_set_func`, and `beer_request_set_funcz` on a text up to its end. -/
def setFunc (req : Request) (func : Option Bytes) : Int × Request :=
  if !isCall req.type then (-1, req)
  else if func.isNone then (-1, req)
  else (0, { req with key := func })

/-- `beer_request_set_expr`, and `beer_request_set_exprz` on a text up to its end. -/
def setExpr (req : Request) (expr : Option Bytes) : Int × Request :=
  if req.type ≠ .eval then (-1, req)
  else if expr.isNone then (-1, req)
  else (0, { req with key := expr })

def setOps (req : Request) (s : Object) : Int × Request :=
  match req.type with
  | .update => (0, { req with tuple := span s })
  | .upsert => (0, { req with key := span s })
  | _ => (-1, req)

def setTuple (req : Request) (s : Object) : Int × Request := (0, { req with tuple := span s })

end Request

/-- What `beer_request_writeout` keeps while it encodes: `header` with `pos`, the offset `begin`,
the parts behind `v[0]`, and the number of pairs. -/
structure Layout where
  pos : Cursor
  start : Nat
  v : List Part
  nd : Nat

namespace Layout

/-- `v[v_sz++] = part`, in an array of ten of which `v[0]` is taken. -/
def push (l : Layout) (part : Part) : Except Fault Layout :=
  if l.v.length + 1 < 10 then .ok { l with v := l.v ++ [part] } else .error .outOfBounds

def write (l : Layout) (parts : List Bytes) : Except Fault Layout := do
  let pos ← emit l.pos parts
  return { l with pos }

/-- The part of the scratch array from `begin` to `pos`. -/
def pending (l : Layout) : Part := .scratch l.start (l.pos.pos - l.start)

/-- `if (pos != begin) v[v_sz++] = …`. -/
def flush (l : Layout) : Except Fault Layout :=
  if l.pos.pos ≠ l.start then l.push l.pending else .ok l

/-- Encode a pair of a key and a number under a condition. -/
def numberWhen (mp : Msgpuck) (l : Layout) (when : Bool) (field : BodyKey) (n : UInt64) :
    Except Fault Layout := do
  if when then
    let l ← l.write [encodeKey mp field, mp.mpEncodeUint n]
    return { l with nd := l.nd + 1 }
  else return l

/-- Encode the head of a pair, and put the bytes of its value behind what is pending. -/
def attach (l : Layout) (parts : List Bytes) (value : Bytes) : Except Fault Layout := do
  let l ← l.write parts
  let l ← l.push l.pending
  let l ← { l with start := l.pos.pos }.push (.outside value)
  return { l with nd := l.nd + 1 }

end Layout

namespace Request

/-- The start of `beer_request_writeout`: the header map, nine bytes behind the start of
`header[128]`, and room for the header of the body. -/
def layHeader (mp : Msgpuck) (garbage : Nat → UInt8) (req : Request) :
    Except Fault (Layout × Nat) := do
  let pos ← emit { uninitialised garbage 128 with pos := 9 } [
    mp.mpEncodeMap 2,
    mp.mpEncodeUint HeaderKey.code.id.toUInt64,
    mp.mpEncodeUint req.type.id.toUInt64,
    mp.mpEncodeUint HeaderKey.sync.id.toUInt64,
    mp.mpEncodeUint req.sync]
  return ({ pos := { pos with pos := pos.pos + 1 }, start := 9, v := [], nd := 0 }, pos.pos)

/-- The pairs in front of the key. -/
def layNumbers (mp : Msgpuck) (req : Request) (l : Layout) : Except Fault Layout := do
  let tp := req.type
  let l ← l.numberWhen mp (tp.id < RequestType.call16.id) .space req.spaceId.toUInt64
  let l ← l.numberWhen mp
    (req.indexId ≠ 0 ∧ (tp = .select ∨ tp = .update ∨ tp = .delete)) .index req.indexId.toUInt64
  let l ← l.numberWhen mp (tp = .select) .limit req.limit.toUInt64
  let l ← l.numberWhen mp (req.offset ≠ 0 ∧ tp = .select) .offset req.offset.toUInt64
  l.numberWhen mp (req.iterator ≠ 0 ∧ tp = .select) .iterator req.iterator.toUInt64

/-- What is encoded in front of a key, for the types that have one. -/
def keyHead (mp : Msgpuck) (type : RequestType) (size : Nat) : Option (List Bytes) :=
  match type with
  | .eval => some [encodeKey mp .expression, mp.mpEncodeStrl (UInt32.ofNat size)]
  | .call16 | .call => some [encodeKey mp .function, mp.mpEncodeStrl (UInt32.ofNat size)]
  | .select | .update | .delete => some [encodeKey mp .key]
  | .upsert => some [encodeKey mp .ops]
  | _ => none

/-- The key. There is no layout when a request of this type has none. -/
def layKey (mp : Msgpuck) (req : Request) (l : Layout) : Except Fault (Option Layout) :=
  match req.key with
  | none => .ok (some l)
  | some key =>
      match keyHead mp req.type key.length with
      | none => .ok none
      | some parts => some <$> l.attach parts key

def layTuple (mp : Msgpuck) (req : Request) (l : Layout) : Except Fault Layout :=
  match req.tuple with
  | none => .ok l
  | some tuple => l.attach [encodeKey mp .tuple] tuple

/-- The number that `index_base`, an `int`, is encoded as. -/
def layIndexBase (mp : Msgpuck) (req : Request) (l : Layout) : Except Fault Layout :=
  l.numberWhen mp (req.indexBase ≠ 0 ∧ (req.type = .update ∨ req.type = .upsert)) .indexBase
    req.indexBase.toInt64.toUInt64

/-- The end of `beer_request_writeout` in front of `writev`: the count of the body is stored at
`map`, and the length prefix in front of the header map. -/
def layFrame (mp : Msgpuck) (map : Nat) (l : Layout) : Except Fault (Bytes × List Part) := do
  if mp.mpSizeofMap (UInt32.ofNat l.nd) ≠ 1 then throw .assertion
  let l ← l.flush
  let counted ← emit ⟨l.pos.mem, map⟩ [mp.mpEncodeMap (UInt32.ofNat l.nd)]
  let plen := UInt64.ofNat (l.v.map Part.length).sum
  let nd := mpSizeofLuint32 plen
  let framed ← mpEncodeLuint32 mp ⟨counted.mem, 9 - nd⟩ plen
  return (framed.mem, .scratch (9 - nd) nd :: l.v)

/-- The scratch array and the parts that are written, if the request has a key only where its
type allows one. -/
def iovecs (mp : Msgpuck) (garbage : Nat → UInt8) (req : Request) :
    Except Fault (Option (Bytes × List Part)) := do
  let (l, map) ← req.layHeader mp garbage
  let l ← req.layNumbers mp l
  match ← req.layKey mp l with
  | none => return none
  | some l =>
      let l ← req.layTuple mp l
      let l ← req.layIndexBase mp l
      some <$> layFrame mp map l

end Request

/-- `INT64_MAX`. -/
def int64Max : UInt64 := 0x7fffffffffffffff

/-- The number that a request is given: the stream's, or zero where that
has come to the largest one and the caller asks for numbers below it. -/
def requestNumber {σ : Type} (s : Stream σ) (sync : Option UInt64) : UInt64 :=
  if sync = some int64Max ∧ s.reqid &&& int64Max = int64Max then 0 else s.reqid

/-- `beer_request_writeout`. The pointer `sync` is null or points to a number. -/
def beerRequestWriteout {σ : Type} (mp : Msgpuck) (garbage : Nat → UInt8) (s : Stream σ)
    (req : Request) (sync : Option UInt64) :
    Except Fault (Int × Stream σ × Request × Option UInt64) := do
  let reqid := requestNumber s sync
  let req := { req with sync := reqid }
  let s := { s with reqid := reqid + 1 }
  match ← req.iovecs mp garbage with
  | none => return (-1, s, req, sync)
  | some (header, v) =>
      let (rv, s) := s.send (v.map (Part.bytes header))
      if rv = -1 then return (-1, s, req, sync)
      return (0, s, req, sync.map fun _ => req.sync)

def beerRequestCompile {σ : Type} (mp : Msgpuck) (garbage : Nat → UInt8) (s : Stream σ)
    (req : Request) : Except Fault (Int64 × Stream σ × Request) := do
  let (rv, s, req, sync) ← beerRequestWriteout mp garbage s req (some int64Max)
  if rv = -1 then return (-1, s, req)
  return ((sync.getD int64Max).toInt64, s, req)

end BeeC
