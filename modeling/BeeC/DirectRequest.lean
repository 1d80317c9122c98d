import BeeC.ProtoInternal

namespace BeeC

open BeeC.Wire.Memory
open BeeC.Wire.MessagePack

section Builders

variable {σ : Type} (mp : Msgpuck) (garbage : Nat → UInt8) (s : Stream σ)

def beerPing : Except Fault (Ssize × Stream σ) := do
  let hdr ← encodeHeader mp RequestType.ping.id s.reqid
  let s := { s with reqid := s.reqid + 1 }
  let data ← emit (uninitialised garbage 2) [mp.mpEncodeMap 0]
  sendPackage mp garbage s [hdr.slice 0 hdr.pos, data.slice 0 data.pos]

def beerSelect (space index limit offset : UInt32) (iterator : UInt8) (key : Object) :
    Except Fault (Ssize × Stream σ) := do
  if (← beerObjectVerify mp key (some .array)) ≠ 0 then return (-1, s)
  let hdr ← encodeHeader mp RequestType.select.id s.reqid
  let s := { s with reqid := s.reqid + 1 }
  let data ← emit (uninitialised garbage 64) [
    mp.mpEncodeMap 6,
    encodeKey mp .space, mp.mpEncodeUint space.toUInt64,
    encodeKey mp .index, mp.mpEncodeUint index.toUInt64,
    encodeKey mp .limit, mp.mpEncodeUint limit.toUInt64,
    encodeKey mp .offset, mp.mpEncodeUint offset.toUInt64,
    encodeKey mp .iterator, mp.mpEncodeUint iterator.toUInt64,
    encodeKey mp .key]
  sendPackage mp garbage s [hdr.slice 0 hdr.pos, data.slice 0 data.pos, key.contents]

def beerStoreBase (space : UInt32) (tuple : Object) (op : RequestType) :
    Except Fault (Ssize × Stream σ) := do
  if (← beerObjectVerify mp tuple (some .array)) ≠ 0 then return (-1, s)
  let hdr ← encodeHeader mp op.id s.reqid
  let s := { s with reqid := s.reqid + 1 }
  let data ← emit (uninitialised garbage 64) [
    mp.mpEncodeMap 2,
    encodeKey mp .space, mp.mpEncodeUint space.toUInt64,
    encodeKey mp .tuple]
  sendPackage mp garbage s [hdr.slice 0 hdr.pos, data.slice 0 data.pos, tuple.contents]

def beerInsert (space : UInt32) (tuple : Object) : Except Fault (Ssize × Stream σ) :=
  beerStoreBase mp garbage s space tuple .insert

def beerReplace (space : UInt32) (tuple : Object) : Except Fault (Ssize × Stream σ) :=
  beerStoreBase mp garbage s space tuple .replace

def beerDelete (space index : UInt32) (key : Object) : Except Fault (Ssize × Stream σ) := do
  if (← beerObjectVerify mp key (some .array)) ≠ 0 then return (-1, s)
  let hdr ← encodeHeader mp RequestType.delete.id s.reqid
  let s := { s with reqid := s.reqid + 1 }
  let data ← emit (uninitialised garbage 64) [
    mp.mpEncodeMap 3,
    encodeKey mp .space, mp.mpEncodeUint space.toUInt64,
    encodeKey mp .index, mp.mpEncodeUint index.toUInt64,
    encodeKey mp .key]
  sendPackage mp garbage s [hdr.slice 0 hdr.pos, data.slice 0 data.pos, key.contents]

def beerUpdate (space index : UInt32) (key ops : Object) : Except Fault (Ssize × Stream σ) := do
  if (← beerObjectVerify mp key (some .array)) ≠ 0 then return (-1, s)
  if (← beerObjectVerify mp ops (some .array)) ≠ 0 then return (-1, s)
  let hdr ← encodeHeader mp RequestType.update.id s.reqid
  let s := { s with reqid := s.reqid + 1 }
  let data ← emit (uninitialised garbage 64) [
    mp.mpEncodeMap 4,
    encodeKey mp .space, mp.mpEncodeUint space.toUInt64,
    encodeKey mp .index, mp.mpEncodeUint index.toUInt64,
    encodeKey mp .key]
  let bodyStart := data.pos
  let data ← emit data [encodeKey mp .tuple]
  sendPackage mp garbage s [hdr.slice 0 hdr.pos, data.slice 0 bodyStart, key.contents,
    data.slice bodyStart data.pos, ops.contents]

def beerUpsert (space : UInt32) (tuple ops : Object) : Except Fault (Ssize × Stream σ) := do
  if (← beerObjectVerify mp tuple (some .array)) ≠ 0 then return (-1, s)
  if (← beerObjectVerify mp ops (some .array)) ≠ 0 then return (-1, s)
  let hdr ← encodeHeader mp RequestType.upsert.id s.reqid
  let s := { s with reqid := s.reqid + 1 }
  let data ← emit (uninitialised garbage 64) [
    mp.mpEncodeMap 4,
    encodeKey mp .space, mp.mpEncodeUint space.toUInt64,
    encodeKey mp .tuple]
  let bodyStart := data.pos
  let data ← emit data [encodeKey mp .ops]
  sendPackage mp garbage s [hdr.slice 0 hdr.pos, data.slice 0 bodyStart, tuple.contents,
    data.slice bodyStart data.pos, ops.contents]

def beerRpcBase (proc : Option Bytes) (args : Object) (op : RequestType) :
    Except Fault (Ssize × Stream σ) := do
  let some proc := proc | return (-1, s)
  if proc.length = 0 then return (-1, s)
  if (← beerObjectVerify mp args (some .array)) ≠ 0 then return (-1, s)
  let fld : BodyKey := if isCall op then .function else .expression
  let hdr ← encodeHeader mp op.id s.reqid
  let s := { s with reqid := s.reqid + 1 }
  let data ← emit (uninitialised garbage 64) [
    mp.mpEncodeMap 2,
    encodeKey mp fld, mp.mpEncodeStrl (UInt32.ofNat proc.length)]
  let bodyStart := data.pos
  let data ← emit data [encodeKey mp .tuple]
  sendPackage mp garbage s [hdr.slice 0 hdr.pos, data.slice 0 bodyStart, proc,
    data.slice bodyStart data.pos, args.contents]

def beerCall (proc : Option Bytes) (args : Object) : Except Fault (Ssize × Stream σ) :=
  beerRpcBase mp garbage s proc args .call

def beerCall16 (proc : Option Bytes) (args : Object) : Except Fault (Ssize × Stream σ) :=
  beerRpcBase mp garbage s proc args .call16

def beerEval (proc : Option Bytes) (args : Object) : Except Fault (Ssize × Stream σ) :=
  beerRpcBase mp garbage s proc args .eval

end Builders

/-- An object that holds exactly one array. No block of memory has `2 ^ 62` bytes. -/
structure ArrayObject where
  object : Object
  alloc_lt : object.alloc < 2 ^ 62
  size_le : object.size ≤ object.alloc
  isValue : IsValue object.contents
  isArray : kindOf object.contents = some .array

def ArrayObject.bytes (a : ArrayObject) : Bytes := a.object.contents

/-- The empty array. -/
def ArrayObject.empty : ArrayObject where
  object := { data := some [0x90], size := 1 }
  alloc_lt := by decide
  size_le := by decide
  isValue := by decide
  isArray := by decide

/-- The name of a procedure, or an expression. -/
structure Name where
  bytes : Bytes
  length_pos : 0 < bytes.length
  length_lt : bytes.length < 2 ^ 32

/-- A call of one of the builders, with the arguments it is made for. -/
inductive DirectCall where
  | ping
  | select (space index limit offset : UInt32) (iterator : UInt8) (key : ArrayObject)
  | insert (space : UInt32) (tuple : ArrayObject)
  | replace (space : UInt32) (tuple : ArrayObject)
  | delete (space index : UInt32) (key : ArrayObject)
  | update (space index : UInt32) (key ops : ArrayObject)
  | call (proc : Name) (args : ArrayObject)
  | call16 (proc : Name) (args : ArrayObject)
  | eval (expr : Name) (args : ArrayObject)

namespace DirectCall

def run {σ : Type} (mp : Msgpuck) (garbage : Nat → UInt8) (s : Stream σ) :
    DirectCall → Except Fault (Ssize × Stream σ)
  | ping => beerPing mp garbage s
  | select space index limit offset iterator key =>
      beerSelect mp garbage s space index limit offset iterator key.object
  | insert space tuple => beerInsert mp garbage s space tuple.object
  | replace space tuple => beerReplace mp garbage s space tuple.object
  | delete space index key => beerDelete mp garbage s space index key.object
  | update space index key ops => beerUpdate mp garbage s space index key.object ops.object
  | call proc args => beerCall mp garbage s (some proc.bytes) args.object
  | call16 proc args => beerCall16 mp garbage s (some proc.bytes) args.object
  | eval expr args => beerEval mp garbage s (some expr.bytes) args.object

/-- The operation that a call asks for. -/
def op : DirectCall → RequestType
  | ping => .ping
  | select .. => .select
  | insert .. => .insert
  | replace .. => .replace
  | delete .. => .delete
  | update .. => .update
  | call .. => .call
  | call16 .. => .call16
  | eval .. => .eval

/-- The fields that a call is given. -/
def arguments : DirectCall → List (BodyKey × Field)
  | ping => []
  | select space index limit offset iterator key =>
      [(.space, .number space.toNat), (.index, .number index.toNat),
        (.limit, .number limit.toNat), (.offset, .number offset.toNat),
        (.iterator, .number iterator.toNat), (.key, .value key.bytes)]
  | insert space tuple => [(.space, .number space.toNat), (.tuple, .value tuple.bytes)]
  | replace space tuple => [(.space, .number space.toNat), (.tuple, .value tuple.bytes)]
  | delete space index key =>
      [(.space, .number space.toNat), (.index, .number index.toNat), (.key, .value key.bytes)]
  | update space index key ops =>
      [(.space, .number space.toNat), (.index, .number index.toNat), (.key, .value key.bytes),
        (.tuple, .value ops.bytes)]
  | call proc args => [(.function, .text proc.bytes), (.tuple, .value args.bytes)]
  | call16 proc args => [(.function, .text proc.bytes), (.tuple, .value args.bytes)]
  | eval expr args => [(.expression, .text expr.bytes), (.tuple, .value args.bytes)]

end DirectCall

end BeeC
