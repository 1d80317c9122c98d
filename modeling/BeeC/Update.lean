import BeeC.Object
import BeeC.ProtoInternal
import BeeC.Tp

/-!
Containers of update operations (`beer_update.c`). The operations write around the container's
count, which is recovered from the number of writes when the container is closed.
-/

namespace BeeC

open BeeC.Wire
open BeeC.Wire.MessagePack

/-- `enum beer_update_op`. -/
inductive UpdateOp where
  | addition | substract | and | xor | or | delete | insert | assign | splice
  deriving DecidableEq, Repr

/-- The character of an operation. -/
def UpdateOp.id : UpdateOp → UInt8
  | addition => 0x2b
  | substract => 0x2d
  | and => 0x26
  | xor => 0x5e
  | or => 0x7c
  | delete => 0x23
  | insert => 0x21
  | assign => 0x3d
  | splice => 0x3a

/-- `beer_object_reset`. -/
def Object.reset (o : Object) : Object :=
  { o with reqid := 0, wrcnt := 0, size := 0, rdoff := 0, stack := [], type := .simple }

def beerUpdateOpLen (op : UInt8) : Int :=
  if op ∈ [UpdateOp.addition.id, UpdateOp.substract.id, UpdateOp.and.id, UpdateOp.xor.id,
      UpdateOp.or.id, UpdateOp.delete.id, UpdateOp.insert.id, UpdateOp.assign.id] then 3
  else if op = UpdateOp.splice.id then 5
  else -1

section Functions

variable (mp : Msgpuck) (sz : MsgpuckSizes) (garbage : Nat → UInt8)

/-- `beer_update_container`. It returns `NULL` if the array is refused. -/
def beerUpdateContainer : Except Fault (Option Object) := do
  let (_, ops) := beerObject.setType .sparse
  let (rv, ops) ← ops.addArray mp 0
  return if rv = -1 then none else some ops

/-- `beer_update_container_close`. The first entry of the stack gets the count of writes, without
the one that opened the array. -/
def beerUpdateContainerClose (ops : Object) : Except Fault (Int × Object) := do
  let first := ops.stack.length - 1
  let stack := ops.stack.modify first fun entry => { entry with size := ops.wrcnt - 1 }
  let (_, ops) ← { ops with stack }.containerClose mp
  return (0, ops)

/-- `beer_update_container_reset`. It returns `-1` if the array is refused. -/
def beerUpdateContainerReset (ops : Object) : Except Fault (Int × Object) := do
  let (_, ops) := ops.reset.setType .sparse
  let (rv, ops) ← ops.addArray mp 0
  return (if rv = -1 then -1 else 0, ops)

def beerUpdateOp (ops : Object) (op : UInt8) (fieldno : UInt32) (opdata : Bytes) :
    Except Fault (Ssize × Object) := do
  let data ← emit (uninitialised garbage 64)
    ([mp.mpEncodeArray (UInt32.ofInt (beerUpdateOpLen op))] ++ mpEncodeStr mp [op] ++
      [mp.mpEncodeUint fieldno.toUInt64])
  ops.writev [data.slice 0 data.pos, opdata]

/-- The bodies of the operations that encode one number into `body[10]`. -/
def updateNumber (ops : Object) (op : UInt8) (fieldno : UInt32) (number : Bytes) :
    Except Fault (Ssize × Object) := do
  let data ← emit (uninitialised garbage 10) [number]
  beerUpdateOp mp garbage ops op fieldno (data.slice 0 data.pos)

def beerUpdateBit (ops : Object) (fieldno : UInt32) (op : UInt8) (value : UInt64) :
    Except Fault (Ssize × Object) :=
  if op ≠ UpdateOp.and.id ∧ op ≠ UpdateOp.xor.id ∧ op ≠ UpdateOp.or.id then .ok (-1, ops)
  else updateNumber mp garbage ops op fieldno (mp.mpEncodeUint value)

def beerUpdateArithInt (ops : Object) (fieldno : UInt32) (op : UInt8) (value : Int64) :
    Except Fault (Ssize × Object) :=
  if op ≠ UpdateOp.addition.id ∧ op ≠ UpdateOp.substract.id then .ok (-1, ops)
  else updateNumber mp garbage ops op fieldno
    (if value ≥ 0 then mp.mpEncodeUint value.toUInt64 else mp.mpEncodeInt value)

def beerUpdateArithFloat (ops : Object) (fieldno : UInt32) (op : UInt8) (bits : UInt32) :
    Except Fault (Ssize × Object) :=
  if op ≠ UpdateOp.addition.id ∧ op ≠ UpdateOp.substract.id then .ok (-1, ops)
  else updateNumber mp garbage ops op fieldno (mp.mpEncodeFloat bits)

def beerUpdateArithDouble (ops : Object) (fieldno : UInt32) (op : UInt8) (bits : UInt64) :
    Except Fault (Ssize × Object) :=
  if op ≠ UpdateOp.addition.id ∧ op ≠ UpdateOp.substract.id then .ok (-1, ops)
  else updateNumber mp garbage ops op fieldno (mp.mpEncodeDouble bits)

def beerUpdateDelete (ops : Object) (fieldno fieldcount : UInt32) :
    Except Fault (Ssize × Object) :=
  updateNumber mp garbage ops UpdateOp.delete.id fieldno (mp.mpEncodeUint fieldcount.toUInt64)

def beerUpdateInsert (ops : Object) (fieldno : UInt32) (val : Object) :
    Except Fault (Ssize × Object) := do
  if (← beerObjectVerify mp val none) ≠ 0 then return (-1, ops)
  beerUpdateOp mp garbage ops UpdateOp.insert.id fieldno val.contents

def beerUpdateAssign (ops : Object) (fieldno : UInt32) (val : Object) :
    Except Fault (Ssize × Object) := do
  if (← beerObjectVerify mp val none) ≠ 0 then return (-1, ops)
  beerUpdateOp mp garbage ops UpdateOp.assign.id fieldno val.contents

/-- `beer_update_splice`. The sizes are added up in 32 bits, as msgpuck returns them, and
`beer_mem_alloc` has no block of no bytes. -/
def beerUpdateSplice (ops : Object) (fieldno position offset : UInt32) (buffer : Chunk) :
    Except Fault (Ssize × Object) := do
  let bufSize := sz.mpSizeofUint position.toUInt64 + sz.mpSizeofUint offset.toUInt64 +
    sz.mpSizeofStr (UInt32.ofNat buffer.bytes.length)
  if bufSize = 0 then return (-1, ops)
  let data ← emit ⟨List.replicate bufSize.toNat 0, 0⟩
    ([mp.mpEncodeUint position.toUInt64, mp.mpEncodeUint offset.toUInt64] ++
      mpEncodeStr mp buffer.bytes)
  beerUpdateOp mp garbage ops UpdateOp.splice.id fieldno (data.slice 0 bufSize.toNat)

end Functions

/-- An object that keeps within its block. -/
structure StoredObject where
  object : Object
  size_le : object.size ≤ object.alloc

/-- A call that adds an operation. -/
inductive UpdateCall where
  | bit (fieldno : UInt32) (op : UInt8) (value : UInt64)
  | arithInt (fieldno : UInt32) (op : UInt8) (value : Int64)
  | arithFloat (fieldno : UInt32) (op : UInt8) (bits : UInt32)
  | arithDouble (fieldno : UInt32) (op : UInt8) (bits : UInt64)
  | delete (fieldno fieldcount : UInt32)
  | insert (fieldno : UInt32) (val : StoredObject)
  | assign (fieldno : UInt32) (val : StoredObject)
  | splice (fieldno position offset : UInt32) (buffer : Chunk)

namespace UpdateCall

def run (mp : Msgpuck) (sz : MsgpuckSizes) (garbage : Nat → UInt8) (ops : Object) :
    UpdateCall → Except Fault (Ssize × Object)
  | bit fieldno op value => beerUpdateBit mp garbage ops fieldno op value
  | arithInt fieldno op value => beerUpdateArithInt mp garbage ops fieldno op value
  | arithFloat fieldno op bits => beerUpdateArithFloat mp garbage ops fieldno op bits
  | arithDouble fieldno op bits => beerUpdateArithDouble mp garbage ops fieldno op bits
  | delete fieldno fieldcount => beerUpdateDelete mp garbage ops fieldno fieldcount
  | insert fieldno val => beerUpdateInsert mp garbage ops fieldno val.object
  | assign fieldno val => beerUpdateAssign mp garbage ops fieldno val.object
  | splice fieldno position offset buffer =>
      beerUpdateSplice mp sz garbage ops fieldno position offset buffer

/-- Make the calls one after the other. The result names those that succeed. -/
def updates (mp : Msgpuck) (sz : MsgpuckSizes) (garbage : Nat → UInt8) :
    List UpdateCall → Object → Except Fault (List UpdateCall × Object)
  | [], ops => .ok ([], ops)
  | c :: calls, ops => do
      let (rv, ops) ← c.run mp sz garbage ops
      let (done, ops) ← updates mp sz garbage calls ops
      return (if rv = -1 then done else c :: done, ops)

end UpdateCall

/-- A use of the container before the last one: some calls, and maybe a close, before the reset. -/
structure UpdateRound where
  calls : List UpdateCall
  closed : Bool

/-- The close of a round, if it has one. -/
def UpdateRound.close (mp : Msgpuck) (ops : Object) (round : UpdateRound) : Except Fault Object :=
  if round.closed then (beerUpdateContainerClose mp ops).map Prod.snd else .ok ops

def UpdateRound.run (mp : Msgpuck) (sz : MsgpuckSizes) (garbage : Nat → UInt8) (ops : Object)
    (round : UpdateRound) : Except Fault Object := do
  let (_, ops) ← UpdateCall.updates mp sz garbage round.calls ops
  let ops ← round.close mp ops
  let (_, ops) ← beerUpdateContainerReset mp ops
  return ops

/-- A new container, some rounds, and then calls and a close. The result names the calls that
succeed since the last reset. -/
def updateSession (mp : Msgpuck) (sz : MsgpuckSizes) (garbage : Nat → UInt8)
    (rounds : List UpdateRound) (calls : List UpdateCall) :
    Except Fault (List UpdateCall × Object) := do
  let found ← beerUpdateContainer mp
  match found with
  | none => throw .nullPointer
  | some ops =>
      let ops ← rounds.foldlM (UpdateRound.run mp sz garbage) ops
      let (done, ops) ← UpdateCall.updates mp sz garbage calls ops
      let (_, ops) ← beerUpdateContainerClose mp ops
      return (done, ops)

end BeeC
