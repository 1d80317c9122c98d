import BeeC.Wire.Memory
import BeeC.Wire.Value
import BeeC.Msgpuck

/-!
MessagePack objects that are built in memory (`beer_object.c` over `beer_buf.c`). Allocations
succeed; memory the allocator hands out anew is cleared, as its default implementation does.
-/

namespace BeeC

open BeeC.Wire
open BeeC.Wire.Memory
open BeeC.Wire.MessagePack

/-- `struct beer_sbo_stack`, an open container. -/
structure SboStack where
  offset : Nat
  size : UInt32
  type : Kind
  deriving DecidableEq, Repr

/-- An entry of cleared memory. The kind numbered zero is nil. -/
def SboStack.cleared : SboStack := ⟨0, 0, .nil⟩

/-- `enum beer_sbo_type`. -/
inductive SboType where
  | simple | sparse | packed
  deriving DecidableEq, Repr

/-- A stream over `struct beer_stream_buf` and `struct beer_sbuf_object`. The block `data` has
`alloc` bytes, of which `size` are used; the stack has its top first. -/
structure Object where
  wrcnt : UInt32 := 0
  reqid : UInt64 := 0
  data : Option Bytes := none
  size : Nat := 0
  rdoff : Nat := 0
  as : Bool := false
  stack : List SboStack := []
  stackAlloc : Nat := 8
  type : SboType := .simple
  deriving DecidableEq, Repr

/-- The result `-1`, or a size. -/
abbrev Ssize := Int

/-- `beer_object(NULL)`. -/
def beerObject : Object := {}

def mpEncodeArray32 (mp : Msgpuck) (size : UInt32) : Bytes :=
  mp.mpStoreU8 0xdd ++ mp.mpStoreU32 size

def mpEncodeMap32 (mp : Msgpuck) (size : UInt32) : Bytes :=
  mp.mpStoreU8 0xdf ++ mp.mpStoreU32 size

namespace Object

def alloc (o : Object) : Nat := (o.data.getD []).length

/-- The bytes in use. -/
def contents (o : Object) : Bytes := (o.data.getD []).take o.size

/-- `beer_object_type`. -/
def setType (o : Object) (type : SboType) : Int × Object :=
  if 0 < o.wrcnt then (-1, o) else (0, { o with type })

/-- `beer_sbuf_object_grow_stack`: the new stack replaces the old one, whose entries are not
copied. -/
def growStack (o : Object) : Option Object :=
  if o.stackAlloc = 128 then none
  else some { o with
    stackAlloc := 2 * o.stackAlloc
    stack := o.stack.map fun _ => SboStack.cleared }

/-- `beer_sbuf_object_resize`. -/
def resize (o : Object) (size : Nat) : Except Fault Object :=
  if o.alloc < o.size + size then
    if o.as then .error .foreignMemory
    else
      let newsize := max (2 * o.alloc) (o.size + size)
      .ok { o with data := some (o.data.getD [] ++ List.replicate (newsize - o.alloc) 0) }
  else .ok o

/-- Store bytes at an offset of the block. -/
def store (o : Object) (offset : Nat) (bytes : Bytes) : Except Fault Object :=
  match o.data with
  | none => .error .nullPointer
  | some mem =>
      match poke mem offset bytes with
      | none => .error .outOfBounds
      | some mem => .ok { o with data := some mem }

/-- `memmove` within the block. -/
def memmove (o : Object) (target source count : Nat) : Except Fault Object :=
  match o.data with
  | none => .error .nullPointer
  | some mem =>
      match move mem target source count with
      | none => .error .outOfBounds
      | some mem => .ok { o with data := some mem }

/-- `beer_buf_write`. The pointer that `resize` returns is null only when there is no block. -/
def write (o : Object) (buf : Bytes) : Except Fault (Ssize × Object) := do
  if o.as then return (-1, o)
  let o ← o.resize buf.length
  if o.data.isNone then return (-1, o)
  let o ← o.store o.size buf
  return ((buf.length : Nat), { o with size := o.size + buf.length, wrcnt := o.wrcnt + 1 })

/-- `beer_buf_writev`: room for all parts at once, and one part stored behind the other. -/
def writev (o : Object) (iov : List Bytes) : Except Fault (Ssize × Object) := o.write iov.flatten

/-- `sbo->stack[sbo->stack_size - 1].size += 1`, if a container is open. -/
def countChild (o : Object) : Object :=
  match o.stack with
  | [] => o
  | top :: rest => { o with stack := { top with size := top.size + 1 } :: rest }

/-- `beer_object_add_nil` and its kin: count the value and write its bytes. -/
def addBytes (o : Object) (bytes : Bytes) : Except Fault (Ssize × Object) :=
  o.countChild.write bytes

def addNil (mp : Msgpuck) (o : Object) : Except Fault (Ssize × Object) :=
  o.addBytes mp.mpEncodeNil

def addUint (mp : Msgpuck) (o : Object) (value : UInt64) : Except Fault (Ssize × Object) :=
  o.addBytes (mp.mpEncodeUint value)

def addInt (mp : Msgpuck) (o : Object) (value : Int64) : Except Fault (Ssize × Object) :=
  o.addBytes (if value < 0 then mp.mpEncodeInt value else mp.mpEncodeUint value.toUInt64)

def addStr (mp : Msgpuck) (o : Object) (str : Chunk) : Except Fault (Ssize × Object) :=
  o.countChild.writev [mp.mpEncodeStrl (UInt32.ofNat str.bytes.length), str.bytes]

def addBin (mp : Msgpuck) (o : Object) (bin : Chunk) : Except Fault (Ssize × Object) :=
  o.countChild.writev [mp.mpEncodeBinl (UInt32.ofNat bin.bytes.length), bin.bytes]

def addBool (mp : Msgpuck) (o : Object) (value : Bool) : Except Fault (Ssize × Object) :=
  o.addBytes (mp.mpEncodeBool value)

def addFloat (mp : Msgpuck) (o : Object) (bits : UInt32) : Except Fault (Ssize × Object) :=
  o.addBytes (mp.mpEncodeFloat bits)

def addDouble (mp : Msgpuck) (o : Object) (bits : UInt64) : Except Fault (Ssize × Object) :=
  o.addBytes (mp.mpEncodeDouble bits)

/-- `beer_object_add_array` and `beer_object_add_map`, with the header each writes in a given
mode. The container is counted before the stack grows, and pushed before its header is written. -/
def addContainer (o : Object) (type : Kind) (header : SboType → Bytes) :
    Except Fault (Ssize × Object) :=
  let o := o.countChild
  let room := if o.stack.length = o.stackAlloc then o.growStack else some o
  match room with
  | none => .ok (-1, o)
  | some o =>
      { o with stack := ⟨o.size, 0, type⟩ :: o.stack }.write (header o.type)

/-- The header that opens an array: its size is passed on in the simple mode only. -/
def openingArray (mp : Msgpuck) (size : UInt32) : SboType → Bytes
  | .simple => mp.mpEncodeArray size
  | .sparse => mpEncodeArray32 mp 0
  | .packed => mp.mpEncodeArray 0

def openingMap (mp : Msgpuck) (size : UInt32) : SboType → Bytes
  | .simple => mp.mpEncodeMap size
  | .sparse => mpEncodeMap32 mp 0
  | .packed => mp.mpEncodeMap 0

def addArray (mp : Msgpuck) (o : Object) (size : UInt32) : Except Fault (Ssize × Object) :=
  o.addContainer .array (openingArray mp size)

def addMap (mp : Msgpuck) (o : Object) (size : UInt32) : Except Fault (Ssize × Object) :=
  o.addContainer .map (openingMap mp size)

/-- `beer_object_container_close`. -/
def containerClose (mp : Msgpuck) (o : Object) : Except Fault (Ssize × Object) := do
  match o.stack with
  | [] => return (-1, o)
  | ⟨offset, size, type⟩ :: rest =>
      if type = .map ∧ size % 2 ≠ 0 then return (-1, o)
      let o := { o with stack := rest }
      match o.type with
      | .simple => return (0, o)
      | .sparse =>
          let header :=
            if type = .map then mpEncodeMap32 mp (size / 2) else mpEncodeArray32 mp size
          let o ← o.store offset header
          return (0, o)
      | .packed =>
          let sz := if type = .map then mp.mpSizeofMap (size / 2) else mp.mpSizeofArray size
          let o ←
            if 1 < sz then
              let o ← o.resize (sz - 1)
              if o.size < offset + 1 then throw Fault.outOfBounds
              o.memmove (offset + sz) (offset + 1) (o.size - offset - 1)
            else pure o
          let header :=
            if type = .map then mp.mpEncodeMap (size / 2) else mp.mpEncodeArray size
          let o ← o.store offset header
          return (0, { o with size := o.size + (sz - 1) })

end Object

/-- `beer_object_reset`. The block is kept, with the bytes in it. -/
def beerObjectReset (o : Object) : Int × Object :=
  (0, { o with wrcnt := 0, reqid := 0, size := 0, rdoff := 0, stack := [], type := .simple })

/-- `beer_object_verify`. The type is missing where the source passes a negative one. -/
def beerObjectVerify (mp : Msgpuck) (obj : Object) (type : Option Kind) : Except Fault Int := do
  if let some kind := type then
    match obj.data with
    | none => throw .nullPointer
    | some [] => throw .outOfBounds
    | some (first :: _) => if mp.mpTypeof first ≠ kind then return -1
  if obj.alloc < obj.size then throw .outOfBounds
  match mp.mpCheck obj.contents with
  | none => return -1
  | some used => if used < obj.contents.length then return -1 else return 0

/-- A call of the building interface. -/
inductive ObjectCall where
  | addNil
  | addUint (value : UInt64)
  | addInt (value : Int64)
  | addStr (str : Chunk)
  | addBin (bin : Chunk)
  | addBool (value : Bool)
  | addFloat (bits : UInt32)
  | addDouble (bits : UInt64)
  | addArray (size : UInt32)
  | addMap (size : UInt32)
  | containerClose

def ObjectCall.run (mp : Msgpuck) (o : Object) : ObjectCall → Except Fault (Ssize × Object)
  | addNil => o.addNil mp
  | addUint value => o.addUint mp value
  | addInt value => o.addInt mp value
  | addStr str => o.addStr mp str
  | addBin bin => o.addBin mp bin
  | addBool value => o.addBool mp value
  | addFloat bits => o.addFloat mp bits
  | addDouble bits => o.addDouble mp bits
  | addArray size => o.addArray mp size
  | addMap size => o.addMap mp size
  | containerClose => o.containerClose mp

/-- Make the calls one after the other. There is a result when all of them succeed. -/
def Object.perform (mp : Msgpuck) : List ObjectCall → Object → Option Object
  | [], o => some o
  | call :: calls, o =>
      match call.run mp o with
      | .ok (rv, o) => if rv = -1 then none else perform mp calls o
      | .error _ => none

end BeeC
