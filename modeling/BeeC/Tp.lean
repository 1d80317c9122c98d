import BeeC.Msgpuck
import BeeC.Wire.Loop
import BeeC.Wire.Memory
import BeeC.Wire.Value

/-!
The request builder of `tp.h`. Its pointers are addresses; the buffer may move whenever it grows,
and then they are moved along.
-/

namespace BeeC

open BeeC.Wire
open BeeC.Wire.BigEndian
open BeeC.Wire.Encoding
open BeeC.Wire.Loop
open BeeC.Wire.MessagePack

/-- The remaining size functions of msgpuck, as the library that is not part of the repository. -/
structure MsgpuckSizes where
  mpSizeofNil : UInt32
  mpSizeofBool : Bool → UInt32
  mpSizeofUint : UInt64 → UInt32
  mpSizeofInt : Int64 → UInt32
  mpSizeofFloat : UInt32 → UInt32
  mpSizeofDouble : UInt64 → UInt32
  mpSizeofStr : UInt32 → UInt32
  mpSizeofBin : UInt32 → UInt32

/-- The sizes are those of the encodings, in 32 bits. -/
structure MsgpuckSizes.Lawful (sz : MsgpuckSizes) : Prop where
  nil_eq : sz.mpSizeofNil = UInt32.ofNat encodeNil.length
  bool_eq : ∀ b, sz.mpSizeofBool b = UInt32.ofNat (encodeBool b).length
  uint_eq : ∀ n, sz.mpSizeofUint n = UInt32.ofNat (encodeUint n.toNat).length
  int_eq : ∀ z : Int64, z.toInt < 0 → sz.mpSizeofInt z = UInt32.ofNat (encodeInt z.toInt).length
  float_eq : ∀ bits, sz.mpSizeofFloat bits = UInt32.ofNat (encodeFloat bits.toNat).length
  double_eq : ∀ bits, sz.mpSizeofDouble bits = UInt32.ofNat (encodeDouble bits.toNat).length
  str_eq : ∀ n, sz.mpSizeofStr n = UInt32.ofNat ((strHeader n.toNat).length + n.toNat)
  bin_eq : ∀ n, sz.mpSizeofBin n = UInt32.ofNat ((binHeader n.toNat).length + n.toNat)

/-- Sizes read off the encodings. -/
def MsgpuckSizes.reference : MsgpuckSizes where
  mpSizeofNil := UInt32.ofNat encodeNil.length
  mpSizeofBool b := UInt32.ofNat (encodeBool b).length
  mpSizeofUint n := UInt32.ofNat (encodeUint n.toNat).length
  mpSizeofInt z := UInt32.ofNat (encodeInt z.toInt).length
  mpSizeofFloat bits := UInt32.ofNat (encodeFloat bits.toNat).length
  mpSizeofDouble bits := UInt32.ofNat (encodeDouble bits.toNat).length
  mpSizeofStr n := UInt32.ofNat ((strHeader n.toNat).length + n.toNat)
  mpSizeofBin n := UInt32.ofNat ((binHeader n.toNat).length + n.toNat)

theorem MsgpuckSizes.reference_lawful : MsgpuckSizes.reference.Lawful where
  nil_eq := rfl
  bool_eq _ := rfl
  uint_eq _ := rfl
  int_eq _ _ := rfl
  float_eq _ := rfl
  double_eq _ := rfl
  str_eq _ := rfl
  bin_eq _ := rfl

/-- `struct tp`: the block at the address `s`, and addresses into it. What `obj` points to is a
state of the reserve function. -/
structure Tp (τ : Type) where
  s : Nat
  p : Nat
  e : Nat
  size : Option Nat
  sync : Option Nat
  obj : τ
  mem : Bytes

/-- The reserve function of a `tp`: the address and the bytes of the new block, or no block. -/
abbrev TpReserve (τ : Type) := Tp τ → Nat → Option (Nat × Bytes) × τ

/-- `enum tp_header_key_t`. -/
inductive TpHeaderKey where
  | code | sync

def TpHeaderKey.id : TpHeaderKey → UInt64
  | code => 0x00
  | sync => 0x01

/-- `enum tp_body_key_t`, the keys that the builder writes. -/
inductive TpBodyKey where
  | space | index | limit | offset | iterator | key | tuple | function | username | expression

def TpBodyKey.id : TpBodyKey → UInt64
  | space => 0x10
  | index => 0x11
  | limit => 0x12
  | offset => 0x13
  | iterator => 0x14
  | key => 0x20
  | tuple => 0x21
  | function => 0x22
  | username => 0x23
  | expression => 0x27

/-- `enum tp_request_type`, the requests that are built here. -/
inductive TpRequestType where
  | select | insert | replace | update | delete | call | auth | eval | ping

def TpRequestType.id : TpRequestType → UInt32
  | select => 1
  | insert => 2
  | replace => 3
  | update => 4
  | delete => 5
  | call => 6
  | auth => 7
  | eval => 8
  | ping => 64

/-- `enum tp_iterator_type`. -/
inductive TpIteratorType where
  | eq | req | all | lt | le | ge | gt | bitsAllSet | bitsAnySet | bitsAllNonSet | overlaps
  | neighbor
  deriving DecidableEq, Repr

def TpIteratorType.id : TpIteratorType → UInt64
  | eq => 0
  | req => 1
  | all => 2
  | lt => 3
  | le => 4
  | ge => 5
  | gt => 6
  | bitsAllSet => 7
  | bitsAnySet => 8
  | bitsAllNonSet => 9
  | overlaps => 10
  | neighbor => 11

/-- An `int` that holds a sum of sizes, passed as a `size_t`. -/
def sizeOfInt (sz : UInt32) : Nat :=
  if sz < 0x80000000 then sz.toNat else 2 ^ 64 - 2 ^ 32 + sz.toNat

def mpEncodeStr (mp : Msgpuck) (str : Bytes) : List Bytes :=
  [mp.mpEncodeStrl (UInt32.ofNat str.length), str]

def mpEncodeBin (mp : Msgpuck) (data : Bytes) : List Bytes :=
  [mp.mpEncodeBinl (UInt32.ofNat data.length), data]

def mpSizeofArray (mp : Msgpuck) (n : UInt32) : UInt32 := UInt32.ofNat (mp.mpSizeofArray n)

def mpSizeofMap (mp : Msgpuck) (n : UInt32) : UInt32 := UInt32.ofNat (mp.mpSizeofMap n)

namespace Tp

variable {τ : Type}

def tpInit (s : Nat) (buf : Bytes) (obj : τ) : Tp τ where
  s := s
  p := s
  e := s + buf.length
  size := none
  sync := none
  obj := obj
  mem := buf

/-- The bytes in use. -/
def used (t : Tp τ) : Bytes := t.mem.take (t.p - t.s)

/-- Store bytes at an address. -/
def store (t : Tp τ) (ptr : Nat) (bytes : Bytes) : Except Fault (Tp τ) :=
  if ptr < t.s then .error .outOfBounds
  else
    match Memory.poke t.mem (ptr - t.s) bytes with
    | none => .error .outOfBounds
    | some mem => .ok { t with mem }

/-- `*h = 0xce` and `*(uint32_t *)(h + 1) = mp_bswap_u32(n)`. -/
def storeUint32 (t : Tp τ) (h : Nat) (n : UInt32) : Except Fault (Tp τ) := do
  let t ← t.store h [0xce]
  t.store (h + 1) (BigEndian.store 4 n.toNat)

/-- One encoder after the other, from an address on. -/
def encode (t : Tp τ) (h : Nat) : List Bytes → Except Fault (Nat × Tp τ)
  | [] => .ok (h, t)
  | part :: parts => do
      let t ← t.store h part
      t.encode (h + part.length) parts

variable (reserve : Option (TpReserve τ))

def tpEnsure (t : Tp τ) (size : Nat) : Int × Tp τ :=
  if size ≤ t.e - t.p then (0, t)
  else
    match reserve with
    | none => (-1, t)
    | some reserve =>
        match reserve t size with
        | (none, obj) => (-1, { t with obj })
        | (some (np, mem), obj) =>
            ((mem.length : Nat), { t with
              size := t.size.map fun size => np + (size - t.s)
              sync := t.sync.map fun sync => np + (sync - t.s)
              p := np + (t.p - t.s)
              s := np
              e := np + mem.length
              mem
              obj })

/-- `if (tp_ensure(p, size) == -1) return NULL;` -/
def withRoom (t : Tp τ) (size : Nat) (next : Tp τ → Except Fault (Option Nat × Tp τ)) :
    Except Fault (Option Nat × Tp τ) :=
  let (rc, t) := t.tpEnsure reserve size
  if rc = -1 then .ok (none, t) else next t

/-- `tp_add`: the length field covers what is accepted. -/
def tpAdd (t : Tp τ) (size : Nat) : Except Fault (Option Nat × Tp τ) :=
  let ptr := t.p
  let t := { t with p := t.p + size }
  match t.size with
  | none => .error .assertion
  | some size => do
      let t ← t.storeUint32 size (UInt32.ofNat (t.p - size - 5))
      return (some ptr, t)

variable (mp : Msgpuck) (sz : MsgpuckSizes)

def tpiSizeofHeader (code : UInt32) : UInt32 :=
  5 + mpSizeofMap mp 2 + sz.mpSizeofUint TpHeaderKey.code.id + sz.mpSizeofUint code.toUInt64 +
    sz.mpSizeofUint TpHeaderKey.sync.id + 5

def tpiEncodeHeader (t : Tp τ) (code : UInt32) : Except Fault (Nat × Tp τ) := do
  let t := { t with size := some t.p }
  let (h, t) ← t.encode (t.p + 5) [mp.mpEncodeMap 2, mp.mpEncodeUint TpHeaderKey.code.id,
    mp.mpEncodeUint code.toUInt64, mp.mpEncodeUint TpHeaderKey.sync.id]
  let t := { t with sync := some h }
  let t ← t.storeUint32 h 0
  return (h + 5, t)

/-- A request: the size of its body, and the encoders that write it. -/
def tpRequest (t : Tp τ) (type : TpRequestType) (size : UInt32) (body : List Bytes) :
    Except Fault (Option Nat × Tp τ) :=
  let size := size + tpiSizeofHeader mp sz type.id
  t.withRoom reserve (sizeOfInt size) fun t => do
    let (h, t) ← t.tpiEncodeHeader mp type.id
    let (_, t) ← t.encode h body
    t.tpAdd (sizeOfInt size)

/-- An addition to the current request: its size, and the encoders that write it. -/
def tpAppend (t : Tp τ) (size : UInt32) (parts : List Bytes) :
    Except Fault (Option Nat × Tp τ) :=
  t.withRoom reserve (sizeOfInt size) fun t => do
    let (_, t) ← t.encode t.p parts
    t.tpAdd (sizeOfInt size)

def tpPing (t : Tp τ) : Except Fault (Option Nat × Tp τ) :=
  t.tpRequest reserve mp sz .ping (mpSizeofMap mp 0) [mp.mpEncodeMap 0]

def tpSelect (t : Tp τ) (space index offset : UInt32) (iterator : TpIteratorType)
    (limit : UInt32) : Except Fault (Option Nat × Tp τ) :=
  t.tpRequest reserve mp sz .select
    (mpSizeofMap mp 6 + sz.mpSizeofUint TpBodyKey.space.id + sz.mpSizeofUint space.toUInt64 +
      sz.mpSizeofUint TpBodyKey.index.id + sz.mpSizeofUint index.toUInt64 +
      sz.mpSizeofUint TpBodyKey.offset.id + sz.mpSizeofUint offset.toUInt64 +
      sz.mpSizeofUint TpBodyKey.limit.id + sz.mpSizeofUint limit.toUInt64 +
      sz.mpSizeofUint TpBodyKey.iterator.id + sz.mpSizeofUint iterator.id +
      sz.mpSizeofUint TpBodyKey.key.id)
    [mp.mpEncodeMap 6, mp.mpEncodeUint TpBodyKey.space.id, mp.mpEncodeUint space.toUInt64,
      mp.mpEncodeUint TpBodyKey.index.id, mp.mpEncodeUint index.toUInt64,
      mp.mpEncodeUint TpBodyKey.offset.id, mp.mpEncodeUint offset.toUInt64,
      mp.mpEncodeUint TpBodyKey.limit.id, mp.mpEncodeUint limit.toUInt64,
      mp.mpEncodeUint TpBodyKey.iterator.id, mp.mpEncodeUint iterator.id,
      mp.mpEncodeUint TpBodyKey.key.id]

def tpiEncodeStore (t : Tp τ) (type : TpRequestType) (space : UInt32) :
    Except Fault (Option Nat × Tp τ) :=
  t.tpRequest reserve mp sz type
    (mpSizeofMap mp 2 + sz.mpSizeofUint TpBodyKey.space.id + sz.mpSizeofUint space.toUInt64 +
      sz.mpSizeofUint TpBodyKey.tuple.id)
    [mp.mpEncodeMap 2, mp.mpEncodeUint TpBodyKey.space.id, mp.mpEncodeUint space.toUInt64,
      mp.mpEncodeUint TpBodyKey.tuple.id]

def tpInsert (t : Tp τ) (space : UInt32) : Except Fault (Option Nat × Tp τ) :=
  t.tpiEncodeStore reserve mp sz .insert space

def tpReplace (t : Tp τ) (space : UInt32) : Except Fault (Option Nat × Tp τ) :=
  t.tpiEncodeStore reserve mp sz .replace space

def tpCall (t : Tp τ) (function : Chunk) : Except Fault (Option Nat × Tp τ) :=
  t.tpRequest reserve mp sz .call
    (mpSizeofMap mp 2 + sz.mpSizeofUint TpBodyKey.function.id +
      sz.mpSizeofStr (UInt32.ofNat function.bytes.length) + sz.mpSizeofUint TpBodyKey.tuple.id)
    ([mp.mpEncodeMap 2, mp.mpEncodeUint TpBodyKey.function.id] ++ mpEncodeStr mp function.bytes ++
      [mp.mpEncodeUint TpBodyKey.tuple.id])

/-- `tp_eval`. Its size is that of a request with the other key. -/
def tpEval (t : Tp τ) (expr : Chunk) : Except Fault (Option Nat × Tp τ) :=
  t.tpRequest reserve mp sz .eval
    (mpSizeofMap mp 2 + sz.mpSizeofUint TpBodyKey.function.id +
      sz.mpSizeofStr (UInt32.ofNat expr.bytes.length) + sz.mpSizeofUint TpBodyKey.tuple.id)
    ([mp.mpEncodeMap 2, mp.mpEncodeUint TpBodyKey.expression.id] ++ mpEncodeStr mp expr.bytes ++
      [mp.mpEncodeUint TpBodyKey.tuple.id])

def tpUpdate (t : Tp τ) (space : UInt32) : Except Fault (Option Nat × Tp τ) :=
  t.tpRequest reserve mp sz .update
    (mpSizeofMap mp 3 + sz.mpSizeofUint TpBodyKey.space.id + sz.mpSizeofUint space.toUInt64 +
      sz.mpSizeofUint TpBodyKey.key.id)
    [mp.mpEncodeMap 3, mp.mpEncodeUint TpBodyKey.space.id, mp.mpEncodeUint space.toUInt64,
      mp.mpEncodeUint TpBodyKey.key.id]

def tpUpdatebegin (t : Tp τ) (opCount : UInt32) : Except Fault (Option Nat × Tp τ) :=
  t.tpAppend reserve (sz.mpSizeofUint TpBodyKey.tuple.id + mpSizeofArray mp opCount)
    [mp.mpEncodeUint TpBodyKey.tuple.id, mp.mpEncodeArray opCount]

def tpOp (t : Tp τ) (op : UInt8) (fieldNo : UInt32) : Except Fault (Option Nat × Tp τ) :=
  t.tpAppend reserve
    (mpSizeofArray mp 3 + sz.mpSizeofStr 1 + sz.mpSizeofUint fieldNo.toUInt64)
    ([mp.mpEncodeArray 3] ++ mpEncodeStr mp [op] ++ [mp.mpEncodeUint fieldNo.toUInt64])

def tpReqid (t : Tp τ) (reqid : UInt32) : Except Fault (Tp τ) :=
  match t.sync with
  | none => .error .assertion
  | some h => t.storeUint32 h reqid

def tpEncodeNil (t : Tp τ) : Except Fault (Option Nat × Tp τ) :=
  t.tpAppend reserve sz.mpSizeofNil [mp.mpEncodeNil]

def tpEncodeUint (t : Tp τ) (num : UInt64) : Except Fault (Option Nat × Tp τ) :=
  t.tpAppend reserve (sz.mpSizeofUint num) [mp.mpEncodeUint num]

def tpEncodeInt (t : Tp τ) (num : Int64) : Except Fault (Option Nat × Tp τ) :=
  t.tpAppend reserve (sz.mpSizeofInt num) [mp.mpEncodeInt num]

/-- `tp_encode_str`, and `tp_encode_sz` and `tp_sz` of the same text. -/
def tpEncodeStr (t : Tp τ) (str : Chunk) : Except Fault (Option Nat × Tp τ) :=
  t.tpAppend reserve (sz.mpSizeofStr (UInt32.ofNat str.bytes.length)) (mpEncodeStr mp str.bytes)

def tpEncodeBin (t : Tp τ) (str : Chunk) : Except Fault (Option Nat × Tp τ) :=
  t.tpAppend reserve (sz.mpSizeofBin (UInt32.ofNat str.bytes.length)) (mpEncodeBin mp str.bytes)

/-- `tp_encode_array`, and `tp_tuple` and `tp_key`, which are made of it. -/
def tpEncodeArray (t : Tp τ) (size : UInt32) : Except Fault (Option Nat × Tp τ) :=
  t.tpAppend reserve (mpSizeofArray mp size) [mp.mpEncodeArray size]

def tpEncodeMap (t : Tp τ) (size : UInt32) : Except Fault (Option Nat × Tp τ) :=
  t.tpAppend reserve (mpSizeofMap mp size) [mp.mpEncodeMap size]

def tpEncodeBool (t : Tp τ) (val : Bool) : Except Fault (Option Nat × Tp τ) :=
  t.tpAppend reserve (sz.mpSizeofBool val) [mp.mpEncodeBool val]

def tpEncodeFloat (t : Tp τ) (bits : UInt32) : Except Fault (Option Nat × Tp τ) :=
  t.tpAppend reserve (sz.mpSizeofFloat bits) [mp.mpEncodeFloat bits]

def tpEncodeDouble (t : Tp τ) (bits : UInt64) : Except Fault (Option Nat × Tp τ) :=
  t.tpAppend reserve (sz.mpSizeofDouble bits) [mp.mpEncodeDouble bits]

end Tp

/-- A call that starts a request. A function's name or an expression has the length of an `int`. -/
inductive TpStart where
  | ping
  | select (space index offset : UInt32) (iterator : TpIteratorType) (limit : UInt32)
  | insert (space : UInt32)
  | replace (space : UInt32)
  | update (space : UInt32)
  | call (function : Chunk) (length_lt : function.bytes.length < 2 ^ 31)
  | eval (expr : Chunk) (length_lt : expr.bytes.length < 2 ^ 31)

/-- A call on the current request. -/
inductive TpCall where
  | encodeNil
  | encodeUint (num : UInt64)
  | encodeInt (num : Int64) (neg : num < 0)
  | encodeStr (str : Chunk)
  | encodeBin (str : Chunk)
  | encodeArray (size : UInt32)
  | encodeMap (size : UInt32)
  | encodeBool (val : Bool)
  | encodeFloat (bits : UInt32)
  | encodeDouble (bits : UInt64)
  | updatebegin (opCount : UInt32)
  | op (op : UInt8) (fieldNo : UInt32)
  | reqid (reqid : UInt32)

section Runs

variable {τ : Type} (reserve : Option (TpReserve τ)) (mp : Msgpuck) (sz : MsgpuckSizes)

/-- A call gives no `tp` to go on with when it returns `NULL`. -/
def Tp.accepted (result : Option Nat × Tp τ) : Option (Tp τ) := result.1.map fun _ => result.2

def TpStart.run (t : Tp τ) (start : TpStart) : Except Fault (Option (Tp τ)) :=
  Tp.accepted <$>
    match start with
    | ping => t.tpPing reserve mp sz
    | select space index offset iterator limit =>
        t.tpSelect reserve mp sz space index offset iterator limit
    | insert space => t.tpInsert reserve mp sz space
    | replace space => t.tpReplace reserve mp sz space
    | update space => t.tpUpdate reserve mp sz space
    | call function _ => t.tpCall reserve mp sz function
    | eval expr _ => t.tpEval reserve mp sz expr

def TpCall.run (t : Tp τ) : TpCall → Except Fault (Option (Tp τ))
  | encodeNil => Tp.accepted <$> t.tpEncodeNil reserve mp sz
  | encodeUint num => Tp.accepted <$> t.tpEncodeUint reserve mp sz num
  | encodeInt num _ => Tp.accepted <$> t.tpEncodeInt reserve mp sz num
  | encodeStr str => Tp.accepted <$> t.tpEncodeStr reserve mp sz str
  | encodeBin str => Tp.accepted <$> t.tpEncodeBin reserve mp sz str
  | encodeArray size => Tp.accepted <$> t.tpEncodeArray reserve mp size
  | encodeMap size => Tp.accepted <$> t.tpEncodeMap reserve mp size
  | encodeBool val => Tp.accepted <$> t.tpEncodeBool reserve mp sz val
  | encodeFloat bits => Tp.accepted <$> t.tpEncodeFloat reserve mp sz bits
  | encodeDouble bits => Tp.accepted <$> t.tpEncodeDouble reserve mp sz bits
  | updatebegin opCount => Tp.accepted <$> t.tpUpdatebegin reserve mp sz opCount
  | op code fieldNo => Tp.accepted <$> t.tpOp reserve mp sz code fieldNo
  | reqid id => some <$> t.tpReqid id

/-- A request: the call that starts it, and the calls that follow. -/
structure TpRequest where
  start : TpStart
  calls : List TpCall

/-- Go on with what an earlier call has left, if it has succeeded. -/
def Tp.andThen (next : Tp τ → Except Fault (Option (Tp τ))) :
    Option (Tp τ) → Except Fault (Option (Tp τ))
  | none => .ok none
  | some t => next t

def TpCall.runAll : List TpCall → Tp τ → Except Fault (Option (Tp τ))
  | [], t => .ok (some t)
  | call :: calls, t => call.run reserve mp sz t >>= Tp.andThen (runAll calls)

def TpRequest.run (r : TpRequest) (t : Tp τ) : Except Fault (Option (Tp τ)) :=
  r.start.run reserve mp sz t >>= Tp.andThen (TpCall.runAll reserve mp sz r.calls)

/-- One request after the other. There is a result when all calls succeed. -/
def TpRequest.runAll : List TpRequest → Tp τ → Except Fault (Option (Tp τ))
  | [], t => .ok (some t)
  | r :: rs, t => r.run reserve mp sz t >>= Tp.andThen (runAll rs)

end Runs

end BeeC
