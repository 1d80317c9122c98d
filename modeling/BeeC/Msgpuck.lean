import BeeC.Wire.Encoding

/-!
The msgpuck functions the client calls. The library is a submodule whose source is not part of
the repository, so the model takes it as a parameter; `Msgpuck.Lawful` states that it follows
the MessagePack format, and `Msgpuck.reference` does.
-/

namespace BeeC

open BeeC.Wire.BigEndian
open BeeC.Wire.MessagePack
open BeeC.Wire.Encoding

/-- An encoder is the bytes it stores, a decoder the value it reads and the bytes it moves over. -/
structure Msgpuck where
  mpTypeof : UInt8 → Kind
  mpSizeofArray : UInt32 → Nat
  mpSizeofMap : UInt32 → Nat
  mpEncodeNil : Bytes
  mpEncodeBool : Bool → Bytes
  mpEncodeUint : UInt64 → Bytes
  mpEncodeInt : Int64 → Bytes
  mpEncodeFloat : UInt32 → Bytes
  mpEncodeDouble : UInt64 → Bytes
  mpEncodeStrl : UInt32 → Bytes
  mpEncodeBinl : UInt32 → Bytes
  mpEncodeArray : UInt32 → Bytes
  mpEncodeMap : UInt32 → Bytes
  mpStoreU8 : UInt8 → Bytes
  mpStoreU32 : UInt32 → Bytes
  mpStoreU64 : UInt64 → Bytes
  /-- `none` when no well-formed value starts the bytes, else the bytes it takes. -/
  mpCheck : Bytes → Option Nat
  mpNext : Bytes → Nat
  mpDecodeUint : Bytes → UInt64 × Nat
  mpDecodeArray : Bytes → UInt32 × Nat
  mpDecodeMap : Bytes → UInt32 × Nat
  /-- The length of the text, and the size of the header in front of it. -/
  mpDecodeStr : Bytes → UInt32 × Nat

namespace Msgpuck

/-- The functions do what the MessagePack format says. A decoder is bound only on bytes that
start with what it decodes. -/
structure Lawful (mp : Msgpuck) : Prop where
  typeof_eq : ∀ {first kind}, typeOf first = some kind → mp.mpTypeof first = kind
  sizeofArray_eq : ∀ n, mp.mpSizeofArray n = (arrayHeader n.toNat).length
  sizeofMap_eq : ∀ n, mp.mpSizeofMap n = (mapHeader n.toNat).length
  encodeNil_eq : mp.mpEncodeNil = encodeNil
  encodeBool_eq : ∀ b, mp.mpEncodeBool b = encodeBool b
  encodeUint_eq : ∀ n, mp.mpEncodeUint n = encodeUint n.toNat
  encodeInt_eq : ∀ z : Int64, z.toInt < 0 → mp.mpEncodeInt z = encodeInt z.toInt
  encodeFloat_eq : ∀ bits, mp.mpEncodeFloat bits = encodeFloat bits.toNat
  encodeDouble_eq : ∀ bits, mp.mpEncodeDouble bits = encodeDouble bits.toNat
  encodeStrl_eq : ∀ n, mp.mpEncodeStrl n = strHeader n.toNat
  encodeBinl_eq : ∀ n, mp.mpEncodeBinl n = binHeader n.toNat
  encodeArray_eq : ∀ n, mp.mpEncodeArray n = arrayHeader n.toNat
  encodeMap_eq : ∀ n, mp.mpEncodeMap n = mapHeader n.toNat
  storeU8_eq : ∀ n, mp.mpStoreU8 n = [n]
  storeU32_eq : ∀ n, mp.mpStoreU32 n = store 4 n.toNat
  storeU64_eq : ∀ n, mp.mpStoreU64 n = store 8 n.toNat
  check_eq : ∀ bytes, mp.mpCheck bytes = (next bytes).map fun p => p.1.length
  next_eq : ∀ {bytes value rest}, next bytes = some (value, rest) →
    mp.mpNext bytes = value.length
  decodeUint_eq : ∀ {bytes n rest}, head bytes = some (.uint n, rest) →
    mp.mpDecodeUint bytes = (UInt64.ofNat n, bytes.length - rest.length)
  decodeArray_eq : ∀ {bytes n rest}, head bytes = some (.array n, rest) →
    mp.mpDecodeArray bytes = (UInt32.ofNat n, bytes.length - rest.length)
  decodeMap_eq : ∀ {bytes n rest}, head bytes = some (.map n, rest) →
    mp.mpDecodeMap bytes = (UInt32.ofNat n, bytes.length - rest.length)
  decodeStr_eq : ∀ {bytes n rest}, head bytes = some (.str n, rest) →
    mp.mpDecodeStr bytes = (UInt32.ofNat n, bytes.length - rest.length)

/-- An implementation that reads the format off its definition. -/
def reference : Msgpuck where
  mpTypeof first := (typeOf first).getD .ext
  mpSizeofArray n := (arrayHeader n.toNat).length
  mpSizeofMap n := (mapHeader n.toNat).length
  mpEncodeNil := encodeNil
  mpEncodeBool := encodeBool
  mpEncodeUint n := encodeUint n.toNat
  mpEncodeInt z := encodeInt z.toInt
  mpEncodeFloat bits := encodeFloat bits.toNat
  mpEncodeDouble bits := encodeDouble bits.toNat
  mpEncodeStrl n := strHeader n.toNat
  mpEncodeBinl n := binHeader n.toNat
  mpEncodeArray n := arrayHeader n.toNat
  mpEncodeMap n := mapHeader n.toNat
  mpStoreU8 n := [n]
  mpStoreU32 n := store 4 n.toNat
  mpStoreU64 n := store 8 n.toNat
  mpCheck bytes := (next bytes).map fun p => p.1.length
  mpNext bytes := ((next bytes).map fun p => p.1.length).getD 0
  mpDecodeUint bytes :=
    match head bytes with
    | some (.uint n, rest) => (UInt64.ofNat n, bytes.length - rest.length)
    | _ => (0, 0)
  mpDecodeArray bytes :=
    match head bytes with
    | some (.array n, rest) => (UInt32.ofNat n, bytes.length - rest.length)
    | _ => (0, 0)
  mpDecodeMap bytes :=
    match head bytes with
    | some (.map n, rest) => (UInt32.ofNat n, bytes.length - rest.length)
    | _ => (0, 0)
  mpDecodeStr bytes :=
    match head bytes with
    | some (.str n, rest) => (UInt32.ofNat n, bytes.length - rest.length)
    | _ => (0, 0)

theorem reference_lawful : reference.Lawful where
  typeof_eq h := by simp [reference, h]
  sizeofArray_eq _ := rfl
  sizeofMap_eq _ := rfl
  encodeNil_eq := rfl
  encodeBool_eq _ := rfl
  encodeUint_eq _ := rfl
  encodeInt_eq _ _ := rfl
  encodeFloat_eq _ := rfl
  encodeDouble_eq _ := rfl
  encodeStrl_eq _ := rfl
  encodeBinl_eq _ := rfl
  encodeArray_eq _ := rfl
  encodeMap_eq _ := rfl
  storeU8_eq _ := rfl
  storeU32_eq _ := rfl
  storeU64_eq _ := rfl
  check_eq _ := rfl
  next_eq h := by simp [reference, h]
  decodeUint_eq h := by simp [reference, h]
  decodeArray_eq h := by simp [reference, h]
  decodeMap_eq h := by simp [reference, h]
  decodeStr_eq h := by simp [reference, h]

end Msgpuck

/-- What a C program must not do, and what the model stops at. -/
inductive Fault where
  | nullPointer
  | outOfBounds
  | wrongType
  | shiftTooFar
  | foreignMemory
  | doubleFree
  | assertion
  | overflow
  deriving DecidableEq, Repr

/-- Why a computation ends early: the source takes its error exit, or its behaviour is
undefined from here on. -/
inductive Stop where
  | fail
  | fault (reason : Fault)
  deriving DecidableEq, Repr

namespace Msgpuck

/-- `mp_typeof(*p)`, for a pointer with the given bytes up to the end of its block. -/
def typeofAt (mp : Msgpuck) : Bytes → Except Stop Kind
  | [] => .error (.fault .outOfBounds)
  | first :: _ => .ok (mp.mpTypeof first)

/-- Move a pointer over `used` bytes of its block. -/
def advance (p : Bytes) (used : Nat) : Except Stop Bytes :=
  if used ≤ p.length then .ok (p.drop used) else .error (.fault .outOfBounds)

/-- Apply a decoder of one kind; on a byte of another kind its result is undefined. -/
def decodeAs {α : Type} (mp : Msgpuck) (kind : Kind) (decode : Bytes → α × Nat) (p : Bytes) :
    Except Stop (α × Bytes) := do
  let found ← mp.typeofAt p
  if found ≠ kind then throw (.fault .wrongType)
  let rest ← advance p (decode p).2
  return ((decode p).1, rest)

def decodeUint (mp : Msgpuck) : Bytes → Except Stop (UInt64 × Bytes) :=
  mp.decodeAs .uint mp.mpDecodeUint

def decodeArray (mp : Msgpuck) : Bytes → Except Stop (UInt32 × Bytes) :=
  mp.decodeAs .array mp.mpDecodeArray

def decodeMap (mp : Msgpuck) : Bytes → Except Stop (UInt32 × Bytes) :=
  mp.decodeAs .map mp.mpDecodeMap

/-- `mp_decode_str`: the length of the text, and the pointer to it. -/
def decodeStr (mp : Msgpuck) : Bytes → Except Stop (UInt32 × Bytes) :=
  mp.decodeAs .str mp.mpDecodeStr

/-- `mp_next(&p)`. -/
def nextValue (mp : Msgpuck) (p : Bytes) : Except Stop Bytes :=
  advance p (mp.mpNext p)

variable {mp : Msgpuck}

theorem typeofAt_eq (hmp : mp.Lawful) {p rest : Bytes} {hd : Head}
    (h : head p = some (hd, rest)) : mp.typeofAt p = .ok hd.kind := by
  cases p with
  | nil => cases h
  | cons first p => rw [typeofAt, hmp.typeof_eq (typeOf_of_head h)]

theorem advance_append (used rest : Bytes) : advance (used ++ rest) used.length = .ok rest := by
  simp [advance]

theorem decodeAs_eq {α : Type} (hmp : mp.Lawful) {kind : Kind} {decode : Bytes → α × Nat}
    {value : α} {p rest : Bytes} {hd : Head} (h : head p = some (hd, rest))
    (hkind : hd.kind = kind) (hdecode : decode p = (value, p.length - rest.length)) :
    mp.decodeAs kind decode p = .ok (value, rest) := by
  obtain ⟨used, rfl, -, -⟩ := head_suffix h
  have hused : (used ++ rest).length - rest.length = used.length := by simp
  rw [hused] at hdecode
  simp [decodeAs, typeofAt_eq hmp h, hkind, hdecode, advance_append, bind, Except.bind, pure,
    Except.pure]

theorem decodeAs_wrongType {α : Type} (hmp : mp.Lawful) {kind : Kind}
    {decode : Bytes → α × Nat} {p rest : Bytes} {hd : Head} (h : head p = some (hd, rest))
    (hkind : hd.kind ≠ kind) : mp.decodeAs kind decode p = .error (.fault .wrongType) := by
  simp [decodeAs, typeofAt_eq hmp h, hkind, bind, Except.bind, throw, throwThe,
    MonadExceptOf.throw]

theorem decodeUint_eq (hmp : mp.Lawful) {p rest : Bytes} {n : Nat}
    (h : head p = some (.uint n, rest)) : mp.decodeUint p = .ok (UInt64.ofNat n, rest) :=
  decodeAs_eq hmp h rfl (hmp.decodeUint_eq h)

theorem decodeArray_eq (hmp : mp.Lawful) {p rest : Bytes} {n : Nat}
    (h : head p = some (.array n, rest)) : mp.decodeArray p = .ok (UInt32.ofNat n, rest) :=
  decodeAs_eq hmp h rfl (hmp.decodeArray_eq h)

theorem decodeMap_eq (hmp : mp.Lawful) {p rest : Bytes} {n : Nat}
    (h : head p = some (.map n, rest)) : mp.decodeMap p = .ok (UInt32.ofNat n, rest) :=
  decodeAs_eq hmp h rfl (hmp.decodeMap_eq h)

theorem decodeStr_eq (hmp : mp.Lawful) {p rest : Bytes} {n : Nat}
    (h : head p = some (.str n, rest)) : mp.decodeStr p = .ok (UInt32.ofNat n, rest) :=
  decodeAs_eq hmp h rfl (hmp.decodeStr_eq h)

theorem nextValue_append (hmp : mp.Lawful) {value : Bytes} (h : IsValue value)
    (rest : Bytes) : mp.nextValue (value ++ rest) = .ok rest := by
  rw [nextValue, hmp.next_eq (next_append h rest), advance_append]

end Msgpuck

end BeeC
