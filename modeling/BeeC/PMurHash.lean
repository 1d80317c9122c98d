import BeeC.Wire.Murmur3

/-!
The hash function behind the tables (`PMurHash.c`), which takes a message in chunks and carries up
to three bytes from one to the next. A result is missing where a byte outside of a chunk would be
read, and where a word would be read at an address that the machine does not allow.
-/

namespace BeeC

open BeeC.Wire

/-- `ROTL32`. -/
def rotl32 (x : BitVec 32) (r : Nat) : BitVec 32 := x <<< r ||| x >>> (32 - r)

/-- What `DOBLOCK` and `PMurHash32_Result` make of `k1`. -/
def scrambleK1 (k1 : BitVec 32) : BitVec 32 := rotl32 (k1 * 0xcc9e2d51) 15 * 0x1b873593

/-- `DOBLOCK`, with both variables that it assigns. -/
def doBlock (h1 k1 : BitVec 32) : BitVec 32 × BitVec 32 :=
  let k1 := scrambleK1 k1
  (rotl32 (h1 ^^^ k1) 13 * 5 + 0xe6546b64, k1)

/-- The variables `h1`, `c` and `n` of `PMurHash32_Process`. -/
structure PMurState where
  h1 : BitVec 32
  c : BitVec 32
  n : Nat

/-- The variables `ptr` and `len`, with the bytes in between. -/
structure PMurInput where
  ptr : BitVec 64
  bytes : List UInt8

/-- One turn of the loop in `DOBYTES`. -/
def doByte (s : PMurState) (byte : UInt8) : PMurState :=
  let c := s.c >>> 8 ||| byte.toBitVec.setWidth 32 <<< 24
  if s.n + 1 = 4 then
    let (h1, c) := doBlock s.h1 c
    { h1, c, n := 0 }
  else { s with c, n := s.n + 1 }

/-- `DOBYTES`. -/
def doBytes : (cnt : Nat) → PMurState → PMurInput → Option (PMurState × PMurInput)
  | 0, s, input => some (s, input)
  | cnt + 1, s, ⟨ptr, byte :: bytes⟩ => doBytes cnt (doByte s byte) ⟨ptr + 1, bytes⟩
  | _ + 1, _, ⟨_, []⟩ => none

/-- `READ_UINT32`, of a little-endian machine or byte by byte. Without `UNALIGNED_SAFE`, the address
has to be a multiple of four. -/
def readUint32 (unalignedSafe : Bool) : PMurInput → Option (BitVec 32 × PMurInput)
  | ⟨ptr, p :: q :: r :: s :: bytes⟩ =>
      if unalignedSafe ∨ ptr &&& 3 = 0 then
        some (p.toBitVec.setWidth 32 ||| q.toBitVec.setWidth 32 <<< 8 |||
          r.toBitVec.setWidth 32 <<< 16 ||| s.toBitVec.setWidth 32 <<< 24, ⟨ptr + 4, bytes⟩)
      else none
  | _ => none

/-- A turn of the loops over whole words: nothing is carried (`case 0`, and all of them with
`UNALIGNED_SAFE`). -/
def wordCase0 (s : PMurState) (w : BitVec 32) : PMurState :=
  { s with h1 := (doBlock s.h1 w).1 }

/-- A turn of the loops over whole words: the block is made of the bytes in the carry and of the
first ones of the word, and the word becomes the carry. -/
def wordCarried (down up : Nat) (s : PMurState) (w : BitVec 32) : PMurState :=
  { s with h1 := (doBlock s.h1 (s.c >>> down ||| w <<< up)).1, c := w }

/-- `case 1`. -/
def wordCase1 : PMurState → BitVec 32 → PMurState := wordCarried 24 8

/-- `case 2`. -/
def wordCase2 : PMurState → BitVec 32 → PMurState := wordCarried 16 16

/-- `case 3`. -/
def wordCase3 : PMurState → BitVec 32 → PMurState := wordCarried 8 24

/-- The loops over whole words. -/
def doWords (unalignedSafe : Bool) (turn : PMurState → BitVec 32 → PMurState) :
    (count : Nat) → PMurState → PMurInput → Option (PMurState × PMurInput)
  | 0, s, input => some (s, input)
  | count + 1, s, input => do
      let (w, input) ← readUint32 unalignedSafe input
      doWords unalignedSafe turn count (turn s w) input

/-- The `switch` over the number of bytes in the carry. -/
def switchCarry (s : PMurState) (input : PMurInput) : Option (PMurState × PMurInput) :=
  let count := input.bytes.length / 4
  match s.n with
  | 0 => doWords false wordCase0 count s input
  | 1 => doWords false wordCase1 count s input
  | 2 => doWords false wordCase2 count s input
  | 3 => doWords false wordCase3 count s input
  | _ => some (s, ⟨input.ptr + BitVec.ofNat 64 (4 * count), input.bytes⟩)

/-- The bytes in front, if there are as many: `if(i && i <= len) DOBYTES(i, ...)`. -/
def doFront (i : Nat) (s : PMurState) (input : PMurInput) : Option (PMurState × PMurInput) :=
  if i ≠ 0 ∧ i ≤ input.bytes.length then doBytes i s input else some (s, input)

/-- What `PMurHash32_Process` does up to the last bytes, with and without `UNALIGNED_SAFE`. -/
def doChunk (unalignedSafe : Bool) (s : PMurState) (input : PMurInput) :
    Option (PMurState × PMurInput) :=
  if unalignedSafe then do
    -- Consume any carry bytes.
    let (s, input) ← doFront ((4 - s.n) &&& 3) s input
    doWords true wordCase0 (input.bytes.length / 4) s input
  else do
    -- Consume enough so that the next data byte is word aligned.
    let (s, input) ← doFront (-input.ptr &&& 3).toNat s input
    switchCarry s input

/-- `PMurHash32_Process`, with the hash and the carry that it leaves. -/
def pMurHash32Process (unalignedSafe : Bool) (h1 carry : BitVec 32) (ptr : BitVec 64)
    (key : List UInt8) : Option (BitVec 32 × BitVec 32) := do
  let s : PMurState := { h1, c := carry, n := (carry &&& 3).toNat }
  let (s, input) ← doChunk unalignedSafe s ⟨ptr, key⟩
  let (s, _) ← doBytes input.bytes.length s input
  some (s.h1, s.c &&& ~~~0xff ||| BitVec.ofNat 32 s.n)

/-- `PMurHash32_Result`. -/
def pMurHash32Result (h carry totalLength : BitVec 32) : BitVec 32 :=
  let n := (carry &&& 3).toNat
  let h := if n ≠ 0 then h ^^^ scrambleK1 (carry >>> ((4 - n) * 8)) else h
  let h := h ^^^ totalLength
  let h := h ^^^ h >>> 16
  let h := h * 0x85ebca6b
  let h := h ^^^ h >>> 13
  let h := h * 0xc2b2ae35
  h ^^^ h >>> 16

/-- `PMurHash32`. -/
def pMurHash32 (unalignedSafe : Bool) (seed : BitVec 32) (ptr : BitVec 64) (key : List UInt8) :
    Option (BitVec 32) := do
  let (h1, carry) ← pMurHash32Process unalignedSafe seed 0 ptr key
  some (pMurHash32Result h1 carry (BitVec.ofNat 32 key.length))

end BeeC
