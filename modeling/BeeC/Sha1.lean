import BeeC.Wire.Memory
import Mathlib.Tactic.Ring

/-!
The hash function of the client (`sha1.c`, with `SHA1HANDSOFF`). A result is missing where bytes
would be copied past the end of a buffer, and where a loop would not end.
-/

namespace BeeC

open BeeC.Wire.Memory

/-- `rol`. -/
def rol (value : BitVec 32) (bits : Nat) : BitVec 32 :=
  value <<< bits ||| value >>> (32 - bits)

/-- The words of `CHAR64LONG16`, on a little-endian machine. -/
abbrev Sha1Block := Vector (BitVec 32) 16

/-- The union over 64 bytes. -/
def sha1Block (buffer : List UInt8) : Sha1Block :=
  Vector.ofFn fun i =>
    (buffer.getD (4 * i.val) 0).toBitVec.setWidth 32 |||
      (buffer.getD (4 * i.val + 1) 0).toBitVec.setWidth 32 <<< 8 |||
      (buffer.getD (4 * i.val + 2) 0).toBitVec.setWidth 32 <<< 16 |||
      (buffer.getD (4 * i.val + 3) 0).toBitVec.setWidth 32 <<< 24

/-- An index of `l`, `i & 15`. -/
def index16 (i : Nat) : Fin 16 := ⟨i &&& 15, Nat.lt_of_le_of_lt Nat.and_le_right (by decide)⟩

/-- `blk0`, with the word that it stores. The index is below 16. -/
def blk0 (block : Sha1Block) (i : Nat) : BitVec 32 × Sha1Block :=
  let l := block.get (index16 i)
  let word := rol l 24 &&& 0xff00ff00 ||| rol l 8 &&& 0x00ff00ff
  (word, block.set (index16 i) word)

/-- `blk`, with the word that it stores. -/
def blk (block : Sha1Block) (i : Nat) : BitVec 32 × Sha1Block :=
  let word := rol (block.get (index16 (i + 13)) ^^^ block.get (index16 (i + 8)) ^^^
    block.get (index16 (i + 2)) ^^^ block.get (index16 i)) 1
  (word, block.set (index16 i) word)

/-- The variables `a` to `e`. -/
abbrev Sha1Regs := Vector (BitVec 32) 5

/-- What the macros `R0` to `R4` have in common: `z += mix(w,x,y) + word + constant + rol(v,5)`, and
then `w = rol(w,30)`. -/
def sha1Macro (mix : BitVec 32 → BitVec 32 → BitVec 32 → BitVec 32) (constant : BitVec 32)
    (expand : Sha1Block → Nat → BitVec 32 × Sha1Block) (v w x y z : Fin 5) (i : Nat)
    (s : Sha1Regs × Sha1Block) : Sha1Regs × Sha1Block :=
  let (word, block) := expand s.2 i
  let regs := s.1.set z
    (s.1.get z + (mix (s.1.get w) (s.1.get x) (s.1.get y) + word + constant + rol (s.1.get v) 5))
  (regs.set w (rol (regs.get w) 30), block)

def sha1R0 : (v w x y z : Fin 5) → Nat → Sha1Regs × Sha1Block → Sha1Regs × Sha1Block :=
  sha1Macro (fun w x y => (w &&& (x ^^^ y)) ^^^ y) 0x5A827999 blk0

def sha1R1 : (v w x y z : Fin 5) → Nat → Sha1Regs × Sha1Block → Sha1Regs × Sha1Block :=
  sha1Macro (fun w x y => (w &&& (x ^^^ y)) ^^^ y) 0x5A827999 blk

def sha1R2 : (v w x y z : Fin 5) → Nat → Sha1Regs × Sha1Block → Sha1Regs × Sha1Block :=
  sha1Macro (fun w x y => w ^^^ x ^^^ y) 0x6ED9EBA1 blk

def sha1R3 : (v w x y z : Fin 5) → Nat → Sha1Regs × Sha1Block → Sha1Regs × Sha1Block :=
  sha1Macro (fun w x y => (w ||| x) &&& y ||| w &&& x) 0x8F1BBCDC blk

def sha1R4 : (v w x y z : Fin 5) → Nat → Sha1Regs × Sha1Block → Sha1Regs × Sha1Block :=
  sha1Macro (fun w x y => w ^^^ x ^^^ y) 0xCA62C1D6 blk

/-- The register at a place of the `i`-th line of macros: from one line to the next, the five are
turned by one. -/
def sha1Reg (i place : Nat) : Fin 5 := ⟨(4 * i + place) % 5, Nat.mod_lt _ (by decide)⟩

/-- The `i`-th of the eighty unrolled macros. -/
def sha1Line (s : Sha1Regs × Sha1Block) (i : Nat) : Sha1Regs × Sha1Block :=
  let op := if i < 16 then sha1R0 else if i < 20 then sha1R1 else if i < 40 then sha1R2
    else if i < 60 then sha1R3 else sha1R4
  op (sha1Reg i 0) (sha1Reg i 1) (sha1Reg i 2) (sha1Reg i 3) (sha1Reg i 4) i s

/-- `SHA1Transform`. -/
def sha1Transform (state : Sha1Regs) (buffer : List UInt8) : Sha1Regs :=
  let (regs, _) := (List.range 80).foldl sha1Line (state, sha1Block buffer)
  Vector.ofFn fun i => state.get i + regs.get i

/-- `SHA1_CTX`. -/
structure Sha1Ctx where
  state : Sha1Regs
  count0 : Nat
  count1 : Nat
  buffer : List UInt8

/-- `SHA1Init`. The buffer is not initialised. -/
def sha1Init (garbage : Nat → UInt8) : Sha1Ctx where
  state := #v[0x67452301, 0xEFCDAB89, 0x98BADCFE, 0x10325476, 0xC3D2E1F0]
  count0 := 0
  count1 := 0
  buffer := (List.range 64).map garbage

/-- The loop over the whole blocks behind the first one. -/
def sha1Blocks (data : List UInt8) : (fuel i : Nat) → Sha1Regs → Option (Nat × Sha1Regs)
  | 0, _, _ => none
  | fuel + 1, i, state =>
      if (i + 63) % 2 ^ 32 < data.length then
        sha1Blocks data fuel (i + 64) (sha1Transform state ((data.drop i).take 64))
      else some (i, state)

/-- The part of `SHA1Update` that fills the buffer and empties it, from the place in the buffer on. -/
def sha1Fill (ctx : Sha1Ctx) (j : Nat) (data : List UInt8) : Option (Sha1Regs × List UInt8) :=
  if 63 < (j + data.length) % 2 ^ 32 then do
    let head ← peek data 0 (64 - j)
    let buffer ← poke ctx.buffer j head
    let (i, state) ← sha1Blocks data (data.length + 1) (64 - j) (sha1Transform ctx.state buffer)
    let buffer ← poke buffer 0 (data.drop i)
    some (state, buffer)
  else (poke ctx.buffer j data).map fun buffer => (ctx.state, buffer)

/-- `SHA1Update`. The length is a `uint32_t`, as the words of `count` are. -/
def sha1Update (ctx : Sha1Ctx) (data : List UInt8) : Option Sha1Ctx := do
  let len := data.length
  let count0 := (ctx.count0 + len <<< 3 % 2 ^ 32) % 2 ^ 32
  let carried := if count0 < ctx.count0 then (ctx.count1 + 1) % 2 ^ 32 else ctx.count1
  let count1 := (carried + len >>> 29) % 2 ^ 32
  let (state, buffer) ← sha1Fill ctx (ctx.count0 >>> 3 &&& 63) data
  some { state, count0, count1, buffer }

/-- The loop of `SHA1Final` that pads with zeros. -/
def sha1Pad : (fuel : Nat) → Sha1Ctx → Option Sha1Ctx
  | 0, _ => none
  | fuel + 1, ctx =>
      if ctx.count0 &&& 504 ≠ 448 then do
        let ctx ← sha1Update ctx [0]
        sha1Pad fuel ctx
      else some ctx

/-- Byte `i` of a sequence of words, the most significant byte of each word first. -/
def sha1Byte (word : BitVec 32) (i : Nat) : UInt8 :=
  UInt8.ofNat (word.toNat >>> ((3 - (i &&& 3)) * 8) &&& 255)

/-- `SHA1Final`, with the digest. -/
def sha1Final (ctx : Sha1Ctx) : Option (List UInt8) := do
  let finalcount := (List.range 8).map fun i =>
    sha1Byte (BitVec.ofNat 32 (if 4 ≤ i then ctx.count0 else ctx.count1)) i
  let ctx ← sha1Update ctx [0o200]
  let ctx ← sha1Pad 64 ctx
  let ctx ← sha1Update ctx finalcount
  some ((List.range 20).map fun i => sha1Byte (ctx.state.toList.getD (i >>> 2) 0) i)

/-- `SHA1Init`, a run of `SHA1Update`, and `SHA1Final`. -/
def sha1Run (garbage : Nat → UInt8) (chunks : List (List UInt8)) : Option (List UInt8) := do
  let ctx ← chunks.foldlM sha1Update (sha1Init garbage)
  sha1Final ctx

end BeeC
