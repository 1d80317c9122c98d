import BeeC.Wire.Absorb
import BeeC.Wire.LittleEndian

namespace BeeC.Wire.Murmur3

open BeeC.Wire.Absorb

/-- Up to four bytes as a word, the least significant one first. -/
def word (bytes : List UInt8) : BitVec 32 := BitVec.ofNat 32 (LittleEndian.load bytes)

/-- What is mixed in for a word. -/
def scramble (k : BitVec 32) : BitVec 32 := (k * 0xcc9e2d51).rotateLeft 15 * 0x1b873593

/-- Mix a block of four bytes into the hash. -/
def mixBlock (h : BitVec 32) (block : List UInt8) : BitVec 32 :=
  (h ^^^ scramble (word block)).rotateLeft 13 * 5 + 0xe6546b64

/-- Mix in the bytes that do not fill a block. -/
def mixTail (h : BitVec 32) : List UInt8 → BitVec 32
  | [] => h
  | tail => h ^^^ scramble (word tail)

/-- Each bit of the hash comes to depend on each other one. -/
def finish (h : BitVec 32) : BitVec 32 :=
  let h := (h ^^^ h >>> 16) * 0x85ebca6b
  let h := (h ^^^ h >>> 13) * 0xc2b2ae35
  h ^^^ h >>> 16

/-- The hash of a message. -/
def hash (seed : BitVec 32) (message : List UInt8) : BitVec 32 :=
  let (h, tail) := absorb mixBlock 4 seed message
  finish (mixTail h tail ^^^ BitVec.ofNat 32 message.length)

theorem word_toNat {bytes : List UInt8} (h : bytes.length ≤ 4) :
    (word bytes).toNat = LittleEndian.load bytes := by
  have hlt := LittleEndian.load_lt bytes
  have hle : 256 ^ bytes.length ≤ 256 ^ 4 := Nat.pow_le_pow_right (by decide) h
  unfold word
  rw [BitVec.toNat_ofNat, Nat.mod_eq_of_lt (by omega)]

end BeeC.Wire.Murmur3
