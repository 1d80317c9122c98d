import BeeC.Wire.Absorb
import BeeC.Wire.BigEndian

namespace BeeC.Wire.SecureHash

open BeeC.Wire.Absorb

/-- Five words: the hash value between two blocks, and the working variables in between. -/
structure Words where
  a : BitVec 32
  b : BitVec 32
  c : BitVec 32
  d : BitVec 32
  e : BitVec 32
  deriving DecidableEq, Repr

/-- The hash value in front of the first block. -/
def initial : Words := ⟨0x67452301, 0xefcdab89, 0x98badcfe, 0x10325476, 0xc3d2e1f0⟩

/-- Four bytes as a word, the most significant one first. -/
def word (p q r s : UInt8) : BitVec 32 :=
  p.toBitVec.setWidth 32 <<< 24 ||| q.toBitVec.setWidth 32 <<< 16 |||
    r.toBitVec.setWidth 32 <<< 8 ||| s.toBitVec.setWidth 32

/-- The words of a block. -/
def blockWord (block : List UInt8) (t : Nat) : BitVec 32 :=
  word (block.getD (4 * t) 0) (block.getD (4 * t + 1) 0) (block.getD (4 * t + 2) 0)
    (block.getD (4 * t + 3) 0)

/-- The message schedule. -/
def schedule (block : List UInt8) (t : Nat) : BitVec 32 :=
  if t < 16 then blockWord block t
  else
    (schedule block (t - 3) ^^^ schedule block (t - 8) ^^^ schedule block (t - 14) ^^^
      schedule block (t - 16)).rotateLeft 1
  termination_by t

theorem schedule_of_lt (block : List UInt8) {t : Nat} (ht : t < 16) :
    schedule block t = blockWord block t := by
  rw [schedule, if_pos ht]

theorem schedule_of_ge (block : List UInt8) {t : Nat} (ht : 16 ≤ t) :
    schedule block t = (schedule block (t - 3) ^^^ schedule block (t - 8) ^^^
      schedule block (t - 14) ^^^ schedule block (t - 16)).rotateLeft 1 := by
  rw [schedule, if_neg (Nat.not_lt.mpr ht)]

/-- The function of a step: a choice, a parity, a majority and a parity. -/
def mix (t : Nat) (x y z : BitVec 32) : BitVec 32 :=
  if t < 20 then (x &&& y) ^^^ (~~~x &&& z)
  else if t < 40 then x ^^^ y ^^^ z
  else if t < 60 then (x &&& y) ^^^ (x &&& z) ^^^ (y &&& z)
  else x ^^^ y ^^^ z

/-- The constant of a step. -/
def constant (t : Nat) : BitVec 32 :=
  if t < 20 then 0x5a827999
  else if t < 40 then 0x6ed9eba1
  else if t < 60 then 0x8f1bbcdc
  else 0xca62c1d6

/-- One step, with a word of the schedule. -/
def step (w : Nat → BitVec 32) (s : Words) (t : Nat) : Words where
  a := s.a.rotateLeft 5 + mix t s.b s.c s.d + s.e + constant t + w t
  b := s.a
  c := s.b.rotateLeft 30
  d := s.c
  e := s.d

/-- Mix a block into the hash value. -/
def compress (s : Words) (block : List UInt8) : Words :=
  let r := (List.range 80).foldl (step (schedule block)) s
  ⟨s.a + r.a, s.b + r.b, s.c + r.c, s.d + r.d, s.e + r.e⟩

/-- What is appended to a message of so many bytes. -/
def padding (length : Nat) : List UInt8 :=
  0x80 :: (List.replicate ((119 - length % 64) % 64) 0 ++ BigEndian.store 8 (8 * length))

/-- The bytes of a hash value. -/
def Words.bytes (s : Words) : List UInt8 :=
  [s.a, s.b, s.c, s.d, s.e].flatMap fun x => BigEndian.store 4 x.toNat

/-- The digest of a message. The padding counts its bits modulo 2^64. -/
def sha1 (message : List UInt8) : List UInt8 :=
  (absorb compress 64 initial (message ++ padding message.length)).1.bytes

theorem sha1_length (message : List UInt8) : (sha1 message).length = 20 := by
  simp [sha1, Words.bytes]

end BeeC.Wire.SecureHash
