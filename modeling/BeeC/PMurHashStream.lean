import BeeC.Assoc
import BeeC.PMurHash

namespace BeeC

open BeeC.Wire
open BeeC.Wire.Absorb
open BeeC.Wire.Murmur3

theorem rotl32_eq (x : BitVec 32) {r : Nat} (hr : r < 32) : rotl32 x r = x.rotateLeft r := by
  rw [BitVec.rotateLeft_def, Nat.mod_eq_of_lt hr]
  rfl

theorem scrambleK1_eq (k1 : BitVec 32) : scrambleK1 k1 = scramble k1 := by
  unfold scrambleK1 scramble
  rw [rotl32_eq _ (by decide)]

theorem doBlock_hash (h1 : BitVec 32) (block : List UInt8) :
    (doBlock h1 (word block)).1 = mixBlock h1 block := by
  unfold doBlock mixBlock
  dsimp only
  rw [scrambleK1_eq, rotl32_eq _ (by decide)]

/-- The variables hold a hash, and the bytes behind it: these are the top bytes of `c`, and what
the other ones are does not matter. -/
structure PMurState.Carries (s : PMurState) (h : BitVec 32) (rest : List UInt8) : Prop where
  hash : s.h1 = h
  count : s.n = rest.length
  short : rest.length < 4
  carry : s.c.toNat / 256 ^ (4 - rest.length) = LittleEndian.load rest

/-- The variables stand for the bytes that were put in. -/
def PMurState.Holds (s : PMurState) (seed : BitVec 32) (done : List UInt8) : Prop :=
  s.Carries (absorb mixBlock 4 seed done).1 (absorb mixBlock 4 seed done).2

theorem or_byte_toNat {a : BitVec 32} {k : Nat} (ha : a.toNat < 2 ^ k) (hk : k + 8 ≤ 32)
    (byte : UInt8) :
    (a ||| byte.toBitVec.setWidth 32 <<< k).toNat = a.toNat + byte.toNat * 2 ^ k := by
  have hbyte : byte.toNat < 2 ^ 8 := byte.toNat_lt
  have hpow : 2 ^ 8 * 2 ^ k ≤ 2 ^ 32 := by
    rw [← Nat.pow_add]
    exact Nat.pow_le_pow_right (by decide) (by omega)
  have hshift : byte.toNat <<< k < 2 ^ 32 := by
    rw [Nat.shiftLeft_eq]
    exact Nat.lt_of_lt_of_le (Nat.mul_lt_mul_of_pos_right hbyte (Nat.two_pow_pos k)) hpow
  have hwide : (byte.toBitVec.setWidth 32).toNat = byte.toNat := by
    rw [BitVec.toNat_setWidth]
    exact Nat.mod_eq_of_lt (by omega)
  rw [BitVec.toNat_or, BitVec.toNat_shiftLeft, hwide, Nat.mod_eq_of_lt hshift, Nat.or_comm,
    ← Nat.shiftLeft_add_eq_or_of_lt ha, Nat.shiftLeft_eq, Nat.add_comm]

theorem push_toNat (c : BitVec 32) (byte : UInt8) :
    (c >>> 8 ||| byte.toBitVec.setWidth 32 <<< 24).toNat =
      c.toNat / 256 + byte.toNat * 256 ^ 3 := by
  have hc := c.isLt
  have hshift : (c >>> 8).toNat = c.toNat / 256 := by
    rw [BitVec.toNat_ushiftRight, Nat.shiftRight_eq_div_pow]
  rw [or_byte_toNat (by omega) (by decide), hshift, show (256 : Nat) ^ 3 = 2 ^ 24 from rfl]

theorem read_toNat (p q r s : UInt8) :
    (p.toBitVec.setWidth 32 ||| q.toBitVec.setWidth 32 <<< 8 ||| r.toBitVec.setWidth 32 <<< 16 |||
      s.toBitVec.setWidth 32 <<< 24).toNat = LittleEndian.load [p, q, r, s] := by
  have hp : p.toNat < 256 := p.toNat_lt
  have hq : q.toNat < 256 := q.toNat_lt
  have hr : r.toNat < 256 := r.toNat_lt
  have hs : s.toNat < 256 := s.toNat_lt
  have hp₁ : (p.toBitVec.setWidth 32).toNat = p.toNat := by
    rw [BitVec.toNat_setWidth]
    exact Nat.mod_eq_of_lt (by omega)
  have hq₁ := or_byte_toNat (a := p.toBitVec.setWidth 32) (k := 8) (by omega) (by decide) q
  have hr₁ := or_byte_toNat (a := p.toBitVec.setWidth 32 ||| q.toBitVec.setWidth 32 <<< 8) (k := 16)
    (by omega) (by decide) r
  rw [or_byte_toNat (by omega) (by decide), hr₁, hq₁, hp₁]
  simp only [LittleEndian.load]
  omega

theorem push_div {c : BitVec 32} {rest : List UInt8} (hshort : rest.length < 4)
    (hcarry : c.toNat / 256 ^ (4 - rest.length) = LittleEndian.load rest) (byte : UInt8) :
    (c >>> 8 ||| byte.toBitVec.setWidth 32 <<< 24).toNat / 256 ^ (4 - (rest ++ [byte]).length) =
      LittleEndian.load (rest ++ [byte]) := by
  have hpow : 4 - rest.length = 3 - rest.length + 1 := by omega
  have hsplit : 256 ^ 3 = 256 ^ rest.length * 256 ^ (3 - rest.length) := by
    rw [← Nat.pow_add, Nat.add_sub_cancel' (by omega)]
  have hpos : 0 < 256 ^ (3 - rest.length) := Nat.pow_pos (by decide)
  rw [push_toNat, LittleEndian.load_append, ← hcarry, List.length_append, List.length_singleton,
    Nat.add_sub_add_right 3 1, hsplit, ← Nat.mul_assoc, Nat.add_mul_div_right _ _ hpos, hpow,
    Nat.pow_succ', Nat.div_div_eq_div_mul]
  rw [LittleEndian.load, LittleEndian.load, Nat.mul_zero, Nat.add_zero, Nat.mul_comm byte.toNat]

theorem PMurState.Carries.byte {s : PMurState} {h : BitVec 32} {rest : List UInt8}
    (hs : s.Carries h rest) (byte : UInt8) :
    (doByte s byte).Carries (absorb mixBlock 4 h (rest ++ [byte])).1
      (absorb mixBlock 4 h (rest ++ [byte])).2 := by
  have hpush := push_div hs.short hs.carry byte
  have hlength : (rest ++ [byte]).length = rest.length + 1 := List.length_append
  unfold doByte
  dsimp only
  by_cases hfull : rest.length + 1 = 4
  · have hword : s.c >>> 8 ||| byte.toBitVec.setWidth 32 <<< 24 = word (rest ++ [byte]) := by
      apply BitVec.eq_of_toNat_eq
      rw [word_toNat (by omega), ← hpush, hlength, hfull, Nat.sub_self, Nat.pow_zero, Nat.div_one]
    rw [if_pos (by rw [hs.count]; exact hfull), absorb_exact (by decide) (by omega)]
    refine ⟨?_, rfl, Nat.zero_lt_succ 3, ?_⟩
    · rw [hword, doBlock_hash, hs.hash]
    · exact Nat.div_eq_of_lt (BitVec.isLt _)
  · have hshort := hs.short
    rw [if_neg (by rw [hs.count]; exact hfull), absorb_short (by omega)]
    refine ⟨hs.hash, ?_, ?_, hpush⟩
    · rw [hlength, ← hs.count]
    · show (rest ++ [byte]).length < 4
      omega

theorem carried_word {c w : BitVec 32} {rest block : List UInt8} (hshort : rest.length < 4)
    (hcarry : c.toNat / 256 ^ (4 - rest.length) = LittleEndian.load rest)
    (hblock : block.length = 4) (hw : w.toNat = LittleEndian.load block) :
    c >>> (8 * (4 - rest.length)) ||| w <<< (8 * rest.length) =
        word (rest ++ block.take (4 - rest.length)) ∧
      w.toNat / 256 ^ (4 - rest.length) = LittleEndian.load (block.drop (4 - rest.length)) := by
  have hsplit := LittleEndian.load_append (block.take (4 - rest.length))
    (block.drop (4 - rest.length))
  have hfirst := LittleEndian.load_lt (block.take (4 - rest.length))
  have htake : (block.take (4 - rest.length)).length = 4 - rest.length := by
    rw [List.length_take]
    omega
  have hload := LittleEndian.load_lt rest
  have hpow : (256 : Nat) ^ (4 - rest.length) * 256 ^ rest.length = 2 ^ 32 := by
    rw [← Nat.pow_add, Nat.sub_add_cancel (Nat.le_of_lt hshort)]
    rfl
  rw [List.take_append_drop, ← hw, htake] at hsplit
  rw [htake] at hfirst
  constructor
  · apply BitVec.eq_of_toNat_eq
    rw [word_toNat (by rw [List.length_append, htake]; omega), LittleEndian.load_append,
      BitVec.toNat_or, BitVec.toNat_ushiftRight, BitVec.toNat_shiftLeft,
      Nat.shiftRight_eq_div_pow, Nat.shiftLeft_eq, Nat.pow_mul, Nat.pow_mul,
      show 2 ^ 8 = 256 from rfl, hcarry, hsplit]
    have hover : (LittleEndian.load (block.take (4 - rest.length)) +
          256 ^ (4 - rest.length) * LittleEndian.load (block.drop (4 - rest.length))) *
            256 ^ rest.length % 2 ^ 32 =
        LittleEndian.load (block.take (4 - rest.length)) * 256 ^ rest.length := by
      rw [Nat.add_mul, Nat.mul_right_comm, hpow, Nat.add_mul_mod_self_left]
      apply Nat.mod_eq_of_lt
      rw [← hpow]
      exact Nat.mul_lt_mul_of_pos_right hfirst (Nat.pow_pos (by decide))
    have hload' : LittleEndian.load rest < 2 ^ (8 * rest.length) := by
      rw [Nat.pow_mul]
      exact hload
    have hbits : (256 : Nat) ^ rest.length = 2 ^ (8 * rest.length) := by
      rw [Nat.pow_mul]
    rw [hover, hbits, Nat.or_comm, ← Nat.shiftLeft_eq, ← Nat.shiftLeft_add_eq_or_of_lt hload',
      Nat.shiftLeft_eq, Nat.add_comm, Nat.mul_comm]
  · rw [hsplit, Nat.add_mul_div_left _ _ (Nat.pow_pos (by decide)), Nat.div_eq_of_lt hfirst,
      Nat.zero_add]

-- Stated for variables, so that no arithmetic of the words is unfolded where a field is read.
@[simp] theorem PMurState.mk_h1 (h1 c : BitVec 32) (n : Nat) : (PMurState.mk h1 c n).h1 = h1 := rfl
@[simp] theorem PMurState.mk_c (h1 c : BitVec 32) (n : Nat) : (PMurState.mk h1 c n).c = c := rfl
@[simp] theorem PMurState.mk_n (h1 c : BitVec 32) (n : Nat) : (PMurState.mk h1 c n).n = n := rfl

theorem wordCase0_eq (s : PMurState) (w : BitVec 32) :
    wordCase0 s w = ⟨(doBlock s.h1 w).1, s.c, s.n⟩ := by
  unfold wordCase0
  rfl

theorem wordCarried_eq (down up : Nat) (s : PMurState) (w : BitVec 32) :
    wordCarried down up s w = ⟨(doBlock s.h1 (s.c >>> down ||| w <<< up)).1, w, s.n⟩ := by
  unfold wordCarried
  rfl

/-- The loop of each `case`. -/
def wordCase (n : Nat) : PMurState → BitVec 32 → PMurState :=
  if n = 0 then wordCase0 else wordCarried (8 * (4 - n)) (8 * n)

theorem wordCase_count (n : Nat) (s : PMurState) (w : BitVec 32) : (wordCase n s w).n = s.n := by
  unfold wordCase
  split
  · rw [wordCase0_eq, PMurState.mk_n]
  · rw [wordCarried_eq, PMurState.mk_n]

theorem PMurState.Carries.word {s : PMurState} {h : BitVec 32} {rest block : List UInt8}
    (hs : s.Carries h rest) {w : BitVec 32} (hblock : block.length = 4)
    (hw : w.toNat = LittleEndian.load block) :
    (wordCase s.n s w).Carries (absorb mixBlock 4 h (rest ++ block)).1
      (absorb mixBlock 4 h (rest ++ block)).2 := by
  have hshort := hs.short
  have hcount := hs.count
  have hfull : (rest ++ block.take (4 - rest.length)).length = 4 := by
    rw [List.length_append, List.length_take]
    omega
  have hdrop : (block.drop (4 - rest.length)).length = rest.length := by
    rw [List.length_drop]
    omega
  have habsorb : absorb mixBlock 4 h (rest ++ block) =
      (mixBlock h (rest ++ block.take (4 - rest.length)), block.drop (4 - rest.length)) := by
    have hblocks := @absorb_block _ _ mixBlock 4 (by decide) _ hfull
      (block.drop (4 - rest.length)) h
    rw [List.append_assoc, List.take_append_drop] at hblocks
    rw [hblocks]
    exact absorb_short (by omega) _
  obtain ⟨hmade, hleft⟩ := carried_word hshort hs.carry hblock hw
  rw [habsorb]
  unfold wordCase
  by_cases hrest : s.n = 0
  · have hnil : rest = [] := List.length_eq_zero_iff.mp (hcount.symm.trans hrest)
    subst hnil
    have hword : w = Murmur3.word block := by
      apply BitVec.eq_of_toNat_eq
      rw [word_toNat (Nat.le_of_eq hblock), hw]
    have hall : block.drop 4 = [] := List.drop_eq_nil_of_le (Nat.le_of_eq hblock)
    rw [if_pos hrest]
    refine ⟨?_, ?_, lt_of_eq_of_lt hdrop hshort, ?_⟩
    · rw [wordCase0_eq, PMurState.mk_h1, hword, doBlock_hash, hs.hash]
      dsimp only [List.length_nil]
      rw [List.nil_append, List.take_of_length_le (Nat.le_of_eq hblock)]
    · rw [wordCase0_eq, PMurState.mk_n, hrest]
      exact hdrop.symm
    · rw [wordCase0_eq, PMurState.mk_c]
      dsimp only [List.length_nil]
      rw [hall]
      exact hs.carry
  · rw [if_neg hrest, hcount]
    refine ⟨?_, ?_, lt_of_eq_of_lt hdrop hshort, ?_⟩
    · rw [wordCarried_eq, PMurState.mk_h1, hmade, doBlock_hash, hs.hash]
    · rw [wordCarried_eq, PMurState.mk_n, hcount]
      exact hdrop.symm
    · rw [wordCarried_eq, PMurState.mk_c]
      dsimp only
      rw [hdrop]
      exact hleft

/-! The loops. -/

theorem PMurState.Holds.bytes {seed : BitVec 32} (cnt : Nat) {s : PMurState} {done : List UInt8}
    (hs : s.Holds seed done) {input : PMurInput} (hcnt : cnt ≤ input.bytes.length) :
    ∃ s', doBytes cnt s input =
        some (s', ⟨input.ptr + BitVec.ofNat 64 cnt, input.bytes.drop cnt⟩) ∧
      s'.Holds seed (done ++ input.bytes.take cnt) := by
  induction cnt generalizing s done input with
  | zero =>
      refine ⟨s, ?_, ?_⟩
      · rw [doBytes, List.drop_zero, BitVec.add_zero]
      · rw [List.take_zero, List.append_nil]
        exact hs
  | succ cnt ih =>
      obtain ⟨ptr, bytes⟩ := input
      cases bytes with
      | nil => exact absurd hcnt (Nat.not_succ_le_zero cnt)
      | cons byte bytes =>
          have hbyte : (doByte s byte).Holds seed (done ++ [byte]) := by
            unfold PMurState.Holds
            rw [absorb_append (by decide)]
            exact PMurState.Carries.byte hs byte
          obtain ⟨s', hloop, hs'⟩ := @ih _ _ hbyte ⟨ptr + 1, bytes⟩
            (Nat.le_of_succ_le_succ hcnt)
          refine ⟨s', ?_, ?_⟩
          · have hptr : ptr + 1 + BitVec.ofNat 64 cnt = ptr + BitVec.ofNat 64 (cnt + 1) := by
              rw [BitVec.add_assoc, BitVec.ofNat_add, BitVec.add_comm 1]
              rfl
            rw [doBytes, hloop, List.drop_succ_cons]
            dsimp only
            rw [hptr]
          · rw [List.take_succ_cons]
            rw [List.append_assoc, List.singleton_append] at hs'
            exact hs'

theorem readUint32_spec {unalignedSafe : Bool} {input : PMurInput} (hlength : 4 ≤ input.bytes.length)
    (hptr : unalignedSafe ∨ input.ptr &&& 3 = 0) :
    ∃ w, readUint32 unalignedSafe input = some (w, ⟨input.ptr + 4, input.bytes.drop 4⟩) ∧
      w.toNat = LittleEndian.load (input.bytes.take 4) := by
  obtain ⟨ptr, bytes⟩ := input
  match bytes, hlength with
  | p :: q :: r :: t :: bytes, _ => exact ⟨_, if_pos hptr, read_toNat p q r t⟩

theorem and_three_toNat {width : Nat} (hwidth : 2 ≤ width) (x : BitVec width) :
    (x &&& 3).toNat = x.toNat % 4 := by
  have hthree : 3 % 2 ^ width = 2 ^ 2 - 1 :=
    Nat.mod_eq_of_lt (Nat.lt_of_lt_of_le (by decide) (Nat.pow_le_pow_right (by decide) hwidth))
  have hword : (3 : BitVec width).toNat = 3 % 2 ^ width := BitVec.toNat_ofNat 3 width
  rw [BitVec.toNat_and, hword, hthree, Nat.and_two_pow_sub_one_eq_mod]

theorem aligned_iff (ptr : BitVec 64) : ptr &&& 3 = 0 ↔ ptr.toNat % 4 = 0 := by
  rw [← and_three_toNat (by decide)]
  exact ⟨fun h => by rw [h]; rfl, fun h => BitVec.eq_of_toNat_eq h⟩

theorem aligned_add_four {ptr : BitVec 64} (h : ptr &&& 3 = 0) : ptr + 4 &&& 3 = 0 := by
  rw [aligned_iff] at h ⊢
  rw [BitVec.toNat_add, show (4 : BitVec 64).toNat = 4 from rfl]
  omega

theorem aligned_front (ptr : BitVec 64) :
    ptr + BitVec.ofNat 64 (-ptr &&& 3).toNat &&& 3 = 0 := by
  have hptr := ptr.isLt
  rw [aligned_iff, and_three_toNat (by decide), BitVec.toNat_add, BitVec.toNat_neg,
    BitVec.toNat_ofNat]
  omega

theorem PMurState.Holds.words {seed : BitVec 32} {unalignedSafe : Bool} {n : Nat} (count : Nat)
    {s : PMurState} {done : List UInt8} (hs : s.Holds seed done) {input : PMurInput}
    (hcount : 4 * count ≤ input.bytes.length)
    (hstart : count ≠ 0 → s.n = n ∧ (unalignedSafe ∨ input.ptr &&& 3 = 0)) :
    ∃ s' ptr, doWords unalignedSafe (wordCase n) count s input =
        some (s', ⟨ptr, input.bytes.drop (4 * count)⟩) ∧
      s'.Holds seed (done ++ input.bytes.take (4 * count)) := by
  induction count generalizing s done input with
  | zero =>
      refine ⟨s, input.ptr, ?_, ?_⟩
      · rw [doWords, Nat.mul_zero, List.drop_zero]
      · rw [Nat.mul_zero, List.take_zero, List.append_nil]
        exact hs
  | succ count ih =>
      obtain ⟨hn, hptr⟩ := hstart (Nat.succ_ne_zero count)
      obtain ⟨w, hread, hw⟩ := readUint32_spec (by omega) hptr
      have hblock : (input.bytes.take 4).length = 4 := by
        rw [List.length_take]
        omega
      have hword : (wordCase n s w).Holds seed (done ++ input.bytes.take 4) := by
        unfold PMurState.Holds
        rw [absorb_append (by decide), ← hn]
        exact PMurState.Carries.word hs hblock hw
      obtain ⟨s', ptr, hloop, hs'⟩ := @ih _ _ hword ⟨input.ptr + 4, input.bytes.drop 4⟩
        (by rw [List.length_drop]; omega)
        fun _ => ⟨(wordCase_count n s w).trans hn, hptr.imp_right aligned_add_four⟩
      refine ⟨s', ptr, ?_, ?_⟩
      · rw [doWords, hread]
        dsimp only [Option.bind_eq_bind, Option.bind_some]
        rw [hloop, List.drop_drop, Nat.mul_succ, Nat.add_comm]
      · rw [List.append_assoc, ← List.take_add, Nat.add_comm, ← Nat.mul_succ] at hs'
        exact hs'

theorem switchCarry_eq {s : PMurState} (hs : s.n < 4) (input : PMurInput) :
    switchCarry s input = doWords false (wordCase s.n) (input.bytes.length / 4) s input := by
  unfold switchCarry
  obtain h | h | h | h : s.n = 0 ∨ s.n = 1 ∨ s.n = 2 ∨ s.n = 3 := by omega
  all_goals
    rw [h]
    rfl

theorem PMurState.Holds.count {s : PMurState} {seed : BitVec 32} {done : List UInt8}
    (hs : s.Holds seed done) : s.n = done.length % 4 :=
  (PMurState.Carries.count hs).trans (absorb_rest_length (by decide) seed done)

/-- A part of the input was taken. -/
def Taken (seed : BitVec 32) (done : List UInt8) (input : PMurInput)
    (result : PMurState × PMurInput) : Prop :=
  ∃ k ≤ input.bytes.length, result.2.bytes = input.bytes.drop k ∧
    result.1.Holds seed (done ++ input.bytes.take k)

theorem Taken.trans {seed : BitVec 32} {done : List UInt8} {input : PMurInput} {k : Nat}
    {ptr : BitVec 64} {result : PMurState × PMurInput} (hk : k ≤ input.bytes.length)
    (h : Taken seed (done ++ input.bytes.take k) ⟨ptr, input.bytes.drop k⟩ result) :
    Taken seed done input result := by
  obtain ⟨j, hj, hbytes, hstate⟩ := h
  rw [List.length_drop] at hj
  refine ⟨k + j, by omega, ?_, ?_⟩
  · rw [hbytes, List.drop_drop]
  · rw [List.append_assoc, ← List.take_add] at hstate
    exact hstate

theorem PMurState.Holds.allWords {s : PMurState} {seed : BitVec 32} {done : List UInt8}
    (hs : s.Holds seed done) {unalignedSafe : Bool} {n : Nat} (input : PMurInput)
    (hstart : 4 ≤ input.bytes.length → s.n = n ∧ (unalignedSafe ∨ input.ptr &&& 3 = 0)) :
    ∃ result, doWords unalignedSafe (wordCase n) (input.bytes.length / 4) s input = some result ∧
      Taken seed done input result := by
  have hcount : 4 * (input.bytes.length / 4) ≤ input.bytes.length := by omega
  obtain ⟨s', ptr, hloop, hs'⟩ := hs.words (input.bytes.length / 4) hcount
    fun h => hstart (by omega)
  exact ⟨_, hloop, _, by omega, rfl, hs'⟩

theorem PMurState.Holds.front {s : PMurState} {seed : BitVec 32} {done : List UInt8}
    (hs : s.Holds seed done) {input : PMurInput} (i : Nat) (hi : i < 4)
    {next : PMurState × PMurInput → Option (PMurState × PMurInput)}
    (hnext : ∀ {s' : PMurState} {done' : List UInt8} {input' : PMurInput}, s'.Holds seed done' →
      (4 ≤ input'.bytes.length → s'.n = (done.length + i) % 4 ∧
        input'.ptr = input.ptr + BitVec.ofNat 64 i) →
      ∃ result, next (s', input') = some result ∧ Taken seed done' input' result) :
    ∃ result, (doFront i s input).bind next = some result ∧ Taken seed done input result := by
  unfold doFront
  split
  case isTrue hfront =>
    obtain ⟨s', hloop, hs'⟩ := hs.bytes i hfront.2
    have hcount := hs'.count
    rw [List.length_append, List.length_take, Nat.min_eq_left hfront.2] at hcount
    obtain ⟨result, hresult, htaken⟩ := @hnext _ _
      ⟨input.ptr + BitVec.ofNat 64 i, input.bytes.drop i⟩ hs' fun _ => ⟨hcount, rfl⟩
    rw [hloop]
    exact ⟨result, hresult, htaken.trans hfront.2⟩
  case isFalse hfront =>
    apply hnext hs
    intro hlong
    have hzero : i = 0 := by omega
    subst hzero
    exact ⟨hs.count, (BitVec.add_zero input.ptr).symm⟩

theorem PMurState.Holds.chunk {s : PMurState} {seed : BitVec 32} {done : List UInt8}
    (hs : s.Holds seed done) (unalignedSafe : Bool) (input : PMurInput) :
    ∃ result, doChunk unalignedSafe s input = some result ∧ Taken seed done input result := by
  have hcount := hs.count
  cases unalignedSafe with
  | true =>
      have hmask : (4 - s.n) &&& 3 = (4 - s.n) % 4 := Nat.and_two_pow_sub_one_eq_mod _ 2
      apply hs.front ((4 - s.n) &&& 3) (by omega)
      intro s' done' input' hs' hstart
      apply hs'.allWords (n := 0) input'
      intro hlong
      obtain ⟨hn, -⟩ := hstart hlong
      exact ⟨by omega, Or.inl rfl⟩
  | false =>
      apply hs.front (-input.ptr &&& 3).toNat (by rw [and_three_toNat (by decide)]; omega)
      intro s' done' input' hs' hstart
      have hcount' := hs'.count
      show ∃ result, switchCarry s' input' = some result ∧ _
      rw [switchCarry_eq (by omega)]
      apply hs'.allWords input'
      intro hlong
      obtain ⟨-, hptr⟩ := hstart hlong
      rw [hptr]
      exact ⟨rfl, Or.inr (aligned_front input.ptr)⟩

/-! The carry between two chunks. -/

theorem packed_count (c : BitVec 32) {n : Nat} (hn : n < 4) :
    ((c &&& ~~~0xff ||| BitVec.ofNat 32 n) &&& 3).toNat = n := by
  have hmask : (~~~0xff : BitVec 32) &&& 3 = 0#32 := by decide
  rw [BitVec.and_or_distrib_right, BitVec.and_assoc, hmask, BitVec.and_zero, BitVec.zero_or,
    and_three_toNat (by decide), BitVec.toNat_ofNat]
  omega

theorem packed_shift (c : BitVec 32) {n : Nat} (hn : n < 4) (k : Nat) :
    (c &&& ~~~0xff ||| BitVec.ofNat 32 n) >>> (8 + k) = c >>> (8 + k) := by
  have hcount : BitVec.ofNat 32 n >>> 8 = 0#32 := by
    apply BitVec.eq_of_toNat_eq
    rw [BitVec.toNat_ushiftRight, Nat.shiftRight_eq_div_pow, BitVec.toNat_ofNat]
    show n % 2 ^ 32 / 2 ^ 8 = 0
    omega
  have hmask : (~~~0xff : BitVec 32) >>> 8 = BitVec.allOnes 32 >>> 8 := by decide
  have hones : c >>> 8 &&& BitVec.allOnes 32 >>> 8 = c >>> 8 := by
    rw [← BitVec.ushiftRight_and_distrib, BitVec.and_allOnes]
  rw [BitVec.shiftRight_add, BitVec.shiftRight_add, BitVec.ushiftRight_or_distrib,
    BitVec.ushiftRight_and_distrib, hcount, hmask, hones, BitVec.or_zero]

/-- The hash and the carry between two chunks. -/
def PMurHolds (seed : BitVec 32) (done : List UInt8) (s : BitVec 32 × BitVec 32) : Prop :=
  PMurState.Holds { h1 := s.1, c := s.2, n := (s.2 &&& 3).toNat } seed done

theorem PMurState.Holds.packed {s : PMurState} {seed : BitVec 32} {done : List UInt8}
    (hs : s.Holds seed done) :
    PMurHolds seed done (s.h1, s.c &&& ~~~0xff ||| BitVec.ofNat 32 s.n) := by
  have hn : s.n < 4 := (PMurState.Carries.count hs).symm ▸ PMurState.Carries.short hs
  have hshort := PMurState.Carries.short hs
  have hhash : s.h1 = (absorb mixBlock 4 seed done).1 := PMurState.Carries.hash hs
  refine ⟨hhash, ?_, hshort, ?_⟩
  · rw [← PMurState.Carries.count hs]
    exact packed_count s.c hn
  · obtain ⟨k, hk⟩ : ∃ k, 8 * (4 - (absorb mixBlock 4 seed done).2.length) = 8 + k :=
      Nat.exists_eq_add_of_le (by omega)
    have hcarry := PMurState.Carries.carry hs
    have hpow : 256 ^ (4 - (absorb mixBlock 4 seed done).2.length) = 2 ^ (8 + k) := by
      rw [← hk, Nat.pow_mul]
    rw [hpow, ← Nat.shiftRight_eq_div_pow, ← BitVec.toNat_ushiftRight] at hcarry ⊢
    rw [← hcarry]
    exact congrArg BitVec.toNat (packed_shift s.c hn k)

theorem PMurHolds.process {seed : BitVec 32} {done : List UInt8} {s : BitVec 32 × BitVec 32}
    (hs : PMurHolds seed done s) (unalignedSafe : Bool) (ptr : BitVec 64) (key : List UInt8) :
    ∃ s', pMurHash32Process unalignedSafe s.1 s.2 ptr key = some s' ∧
      PMurHolds seed (done ++ key) s' := by
  obtain ⟨⟨s₁, input⟩, hchunk, k, -, hbytes, hs₁⟩ :=
    PMurState.Holds.chunk hs unalignedSafe ⟨ptr, key⟩
  obtain ⟨s₂, hlast, hs₂⟩ := hs₁.bytes input.bytes.length (Nat.le_refl _)
  rw [List.take_length, hbytes, List.append_assoc, List.take_append_drop] at hs₂
  unfold pMurHash32Process
  dsimp only [Option.bind_eq_bind]
  rw [hchunk, Option.bind_some]
  dsimp only
  rw [hlast, Option.bind_some]
  exact ⟨_, rfl, hs₂.packed⟩

theorem pMurHolds_seed (seed : BitVec 32) : PMurHolds seed [] (seed, 0) := by
  unfold PMurHolds PMurState.Holds
  rw [absorb_short (by decide)]
  have hcount : ((0 : BitVec 32) &&& 3).toNat = 0 := by decide
  exact ⟨rfl, hcount, Nat.zero_lt_succ 3, Nat.zero_div (256 ^ 4)⟩

theorem PMurHolds.result {seed : BitVec 32} {done : List UInt8} {s : BitVec 32 × BitVec 32}
    (hs : PMurHolds seed done s) :
    pMurHash32Result s.1 s.2 (BitVec.ofNat 32 done.length) = Murmur3.hash seed done := by
  have hcount : (s.2 &&& 3).toNat = (absorb mixBlock 4 seed done).2.length :=
    PMurState.Carries.count hs
  have hshort := PMurState.Carries.short hs
  have hhash : s.1 = (absorb mixBlock 4 seed done).1 := PMurState.Carries.hash hs
  have htail : s.2 >>> ((4 - (absorb mixBlock 4 seed done).2.length) * 8) =
      word (absorb mixBlock 4 seed done).2 := by
    apply BitVec.eq_of_toNat_eq
    rw [word_toNat (Nat.le_of_lt hshort), BitVec.toNat_ushiftRight, Nat.shiftRight_eq_div_pow,
      Nat.mul_comm, Nat.pow_mul]
    exact PMurState.Carries.carry hs
  have hmix : (if (absorb mixBlock 4 seed done).2.length ≠ 0 then
      s.1 ^^^ scrambleK1 (s.2 >>> ((4 - (absorb mixBlock 4 seed done).2.length) * 8)) else s.1) =
      mixTail (absorb mixBlock 4 seed done).1 (absorb mixBlock 4 seed done).2 := by
    rw [htail, hhash, scrambleK1_eq]
    cases (absorb mixBlock 4 seed done).2 with
    | nil => rfl
    | cons byte rest => exact if_pos (Nat.succ_ne_zero rest.length)
  unfold pMurHash32Result Murmur3.hash
  dsimp only
  rw [hcount, hmix]
  rfl

theorem PMurHolds.run {seed : BitVec 32} {done : List UInt8} {s : BitVec 32 × BitVec 32}
    (hs : PMurHolds seed done s) (unalignedSafe : Bool) (chunks : List (BitVec 64 × List UInt8)) :
    ∃ s', chunks.foldlM (fun s chunk =>
        pMurHash32Process unalignedSafe s.1 s.2 chunk.1 chunk.2) s = some s' ∧
      PMurHolds seed (done ++ chunks.flatMap (·.2)) s' := by
  induction chunks generalizing s done with
  | nil =>
      rw [List.flatMap_nil, List.append_nil]
      exact ⟨s, rfl, hs⟩
  | cons chunk chunks ih =>
      obtain ⟨s₁, hfirst, hs₁⟩ := hs.process unalignedSafe chunk.1 chunk.2
      obtain ⟨s', hrest, hs'⟩ := ih hs₁
      refine ⟨s', ?_, ?_⟩
      · rw [List.foldlM_cons, hfirst]
        exact hrest
      · rw [List.flatMap_cons, ← List.append_assoc]
        exact hs'

theorem pMurHash32_eq (unalignedSafe : Bool) (seed : BitVec 32) (ptr : BitVec 64)
    (key : List UInt8) : pMurHash32 unalignedSafe seed ptr key = some (Murmur3.hash seed key) := by
  obtain ⟨s, hprocess, hs⟩ := (pMurHolds_seed seed).process unalignedSafe ptr key
  rw [List.nil_append] at hs
  unfold pMurHash32
  dsimp only [Option.bind_eq_bind]
  rw [hprocess, Option.bind_some, ← hs.result]

/-- The tables of `beer_assoc.h`: the keys are strings, and `MUR_SEED` is 13. -/
def assocKeyed {ν : Type} (key : ν → List UInt8) : Keyed (List UInt8) ν where
  key
  hash k := ⟨Murmur3.hash 13 k⟩

theorem assocKeyed_hash {ν : Type} (key : ν → List UInt8) (unalignedSafe : Bool) (ptr : BitVec 64)
    (k : List UInt8) :
    pMurHash32 unalignedSafe 13 ptr k = some ((assocKeyed key).hash k).toBitVec :=
  pMurHash32_eq unalignedSafe 13 ptr k

end BeeC
