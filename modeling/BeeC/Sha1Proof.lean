import BeeC.Sha1
import BeeC.Wire.SecureHash
import Mathlib.Tactic.IntervalCases

namespace BeeC

open BeeC.Wire.Absorb
open BeeC.Wire.Memory
open BeeC.Wire.SecureHash

/-! The functions of the macros. -/

theorem rol_eq (value : BitVec 32) {bits : Nat} (h : bits < 32) :
    rol value bits = value.rotateLeft bits := by
  rw [BitVec.rotateLeft_def, Nat.mod_eq_of_lt h]
  rfl

theorem swap_eq (p q r s : UInt8) (l : BitVec 32)
    (hl : l = (p.toBitVec.setWidth 32 ||| q.toBitVec.setWidth 32 <<< 8 |||
      r.toBitVec.setWidth 32 <<< 16 ||| s.toBitVec.setWidth 32 <<< 24)) :
    (rol l 24 &&& 0xff00ff00 ||| rol l 8 &&& 0x00ff00ff) = word p q r s := by
  subst hl
  unfold rol word
  apply BitVec.eq_of_getLsbD_eq
  intro i hi
  interval_cases i <;> simp

theorem choice_eq (w x y : BitVec 32) :
    (w &&& (x ^^^ y)) ^^^ y = (w &&& x) ^^^ (~~~w &&& y) := by
  apply BitVec.eq_of_getLsbD_eq
  intro i hi
  simp only [BitVec.getLsbD_xor, BitVec.getLsbD_and, BitVec.getLsbD_not, hi]
  cases w.getLsbD i <;> cases x.getLsbD i <;> cases y.getLsbD i <;> rfl

theorem majority_eq (w x y : BitVec 32) :
    ((w ||| x) &&& y ||| w &&& x) = (w &&& x) ^^^ (w &&& y) ^^^ (x &&& y) := by
  apply BitVec.eq_of_getLsbD_eq
  intro i hi
  simp only [BitVec.getLsbD_xor, BitVec.getLsbD_and, BitVec.getLsbD_or]
  cases w.getLsbD i <;> cases x.getLsbD i <;> cases y.getLsbD i <;> rfl

/-! The registers, which are turned by one from line to line. -/

/-- The working variables of the standard in front of the `i`-th line. -/
def turned (i : Nat) (regs : Sha1Regs) : Words :=
  ⟨regs.get (sha1Reg i 0), regs.get (sha1Reg i 1), regs.get (sha1Reg i 2), regs.get (sha1Reg i 3),
    regs.get (sha1Reg i 4)⟩

theorem get_ofFn {n : Nat} (f : Fin n → BitVec 32) (i : Fin n) : (Vector.ofFn f).get i = f i :=
  Vector.getElem_ofFn i.isLt

theorem get_set {n : Nat} (v : Vector (BitVec 32) n) (i j : Fin n) (x : BitVec 32) :
    (v.set i x).get j = if i = j then x else v.get j := by
  show (v.set i x)[j.val] = if i = j then x else v[j.val]
  rw [Vector.getElem_set]
  by_cases hij : i = j
  · rw [if_pos hij, if_pos (congrArg Fin.val hij)]
  · rw [if_neg hij, if_neg fun h => hij (Fin.ext h)]

theorem sha1Reg_ne (i : Nat) {p q : Nat} (hp : p < 5) (hq : q < 5) (hne : p ≠ q) :
    sha1Reg i p ≠ sha1Reg i q := by
  intro heq
  have hval := congrArg Fin.val heq
  unfold sha1Reg at hval
  dsimp only at hval
  omega

theorem sha1Reg_succ (i p : Nat) : sha1Reg (i + 1) (p + 1) = sha1Reg i p := by
  apply Fin.ext
  unfold sha1Reg
  dsimp only
  omega

theorem sha1Reg_succ_zero (i : Nat) : sha1Reg (i + 1) 0 = sha1Reg i 4 := by
  apply Fin.ext
  unfold sha1Reg
  dsimp only
  omega

theorem turned_macro (mix : BitVec 32 → BitVec 32 → BitVec 32 → BitVec 32) (constant : BitVec 32)
    (expand : Sha1Block → Nat → BitVec 32 × Sha1Block) (i : Nat) (s : Sha1Regs × Sha1Block) :
    let t := turned i s.1
    turned (i + 1) (sha1Macro mix constant expand (sha1Reg i 0) (sha1Reg i 1) (sha1Reg i 2)
        (sha1Reg i 3) (sha1Reg i 4) i s).1 =
      ⟨t.e + (mix t.b t.c t.d + (expand s.2 i).1 + constant + rol t.a 5), t.a, rol t.b 30, t.c,
        t.d⟩ := by
  have h01 := sha1Reg_ne i (p := 4) (q := 0) (by decide) (by decide) (by decide)
  have h11 := sha1Reg_ne i (p := 1) (q := 0) (by decide) (by decide) (by decide)
  have h41 := sha1Reg_ne i (p := 4) (q := 1) (by decide) (by decide) (by decide)
  have h14 := sha1Reg_ne i (p := 1) (q := 4) (by decide) (by decide) (by decide)
  have h42 := sha1Reg_ne i (p := 4) (q := 2) (by decide) (by decide) (by decide)
  have h12 := sha1Reg_ne i (p := 1) (q := 2) (by decide) (by decide) (by decide)
  have h43 := sha1Reg_ne i (p := 4) (q := 3) (by decide) (by decide) (by decide)
  have h13 := sha1Reg_ne i (p := 1) (q := 3) (by decide) (by decide) (by decide)
  unfold turned sha1Macro
  rw [sha1Reg_succ_zero, sha1Reg_succ i 0, sha1Reg_succ i 1, sha1Reg_succ i 2, sha1Reg_succ i 3]
  simp only [get_set, if_neg h01, if_neg h11, if_neg h41, if_neg h14, if_neg h42, if_neg h12,
    if_neg h43, if_neg h13, if_true]

/-! The schedule, of which the last sixteen words are kept. -/

theorem index16_eq_iff (s t : Nat) : index16 s = index16 t ↔ s % 16 = t % 16 := by
  unfold index16
  rw [Fin.mk.injEq, show (15 : Nat) = 2 ^ 4 - 1 from rfl, Nat.and_two_pow_sub_one_eq_mod,
    Nat.and_two_pow_sub_one_eq_mod]

/-- What holds in front of the `i`-th line. -/
structure Sha1At (buffer : List UInt8) (first : Words) (i : Nat) (s : Sha1Regs × Sha1Block) :
    Prop where
  regs : turned i s.1 = (List.range i).foldl (step (schedule buffer)) first
  window : ∀ t < i, i ≤ t + 16 → s.2.get (index16 t) = schedule buffer t
  raw : ∀ t, i ≤ t → t < 16 → s.2.get (index16 t) = (sha1Block buffer).get (index16 t)

theorem Sha1At.blk0_eq {buffer : List UInt8} {first : Words} {i : Nat} {s : Sha1Regs × Sha1Block}
    (h : Sha1At buffer first i s) (hi : i < 16) :
    blk0 s.2 i =
      (schedule buffer i, s.2.set (index16 i).val (schedule buffer i) (index16 i).isLt) := by
  have hindex : (index16 i).val = i :=
    (Nat.and_two_pow_sub_one_eq_mod i 4).trans (Nat.mod_eq_of_lt hi)
  have hword : (rol (s.2.get (index16 i)) 24 &&& 0xff00ff00 |||
      rol (s.2.get (index16 i)) 8 &&& 0x00ff00ff) = schedule buffer i := by
    rw [schedule_of_lt buffer hi]
    apply swap_eq
    rw [h.raw i (Nat.le_refl i) hi, sha1Block, get_ofFn, hindex]
  unfold blk0
  dsimp only
  rw [hword]

theorem Sha1At.blk_eq {buffer : List UInt8} {first : Words} {i : Nat} {s : Sha1Regs × Sha1Block}
    (h : Sha1At buffer first i s) (hi : 16 ≤ i) :
    blk s.2 i =
      (schedule buffer i, s.2.set (index16 i).val (schedule buffer i) (index16 i).isLt) := by
  have hback : ∀ ahead back, ahead + back = 16 → 0 < back →
      s.2.get (index16 (i + ahead)) = schedule buffer (i - back) := by
    intro ahead back hsum hpos
    rw [(index16_eq_iff (i + ahead) (i - back)).mpr (by omega)]
    exact h.window (i - back) (by omega) (by omega)
  have hword : rol (s.2.get (index16 (i + 13)) ^^^ s.2.get (index16 (i + 8)) ^^^
      s.2.get (index16 (i + 2)) ^^^ s.2.get (index16 i)) 1 = schedule buffer i := by
    have hsame := hback 0 16 rfl (by decide)
    rw [Nat.add_zero] at hsame
    rw [hback 13 3 rfl (by decide), hback 8 8 rfl (by decide), hback 2 14 rfl (by decide), hsame,
      rol_eq _ (by decide), schedule_of_ge buffer hi]
  unfold blk
  dsimp only
  rw [hword]

theorem sum_eq_step (w : Nat → BitVec 32) (t : Words) (i : Nat) :
    (⟨t.e + (mix i t.b t.c t.d + w i + constant i + t.a.rotateLeft 5), t.a, t.b.rotateLeft 30, t.c,
      t.d⟩ : Words) = step w t i := by
  unfold step
  congr 1
  ac_rfl

theorem Sha1At.line {buffer : List UInt8} {first : Words} {i : Nat} {s : Sha1Regs × Sha1Block}
    (h : Sha1At buffer first i s) : Sha1At buffer first (i + 1) (sha1Line s i) := by
  -- which macro it is, by what it mixes, its constant, and how it comes to the word
  have hmacro : ∃ f k expand, sha1Line s i = sha1Macro f k expand (sha1Reg i 0) (sha1Reg i 1)
      (sha1Reg i 2) (sha1Reg i 3) (sha1Reg i 4) i s ∧ (∀ x y z, f x y z = mix i x y z) ∧
      k = constant i ∧
      expand s.2 i =
      (schedule buffer i, s.2.set (index16 i).val (schedule buffer i) (index16 i).isLt) := by
    unfold sha1Line mix constant
    by_cases h16 : i < 16
    · rw [if_pos h16]
      simp only [if_pos (show i < 20 by omega)]
      exact ⟨_, _, blk0, rfl, choice_eq, rfl, h.blk0_eq h16⟩
    · have hblk := h.blk_eq (Nat.le_of_not_lt h16)
      rw [if_neg h16]
      by_cases h20 : i < 20
      · simp only [if_pos h20]
        exact ⟨_, _, blk, rfl, choice_eq, rfl, hblk⟩
      · by_cases h40 : i < 40
        · simp only [if_neg h20, if_pos h40]
          exact ⟨_, _, blk, rfl, fun x y z => rfl, rfl, hblk⟩
        · by_cases h60 : i < 60
          · simp only [if_neg h20, if_neg h40, if_pos h60]
            exact ⟨_, _, blk, rfl, majority_eq, rfl, hblk⟩
          · simp only [if_neg h20, if_neg h40, if_neg h60]
            exact ⟨_, _, blk, rfl, fun x y z => rfl, rfl, hblk⟩
  obtain ⟨f, k, expand, hline, hmix, hconstant, hexpand⟩ := hmacro
  have hblock : (sha1Line s i).2 = s.2.set (index16 i) (schedule buffer i) := by
    rw [hline]
    exact congrArg Prod.snd hexpand
  refine ⟨?_, ?_, ?_⟩
  · rw [hline, turned_macro, h.regs, List.range_succ, List.foldl_append, List.foldl_cons,
      List.foldl_nil, hexpand, hmix, hconstant, rol_eq _ (by decide), rol_eq _ (by decide)]
    exact sum_eq_step _ _ i
  · intro t ht hlast
    rw [hblock, get_set]
    by_cases hti : t = i
    · rw [if_pos (by rw [hti]), hti]
    · rw [if_neg fun heq => by have := (index16_eq_iff i t).mp heq; omega]
      exact h.window t (by omega) (by omega)
  · intro t ht hlt
    rw [hblock, get_set, if_neg fun heq => by have := (index16_eq_iff i t).mp heq; omega]
    exact h.raw t (by omega) hlt

/-- The words of a state. -/
def Sha1Regs.words (state : Sha1Regs) : Words := turned 0 state

theorem sha1Transform_words (state : Sha1Regs) (buffer : List UInt8) :
    Sha1Regs.words (sha1Transform state buffer) = compress (Sha1Regs.words state) buffer := by
  have hall : ∀ i, Sha1At buffer (Sha1Regs.words state) i
      ((List.range i).foldl sha1Line (state, sha1Block buffer)) := by
    intro i
    induction i with
    | zero => exact ⟨rfl, fun t ht => absurd ht (Nat.not_lt_zero t), fun t _ _ => rfl⟩
    | succ i ih =>
        rw [List.range_succ, List.foldl_append]
        exact ih.line
  have hregs := (hall 80).regs
  unfold compress
  dsimp only
  rw [← hregs]
  unfold sha1Transform Sha1Regs.words turned
  simp only [get_ofFn]
  rfl

end BeeC
