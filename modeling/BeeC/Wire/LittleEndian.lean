import Mathlib.Data.List.Basic
import Mathlib.Tactic.Ring

namespace BeeC.Wire.LittleEndian

/-- The low `width` bytes of a number, least significant first. -/
def store : (width : Nat) → Nat → List UInt8
  | 0, _ => []
  | width + 1, n => UInt8.ofNat n :: store width (n / 256)

/-- The number that a string of little-endian bytes spells. -/
def load : List UInt8 → Nat
  | [] => 0
  | byte :: bytes => byte.toNat + 256 * load bytes

@[simp] theorem store_length (width n : Nat) : (store width n).length = width := by
  induction width generalizing n with
  | zero => rfl
  | succ width ih => simp [store, ih]

theorem load_lt (bytes : List UInt8) : load bytes < 256 ^ bytes.length := by
  induction bytes with
  | nil => exact Nat.one_pos
  | cons byte bytes ih =>
      have hbyte : byte.toNat < 256 := byte.toNat_lt
      rw [load, List.length_cons, pow_succ]
      omega

theorem load_append (front back : List UInt8) :
    load (front ++ back) = load front + 256 ^ front.length * load back := by
  induction front with
  | nil => simp [load]
  | cons byte front ih =>
      rw [List.cons_append, load, load, ih, List.length_cons, pow_succ]
      ring

theorem load_store (width n : Nat) : load (store width n) = n % 256 ^ width := by
  induction width generalizing n with
  | zero => simp [store, load, Nat.mod_one]
  | succ width ih =>
      have hbyte : (UInt8.ofNat n).toNat = n % 256 := UInt8.toNat_ofNat'
      rw [store, load, ih, hbyte, pow_succ', Nat.mod_mul]

theorem load_store_of_lt {width n : Nat} (h : n < 256 ^ width) : load (store width n) = n := by
  rw [load_store, Nat.mod_eq_of_lt h]

theorem store_load (bytes : List UInt8) : store bytes.length (load bytes) = bytes := by
  induction bytes with
  | nil => rfl
  | cons byte bytes ih =>
      have hbyte : byte.toNat < 256 := byte.toNat_lt
      have hlow : UInt8.ofNat (byte.toNat + 256 * load bytes) = byte := by
        apply UInt8.toNat.inj
        rw [UInt8.toNat_ofNat']
        omega
      have hhigh : (byte.toNat + 256 * load bytes) / 256 = load bytes := by omega
      rw [List.length_cons, load, store, hlow, hhigh, ih]

end BeeC.Wire.LittleEndian
