import Mathlib.Data.List.Basic
import Mathlib.Tactic.Ring

namespace BeeC.Wire.BigEndian

/-- The low `width` bytes of a number, most significant first. -/
def store : (width : Nat) → Nat → List UInt8
  | 0, _ => []
  | width + 1, n => UInt8.ofNat (n / 256 ^ width) :: store width n

/-- The number that a string of big-endian bytes spells. -/
def load : List UInt8 → Nat
  | [] => 0
  | byte :: bytes => byte.toNat * 256 ^ bytes.length + load bytes

@[simp] theorem store_length (width n : Nat) : (store width n).length = width := by
  induction width with
  | zero => rfl
  | succ width ih => simp [store, ih]

theorem load_lt (bytes : List UInt8) : load bytes < 256 ^ bytes.length := by
  induction bytes with
  | nil => simp [load]
  | cons byte bytes ih =>
      have hbyte : byte.toNat + 1 ≤ 256 := byte.toNat_lt
      calc
        load (byte :: bytes) < byte.toNat * 256 ^ bytes.length + 256 ^ bytes.length := by
          simpa [load] using ih
        _ = (byte.toNat + 1) * 256 ^ bytes.length := by ring
        _ ≤ 256 * 256 ^ bytes.length := Nat.mul_le_mul_right _ hbyte
        _ = 256 ^ (byte :: bytes).length := by rw [List.length_cons, pow_succ, Nat.mul_comm]

theorem load_store (width n : Nat) : load (store width n) = n % 256 ^ width := by
  induction width with
  | zero => simp [store, load, Nat.mod_one]
  | succ width ih =>
      have hbyte : (UInt8.ofNat (n / 256 ^ width)).toNat = n / 256 ^ width % 256 :=
        UInt8.toNat_ofNat'
      rw [store, load, store_length, ih, hbyte, Nat.mod_pow_succ, Nat.mul_comm, Nat.add_comm]

theorem load_store_of_lt {width n : Nat} (h : n < 256 ^ width) :
    load (store width n) = n := by
  rw [load_store, Nat.mod_eq_of_lt h]

end BeeC.Wire.BigEndian
