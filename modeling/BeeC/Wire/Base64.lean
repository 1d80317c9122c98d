import Mathlib.Data.List.Basic

namespace BeeC.Wire.Base64

/-- The character of six bits. -/
def digit (v : Nat) : UInt8 :=
  UInt8.ofNat (if v < 26 then 65 + v else if v < 52 then 71 + v else if v < 62 then v - 4
    else if v = 62 then 43 else 47)

/-- The six bits of a character, if it is one of the alphabet. -/
def value (c : UInt8) : Option Nat :=
  let n := c.toNat
  if 65 ≤ n ∧ n ≤ 90 then some (n - 65)
  else if 97 ≤ n ∧ n ≤ 122 then some (n - 71)
  else if 48 ≤ n ∧ n ≤ 57 then some (n + 4)
  else if n = 43 then some 62
  else if n = 47 then some 63
  else none

/-- `=`. -/
def pad : UInt8 := 61

/-- A line feed. -/
def newline : UInt8 := 10

/-- Bytes as groups of six bits. The last group is filled up with zeros. -/
def sextets : List UInt8 → List Nat
  | a :: b :: c :: rest =>
      a.toNat / 4 :: (a.toNat % 4 * 16 + b.toNat / 16) :: (b.toNat % 16 * 4 + c.toNat / 64) ::
        c.toNat % 64 :: sextets rest
  | [a, b] => [a.toNat / 4, a.toNat % 4 * 16 + b.toNat / 16, b.toNat % 16 * 4]
  | [a] => [a.toNat / 4, a.toNat % 4 * 16]
  | [] => []

/-- The bytes that groups of six bits fill. -/
def octets : List Nat → List UInt8
  | a :: b :: c :: d :: rest =>
      UInt8.ofNat (a * 4 + b / 16) :: UInt8.ofNat (b % 16 * 16 + c / 4) ::
        UInt8.ofNat (c % 4 * 64 + d) :: octets rest
  | [a, b, c] => [UInt8.ofNat (a * 4 + b / 16), UInt8.ofNat (b % 16 * 16 + c / 4)]
  | [a, b] => [UInt8.ofNat (a * 4 + b / 16)]
  | _ => []

/-- The text of a message, with a line feed behind so many full groups of four characters. -/
def encode (perLine : Nat) : (column : Nat) → List UInt8 → List UInt8
  | column, a :: b :: c :: rest =>
      (sextets [a, b, c]).map digit ++
        if column + 1 = perLine then newline :: encode perLine 0 rest
        else encode perLine (column + 1) rest
  | _, [a, b] => (sextets [a, b]).map digit ++ [pad]
  | _, [a] => (sextets [a]).map digit ++ [pad, pad]
  | _, [] => []

/-- The message of a text. Characters that are not in the alphabet are skipped. -/
def decode (text : List UInt8) : List UInt8 := octets (text.filterMap value)

theorem value_digit {v : Nat} (hv : v < 64) : value (digit v) = some v := by
  have hall : ∀ v : Fin 64, value (digit v) = some v.val := by decide
  exact hall ⟨v, hv⟩

theorem sextets_lt {bytes : List UInt8} : ∀ v ∈ sextets bytes, v < 64 := by
  fun_induction sextets bytes with
  | case1 a b c rest ih =>
      have ha : a.toNat < 256 := a.toNat_lt
      have hb : b.toNat < 256 := b.toNat_lt
      have hc : c.toNat < 256 := c.toNat_lt
      simp only [List.forall_mem_cons]
      exact ⟨by omega, by omega, by omega, by omega, ih⟩
  | case2 a b =>
      have ha : a.toNat < 256 := a.toNat_lt
      have hb : b.toNat < 256 := b.toNat_lt
      simp only [List.forall_mem_cons]
      exact ⟨by omega, by omega, by omega, List.forall_mem_nil _⟩
  | case3 a =>
      have ha : a.toNat < 256 := a.toNat_lt
      simp only [List.forall_mem_cons]
      exact ⟨by omega, by omega, List.forall_mem_nil _⟩
  | case4 => exact List.forall_mem_nil _

theorem ofNat_eq (byte : UInt8) {n : Nat} (h : n = byte.toNat) : UInt8.ofNat n = byte := by
  rw [h, UInt8.ofNat_toNat]

theorem octets_sextets (bytes : List UInt8) : octets (sextets bytes) = bytes := by
  fun_induction sextets bytes with
  | case1 a b c rest ih =>
      have hb : b.toNat < 256 := b.toNat_lt
      have hc : c.toNat < 256 := c.toNat_lt
      rw [octets, ih, ofNat_eq a (by omega), ofNat_eq b (by omega),
        ofNat_eq c (by omega)]
  | case2 a b =>
      have hb : b.toNat < 256 := b.toNat_lt
      rw [octets, ofNat_eq a (by omega), ofNat_eq b (by omega)]
  | case3 a => rw [octets, ofNat_eq a (by omega)]
  | case4 => rfl

theorem filterMap_digits {values : List Nat} (h : ∀ v ∈ values, v < 64) :
    (values.map digit).filterMap value = values := by
  induction values with
  | nil => rfl
  | cons v values ih =>
      rw [List.map_cons, List.filterMap_cons, value_digit (h v List.mem_cons_self)]
      dsimp only
      rw [ih fun w hw => h w (List.mem_cons_of_mem v hw)]

theorem encode_values (perLine column : Nat) (bytes : List UInt8) :
    (encode perLine column bytes).filterMap value = sextets bytes := by
  have hpad : value pad = none := by decide
  have hnewline : value newline = none := by decide
  fun_induction encode perLine column bytes with
  | case1 column a b c rest ihline ih =>
      have hgroup := filterMap_digits (@sextets_lt [a, b, c])
      rw [List.filterMap_append, hgroup]
      split
      · rw [List.filterMap_cons, hnewline]
        dsimp only
        rw [ihline]
        rfl
      · rw [ih]
        rfl
  | case2 column a b =>
      rw [List.filterMap_append, filterMap_digits sextets_lt, List.filterMap_cons, hpad]
      exact List.append_nil _
  | case3 column a =>
      rw [List.filterMap_append, filterMap_digits sextets_lt, List.filterMap_cons, hpad]
      dsimp only
      rw [List.filterMap_cons, hpad]
      exact List.append_nil _
  | case4 => rfl

theorem of_mem_encode {perLine column : Nat} {bytes : List UInt8} {c : UInt8}
    (h : c ∈ encode perLine column bytes) :
    (∃ v < 64, c = digit v) ∨ c = pad ∨ c = newline := by
  have hdigits {group : List UInt8} (hc : c ∈ (sextets group).map digit) : ∃ v < 64, c = digit v := by
    obtain ⟨v, hv, rfl⟩ := List.mem_map.mp hc
    exact ⟨v, sextets_lt v hv, rfl⟩
  fun_induction encode perLine column bytes with
  | case1 column a b c' rest ihline ih =>
      rcases List.mem_append.mp h with h | h
      · exact Or.inl (hdigits h)
      · split at h
        · rcases List.mem_cons.mp h with rfl | h
          · exact Or.inr (Or.inr rfl)
          · exact ihline h
        · exact ih h
  | case2 column a b =>
      rcases List.mem_append.mp h with h | h
      · exact Or.inl (hdigits h)
      · exact Or.inr (Or.inl (List.mem_singleton.mp h))
  | case3 column a =>
      rcases List.mem_append.mp h with h | h
      · exact Or.inl (hdigits h)
      · rcases List.mem_cons.mp h with h | h
        · exact Or.inr (Or.inl h)
        · exact Or.inr (Or.inl (List.mem_singleton.mp h))
  | case4 => exact absurd h List.not_mem_nil

theorem decode_encode (perLine column : Nat) (bytes : List UInt8) :
    decode (encode perLine column bytes) = bytes := by
  unfold decode
  rw [encode_values, octets_sextets]

end BeeC.Wire.Base64
