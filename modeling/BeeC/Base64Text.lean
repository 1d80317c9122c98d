import BeeC.Base64
import Mathlib.Tactic.Ring

namespace BeeC

open BeeC.Wire

theorem base64EncodeValue_eq {v : Nat} (hv : v < 64) :
    base64EncodeValue v = Wire.Base64.digit v := by
  have hall : ∀ v : Fin 64, base64EncodeValue v.val = Wire.Base64.digit v.val := by decide
  exact hall ⟨v, hv⟩

theorem and_shiftRight {a m j k : Nat} (hm : m >>> k = 2 ^ j - 1) (ha : a < 2 ^ (j + k)) :
    (a &&& m) >>> k = a / 2 ^ k := by
  have hlt : a / 2 ^ k < 2 ^ j := Nat.div_lt_of_lt_mul (by rwa [← Nat.pow_add, Nat.add_comm])
  rw [Nat.shiftRight_and_distrib, hm, Nat.and_two_pow_sub_one_eq_mod, Nat.shiftRight_eq_div_pow,
    Nat.mod_eq_of_lt hlt]

theorem and_shiftLeft (a j k : Nat) : (a &&& (2 ^ j - 1)) <<< k = a % 2 ^ j * 2 ^ k := by
  rw [Nat.and_two_pow_sub_one_eq_mod, Nat.shiftLeft_eq]

theorem or_low {high low k : Nat} (hlow : low < 2 ^ k) :
    high * 2 ^ k ||| low = high * 2 ^ k + low := by
  rw [← Nat.shiftLeft_eq, Nat.shiftLeft_add_eq_or_of_lt hlow]

/-- The line feed behind the group that is the last one of its line. -/
def lineFeed (column : Nat) : List UInt8 := if column + 1 = 18 then [Base64.newline] else []

/-- The column behind a group. -/
def nextColumn (column : Nat) : Nat := if column + 1 = 18 then 0 else column + 1

theorem encode_group (column : Nat) (a b c : UInt8) (rest : List UInt8) :
    Base64.encode 18 column (a :: b :: c :: rest) =
      (Base64.sextets [a, b, c]).map Base64.digit ++
        (lineFeed column ++ Base64.encode 18 (nextColumn column) rest) := by
  unfold lineFeed nextColumn
  rw [Base64.encode]
  split <;> rfl

/-- What the encoder stores in so much room, with the end of the text, and what it returns. -/
def base64EncodeFrom (state s : Base64EncodeState) (input : List UInt8) (room : Nat) :
    List UInt8 × Nat :=
  let (out, s) := base64EncodeBlock state input room s
  let (tail, res) := base64EncodeBlockend (room - out.length) s
  (out ++ tail, out.length + res)

/-! The turns of the encoder, where there is room for what they store. -/

section Encoder

variable {state : Base64EncodeState} {room : Nat}

theorem encodeFrom_turn {s s' : Base64EncodeState} {input input' front : List UInt8}
    (h : base64EncodeBlock state input room s =
      (front ++ (base64EncodeBlock state input' (room - front.length) s').1,
        (base64EncodeBlock state input' (room - front.length) s').2)) :
    base64EncodeFrom state s input room =
      (front ++ (base64EncodeFrom state s' input' (room - front.length)).1,
        front.length + (base64EncodeFrom state s' input' (room - front.length)).2) := by
  unfold base64EncodeFrom
  rw [h]
  dsimp only
  rw [List.length_append, List.append_assoc, Nat.add_assoc, Nat.sub_add_eq]

theorem encodeFrom_stepA (result column : Nat) (hroom : 0 < room) (a : UInt8)
    (input : List UInt8) :
    base64EncodeFrom state ⟨.stepA, result, column⟩ (a :: input) room =
      ([Base64.digit (a.toNat / 4)] ++ (base64EncodeFrom state
          ⟨.stepB, a.toNat % 4 * 16, column⟩ input (room - 1)).1,
        1 + (base64EncodeFrom state ⟨.stepB, a.toNat % 4 * 16, column⟩ input (room - 1)).2) := by
  apply encodeFrom_turn
  have ha : a.toNat < 256 := a.toNat_lt
  have hhigh : (a.toNat &&& 0xfc) >>> 2 = a.toNat / 4 := and_shiftRight (j := 6) rfl ha
  have hlow : (a.toNat &&& 0x03) <<< 4 = a.toNat % 4 * 16 := and_shiftLeft a.toNat 2 4
  rw [base64EncodeBlock]
  dsimp only
  rw [if_neg (Nat.ne_of_gt hroom), hhigh, hlow, base64EncodeValue_eq (by omega)]
  rfl

theorem encodeFrom_stepB {x : Nat} (hx : x < 4) (column : Nat) (hroom : 0 < room) (b : UInt8)
    (input : List UInt8) :
    base64EncodeFrom state ⟨.stepB, x * 16, column⟩ (b :: input) room =
      ([Base64.digit (x * 16 + b.toNat / 16)] ++ (base64EncodeFrom state
          ⟨.stepC, b.toNat % 16 * 4, column⟩ input (room - 1)).1,
        1 + (base64EncodeFrom state ⟨.stepC, b.toNat % 16 * 4, column⟩ input (room - 1)).2) := by
  apply encodeFrom_turn
  have hb : b.toNat < 256 := b.toNat_lt
  have hhigh : (b.toNat &&& 0xf0) >>> 4 = b.toNat / 16 := and_shiftRight (j := 4) rfl hb
  have hlow : (b.toNat &&& 0x0f) <<< 2 = b.toNat % 16 * 4 := and_shiftLeft b.toNat 4 2
  have hor : x * 16 ||| b.toNat / 16 = x * 16 + b.toNat / 16 := or_low (k := 4) (by omega)
  rw [base64EncodeBlock]
  dsimp only
  rw [if_neg (Nat.ne_of_gt hroom), hhigh, hlow, hor, base64EncodeValue_eq (by omega)]
  rfl

theorem encodeFrom_stepC {x : Nat} (hx : x < 16) (column : Nat) (hroom : 2 < room) (c : UInt8)
    (input : List UInt8) :
    base64EncodeFrom state ⟨.stepC, x * 4, column⟩ (c :: input) room =
      ((Base64.digit (x * 4 + c.toNat / 64) :: Base64.digit (c.toNat % 64) ::
          lineFeed column) ++ (base64EncodeFrom state
            ⟨.stepA, c.toNat % 64, nextColumn column⟩ input
            (room - ((lineFeed column).length + 2))).1,
        (lineFeed column).length + 2 + (base64EncodeFrom state
          ⟨.stepA, c.toNat % 64, nextColumn column⟩ input
          (room - ((lineFeed column).length + 2))).2) := by
  apply encodeFrom_turn
  have hc : c.toNat < 256 := c.toNat_lt
  have hhigh : (c.toNat &&& 0xc0) >>> 6 = c.toNat / 64 := and_shiftRight (j := 2) rfl hc
  have hlow : c.toNat &&& 0x3f = c.toNat % 64 := Nat.and_two_pow_sub_one_eq_mod c.toNat 6
  have hor : x * 4 ||| c.toNat / 64 = x * 4 + c.toNat / 64 := or_low (k := 2) (by omega)
  have hnewline : base64Newline column (room - 2) =
      some (lineFeed column, nextColumn column) := by
    unfold base64Newline base64CharsPerLine lineFeed nextColumn
    by_cases hfull : column + 1 = 18
    · rw [if_pos (by omega), if_neg (by omega), if_pos hfull, if_pos hfull]
      rfl
    · rw [if_neg (by omega), if_neg hfull, if_neg hfull]
  have hleft : room - 2 - (lineFeed column).length =
      room - ((lineFeed column).length + 2) := by omega
  rw [base64EncodeBlock]
  dsimp only
  rw [if_neg (by omega), hnewline]
  dsimp only
  rw [hhigh, hlow, hor, base64EncodeValue_eq (by omega), base64EncodeValue_eq (by omega),
    hleft]
  rfl

theorem encodeFrom_nil (s : Base64EncodeState) : base64EncodeFrom state s [] room = base64EncodeBlockend room s := by
  unfold base64EncodeFrom
  rw [base64EncodeBlock]
  dsimp only
  rw [List.nil_append, List.length_nil, Nat.zero_add, Nat.sub_zero]

end Encoder

theorem base64EncodeFrom_eq (state : Base64EncodeState) : (input : List UInt8) →
    (column result room : Nat) → (Base64.encode 18 column input).length < room →
    base64EncodeFrom state ⟨.stepA, result, column⟩ input room =
      (Base64.encode 18 column input ++ [0], (Base64.encode 18 column input).length)
  | a :: b :: c :: rest, column, result, room, hroom => by
      have hb : b.toNat < 256 := b.toNat_lt
      rw [encode_group, List.length_append, List.length_append, List.length_map] at hroom
      have hgroup : (Base64.sextets [a, b, c]).length = 4 := rfl
      rw [encodeFrom_stepA _ _ (by omega), encodeFrom_stepB (by omega) _ (by omega),
        encodeFrom_stepC (by omega) _ (by omega),
        base64EncodeFrom_eq state rest (nextColumn column) _ _ (by omega), encode_group]
      dsimp only
      rw [Prod.mk.injEq]
      constructor
      · rw [List.append_assoc ((Base64.sextets [a, b, c]).map Base64.digit),
          List.append_assoc (lineFeed column)]
        rfl
      · rw [List.length_append, List.length_append, List.length_map, hgroup]
        omega
  | [a, b], column, result, room, hroom => by
      have hlength : (Base64.encode 18 column [a, b]).length = 4 := rfl
      rw [encodeFrom_stepA _ _ (by omega), encodeFrom_stepB (by omega) _ (by omega),
        encodeFrom_nil]
      unfold base64EncodeBlockend
      dsimp only
      rw [if_neg (by omega), base64EncodeValue_eq (by omega), if_neg (by simp only [List.length_cons, List.length_nil]; omega)]
      rfl
  | [a], column, result, room, hroom => by
      have hlength : (Base64.encode 18 column [a]).length = 4 := rfl
      rw [encodeFrom_stepA _ _ (by omega), encodeFrom_nil]
      unfold base64EncodeBlockend
      dsimp only
      rw [if_neg (by omega), base64EncodeValue_eq (by omega), if_neg (by simp only [List.length_cons, List.length_nil]; omega)]
      rfl
  | [], column, result, room, hroom => by
      rw [encodeFrom_nil]
      unfold base64EncodeBlockend
      dsimp only
      exact if_neg (Nat.not_le_of_gt hroom)

theorem base64Encode_eq (input : List UInt8) {outLen : Nat}
    (hroom : (Base64.encode 18 0 input).length < outLen) :
    base64Encode input outLen =
      (Base64.encode 18 0 input ++ [0], (Base64.encode 18 0 input).length) :=
  base64EncodeFrom_eq base64EncodeStateInit input 0 0 outLen hroom

theorem encode_length : (column : Nat) → (input : List UInt8) → column < 18 →
    (Base64.encode 18 column input).length =
      (input.length + 2) / 3 * 4 + (column + input.length / 3) / 18
  | column, a :: b :: c :: rest, hcolumn => by
      have hgroup : (Base64.sextets [a, b, c]).length = 4 := rfl
      have hnext : nextColumn column < 18 := by
        unfold nextColumn
        split <;> omega
      have hcolumns : (lineFeed column).length + (nextColumn column + rest.length / 3) / 18 =
          (column + (rest.length + 3) / 3) / 18 := by
        unfold lineFeed nextColumn
        split
        · rw [List.length_singleton]
          omega
        · rw [List.length_nil]
          omega
      rw [encode_group, List.length_append, List.length_append, List.length_map, hgroup,
        encode_length (nextColumn column) rest hnext, List.length_cons, List.length_cons,
        List.length_cons]
      omega
  | column, [a, b], hcolumn => by
      rw [show (Base64.encode 18 column [a, b]).length = 4 from rfl, List.length_cons,
        List.length_singleton]
      omega
  | column, [a], hcolumn => by
      rw [show (Base64.encode 18 column [a]).length = 4 from rfl, List.length_singleton]
      omega
  | column, [], hcolumn => by
      rw [Base64.encode, List.length_nil]
      omega

theorem base64Bufsize_eq (n : Nat) : base64Bufsize n =
    if n < 2 ^ 29 then some ((n * 4 / 3 + 4 + (n * 4 / 3 + 4 + 71) / 72 : Nat) : Int) else none := by
  have hquotient : ((n : Int) * 4).tdiv 3 = (n : Int) * 4 / 3 :=
    Int.tdiv_eq_ediv_of_nonneg (by omega)
  have hnewlines : ((n : Int) * 4 / 3 + 4 + 72 - 1).tdiv 72 =
      ((n : Int) * 4 / 3 + 4 + 72 - 1) / 72 := Int.tdiv_eq_ediv_of_nonneg (by omega)
  have hline : ((base64CharsPerLine : Nat) : Int) = 72 := rfl
  simp only [base64Bufsize, hline, hquotient, hnewlines]
  by_cases hn : n < 2 ^ 29
  · rw [if_pos hn, if_pos (by unfold FitsInt; omega), Option.some_inj]
    push_cast
    omega
  · rw [if_neg hn, if_neg (by unfold FitsInt; omega)]

theorem encode_lt_bufsize {input : List UInt8} {size : Int}
    (h : base64Bufsize input.length = some size) :
    ((Base64.encode 18 0 input).length : Int) < size := by
  rw [base64Bufsize_eq] at h
  split at h
  · rw [encode_length 0 input (by decide), ← Option.some.inj h]
    omega
  · cases h

end BeeC
