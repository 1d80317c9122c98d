import BeeC.Base64Text
import BeeC.Wire.Absorb

namespace BeeC

open BeeC.Wire
open BeeC.Wire.Absorb

/-- Four groups of six bits are three bytes. -/
def takeQuad (full : List UInt8) (block : List Nat) : List UInt8 := full ++ Base64.octets block

theorem octets_quad (a b c d : Nat) (rest : List Nat) :
    Base64.octets (a :: b :: c :: d :: rest) =
      Base64.octets [a, b, c, d] ++ Base64.octets rest := rfl

theorem octets_absorb (full : List UInt8) (values : List Nat) :
    full ++ Base64.octets values =
      (absorb takeQuad 4 full values).1 ++ Base64.octets (absorb takeQuad 4 full values).2 := by
  induction values using blocks_induction (show 0 < 4 by decide) generalizing full with
  | short values hshort => rw [absorb_short hshort]
  | block values hlong ih =>
      rw [absorb_step (by decide) hlong, ← ih]
      match values, hlong with
      | a :: b :: c :: d :: rest, _ =>
          rw [octets_quad, ← List.append_assoc]
          rfl

/-- What the decoder keeps: the bytes of the full groups, and of the groups of six bits behind them
the bytes that are there already, and the bits of the next one. -/
inductive Base64Pending (full back : List UInt8) :
    List Nat → Base64DecodeStep → List UInt8 → Nat → Prop
  | start (x : UInt8) : Base64Pending full back [] .stepA (full ++ x :: back) full.length
  | one (a : Nat) : a < 64 →
      Base64Pending full back [a] .stepB (full ++ UInt8.ofNat (a * 4) :: back) full.length
  | two (a b : Nat) : b < 64 →
      Base64Pending full back [a, b] .stepC
        ((full ++ [UInt8.ofNat (a * 4 + b / 16)]) ++ UInt8.ofNat (b % 16 * 16) :: back)
        (full.length + 1)
  | three (a b c : Nat) : c < 64 →
      Base64Pending full back [a, b, c] .stepD
        ((full ++ [UInt8.ofNat (a * 4 + b / 16), UInt8.ofNat (b % 16 * 16 + c / 4)]) ++
          UInt8.ofNat (c % 4 * 64) :: back)
        (full.length + 2)

theorem storeAt_eq (front : List UInt8) (x : UInt8) (back : List UInt8) (value : UInt8) :
    storeAt (front ++ x :: back) front.length value = some (front ++ value :: back) := by
  unfold storeAt
  rw [if_pos (by rw [List.length_append, List.length_cons]; omega), List.set_append_right _ _
    (Nat.le_refl _), Nat.sub_self]
  rfl

theorem getElem?_front (front : List UInt8) (x : UInt8) (back : List UInt8) :
    (front ++ x :: back)[front.length]? = some x := by
  rw [List.getElem?_append_right (Nat.le_refl _), Nat.sub_self]
  rfl

theorem orAndStore_eq (front : List UInt8) (x y : UInt8) (back : List UInt8) (high low : Nat) :
    orAndStore (front ++ x :: y :: back) front.length high low =
      some ((front ++ [x ||| UInt8.ofNat high]) ++ UInt8.ofNat low :: back) := by
  have hnext := storeAt_eq (front ++ [x ||| UInt8.ofNat high]) y back (UInt8.ofNat low)
  rw [List.append_assoc, List.singleton_append, List.length_append, List.length_singleton] at hnext
  unfold orAndStore
  rw [getElem?_front]
  dsimp only [Option.bind_eq_bind, Option.bind_some]
  rw [storeAt_eq]
  dsimp only [Option.bind_some]
  rw [if_pos (by rw [List.length_append, List.length_cons, List.length_cons]; omega), hnext]

theorem ofNat_or {high low k : Nat} (hlow : low < 2 ^ k) :
    UInt8.ofNat (high * 2 ^ k) ||| UInt8.ofNat low = UInt8.ofNat (high * 2 ^ k + low) := by
  rw [← or_low hlow, UInt8.ofNat_or]

theorem Base64Pending.fragment {full back out : List UInt8} {rest : List Nat}
    {step : Base64DecodeStep} {pos : Nat} (h : Base64Pending full back rest step out pos)
    {v : Nat} (hv : v < 64) (hback : rest ≠ [] → back ≠ []) :
    ∃ step' out' count, base64DecodeFragment v step out pos = some (step', out', pos + count) ∧
      Base64Pending (absorb takeQuad 4 full (rest ++ [v])).1 (back.drop count)
        (absorb takeQuad 4 full (rest ++ [v])).2 step' out' (pos + count) := by
  have hmask : v &&& 0x3f = v := (Nat.and_two_pow_sub_one_eq_mod v 6).trans (Nat.mod_eq_of_lt hv)
  cases h with
  | start x =>
      have hshort : ([] ++ [v]).length < 4 := Nat.lt_of_sub_eq_succ rfl
      rw [absorb_short hshort]
      have hlow : (v &&& 0x3f) <<< 2 = v * 4 := by
        rw [hmask, Nat.shiftLeft_eq]
      unfold base64DecodeFragment
      dsimp only [Option.bind_eq_bind]
      rw [storeAt_eq, hlow]
      exact ⟨_, _, 0, rfl, .one v hv⟩
  | one a ha =>
      obtain ⟨y, back, rfl⟩ := List.exists_cons_of_ne_nil (hback (List.cons_ne_nil _ _))
      have hshort : ([a] ++ [v]).length < 4 := Nat.lt_of_sub_eq_succ rfl
      rw [absorb_short hshort]
      have hhigh : (v &&& 0x30) >>> 4 = v / 16 := and_shiftRight (j := 2) rfl hv
      have hlow : (v &&& 0x0f) <<< 4 = v % 16 * 16 := and_shiftLeft v 4 4
      have hor : UInt8.ofNat (a * 4) ||| UInt8.ofNat (v / 16) = UInt8.ofNat (a * 4 + v / 16) :=
        ofNat_or (k := 2) (by omega)
      unfold base64DecodeFragment
      dsimp only [Option.bind_eq_bind]
      rw [orAndStore_eq, hhigh, hlow, hor]
      exact ⟨_, _, 1, rfl, .two a v hv⟩
  | two a b hb =>
      obtain ⟨y, back, rfl⟩ := List.exists_cons_of_ne_nil (hback (List.cons_ne_nil _ _))
      have hshort : ([a, b] ++ [v]).length < 4 := Nat.lt_of_sub_eq_succ rfl
      rw [absorb_short hshort]
      have hhigh : (v &&& 0x3c) >>> 2 = v / 4 := and_shiftRight (j := 4) rfl hv
      have hlow : (v &&& 0x03) <<< 6 = v % 4 * 64 := and_shiftLeft v 2 6
      have hor : UInt8.ofNat (b % 16 * 16) ||| UInt8.ofNat (v / 4) =
          UInt8.ofNat (b % 16 * 16 + v / 4) := ofNat_or (k := 4) (by omega)
      have hlength : full.length + 1 = (full ++ [UInt8.ofNat (a * 4 + b / 16)]).length := by
        rw [List.length_append, List.length_singleton]
      unfold base64DecodeFragment
      dsimp only [Option.bind_eq_bind]
      rw [hlength, orAndStore_eq, hhigh, hlow, hor, ← hlength, List.append_assoc full]
      exact ⟨_, _, 1, rfl, .three a b v hv⟩
  | three a b c hc =>
      obtain ⟨y, back, rfl⟩ := List.exists_cons_of_ne_nil (hback (List.cons_ne_nil _ _))
      have hor : UInt8.ofNat (c % 4 * 64) ||| UInt8.ofNat v = UInt8.ofNat (c % 4 * 64 + v) :=
        ofNat_or (k := 6) hv
      have hquad : takeQuad full [a, b, c, v] =
          (full ++ [UInt8.ofNat (a * 4 + b / 16), UInt8.ofNat (b % 16 * 16 + c / 4)]) ++
            [UInt8.ofNat (c % 4 * 64 + v)] := by
        unfold takeQuad
        rw [List.append_assoc]
        rfl
      have hlength : full.length + 2 =
          (full ++ [UInt8.ofNat (a * 4 + b / 16), UInt8.ofNat (b % 16 * 16 + c / 4)]).length := by
        rw [List.length_append]
        rfl
      have hnext := @Base64Pending.start (takeQuad full [a, b, c, v]) back y
      have hexact : absorb takeQuad 4 full ([a, b, c] ++ [v]) = (takeQuad full [a, b, c, v], []) :=
        absorb_exact (n := 4) (by decide) rfl full
      rw [hexact]
      unfold base64DecodeFragment
      dsimp only [Option.bind_eq_bind]
      rw [hlength, getElem?_front]
      dsimp only [Option.bind_some]
      rw [storeAt_eq, hmask, hor]
      refine ⟨_, _, 1, rfl, ?_⟩
      rw [hquad, List.length_append, List.append_assoc _ [_]] at hnext
      rw [hquad]
      exact hnext

/-- What is done with a fragment: it is skipped if it is negative. -/
def keptFragment (fragment : Int) : Option Nat :=
  if fragment < 0 then none else some fragment.toNat

/-- The table has the values of the alphabet, and is read past its end for one character. -/
theorem base64DecodeValue_eq (c : UInt8) :
    (base64DecodeValue c).map keptFragment =
      if c = 0x7b then none else some (Base64.value c) := by
  have hall : ∀ n : Fin 256, (base64DecodeValue (UInt8.ofNat n.val)).map keptFragment =
      if UInt8.ofNat n.val = 0x7b then none else some (Base64.value (UInt8.ofNat n.val)) := by
    decide +kernel
  have hc := hall ⟨c.toNat, c.toNat_lt⟩
  rw [UInt8.ofNat_toNat] at hc
  exact hc

theorem base64Decode_cons (c : UInt8) (input : List UInt8) (step : Base64DecodeStep)
    {out : List UInt8} {pos : Nat} (hpos : pos < out.length) :
    base64DecodeBlock (c :: input) step out pos =
      if c = 0x7b then none
      else
        match Base64.value c with
        | none => base64DecodeBlock input step out pos
        | some v => (base64DecodeFragment v step out pos).bind fun s =>
            base64DecodeBlock input s.1 s.2.1 s.2.2 := by
  have hvalue := base64DecodeValue_eq c
  rw [base64DecodeBlock, if_neg (Nat.not_le_of_gt hpos)]
  cases hfragment : base64DecodeValue c with
  | none =>
      rw [hfragment] at hvalue
      split at hvalue
      case isTrue hc =>
        rw [if_pos hc]
        rfl
      case isFalse hc => exact absurd hvalue (by simp)
  | some fragment =>
      rw [hfragment, Option.map_some] at hvalue
      split at hvalue
      case isTrue hc => exact absurd hvalue (by simp)
      case isFalse hc =>
        rw [if_neg hc, ← Option.some.inj hvalue]
        unfold keptFragment
        dsimp only [Option.bind_eq_bind, Option.bind_some]
        split <;> rfl

theorem value_lt {c : UInt8} {v : Nat} (h : Base64.value c = some v) : v < 64 := by
  unfold Base64.value at h
  dsimp only at h
  grind

theorem octets_length (values : List Nat) :
    (Base64.octets values).length = 3 * values.length / 4 := by
  fun_induction Base64.octets values with
  | case1 a b c d rest ih =>
      simp only [List.length_cons, ih]
      omega
  | case2 => simp
  | case3 => simp
  | case4 values h₁ h₂ h₃ =>
      match values with
      | [] => simp
      | [a] => simp
      | [a, b] => exact absurd rfl (h₃ a b)
      | [a, b, c] => exact absurd rfl (h₂ a b c)
      | a :: b :: c :: d :: rest => exact absurd rfl (h₁ a b c d rest)

theorem Base64Pending.stored {full back out : List UInt8} {rest : List Nat}
    {step : Base64DecodeStep} {pos : Nat} (h : Base64Pending full back rest step out pos) :
    ∃ x, out = full ++ Base64.octets rest ++ x :: back ∧
      pos = (full ++ Base64.octets rest).length := by
  have hnil : Base64.octets [] = [] := rfl
  have hone (a : Nat) : Base64.octets [a] = [] := rfl
  cases h with
  | start x => exact ⟨x, by rw [hnil, List.append_nil], by rw [hnil, List.append_nil]⟩
  | one a => exact ⟨_, by rw [hone, List.append_nil], by rw [hone, List.append_nil]⟩
  | two a b => exact ⟨_, rfl, by rw [List.length_append]; rfl⟩
  | three a b c => exact ⟨_, rfl, by rw [List.length_append]; rfl⟩

theorem Base64Pending.rest_lt {full back out : List UInt8} {rest : List Nat}
    {step : Base64DecodeStep} {pos : Nat} (h : Base64Pending full back rest step out pos) :
    rest.length < 4 := by
  cases h <;> simp

theorem absorbed_eq (full : List UInt8) (rest : List Nat) (v : Nat) (values : List Nat) :
    (absorb takeQuad 4 full (rest ++ [v])).1 ++
        Base64.octets ((absorb takeQuad 4 full (rest ++ [v])).2 ++ values) =
      full ++ Base64.octets (rest ++ v :: values) := by
  rw [octets_absorb, ← absorb_append (by decide), ← octets_absorb, List.append_assoc,
    List.singleton_append]

theorem Base64Pending.pos_le {full back out : List UInt8} {rest : List Nat}
    {step : Base64DecodeStep} {pos : Nat} (h : Base64Pending full back rest step out pos)
    (values : List Nat) : pos ≤ (full ++ Base64.octets (rest ++ values)).length := by
  obtain ⟨x, -, hpos⟩ := h.stored
  rw [List.length_append, octets_length] at hpos ⊢
  rw [List.length_append]
  omega

theorem Base64Pending.block {input : List UInt8} {full back out : List UInt8} {rest : List Nat}
    {step : Base64DecodeStep} {pos : Nat} (h : Base64Pending full back rest step out pos)
    {message : List UInt8}
    (hmessage : full ++ Base64.octets (rest ++ input.filterMap Base64.value) = message)
    (hroom : message.length ≤ pos + back.length) :
    ∃ x, base64DecodeBlock input step out pos = if 0x7b ∈ input then none else
      some (message.length, message ++ x :: back.drop (message.length - pos)) := by
  induction input generalizing full back out rest step pos with
  | nil =>
      obtain ⟨x, hout, hpos⟩ := h.stored
      rw [List.filterMap_nil, List.append_nil] at hmessage
      refine ⟨x, ?_⟩
      rw [base64DecodeBlock, if_neg List.not_mem_nil, hout, hpos, getElem?_front, hmessage,
        Nat.sub_self]
      rfl
  | cons c input ih =>
      obtain ⟨x, hout, hpos⟩ := h.stored
      have hlt : pos < out.length := by
        rw [hout, List.length_append, ← hpos, List.length_cons]
        omega
      rw [base64Decode_cons c input step hlt]
      by_cases hc : c = 0x7b
      · exact ⟨x, by rw [if_pos hc, if_pos (hc ▸ List.mem_cons_self)]⟩
      · have hmem : 0x7b ∈ c :: input ↔ 0x7b ∈ input := by
          rw [List.mem_cons]
          exact or_iff_right fun h => hc h.symm
        rw [if_neg hc]
        simp only [hmem]
        cases hvalue : Base64.value c with
        | none =>
            rw [List.filterMap_cons, hvalue] at hmessage
            exact ih h hmessage hroom
        | some v =>
            rw [List.filterMap_cons, hvalue] at hmessage
            have hrest := h.rest_lt
            have hlength : message.length =
                full.length + 3 * (rest.length + ((input.filterMap Base64.value).length + 1)) / 4 := by
              rw [← hmessage, List.length_append, octets_length, List.length_append,
                List.length_cons]
            have hback : rest ≠ [] → back ≠ [] := by
              intro hne hnil
              have hpositive := List.length_pos_of_ne_nil hne
              rw [List.length_append, octets_length] at hpos
              rw [hnil, List.length_nil] at hroom
              obtain h | h | h : rest.length = 1 ∨ rest.length = 2 ∨ rest.length = 3 := by omega
              all_goals
                rw [h] at hpos hlength
                omega
            obtain ⟨step', out', count, hfragment, h'⟩ := h.fragment (value_lt hvalue) hback
            have hmessage' := (absorbed_eq full rest v (input.filterMap Base64.value)).trans hmessage
            have hpos' := h'.pos_le (input.filterMap Base64.value)
            rw [hmessage'] at hpos'
            obtain ⟨x', hblock⟩ := ih h' hmessage' (by rw [List.length_drop]; omega)
            have hdrop : (back.drop count).drop (message.length - (pos + count)) =
                back.drop (message.length - pos) := by
              rw [List.drop_drop]
              congr 1
              omega
            rw [hdrop] at hblock
            refine ⟨x', ?_⟩
            dsimp only
            rw [hfragment]
            exact hblock

theorem base64Decode_cons_eq (text : List UInt8) (first : UInt8) (back : List UInt8)
    (hroom : (Base64.decode text).length ≤ back.length) :
    ∃ x, base64Decode text (first :: back) = if 0x7b ∈ text then none else
      some ((Base64.decode text).length,
        Base64.decode text ++ x :: back.drop (Base64.decode text).length) := by
  have hmessage : [] ++ Base64.octets ([] ++ text.filterMap Base64.value) = Base64.decode text :=
    rfl
  exact (@Base64Pending.start [] back 0).block hmessage
    (by rw [List.length_nil]; omega)

theorem brace_notMem_encode (perLine column : Nat) (input : List UInt8) :
    0x7b ∉ Base64.encode perLine column input := by
  intro h
  have hdigit : ∀ v : Fin 64, (0x7b : UInt8) ≠ Base64.digit v.val := by decide
  rcases Base64.of_mem_encode h with ⟨v, hv, hc⟩ | hc | hc
  · exact hdigit ⟨v, hv⟩ hc
  · exact absurd hc (by decide)
  · exact absurd hc (by decide)

/-- A message is encoded in lines of 72 characters and read back from them, in buffers of the sizes
that are asked for. -/
theorem base64_round_trip (input out : List UInt8) {outLen : Nat}
    {size : Int} (hsize : base64Bufsize input.length = some size) (hencode : size ≤ outLen)
    (hdecode : input.length < out.length) :
    base64Encode input outLen =
        (Base64.encode 18 0 input ++ [0], (Base64.encode 18 0 input).length) ∧
      ∃ x, base64Decode (Base64.encode 18 0 input) out =
        some (input.length, input ++ x :: out.drop (input.length + 1)) := by
  have hdecoded := Base64.decode_encode 18 0 input
  obtain ⟨y, back, rfl⟩ := List.exists_cons_of_length_pos (Nat.zero_lt_of_lt hdecode)
  obtain ⟨x, htext⟩ := base64Decode_cons_eq (Base64.encode 18 0 input) y back
    (by rw [hdecoded]; exact Nat.le_of_lt_succ hdecode)
  rw [if_neg (brace_notMem_encode 18 0 input), hdecoded] at htext
  have hroom : (Base64.encode 18 0 input).length < outLen := by
    have := encode_lt_bufsize hsize
    omega
  exact ⟨base64Encode_eq input hroom, x, htext⟩

theorem base64_round_trip_sixty :
    base64Encode (List.replicate 60 0x4d) 86 =
        (Base64.encode 18 0 (List.replicate 60 0x4d) ++ [0],
          (Base64.encode 18 0 (List.replicate 60 0x4d)).length) ∧
      ∃ x, base64Decode (Base64.encode 18 0 (List.replicate 60 0x4d)) (List.replicate 62 9) =
        some (60, List.replicate 60 0x4d ++ x :: [9]) :=
  base64_round_trip (List.replicate 60 0x4d) (List.replicate 62 9)
    (show base64Bufsize 60 = some 86 by decide) (by decide) (by decide)

end BeeC
