import BeeC.Wire.Base64
import BeeC.Wire.Memory

/-!
The text that a salt comes in (`base64.c`), with `char` signed. The result of decoding is missing
where a byte outside of the buffer or past the end of a table would be read or stored.
-/

namespace BeeC

open BeeC.Wire

/-- `enum base64_encodestep`. -/
inductive Base64EncodeStep where
  | stepA
  | stepB
  | stepC
  deriving DecidableEq, Repr

/-- `struct base64_encodestate`. The result has six bits. -/
structure Base64EncodeState where
  step : Base64EncodeStep
  result : Nat
  stepcount : Nat

def base64EncodeStateInit : Base64EncodeState where
  step := .stepA
  result := 0
  stepcount := 0

/-- The array `encoding`: letters, digits, `+`, `/`, and the zero behind them. -/
def base64Encoding : List UInt8 :=
  ((List.range 26).map (65 + ·) ++ (List.range 26).map (97 + ·) ++ (List.range 10).map (48 + ·) ++
    [43, 47, 0]).map UInt8.ofNat

def base64EncodeValue (value : Nat) : UInt8 :=
  if value > base64Encoding.length - 1 then 61 else base64Encoding.getD value 0

/-- `BASE64_CHARS_PER_LINE`. -/
def base64CharsPerLine : Nat := 72

/-- The number is an `int`. -/
def FitsInt (z : Int) : Prop := -2147483648 ≤ z ∧ z < 2147483648

instance (z : Int) : Decidable (FitsInt z) := inferInstanceAs (Decidable (_ ∧ _))

/-- `base64_bufsize`. There is no result where a product or a sum overflows. -/
def base64Bufsize (binsize : Int) : Option Int :=
  let datasize := (binsize * 4).tdiv 3 + 4
  let newlines := (datasize + base64CharsPerLine - 1).tdiv base64CharsPerLine
  if FitsInt (binsize * 4) ∧ FitsInt (datasize + base64CharsPerLine) ∧
      FitsInt (datasize + newlines) then some (datasize + newlines)
  else none

/-- The line feed behind `step_C`: the characters of it, and how many steps were counted. It is
missing where the function would return because no room is left for it. -/
def base64Newline (stepcount room : Nat) : Option (List UInt8 × Nat) :=
  if (stepcount + 1) * 4 = base64CharsPerLine then
    if room = 0 then none else some ([10], 0)
  else some ([], stepcount + 1)

/-- `base64_encode_block`: what it stores where so much room is left, and the state that it leaves.
Each turn is a `case` that is not left again; `state` is the one in memory, `s` is the one in the
variables. -/
def base64EncodeBlock (state : Base64EncodeState) :
    List UInt8 → (room : Nat) → Base64EncodeState → List UInt8 × Base64EncodeState
  | [], _, s => ([], s)
  | fragment :: input, room, s =>
      match s.step with
      | .stepA =>
          if room = 0 then ([], s)
          else
            let out := base64EncodeValue ((fragment.toNat &&& 0xfc) >>> 2)
            let rest := base64EncodeBlock state input (room - 1)
              { s with step := .stepB, result := (fragment.toNat &&& 0x03) <<< 4 }
            (out :: rest.1, rest.2)
      | .stepB =>
          if room = 0 then ([], s)
          else
            let out := base64EncodeValue (s.result ||| (fragment.toNat &&& 0xf0) >>> 4)
            let rest := base64EncodeBlock state input (room - 1)
              { s with step := .stepC, result := (fragment.toNat &&& 0x0f) <<< 2 }
            (out :: rest.1, rest.2)
      | .stepC =>
          if room ≤ 2 then ([], s)
          else
            let out := base64EncodeValue (s.result ||| (fragment.toNat &&& 0xc0) >>> 6)
            let last := base64EncodeValue (fragment.toNat &&& 0x3f)
            match base64Newline s.stepcount (room - 2) with
            | none => ([out, last], { state with stepcount := s.stepcount + 1 })
            | some (newline, stepcount) =>
                let rest := base64EncodeBlock state input (room - 2 - newline.length)
                  { step := .stepA, result := fragment.toNat &&& 0x3f, stepcount }
                (out :: last :: (newline ++ rest.1), rest.2)

/-- `base64_encode_blockend`: what it stores, and what it returns. -/
def base64EncodeBlockend (room : Nat) (state : Base64EncodeState) : List UInt8 × Nat :=
  let finish (out : List UInt8) : List UInt8 × Nat :=
    if room ≤ out.length then (out, out.length) else (out ++ [0], out.length)
  match state.step with
  | .stepB =>
      if room ≤ 2 then ([], 0) else finish [base64EncodeValue state.result, 61, 61]
  | .stepC =>
      if room ≤ 1 then ([], 0) else finish [base64EncodeValue state.result, 61]
  | .stepA => finish []

/-- `base64_encode`: what it stores, and what it returns. -/
def base64Encode (input : List UInt8) (outLen : Nat) : List UInt8 × Nat :=
  let (out, state) := base64EncodeBlock base64EncodeStateInit input outLen base64EncodeStateInit
  let (tail, res) := base64EncodeBlockend (outLen - out.length) state
  (out ++ tail, out.length + res)

/-- `enum base64_decodestep`. -/
inductive Base64DecodeStep where
  | stepA
  | stepB
  | stepC
  | stepD
  deriving DecidableEq, Repr

/-- The array `decoding`. -/
def base64Decoding : List Int :=
  [62, -1, -1, -1, 63, 52, 53, 54, 55, 56, 57, 58,
    59, 60, 61, -1, -1, -1, -2, -1, -1, -1, 0, 1,
    2, 3, 4, 5, 6, 7, 8, 9, 10, 11, 12, 13,
    14, 15, 16, 17, 18, 19, 20, 21, 22, 23, 24, 25,
    -1, -1, -1, -1, -1, -1, 26, 27, 28, 29, 30, 31,
    32, 33, 34, 35, 36, 37, 38, 39, 40, 41, 42, 43,
    44, 45, 46, 47, 48, 49, 50, 51]

/-- `base64_decode_value`. `decoding_size` is the size of the table. -/
def base64DecodeValue (value : UInt8) : Option Int :=
  let codepos := value.toInt8.toInt - 43
  if codepos < 0 ∨ codepos > base64Decoding.length then some (-1)
  else base64Decoding[codepos.toNat]?

/-- `*out_pos = value`. -/
def storeAt (out : List UInt8) (pos : Nat) (value : UInt8) : Option (List UInt8) :=
  if pos < out.length then some (out.set pos value) else none

/-- `*out_pos++ |= high`, and then `*out_pos = low` if there is room. -/
def orAndStore (out : List UInt8) (pos : Nat) (high low : Nat) : Option (List UInt8) := do
  let old ← out[pos]?
  let out ← storeAt out pos (old ||| UInt8.ofNat high)
  if pos + 1 < out.length then storeAt out (pos + 1) (UInt8.ofNat low) else some out

/-- What a `case` does with a fragment that is not negative. -/
def base64DecodeFragment (fragment : Nat) (step : Base64DecodeStep) (out : List UInt8) (pos : Nat) :
    Option (Base64DecodeStep × List UInt8 × Nat) :=
  match step with
  | .stepA => do
      let out ← storeAt out pos (UInt8.ofNat ((fragment &&& 0x3f) <<< 2))
      some (.stepB, out, pos)
  | .stepB => do
      let out ← orAndStore out pos ((fragment &&& 0x30) >>> 4) ((fragment &&& 0x0f) <<< 4)
      some (.stepC, out, pos + 1)
  | .stepC => do
      let out ← orAndStore out pos ((fragment &&& 0x3c) >>> 2) ((fragment &&& 0x03) <<< 6)
      some (.stepD, out, pos + 1)
  | .stepD => do
      let old ← out[pos]?
      let out ← storeAt out pos (old ||| UInt8.ofNat (fragment &&& 0x3f))
      some (.stepA, out, pos + 1)

/-- `base64_decode_block`, from a place in the buffer on: how many bytes there are, and the buffer.
When it returns, it copies the byte at the place to its state. -/
def base64DecodeBlock : List UInt8 → Base64DecodeStep → List UInt8 → (pos : Nat) →
    Option (Nat × List UInt8)
  | [], _, out, pos => do
      let _result ← out[pos]?
      some (pos, out)
  | c :: input, step, out, pos =>
      if out.length ≤ pos then none
      else do
        let fragment ← base64DecodeValue c
        if fragment < 0 then base64DecodeBlock input step out pos
        else do
          let (step, out, pos) ← base64DecodeFragment fragment.toNat step out pos
          base64DecodeBlock input step out pos

/-- `base64_decode`, with the buffer before and after it. -/
def base64Decode (input out : List UInt8) : Option (Nat × List UInt8) := do
  let out ← storeAt out 0 0
  base64DecodeBlock input .stepA out 0

end BeeC
