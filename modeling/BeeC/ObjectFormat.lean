import BeeC.Object
import BeeC.Wire.Loop

namespace BeeC

open BeeC.Wire
open BeeC.Wire.Loop
open BeeC.Wire.MessagePack

/-- An argument of a variadic call, as it is promoted. A `long long` is a `long`, and a text ends
at its first zero byte, which it does not hold. -/
inductive FormatArg where
  | int (value : Int32)
  | unsigned (value : UInt32)
  | long (value : Int64)
  | unsignedLong (value : UInt64)
  | double (bits : UInt64)
  | str (text : Chunk)

namespace FormatArg

def int? : FormatArg → Option Int64
  | int value => some value.toInt64
  | unsigned value => if value < 0x80000000 then some value.toUInt64.toInt64 else none
  | _ => none

def unsigned? : FormatArg → Option Int64
  | unsigned value => some value.toUInt64.toInt64
  | int value => if 0 ≤ value then some value.toInt64 else none
  | _ => none

def long? : FormatArg → Option Int64
  | long value => some value
  | unsignedLong value => if value < 0x8000000000000000 then some value.toInt64 else none
  | _ => none

/-- The value is kept in a signed variable. -/
def unsignedLong? : FormatArg → Option Int64
  | unsignedLong value => some value.toInt64
  | long value => if 0 ≤ value then some value else none
  | _ => none

def length? : FormatArg → Option UInt32
  | unsigned value => some value
  | int value => if 0 ≤ value then some value.toUInt32 else none
  | _ => none

def bool? : FormatArg → Option Bool
  | int value => some (value ≠ 0)
  | _ => none

def double? : FormatArg → Option UInt64
  | double bits => some bits
  | _ => none

def str? : FormatArg → Option Chunk
  | str text => some text
  | _ => none

end FormatArg

/-- `va_arg`. An argument that is missing or of another type is undefined behaviour; a type that
differs only in having a sign will do for a value that both can represent. -/
def vaArg {α : Type} (get : FormatArg → Option α) (vl : List FormatArg) :
    Except Fault (α × List FormatArg) :=
  match vl with
  | [] => .error .wrongType
  | arg :: vl =>
      match get arg with
      | none => .error .wrongType
      | some value => .ok (value, vl)

/-- What one turn of the loop of `beer_object_vformat` finds: the call to make, if any, and what is
left of the format and of the arguments. -/
abbrev FormatTurn := Option ObjectCall × List Char × List FormatArg

/-- A specifier that takes one argument. -/
def formatArg {α : Type} (get : FormatArg → Option α) (call : α → ObjectCall) (f : List Char)
    (vl : List FormatArg) : Except Fault FormatTurn := do
  let (value, vl) ← vaArg get vl
  return (some (call value), f, vl)

/-- `%.*s`: the length, and the text it is cut off at. -/
def formatCut (f : List Char) (vl : List FormatArg) : Except Fault FormatTurn := do
  let (len, vl) ← vaArg FormatArg.length? vl
  let (str, vl) ← vaArg FormatArg.str? vl
  if str.bytes.length < len.toNat then throw .outOfBounds
  return (some (.addStr ⟨str.bytes.take len.toNat,
    lt_of_le_of_lt (List.length_take_le _ _) len.toNat_lt⟩), f, vl)

/-- What follows a `%`. The conversion of a `double` to a `float` is a parameter. -/
def formatSpecifier (toFloat : UInt64 → UInt32) (f : List Char) (vl : List FormatArg) :
    Except Fault FormatTurn :=
  match f with
  | 'd' :: f => formatArg FormatArg.int? .addInt f vl
  | 'i' :: f => formatArg FormatArg.int? .addInt f vl
  | 'u' :: f => formatArg FormatArg.unsigned? .addInt f vl
  | 's' :: f => formatArg FormatArg.str? .addStr f vl
  | '.' :: '*' :: 's' :: f => formatCut f vl
  | 'f' :: f => formatArg FormatArg.double? (fun bits => .addFloat (toFloat bits)) f vl
  | 'l' :: 'f' :: f => formatArg FormatArg.double? .addDouble f vl
  | 'b' :: f => formatArg FormatArg.bool? .addBool f vl
  | 'l' :: 'd' :: f => formatArg FormatArg.long? .addInt f vl
  | 'l' :: 'i' :: f => formatArg FormatArg.long? .addInt f vl
  | 'l' :: 'u' :: f => formatArg FormatArg.unsignedLong? .addInt f vl
  | 'l' :: 'l' :: 'd' :: f => formatArg FormatArg.long? .addInt f vl
  | 'l' :: 'l' :: 'i' :: f => formatArg FormatArg.long? .addInt f vl
  | 'l' :: 'l' :: 'u' :: f => formatArg FormatArg.unsignedLong? .addInt f vl
  | 'h' :: 'd' :: f => formatArg FormatArg.int? .addInt f vl
  | 'h' :: 'i' :: f => formatArg FormatArg.int? .addInt f vl
  | 'h' :: 'u' :: f => formatArg FormatArg.unsigned? .addInt f vl
  | 'h' :: 'h' :: 'd' :: f => formatArg FormatArg.int? .addInt f vl
  | 'h' :: 'h' :: 'i' :: f => formatArg FormatArg.int? .addInt f vl
  | 'h' :: 'h' :: 'u' :: f => formatArg FormatArg.unsigned? .addInt f vl
  | '%' :: f => .ok (none, f, vl)
  | _ => .error .assertion

/-- One turn of the loop of `beer_object_vformat`. -/
def formatTurn (toFloat : UInt64 → UInt32) (f : List Char) (vl : List FormatArg) :
    Except Fault FormatTurn :=
  match f with
  | '[' :: f => .ok (some (.addArray 0), f, vl)
  | '{' :: f => .ok (some (.addMap 0), f, vl)
  | ']' :: f => .ok (some .containerClose, f, vl)
  | '}' :: f => .ok (some .containerClose, f, vl)
  | '%' :: f => formatSpecifier toFloat f vl
  | 'N' :: 'I' :: 'L' :: f => .ok (some .addNil, f, vl)
  | _ :: f => .ok (none, f, vl)
  | [] => .ok (none, [], vl)

/-- The loop of `beer_object_vformat`, for at most so many turns. -/
def vformatLoop (mp : Msgpuck) (toFloat : UInt64 → UInt32) :
    Nat → List Char → List FormatArg → Ssize → Object → Except Fault (Ssize × Object)
  | 0, _, _, result, s => .ok (result, s)
  | _ + 1, [], _, result, s => .ok (result, s)
  | limit + 1, c :: f, vl, result, s => do
      let (call, f, vl) ← formatTurn toFloat (c :: f) vl
      match call with
      | none => vformatLoop mp toFloat limit f vl result s
      | some call =>
          let (rv, s) ← call.run mp s
          if rv = -1 then return (-1, s)
          vformatLoop mp toFloat limit f vl (result + rv) s

/-- `beer_object_vformat`. Each turn takes one character of the format at least. -/
def beerObjectVformat (mp : Msgpuck) (toFloat : UInt64 → UInt32) (s : Object) (fmt : List Char)
    (vl : List FormatArg) : Except Fault (Ssize × Object) :=
  let (rc, s) := s.setType .packed
  if rc = -1 then .ok (-1, s) else vformatLoop mp toFloat fmt.length fmt vl 0 s

/-- The calls that the loop makes as long as all of them succeed. -/
def formatCalls (toFloat : UInt64 → UInt32) :
    Nat → List Char → List FormatArg → Except Fault (List ObjectCall)
  | 0, _, _ => .ok []
  | _ + 1, [], _ => .ok []
  | limit + 1, c :: f, vl => do
      let (call, f, vl) ← formatTurn toFloat (c :: f) vl
      let calls ← formatCalls toFloat limit f vl
      return call.toList ++ calls

/-- A format with arguments that suit it. -/
structure Format (toFloat : UInt64 → UInt32) where
  fmt : List Char
  vl : List FormatArg
  calls : List ObjectCall
  calls_eq : formatCalls toFloat fmt.length fmt vl = .ok calls

/-- Make the calls one after the other, and sum up their results. The first that fails ends it. -/
def performSum (mp : Msgpuck) : List ObjectCall → Ssize → Object → Except Fault (Ssize × Object)
  | [], result, s => .ok (result, s)
  | call :: calls, result, s => do
      let (rv, s) ← call.run mp s
      if rv = -1 then return (-1, s)
      performSum mp calls (result + rv) s

theorem vformatLoop_eq {mp : Msgpuck} {toFloat : UInt64 → UInt32} {limit : Nat} {f : List Char}
    {vl : List FormatArg} {calls : List ObjectCall}
    (h : formatCalls toFloat limit f vl = .ok calls) (result : Ssize) (s : Object) :
    vformatLoop mp toFloat limit f vl result s = performSum mp calls result s := by
  induction limit generalizing f vl calls result s with
  | zero =>
      cases h
      rfl
  | succ limit ih =>
      cases f with
      | nil =>
          cases h
          rfl
      | cons c f =>
          rw [formatCalls] at h
          rw [vformatLoop]
          cases hturn : formatTurn toFloat (c :: f) vl with
          | error reason =>
              rw [hturn] at h
              cases h
          | ok turn =>
              obtain ⟨call, f', vl'⟩ := turn
              rw [hturn] at h
              simp only [ok_bind] at h ⊢
              cases hrest : formatCalls toFloat limit f' vl' with
              | error reason =>
                  rw [hrest] at h
                  cases h
              | ok rest =>
                  rw [hrest] at h
                  cases h
                  cases call with
                  | none => exact ih hrest result s
                  | some call =>
                      simp only [Option.toList_some, List.singleton_append, performSum, ih hrest]

theorem Format.vformat_eq {toFloat : UInt64 → UInt32} (format : Format toFloat) {mp : Msgpuck}
    {s : Object} (hwrcnt : s.wrcnt = 0) :
    beerObjectVformat mp toFloat s format.fmt format.vl =
      performSum mp format.calls 0 { s with type := .packed } := by
  have htype : s.setType .packed = (0, { s with type := .packed }) := by
    rw [Object.setType, hwrcnt]
    rfl
  rw [beerObjectVformat, htype]
  exact vformatLoop_eq format.calls_eq 0 _

end BeeC
