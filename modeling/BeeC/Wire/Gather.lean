import Mathlib.Data.List.Basic

namespace BeeC.Wire.Gather

inductive Part where
  | scratch (offset length : Nat)
  | outside (bytes : List UInt8)
  deriving DecidableEq, Repr

namespace Part

def length : Part → Nat
  | scratch _ length => length
  | outside bytes => bytes.length

/-- The bytes of a part when the scratch block has the given contents. -/
def bytes (mem : List UInt8) : Part → List UInt8
  | scratch offset length => (mem.drop offset).take length
  | outside bytes => bytes

end Part

def gather (mem : List UInt8) (parts : List Part) : List UInt8 :=
  (parts.map (Part.bytes mem)).flatten

/-- The ranges of the scratch block follow one another without a gap, from one offset to
another. -/
def Contiguous (stop : Nat) : Nat → List Part → Prop
  | start, [] => start = stop
  | start, .scratch offset length :: parts => offset = start ∧ Contiguous stop (start + length) parts
  | start, .outside _ :: parts => Contiguous stop start parts

@[simp] theorem gather_nil (mem : List UInt8) : gather mem [] = [] := rfl

@[simp] theorem gather_cons (mem : List UInt8) (part : Part) (parts : List Part) :
    gather mem (part :: parts) = part.bytes mem ++ gather mem parts := rfl

@[simp] theorem gather_append (mem : List UInt8) (parts more : List Part) :
    gather mem (parts ++ more) = gather mem parts ++ gather mem more := by
  simp [gather]

theorem gather_scratch_add (mem : List UInt8) (offset length more : Nat) :
    gather mem [.scratch offset (length + more)] =
      gather mem [.scratch offset length] ++ gather mem [.scratch (offset + length) more] := by
  simp [Part.bytes, List.take_add, List.drop_drop]

theorem gather_scratch {before data after : List UInt8} {offset length : Nat}
    (hoffset : offset = before.length) (hlength : length = data.length) :
    gather (before ++ (data ++ after)) [.scratch offset length] = data := by
  subst hoffset hlength
  simp [Part.bytes]

theorem Contiguous.append {start middle stop : Nat} {parts more : List Part}
    (h : Contiguous middle start parts) (hmore : Contiguous stop middle more) :
    Contiguous stop start (parts ++ more) := by
  induction parts generalizing start with
  | nil =>
      cases h
      exact hmore
  | cons part parts ih =>
      cases part with
      | scratch offset length => exact ⟨h.1, ih h.2⟩
      | outside bytes => exact ih h

end BeeC.Wire.Gather
