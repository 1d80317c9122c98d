import BeeC.SchemaReplaced
import BeeC.SchemaSafety

namespace BeeC

open BeeC.Wire.MessagePack
open BeeC.Wire.Directory
open BeeC.Wire.Loop

variable {τ : Type} {t : Transport τ} {mp : Msgpuck}

/-- What is left behind by a call on the stream: its result, the schema, the number of outstanding
replies, and the number of the next request. -/
def Session.outcome (result : Int × Session τ) : Int × Schema × UInt32 × UInt64 :=
  (result.1, result.2.schema, result.2.net.wrcnt, result.2.reqid)

/-- How a reload ends, from what the loop over the replies comes to. -/
def Loading.outcome (mp : Msgpuck) (reqid : UInt64) :
    Bool × Loading × List Reply → Except Fault (Int × Schema × UInt32 × UInt64)
  | (false, l, left) => .ok (-1, l.schema, UInt32.ofNat left.length, reqid)
  | (true, l, left) => do
      let l ← l.finish mp
      return (if l.sloaded ≠ 3 then -1 else 0, l.schema, UInt32.ofNat left.length, reqid)

section Orders

variable {spaces indexes : Reply} (hspaces : spaces.sync = 127 ∧ spaces.error = none)
  (hindexes : indexes.sync = 128 ∧ indexes.error = none)

include hspaces hindexes

end Orders

namespace SpaceRow

/-- The space that is read at some values, if they have a number and a name where it has them. -/
def ofValues : List Bytes → Option SpaceRow
  | id :: _ :: name :: _ => do
      let number ← uintOf id
      let text ← textOf name
      if text = [] then none else some ⟨number, text⟩
  | _ => none

/-- The spaces of the rows before the first one that is not taken. -/
def taken : List Bytes → List SpaceRow
  | [] => []
  | row :: rows =>
      match (arrayOf row).bind fun found => ofValues (found.1 ++ rows) with
      | none => []
      | some x => x :: taken rows

/-- The keys of a schema, after the spaces of some rows are put into it. -/
def Known (schema : Schema) (rows : List SpaceRow) (key : Bytes) : Prop :=
  schema.spaceHash.find key ≠ none ∨ ∃ x ∈ rows, key = x.keys.1 ∨ key = x.keys.2

end SpaceRow

namespace IndexRow

/-- The index that is read at some values, if they have two numbers and a name where it has them. -/
def ofValues : List Bytes → Option IndexRow
  | spaceId :: id :: name :: _ => do
      let spaceNumber ← uintOf spaceId
      let number ← uintOf id
      let text ← textOf name
      if text = [] then none else some ⟨spaceNumber, number, text⟩
  | _ => none

/-- The values at which an index is read start with the number of a space, and then there is no
number of an index, or no such space, or no name. -/
def RefusedBy (Known : Bytes → Prop) : List Bytes → Prop
  | spaceId :: id :: more => ∃ number, uintOf spaceId = some number ∧
      (uintOf id = none ∨ ¬Known (numberKey (UInt32.ofNat number)) ∨ NoName more)
  | _ => False

theorem refused_iff {schema : Schema} {Known : Bytes → Prop}
    (hknown : ∀ key, schema.spaceHash.find key ≠ none ↔ Known key) (values : List Bytes) :
    Refused schema values ↔ RefusedBy Known values := by
  rcases values with _ | ⟨spaceId, _ | ⟨id, more⟩⟩
  · exact Iff.rfl
  · exact Iff.rfl
  · simp only [Refused, RefusedBy, ← hknown, ne_eq, not_not]

end IndexRow

end BeeC
