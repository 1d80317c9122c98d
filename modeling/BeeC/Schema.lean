import BeeC.Wire.Directory
import BeeC.Reply

/-!
The schema of a server: its spaces and their indexes, under their names and under their numbers
(`beer_schema.c`, `beer_assoc.h`). The hash table is a correct map. Allocations succeed, but for
one of no bytes.
-/

namespace BeeC

open BeeC.Wire.BigEndian
open BeeC.Wire.MessagePack
open BeeC.Wire.Directory

/-- `struct beer_schema_ival`. -/
structure SchemaIval where
  name : Bytes
  number : UInt32
  deriving DecidableEq, Repr

/-- `struct beer_schema_sval`. -/
structure SchemaSval where
  name : Bytes
  number : UInt32
  index : Table Bytes SchemaIval := ∅

/-- The bytes of a number in the memory of a little-endian machine, as a `struct assoc_key` with
the size of a `uint32_t` refers to them. -/
def numberKey (number : UInt32) : Bytes := (store 4 number.toNat).reverse

/-- The keys of the two nodes of an index. -/
def SchemaIval.keys (index : SchemaIval) : Bytes × Bytes := (index.name, numberKey index.number)

/-- The keys of the two nodes of a space. -/
def SchemaSval.keys (space : SchemaSval) : Bytes × Bytes := (space.name, numberKey space.number)

/-- `struct beer_schema`. The nodes of the hash refer to the records of the spaces. -/
structure Schema where
  spaceHash : Table Bytes Nat := ∅
  spaces : List SchemaSval := []
  refers : ∀ key ref, spaceHash.find key = some ref → ref < spaces.length

namespace Schema

/-- `beer_schema_new`. -/
def new : Schema where
  refers := by simp

/-- The record that `mh_assoc_find` comes to. -/
def find (schema : Schema) (key : Bytes) : Option SchemaSval :=
  (schema.spaceHash.find key).bind fun ref => schema.spaces[ref]?

/-- The two calls of `mh_assoc_put` for a space. -/
def putSpace (schema : Schema) (space : SchemaSval) : Schema where
  spaceHash := storeTwice schema.spaceHash space.keys schema.spaces.length
  spaces := schema.spaces ++ [space]
  refers := by
    intro key ref hfind
    rw [find_storeTwice] at hfind
    rw [List.length_append, List.length_singleton]
    split at hfind
    · cases hfind
      exact Nat.lt_succ_self _
    · exact Nat.lt_succ_of_lt (schema.refers key ref hfind)

/-- The two calls of `mh_assoc_put` for an index of a space. -/
def putIndex (schema : Schema) (ref : Nat) (index : SchemaIval) : Schema where
  spaceHash := schema.spaceHash
  spaces := schema.spaces.modify ref fun space =>
    { space with index := storeTwice space.index index.keys index }
  refers := by
    intro key ref hfind
    rw [List.length_modify]
    exact schema.refers key ref hfind

end Schema

/-- The name that both kinds of rows end with: `mp_decode_str`, and a copy of the text. -/
def readName (mp : Msgpuck) (tuple : Bytes) : Except Stop Bytes := do
  expect mp .str tuple
  let (nameLen, name) ← mp.decodeStr tuple
  if nameLen = 0 then throw .fail
  let _ ← Msgpuck.advance name nameLen.toNat
  return name.take nameLen.toNat

/-- What `beer_schema_add_space` reads of a row. -/
def readSpace (mp : Msgpuck) (data : Bytes) : Except Stop SchemaSval := do
  expect mp .array data
  let (_, tuple) ← mp.decodeArray data
  expect mp .uint tuple
  let (number, tuple) ← mp.decodeUint tuple
  -- the owner
  let tuple ← mp.nextValue tuple
  let name ← readName mp tuple
  return { name, number := number.toUInt32 }

/-- What `beer_schema_add_index` reads of a row, with the record of its space; there may be none.
The number of the space is decoded before its type is looked at. -/
def readIndex (mp : Msgpuck) (schema : Schema) (data : Bytes) :
    Except Stop (Option (Nat × SchemaIval)) := do
  expect mp .array data
  let (_, tuple) ← mp.decodeArray data
  let (spaceNumber, tuple) ← mp.decodeUint tuple
  expect mp .uint tuple
  let some ref := schema.spaceHash.find (numberKey spaceNumber.toUInt32) | return none
  expect mp .uint tuple
  let (number, tuple) ← mp.decodeUint tuple
  let name ← readName mp tuple
  return some (ref, { name, number := number.toUInt32 })

/-- The result of a computation, or `none` where it takes its error exit. -/
def attempt {α : Type} : Except Stop α → Except Fault (Option α)
  | .ok a => .ok (some a)
  | .error .fail => .ok none
  | .error (.fault reason) => .error reason

/-- `mp_next(data)`, over a row. -/
def nextRow (mp : Msgpuck) (data : Bytes) : Except Fault Bytes :=
  if mp.mpNext data ≤ data.length then .ok (data.drop (mp.mpNext data)) else .error .outOfBounds

def beerSchemaAddSpace (mp : Msgpuck) (schema : Schema) (data : Bytes) :
    Except Fault (Int × Schema × Bytes) := do
  match ← attempt (readSpace mp data) with
  | some space =>
      let data ← nextRow mp data
      return (0, schema.putSpace space, data)
  | none =>
      let data ← nextRow mp data
      return (-1, schema, data)

/-- `beer_schema_add_index`. For a row of an absent space, the pointer stays where it is. -/
def beerSchemaAddIndex (mp : Msgpuck) (schema : Schema) (data : Bytes) :
    Except Fault (Int × Schema × Bytes) := do
  match ← attempt (readIndex mp schema data) with
  | some (some (ref, index)) =>
      let data ← nextRow mp data
      return (0, schema.putIndex ref index, data)
  | some none => return (-1, schema, data)
  | none =>
      let data ← nextRow mp data
      return (-1, schema, data)

/-- `while (space_count-- > 0)`. -/
def addRows (add : Schema → Bytes → Except Fault (Int × Schema × Bytes)) :
    (count : Nat) → Schema → Bytes → Except Fault (Int × Schema)
  | 0, schema, _ => return (0, schema)
  | count + 1, schema, data => do
      let (rc, schema, data) ← add schema data
      if rc ≠ 0 then return (-1, schema)
      addRows add count schema data

/-- The body of `beer_schema_add_spaces` and `beer_schema_add_indexes`. -/
def addReply (mp : Msgpuck) (add : Schema → Bytes → Except Fault (Int × Schema × Bytes))
    (schema : Schema) (r : Reply) : Except Fault (Int × Schema) := do
  let data := r.dataBytes.getD []
  if (mp.mpCheck data).isNone then return (-1, schema)
  match ← attempt (do expect mp .array data; mp.decodeArray data) with
  | none => return (-1, schema)
  | some (count, tuple) => addRows add count.toNat schema tuple

def beerSchemaAddSpaces (mp : Msgpuck) (schema : Schema) (r : Reply) :
    Except Fault (Int × Schema) :=
  addReply mp (beerSchemaAddSpace mp) schema r

def beerSchemaAddIndexes (mp : Msgpuck) (schema : Schema) (r : Reply) :
    Except Fault (Int × Schema) :=
  addReply mp (beerSchemaAddIndex mp) schema r

def beerSchemaStosid (schema : Schema) (name : Bytes) : Int32 :=
  match schema.find name with
  | none => -1
  | some space => space.number.toInt32

def beerSchemaStoiid (schema : Schema) (sid : UInt32) (name : Bytes) : Int32 :=
  match schema.find (numberKey sid) with
  | none => -1
  | some space =>
      match space.index.find name with
      | none => -1
      | some index => index.number.toInt32

end BeeC
