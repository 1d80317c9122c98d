import BeeC.Wire.Blocks
import BeeC.Schema

/-!
The schema as blocks of memory: the records, their names, the nodes of the hash tables, and which
of them are live (`beer_schema.c`). A hash table is a correct map from keys to nodes. Every search
and every deletion may read any of its keys, and every one of them is read here. The slots may be
in any order.
-/

namespace BeeC

open BeeC.Wire.Blocks
open BeeC.Wire.Directory
open BeeC.Wire.MessagePack

/-- What the two kinds of records have in common: a name, in a block of its own, and a number. -/
class Named (R : Type) where
  name : R → Block Bytes
  number : R → UInt32

/-- The field of a record that the key of a node refers to. -/
inductive KeyField where
  | name
  | number
  deriving DecidableEq, Repr

/-- `struct assoc_val`. -/
structure AssocVal where
  key : KeyField
  data : Nat
  deriving DecidableEq, Repr

/-- `struct mh_assoc_t`, with the nodes and the records that are allocated for it. No node is put
into two tables, and no record belongs to two tables; so they are numbered for each table. -/
structure MhAssoc (R : Type) where
  hash : Table Bytes Nat := ∅
  nodes : List (Block AssocVal) := []
  records : List (Block R) := []

namespace MhAssoc

variable {R : Type} [Named R]

/-- The bytes that a key refers to. -/
def keyOf (record : R) : KeyField → Bytes
  | .name => (Named.name record).held
  | .number => numberKey (Named.number record)

/-- Read the key of a node. -/
def readKey (a : MhAssoc R) (pos : Nat) : Except Misuse Bytes := do
  let node ← readAt a.nodes pos
  let record ← readAt a.records node.data
  match node.key with
  | .name => (Named.name record).read
  | .number => return numberKey (Named.number record)

/-- Read the keys of all nodes in the table. -/
def readKeys (a : MhAssoc R) : Except Misuse Unit :=
  a.hash.entries.forM fun entry => do
    let _ ← a.readKey entry.2
    return ()

def mhAssocFind (a : MhAssoc R) (key : Bytes) : Except Misuse (Option Nat) := do
  a.readKeys
  return a.hash.find key

/-- `mh_assoc_del`, of the slot with the key. It may go on with moving the nodes to a larger
table. -/
def mhAssocDel (a : MhAssoc R) (key : Bytes) : Except Misuse (MhAssoc R) := do
  a.readKeys
  return { a with hash := a.hash.erase key }

/-- The two calls of `mh_assoc_put` for a new record, first under its name. -/
def put (a : MhAssoc R) (record : R) : MhAssoc R where
  hash := (a.hash.insert (keyOf record .name) a.nodes.length).insert (keyOf record .number)
    (a.nodes.length + 1)
  nodes := a.nodes ++ [⟨⟨.name, a.records.length⟩, true⟩, ⟨⟨.number, a.records.length⟩, true⟩]
  records := a.records ++ [⟨record, true⟩]

/-- Each of the two `do { … } while (0)`: look for the node with a key, and delete its slot. -/
def unlink (a : MhAssoc R) (key : Bytes) : Except Misuse (Option Nat × MhAssoc R) := do
  let some av ← a.mhAssocFind key | return (none, a)
  let a ← a.mhAssocDel key
  return (some av, a)

/-- `beer_schema_ival_free(ival)` or `beer_schema_sval_free(sval)`. The function frees what belongs
to the record, and the record comes last. -/
def freeRecord (free : Nat → R → Except Misuse R) (a : MhAssoc R) (ref : Nat) :
    Except Misuse (MhAssoc R) := do
  let record ← readAt a.records ref
  let record ← free ref record
  let records ← freeAt a.records ref record
  return { a with records }

/-- `if (av1) beer_mem_free((void *)av1)`. -/
def freeNode (a : MhAssoc R) : Option Nat → Except Misuse (MhAssoc R)
  | none => return a
  | some av => do
      let node ← readAt a.nodes av
      let nodes ← freeAt a.nodes av node
      return { a with nodes }

/-- The body of the loops of `beer_schema_index_free` and `beer_schema_space_free`, at the slot that
had this key. The iteration passes over a slot that is not used any more. -/
def visit (free : Nat → R → Except Misuse R) (a : MhAssoc R) (key : Bytes) :
    Except Misuse (MhAssoc R) := do
  let some pos := a.hash.find key | return a
  let node ← readAt a.nodes pos
  let record ← readAt a.records node.data
  let (av1, a) ← a.unlink (numberKey (Named.number record))
  let name ← (Named.name record).read
  let (av2, a) ← a.unlink name
  let a ← a.freeRecord free node.data
  let a ← a.freeNode av1
  a.freeNode av2

/-- `mh_foreach`, where the slots come in this order. -/
def tearDown (free : Nat → R → Except Misuse R) (order : List Bytes) (a : MhAssoc R) :
    Except Misuse (MhAssoc R) :=
  order.foldlM (visit free) a

end MhAssoc

/-- `struct beer_schema_ival`. -/
structure Ival where
  name : Block Bytes
  number : UInt32

instance : Named Ival := ⟨Ival.name, Ival.number⟩

/-- `struct beer_schema_sval`. -/
structure Sval where
  name : Block Bytes
  number : UInt32
  index : Block (MhAssoc Ival)

instance : Named Sval := ⟨Sval.name, Sval.number⟩

/-- `beer_schema_ival_free`, but for the record itself. -/
def beerSchemaIvalFree (ival : Ival) : Except Misuse Ival := do
  let name ← ival.name.free
  return { ival with name }

def beerSchemaIndexFree (order : List Bytes) (schema : MhAssoc Ival) :
    Except Misuse (MhAssoc Ival) :=
  schema.tearDown (fun _ => beerSchemaIvalFree) order

/-- `beer_schema_sval_free`, but for the record itself. -/
def beerSchemaSvalFree (order : List Bytes) (sval : Sval) : Except Misuse Sval := do
  let name ← sval.name.free
  let table ← sval.index.read
  let table ← beerSchemaIndexFree order table
  let index ← { sval.index with held := table }.free
  return { sval with name, index }

def beerSchemaSpaceFree (orders : Nat → List Bytes) (order : List Bytes) (schema : MhAssoc Sval) :
    Except Misuse (MhAssoc Sval) :=
  schema.tearDown (fun ref => beerSchemaSvalFree (orders ref)) order

/-- `struct beer_schema`. -/
structure SchemaMemory where
  spaceHash : Block (MhAssoc Sval)

namespace SchemaMemory

/-- `beer_schema_new`. -/
def new : SchemaMemory := ⟨⟨{}, true⟩⟩

/-- Orders in which `mh_foreach` may come to the slots: those of the spaces, and those of the
indexes of each space. -/
structure Orders (m : SchemaMemory) where
  spaces : List Bytes
  indexes : Nat → List Bytes
  spaces_perm : spaces.Perm m.spaceHash.held.hash.keys
  indexes_perm : ∀ ref block, m.spaceHash.held.records[ref]? = some block →
    (indexes ref).Perm block.held.index.held.hash.keys

/-- The order of the tables themselves. -/
def inTableOrder (m : SchemaMemory) : m.Orders where
  spaces := m.spaceHash.held.hash.keys
  indexes := fun ref =>
    (m.spaceHash.held.records[ref]?.map fun block => block.held.index.held.hash.keys).getD []
  spaces_perm := .refl _
  indexes_perm := by
    intro ref block hblock
    rw [hblock]
    exact .refl _

def beerSchemaFlush (m : SchemaMemory) (orders : m.Orders) : Except Misuse SchemaMemory := do
  let table ← m.spaceHash.read
  let table ← beerSchemaSpaceFree orders.indexes orders.spaces table
  return { spaceHash := { m.spaceHash with held := table } }

/-- `beer_schema_free`. It ends with `mh_assoc_delete`. -/
def beerSchemaFree (m : SchemaMemory) (orders : m.Orders) : Except Misuse SchemaMemory := do
  let table ← m.spaceHash.read
  let table ← beerSchemaSpaceFree orders.indexes orders.spaces table
  let spaceHash ← { m.spaceHash with held := table }.free
  return { spaceHash }

end SchemaMemory

/-- The index as the schema shows it. -/
def Ival.view (ival : Ival) : SchemaIval := { name := ival.name.held, number := ival.number }

/-- The record that a node leads to. -/
def MhAssoc.dataOf {R : Type} (a : MhAssoc R) (pos : Nat) : Option Nat :=
  (a.nodes[pos]?.map fun node => node.held.data).filter (· < a.records.length)

/-- The index that a node leads to. -/
def MhAssoc.ivalOf (a : MhAssoc Ival) (pos : Nat) : Option SchemaIval :=
  (a.dataOf pos).bind fun ref => a.records[ref]?.map fun ival => ival.held.view

/-- The space as the schema shows it. -/
def Sval.view (sval : Sval) : SchemaSval where
  name := sval.name.held
  number := sval.number
  index := sval.index.held.hash.bindValues sval.index.held.ivalOf

/-- The two calls of `mh_assoc_put` for an index of a space. -/
def Sval.putIndex (sval : Sval) (index : SchemaIval) : Sval :=
  { sval with
    index := { sval.index with
      held := sval.index.held.put { name := ⟨index.name, true⟩, number := index.number } } }

namespace SchemaMemory

/-- The schema that is in the memory. -/
def view (m : SchemaMemory) : Schema where
  spaceHash := m.spaceHash.held.hash.bindValues m.spaceHash.held.dataOf
  spaces := m.spaceHash.held.records.map fun sval => sval.held.view
  refers := by
    intro key ref hfind
    obtain ⟨pos, -, hdata⟩ := exists_of_find_bindValues hfind
    rw [List.length_map]
    exact of_decide_eq_true (Option.filter_eq_some_iff.mp hdata).2

/-- A new record of a space, its name and its empty table of indexes. -/
def putSpace (m : SchemaMemory) (space : SchemaSval) : SchemaMemory :=
  ⟨{ m.spaceHash with
    held := m.spaceHash.held.put
      { name := ⟨space.name, true⟩, number := space.number, index := ⟨{}, true⟩ } }⟩

/-- A new record of an index, and its name. -/
def putIndex (m : SchemaMemory) (ref : Nat) (index : SchemaIval) : SchemaMemory :=
  ⟨{ m.spaceHash with
    held := { m.spaceHash.held with
      records := updateAt m.spaceHash.held.records ref fun space => space.putIndex index } }⟩

def beerSchemaAddSpace (mp : Msgpuck) (m : SchemaMemory) (data : Bytes) :
    Except Fault (Int × SchemaMemory × Bytes) := do
  match ← attempt (readSpace mp data) with
  | some space =>
      let data ← nextRow mp data
      return (0, m.putSpace space, data)
  | none =>
      let data ← nextRow mp data
      return (-1, m, data)

/-- `beer_schema_add_index`. The space is looked up in the schema that is in the memory. -/
def beerSchemaAddIndex (mp : Msgpuck) (m : SchemaMemory) (data : Bytes) :
    Except Fault (Int × SchemaMemory × Bytes) := do
  match ← attempt (readIndex mp m.view data) with
  | some (some (ref, index)) =>
      let data ← nextRow mp data
      return (0, m.putIndex ref index, data)
  | some none => return (-1, m, data)
  | none =>
      let data ← nextRow mp data
      return (-1, m, data)

/-- `while (space_count-- > 0)`. -/
def addRows (add : SchemaMemory → Bytes → Except Fault (Int × SchemaMemory × Bytes)) :
    (count : Nat) → SchemaMemory → Bytes → Except Fault (Int × SchemaMemory)
  | 0, m, _ => return (0, m)
  | count + 1, m, data => do
      let (rc, m, data) ← add m data
      if rc ≠ 0 then return (-1, m)
      addRows add count m data

/-- The body of `beer_schema_add_spaces` and `beer_schema_add_indexes`. -/
def addReply (mp : Msgpuck)
    (add : SchemaMemory → Bytes → Except Fault (Int × SchemaMemory × Bytes)) (m : SchemaMemory)
    (r : Reply) : Except Fault (Int × SchemaMemory) := do
  let data := r.dataBytes.getD []
  if (mp.mpCheck data).isNone then return (-1, m)
  match ← attempt (do expect mp .array data; mp.decodeArray data) with
  | none => return (-1, m)
  | some (count, tuple) => addRows add count.toNat m tuple

def beerSchemaAddSpaces (mp : Msgpuck) (m : SchemaMemory) (r : Reply) :
    Except Fault (Int × SchemaMemory) :=
  addReply mp (beerSchemaAddSpace mp) m r

def beerSchemaAddIndexes (mp : Msgpuck) (m : SchemaMemory) (r : Reply) :
    Except Fault (Int × SchemaMemory) :=
  addReply mp (beerSchemaAddIndex mp) m r

end SchemaMemory

end BeeC
