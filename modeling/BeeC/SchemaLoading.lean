import BeeC.ReplyReading
import BeeC.Schema

namespace BeeC

open BeeC.Wire.MessagePack
open BeeC.Wire.Directory
open BeeC.Wire.Loop

/-- A row of a space reply, as far as it is used. -/
structure SpaceRow where
  id : Nat
  name : Bytes
  deriving DecidableEq, Repr

/-- A row of an index reply, as far as it is used. -/
structure IndexRow where
  spaceId : Nat
  id : Nat
  name : Bytes
  deriving DecidableEq, Repr

namespace SpaceRow

/-- The record of a space. -/
def space (row : SpaceRow) : SchemaSval := { name := row.name, number := UInt32.ofNat row.id }

/-- The keys under which the row is stored. -/
def keys (row : SpaceRow) : Bytes × Bytes := row.space.keys

/-- The bytes are an array of a number, an owner and a name, and of whatever follows them. -/
def Encoded (bytes : Bytes) (row : SpaceRow) : Prop :=
  ∃ id owner name more, arrayOf bytes = some (id :: owner :: name :: more, []) ∧
    uintOf id = some row.id ∧ textOf name = some row.name

end SpaceRow

namespace IndexRow

/-- The record of an index. -/
def index (row : IndexRow) : SchemaIval := { name := row.name, number := UInt32.ofNat row.id }

def keys (row : IndexRow) : Bytes × Bytes := row.index.keys

/-- The key under which the space of the index is looked up. -/
def spaceKey (row : IndexRow) : Bytes := numberKey (UInt32.ofNat row.spaceId)

/-- The bytes are an array of two numbers and a name, and of whatever follows them. -/
def Encoded (bytes : Bytes) (row : IndexRow) : Prop :=
  ∃ spaceId id name more, arrayOf bytes = some (spaceId :: id :: name :: more, []) ∧
    uintOf spaceId = some row.spaceId ∧ uintOf id = some row.id ∧ textOf name = some row.name

end IndexRow

/-- The record after the indexes of the rows are put into it. -/
def SchemaSval.withIndexes (space : SchemaSval) (rows : List IndexRow) : SchemaSval :=
  { space with index := storeAll IndexRow.keys IndexRow.index space.index rows }

/-- The data of the reply is an array of the rows. -/
def HasRows {ρ : Type} (Encoded : Bytes → ρ → Prop) (data : Option Bytes) (rows : List ρ) : Prop :=
  ∃ xs, data.bind arrayOf = some (xs, []) ∧ List.Forall₂ Encoded xs rows

namespace Schema

/-- What a row of a space does to the schema, unless it is refused. -/
def loadSpace (schema : Schema) (row : SpaceRow) : Option Schema :=
  if row.name = [] then none else some (schema.putSpace row.space)

/-- What a row of an index does to the schema, unless it is refused. -/
def loadIndex (schema : Schema) (row : IndexRow) : Option Schema :=
  match schema.spaceHash.find row.spaceKey with
  | none => none
  | some ref => if row.name = [] then none else some (schema.putIndex ref row.index)

/-- Load the rows up to the first one that is refused. -/
def loadRows {ρ : Type} (load : Schema → ρ → Option Schema) : Schema → List ρ → Int × Schema
  | schema, [] => (0, schema)
  | schema, row :: rows =>
      match load schema row with
      | none => (-1, schema)
      | some schema => loadRows load schema rows

end Schema

section Reading

variable {mp : Msgpuck} (hmp : mp.Lawful)

include hmp

theorem readName_eq {name text : Bytes} (h : textOf name = some text) (rest : Bytes) :
    readName mp (name ++ rest) = if text = [] then .error .fail else .ok text := by
  have hhead := head_append (head_of_textOf h) rest
  have hexpect : expect mp .str (name ++ rest) = .ok () := expect_eq hmp hhead rfl
  have hlength : text.length < 2 ^ 32 := fits_of_head hhead
  have hlen : (UInt32.ofNat text.length).toNat = text.length := UInt32.toNat_ofNat_of_lt' hlength
  have hzero : UInt32.ofNat text.length = 0 ↔ text = [] := by
    rw [← UInt32.toNat_inj, hlen]
    exact List.length_eq_zero_iff
  simp only [readName, hexpect, Msgpuck.decodeStr_eq hmp hhead, ok_bind, hzero,
    throw_eq, hlen, Msgpuck.advance_append, List.take_left, pure_eq]
  split <;> rfl

theorem readSpace_eq {bytes : Bytes} {row : SpaceRow} (h : row.Encoded bytes) (rest : Bytes) :
    readSpace mp (bytes ++ rest) = if row.name = [] then .error .fail else .ok row.space := by
  obtain ⟨id, owner, name, more, harray, hid, hname⟩ := h
  obtain ⟨hexpect, hdecode⟩ := array_at hmp harray rest
  obtain ⟨hexpectId, hdecodeId⟩ := number_at hmp hid (owner ++ (name ++ (more.flatten ++ rest)))
  have howner : IsValue owner := (arrayOf_eq_some harray).2 owner (by simp)
  simp only [List.flatten_cons, List.append_assoc] at hdecode
  simp only [readSpace, hexpect, hdecode, hexpectId, hdecodeId,
    Msgpuck.nextValue_append hmp howner, readName_eq hmp hname, ok_bind]
  split
  · rfl
  · rw [ok_bind, ofNat_toUInt32]
    rfl

theorem readIndex_eq {bytes : Bytes} {row : IndexRow} (h : row.Encoded bytes) (schema : Schema)
    (rest : Bytes) :
    readIndex mp schema (bytes ++ rest) =
      match schema.spaceHash.find row.spaceKey with
      | none => .ok none
      | some ref => if row.name = [] then .error .fail else .ok (some (ref, row.index)) := by
  obtain ⟨spaceId, id, name, more, harray, hspace, hid, hname⟩ := h
  obtain ⟨hexpect, hdecode⟩ := array_at hmp harray rest
  obtain ⟨-, hdecodeSpace⟩ := number_at hmp hspace (id ++ (name ++ (more.flatten ++ rest)))
  obtain ⟨hexpectId, hdecodeId⟩ := number_at hmp hid (name ++ (more.flatten ++ rest))
  simp only [List.flatten_cons, List.append_assoc] at hdecode
  simp only [readIndex, hexpect, hdecode, hdecodeSpace, hexpectId, ok_bind, ofNat_toUInt32,
    IndexRow.spaceKey]
  cases schema.spaceHash.find (numberKey (UInt32.ofNat row.spaceId)) with
  | none => rfl
  | some ref =>
      simp only [hdecodeId, readName_eq hmp hname, ok_bind]
      split
      · rfl
      · rw [ok_bind, ofNat_toUInt32]
        rfl

theorem nextRow_append {value : Bytes} (h : IsValue value) (rest : Bytes) :
    nextRow mp (value ++ rest) = .ok rest := by
  rw [nextRow, hmp.next_eq (next_append h rest), if_pos (by simp), List.drop_left]

/-- What adding a row comes to. -/
def Adds {ρ : Type} (Encoded : Bytes → ρ → Prop)
    (add : Schema → Bytes → Except Fault (Int × Schema × Bytes))
    (load : Schema → ρ → Option Schema) : Prop :=
  ∀ schema bytes row rest, Encoded bytes row → IsValue bytes →
    match load schema row with
    | some schema' => add schema (bytes ++ rest) = .ok (0, schema', rest)
    | none => ∃ data, add schema (bytes ++ rest) = .ok (-1, schema, data)

theorem beerSchemaAddSpace_adds :
    Adds SpaceRow.Encoded (beerSchemaAddSpace mp)
      Schema.loadSpace := by
  intro schema bytes row rest hrow hvalue
  rw [Schema.loadSpace, beerSchemaAddSpace, readSpace_eq hmp hrow]
  split
  · rename_i heq
    split at heq
    · cases heq
    · rename_i hname
      cases heq
      simp only [if_neg hname, attempt, ok_bind, nextRow_append hmp hvalue, pure_eq]
  · rename_i heq
    split at heq
    · rename_i hname
      exact ⟨rest, by
        simp only [if_pos hname, attempt, ok_bind, nextRow_append hmp hvalue, pure_eq]⟩
    · cases heq

theorem beerSchemaAddIndex_adds :
    Adds IndexRow.Encoded (beerSchemaAddIndex mp)
      Schema.loadIndex := by
  intro schema bytes row rest hrow hvalue
  rw [Schema.loadIndex, beerSchemaAddIndex, readIndex_eq hmp hrow]
  cases schema.spaceHash.find row.spaceKey with
  | none => exact ⟨bytes ++ rest, rfl⟩
  | some ref =>
      by_cases hname : row.name = []
      · simp only [if_pos hname]
        exact ⟨rest, by simp only [attempt, ok_bind, nextRow_append hmp hvalue, pure_eq]⟩
      · simp only [if_neg hname, attempt, ok_bind, nextRow_append hmp hvalue, pure_eq]

omit hmp in
theorem addRows_eq {ρ : Type} {Encoded : Bytes → ρ → Prop}
    {add : Schema → Bytes → Except Fault (Int × Schema × Bytes)}
    {load : Schema → ρ → Option Schema} (hadd : Adds Encoded add load) {xs : List Bytes}
    {rows : List ρ} (hrows : List.Forall₂ Encoded xs rows) (hvalues : ∀ x ∈ xs, IsValue x)
    (schema : Schema) (rest : Bytes) :
    addRows add xs.length schema (xs.flatten ++ rest) =
      .ok (Schema.loadRows load schema rows) := by
  induction hrows generalizing schema with
  | nil => rfl
  | @cons x row xs rows hrow _ ih =>
      have hstep := hadd schema x row (xs.flatten ++ rest) hrow (hvalues x List.mem_cons_self)
      have hrest : ∀ y ∈ xs, IsValue y := fun y hy => hvalues y (List.mem_cons_of_mem _ hy)
      rw [List.length_cons, List.flatten_cons, List.append_assoc, addRows, Schema.loadRows]
      cases hload : load schema row with
      | some schema' =>
          rw [hload] at hstep
          dsimp only at hstep
          rw [hstep]
          exact ih hrest schema'
      | none =>
          rw [hload] at hstep
          obtain ⟨data, hdata⟩ := hstep
          rw [hdata]
          rfl

/-- The rows of a reply are added from the first one on. -/
theorem addReply_rows {add : Schema → Bytes → Except Fault (Int × Schema × Bytes)} {r : Reply}
    {data : Bytes} {xs : List Bytes} (hbytes : r.dataBytes = some data)
    (harray : arrayOf data = some (xs, [])) (schema : Schema) :
    addReply mp add schema r = addRows add xs.length schema xs.flatten := by
  obtain ⟨hhead, -⟩ := arrayOf_eq_some harray
  obtain ⟨value, hnext⟩ := next_of_arrayOf harray
  have hcount : (UInt32.ofNat xs.length).toNat = xs.length :=
    UInt32.toNat_ofNat_of_lt' (fits_of_head hhead)
  have harrayType : expect mp .array data = .ok () := expect_eq hmp hhead rfl
  simp only [addReply, hbytes, Option.getD_some, hmp.check_eq, hnext, Option.map_some,
    Option.isNone_some, Bool.false_eq_true, if_false, harrayType,
    Msgpuck.decodeArray_eq hmp hhead, ok_bind, attempt, hcount, List.append_nil]

theorem addReply_eq {ρ : Type} {Encoded : Bytes → ρ → Prop}
    {add : Schema → Bytes → Except Fault (Int × Schema × Bytes)}
    {load : Schema → ρ → Option Schema} (hadd : Adds Encoded add load) {r : Reply}
    {rows : List ρ} (hrows : HasRows Encoded r.dataBytes rows) (schema : Schema) :
    addReply mp add schema r = .ok (Schema.loadRows load schema rows) := by
  obtain ⟨xs, hdata, hforall⟩ := hrows
  obtain ⟨data, hbytes, harray⟩ := Option.bind_eq_some_iff.mp hdata
  have hrun := addRows_eq hadd hforall (arrayOf_eq_some harray).2 schema []
  rw [List.append_nil] at hrun
  rw [addReply_rows hmp hbytes harray, hrun]

theorem beerSchemaAddSpaces_eq {r : Reply} {rows : List SpaceRow}
    (hrows : HasRows SpaceRow.Encoded r.dataBytes rows)
    (schema : Schema) :
    beerSchemaAddSpaces mp schema r = .ok (Schema.loadRows Schema.loadSpace schema rows) :=
  addReply_eq hmp (beerSchemaAddSpace_adds hmp) hrows schema

theorem beerSchemaAddIndexes_eq {r : Reply} {rows : List IndexRow}
    (hrows : HasRows IndexRow.Encoded r.dataBytes rows)
    (schema : Schema) :
    beerSchemaAddIndexes mp schema r = .ok (Schema.loadRows Schema.loadIndex schema rows) :=
  addReply_eq hmp (beerSchemaAddIndex_adds hmp) hrows schema

end Reading

namespace Schema

/-- The rows that are loaded: those before the first one without a name. -/
def named (rows : List SpaceRow) : List SpaceRow := rows.takeWhile fun row => row.name ≠ []

def putSpaces (schema : Schema) (rows : List SpaceRow) : Schema :=
  rows.foldl (fun schema row => schema.putSpace row.space) schema

/-- The record of its space takes an index in, if there is one. -/
def addIndex (schema : Schema) (row : IndexRow) : Schema :=
  match schema.spaceHash.find row.spaceKey with
  | none => schema
  | some ref => schema.putIndex ref row.index

def putIndexes (schema : Schema) (rows : List IndexRow) : Schema := rows.foldl addIndex schema

/-- The rows that are loaded: those before the first one without a name or without a space. -/
def placed (schema : Schema) (rows : List IndexRow) : List IndexRow :=
  rows.takeWhile fun row => (schema.spaceHash.find row.spaceKey).isSome ∧ row.name ≠ []

theorem loadRows_loadSpace (schema : Schema) (rows : List SpaceRow) :
    loadRows loadSpace schema rows =
      (if named rows = rows then 0 else -1, schema.putSpaces (named rows)) := by
  induction rows generalizing schema with
  | nil => rfl
  | cons row rows ih =>
      rw [loadRows, loadSpace]
      by_cases hname : row.name = []
      · have hnone : named (row :: rows) = [] := List.takeWhile_cons_of_neg (by simpa using hname)
        rw [if_pos hname, hnone]
        rfl
      · have hcons : named (row :: rows) = row :: named rows :=
          List.takeWhile_cons_of_pos (by simpa using hname)
        rw [if_neg hname, hcons]
        simp only [ih, List.cons.injEq, true_and]
        rfl

theorem addIndex_spaceHash (schema : Schema) (row : IndexRow) :
    (schema.addIndex row).spaceHash = schema.spaceHash := by
  unfold addIndex
  split <;> rfl

theorem putIndexes_spaceHash (schema : Schema) (rows : List IndexRow) :
    (schema.putIndexes rows).spaceHash = schema.spaceHash := by
  induction rows generalizing schema with
  | nil => rfl
  | cons row rows ih => exact (ih (schema.addIndex row)).trans (addIndex_spaceHash schema row)

theorem loadRows_loadIndex (schema : Schema) (rows : List IndexRow) :
    loadRows loadIndex schema rows =
      (if schema.placed rows = rows then 0 else -1,
        schema.putIndexes (schema.placed rows)) := by
  induction rows generalizing schema with
  | nil => rfl
  | cons row rows ih =>
      rw [loadRows, loadIndex]
      cases hfind : schema.spaceHash.find row.spaceKey with
      | none =>
          have hnone : schema.placed (row :: rows) = [] :=
            List.takeWhile_cons_of_neg (by simp [hfind])
          rw [hnone]
          rfl
      | some ref =>
          dsimp only
          by_cases hname : row.name = []
          · have hnone : schema.placed (row :: rows) = [] :=
              List.takeWhile_cons_of_neg (by simp [hname])
            rw [if_pos hname, hnone]
            rfl
          · have hcons : schema.placed (row :: rows) = row :: schema.placed rows :=
              List.takeWhile_cons_of_pos (by simp [hfind, hname])
            have hsame : (schema.putIndex ref row.index).placed rows = schema.placed rows := rfl
            have hadd : schema.addIndex row = schema.putIndex ref row.index := by
              rw [addIndex, hfind]
            rw [if_neg hname, hcons]
            simp only [ih, hsame, List.cons.injEq, true_and, putIndexes, List.foldl_cons, hadd]

theorem putSpaces_eq (schema : Schema) (rows : List SpaceRow) :
    (schema.putSpaces rows).spaceHash =
        storePlaces SpaceRow.keys schema.spaces.length schema.spaceHash rows ∧
      (schema.putSpaces rows).spaces = schema.spaces ++ rows.map SpaceRow.space := by
  induction rows generalizing schema with
  | nil => exact ⟨rfl, (List.append_nil _).symm⟩
  | cons row rows ih =>
      obtain ⟨hhash, hspaces⟩ := ih (schema.putSpace row.space)
      have hlength : (schema.putSpace row.space).spaces.length = schema.spaces.length + 1 := by
        simp [putSpace]
      refine ⟨?_, ?_⟩
      · rw [putSpaces, List.foldl_cons, ← putSpaces, hhash, hlength]
        rfl
      · rw [putSpaces, List.foldl_cons, ← putSpaces, hspaces]
        simp [putSpace]

theorem putIndexes_getElem? (schema : Schema) (rows : List IndexRow) (ref : Nat) :
    (schema.putIndexes rows).spaces[ref]? =
      schema.spaces[ref]?.map fun space =>
        space.withIndexes
          (rows.filter fun row => schema.spaceHash.find row.spaceKey = some ref) := by
  induction rows generalizing schema with
  | nil => simp [putIndexes, SchemaSval.withIndexes, storeAll]
  | cons row rows ih =>
      rw [putIndexes, List.foldl_cons, ← putIndexes, ih, addIndex_spaceHash, List.filter_cons]
      unfold addIndex
      cases hfind : schema.spaceHash.find row.spaceKey with
      | none => simp
      | some target =>
          simp only [putIndex, List.getElem?_modify, Option.some.injEq]
          by_cases htarget : target = ref
          · subst htarget
            simp only [decide_true, if_true]
            cases schema.spaces[target]? <;> rfl
          · simp [htarget]

end Schema

end BeeC
