import BeeC.SchemaLoading

namespace BeeC

open BeeC.Wire.BigEndian
open BeeC.Wire.MessagePack
open BeeC.Wire.Directory

/-- The id that the rows pair with a name, or `-1`. -/
def spaceNumber (rows : List SpaceRow) (name : Bytes) : Int :=
  match rows.find? fun row => row.name = name with
  | some row => row.id
  | none => -1

/-- The number that the rows pair with a name for a space, or `-1`. -/
def indexNumber (rows : List IndexRow) (spaceId : Nat) (name : Bytes) : Int :=
  match rows.find? fun row => row.spaceId = spaceId ∧ row.name = name with
  | some row => row.id
  | none => -1

/-- A number as it is given back. -/
def shownNumber (id : Nat) : Int := (UInt32.ofNat id).toInt32.toInt

theorem shownNumber_eq {id : Nat} (h : id ≤ 2147483647) : shownNumber id = id := by
  rw [shownNumber, UInt32.toInt32_ofNat']
  exact Int32.toInt_ofNat_of_lt (by omega)

theorem shownNumber_eq_iff (id wanted : Nat) :
    shownNumber id = wanted ↔ wanted ≤ 2147483647 ∧ id % 4294967296 = wanted := by
  rw [shownNumber, UInt32.toInt32_ofNat', Int32.toInt_ofNat', Int.bmod]
  simp only [Int32.size]
  split <;> omega

theorem shownNumber_eq_neg_one_iff (id : Nat) :
    shownNumber id = -1 ↔ id % 4294967296 = 4294967295 := by
  rw [shownNumber, UInt32.toInt32_ofNat', Int32.toInt_ofNat', Int.bmod]
  simp only [Int32.size]
  split <;> omega

namespace Schema

/-- Where a key leads to once rows are loaded: to the last of the rows that has it, or to a
record from before. -/
def origin (schema : Schema) (rows : List SpaceRow) (key : Bytes) : Option (SpaceRow ⊕ Nat) :=
  match lastUnder SpaceRow.keys key rows with
  | some row => some (.inl row)
  | none => (schema.spaceHash.find key).map .inr

variable {schema : Schema} {rows : List SpaceRow}

/-- The place of a record. -/
def place (schema : Schema) (rows : List SpaceRow) : SpaceRow ⊕ Nat → Nat
  | .inl row => schema.spaces.length + rows.idxOf row
  | .inr ref => ref

theorem mem_of_origin {key : Bytes} {row : SpaceRow}
    (h : schema.origin rows key = some (.inl row)) : row ∈ rows := by
  unfold origin at h
  split at h
  · rename_i hlast
    cases h
    exact mem_of_lastUnder hlast
  · cases hfind : schema.spaceHash.find key <;> simp [hfind] at h

theorem lt_of_origin {key : Bytes} {ref : Nat} (h : schema.origin rows key = some (.inr ref)) :
    ref < schema.spaces.length := by
  unfold origin at h
  split at h
  · cases h
  · obtain ⟨ref', hfind, heq⟩ := Option.map_eq_some_iff.mp h
    cases heq
    exact schema.refers key _ hfind

theorem putSpaces_find (h : rows.Nodup) (key : Bytes) :
    (schema.putSpaces rows).spaceHash.find key =
      (schema.origin rows key).map (schema.place rows) := by
  rw [(schema.putSpaces_eq rows).1, find_storePlaces _ _ h, origin]
  cases lastUnder SpaceRow.keys key rows with
  | some row => rfl
  | none => cases schema.spaceHash.find key <;> rfl

theorem putSpaces_find_eq_iff (h : rows.Nodup) (key key' : Bytes) :
    (schema.putSpaces rows).spaceHash.find key = (schema.putSpaces rows).spaceHash.find key' ↔
      schema.origin rows key = schema.origin rows key' := by
  rw [putSpaces_find h, putSpaces_find h]
  constructor
  · intro hplace
    cases hkey : schema.origin rows key with
    | none => exact (by simpa [hkey] using hplace.symm : schema.origin rows key' = none).symm
    | some o =>
        rw [hkey, Option.map_some, eq_comm, Option.map_eq_some_iff] at hplace
        obtain ⟨o', hkey', hplace⟩ := hplace
        rw [hkey', Option.some.injEq]
        cases o with
        | inl row =>
            have hrow := mem_of_origin hkey
            cases o' with
            | inl row' =>
                have hrow' := mem_of_origin hkey'
                have hidx : rows.idxOf row = rows.idxOf row' := by
                  simp only [place] at hplace
                  omega
                rw [(List.idxOf_inj hrow).mp hidx]
            | inr ref =>
                have href := lt_of_origin hkey'
                simp only [place] at hplace
                omega
        | inr ref =>
            have href := lt_of_origin hkey
            cases o' with
            | inl row =>
                simp only [place] at hplace
                omega
            | inr ref' => rw [show ref' = ref from hplace]
  · intro horigin
    rw [horigin]

/-- The record, before indexes are loaded. -/
def record (schema : Schema) : SpaceRow ⊕ Nat → Option SchemaSval
  | .inl row => some row.space
  | .inr ref => schema.spaces[ref]?

theorem find_putIndexes (h : rows.Nodup) (xs : List IndexRow) (key : Bytes) :
    ((schema.putSpaces rows).putIndexes xs).find key =
      ((schema.origin rows key).bind schema.record).map fun space =>
        space.withIndexes
          (xs.filter fun x => schema.origin rows x.spaceKey = schema.origin rows key) := by
  rw [find, putIndexes_spaceHash, putSpaces_find h]
  cases hkey : schema.origin rows key with
  | none => rfl
  | some o =>
      have hsame : ∀ x : IndexRow, (schema.putSpaces rows).spaceHash.find x.spaceKey =
          some (schema.place rows o) ↔ schema.origin rows x.spaceKey = some o := by
        intro x
        have hplace : some (schema.place rows o) = (schema.putSpaces rows).spaceHash.find key := by
          rw [putSpaces_find h, hkey]
          rfl
        rw [hplace, putSpaces_find_eq_iff h, hkey]
      simp only [Option.map_some, Option.bind_some, putIndexes_getElem?, hsame,
        (schema.putSpaces_eq rows).2]
      have hget : (schema.spaces ++ rows.map SpaceRow.space)[schema.place rows o]? =
          schema.record o := by
        cases o with
        | inl row =>
            have hrow := List.idxOf_lt_length_iff.mpr (mem_of_origin hkey)
            simp [place, record, hrow]
        | inr ref => exact List.getElem?_append_left (lt_of_origin hkey)
      rw [hget]

/-- The rows of indexes that are put into the record under a key. -/
def sharing (schema : Schema) (rows : List SpaceRow) (xs : List IndexRow) (key : Bytes) :
    List IndexRow :=
  xs.filter fun x => schema.origin rows x.spaceKey = schema.origin rows key

theorem stosid_loaded (h : rows.Nodup) (xs : List IndexRow) (name : Bytes) :
    (beerSchemaStosid ((schema.putSpaces rows).putIndexes xs) name).toInt =
      match lastUnder SpaceRow.keys name rows with
      | some row => shownNumber row.id
      | none => (beerSchemaStosid schema name).toInt := by
  rw [beerSchemaStosid, find_putIndexes h, origin]
  cases lastUnder SpaceRow.keys name rows with
  | some row => rfl
  | none =>
      rw [beerSchemaStosid, find]
      cases schema.spaceHash.find name with
      | none => rfl
      | some ref =>
          simp only [Option.map_some, Option.bind_some, record]
          cases schema.spaces[ref]? <;> rfl

theorem stoiid_loaded (h : rows.Nodup) {xs : List IndexRow}
    (hxs : ∀ x ∈ xs, (schema.origin rows x.spaceKey).isSome) (sid : UInt32) (name : Bytes) :
    (beerSchemaStoiid ((schema.putSpaces rows).putIndexes xs) sid name).toInt =
      match lastUnder IndexRow.keys name (schema.sharing rows xs (numberKey sid)) with
      | some x => shownNumber x.id
      | none =>
          match lastUnder SpaceRow.keys (numberKey sid) rows with
          | some _ => -1
          | none => (beerSchemaStoiid schema sid name).toInt := by
  rw [beerSchemaStoiid, find_putIndexes h, ← sharing]
  have hfound : ∀ space : SchemaSval,
      (space.withIndexes (schema.sharing rows xs (numberKey sid))).index.find name =
        ((lastUnder IndexRow.keys name (schema.sharing rows xs (numberKey sid))).map
          IndexRow.index).or (space.index.find name) :=
    fun space => find_storeAll _ _ _ _
  cases hkey : schema.origin rows (numberKey sid) with
  | none =>
      have hnone : schema.sharing rows xs (numberKey sid) = [] := by
        refine List.filter_eq_nil_iff.mpr fun x hx => ?_
        have hsome := hxs x hx
        rw [hkey, decide_eq_true_eq]
        exact Option.ne_none_iff_isSome.mpr hsome
      rw [hnone, lastUnder_nil]
      unfold origin at hkey
      split at hkey
      · cases hkey
      · rw [Option.map_eq_none_iff] at hkey
        simp only [beerSchemaStoiid, find, hkey, Option.bind_none, Option.map_none]
  | some o =>
      unfold origin at hkey
      split at hkey
      · cases hkey
        simp only [Option.bind_some, record, Option.map_some, hfound]
        cases lastUnder IndexRow.keys name (schema.sharing rows xs (numberKey sid)) <;> rfl
      · obtain ⟨ref, hfind, rfl⟩ := Option.map_eq_some_iff.mp hkey
        have hlt := schema.refers _ _ hfind
        simp only [Option.bind_some, record, List.getElem?_eq_getElem hlt, Option.map_some,
          hfound]
        cases lastUnder IndexRow.keys name (schema.sharing rows xs (numberKey sid)) with
        | some x => rfl
        | none =>
            rw [beerSchemaStoiid, find, hfind, Option.bind_some, List.getElem?_eq_getElem hlt]
            rfl

end Schema

/-- Ids and names are distinct, and the ids are numbers of 32 bits with a sign. -/
structure Distinct (rows : List SpaceRow) : Prop where
  ids : (rows.map SpaceRow.id).Nodup
  names : (rows.map SpaceRow.name).Nodup
  ids_le : ∀ row ∈ rows, row.id ≤ 2147483647

theorem Distinct.nodup {rows : List SpaceRow} (h : Distinct rows) : rows.Nodup :=
  h.ids.of_map _

theorem Distinct.find?_name {rows : List SpaceRow} (h : Distinct rows) {row : SpaceRow}
    (hrow : row ∈ rows) : rows.find? (fun r => r.name = row.name) = some row := by
  cases hfind : rows.find? fun r => r.name = row.name with
  | none => exact absurd (by simp) (List.find?_eq_none.mp hfind row hrow)
  | some r =>
      have hname : r.name = row.name := by simpa using List.find?_some hfind
      rw [List.inj_on_of_nodup_map h.names (List.mem_of_find?_eq_some hfind) hrow hname]

theorem Distinct.shownNumber_eq_iff {rows : List SpaceRow} (h : Distinct rows) {row : SpaceRow}
    (hrow : row ∈ rows) (name : Bytes) :
    shownNumber row.id = spaceNumber rows name ↔ row.name = name := by
  rw [shownNumber_eq (h.ids_le row hrow), spaceNumber]
  constructor
  · intro hid
    cases hfind : rows.find? fun r => r.name = name with
    | none =>
        rw [hfind] at hid
        dsimp only at hid
        omega
    | some r =>
        rw [hfind] at hid
        have hsame : row = r := List.inj_on_of_nodup_map h.ids hrow
          (List.mem_of_find?_eq_some hfind) (Int.ofNat_inj.mp hid)
        subst hsame
        simpa using List.find?_some hfind
  · rintro rfl
    rw [h.find?_name hrow]

end BeeC
