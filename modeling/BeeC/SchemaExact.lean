import Mathlib.Data.List.TakeWhile
import BeeC.SchemaLookup

namespace BeeC

open BeeC.Wire.MessagePack
open BeeC.Wire.Directory

variable {mp : Msgpuck}

namespace Schema

theorem placed_putSpaces {schema : Schema} {rows : List SpaceRow} (h : rows.Nodup)
    {xs : List IndexRow} {x : IndexRow} (hx : x ∈ (schema.putSpaces rows).placed xs) :
    x ∈ xs ∧ (schema.origin rows x.spaceKey).isSome := by
  refine ⟨(List.takeWhile_sublist _).subset hx, ?_⟩
  have hplaced := List.mem_takeWhile_imp hx
  rw [decide_eq_true_eq, putSpaces_find h] at hplaced
  simpa using hplaced.1

end Schema

theorem loaded_eq (hmp : mp.Lawful) {before loaded schema : Schema} {spaces indexes : Reply}
    {rows : List SpaceRow} {xs : List IndexRow}
    (hspaces : HasRows SpaceRow.Encoded spaces.dataBytes rows)
    (hindexes : HasRows IndexRow.Encoded indexes.dataBytes xs)
    (hfirst : beerSchemaAddSpaces mp before spaces = .ok (0, loaded))
    (hsecond : beerSchemaAddIndexes mp loaded indexes = .ok (0, schema)) :
    schema = (before.putSpaces rows).putIndexes xs ∧ (before.putSpaces rows).placed xs = xs := by
  rw [beerSchemaAddSpaces_eq hmp hspaces, Schema.loadRows_loadSpace, Except.ok.injEq,
    Prod.mk.injEq] at hfirst
  obtain ⟨hzero, rfl⟩ := hfirst
  have hnamed : Schema.named rows = rows := by
    by_contra hne
    rw [if_neg hne] at hzero
    exact absurd hzero (by decide)
  rw [hnamed, beerSchemaAddIndexes_eq hmp hindexes, Schema.loadRows_loadIndex, Except.ok.injEq,
    Prod.mk.injEq] at hsecond
  obtain ⟨hzero, rfl⟩ := hsecond
  have hplaced : (before.putSpaces rows).placed xs = xs := by
    by_contra hne
    rw [if_neg hne] at hzero
    exact absurd hzero (by decide)
  exact ⟨by rw [hplaced], hplaced⟩

theorem indexNumber_eq_neg_one_iff (xs : List IndexRow) (spaceId : Nat) (name : Bytes) :
    indexNumber xs spaceId name = -1 ↔ ∀ x ∈ xs, x.spaceId = spaceId → x.name ≠ name := by
  unfold indexNumber
  split
  · rename_i x hfind
    obtain ⟨hspace, hname⟩ : x.spaceId = spaceId ∧ x.name = name := by
      simpa using List.find?_some hfind
    refine iff_of_false (by omega) fun habsent => ?_
    exact habsent x (List.mem_of_find?_eq_some hfind) hspace hname
  · rename_i hfind
    refine iff_of_true rfl fun x hx hspace hname => ?_
    exact List.find?_eq_none.mp hfind x hx (by simp [hspace, hname])

theorem indexNumber_of_lastUnder_eq_none {rows : List SpaceRow} {schema : Schema}
    {xs : List IndexRow} {sid : UInt32} {name : Bytes}
    (h : lastUnder IndexRow.keys name (schema.sharing rows xs (numberKey sid)) = none) :
    indexNumber xs sid.toNat name = -1 := by
  refine (indexNumber_eq_neg_one_iff xs sid.toNat name).mpr fun x hx hsid hname => ?_
  have hshares : x ∈ schema.sharing rows xs (numberKey sid) := by
    refine List.mem_filter.mpr ⟨hx, decide_eq_true ?_⟩
    rw [IndexRow.spaceKey, hsid, UInt32.ofNat_toNat]
  exact absurd (.inl hname.symm) (lastUnder_eq_none.mp h x hshares)

/-- The number of the row, in 32 bits with a sign, is the one that the rows pair with a name for a
space, or it is `-1` and there is none. -/
def IndexRow.Answers (xs : List IndexRow) (sid : UInt32) (name : Bytes) (x : IndexRow) : Prop :=
  (∃ y ∈ xs, y.spaceId = sid.toNat ∧ y.name = name ∧ y.id ≤ 2147483647 ∧
      x.id % 4294967296 = y.id) ∨
    ((∀ y ∈ xs, y.spaceId = sid.toNat → y.name ≠ name) ∧ x.id % 4294967296 = 4294967295)

theorem IndexRow.answers_iff {xs : List IndexRow}
    (hnames : (xs.map fun x => (x.spaceId, x.name)).Nodup) (sid : UInt32) (name : Bytes)
    (x : IndexRow) : x.Answers xs sid name ↔ shownNumber x.id = indexNumber xs sid.toNat name := by
  unfold indexNumber Answers
  cases hfind : xs.find? fun y => y.spaceId = sid.toNat ∧ y.name = name with
  | none =>
      have habsent : ∀ y ∈ xs, y.spaceId = sid.toNat → y.name ≠ name := by
        intro y hy hsid hname
        exact List.find?_eq_none.mp hfind y hy (by simp [hsid, hname])
      rw [shownNumber_eq_neg_one_iff]
      constructor
      · rintro (⟨y, hy, hsid, hname, -⟩ | ⟨-, hmod⟩)
        · exact absurd hname (habsent y hy hsid)
        · exact hmod
      · exact fun hmod => .inr ⟨habsent, hmod⟩
  | some y =>
      have hy := List.mem_of_find?_eq_some hfind
      obtain ⟨hsid, hname⟩ : y.spaceId = sid.toNat ∧ y.name = name := by
        simpa using List.find?_some hfind
      rw [shownNumber_eq_iff]
      constructor
      · rintro (⟨z, hz, hsid', hname', hz_le, hmod⟩ | ⟨habsent, -⟩)
        · have hsame : z = y := List.inj_on_of_nodup_map hnames hz hy
            (by rw [hsid, hname, hsid', hname'])
          exact hsame ▸ ⟨hz_le, hmod⟩
        · exact absurd hname (habsent y hy hsid)
      · exact fun ⟨hy_le, hmod⟩ => .inl ⟨y, hy, hsid, hname, hy_le, hmod⟩

/-- In a schema that is loaded into an empty one, a name leads to the space of that name exactly
if the last space stored under it has it as its name. A space and a name lead to the index of that
name exactly if the last index stored under it, of those that share the record of the space, has
the number of that index. -/
theorem schema_exact_iff (hmp : mp.Lawful) {spaces indexes : Reply} {rows : List SpaceRow}
    {xs : List IndexRow} (hspaces : HasRows SpaceRow.Encoded spaces.dataBytes rows)
    (hindexes : HasRows IndexRow.Encoded indexes.dataBytes xs) (hrows : Distinct rows)
    (hnames : (xs.map fun x => (x.spaceId, x.name)).Nodup) {loaded schema : Schema}
    (hfirst : beerSchemaAddSpaces mp .new spaces = .ok (0, loaded))
    (hsecond : beerSchemaAddIndexes mp loaded indexes = .ok (0, schema)) (name : Bytes) :
    ((beerSchemaStosid schema name).toInt = spaceNumber rows name ↔
      ∀ row, lastUnder SpaceRow.keys name rows = some row → row.name = name) ∧
    ∀ sid : UInt32,
      (beerSchemaStoiid schema sid name).toInt = indexNumber xs sid.toNat name ↔
        ∀ x, lastUnder IndexRow.keys name (Schema.new.sharing rows xs (numberKey sid)) = some x →
          x.Answers xs sid name := by
  obtain ⟨rfl, hplaced⟩ := loaded_eq hmp hspaces hindexes hfirst hsecond
  have horigin : ∀ x ∈ xs, (Schema.new.origin rows x.spaceKey).isSome := fun x hx =>
    (Schema.placed_putSpaces hrows.nodup (hplaced.symm ▸ hx)).2
  refine ⟨?_, fun sid => ?_⟩
  · rw [Schema.stosid_loaded hrows.nodup]
    cases hlast : lastUnder SpaceRow.keys name rows with
    | some row => simpa using hrows.shownNumber_eq_iff (mem_of_lastUnder hlast) name
    | none =>
        have hnone : spaceNumber rows name = -1 := by
          unfold spaceNumber
          split
          · rename_i row hfind
            have hname : row.name = name := by simpa using List.find?_some hfind
            exact absurd (.inl hname.symm)
              (lastUnder_eq_none.mp hlast row (List.mem_of_find?_eq_some hfind))
          · rfl
        rw [hnone]
        exact iff_of_true rfl (by simp)
  · rw [Schema.stoiid_loaded hrows.nodup horigin]
    cases hlast : lastUnder IndexRow.keys name (Schema.new.sharing rows xs (numberKey sid)) with
    | some x => simpa using (IndexRow.answers_iff hnames sid name x).symm
    | none =>
        rw [indexNumber_of_lastUnder_eq_none hlast]
        refine iff_of_true ?_ (by simp)
        cases lastUnder SpaceRow.keys (numberKey sid) rows <;> rfl

/-- A reply with the given data. -/
def Reply.withData (data : Bytes) : Reply :=
  { alloc := false, buf := some data, bufSize := data.length, data := some 0,
    dataEnd := some data.length }

/-- The data with one space, whose number is one and whose name is `a`. -/
def spaceA : Bytes := [0x91, 0x93, 1, 0, 0xa1, 0x61]

/-- The data with one index, whose number is zero and whose name is `b`, for the space. -/
def indexB : Bytes := [0x91, 0x93, 1, 0, 0xa1, 0x62]

theorem spaceA_hasRows : HasRows SpaceRow.Encoded (Reply.withData spaceA).dataBytes [⟨1, [0x61]⟩] :=
  ⟨[[0x93, 1, 0, 0xa1, 0x61]], by decide,
    .cons ⟨[1], [0], [0xa1, 0x61], [], by decide, by decide, by decide⟩ .nil⟩

theorem indexB_hasRows :
    HasRows IndexRow.Encoded (Reply.withData indexB).dataBytes [⟨1, 0, [0x62]⟩] :=
  ⟨[[0x93, 1, 0, 0xa1, 0x62]], by decide,
    .cons ⟨[1], [0], [0xa1, 0x62], [], by decide, by decide, by decide, by decide⟩ .nil⟩

theorem schema_exact_iff_a :
    ∃ loaded schema,
      beerSchemaAddSpaces .reference .new (Reply.withData spaceA) = .ok (0, loaded) ∧
      beerSchemaAddIndexes .reference loaded (Reply.withData indexB) = .ok (0, schema) ∧
      ((beerSchemaStosid schema [0x61]).toInt = spaceNumber [⟨1, [0x61]⟩] [0x61] ↔
        ∀ row, lastUnder SpaceRow.keys [0x61] [⟨1, [0x61]⟩] = some row → row.name = [0x61]) ∧
      (beerSchemaStosid schema [0x61]).toInt = 1 :=
  ⟨_, _, rfl, rfl,
    (schema_exact_iff Msgpuck.reference_lawful spaceA_hasRows indexB_hasRows
      ⟨by decide, by decide, by decide⟩ (by decide) rfl rfl [0x61]).1, rfl⟩

/-- The bytes of its number lead to the space, which is not named so; and so with the index. -/
theorem not_schema_exact :
    HasRows SpaceRow.Encoded (Reply.withData spaceA).dataBytes [⟨1, [0x61]⟩] ∧
    HasRows IndexRow.Encoded (Reply.withData indexB).dataBytes [⟨1, 0, [0x62]⟩] ∧
    ∃ loaded schema,
      beerSchemaAddSpaces .reference .new (Reply.withData spaceA) = .ok (0, loaded) ∧
      beerSchemaAddIndexes .reference loaded (Reply.withData indexB) = .ok (0, schema) ∧
      (beerSchemaStosid schema [1, 0, 0, 0]).toInt = 1 ∧
      spaceNumber [⟨1, [0x61]⟩] [1, 0, 0, 0] = -1 ∧
      (beerSchemaStoiid schema 1 [0, 0, 0, 0]).toInt = 0 ∧
      indexNumber [⟨1, 0, [0x62]⟩] 1 [0, 0, 0, 0] = -1 :=
  ⟨spaceA_hasRows, indexB_hasRows, _, _, rfl, rfl, by decide, by decide, by decide, by decide⟩

end BeeC
