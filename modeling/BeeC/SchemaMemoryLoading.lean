import BeeC.SchemaTeardown
import BeeC.SchemaExact

namespace BeeC

open BeeC.Wire.Blocks
open BeeC.Wire.Directory
open BeeC.Wire.Loop
open BeeC.Wire.MessagePack

namespace MhAssoc

theorem Leads.dataOf {R : Type} [Named R] {a : MhAssoc R} {key : Bytes} {pos : Nat}
    {node : AssocVal} {record : R} (h : a.Leads key pos node record) :
    a.dataOf pos = some node.data := by
  have hlt := (List.getElem?_eq_some_iff.mp h.record_live).1
  rw [MhAssoc.dataOf, h.node_live, Option.map_some, Option.filter_some, if_pos (decide_eq_true hlt)]

theorem Leads.ivalOf {a : MhAssoc Ival} {key : Bytes} {pos : Nat} {node : AssocVal} {ival : Ival}
    (h : a.Leads key pos node ival) : a.ivalOf pos = some ival.view := by
  rw [MhAssoc.ivalOf, h.dataOf, Option.bind_some, h.record_live]
  rfl

theorem WellKept.view_put {R V : Type} [Named R] {intact spent : R → Prop} {a : MhAssoc R}
    {record : R} (h : WellKept intact spent a) (hname : (Named.name record).live = true)
    {shows : MhAssoc R → Nat → Option V} {w : Nat → R → V}
    (hshows : ∀ {a key pos node record}, a.Leads key pos node record →
      shows a pos = some (w node.data record)) :
    (a.put record).hash.bindValues (shows (a.put record)) =
      storeTwice (a.hash.bindValues (shows a)) (keyOf record .name, keyOf record .number)
        (w a.records.length record) := by
  have hold : a.hash.bindValues (shows (a.put record)) = a.hash.bindValues (shows a) := by
    apply bindValues_congr
    intro key pos hkey
    obtain ⟨node, record', hleads, -⟩ := h.leads key pos hkey
    rw [hshows hleads, hshows (hleads.put record)]
  have hput : (a.put record).hash = (a.hash.insert (keyOf record .name) a.nodes.length).insert
      (keyOf record .number) (a.nodes.length + 1) := rfl
  rw [hput, bindValues_insert _ _ (hshows (a.leads_put_number hname)),
    bindValues_insert _ _ (hshows (a.leads_put_name hname)), hold]
  rfl

end MhAssoc

theorem Sval.Intact.putIndex {sval : Sval} (h : sval.Intact) (index : SchemaIval) :
    (sval.putIndex index).Intact where
  index_live := h.index_live
  index_kept := MhAssoc.WellKept.put h.index_kept rfl trivial

theorem Sval.Intact.view_putIndex {sval : Sval} (h : sval.Intact) (index : SchemaIval) :
    (sval.putIndex index).view =
      { sval.view with index := storeTwice sval.view.index index.keys index } := by
  have hview := @MhAssoc.WellKept.view_put Ival _ _ _ _ _ ⟨⟨index.name, true⟩, index.number⟩
    h.index_kept rfl MhAssoc.ivalOf (fun _ ival => ival.view) MhAssoc.Leads.ivalOf
  exact congrArg (SchemaSval.mk _ _) hview

namespace SchemaMemory

variable {m : SchemaMemory}

theorem WellKept.putSpace (h : m.WellKept) (space : SchemaSval) : (m.putSpace space).WellKept where
  table_live := h.table_live
  spaces_kept := MhAssoc.WellKept.put h.spaces_kept rfl ⟨rfl, MhAssoc.wellKept_empty _ _⟩

theorem WellKept.found (h : m.WellKept) {key : Bytes} {ref : Nat}
    (hfind : m.view.spaceHash.find key = some ref) :
    ∃ sval, LiveAt m.spaceHash.held.records ref sval ∧ sval.Intact := by
  obtain ⟨pos, hpos, hdata⟩ := exists_of_find_bindValues hfind
  obtain ⟨node, sval, hleads, hintact⟩ := h.spaces_kept.leads key pos hpos
  rw [hleads.dataOf] at hdata
  cases hdata
  exact ⟨sval, hleads.record_live, hintact⟩

theorem WellKept.putIndex (h : m.WellKept) {key : Bytes} {ref : Nat}
    (hfind : m.view.spaceHash.find key = some ref) (index : SchemaIval) :
    (m.putIndex ref index).WellKept := by
  obtain ⟨sval, hlive, -⟩ := h.found hfind
  exact ⟨h.table_live, MhAssoc.WellKept.updateAt h.spaces_kept hlive (fun _ => rfl) (fun _ => rfl)
    fun _ hintact => hintact.putIndex index⟩

theorem schema_eq {s s' : Schema} (hhash : s.spaceHash = s'.spaceHash)
    (hspaces : s.spaces = s'.spaces) : s = s' := by
  cases s
  cases s'
  cases hhash
  cases hspaces
  rfl

theorem WellKept.view_putSpace (h : m.WellKept) {space : SchemaSval} (hindex : space.index = ∅) :
    (m.putSpace space).view = m.view.putSpace space := by
  apply schema_eq
  · have hview := @MhAssoc.WellKept.view_put Sval _ _ _ _ _
      ⟨⟨space.name, true⟩, space.number, ⟨{}, true⟩⟩ h.spaces_kept rfl MhAssoc.dataOf
      (fun ref _ => ref) MhAssoc.Leads.dataOf
    have hlength : m.view.spaces.length = m.spaceHash.held.records.length := List.length_map _
    exact hview.trans (congrArg (storeTwice _ _) hlength.symm)
  · let sval : Sval := ⟨⟨space.name, true⟩, space.number, ⟨{}, true⟩⟩
    have hspace : sval.view = space := by
      rw [Sval.view, bindValues_empty, ← hindex]
    have hspaces : (m.putSpace space).view.spaces =
        (m.spaceHash.held.records ++ [(⟨sval, true⟩ : Block Sval)]).map
          fun block => block.held.view := rfl
    rw [hspaces, List.map_append, List.map_singleton, hspace]
    rfl

theorem WellKept.view_putIndex (h : m.WellKept) {key : Bytes} {ref : Nat}
    (hfind : m.view.spaceHash.find key = some ref) (index : SchemaIval) :
    (m.putIndex ref index).view = m.view.putIndex ref index := by
  obtain ⟨sval, hlive, hintact⟩ := h.found hfind
  apply schema_eq
  · have hdata : (m.putIndex ref index).spaceHash.held.dataOf = m.spaceHash.held.dataOf := by
      funext pos
      rw [MhAssoc.dataOf, MhAssoc.dataOf, SchemaMemory.putIndex, updateAt, List.length_modify]
    exact congrArg m.spaceHash.held.hash.bindValues hdata
  · exact @map_updateAt _ _ _ _ _ (fun space => space.putIndex index)
      (fun space => { space with index := storeTwice space.index index.keys index }) Sval.view hlive
      (hintact.view_putIndex index)

/-- The calls return the same, and the memory has come to the schema. -/
def Shows (mine : Int × SchemaMemory) (plain : Int × Schema) : Prop :=
  mine.1 = plain.1 ∧ mine.2.WellKept ∧ mine.2.view = plain.2

/-- A row is added in memory as it is added without memory. -/
def ShowsRow (mine : Int × SchemaMemory × Bytes) (plain : Int × Schema × Bytes) : Prop :=
  Shows (mine.1, mine.2.1) (plain.1, plain.2.1) ∧ mine.2.2 = plain.2.2

theorem readSpace_index {mp : Msgpuck} {data : Bytes} {space : SchemaSval}
    (h : readSpace mp data = .ok space) : space.index = ∅ := by
  simp only [readSpace, bind_eq_ok, pure_eq] at h
  obtain ⟨_, _, _, _, _, _, _, _, _, _, _, _, hspace⟩ := h
  cases hspace
  rfl

theorem readIndex_found {mp : Msgpuck} {schema : Schema} {data : Bytes} {ref : Nat}
    {index : SchemaIval} (h : readIndex mp schema data = .ok (some (ref, index))) :
    ∃ key, schema.spaceHash.find key = some ref := by
  simp only [readIndex, bind_eq_ok] at h
  obtain ⟨_, _, ⟨_, _⟩, _, ⟨spaceNumber, _⟩, _, _, _, h⟩ := h
  refine ⟨numberKey spaceNumber.toUInt32, ?_⟩
  split at h
  · next ref' hfind =>
    simp only [bind_eq_ok, pure_eq] at h
    obtain ⟨_, _, _, _, _, _, hrow⟩ := h
    cases hrow
    exact hfind
  · cases h

theorem matches_nextRow {mp : Msgpuck} {rc : Int} {s : Schema} (h : Shows (rc, m) (rc, s))
    (data : Bytes) :
    Matches ShowsRow (do let data ← nextRow mp data; return (rc, m, data))
      (do let data ← nextRow mp data; return (rc, s, data)) := by
  cases nextRow mp data with
  | error reason => rfl
  | ok rest => exact ⟨h, rfl⟩

theorem WellKept.addSpace (h : m.WellKept) (mp : Msgpuck) (data : Bytes) :
    Matches ShowsRow (m.beerSchemaAddSpace mp data) (BeeC.beerSchemaAddSpace mp m.view data) := by
  rw [beerSchemaAddSpace, BeeC.beerSchemaAddSpace]
  cases hread : readSpace mp data with
  | error stop =>
      cases stop with
      | fail => exact matches_nextRow ⟨rfl, h, rfl⟩ data
      | fault reason => rfl
  | ok space =>
      exact matches_nextRow ⟨rfl, h.putSpace space, h.view_putSpace (readSpace_index hread)⟩ data

theorem WellKept.addIndex (h : m.WellKept) (mp : Msgpuck) (data : Bytes) :
    Matches ShowsRow (m.beerSchemaAddIndex mp data) (BeeC.beerSchemaAddIndex mp m.view data) := by
  rw [beerSchemaAddIndex, BeeC.beerSchemaAddIndex]
  cases hread : readIndex mp m.view data with
  | error stop =>
      cases stop with
      | fail => exact matches_nextRow ⟨rfl, h, rfl⟩ data
      | fault reason => rfl
  | ok found =>
      cases found with
      | none => exact ⟨⟨rfl, h, rfl⟩, rfl⟩
      | some found =>
          obtain ⟨key, hfind⟩ := readIndex_found hread
          exact matches_nextRow
            ⟨rfl, h.putIndex hfind found.2, h.view_putIndex hfind found.2⟩ data

theorem WellKept.addRows
    {mine : SchemaMemory → Bytes → Except Fault (Int × SchemaMemory × Bytes)}
    {plain : Schema → Bytes → Except Fault (Int × Schema × Bytes)}
    (hrow : ∀ {m : SchemaMemory}, m.WellKept → ∀ data,
      Matches ShowsRow (mine m data) (plain m.view data))
    (h : m.WellKept) (count : Nat) (data : Bytes) :
    Matches Shows (addRows mine count m data) (BeeC.addRows plain count m.view data) := by
  induction count generalizing m data with
  | zero => exact ⟨rfl, h, rfl⟩
  | succ count ih =>
      refine (hrow h data).bind ?_
      rintro ⟨rc, m', data'⟩ ⟨-, -, -⟩ ⟨⟨rfl, h', rfl⟩, rfl⟩
      by_cases hrc : rc = 0
      · simp only [hrc, ne_eq, not_true_eq_false, if_false]
        exact ih h' data'
      · simp only [ne_eq, hrc, not_false_eq_true, if_true]
        exact ⟨rfl, h', rfl⟩

theorem WellKept.addReply {mp : Msgpuck}
    {mine : SchemaMemory → Bytes → Except Fault (Int × SchemaMemory × Bytes)}
    {plain : Schema → Bytes → Except Fault (Int × Schema × Bytes)}
    (hrow : ∀ {m : SchemaMemory}, m.WellKept → ∀ data,
      Matches ShowsRow (mine m data) (plain m.view data))
    (h : m.WellKept) (r : Reply) :
    Matches Shows (addReply mp mine m r) (BeeC.addReply mp plain m.view r) := by
  rw [SchemaMemory.addReply, BeeC.addReply]
  split
  · exact ⟨rfl, h, rfl⟩
  · cases attempt (do
        expect mp .array (r.dataBytes.getD [])
        mp.decodeArray (r.dataBytes.getD [])) with
    | error reason => rfl
    | ok opened =>
        cases opened with
        | none => exact ⟨rfl, h, rfl⟩
        | some opened => exact h.addRows hrow opened.1.toNat opened.2

theorem WellKept.addSpaces (h : m.WellKept) (mp : Msgpuck) (r : Reply) :
    Matches Shows (m.beerSchemaAddSpaces mp r) (BeeC.beerSchemaAddSpaces mp m.view r) :=
  h.addReply (fun h data => h.addSpace mp data) r

theorem WellKept.addIndexes (h : m.WellKept) (mp : Msgpuck) (r : Reply) :
    Matches Shows (m.beerSchemaAddIndexes mp r) (BeeC.beerSchemaAddIndexes mp m.view r) :=
  h.addReply (fun h data => h.addIndex mp data) r

/-- The schemas that loads and flushes come to, each flush in any order. -/
inductive Reachable (mp : Msgpuck) : SchemaMemory → Prop
  | new : Reachable mp new
  | spaces {m m' : SchemaMemory} {rc : Int} (h : Reachable mp m) (r : Reply)
      (hload : m.beerSchemaAddSpaces mp r = .ok (rc, m')) : Reachable mp m'
  | indexes {m m' : SchemaMemory} {rc : Int} (h : Reachable mp m) (r : Reply)
      (hload : m.beerSchemaAddIndexes mp r = .ok (rc, m')) : Reachable mp m'
  | flush {m m' : SchemaMemory} (h : Reachable mp m) (orders : m.Orders)
      (hflush : m.beerSchemaFlush orders = .ok m') : Reachable mp m'

theorem Reachable.wellKept {mp : Msgpuck} (h : Reachable mp m) : m.WellKept := by
  induction h with
  | new => exact wellKept_new
  | spaces _ r hload ih =>
      have hshows := ih.addSpaces mp r
      rw [hload] at hshows
      obtain ⟨-, -, -, hkept, -⟩ := hshows.exists_of_ok
      exact hkept
  | indexes _ r hload ih =>
      have hshows := ih.addIndexes mp r
      rw [hload] at hshows
      obtain ⟨-, -, -, hkept, -⟩ := hshows.exists_of_ok
      exact hkept
  | flush _ orders hflush ih =>
      obtain ⟨table, hrun, -, hkept, -, -⟩ := ih.flush_free orders
      rw [hflush] at hrun
      cases hrun
      exact ⟨rfl, hkept⟩

end SchemaMemory

open SchemaMemory in
/-- Whatever was loaded, and whatever the order of the slots is, nothing is freed twice or read when
it was freed, and the tables are empty in the end: the one of the spaces, and that of every space
that is freed. For each key that was in a table, its node and a record with the key are freed. -/
theorem beerSchemaFree_safe {mp : Msgpuck} {m : SchemaMemory} (h : Reachable mp m)
    (orders : m.Orders) :
    ∃ table, m.beerSchemaFlush orders = .ok ⟨⟨table, true⟩⟩ ∧
      m.beerSchemaFree orders = .ok ⟨⟨table, false⟩⟩ ∧ table.hash = ∅ ∧
      (∀ ref sval, FreedAt table.records ref sval → sval.Spent) ∧
      m.spaceHash.held.Clears Sval.Clears table := by
  obtain ⟨table, hflush, hfree, hkept, hempty, hclears⟩ := h.wellKept.flush_free orders
  exact ⟨table, hflush, hfree, hempty, hkept.freed, hclears⟩

/-- Where each key of a space is the key of another one that is come to first, the space is left. -/
example :
    let m := ((SchemaMemory.new.putSpace { name := [0x61], number := 1 }).putSpace
      { name := [0x62], number := 2 }).putSpace { name := [0x61], number := 2 }
    (beerSchemaSpaceFree (fun _ => []) [numberKey 1, [0x62], [0x61], numberKey 2]
      m.spaceHash.held).toOption.map (fun table => table.records.map Block.live) =
        some [false, false, true] := by
  decide

/-- Two spaces of the name `a`, with the numbers one and two. -/
def namesakes : SchemaMemory :=
  (SchemaMemory.new.putSpace { name := [0x61], number := 1 }).putSpace
    { name := [0x61], number := 2 }

/-- The data that they are loaded from. -/
def namesakesData : Bytes := [0x92, 0x93, 1, 0, 0xa1, 0x61, 0x93, 2, 0, 0xa1, 0x61]

theorem beerSchemaFree_safe_namesakes :
    ∃ m, namesakes.beerSchemaAddIndexes .reference (Reply.withData indexB) = .ok (0, m) ∧
      ∃ table, m.beerSchemaFlush m.inTableOrder = .ok ⟨⟨table, true⟩⟩ ∧
        m.beerSchemaFree m.inTableOrder = .ok ⟨⟨table, false⟩⟩ ∧ table.hash = ∅ ∧
        (∀ ref sval, FreedAt table.records ref sval → sval.Spent) ∧
        m.spaceHash.held.Clears Sval.Clears table := by
  have hspaces : SchemaMemory.new.beerSchemaAddSpaces .reference (Reply.withData namesakesData) =
      .ok (0, namesakes) := rfl
  have hindexes : namesakes.beerSchemaAddIndexes .reference (Reply.withData indexB) =
      .ok (0, namesakes.putIndex 0 { name := [0x62], number := 0 }) := rfl
  exact ⟨_, hindexes, beerSchemaFree_safe (.indexes (.spaces .new _ hspaces) _ hindexes) _⟩

end BeeC
