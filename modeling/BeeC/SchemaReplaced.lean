import BeeC.SchemaExact
import BeeC.SchemaReplies

namespace BeeC

open BeeC.Wire.MessagePack
open BeeC.Wire.Directory
open BeeC.Wire.Loop

variable {τ : Type} {t : Transport τ} {mp : Msgpuck}

namespace Schema

/-- The rows of indexes that are loaded: those before the first one without a name or without a
space, among the rows of spaces and the records from before. -/
def reached (schema : Schema) (rows : List SpaceRow) (xs : List IndexRow) : List IndexRow :=
  xs.takeWhile fun x => (schema.origin rows x.spaceKey).isSome ∧ x.name ≠ []

theorem placed_eq_reached {schema : Schema} {rows : List SpaceRow} (h : rows.Nodup)
    (xs : List IndexRow) : (schema.putSpaces rows).placed xs = schema.reached rows xs := by
  unfold placed reached
  congr 1
  funext x
  rw [putSpaces_find h, Option.isSome_map]

end Schema

/-- A reply to the first query, without an error. -/
structure SpaceReply (r : Reply) (rows : List SpaceRow) : Prop where
  sync_eq : r.sync = 127
  error_eq : r.error = none
  hasRows : HasRows SpaceRow.Encoded r.dataBytes rows

/-- A reply to the second query, without an error. -/
structure IndexReply (r : Reply) (xs : List IndexRow) : Prop where
  sync_eq : r.sync = 128
  error_eq : r.error = none
  hasRows : HasRows IndexRow.Encoded r.dataBytes xs

section Turns

variable (hmp : mp.Lawful) {rows : List SpaceRow} {xs : List IndexRow} {r : Reply}

include hmp

theorem reloadReply_spaces (h : SpaceReply r rows) (l : Loading) :
    reloadReply mp l r = .ok (some
      { l with schema := l.schema.putSpaces (Schema.named rows), sloaded := l.sloaded + 1 }) := by
  simp only [reloadReply, if_pos h.sync_eq, h.error_eq, Option.isSome_none, Bool.false_eq_true,
    if_false, beerSchemaAddSpaces_eq hmp h.hasRows, Schema.loadRows_loadSpace, ok_bind, pure_eq]

theorem reloadReply_indexes (h : IndexReply r xs) {l : Loading} (hodd : ¬l.sloaded % 2 = 0) :
    reloadReply mp l r = .ok (some
      { l with
        schema := l.schema.putIndexes (l.schema.placed xs)
        sloaded := l.sloaded + 2 }) := by
  have hother : ¬r.sync = 127 := by
    rw [h.sync_eq]
    decide
  simp only [reloadReply, if_neg hother, if_pos h.sync_eq, h.error_eq, Option.isSome_none,
    Bool.false_eq_true, if_false, if_neg hodd, beerSchemaAddIndexes_eq hmp h.hasRows,
    Schema.loadRows_loadIndex, ok_bind, pure_eq]

omit hmp in
theorem reloadReply_saved (h : IndexReply r xs) {l : Loading} (heven : l.sloaded % 2 = 0) :
    reloadReply mp l r = .ok (some { l with bkp := r }) := by
  have hother : ¬r.sync = 127 := by
    rw [h.sync_eq]
    decide
  simp only [reloadReply, if_neg hother, if_pos h.sync_eq, h.error_eq, Option.isSome_none,
    Bool.false_eq_true, if_false, if_pos heven, pure_eq]

theorem finish_saved {l : Loading} (h : IndexReply l.bkp xs) (hbuf : l.bkp.buf.isSome) :
    l.finish mp = .ok
      { l with
        schema := l.schema.putIndexes (l.schema.placed xs)
        sloaded := l.sloaded + 2 } := by
  have hnone : ¬(l.bkp.buf.isNone = true) := by
    rw [Option.isNone_iff_eq_none]
    exact Option.ne_none_iff_isSome.mpr hbuf
  simp only [Loading.finish, if_neg hnone, beerSchemaAddIndexes_eq hmp h.hasRows,
    Schema.loadRows_loadIndex, ok_bind, pure_eq]

omit hmp in
theorem finish_unsaved {l : Loading} (h : l.bkp.buf = none) : l.finish mp = .ok l := by
  simp only [Loading.finish, h, Option.isNone_none, if_true, pure_eq]

theorem visit_inOrder {spaces indexes : Reply} (hspaces : SpaceReply spaces rows)
    (hindexes : IndexReply indexes xs) (schema : Schema) (count : Nat) :
    ∃ l, visit mp { schema } ([spaces, indexes].take count) = .ok (true, l, []) ∧
      l.bkp.buf = none ∧
      (l.sloaded = 3 → l.schema = (schema.putSpaces (Schema.named rows)).putIndexes
        ((schema.putSpaces (Schema.named rows)).placed xs)) := by
  have hfirst := reloadReply_spaces hmp hspaces { schema }
  match count with
  | 0 => exact ⟨_, rfl, rfl, by simp⟩
  | 1 =>
      refine ⟨{ schema := schema.putSpaces (Schema.named rows), sloaded := 1 }, ?_, rfl, ?_⟩
      · simp only [List.take_succ_cons, List.take_zero, visit, hfirst, ok_bind, pure_eq]
      · simp
  | count + 2 =>
      have hsecond := @reloadReply_indexes mp hmp xs indexes hindexes
        { schema := schema.putSpaces (Schema.named rows), sloaded := 1 }
        (show ¬1 % 2 = 0 by decide)
      refine ⟨{
        schema := (schema.putSpaces (Schema.named rows)).putIndexes
          ((schema.putSpaces (Schema.named rows)).placed xs)
        sloaded := 3 }, ?_, rfl, ?_⟩
      · simp only [List.take_succ_cons, List.take_nil, visit, hfirst, hsecond, ok_bind, pure_eq]
      · exact fun _ => rfl

theorem visit_reversed {spaces indexes : Reply} (hspaces : SpaceReply spaces rows)
    (hindexes : IndexReply indexes xs) (schema : Schema) (count : Nat) :
    ∃ l, visit mp { schema } ([indexes, spaces].take count) = .ok (true, l, []) ∧
      ((l.bkp.buf = none ∧ l.sloaded = 0) ∨
        (l.bkp = indexes ∧
          (l.sloaded = 1 → l.schema = schema.putSpaces (Schema.named rows)))) := by
  have hfirst := @reloadReply_saved mp xs indexes hindexes { schema } rfl
  match count with
  | 0 => exact ⟨_, rfl, .inl ⟨rfl, rfl⟩⟩
  | 1 =>
      refine ⟨{ schema, bkp := indexes }, ?_, .inr ⟨rfl, ?_⟩⟩
      · simp only [List.take_succ_cons, List.take_zero, visit, hfirst, ok_bind, pure_eq]
      · simp
  | count + 2 =>
      have hsecond := reloadReply_spaces hmp hspaces { schema, bkp := indexes }
      refine ⟨{
        schema := schema.putSpaces (Schema.named rows)
        bkp := indexes
        sloaded := 1 }, ?_, .inr ⟨rfl, ?_⟩⟩
      · simp only [List.take_succ_cons, List.take_nil, visit, hfirst, hsecond, ok_bind, pure_eq]
      · exact fun _ => rfl

theorem ends_zero {spaces indexes : Reply} (hspaces : SpaceReply spaces rows)
    (hindexes : IndexReply indexes xs) (hbuf : indexes.buf.isSome) {replies left : List Reply}
    (hreplies : replies = [spaces, indexes] ∨ replies = [indexes, spaces]) {count : Nat}
    {schema schema' : Schema} {done : Bool} {l : Loading}
    (hvisit : visit mp { schema } (replies.take count) = .ok (done, l, left))
    (hends : Loading.Ends mp 0 schema' (done, l)) :
    schema' = (schema.putSpaces (Schema.named rows)).putIndexes
      ((schema.putSpaces (Schema.named rows)).placed xs) := by
  have hthree : ∀ {sloaded : Nat}, (0 : Int) = (if sloaded ≠ 3 then -1 else 0) → sloaded = 3 := by
    intro sloaded h
    by_contra hne
    rw [if_pos hne] at h
    cases h
  rcases hreplies with rfl | rfl
  · obtain ⟨l₁, hvisit₁, hnone, hschema⟩ := visit_inOrder hmp hspaces hindexes schema count
    rw [hvisit] at hvisit₁
    cases hvisit₁
    obtain ⟨l', hfinish, hrc, rfl⟩ := hends
    rw [finish_unsaved hnone] at hfinish
    cases hfinish
    exact hschema (hthree hrc)
  · obtain ⟨l₁, hvisit₁, hsaved⟩ := visit_reversed hmp hspaces hindexes schema count
    rw [hvisit] at hvisit₁
    cases hvisit₁
    obtain ⟨l', hfinish, hrc, rfl⟩ := hends
    rcases hsaved with ⟨hnone, hzero⟩ | ⟨hbkp, hschema⟩
    · rw [finish_unsaved hnone] at hfinish
      cases hfinish
      rw [hzero] at hrc
      cases hrc
    · rw [finish_saved hmp (hbkp.symm ▸ hindexes) (hbkp.symm ▸ hbuf)] at hfinish
      cases hfinish
      have hthree' : l.sloaded + 2 = 3 := hthree hrc
      have hone : l.sloaded = 1 := by omega
      rw [hschema hone]

end Turns

theorem buf_of_answers {payloads : List Bytes} {replies : List Reply}
    (h : List.Forall₂ (IsAnswer mp) payloads replies) {r : Reply} (hr : r ∈ replies) :
    r.buf.isSome := by
  induction h with
  | nil => cases hr
  | cons hanswer _ ih =>
      rcases List.mem_cons.mp hr with rfl | hr
      · rw [hanswer.2.2]
        rfl
      · exact ih hr

/-- The bytes of a name that a lookup takes: its length is cut off to 32 bits. -/
def lookedUp (name : Bytes) : Bytes := name.take (UInt32.ofNat name.length).toNat

/-- The answer to a name after a reload is the one of the space reply: the last row loaded under
the name has it, or there is none and the answer was the same before. -/
def SpaceReplaced (s : Session τ) (rows : List SpaceRow) (name : Bytes) : Prop :=
  match lastUnder SpaceRow.keys (lookedUp name) (Schema.named rows) with
  | some row => row.name = name
  | none => (beerGetSpaceno s name).toInt = spaceNumber rows name

/-- The answer to a space and a name after a reload is the one of the index reply: the last row
loaded under the name, of those that share the record of the space, has its number; or there is
none, and the record is new and so is no such index; or there is none, the record is from before,
and the answer was the same. -/
def IndexReplaced (s : Session τ) (rows : List SpaceRow) (xs : List IndexRow) (id : Nat)
    (name : Bytes) : Prop :=
  let loaded := s.schema.reached (Schema.named rows) xs
  let key := numberKey (UInt32.ofNat id)
  match lastUnder IndexRow.keys (lookedUp name)
      (s.schema.sharing (Schema.named rows) loaded key) with
  | some x => x.Answers xs (UInt32.ofNat id) name
  | none =>
      match lastUnder SpaceRow.keys key (Schema.named rows) with
      | some _ => ∀ x ∈ xs, x.spaceId = id → x.name ≠ name
      | none => (beerGetIndexno s (Int32.ofNat id) name).toInt = indexNumber xs id name

/-- After a reload that succeeds, a name leads to the space that the space reply pairs with it,
and a space and a name to the index that the index reply pairs with them, exactly if nothing has
stopped the loading before, and nothing else is found under the name. -/
theorem beerReloadSchema_replaces_iff (hmp : mp.Lawful) (garbage : Nat → UInt8)
    {base consumed later : Bytes} {payloads : List Bytes} {spaces indexes : Reply}
    {replies : List Reply} {rows : List SpaceRow} {xs : List IndexRow} {s s' : Session τ}
    (h : HandedOver base consumed s.net)
    (hanswers : List.Forall₂ (IsAnswer mp) payloads replies)
    (hreplies : replies = [spaces, indexes] ∨ replies = [indexes, spaces])
    (hspaces : SpaceReply spaces rows) (hindexes : IndexReply indexes xs)
    (hrows : Distinct rows) (hnames : (xs.map fun x => (x.spaceId, x.name)).Nodup)
    (hreload : beerReloadSchema t mp garbage s = .ok (0, s'))
    (hfed : Fed base (consumed ++ (frames payloads ++ later)) s'.net.link) :
    (∀ name,
      (beerGetSpaceno s' name).toInt = spaceNumber rows name ↔ SpaceReplaced s rows name) ∧
    ∀ row ∈ rows, ∀ name,
      (beerGetIndexno s' (Int32.ofNat row.id) name).toInt = indexNumber xs row.id name ↔
        IndexReplaced s rows xs row.id name := by
  have hready : s.net.connected ∧ s.net.wrcnt = 0 := by
    by_contra hnot
    have hstop : ¬s.net.connected ∨ s.net.wrcnt ≠ 0 := not_and_or.mp hnot
    rw [beerReloadSchema, if_pos hstop] at hreload
    cases hreload
  obtain ⟨net, hquery, -, -, hcount⟩ := @query_spec _ t mp hmp garbage s hready.2
  have htwo : payloads.length = 2 := by
    rw [hanswers.length_eq]
    rcases hreplies with rfl | rfl <;> rfl
  obtain ⟨done, l, left, hvisit, -, -, -, -, hends⟩ :=
    beerReloadSchema_spec hmp garbage hready.1 hready.2 h hanswers hquery (by rw [htwo]; exact hcount)
      hreload hfed
  have hbuf : indexes.buf.isSome := by
    refine buf_of_answers hanswers ?_
    rcases hreplies with rfl | rfl <;> simp
  have hschema := ends_zero hmp hspaces hindexes hbuf hreplies hvisit hends
  have hsub : (Schema.named rows).Sublist rows := List.takeWhile_sublist _
  have hnodup : (Schema.named rows).Nodup := hrows.nodup.sublist hsub
  rw [Schema.placed_eq_reached hnodup] at hschema
  have horigin : ∀ x ∈ s.schema.reached (Schema.named rows) xs,
      (s.schema.origin (Schema.named rows) x.spaceKey).isSome := by
    intro x hx
    have himp := List.mem_takeWhile_imp hx
    rw [decide_eq_true_eq] at himp
    exact himp.1
  refine ⟨fun name => ?_, fun row hrow name => ?_⟩
  · rw [beerGetSpaceno, hschema, Schema.stosid_loaded hnodup, SpaceReplaced]
    rw [← lookedUp]
    cases hlast : lastUnder SpaceRow.keys (lookedUp name) (Schema.named rows) with
    | some row => exact hrows.shownNumber_eq_iff (hsub.subset (mem_of_lastUnder hlast)) name
    | none => exact Iff.rfl
  · have hid : (Int32.ofNat row.id).toUInt32 = UInt32.ofNat row.id := rfl
    have hnat : (UInt32.ofNat row.id).toNat = row.id :=
      UInt32.toNat_ofNat_of_lt' (by have := hrows.ids_le row hrow; show row.id < 4294967296; omega)
    rw [beerGetIndexno, hschema, hid, Schema.stoiid_loaded hnodup horigin, IndexReplaced]
    rw [← lookedUp]
    cases hlast : lastUnder IndexRow.keys (lookedUp name)
        (s.schema.sharing (Schema.named rows) (s.schema.reached (Schema.named rows) xs)
          (numberKey (UInt32.ofNat row.id))) with
    | some x =>
        have hanswer := IndexRow.answers_iff hnames (UInt32.ofNat row.id) name x
        rw [hnat] at hanswer
        exact hanswer.symm
    | none =>
        dsimp only
        cases lastUnder SpaceRow.keys (numberKey (UInt32.ofNat row.id)) (Schema.named rows) with
        | some row' => exact eq_comm.trans (indexNumber_eq_neg_one_iff xs row.id name)
        | none => exact Iff.rfl

/-- An answer to the first query, with the given data. -/
def spacesAnswer (data : Bytes) : Bytes := [0x82, 0, 0, 1, 0x7f, 0x81, 0x30] ++ data

/-- An answer to the second query, with the given data. -/
def indexesAnswer (data : Bytes) : Bytes := [0x82, 0, 0, 1, 0xcc, 0x80, 0x81, 0x30] ++ data

theorem spaceReply_a : SpaceReply (replyTo (spacesAnswer spaceA)) [⟨1, [0x61]⟩] :=
  ⟨rfl, rfl, ⟨[[0x93, 1, 0, 0xa1, 0x61]], by decide,
    .cons ⟨[1], [0], [0xa1, 0x61], [], by decide, by decide, by decide⟩ .nil⟩⟩

theorem beerReloadSchema_replaces_iff_a :
    ∃ s', beerReloadSchema Script.transport .reference (fun _ => 0)
        (.answered 0 [spacesAnswer spaceA, indexesAnswer indexB]) = .ok (0, s') ∧
      (beerGetSpaceno s' [0x61]).toInt = spaceNumber [⟨1, [0x61]⟩] [0x61] := by
  refine ⟨_, rfl, ?_⟩
  have hindexes : IndexReply (replyTo (indexesAnswer indexB)) [⟨1, 0, [0x62]⟩] :=
    ⟨rfl, rfl, ⟨[[0x93, 1, 0, 0xa1, 0x62]], by decide,
      .cons ⟨[1], [0], [0xa1, 0x62], [], by decide, by decide, by decide, by decide⟩ .nil⟩⟩
  refine ((@beerReloadSchema_replaces_iff _ Script.transport _ Msgpuck.reference_lawful
    (fun _ => 0) [] [] [] [spacesAnswer spaceA, indexesAnswer indexB] _ _ _ [⟨1, [0x61]⟩]
    [⟨1, 0, [0x62]⟩] (.answered 0 [spacesAnswer spaceA, indexesAnswer indexB]) _
    ⟨⟨by decide, by decide⟩, rfl⟩
    (.cons ⟨by decide, rfl, rfl⟩ (.cons ⟨by decide, rfl, rfl⟩ .nil)) (.inl rfl) spaceReply_a
    hindexes ⟨by decide, by decide, by decide⟩ (by decide) rfl ⟨by decide, by decide⟩).1
    [0x61]).mpr ?_
  rfl

/-- The data with an index of a space that is not there, and the index of `indexB`. -/
def indexAbsentB : Bytes := [0x92, 0x93, 9, 0, 0xa1, 0x78, 0x93, 1, 0, 0xa1, 0x62]

/-- A space from before is still found, and an index behind one of an absent space is not. -/
theorem not_beerReloadSchema_replaces :
    (SpaceReply (replyTo noSpaces) [] ∧ IndexReply (replyTo noIndexes) [] ∧
      ∃ s', beerReloadSchema Script.transport .reference (fun _ => 0)
          { Session.answered 0 [noSpaces, noIndexes] with
            schema := Schema.new.putSpace { name := [0x61], number := 1 } } = .ok (0, s') ∧
        (beerGetSpaceno s' [0x61]).toInt = 1 ∧ spaceNumber [] [0x61] = -1) ∧
    SpaceReply (replyTo (spacesAnswer spaceA)) [⟨1, [0x61]⟩] ∧
    IndexReply (replyTo (indexesAnswer indexAbsentB)) [⟨9, 0, [0x78]⟩, ⟨1, 0, [0x62]⟩] ∧
      ∃ s', beerReloadSchema Script.transport .reference (fun _ => 0)
          (.answered 0 [spacesAnswer spaceA, indexesAnswer indexAbsentB]) = .ok (0, s') ∧
        (beerGetIndexno s' 1 [0x62]).toInt = -1 ∧
        indexNumber [⟨9, 0, [0x78]⟩, ⟨1, 0, [0x62]⟩] 1 [0x62] = 0 := by
  refine ⟨⟨⟨rfl, rfl, ⟨[], by decide, .nil⟩⟩, ⟨rfl, rfl, ⟨[], by decide, .nil⟩⟩, _, rfl, ?_, ?_⟩,
    spaceReply_a, ⟨rfl, rfl, ?_⟩, _, rfl, ?_, ?_⟩
  · decide
  · decide
  · exact ⟨[[0x93, 9, 0, 0xa1, 0x78], [0x93, 1, 0, 0xa1, 0x62]], by decide,
      .cons ⟨[9], [0], [0xa1, 0x78], [], by decide, by decide, by decide, by decide⟩
        (.cons ⟨[1], [0], [0xa1, 0x62], [], by decide, by decide, by decide, by decide⟩ .nil)⟩
  · decide
  · decide

end BeeC
