import BeeC.SchemaMemory

/-!
Tearing down the tables of a schema. A node of a table always leads to a record that is live, and it
has one of the two keys of this record. So no node is left that leads to the record which a visit
frees: both of its keys have been deleted before.
-/

namespace BeeC

open BeeC.Wire.Blocks
open BeeC.Wire.Directory
open BeeC.Wire.Loop
open BeeC.Wire.MessagePack

namespace MhAssoc

variable {R : Type} [Named R] {a : MhAssoc R} {key other : Bytes} {pos : Nat} {node : AssocVal}
  {record : R}

/-- A node is live, its record and the name of the record are live, and the node has this key. -/
structure Leads (a : MhAssoc R) (key : Bytes) (pos : Nat) (node : AssocVal) (record : R) :
    Prop where
  node_live : LiveAt a.nodes pos node
  record_live : LiveAt a.records node.data record
  name_live : (Named.name record).live = true
  key_eq : keyOf record node.key = key

theorem Leads.readKey (h : a.Leads key pos node record) : a.readKey pos = .ok key := by
  rw [MhAssoc.readKey, h.node_live.readAt, ok_bind, h.record_live.readAt, ok_bind, ← h.key_eq]
  cases node.key with
  | name => exact Block.read_of_live h.name_live
  | number => rfl

theorem Leads.key_cases (h : a.Leads key pos node record) :
    key = keyOf record .number ∨ key = keyOf record .name := by
  rw [← h.key_eq]
  cases node.key with
  | name => exact .inr rfl
  | number => exact .inl rfl

theorem Leads.data_ne {ref : Nat} {record' : R} (h : a.Leads key pos node record)
    (hlive : LiveAt a.records ref record') (hnumber : key ≠ keyOf record' .number)
    (hname : key ≠ keyOf record' .name) : node.data ≠ ref := by
  rintro rfl
  rw [h.record_live.unique hlive] at h
  exact h.key_cases.elim hnumber hname

/-- Every node leads to a record that is intact, and the records that were freed are spent. -/
structure WellKept (intact spent : R → Prop) (a : MhAssoc R) : Prop where
  leads : ∀ key pos, a.hash.find key = some pos →
    ∃ node record, a.Leads key pos node record ∧ intact record
  freed : ∀ ref record, FreedAt a.records ref record → spent record

variable {intact spent : R → Prop}

theorem WellKept.key_unique (h : WellKept intact spent a) (hkey : a.hash.find key = some pos)
    (hother : a.hash.find other = some pos) : key = other := by
  obtain ⟨node, record, hleads, -⟩ := h.leads key pos hkey
  obtain ⟨node', record', hleads', -⟩ := h.leads other pos hother
  have hnode := hleads.node_live.unique hleads'.node_live
  subst hnode
  rw [← hleads.key_eq, ← hleads'.key_eq, hleads.record_live.unique hleads'.record_live]

theorem WellKept.readKeys (h : WellKept intact spent a) : a.readKeys = .ok () := by
  apply forM_eq_ok
  intro entry hentry
  obtain ⟨node, record, hleads, -⟩ := h.leads _ _ (find_eq_some_of_mem hentry)
  rw [hleads.readKey]
  rfl

/-- The table without the slot of a key. -/
def without (a : MhAssoc R) (key : Bytes) : MhAssoc R := { a with hash := a.hash.erase key }

omit [Named R] in
theorem find_without : (a.without key).hash.find other =
    if other = key then none else a.hash.find other :=
  find_erase a.hash key other

omit [Named R] in
theorem find_without_eq_some : (a.without key).hash.find other = some pos ↔
    other ≠ key ∧ a.hash.find other = some pos := by
  rw [find_without]
  split
  · next heq => exact iff_of_false (Option.some_ne_none pos).symm fun h => h.1 heq
  · next hne => exact (and_iff_right hne).symm

theorem WellKept.without (h : WellKept intact spent a) (key : Bytes) :
    WellKept intact spent (a.without key) where
  leads := by
    intro other pos hother
    obtain ⟨-, hother⟩ := find_without_eq_some.mp hother
    obtain ⟨node, record, hleads, hintact⟩ := h.leads other pos hother
    exact ⟨node, record, ⟨hleads.1, hleads.2, hleads.3, hleads.4⟩, hintact⟩
  freed := h.freed

theorem WellKept.unlink (h : WellKept intact spent a) (key : Bytes) :
    a.unlink key = .ok (a.hash.find key, a.without key) := by
  rw [MhAssoc.unlink, mhAssocFind, h.readKeys, ok_bind, pure_eq, ok_bind]
  cases hfind : a.hash.find key with
  | none =>
      rw [MhAssoc.without, erase_of_find_eq_none hfind]
      rfl
  | some av =>
      simp only [mhAssocDel, h.readKeys]
      rfl

omit [Named R] in
theorem freeRecord_eq {free : Nat → R → Except Misuse R} {ref : Nat} {last : R}
    (hlive : LiveAt a.records ref record) (hfree : free ref record = .ok last) :
    a.freeRecord free ref = .ok { a with records := a.records.set ref ⟨last, false⟩ } := by
  rw [freeRecord, hlive.readAt, ok_bind, hfree, ok_bind, hlive.freeAt, ok_bind]
  rfl

omit [Named R] in
theorem freeNode_spec (av : Option Nat)
    (hlive : ∀ pos, av = some pos → ∃ node, LiveAt a.nodes pos node) :
    ∃ nodes, a.freeNode av = .ok { a with nodes } ∧ Aged a.nodes nodes ∧
      (∀ pos, av = some pos → ∃ node, FreedAt nodes pos node) ∧
      ∀ pos node, av ≠ some pos → LiveAt a.nodes pos node → LiveAt nodes pos node := by
  cases av with
  | none => exact ⟨a.nodes, rfl, .refl _, fun _ h => (nomatch h), fun _ _ _ h => h⟩
  | some av =>
      obtain ⟨node, hnode⟩ := hlive av rfl
      refine ⟨a.nodes.set av ⟨node, false⟩, ?_, hnode.aged node, ?_, ?_⟩
      · rw [freeNode, hnode.readAt, ok_bind, hnode.freeAt, ok_bind]
        rfl
      · rintro _ ⟨⟩
        exact ⟨node, hnode.freed node⟩
      · intro pos node hne hpos
        exact hpos.set_ne _ fun heq => hne (congrArg some heq.symm)

/-- There is a slot whose node leads to the record. -/
def Reaches (a : MhAssoc R) (ref : Nat) (record : R) : Prop :=
  ∃ key pos node, a.hash.find key = some pos ∧ a.Leads key pos node record ∧ node.data = ref

variable {becomes : R → R → Prop}

/-- For each slot that is not there any more, its node has been freed, and a record which was in the
table and has the key. -/
def Clears (becomes : R → R → Prop) (a a' : MhAssoc R) : Prop :=
  ∀ key pos, a.hash.find key = some pos → a'.hash.find key = none →
    (∃ node, FreedAt a'.nodes pos node) ∧ ∃ ref record last, a.Reaches ref record ∧
      (key = keyOf record .number ∨ key = keyOf record .name) ∧
      FreedAt a'.records ref last ∧ becomes record last

/-- A table that has come out of another one by deleting slots and freeing nodes and records. -/
structure Shrinks (becomes : R → R → Prop) (a a' : MhAssoc R) : Prop where
  hash : ∀ key pos, a'.hash.find key = some pos → a.hash.find key = some pos
  nodes : Aged a.nodes a'.nodes
  records : Aged a.records a'.records
  clears : Clears becomes a a'

theorem Shrinks.refl (a : MhAssoc R) : Shrinks becomes a a where
  hash _ _ h := h
  nodes := .refl _
  records := .refl _
  clears key pos hkey hnone := by
    rw [hkey] at hnone
    cases hnone

theorem Shrinks.none {a' : MhAssoc R} (h : Shrinks becomes a a') (hkey : a.hash.find key = none) :
    a'.hash.find key = none :=
  Option.eq_none_iff_forall_ne_some.mpr fun pos hpos => by
    rw [h.hash key pos hpos] at hkey
    cases hkey

theorem Reaches.of_shrinks {a' : MhAssoc R} {ref : Nat} (h : a'.Reaches ref record)
    (hshrinks : Shrinks becomes a a') : a.Reaches ref record := by
  obtain ⟨key, pos, node, hkey, hleads, hdata⟩ := h
  exact ⟨key, pos, node, hshrinks.hash key pos hkey,
    ⟨hshrinks.nodes.live _ _ hleads.node_live, hshrinks.records.live _ _ hleads.record_live,
      hleads.name_live, hleads.key_eq⟩, hdata⟩

theorem Shrinks.trans {a b c : MhAssoc R} (h : Shrinks becomes a b) (h' : Shrinks becomes b c) :
    Shrinks becomes a c where
  hash key pos hkey := h.hash key pos (h'.hash key pos hkey)
  nodes := h.nodes.trans h'.nodes
  records := h.records.trans h'.records
  clears := by
    intro key pos hkey hnone
    cases hbetween : b.hash.find key with
    | none =>
        obtain ⟨⟨node, hnode⟩, ref, record, last, hreaches, hhas, hfreed, hlast⟩ :=
          h.clears key pos hkey hbetween
        exact ⟨⟨node, h'.nodes.freed pos node hnode⟩, ref, record, last, hreaches, hhas,
          h'.records.freed ref last hfreed, hlast⟩
    | some pos' =>
        have hsame := h.hash key pos' hbetween
        rw [hkey] at hsame
        cases hsame
        obtain ⟨hnode, ref, record, last, hreaches, hcleared⟩ := h'.clears key pos hbetween hnone
        exact ⟨hnode, ref, record, last, hreaches.of_shrinks h, hcleared⟩

/-- A record that a node leads to can be freed, and is spent then. -/
def Frees (free : Nat → R → Except Misuse R) (intact spent : R → Prop) (becomes : R → R → Prop)
    (a : MhAssoc R) : Prop :=
  ∀ ref record, LiveAt a.records ref record → (Named.name record).live = true → intact record →
    ∃ last, free ref record = .ok last ∧ spent last ∧ becomes record last

theorem Frees.of_shrinks {free : Nat → R → Except Misuse R} {a' : MhAssoc R}
    (h : Frees free intact spent becomes a) (hshrinks : Shrinks becomes a a') :
    Frees free intact spent becomes a' :=
  fun ref record hlive => h ref record (hshrinks.records.live ref record hlive)

theorem WellKept.freeNodes (h : WellKept intact spent a) (first second : Bytes) {b : MhAssoc R}
    (hnodes : b.nodes = a.nodes) :
    ∃ nodes, (do
        let b ← b.freeNode (a.hash.find first)
        b.freeNode ((a.without first).hash.find second)) = .ok { b with nodes } ∧
      Aged a.nodes nodes ∧
      (∀ key av, key = first ∨ key = second → a.hash.find key = some av →
        ∃ node, FreedAt nodes av node) ∧
      ∀ other av node, other ≠ first → other ≠ second → a.hash.find other = some av →
        LiveAt a.nodes av node → LiveAt nodes av node := by
  have hslot {key : Bytes} {av : Nat} (hav : a.hash.find key = some av) :
      ∃ node, LiveAt b.nodes av node := by
    obtain ⟨node, record, hleads, -⟩ := h.leads key av hav
    exact ⟨node, hnodes ▸ hleads.node_live⟩
  obtain ⟨nodes, hnode, haged, hfreed, hkeep⟩ :=
    freeNode_spec (a.hash.find first) fun _ => hslot
  have hlive (av : Nat) (hav : (a.without first).hash.find second = some av) :
      ∃ node, LiveAt nodes av node := by
    obtain ⟨hne, hav⟩ := find_without_eq_some.mp hav
    obtain ⟨node, hnode⟩ := hslot hav
    exact ⟨node, hkeep av node (fun heq => hne (h.key_unique hav heq)) hnode⟩
  obtain ⟨nodes', hnode', haged', hfreed', hkeep'⟩ :=
    @freeNode_spec R { b with nodes } ((a.without first).hash.find second) hlive
  refine ⟨nodes', ?_, hnodes ▸ haged.trans haged', ?_, ?_⟩
  · rw [hnode, ok_bind, hnode']
  · intro key av hkey hav
    by_cases hfirst : key = first
    · obtain ⟨node, hnode⟩ := hfreed av (hfirst ▸ hav)
      exact ⟨node, haged'.freed av node hnode⟩
    · exact hfreed' av (find_without_eq_some.mpr
        ⟨hkey.resolve_left hfirst ▸ hfirst, hkey.resolve_left hfirst ▸ hav⟩)
  · intro other av node hfirst hother hav hnode
    apply hkeep' av node fun heq => hother (h.key_unique hav (find_without_eq_some.mp heq).2)
    apply hkeep av node fun heq => hfirst (h.key_unique hav heq)
    rw [hnodes]
    exact hnode

/-- The table without the two slots of a record, which has been freed. -/
def released (a : MhAssoc R) (ref : Nat) (record last : R) : MhAssoc R :=
  { (a.without (keyOf record .number)).without (keyOf record .name) with
    records := a.records.set ref ⟨last, false⟩ }

theorem find_released (a : MhAssoc R) (ref : Nat) (record last : R) :
    (a.released ref record last).hash.find other = some pos ↔
      other ≠ keyOf record .number ∧ other ≠ keyOf record .name ∧ a.hash.find other = some pos := by
  rw [MhAssoc.released, find_without_eq_some, find_without_eq_some]
  exact and_left_comm

theorem Shrinks.released (hkey : a.hash.find key = some pos) (hleads : a.Leads key pos node record)
    {last : R} (hlast : becomes record last) {nodes : List (Block AssocVal)}
    (haged : Aged a.nodes nodes)
    (hfreed : ∀ key av, key = keyOf record .number ∨ key = keyOf record .name →
      a.hash.find key = some av → ∃ node, FreedAt nodes av node) :
    Shrinks becomes a { a.released node.data record last with nodes } where
  hash _ _ hkey := ((find_released a node.data record last).mp hkey).2.2
  nodes := haged
  records := hleads.record_live.aged last
  clears := by
    intro other av hav hnone
    have hhas : other = keyOf record .number ∨ other = keyOf record .name := by
      by_contra hneither
      obtain ⟨hnumber, hname⟩ := not_or.mp hneither
      rw [(find_released a node.data record last).mpr ⟨hnumber, hname, hav⟩] at hnone
      cases hnone
    exact ⟨hfreed other av hhas hav, node.data, record, last, ⟨key, pos, node, hkey, hleads, rfl⟩,
      hhas, hleads.record_live.freed last, hlast⟩

theorem WellKept.released (h : WellKept intact spent a) {ref : Nat} {last : R}
    (hlive : LiveAt a.records ref record) (hspent : spent last) {nodes : List (Block AssocVal)}
    (hkeep : ∀ other av node, other ≠ keyOf record .number → other ≠ keyOf record .name →
      a.hash.find other = some av → LiveAt a.nodes av node → LiveAt nodes av node) :
    WellKept intact spent { a.released ref record last with nodes } where
  leads := by
    intro other av hav
    obtain ⟨hnumber, hname, hav⟩ := (find_released a ref record last).mp hav
    obtain ⟨node, record', hleads, hintact⟩ := h.leads other av hav
    have hnode := hkeep other av node hnumber hname hav hleads.node_live
    have hrecord := hleads.record_live.set_ne ⟨last, false⟩ (hleads.data_ne hlive hnumber hname)
    exact ⟨node, record', ⟨hnode, hrecord, hleads.name_live, hleads.key_eq⟩, hintact⟩
  freed := by
    intro other record' hfreed
    rcases hfreed.of_freed with rfl | hfreed
    · exact hspent
    · exact h.freed other record' hfreed

variable {free : Nat → R → Except Misuse R}

theorem WellKept.visit (h : WellKept intact spent a) (hfree : Frees free intact spent becomes a)
    (key : Bytes) :
    ∃ a', visit free a key = .ok a' ∧ WellKept intact spent a' ∧ Shrinks becomes a a' ∧
      a'.hash.find key = none := by
  cases hfind : a.hash.find key with
  | none =>
      refine ⟨a, ?_, h, .refl a, hfind⟩
      rw [MhAssoc.visit, hfind]
      rfl
  | some pos =>
      obtain ⟨node, record, hleads, hintact⟩ := h.leads key pos hfind
      obtain ⟨last, hlast, hspent, hbecomes⟩ :=
        hfree _ _ hleads.record_live hleads.name_live hintact
      have hnumber : a.unlink (numberKey (Named.number record)) = _ :=
        h.unlink (keyOf record .number)
      have hname : (a.without (keyOf record .number)).unlink (Named.name record).held = _ :=
        (h.without (keyOf record .number)).unlink (keyOf record .name)
      have hrecord : ((a.without (keyOf record .number)).without (keyOf record .name)).freeRecord
          free node.data = .ok (a.released node.data record last) :=
        freeRecord_eq hleads.record_live hlast
      obtain ⟨nodes, hnodes, haged, hfreed, hkeep⟩ :=
        @WellKept.freeNodes _ _ _ _ _ h (keyOf record .number) (keyOf record .name)
          (a.released node.data record last) rfl
      refine ⟨{ a.released node.data record last with nodes }, ?_,
        h.released hleads.record_live hspent hkeep, .released hfind hleads hbecomes haged hfreed, ?_⟩
      · rw [MhAssoc.visit, hfind]
        simp only [hleads.node_live.readAt, hleads.record_live.readAt, hnumber,
          Block.read_of_live hleads.name_live, hname, hrecord, ok_bind]
        exact hnodes
      · apply Option.eq_none_iff_forall_ne_some.mpr
        intro av hav
        obtain ⟨hnumber, hname, -⟩ := (find_released a node.data record last).mp hav
        exact hleads.key_cases.elim hnumber hname

theorem WellKept.tearDown (h : WellKept intact spent a) (hfree : Frees free intact spent becomes a)
    {order : List Bytes} (horder : ∀ key ∈ a.hash.keys, key ∈ order) :
    ∃ a', a.tearDown free order = .ok a' ∧ WellKept intact spent a' ∧ a'.hash = ∅ ∧
      Clears becomes a a' := by
  have hrun (keys : List Bytes) : ∀ a : MhAssoc R, WellKept intact spent a →
      Frees free intact spent becomes a →
      ∃ a', a.tearDown free keys = .ok a' ∧ WellKept intact spent a' ∧ Shrinks becomes a a' ∧
        ∀ key ∈ keys, a'.hash.find key = none := by
    induction keys with
    | nil => exact fun a h _ => ⟨a, rfl, h, .refl a, fun _ hkey => absurd hkey List.not_mem_nil⟩
    | cons key keys ih =>
        intro a h hfree
        obtain ⟨between, hvisit, hkept, hshrinks, hnone⟩ := h.visit hfree key
        obtain ⟨a', hrest, hkept', hshrinks', hnone'⟩ :=
          ih between hkept (hfree.of_shrinks hshrinks)
        refine ⟨a', ?_, hkept', hshrinks.trans hshrinks', ?_⟩
        · rw [MhAssoc.tearDown, List.foldlM_cons, hvisit, ok_bind]
          exact hrest
        · intro other hother
          rcases List.mem_cons.mp hother with rfl | hother
          · exact hshrinks'.none hnone
          · exact hnone' other hother
  obtain ⟨a', htearDown, hkept, hshrinks, hnone⟩ := hrun order a h hfree
  refine ⟨a', htearDown, hkept, eq_empty_of_find fun key => ?_, hshrinks.clears⟩
  cases hfind : a.hash.find key with
  | none => exact hshrinks.none hfind
  | some pos => exact hnone key (horder key (find_isSome.mp (by rw [hfind]; rfl)))

theorem wellKept_empty (intact spent : R → Prop) : WellKept intact spent {} where
  leads := fun _ _ h => by cases h
  freed := fun _ _ h => by cases h

theorem leads_put_name (a : MhAssoc R) (hname : (Named.name record).live = true) :
    (a.put record).Leads (keyOf record .name) a.nodes.length ⟨.name, a.records.length⟩ record where
  node_live := @LiveAt.append_right _ _ 0 _ _ rfl
  record_live := @LiveAt.append_right _ _ 0 _ _ rfl
  name_live := hname
  key_eq := rfl

theorem leads_put_number (a : MhAssoc R) (hname : (Named.name record).live = true) :
    (a.put record).Leads (keyOf record .number) (a.nodes.length + 1)
      ⟨.number, a.records.length⟩ record where
  node_live := LiveAt.append_right rfl
  record_live := @LiveAt.append_right _ _ 0 _ _ rfl
  name_live := hname
  key_eq := rfl

theorem Leads.put (h : a.Leads key pos node record) (new : R) :
    (a.put new).Leads key pos node record where
  node_live := h.node_live.append _
  record_live := h.record_live.append _
  name_live := h.name_live
  key_eq := h.key_eq

theorem WellKept.put (h : WellKept intact spent a) (hname : (Named.name record).live = true)
    (hintact : intact record) : WellKept intact spent (a.put record) where
  leads := by
    intro key pos hkey
    rw [MhAssoc.put, find_insert, find_insert] at hkey
    split at hkey
    · next heq =>
      cases hkey
      exact ⟨_, record, heq ▸ a.leads_put_number hname, hintact⟩
    · split at hkey
      · next heq =>
        cases hkey
        exact ⟨_, record, heq ▸ a.leads_put_name hname, hintact⟩
      · obtain ⟨node, record', hleads, hintact'⟩ := h.leads key pos hkey
        exact ⟨node, record', hleads.put record, hintact'⟩
  freed := by
    intro ref record' hfreed
    exact h.freed ref record' (hfreed.of_append (by simp))

theorem WellKept.updateAt (h : WellKept intact spent a) {ref : Nat} {f : R → R}
    (hlive : LiveAt a.records ref record) (hname : ∀ r, Named.name (f r) = Named.name r)
    (hnumber : ∀ r, Named.number (f r) = Named.number r) (hintact : ∀ r, intact r → intact (f r)) :
    WellKept intact spent { a with records := updateAt a.records ref f } where
  leads := by
    intro key pos hkey
    obtain ⟨node, record', hleads, hintact'⟩ := h.leads key pos hkey
    refine ⟨node, _, ⟨hleads.node_live, hleads.record_live.updateAt f ref, ?_, ?_⟩, ?_⟩
    · split
      · rw [hname]
        exact hleads.name_live
      · exact hleads.name_live
    · rw [← hleads.key_eq]
      split
      · cases node.key with
        | name => exact congrArg Block.held (hname record')
        | number => exact congrArg numberKey (hnumber record')
      · rfl
    · split
      · exact hintact record' hintact'
      · exact hintact'
  freed := fun other record' hfreed => h.freed other record' (hfreed.of_updateAt hlive)

end MhAssoc

/-- The name of an index that was freed was freed as well. -/
def Ival.Spent (ival : Ival) : Prop := ival.name.live = false

/-- What holds of the indexes of a space between two calls. -/
def IndexKept (table : MhAssoc Ival) : Prop := table.WellKept (fun _ => True) Ival.Spent

theorem ival_frees (table : MhAssoc Ival) :
    table.Frees (fun _ => beerSchemaIvalFree) (fun _ => True) Ival.Spent fun _ => Ival.Spent := by
  intro ref ival _ hname _
  have hfree : ival.name.free = .ok { ival.name with live := false } := Block.free_of_live hname
  refine ⟨{ ival with name := { ival.name with live := false } }, ?_, rfl, rfl⟩
  simp only [beerSchemaIvalFree, hfree]
  rfl

theorem beerSchemaIndexFree_spec {table : MhAssoc Ival} (h : IndexKept table)
    {order : List Bytes} (horder : order.Perm table.hash.keys) :
    ∃ table', beerSchemaIndexFree order table = .ok table' ∧ table'.hash = ∅ ∧
      table.Clears (fun _ => Ival.Spent) table' := by
  obtain ⟨table', hrun, -, hempty, hclears⟩ :=
    MhAssoc.WellKept.tearDown h (ival_frees table) fun _ hkey => horder.mem_iff.mpr hkey
  exact ⟨table', hrun, hempty, hclears⟩

structure Sval.Intact (sval : Sval) : Prop where
  index_live : sval.index.live = true
  index_kept : IndexKept sval.index.held

/-- The name of a space that was freed and its table of indexes were freed as well, and the table
was empty. -/
structure Sval.Spent (sval : Sval) : Prop where
  name_freed : sval.name.live = false
  index_freed : sval.index.live = false
  index_empty : sval.index.held.hash = ∅

/-- The indexes of a space have been freed with it. -/
def Sval.Clears (sval last : Sval) : Prop :=
  sval.index.held.Clears (fun _ => Ival.Spent) last.index.held

/-- What holds of the spaces between two calls. -/
def SpacesKept (table : MhAssoc Sval) : Prop := table.WellKept Sval.Intact Sval.Spent

theorem sval_frees {table : MhAssoc Sval} {orders : Nat → List Bytes}
    (horders : ∀ ref block, table.records[ref]? = some block →
      (orders ref).Perm block.held.index.held.hash.keys) :
    table.Frees (fun ref => beerSchemaSvalFree (orders ref)) Sval.Intact Sval.Spent
      Sval.Clears := by
  intro ref sval hlive hname hintact
  obtain ⟨index, hindex, hempty, hclears⟩ :=
    beerSchemaIndexFree_spec hintact.index_kept (horders ref _ hlive)
  have hfree : sval.name.free = .ok { sval.name with live := false } := Block.free_of_live hname
  have hdelete : ({ sval.index with held := index } : Block (MhAssoc Ival)).free =
      .ok { held := index, live := false } :=
    Block.free_of_live hintact.index_live
  refine ⟨{ sval with
    name := { sval.name with live := false }, index := { held := index, live := false } }, ?_,
    ⟨rfl, rfl, hempty⟩, hclears⟩
  simp only [beerSchemaSvalFree, hfree, Block.read_of_live hintact.index_live, hindex, hdelete,
    ok_bind]
  rfl

namespace SchemaMemory

structure WellKept (m : SchemaMemory) : Prop where
  table_live : m.spaceHash.live = true
  spaces_kept : SpacesKept m.spaceHash.held

theorem wellKept_new : new.WellKept := ⟨rfl, MhAssoc.wellKept_empty _ _⟩

theorem WellKept.spaceFree {m : SchemaMemory} (h : m.WellKept) (orders : m.Orders) :
    ∃ table, beerSchemaSpaceFree orders.indexes orders.spaces m.spaceHash.held = .ok table ∧
      SpacesKept table ∧ table.hash = ∅ ∧ m.spaceHash.held.Clears Sval.Clears table :=
  h.spaces_kept.tearDown (sval_frees orders.indexes_perm)
    fun _ hkey => orders.spaces_perm.mem_iff.mpr hkey

theorem WellKept.flush_free {m : SchemaMemory} (h : m.WellKept) (orders : m.Orders) :
    ∃ table, m.beerSchemaFlush orders = .ok ⟨⟨table, true⟩⟩ ∧
      m.beerSchemaFree orders = .ok ⟨⟨table, false⟩⟩ ∧ SpacesKept table ∧ table.hash = ∅ ∧
      m.spaceHash.held.Clears Sval.Clears table := by
  obtain ⟨table, hrun, hkept, hempty, hclears⟩ := h.spaceFree orders
  have hread := Block.read_of_live h.table_live
  refine ⟨table, ?_, ?_, hkept, hempty, hclears⟩
  · simp only [beerSchemaFlush, hread, hrun, ok_bind, h.table_live]
    rfl
  · simp only [beerSchemaFree, hread, hrun, ok_bind, h.table_live]
    rfl

end SchemaMemory

end BeeC
