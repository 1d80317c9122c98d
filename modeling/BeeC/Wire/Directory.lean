import Mathlib.Data.List.AList

/-!
A table in which every record is stored under two keys. A key that is used again belongs to the
record that was stored last. Nothing here refers to a program.
-/

namespace BeeC.Wire.Directory

variable {K V R : Type} [DecidableEq K]

/-- A correct map from keys to values. -/
abbrev Table (K V : Type) := AList fun _ : K => V

/-- The value under a key. -/
def Table.find (t : Table K V) (k : K) : Option V := t.lookup k

@[simp] theorem find_empty (k : K) : (∅ : Table K V).find k = none := rfl

theorem find_insert (t : Table K V) (k k' : K) (v : V) :
    Table.find (t.insert k v) k' = if k' = k then some v else t.find k' := by
  unfold Table.find
  split
  · next heq => rw [heq, AList.lookup_insert]
  · next hne => exact AList.lookup_insert_ne hne

theorem find_erase (t : Table K V) (k k' : K) :
    Table.find (t.erase k) k' = if k' = k then none else t.find k' := by
  unfold Table.find
  split
  · next heq => rw [heq, AList.lookup_erase]
  · next hne => exact AList.lookup_erase_ne hne

theorem erase_of_find_eq_none {t : Table K V} {k : K} (h : t.find k = none) : t.erase k = t := by
  apply AList.ext
  apply List.kerase_of_notMem_keys
  exact AList.lookup_eq_none.mp h

theorem find_isSome {t : Table K V} {k : K} : (t.find k).isSome ↔ k ∈ t.keys :=
  AList.lookup_isSome

theorem find_eq_some_of_mem {t : Table K V} {entry : Sigma fun _ : K => V}
    (h : entry ∈ t.entries) : t.find entry.1 = some entry.2 :=
  AList.mem_lookup_iff.mpr h

theorem eq_empty_of_find {t : Table K V} (h : ∀ k, t.find k = none) : t = ∅ := by
  apply AList.ext
  apply List.eq_nil_iff_forall_not_mem.mpr
  intro entry hentry
  have hsome := find_eq_some_of_mem hentry
  rw [h] at hsome
  cases hsome

/-- Store a value under one key, and then under another. -/
def storeTwice (t : Table K V) (ks : K × K) (v : V) : Table K V := (t.insert ks.1 v).insert ks.2 v

theorem find_storeTwice (t : Table K V) (ks : K × K) (v : V) (k : K) :
    (storeTwice t ks v).find k = if k = ks.1 ∨ k = ks.2 then some v else t.find k := by
  unfold storeTwice Table.find
  by_cases hsecond : k = ks.2
  · rw [hsecond, AList.lookup_insert, if_pos (.inr rfl)]
  · rw [AList.lookup_insert_ne hsecond]
    by_cases hfirst : k = ks.1
    · rw [hfirst, AList.lookup_insert, if_pos (.inl rfl)]
    · rw [AList.lookup_insert_ne hfirst, if_neg (not_or.mpr ⟨hfirst, hsecond⟩)]

/-- An entry whose value is replaced; without a new value, there is no entry. -/
def bindEntry {W : Type} (f : V → Option W) (entry : Sigma fun _ : K => V) :
    Option (Sigma fun _ : K => W) :=
  (f entry.2).map fun w => ⟨entry.1, w⟩

omit [DecidableEq K] in
theorem keys_bindEntry_sublist {W : Type} (f : V → Option W)
    (entries : List (Sigma fun _ : K => V)) :
    (entries.filterMap (bindEntry f)).keys.Sublist entries.keys := by
  induction entries with
  | nil => exact .slnil
  | cons entry entries ih =>
      rw [List.filterMap_cons, bindEntry]
      cases f entry.2 with
      | none => exact ih.cons _
      | some w => exact ih.cons_cons _

/-- Replace the values of a table, and drop those that have no new value. -/
def Table.bindValues {W : Type} (t : Table K V) (f : V → Option W) : Table K W where
  entries := t.entries.filterMap (bindEntry f)
  nodupKeys := List.Nodup.sublist (keys_bindEntry_sublist f t.entries) t.nodupKeys

section

variable {W : Type} {f g : V → Option W}

omit [DecidableEq K] in
@[simp] theorem bindValues_empty : (∅ : Table K V).bindValues f = ∅ := rfl

theorem exists_of_find_bindValues {t : Table K V} {k : K} {w : W}
    (h : (t.bindValues f).find k = some w) : ∃ v, t.find k = some v ∧ f v = some w := by
  obtain ⟨entry, hmem, hentry⟩ := List.mem_filterMap.mp (AList.mem_lookup_iff.mp h)
  obtain ⟨w', hw', heq⟩ := Option.map_eq_some_iff.mp hentry
  cases heq
  exact ⟨entry.2, find_eq_some_of_mem hmem, hw'⟩

theorem bindValues_congr {t : Table K V} (h : ∀ k v, t.find k = some v → f v = g v) :
    t.bindValues f = t.bindValues g := by
  apply AList.ext
  apply List.filterMap_congr
  intro entry hentry
  rw [bindEntry, bindEntry, h _ _ (find_eq_some_of_mem hentry)]

theorem kerase_bindEntry (k : K) {entries : List (Sigma fun _ : K => V)} (h : entries.NodupKeys) :
    (entries.kerase k).filterMap (bindEntry f) = (entries.filterMap (bindEntry f)).kerase k := by
  induction entries with
  | nil => rfl
  | cons entry entries ih =>
      rw [List.nodupKeys_cons] at h
      by_cases hkey : k = entry.1
      · rw [List.kerase_cons_eq hkey, List.filterMap_cons, bindEntry]
        cases f entry.2 with
        | none =>
            have hnot : k ∉ (entries.filterMap (bindEntry f)).keys := by
              intro hmem
              exact h.1 (hkey ▸ (keys_bindEntry_sublist f entries).subset hmem)
            exact (List.kerase_of_notMem_keys hnot).symm
        | some w => exact (@List.kerase_cons_eq K (fun _ => W) _ k ⟨entry.1, w⟩ _ hkey).symm
      · rw [List.kerase_cons_ne hkey, List.filterMap_cons, List.filterMap_cons, bindEntry, ih h.2]
        cases f entry.2 with
        | none => rfl
        | some w => exact (@List.kerase_cons_ne K (fun _ => W) _ k ⟨entry.1, w⟩ _ hkey).symm

theorem bindValues_insert (t : Table K V) (k : K) {v : V} {w : W} (h : f v = some w) :
    Table.bindValues (t.insert k v) f = (t.bindValues f).insert k w := by
  apply AList.ext
  have hentry : bindEntry f ⟨k, v⟩ = some ⟨k, w⟩ := by
    rw [bindEntry, h]
    rfl
  have hinsert : (t.insert k v).entries.filterMap (bindEntry f) =
      ⟨k, w⟩ :: (t.entries.kerase k).filterMap (bindEntry f) := by
    rw [AList.entries_insert, List.filterMap_cons, hentry]
  rw [AList.entries_insert]
  exact hinsert.trans (congrArg _ (kerase_bindEntry k t.nodupKeys))

end

variable (keys : R → K × K)

/-- The last of the records that have the key. -/
def lastUnder (k : K) (rs : List R) : Option R :=
  rs.reverse.find? fun r => k = (keys r).1 ∨ k = (keys r).2

@[simp] theorem lastUnder_nil (k : K) : lastUnder keys k [] = none := rfl

theorem lastUnder_cons (k : K) (r : R) (rs : List R) :
    lastUnder keys k (r :: rs) =
      (lastUnder keys k rs).or (if k = (keys r).1 ∨ k = (keys r).2 then some r else none) := by
  simp [lastUnder, List.find?_cons]
  split <;> simp_all

variable {keys}

theorem lastUnder_eq_none {k : K} {rs : List R} :
    lastUnder keys k rs = none ↔ ∀ r ∈ rs, ¬(k = (keys r).1 ∨ k = (keys r).2) := by
  simp [lastUnder]

theorem mem_of_lastUnder {k : K} {rs : List R} {r : R} (h : lastUnder keys k rs = some r) :
    r ∈ rs := by
  simpa using List.mem_of_find?_eq_some h

/-- Store the records one after the other. -/
def storeAll (keys : R → K × K) (value : R → V) (t : Table K V) (rs : List R) : Table K V :=
  rs.foldl (fun t r => storeTwice t (keys r) (value r)) t

theorem find_storeAll (value : R → V) (t : Table K V) (rs : List R) (k : K) :
    (storeAll keys value t rs).find k =
      ((lastUnder keys k rs).map value).or (t.find k) := by
  induction rs generalizing t with
  | nil => rfl
  | cons r rs ih =>
      have hstep : storeAll keys value t (r :: rs) =
          storeAll keys value (storeTwice t (keys r) (value r)) rs := rfl
      rw [hstep, ih, find_storeTwice, lastUnder_cons]
      cases lastUnder keys k rs with
      | some r' => rfl
      | none => split <;> rfl

/-- Store the records' places one after the other, where records are kept in a row. -/
def storePlaces (keys : R → K × K) : (place : Nat) → Table K Nat → List R → Table K Nat
  | _, t, [] => t
  | place, t, r :: rs => storePlaces keys (place + 1) (storeTwice t (keys r) place) rs

theorem find_storePlaces [DecidableEq R] (place : Nat) (t : Table K Nat) {rs : List R}
    (h : rs.Nodup) (k : K) :
    (storePlaces keys place t rs).find k =
      ((lastUnder keys k rs).map fun r => place + rs.idxOf r).or (t.find k) := by
  induction rs generalizing place t with
  | nil => rfl
  | cons r rs ih =>
      rw [List.nodup_cons] at h
      rw [storePlaces, ih _ _ h.2, find_storeTwice, lastUnder_cons]
      cases hlast : lastUnder keys k rs with
      | some r' =>
          have hne : r ≠ r' := fun heq => h.1 (heq ▸ mem_of_lastUnder hlast)
          simp only [Option.some_or, Option.map_some, Option.some.injEq,
            List.idxOf_cons_ne rs hne]
          omega
      | none =>
          split
          · simp
          · rfl

end BeeC.Wire.Directory
