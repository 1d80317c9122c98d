import BeeC.AssocSteps
import BeeC.Wire.Directory

namespace BeeC

open BeeC.Wire.Directory
open BeeC.Wire.Probing

open MhTable

/-- For a number of places, whether there is memory for the nodes of a table, and for its words of
bits. What is proved of runs is about tables of fewer than 2^31 places: in larger ones the sum of a
place and a step overflows. -/
structure MhMemory where
  granted : Nat → Bool × Bool
  small : ∀ n, (granted n).1 = true → n < 2 ^ 31

/-- What a caller does with the hash. -/
inductive MhAction (κ ν : Type)
  | put (v : ν) (memory : MhMemory)
  | drop (k : κ)
  | remove (v : ν)

/-- What the caller gets to know. -/
inductive MhAnswer (ν : Type)
  | stored (old : Option ν)
  | outOfMemory
  | done
  deriving DecidableEq, Repr

namespace Mh

variable {κ ν : Type} [DecidableEq κ] [Inhabited ν]

/-- `mh_assoc_find`, and `mh_assoc_del` where the key is found. -/
def drop (K : Keyed κ ν) (m : Mh ν) (k : κ) : Option (Mh ν) := do
  let x ← m.h.find K k
  if x ≠ m.h.nBuckets then m.del K x else some m

/-- One action. -/
def act (K : Keyed κ ν) (m : Mh ν) : MhAction κ ν → Option (Mh ν × MhAnswer ν)
  | .put v memory => (m.put K v memory.granted).map fun (m', x, old) =>
      (m', if x = m'.h.nBuckets then .outOfMemory else .stored old)
  | .drop k => (m.drop K k).map fun m' => (m', .done)
  | .remove v => (m.remove K v).map fun m' => (m', .done)

/-- A run of actions, with the answers to them. -/
def run (K : Keyed κ ν) : Mh ν → List (MhAction κ ν) → Option (Mh ν × List (MhAnswer ν))
  | m, [] => some (m, [])
  | m, action :: actions => do
      let (m, answer) ← m.act K action
      let (m, answers) ← m.run K actions
      some (m, answer :: answers)

theorem act_put {K : Keyed κ ν} {m m' : Mh ν} {v : ν} {memory : MhMemory} {x : Nat}
    {old : Option ν} (hput : m.put K v memory.granted = some (m', x, old)) :
    m.act K (.put v memory) =
      some (m', if x = m'.h.nBuckets then .outOfMemory else .stored old) := by
  unfold act
  dsimp only
  rw [hput]
  rfl

theorem run_cons (K : Keyed κ ν) (m : Mh ν) (action : MhAction κ ν)
    (actions : List (MhAction κ ν)) : m.run K (action :: actions) =
      (m.act K action).bind fun next =>
        (next.1.run K actions).map fun last => (last.1, next.2 :: last.2) := by
  show (m.act K action).bind _ = _
  cases m.act K action with
  | none => rfl
  | some next =>
      dsimp only [Option.bind_some, Option.bind_eq_bind]
      cases next.1.run K actions <;> rfl

/-- The answers that a map gives. A node that is put may be refused where memory is refused. -/
inductive MapRun (K : Keyed κ ν) :
    Table κ ν → List (MhAction κ ν) → List (MhAnswer ν) → Table κ ν → Prop
  | nil (t : Table κ ν) : MapRun K t [] [] t
  | put {t t' : Table κ ν} {actions : List (MhAction κ ν)} {answers : List (MhAnswer ν)} (v : ν)
      (memory : MhMemory) (rest : MapRun K (t.insert (K.key v) v) actions answers t') :
      MapRun K t (.put v memory :: actions) (.stored (t.find (K.key v)) :: answers) t'
  | refused {t t' : Table κ ν} {actions : List (MhAction κ ν)} {answers : List (MhAnswer ν)} (v : ν)
      (memory : MhMemory)
      (hrefused : ∃ n ∈ acPrimeList, ((memory.granted n).1 && (memory.granted n).2) = false)
      (rest : MapRun K t actions answers t') :
      MapRun K t (.put v memory :: actions) (.outOfMemory :: answers) t'
  | drop {t t' : Table κ ν} {actions : List (MhAction κ ν)} {answers : List (MhAnswer ν)} (k : κ)
      (rest : MapRun K (t.erase k) actions answers t') :
      MapRun K t (.drop k :: actions) (.done :: answers) t'
  | remove {t t' : Table κ ν} {actions : List (MhAction κ ν)} {answers : List (MhAnswer ν)} (v : ν)
      (rest : MapRun K (t.erase (K.key v)) actions answers t') :
      MapRun K t (.remove v :: actions) (.done :: answers) t'

/-- The hash stores what the map has. -/
structure Represents (K : Keyed κ ν) (m : Mh ν) (t : Table κ ν) : Prop where
  kept : Kept K m
  keyed : ∀ k v, t.find k = some v → K.key v = k
  holds : ∀ v, m.h.Holds v ↔ t.find (K.key v) = some v

variable {K : Keyed κ ν}

omit [DecidableEq κ] in
theorem kept_new : Kept K (Mh.new : Mh ν) := by
  have hsound : Sound K (Mh.new : Mh ν).h :=
    sound_zeroed (show 3 ∈ acPrimeList by decide) (show 3 < 2 ^ 31 by decide) rfl rfl
  have hused : (Mh.new : Mh ν).h.usedPlaces = 0 := usedPlaces_zeroed rfl
  have hheld : (Mh.new : Mh ν).h.heldPlaces = 0 :=
    Nat.le_zero.mp (Nat.le_trans held_le_used (Nat.le_of_eq hused))
  exact .inl ⟨hsound, ⟨0, rfl, .inl rfl⟩, rfl, rfl, hheld.symm, Nat.le_of_eq hused, Nat.zero_le _⟩

theorem represents_new : Represents K (Mh.new : Mh ν) ∅ where
  kept := kept_new
  keyed k v hfind := by
    rw [find_empty] at hfind
    cases hfind
  holds v := by
    rw [find_empty]
    refine iff_of_false ?_ (by simp)
    rintro ⟨i, -, hv⟩
    rw [value_eq_none.mpr (exist_zeroed rfl i).1] at hv
    cases hv

section Represents

variable {m : Mh ν} {t : Table κ ν}

theorem Represents.find_eq (hrep : Represents K m t) {k : κ} {v : ν} :
    t.find k = some v ↔ m.h.Holds v ∧ K.key v = k := by
  constructor
  · intro hfind
    have hkey := hrep.keyed k v hfind
    refine ⟨(hrep.holds v).mpr ?_, hkey⟩
    rw [hkey]
    exact hfind
  · rintro ⟨hv, rfl⟩
    exact (hrep.holds v).mp hv

theorem Represents.find_eq_none (hrep : Represents K m t) {k : κ}
    (habsent : ∀ v, m.h.Holds v → K.key v ≠ k) : t.find k = none := by
  cases hfind : t.find k with
  | none => rfl
  | some v =>
      obtain ⟨hv, hkey⟩ := hrep.find_eq.mp hfind
      exact absurd hkey (habsent v hv)

theorem Represents.congr (hrep : Represents K m t) {m' : Mh ν} (hkept : Kept K m')
    (hholds : ∀ v, m'.h.Holds v ↔ m.h.Holds v) : Represents K m' t where
  kept := hkept
  keyed := hrep.keyed
  holds v := (hholds v).trans (hrep.holds v)

theorem Represents.accepts (hrep : Represents K m t) {m' : Mh ν} (hkept : Kept K m') {v : ν} {x : Nat}
    {old : Option ν} (haccepts : PutAccepted K m m' v x old) :
    Represents K m' (t.insert (K.key v) v) ∧ old = t.find (K.key v) := by
  refine ⟨⟨hkept, fun k w hfind => ?_, fun w => ?_⟩, ?_⟩
  · rw [find_insert] at hfind
    split at hfind
    · next heq =>
        cases hfind
        exact heq.symm
    · exact hrep.keyed k w hfind
  · rw [haccepts.holds, find_insert, hrep.holds]
    by_cases hkey : K.key w = K.key v
    · rw [if_pos hkey]
      simp [hkey, eq_comm]
    · rw [if_neg hkey]
      have hne : w ≠ v := fun heq => hkey (heq ▸ rfl)
      simp [hkey, hne]
  · rcases haccepts.old with ⟨hold, habsent⟩ | ⟨u, hold, hu, hkey⟩
    · rw [hold, hrep.find_eq_none habsent]
    · rw [hold]
      exact (hrep.find_eq.mpr ⟨hu, hkey⟩).symm

theorem Represents.dropped (hrep : Represents K m t) {m' : Mh ν} (hkept : Kept K m') {k : κ}
    (hholds : ∀ v, m'.h.Holds v ↔ m.h.Holds v ∧ K.key v ≠ k) : Represents K m' (t.erase k) where
  kept := hkept
  keyed k' v hfind := by
    rw [find_erase] at hfind
    split at hfind
    · cases hfind
    · exact hrep.keyed k' v hfind
  holds v := by
    rw [hholds, find_erase, hrep.holds]
    by_cases hkey : K.key v = k
    · simp [hkey]
    · simp [hkey]

theorem Represents.del_found (hrep : Represents K m t) {k : κ} {x : Nat}
    (hfound : Found K m.h k x) :
    ∃ m', (if x ≠ m.h.nBuckets then m.del K x else some m) = some m' ∧
      Represents K m' (t.erase k) := by
  rcases hfound with ⟨hx, v, hv, hkey⟩ | ⟨hx, habsent⟩
  · obtain ⟨hexist, hnode⟩ := value_eq_some.mp hv
    obtain ⟨m', hdel, hkept, ⟨-, -, hholds⟩ | ⟨hnot, -⟩⟩ :=
      del_spec hrep.kept (Nat.le_of_lt hx)
    · rw [hnode, hkey] at hholds
      exact ⟨m', (if_pos (Nat.ne_of_lt hx)).trans hdel, hrep.dropped hkept hholds⟩
    · exact absurd ⟨hx, hexist⟩ hnot
  · refine ⟨m, if_neg fun hne => hne hx, hrep.dropped hrep.kept fun v => ?_⟩
    refine ⟨fun hv => ⟨hv, ?_⟩, fun hv => hv.1⟩
    obtain ⟨i, hi, hvi⟩ := hv
    exact fun hkey => habsent i hi ⟨v, hvi, hkey⟩

theorem Represents.act (hrep : Represents K m t) (action : MhAction κ ν) :
    ∃ m' answer t', m.act K action = some (m', answer) ∧ Represents K m' t' ∧
      ∀ {actions answers t''}, MapRun K t' actions answers t'' →
        MapRun K t (action :: actions) (answer :: answers) t'' := by
  cases action with
  | put v memory =>
      obtain ⟨m', x, old, hput, hkept, -, haccepts | hrefuses⟩ :=
        put_spec hrep.kept v memory.small
      · obtain ⟨hrep', hold⟩ := hrep.accepts hkept haccepts
        refine ⟨m', .stored old, _, ?_, hrep', fun hrun => hold ▸ .put v memory hrun⟩
        rw [act_put hput]
        exact congrArg (fun answer => some (m', answer)) (if_neg (Nat.ne_of_lt haccepts.lt))
      · obtain ⟨n, hn, -, hno⟩ := hrefuses.refused
        refine ⟨m', .outOfMemory, t, ?_, hrep.congr hkept hrefuses.holds,
          fun hrun => .refused v memory ⟨n, hn, hno⟩ hrun⟩
        rw [act_put hput]
        exact congrArg (fun answer => some (m', answer)) (if_pos hrefuses.slot)
  | drop k =>
      obtain ⟨x, hfind, hfound⟩ := find_spec hrep.kept.sound hrep.kept.used_lt k
      obtain ⟨m', hdel, hrep'⟩ := hrep.del_found hfound
      refine ⟨m', .done, _, ?_, hrep', fun hrun => .drop k hrun⟩
      unfold Mh.act Mh.drop
      dsimp only
      rw [hfind, Option.bind_eq_bind, Option.bind_some, hdel]
      rfl
  | remove v =>
      obtain ⟨x, hget, hfound⟩ := get_spec hrep.kept.sound hrep.kept.used_lt v
      obtain ⟨m', hdel, hrep'⟩ := hrep.del_found hfound
      refine ⟨m', .done, _, ?_, hrep', fun hrun => .remove v hrun⟩
      unfold Mh.act Mh.remove
      dsimp only
      rw [hget, Option.bind_eq_bind, Option.bind_some, hdel]
      rfl

theorem Represents.run (hrep : Represents K m t) (actions : List (MhAction κ ν)) :
    ∃ m' answers t', m.run K actions = some (m', answers) ∧ MapRun K t actions answers t' ∧
      Represents K m' t' := by
  induction actions generalizing m t with
  | nil => exact ⟨m, [], t, rfl, .nil t, hrep⟩
  | cons action actions ih =>
      obtain ⟨m₁, answer, t₁, hact, hrep₁, hcons⟩ := hrep.act action
      obtain ⟨m', answers, t', hrun, hmap, hrep'⟩ := ih hrep₁
      refine ⟨m', answer :: answers, t', ?_, hcons hmap, hrep'⟩
      rw [run_cons, hact, Option.bind_some, hrun]
      rfl

theorem Represents.nodup_values (hrep : Represents K m t) : (t.entries.map Sigma.snd).Nodup := by
  apply List.Nodup.map_on _ t.nodupKeys.nodup
  intro a ha b hb heq
  have hkey : a.1 = b.1 := by
    rw [← hrep.keyed a.1 a.2 (find_eq_some_of_mem ha),
      ← hrep.keyed b.1 b.2 (find_eq_some_of_mem hb), heq]
  exact Sigma.ext hkey (heq_of_eq heq)

theorem Represents.mem_values (hrep : Represents K m t) {v : ν} :
    v ∈ t.entries.map Sigma.snd ↔ m.h.Holds v := by
  rw [List.mem_map]
  constructor
  · rintro ⟨entry, hentry, rfl⟩
    exact (hrep.find_eq.mp (find_eq_some_of_mem hentry)).1
  · intro hv
    exact ⟨⟨K.key v, v⟩, AList.mem_lookup_iff.mp ((hrep.holds v).mp hv), rfl⟩

theorem Represents.size (hrep : Represents K m t) : m.h.size = t.entries.length := by
  classical
  have hset : {v | m.h.places.Holds m.h.nBuckets v} = ((t.entries.map Sigma.snd).toFinset : Set ν) := by
    ext v
    rw [Finset.mem_coe, List.mem_toFinset]
    exact hrep.mem_values.symm
  have hncard := congrArg Set.ncard hset
  rw [hrep.kept.sound.chained.ncard_holds, Set.ncard_coe_finset,
    List.toFinset_card_of_nodup hrep.nodup_values, List.length_map] at hncard
  rw [hrep.kept.size]
  exact hncard

end Represents

end Mh

end BeeC
