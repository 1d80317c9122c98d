import BeeC.AssocRun

namespace BeeC

open BeeC.Wire.Directory
open BeeC.Wire.Probing

open MhTable

/-! Iteration. -/

theorem filter_range'_skip {p : Nat → Bool} {a b n : Nat} (hab : a ≤ b) (hbn : b ≤ n)
    (hskip : ∀ i, a ≤ i → i < b → p i = false) :
    (List.range' a (n - a)).filter p = (List.range' b (n - b)).filter p := by
  have hsplit : List.range' a (n - a) = List.range' a (b - a) ++ List.range' b (n - b) := by
    rw [show n - a = (b - a) + (n - b) by omega, ← List.range'_append_1,
      show a + (b - a) = b by omega]
  have hnil : (List.range' a (b - a)).filter p = [] := by
    rw [List.filter_eq_nil_iff]
    intro i hi
    rw [List.mem_range'_1] at hi
    rw [hskip i hi.1 (by omega)]
    exact Bool.false_ne_true
  rw [hsplit, List.filter_append, hnil, List.nil_append]

section Iteration

variable {ν : Type} [Inhabited ν] (h : MhTable ν)

omit [Inhabited ν] in
theorem existFrom_spec (left i : Nat) :
    i ≤ h.existFrom left i ∧ h.existFrom left i ≤ i + left ∧
      (∀ j, i ≤ j → j < h.existFrom left i → h.exist j = false) ∧
      (h.existFrom left i < i + left → h.exist (h.existFrom left i) = true) := by
  induction left generalizing i with
  | zero => exact ⟨Nat.le_refl i, Nat.le_refl i, fun j hj hlt => absurd hlt (Nat.not_lt.mpr hj),
      fun hlt => absurd hlt (Nat.lt_irrefl i)⟩
  | succ left ih =>
      unfold existFrom
      cases hexist : h.exist i with
      | true =>
          rw [if_pos rfl]
          exact ⟨Nat.le_refl i, Nat.le_add_right i _,
            fun j hj hlt => absurd hlt (Nat.not_lt.mpr hj), fun _ => hexist⟩
      | false =>
          rw [if_neg Bool.false_ne_true]
          obtain ⟨hge, hle, hskip, hhit⟩ := ih (i + 1)
          refine ⟨by omega, by omega, fun j hj hlt => ?_, fun hlt => hhit (by omega)⟩
          rcases Nat.eq_or_lt_of_le hj with rfl | hless
          · exact hexist
          · exact hskip j hless hlt

omit [Inhabited ν] in
theorem next_spec {i : Nat} (hi : i < h.nBuckets) :
    i < h.next i ∧ h.next i ≤ h.nBuckets ∧ (∀ j, i < j → j < h.next i → h.exist j = false) ∧
      (h.next i < h.nBuckets → h.exist (h.next i) = true) := by
  obtain ⟨hge, hle, hskip, hhit⟩ := existFrom_spec h (h.nBuckets - (i + 1)) (i + 1)
  have hnext : h.next i = h.existFrom (h.nBuckets - (i + 1)) (i + 1) := if_pos hi
  rw [hnext]
  exact ⟨hge, by omega, hskip, fun hlt => hhit (by omega)⟩

omit [Inhabited ν] in
theorem first_spec : h.first ≤ h.nBuckets ∧ (∀ j < h.first, h.exist j = false) ∧
    (h.first < h.nBuckets → h.exist h.first = true) := by
  obtain ⟨-, hle, hskip, hhit⟩ := existFrom_spec h h.nBuckets 0
  rw [Nat.zero_add] at hle hhit
  exact ⟨hle, fun j hj => hskip j (Nat.zero_le j) hj, hhit⟩

omit [Inhabited ν] in
theorem foreachFrom_eq (fuel : Nat) {i : Nat} (hi : i ≤ h.nBuckets)
    (hhit : i < h.nBuckets → h.exist i = true) (hfuel : h.nBuckets ≤ i + fuel) :
    h.foreachFrom fuel i = some ((List.range' i (h.nBuckets - i)).filter h.exist) := by
  induction fuel generalizing i with
  | zero =>
      unfold foreachFrom
      rw [if_neg (by omega), show h.nBuckets - i = 0 by omega]
      rfl
  | succ fuel ih =>
      unfold foreachFrom
      by_cases hlt : i < h.nBuckets
      · obtain ⟨hgt, hle, hskip, hnext⟩ := next_spec h hlt
        rw [if_pos hlt, ih hle hnext (by omega)]
        have hrange : List.range' i (h.nBuckets - i) =
            i :: List.range' (i + 1) (h.nBuckets - (i + 1)) := by
          rw [show h.nBuckets - i = h.nBuckets - (i + 1) + 1 by omega, List.range'_succ]
        rw [hrange, List.filter_cons_of_pos (hhit hlt),
          filter_range'_skip (b := h.next i) hgt hle (fun j hj => hskip j hj)]
        rfl
      · rw [if_neg hlt, show h.nBuckets - i = 0 by omega]
        rfl

omit [Inhabited ν] in
theorem foreach_eq : h.foreach = some ((List.range h.nBuckets).filter h.exist) := by
  obtain ⟨hle, hskip, hhit⟩ := first_spec h
  unfold foreach
  rw [foreachFrom_eq h h.nBuckets hle hhit (by omega), List.range_eq_range']
  exact congrArg some (filter_range'_skip (Nat.zero_le _) hle fun j _ hj => hskip j hj).symm

end Iteration

namespace Mh

variable {κ ν : Type} [DecidableEq κ] [Inhabited ν] {K : Keyed κ ν}

theorem Represents.foreach_perm {m : Mh ν} {t : Table κ ν} (hrep : Represents K m t) :
    (((List.range m.h.nBuckets).filter m.h.exist).map m.h.node).Perm (t.entries.map Sigma.snd) := by
  have hleft : (((List.range m.h.nBuckets).filter m.h.exist).map m.h.node).Nodup := by
    apply List.Nodup.map_on _ (List.nodup_range.filter _)
    intro i hi j hj heq
    rw [List.mem_filter, List.mem_range] at hi hj
    exact hrep.kept.sound.chained.unique i j _ _ hi.1 hj.1 (value_of_exist hi.2)
      (value_of_exist hj.2) (congrArg K.key heq)
  have hright : (t.entries.map Sigma.snd).Nodup := hrep.nodup_values
  rw [List.perm_ext_iff_of_nodup hleft hright]
  intro v
  rw [hrep.mem_values]
  simp only [List.mem_map, List.mem_filter, List.mem_range]
  constructor
  · rintro ⟨i, ⟨hi, hexist⟩, rfl⟩
    exact ⟨i, hi, value_of_exist hexist⟩
  · rintro ⟨i, hi, hv⟩
    obtain ⟨hexist, hnode⟩ := value_eq_some.mp hv
    exact ⟨i, ⟨hi, hexist⟩, hnode⟩

theorem run_foreach (K : Keyed κ ν) (actions : List (MhAction κ ν)) :
    ∃ m answers t places, Mh.run K Mh.new actions = some (m, answers) ∧
      MapRun K ∅ actions answers t ∧ m.h.foreach = some places ∧ places.Pairwise (· < ·) ∧
      (places.map m.h.node).Perm (t.entries.map Sigma.snd) := by
  obtain ⟨m, answers, t, hrun, hmap, hrep⟩ := represents_new.run actions (K := K)
  exact ⟨m, answers, t, _, hrun, hmap, foreach_eq m.h, (List.pairwise_lt_range).filter _,
    hrep.foreach_perm⟩

/-! Load. -/

omit [DecidableEq κ] in
theorem Kept.load {m : Mh ν} (hkept : Kept K m) : m.h.size ≤ m.h.usedPlaces ∧
    m.h.usedPlaces ≤ mhUpperBound m.h.nBuckets + m.h.nBuckets / 256 := by
  refine ⟨?_, ?_⟩
  · rw [hkept.size]
    exact held_le_used
  · rcases hkept with hidle | ⟨-, hgrowing⟩
    · have hused := hidle.used
      have hbounded := hidle.bounded
      rw [hidle.upperBound] at hbounded
      omega
    · have hused := hgrowing.used
      have hbounded := hgrowing.bounded
      have hposition := hgrowing.position
      omega

theorem run_append (K : Keyed κ ν) (m : Mh ν) (first rest : List (MhAction κ ν)) :
    m.run K (first ++ rest) = (m.run K first).bind fun between =>
      (between.1.run K rest).map fun last => (last.1, between.2 ++ last.2) := by
  induction first generalizing m with
  | nil =>
      show _ = (m.run K rest).map fun last => (last.1, [] ++ last.2)
      simp
  | cons action first ih =>
      rw [List.cons_append, run_cons, run_cons]
      cases m.act K action with
      | none => rfl
      | some next =>
          rw [Option.bind_some, Option.bind_some, ih]
          cases next.1.run K first with
          | none => rfl
          | some between =>
              rw [Option.bind_some, Option.map_some, Option.bind_some]
              cases between.1.run K rest <;> rfl

/-- With 256 places that are passed by each node that is put, a resize ends. -/
theorem Kept.resize_ends {m : Mh ν} (hkept : Kept K m) (puts : List (ν × MhMemory))
    (henough : m.h.nBuckets ≤ m.h.resizePosition + 256 * puts.length) :
    ∃ done m' answers, done <+: puts ∧
      m.run K (done.map fun put => .put put.1 put.2) = some (m', answers) ∧
      m'.h.resizePosition = 0 := by
  induction puts generalizing m with
  | nil =>
      refine ⟨[], m, [], List.nil_prefix, rfl, ?_⟩
      rcases hkept with hidle | ⟨-, hgrowing⟩
      · exact hidle.position
      · have hposition := hgrowing.position
        rw [List.length_nil] at henough
        omega
  | cons put puts ih =>
      by_cases hposition : 0 < m.h.resizePosition
      · obtain ⟨m₁, x, old, hput, hkept₁, hfurther, -⟩ := put_spec hkept put.1 put.2.small
        rw [List.length_cons] at henough
        have hact := act_put hput
        generalize (if x = m₁.h.nBuckets then MhAnswer.outOfMemory else .stored old) = answer at hact
        have hcons : ∀ {done m' answers}, m₁.run K done = some (m', answers) →
            m.run K (.put put.1 put.2 :: done) = some (m', answer :: answers) := by
          intro done m' answers hrun
          rw [run_cons, hact, Option.bind_some, hrun]
          rfl
        rcases hfurther hposition with hzero | ⟨hn, hmore⟩
        · exact ⟨[put], m₁, [answer], ⟨puts, rfl⟩, hcons rfl, hzero⟩
        · obtain ⟨done, m', answers, hprefix', hrun, hzero⟩ := ih hkept₁ (by omega)
          exact ⟨put :: done, m', answer :: answers, List.prefix_cons_inj put |>.mpr hprefix',
            hcons hrun, hzero⟩
      · exact ⟨[], m, [], List.nil_prefix, rfl, Nat.eq_zero_of_not_pos hposition⟩

/-- After every run, at most seven tenths and a 256th of the places are used, so that every search
ends; and of so many nodes that are put then as there are blocks of 256 places, one finds the resize
ended. -/
theorem run_load (K : Keyed κ ν) (actions : List (MhAction κ ν)) :
    ∃ m answers, Mh.run K Mh.new actions = some (m, answers) ∧ m.h.size ≤ m.h.usedPlaces ∧
      m.h.usedPlaces ≤ m.h.nBuckets * 7 / 10 + m.h.nBuckets / 256 ∧
      ∀ puts : List (ν × MhMemory), m.h.nBuckets ≤ 256 * puts.length →
        ∃ done m' answers', done <+: puts ∧
          Mh.run K Mh.new (actions ++ done.map fun put => .put put.1 put.2) = some (m', answers') ∧
          m'.h.resizePosition = 0 := by
  obtain ⟨m, answers, t, hrun, -, hrep⟩ := represents_new.run actions (K := K)
  refine ⟨m, answers, hrun, hrep.kept.load.1, hrep.kept.load.2, fun puts henough => ?_⟩
  obtain ⟨done, m', answers', hprefix', hrun', hzero⟩ := hrep.kept.resize_ends puts (by omega)
  refine ⟨done, m', answers ++ answers', hprefix', ?_, hzero⟩
  rw [run_append, hrun, Option.bind_some, hrun']
  rfl

/-- A run that is refused memory for the third node, and then resizes the table for it. -/
example :
    let K : Keyed Nat Nat := ⟨fun v => v, fun k => UInt32.ofNat k⟩
    let refusing : MhMemory := ⟨fun _ => (false, true), fun _ h => by cases h⟩
    let granting : MhMemory := ⟨fun n => (n < 100, true), fun n h => by
      have hn : n < 100 := of_decide_eq_true h
      omega⟩
    ((Mh.run K Mh.new [.put 1 granting, .put 2 granting, .put 3 refusing, .put 3 granting,
      .put 2 granting, .drop 1]).map fun (m, answers) =>
        (answers, m.h.size, m.h.nBuckets, m.h.usedPlaces, m.h.foreach.map (·.map m.h.node))) =
      some ([.stored none, .stored none, .outOfMemory, .stored none, .stored (some 2), .done],
        2, 11, 2, some [2, 3]) := by
  decide

/-! Deletion in an iteration. -/

/-- A loop of `mh_foreach` that deletes the nodes under the keys of the record it has come to, as
`beer_schema_space_free` and `beer_schema_index_free` do, from a place on. -/
def sweepFrom (K : Keyed κ ν) (keys : ν → List κ) : (fuel : Nat) → Mh ν → (i : Nat) →
    Option (Mh ν)
  | 0, m, i => if i < m.h.nBuckets then none else some m
  | fuel + 1, m, i =>
      if i < m.h.nBuckets then do
        let m ← (keys (m.h.node i)).foldlM (Mh.drop K) m
        sweepFrom K keys fuel m (m.h.next i)
      else some m

/-- The whole loop. -/
def sweep (K : Keyed κ ν) (keys : ν → List κ) (m : Mh ν) : Option (Mh ν) :=
  m.sweepFrom K keys m.h.nBuckets m.h.first

/-- What deletions do to a table that is not being resized: the nodes that are left keep their
places. -/
structure Emptied (K : Keyed κ ν) (ks : List κ) (h h' : MhTable ν) : Prop where
  idle : Idle K h'
  nBuckets : h'.nBuckets = h.nBuckets
  p : h'.p = h.p
  exist : ∀ i, h'.exist i = true → h.exist i = true
  gone : ∀ v, h'.Holds v → K.key v ∉ ks

theorem drop_idle {m : Mh ν} (hidle : Idle K m.h) (k : κ) :
    ∃ m', m.drop K k = some m' ∧ Emptied K [k] m.h m'.h := by
  obtain ⟨x, hfind, hfound⟩ := find_spec hidle.sound hidle.used_lt k
  unfold drop
  rw [hfind, Option.bind_eq_bind, Option.bind_some]
  rcases hfound with ⟨hx, v, hv, hkey⟩ | ⟨hx, habsent⟩
  · obtain ⟨hexist, hnode⟩ := value_eq_some.mp hv
    have hfreed := free_spec hidle.sound hx hexist
    have hdel : m.del K x = some { m with h := m.h.free x } := by
      unfold del
      rw [if_pos ⟨Nat.ne_of_lt hx, hexist⟩]
      exact if_neg (Nat.not_lt.mpr (Nat.le_of_eq hidle.position))
    refine ⟨_, (if_pos (Nat.ne_of_lt hx)).trans hdel, hidle.freed hfreed, rfl, rfl, ?_, ?_⟩
    · intro i hi
      have hbits : (m.h.setFree x).exist i = true := hi
      rw [exist_setFree m.h (hidle.sound.sized.word_lt hx), Bool.and_eq_true] at hbits
      exact hbits.1
    · intro w hw
      rw [List.mem_singleton, ← hkey, ← hnode]
      exact ((hfreed.holds w).mp hw).2
  · refine ⟨m, if_neg fun hne => hne hx, hidle, rfl, rfl, fun i hi => hi, ?_⟩
    rintro v ⟨i, hi, hv⟩
    rw [List.mem_singleton]
    exact fun hkey => habsent i hi ⟨v, hv, hkey⟩

omit [DecidableEq κ] in
theorem Emptied.holds {ks : List κ} {h h' : MhTable ν} (hemptied : Emptied K ks h h') {v : ν}
    (hv : h'.Holds v) : h.Holds v := by
  obtain ⟨i, hi, hvi⟩ := hv
  obtain ⟨hexist, hnode⟩ := value_eq_some.mp hvi
  refine ⟨i, hemptied.nBuckets ▸ hi, value_eq_some.mpr ⟨hemptied.exist i hexist, ?_⟩⟩
  rw [← hnode]
  unfold node
  rw [hemptied.p]

theorem dropAll_idle (ks : List κ) {m : Mh ν} (hidle : Idle K m.h) :
    ∃ m', ks.foldlM (Mh.drop K) m = some m' ∧ Emptied K ks m.h m'.h := by
  induction ks generalizing m with
  | nil => exact ⟨m, rfl, hidle, rfl, rfl, fun i hi => hi, fun v _ => List.not_mem_nil⟩
  | cons k ks ih =>
      obtain ⟨m₁, hdrop, hfirst⟩ := drop_idle hidle k
      obtain ⟨m', hrest, hthen⟩ := ih hfirst.idle
      refine ⟨m', ?_, hthen.idle, hthen.nBuckets.trans hfirst.nBuckets, hthen.p.trans hfirst.p,
        fun i hi => hfirst.exist i (hthen.exist i hi), fun v hv => ?_⟩
      · rw [List.foldlM_cons, hdrop]
        exact hrest
      · rw [List.mem_cons, not_or]
        exact ⟨fun hkey => hfirst.gone v (hthen.holds hv) (List.mem_singleton.mpr hkey),
          hthen.gone v hv⟩

theorem sweepFrom_spec {keys : ν → List κ} (hkeys : ∀ v, K.key v ∈ keys v) (fuel : Nat) {m : Mh ν}
    (hidle : Idle K m.h) {i : Nat} (hi : i ≤ m.h.nBuckets)
    (hbefore : ∀ j < i, m.h.exist j = false) (hfuel : m.h.nBuckets ≤ i + fuel) :
    ∃ m', m.sweepFrom K keys fuel i = some m' ∧ Idle K m'.h ∧
      ∀ j < m'.h.nBuckets, m'.h.exist j = false := by
  induction fuel generalizing m i with
  | zero =>
      have hend : i = m.h.nBuckets := by omega
      exact ⟨m, if_neg (by omega), hidle, fun j hj => hbefore j (by omega)⟩
  | succ fuel ih =>
      unfold sweepFrom
      by_cases hlt : i < m.h.nBuckets
      · obtain ⟨m₁, hdrops, hemptied⟩ := dropAll_idle (keys (m.h.node i)) hidle
        have hn := hemptied.nBuckets
        obtain ⟨hgt, hle, hskip, -⟩ := next_spec m₁.h (i := i) (by omega)
        have hnone : m₁.h.exist i = false := by
          by_contra hexist
          rw [Bool.not_eq_false] at hexist
          have hnode : m₁.h.node i = m.h.node i := by
            unfold node
            rw [hemptied.p]
          have hheld : m₁.h.Holds (m.h.node i) :=
            ⟨i, by omega, value_eq_some.mpr ⟨hexist, hnode⟩⟩
          exact hemptied.gone _ hheld (hkeys _)
        have hbefore' : ∀ j < m₁.h.next i, m₁.h.exist j = false := by
          intro j hj
          rcases Nat.lt_trichotomy j i with hless | rfl | hmore
          · have hold := hbefore j hless
            by_contra hexist
            rw [Bool.not_eq_false] at hexist
            rw [hemptied.exist j hexist] at hold
            cases hold
          · exact hnone
          · exact hskip j hmore hj
        rw [if_pos hlt, hdrops]
        exact ih hemptied.idle hle hbefore' (by omega)
      · rw [if_neg hlt]
        exact ⟨m, rfl, hidle, fun j hj => hbefore j (by omega)⟩

/-- If no resize goes on after a run, a loop of `mh_foreach` that deletes every node it comes to,
along with others, ends and leaves nothing to be found or counted. -/
theorem run_sweep (K : Keyed κ ν) (actions : List (MhAction κ ν)) {m : Mh ν}
    {answers : List (MhAnswer ν)} (hrun : Mh.run K Mh.new actions = some (m, answers))
    (hposition : m.h.resizePosition = 0) (keys : ν → List κ) (hkeys : ∀ v, K.key v ∈ keys v) :
    ∃ m', m.sweep K keys = some m' ∧ m'.h.size = 0 ∧ m'.h.foreach = some [] ∧
      ∀ k, m'.h.find K k = some m'.h.nBuckets := by
  obtain ⟨m₁, answers₁, t, hrun₁, -, hrep⟩ := represents_new.run actions (K := K)
  rw [hrun] at hrun₁
  cases hrun₁
  have hidle : Idle K m.h := by
    rcases hrep.kept with hidle | ⟨hpos, -⟩
    · exact hidle
    · omega
  obtain ⟨hle, hbefore, -⟩ := first_spec m.h
  obtain ⟨m', hsweep, hidle', hnone⟩ :=
    sweepFrom_spec hkeys m.h.nBuckets hidle hle hbefore (Nat.le_add_left _ _)
  have hforeach : (List.range m'.h.nBuckets).filter m'.h.exist = [] := by
    rw [List.filter_eq_nil_iff]
    intro i hi
    rw [hnone i (List.mem_range.mp hi)]
    exact Bool.false_ne_true
  refine ⟨m', hsweep, ?_, ?_, fun k => ?_⟩
  · rw [hidle'.size]
    unfold heldPlaces Slots.held
    apply Finset.card_eq_zero.mpr
    apply Finset.filter_eq_empty_iff.mpr
    intro i hi
    rw [value_eq_none.mpr (hnone i (Finset.mem_range.mp hi))]
    exact Bool.false_ne_true
  · rw [foreach_eq, hforeach]
  · obtain ⟨x, hfind, ⟨hx, hkey⟩ | ⟨rfl, -⟩⟩ := find_spec hidle'.sound hidle'.used_lt k
    · rw [hasKey_iff, hnone x hx] at hkey
      cases hkey.1
    · exact hfind

theorem run_sweep_two :
    let K : Keyed Nat Nat := ⟨fun v => v, fun k => UInt32.ofNat k⟩
    let memory : MhMemory := ⟨fun n => (n < 100, true), by
      intro n hn
      have hlt : n < 100 := of_decide_eq_true hn
      omega⟩
    ∃ m answers m', Mh.run K Mh.new [.put 4 memory, .put 7 memory] = some (m, answers) ∧
      m.sweep K (fun v => [v]) = some m' ∧ m'.h.size = 0 := by
  intro K memory
  have hrun : ((Mh.run K Mh.new [.put 4 memory, .put 7 memory]).map fun last =>
      last.1.h.resizePosition) = some 0 := by decide
  obtain ⟨⟨m, answers⟩, hrun, hposition⟩ := Option.map_eq_some_iff.mp hrun
  obtain ⟨m', hsweep, hsize, -⟩ :=
    run_sweep K _ hrun hposition (fun v => [v]) fun v => List.mem_singleton.mpr rfl
  exact ⟨m, answers, m', hrun, hsweep, hsize⟩

end Mh

end BeeC
