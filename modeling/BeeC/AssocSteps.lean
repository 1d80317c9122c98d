import BeeC.AssocResize

namespace BeeC

open BeeC.Wire.Probing

open MhTable

namespace Mh

variable {κ ν : Type} [Inhabited ν] {K : Keyed κ ν}

/-- A table that is not being resized. -/
structure Idle (K : Keyed κ ν) (h : MhTable ν) : Prop where
  sound : Sound K h
  index : ∃ i, acPrimeList[i]? = some h.nBuckets ∧ (h.prime = i ∨ h.prime = i + 1)
  upperBound : h.upperBound = mhUpperBound h.nBuckets
  position : h.resizePosition = 0
  size : h.size = h.heldPlaces
  used : h.usedPlaces ≤ h.nDirty
  bounded : h.nDirty ≤ h.upperBound

/-- A table that is being resized. With every 256 places that are passed, there is a credit for one
node to be put. -/
structure Growing (K : Keyed κ ν) (credit : Nat) (m : Mh ν) : Prop where
  sound : Sound K m.h
  index : ∃ i, acPrimeList[i]? = some m.h.nBuckets ∧ acPrimeList[i + 1]? = some m.shadow.nBuckets ∧
    m.shadow.prime = i + 1
  upperBound : m.shadow.upperBound = mhUpperBound m.shadow.nBuckets
  shadowPosition : m.shadow.resizePosition = 0
  position : m.h.resizePosition < m.h.nBuckets
  batch : 256 ≤ m.h.batch
  size : m.h.size = m.h.heldPlaces
  used : m.h.usedPlaces ≤ m.h.nDirty
  bounded : 256 * m.h.nDirty + credit ≤ 256 * mhUpperBound m.h.nBuckets + m.h.resizePosition
  shadows : Shadows K m.h m.shadow m.h.resizePosition
  shadowDirty : 256 * m.shadow.nDirty + credit ≤ 257 * m.h.resizePosition
  shadowMore : m.h.size ≤ m.shadow.size
  shadowSize : 256 * m.shadow.size + credit ≤ 256 * m.h.nBuckets + m.h.resizePosition

/-- What holds of every hash. -/
def Kept (K : Keyed κ ν) (m : Mh ν) : Prop :=
  Idle K m.h ∨ (0 < m.h.resizePosition ∧ Growing K 0 m)

/-- A hash that has room for a node without another look at the counts. -/
def Ready (K : Keyed κ ν) (m : Mh ν) : Prop :=
  (Idle K m.h ∧ m.h.nDirty < m.h.upperBound) ∨ (0 < m.h.resizePosition ∧ Growing K 256 m)

theorem Idle.used_lt {h : MhTable ν} (hidle : Idle K h) : h.usedPlaces < h.nBuckets := by
  have hused := hidle.used
  have hbounded := hidle.bounded
  have hlt := mhUpperBound_lt hidle.sound.prime.pos
  rw [hidle.upperBound] at hbounded
  omega

section Growing

variable {credit : Nat} {m : Mh ν}

theorem Growing.dirty_lt (hgrowing : Growing K credit m) : m.h.nDirty < m.h.nBuckets := by
  have hbounded := hgrowing.bounded
  have hposition := hgrowing.position
  have hlt := mhUpperBound_lt hgrowing.sound.prime.pos
  omega

theorem Growing.used_lt (hgrowing : Growing K credit m) : m.h.usedPlaces < m.h.nBuckets :=
  Nat.lt_of_le_of_lt hgrowing.used hgrowing.dirty_lt

theorem Growing.room (hgrowing : Growing K credit m) :
    m.h.nBuckets + m.h.nBuckets / 256 + 2 ≤ mhUpperBound m.shadow.nBuckets := by
  obtain ⟨i, hn, hn', -⟩ := hgrowing.index
  exact room_of_acPrimeList hn hn' hgrowing.shadows.sound.small

theorem Growing.shadow_used_lt (hgrowing : Growing K credit m) :
    m.shadow.usedPlaces < m.shadow.nBuckets := by
  have hused := hgrowing.shadows.used
  have hdirty := hgrowing.shadowDirty
  have hposition := hgrowing.position
  have hroom := hgrowing.room
  have hle := mhUpperBound_le m.shadow.nBuckets
  omega

theorem Growing.shadow_size_lt (hgrowing : Growing K credit m) :
    m.shadow.size < m.shadow.nBuckets := by
  have hsize := hgrowing.shadowSize
  have hposition := hgrowing.position
  have hroom := hgrowing.room
  have hle := mhUpperBound_le m.shadow.nBuckets
  omega

theorem Growing.forget (hgrowing : Growing K credit m) : Growing K 0 m where
  sound := hgrowing.sound
  index := hgrowing.index
  upperBound := hgrowing.upperBound
  shadowPosition := hgrowing.shadowPosition
  position := hgrowing.position
  batch := hgrowing.batch
  size := hgrowing.size
  used := hgrowing.used
  bounded := Nat.le_trans (Nat.le_add_right _ _) hgrowing.bounded
  shadows := hgrowing.shadows
  shadowDirty := Nat.le_trans (Nat.le_add_right _ _) hgrowing.shadowDirty
  shadowMore := hgrowing.shadowMore
  shadowSize := Nat.le_trans (Nat.le_add_right _ _) hgrowing.shadowSize

end Growing

theorem Kept.of_ready {m : Mh ν} (hready : Ready K m) : Kept K m := by
  rcases hready with ⟨hidle, -⟩ | ⟨hposition, hgrowing⟩
  · exact .inl hidle
  · exact .inr ⟨hposition, hgrowing.forget⟩

theorem Kept.sound {m : Mh ν} (hkept : Kept K m) : Sound K m.h := by
  rcases hkept with hidle | ⟨-, hgrowing⟩
  · exact hidle.sound
  · exact hgrowing.sound

theorem Kept.used_lt {m : Mh ν} (hkept : Kept K m) : m.h.usedPlaces < m.h.nBuckets := by
  rcases hkept with hidle | ⟨-, hgrowing⟩
  · exact hidle.used_lt
  · exact hgrowing.used_lt

theorem Kept.size {m : Mh ν} (hkept : Kept K m) : m.h.size = m.h.heldPlaces := by
  rcases hkept with hidle | ⟨-, hgrowing⟩
  · exact hidle.size
  · exact hgrowing.size

theorem Kept.size_lt {m : Mh ν} (hkept : Kept K m) : m.h.size < m.h.nBuckets := by
  rw [hkept.size]
  exact Nat.lt_of_le_of_lt held_le_used hkept.used_lt

omit [Inhabited ν] in
theorem exist_zeroed {h : MhTable ν} {count : Nat} (hb : h.b = Array.replicate count 0) (i : Nat) :
    h.exist i = false ∧ h.dirty i = false := by
  have hword : h.b.getD (i >>> 4) 0 = 0 := by
    rw [hb, Array.getD_eq_getD_getElem?, Array.getElem?_replicate]
    split <;> rfl
  rw [exist_eq, dirty_eq, hword]
  exact ⟨BitVec.getLsbD_zero, BitVec.getLsbD_zero⟩

theorem usedPlaces_zeroed {h : MhTable ν} {count : Nat} (hb : h.b = Array.replicate count 0) :
    h.usedPlaces = 0 := by
  unfold usedPlaces Slots.used
  apply Finset.card_eq_zero.mpr
  apply Finset.filter_eq_empty_iff.mpr
  intro i _
  obtain ⟨hexist, hdirty⟩ := exist_zeroed hb i
  rw [value_eq_none.mpr hexist]
  show ¬ (false || h.dirty i) = true
  rw [hdirty]
  exact Bool.false_ne_true

theorem sound_zeroed {h : MhTable ν} (hmem : h.nBuckets ∈ acPrimeList) (hsmall : h.nBuckets < 2 ^ 31)
    (hp : h.p = Array.replicate h.nBuckets default)
    (hb : h.b = Array.replicate (h.nBuckets / 16 + 1) 0) : Sound K h where
  prime := prime_of_mem_acPrimeList hmem hsmall
  small := hsmall
  sized := by
    constructor
    · rw [hp, Array.size_replicate]
    · rw [hb, Array.size_replicate]
  chained := .of_empty fun i => value_eq_none.mpr (exist_zeroed hb i).1

variable [DecidableEq κ]

/-- A resize has gone on by at least 256 places, or it is over. -/
def Further (m m' : Mh ν) : Prop :=
  m'.h.resizePosition = 0 ∨
    (m'.h.nBuckets = m.h.nBuckets ∧ m.h.resizePosition + 256 ≤ m'.h.resizePosition)

/-- What `_mh(resize)` leaves: the nodes are the same, and there is room for one more. -/
structure Resized (K : Keyed κ ν) (m m' : Mh ν) : Prop where
  holds : ∀ v, m'.h.Holds v ↔ m.h.Holds v
  ready : Ready K m'
  further : Further m m'

theorem resize_spec {m : Mh ν} (hgrowing : Growing K 0 m) :
    ∃ m', m.resize K = some m' ∧ Resized K m m' := by
  have hposition := hgrowing.position
  have hroom := hgrowing.room
  have hbatch := hgrowing.batch
  have hdirty := hgrowing.shadowDirty
  have hle := mhUpperBound_le m.shadow.nBuckets
  obtain ⟨s', hloop, hrest, hdirty', hshadows⟩ := migrate_spec hgrowing.sound
    (m.h.nBuckets - m.h.resizePosition) m.h.batch m.h.resizePosition (by omega) hgrowing.shadows
    (by omega)
  have hn' : s'.nBuckets = m.shadow.nBuckets := by rw [hrest]
  unfold resize
  dsimp only
  rw [hloop]
  by_cases hstops : m.h.batch < m.h.nBuckets - m.h.resizePosition
  · rw [if_pos hstops]
    rw [Nat.min_eq_left (Nat.le_of_lt hstops)] at hdirty' hshadows
    have hbounded := hgrowing.bounded
    have hsize := hgrowing.shadowSize
    have hgrowing' : Growing K 256
        ⟨{ m.h with resizePosition := m.h.resizePosition + m.h.batch }, s'⟩ := by
      refine ⟨⟨hgrowing.sound.prime, hgrowing.sound.small, ⟨hgrowing.sound.sized.nodes,
        hgrowing.sound.sized.words⟩, hgrowing.sound.chained⟩, ?_, ?_, ?_, ?_, hbatch, hgrowing.size,
        hgrowing.used, ?_, ⟨hshadows.sound, hshadows.used, hshadows.sub, hshadows.moved⟩, ?_, ?_,
        ?_⟩
      · rw [hrest]
        exact hgrowing.index
      · rw [hrest]
        exact hgrowing.upperBound
      · rw [hrest]
        exact hgrowing.shadowPosition
      · show m.h.resizePosition + m.h.batch < m.h.nBuckets
        omega
      · show 256 * m.h.nDirty + 256 ≤ 256 * mhUpperBound m.h.nBuckets +
          (m.h.resizePosition + m.h.batch)
        omega
      · show 256 * s'.nDirty + 256 ≤ 257 * (m.h.resizePosition + m.h.batch)
        omega
      · rw [hrest]
        exact hgrowing.shadowMore
      · rw [hrest]
        show 256 * m.shadow.size + 256 ≤ 256 * m.h.nBuckets + (m.h.resizePosition + m.h.batch)
        omega
    refine ⟨_, rfl, fun v => Iff.rfl, .inr ⟨?_, hgrowing'⟩, .inr ⟨rfl, ?_⟩⟩
    · show 0 < m.h.resizePosition + m.h.batch
      omega
    · show m.h.resizePosition + 256 ≤ m.h.resizePosition + m.h.batch
      omega
  · rw [if_neg hstops]
    rw [Nat.min_eq_right (Nat.le_of_not_lt hstops)] at hdirty' hshadows
    have hholds : ∀ v, s'.Holds v ↔ m.h.Holds v := by
      intro v
      constructor
      · exact hshadows.sub v
      · rintro ⟨i, hi, hv⟩
        exact hshadows.moved i (by omega) v hv
    have hupper : s'.upperBound = mhUpperBound s'.nBuckets := by
      rw [hn', hrest]
      exact hgrowing.upperBound
    have hroom' : s'.nDirty < mhUpperBound s'.nBuckets := by
      rw [hn']
      omega
    obtain ⟨i, hn, hnext, hprime⟩ := hgrowing.index
    refine ⟨_, rfl, hholds, .inl ⟨⟨⟨hshadows.sound.prime, hshadows.sound.small,
      ⟨hshadows.sound.sized.nodes, hshadows.sound.sized.words⟩, hshadows.sound.chained⟩,
      ⟨i + 1, ?_, .inl ?_⟩, hupper, ?_, ?_, hshadows.used, ?_⟩, ?_⟩, .inl ?_⟩
    · show _ = some s'.nBuckets
      rw [hn']
      exact hnext
    · show s'.prime = i + 1
      rw [hrest]
      exact hprime
    · show s'.resizePosition = 0
      rw [hrest]
      exact hgrowing.shadowPosition
    · show m.h.size = s'.heldPlaces
      rw [heldPlaces_congr hgrowing.sound hshadows.sound hholds]
      exact hgrowing.size
    · show s'.nDirty ≤ s'.upperBound
      rw [hupper]
      exact Nat.le_of_lt hroom'
    · show s'.nDirty < s'.upperBound
      rw [hupper]
      exact hroom'
    · show s'.resizePosition = 0
      rw [hrest]
      exact hgrowing.shadowPosition

/-- The allocator refuses a larger table. -/
def Refused (m : Mh ν) (granted : Nat → Bool × Bool) : Prop :=
  ∃ n ∈ acPrimeList, m.h.nBuckets < n ∧ ((granted n).1 && (granted n).2) = false

theorem startResize_spec {m : Mh ν} (hidle : Idle K m.h) {granted : Nat → Bool × Bool}
    (hgranted : ∀ n, (granted n).1 = true → n < 2 ^ 31) :
    ∃ succeeded m', m.startResize K (m.h.nBuckets + 1) 0 granted = some (succeeded, m') ∧
      ((succeeded = true ∧ Resized K m m') ∨
        (succeeded = false ∧ Idle K m'.h ∧ m'.h.nBuckets = m.h.nBuckets ∧
          (∀ v, m'.h.Holds v ↔ m.h.Holds v) ∧ Refused m granted)) := by
  obtain ⟨i, hn, hprime⟩ := hidle.index
  obtain ⟨n', hn'⟩ := exists_next_acPrimeList hn hidle.sound.small
  have hlt := lt_of_acPrimeList hn hn'
  have hmem : n' ∈ acPrimeList := List.mem_of_getElem? hn'
  have hposition := hidle.position
  have hlarge : 256 ≤ (if m.h.nBuckets / (256 * 1024) < 256 then 256
      else m.h.nBuckets / (256 * 1024)) := by
    split <;> omega
  have hidle' : Idle K { m.h with
      prime := i + 1
      batch := if m.h.nBuckets / (256 * 1024) < 256 then 256
        else m.h.nBuckets / (256 * 1024) } :=
    ⟨⟨hidle.sound.prime, hidle.sound.small, ⟨hidle.sound.sized.nodes, hidle.sound.sized.words⟩,
      hidle.sound.chained⟩, ⟨i, hn, .inr rfl⟩, hidle.upperBound, hposition, hidle.size, hidle.used,
      hidle.bounded⟩
  unfold startResize
  rw [if_neg (by omega), if_neg (by omega)]
  dsimp only
  rw [primeFrom_eq hn hn' hprime, hn']
  dsimp only [Option.bind_eq_bind, Option.bind_some]
  cases hfirst : (granted n').1 with
  | false =>
      refine ⟨false, _, rfl, .inr ⟨rfl, hidle', rfl, fun v => Iff.rfl, n', hmem, hlt, ?_⟩⟩
      rw [hfirst, Bool.false_and]
  | true =>
      cases hsecond : (granted n').2 with
      | false =>
          refine ⟨false, _, rfl, .inr ⟨rfl, hidle', rfl, fun v => Iff.rfl, n', hmem, hlt, ?_⟩⟩
          rw [hsecond, Bool.and_false]
      | true =>
          have hsmall := hgranted n' hfirst
          have hheld : m.h.size ≤ m.h.nBuckets := by
            rw [hidle.size]
            exact Nat.le_trans held_le_used (Nat.le_of_lt hidle.used_lt)
          let h' : MhTable ν := { m.h with
            prime := i + 1
            batch := if m.h.nBuckets / (256 * 1024) < 256 then 256
              else m.h.nBuckets / (256 * 1024) }
          let s : MhTable ν := { h' with
            resizePosition := 0
            nBuckets := n'
            upperBound := mhUpperBound n'
            nDirty := 0
            p := Array.replicate n' default
            b := Array.replicate (n' / 16 + 1) 0 }
          have hsound : Sound K s := sound_zeroed hmem hsmall rfl rfl
          have hbounded := hidle.bounded
          rw [hidle.upperBound] at hbounded
          have hgrowing : Growing K 0 ⟨h', s⟩ := by
            refine ⟨hidle'.sound, ⟨i, hn, hn', rfl⟩, rfl, rfl, ?_, hlarge, hidle.size, hidle.used, ?_,
              ⟨hsound, ?_, ?_, ?_⟩, ?_, ?_, ?_⟩
            · show m.h.resizePosition < m.h.nBuckets
              rw [hposition]
              exact hidle.sound.prime.pos
            · show 256 * m.h.nDirty + 0 ≤ 256 * mhUpperBound m.h.nBuckets + m.h.resizePosition
              omega
            · exact le_of_eq (usedPlaces_zeroed rfl)
            · rintro v ⟨j, -, hv⟩
              rw [value_eq_none.mpr (exist_zeroed rfl j).1] at hv
              cases hv
            · intro j hj
              change j < m.h.resizePosition at hj
              omega
            · show 256 * 0 + 0 ≤ _
              omega
            · exact Nat.le_refl _
            · show 256 * m.h.size + 0 ≤ 256 * m.h.nBuckets + m.h.resizePosition
              omega
          obtain ⟨m', hresize, hresized⟩ := resize_spec hgrowing
          refine ⟨true, m', ?_, .inl ⟨rfl, hresized.holds, hresized.ready, hresized.further⟩⟩
          show (Mh.resize K ⟨h', s⟩).bind _ = _
          rw [hresize]
          rfl

/-! Nodes that are put. -/

omit [DecidableEq κ] in
theorem Idle.stored {h h' : MhTable ν} {v : ν} {x : Nat} {old : Option ν} (hidle : Idle K h)
    (hroom : h.nDirty < h.upperBound) (hstored : Stored K h h' v x old) : Idle K h' := by
  have hsmall := hidle.sound.small
  have hupper := hidle.upperBound
  have hle := mhUpperBound_le h.nBuckets
  have hheld : h.heldPlaces ≤ h.usedPlaces := held_le_used
  have hused := hidle.used
  have hsize := hidle.size
  have hsame : h'.upperBound = h.upperBound := by rw [hstored.rest]
  have hdirty := hstored.dirty (by omega) hused
  refine ⟨hstored.sound, ?_, ?_, ?_, ?_, ?_, ?_⟩
  · rw [hstored.rest]
    exact hidle.index
  · rw [hstored.rest]
    exact hupper
  · rw [hstored.rest]
    exact hidle.position
  · exact hstored.counted (by omega) hsize
  · exact hdirty.1
  · rw [hsame, hupper]
    omega

omit [DecidableEq κ] in
theorem Growing.stored {m : Mh ν} (hgrowing : Growing K 256 m) {h' s' : MhTable ν} {v : ν}
    {x y : Nat} {old old' : Option ν} (hstored : Stored K m.h h' v x old)
    (hshadow : Stored K m.shadow s' v y old') : Growing K 0 ⟨h', s'⟩ := by
  have hsmall := hgrowing.sound.small
  have hsmall' := hgrowing.shadows.sound.small
  have hheld : m.h.heldPlaces ≤ m.h.usedPlaces := held_le_used
  have hused := hgrowing.used
  have hdirty := hgrowing.dirty_lt
  have hsize := hgrowing.size
  have hshadowUsed := hgrowing.shadows.used
  have hshadowDirty := hgrowing.shadowDirty
  have hshadowLt := hgrowing.shadow_size_lt
  have hposition := hgrowing.position
  have hbounded := hgrowing.bounded
  have hmore := hgrowing.shadowMore
  have hshadowSize := hgrowing.shadowSize
  have hdirty' := hstored.dirty (by omega) hused
  have hshadowDirty' := hshadow.dirty (by omega) hshadowUsed
  have hn : h'.nBuckets = m.h.nBuckets := hstored.nBuckets
  have hr : h'.resizePosition = m.h.resizePosition := by rw [hstored.rest]
  have hsub : ∀ w, s'.Holds w → h'.Holds w := by
    intro w hw
    apply (hstored.holds w).mpr
    rcases (hshadow.holds w).mp hw with rfl | ⟨hw, hne⟩
    · exact .inl rfl
    · exact .inr ⟨hgrowing.shadows.sub w hw, hne⟩
  have hmoved : ∀ i < m.h.resizePosition, ∀ w, h'.places.value i = some w → s'.Holds w := by
    intro i hi w hw
    apply (hshadow.holds w).mpr
    by_cases hix : i = x
    · subst hix
      rw [value_of_exist hstored.exist, hstored.node] at hw
      exact .inl (Option.some.inj hw).symm
    · have hold := hstored.others i hix
      rcases (hstored.holds w).mp ⟨i, by omega, hw⟩ with rfl | ⟨-, hne⟩
      · exact .inl rfl
      · exact .inr ⟨hgrowing.shadows.moved i hi w (hold ▸ hw), hne⟩
  refine ⟨hstored.sound, ?_, ?_, ?_, ?_, ?_, ?_, ?_, ?_, ⟨hshadow.sound, ?_, hsub, ?_⟩, ?_, ?_, ?_⟩
  · rw [hn, hshadow.nBuckets, hshadow.rest]
    exact hgrowing.index
  · rw [hshadow.rest]
    exact hgrowing.upperBound
  · rw [hshadow.rest]
    exact hgrowing.shadowPosition
  · rw [hr, hn]
    exact hposition
  · rw [hstored.rest]
    exact hgrowing.batch
  · exact hstored.counted (by omega) hsize
  · exact hdirty'.1
  · rw [hn, hr]
    show 256 * h'.nDirty + 0 ≤ _
    omega
  · exact hshadowDirty'.1
  · rw [hr]
    exact hmoved
  · rw [hr]
    show 256 * s'.nDirty + 0 ≤ _
    omega
  · rcases hshadow.old with ⟨-, -, hsize', -⟩ | ⟨u, -, hu, hkey, hsize', -⟩
    · rw [hsize', mhInc_of_lt (by omega)]
      rcases hstored.old with ⟨-, -, hsize'', -⟩ | ⟨-, -, -, -, hsize'', -⟩
      · rw [hsize'', mhInc_of_lt (by omega)]
        omega
      · rw [hsize'']
        omega
    · rw [hsize']
      -- a node that the shadow has, the table has
      rcases hstored.old with ⟨-, habsent, -, -⟩ | ⟨-, -, -, -, hsize'', -⟩
      · exact absurd hkey (habsent u (hgrowing.shadows.sub u hu))
      · rw [hsize'']
        exact hmore
  · rw [hn, hr]
    rcases hshadow.old with ⟨-, -, hsize', -⟩ | ⟨-, -, -, -, hsize', -⟩
    · rw [hsize', mhInc_of_lt (by omega)]
      omega
    · rw [hsize']
      omega

theorem Ready.put {m : Mh ν} (hready : Ready K m) (v : ν) : ∃ shadow h' x old,
    m.putToShadow K v = some shadow ∧ m.h.store K v = some (h', x, old) ∧
      Stored K m.h h' v x old ∧ Kept K ⟨h', shadow⟩ := by
  rcases hready with ⟨hidle, hroom⟩ | ⟨hposition, hgrowing⟩
  · obtain ⟨h', x, old, hstore, hstored⟩ := store_spec hidle.sound hidle.used_lt v
    have hposition := hidle.position
    exact ⟨m.shadow, h', x, old, if_neg (by omega), hstore, hstored,
      .inl (hidle.stored hroom hstored)⟩
  · obtain ⟨h', x, old, hstore, hstored⟩ := store_spec hgrowing.sound hgrowing.used_lt v
    obtain ⟨s', y, old', hstore', hstored'⟩ :=
      store_spec hgrowing.shadows.sound hgrowing.shadow_used_lt v
    have hsize := hgrowing.shadow_size_lt
    have hdirty := hgrowing.shadowDirty
    have hlast := hgrowing.position
    have hroom := hgrowing.room
    have hputShadow : m.shadow.putShadow K v = some s' := by
      unfold putShadow
      rw [if_neg (Nat.ne_of_lt hsize), if_neg, hstore']
      · rfl
      · rw [hgrowing.shadowPosition, hgrowing.upperBound]
        omega
    refine ⟨s', h', x, old, (if_pos hposition).trans hputShadow, hstore, hstored, .inr ⟨?_, ?_⟩⟩
    · show 0 < h'.resizePosition
      rw [hstored.rest]
      exact hposition
    · exact hgrowing.stored hstored hstored'

omit [DecidableEq κ] in
/-- What `_mh(put)` does when it stores the node. -/
structure PutAccepted (K : Keyed κ ν) (m m' : Mh ν) (v : ν) (x : Nat) (old : Option ν) : Prop where
  lt : x < m'.h.nBuckets
  exist : m'.h.exist x = true
  node : m'.h.node x = v
  holds : ∀ w, m'.h.Holds w ↔ w = v ∨ (m.h.Holds w ∧ K.key w ≠ K.key v)
  old : (old = none ∧ ∀ w, m.h.Holds w → K.key w ≠ K.key v) ∨
    ∃ u, old = some u ∧ m.h.Holds u ∧ K.key u = K.key v

/-- What `_mh(put)` does when memory runs out. -/
structure PutRefused (m m' : Mh ν) (granted : Nat → Bool × Bool) (x : Nat) (old : Option ν) :
    Prop where
  slot : x = m'.h.nBuckets
  old : old = none
  holds : ∀ w, m'.h.Holds w ↔ m.h.Holds w
  refused : Refused m granted

omit [DecidableEq κ] in
theorem accepts_of_stored {m m₁ : Mh ν} {h' shadow : MhTable ν} {v : ν} {x : Nat} {old : Option ν}
    (hholds : ∀ w, m₁.h.Holds w ↔ m.h.Holds w) (hstored : Stored K m₁.h h' v x old) :
    PutAccepted K m ⟨h', shadow⟩ v x old where
  lt := by
    show x < h'.nBuckets
    rw [hstored.nBuckets]
    exact hstored.lt
  exist := hstored.exist
  node := hstored.node
  holds w := by
    rw [← hholds]
    exact hstored.holds w
  old := by
    rcases hstored.old with ⟨hold, habsent, -, -⟩ | ⟨u, hold, hu, hkey, -, -⟩
    · exact .inl ⟨hold, fun w hw => habsent w ((hholds w).mpr hw)⟩
    · exact .inr ⟨u, hold, (hholds u).mp hu, hkey⟩

theorem makeRoom_spec {m : Mh ν} (hkept : Kept K m) {granted : Nat → Bool × Bool}
    (hgranted : ∀ n, (granted n).1 = true → n < 2 ^ 31) :
    ∃ succeeded m', m.makeRoom K granted = some (succeeded, m') ∧
      (∀ w, m'.h.Holds w ↔ m.h.Holds w) ∧
      ((succeeded = true ∧ Ready K m' ∧ (0 < m.h.resizePosition → Further m m')) ∨
        (succeeded = false ∧ Idle K m'.h ∧ m'.h.nBuckets = m.h.nBuckets ∧ Refused m granted)) := by
  unfold makeRoom
  rcases hkept with hidle | ⟨hposition, hgrowing⟩
  · rw [if_neg (Nat.not_lt.mpr (Nat.le_of_eq hidle.position))]
    by_cases hdirty : m.h.upperBound ≤ m.h.nDirty
    · rw [if_pos hdirty]
      obtain ⟨succeeded, m₁, hstart, ⟨hsucceeded, hresized⟩ | ⟨hfailed, hidle', hn, hholds, hno⟩⟩ :=
        startResize_spec hidle hgranted
      · exact ⟨succeeded, m₁, hstart, hresized.holds,
          .inl ⟨hsucceeded, hresized.ready, fun _ => hresized.further⟩⟩
      · exact ⟨succeeded, m₁, hstart, hholds, .inr ⟨hfailed, hidle', hn, hno⟩⟩
    · rw [if_neg hdirty]
      exact ⟨true, m, rfl, fun w => Iff.rfl,
        .inl ⟨rfl, .inl ⟨hidle, Nat.lt_of_not_le hdirty⟩, fun _ => .inl hidle.position⟩⟩
  · rw [if_pos hposition]
    obtain ⟨m₁, hresize, hresized⟩ := resize_spec hgrowing
    rw [hresize]
    exact ⟨true, m₁, rfl, hresized.holds, .inl ⟨rfl, hresized.ready, fun _ => hresized.further⟩⟩

/-- `_mh(put)` ends. It stores the node, or memory runs out and nothing changes. -/
theorem put_spec {m : Mh ν} (hkept : Kept K m) (v : ν) {granted : Nat → Bool × Bool}
    (hgranted : ∀ n, (granted n).1 = true → n < 2 ^ 31) :
    ∃ m' x old, m.put K v granted = some (m', x, old) ∧ Kept K m' ∧
      (0 < m.h.resizePosition → Further m m') ∧
      (PutAccepted K m m' v x old ∨ PutRefused m m' granted x old) := by
  unfold put
  rw [if_neg (Nat.ne_of_lt hkept.size_lt)]
  obtain ⟨succeeded, m₁, hroom, hholds, ⟨rfl, hready, hfurther⟩ | ⟨rfl, hidle, hn, hrefused⟩⟩ :=
    makeRoom_spec hkept hgranted
  · obtain ⟨shadow, h', x, old, hshadow, hstore, hstored, hkept'⟩ := hready.put v
    rw [hroom]
    dsimp only [Option.bind_eq_bind, Option.bind_some]
    rw [if_neg (by decide), hshadow, Option.bind_some, hstore]
    refine ⟨_, x, old, rfl, hkept', ?_, .inl (accepts_of_stored hholds hstored)⟩
    intro hposition
    have hn : h'.nBuckets = m₁.h.nBuckets := hstored.nBuckets
    have hr : h'.resizePosition = m₁.h.resizePosition := by rw [hstored.rest]
    unfold Further
    rw [hn, hr]
    exact hfurther hposition
  · rw [hroom]
    exact ⟨m₁, _, none, rfl, .inl hidle, fun _ => .inl hidle.position,
      .inr ⟨hn.symm, rfl, hholds, hrefused⟩⟩

/-! Places that are freed. -/

section Freed

omit [DecidableEq κ]

/-- The shadow has lost the node of a key, if it had one. -/
structure Lost (K : Keyed κ ν) (s s' : MhTable ν) (v : ν) : Prop where
  sound : Sound K s'
  rest : s' = { s with b := s'.b, size := s'.size, nDirty := s'.nDirty }
  holds : ∀ w, s'.Holds w ↔ s.Holds w ∧ K.key w ≠ K.key v
  used : s'.usedPlaces ≤ s'.nDirty
  dirty : s'.nDirty ≤ s.nDirty
  size : s.size - 1 ≤ s'.size ∧ s'.size ≤ s.size

theorem Idle.freed {h h' : MhTable ν} {v : ν} (hidle : Idle K h) (hfreed : Freed K h h' v) :
    Idle K h' := by
  have hsmall := hidle.sound.small
  have hupper := hidle.upperBound
  have hle := mhUpperBound_le h.nBuckets
  have hbounded := hidle.bounded
  have hsize := hidle.size
  have hheld := hfreed.held
  have hused : h.heldPlaces ≤ h.usedPlaces := held_le_used
  have hlt := hidle.used_lt
  have hdirty := hfreed.dirty (by omega) hidle.used
  have hsame : h'.upperBound = h.upperBound := by rw [hfreed.rest]
  refine ⟨hfreed.sound, ?_, ?_, ?_, ?_, hdirty.1, ?_⟩
  · rw [hfreed.rest]
    exact hidle.index
  · rw [hfreed.rest]
    exact hupper
  · rw [hfreed.rest]
    exact hidle.position
  · rw [hfreed.counted (by omega) (by omega)]
    omega
  · rw [hsame]
    exact Nat.le_trans hdirty.2 hbounded

theorem Growing.freed {m : Mh ν} (hgrowing : Growing K 0 m) {h' s' : MhTable ν} {v : ν}
    (hfreed : Freed K m.h h' v) (hlost : Lost K m.shadow s' v) : Growing K 0 ⟨h', s'⟩ := by
  have hsmall := hgrowing.sound.small
  have hsize := hgrowing.size
  have hheld := hfreed.held
  have hused : m.h.heldPlaces ≤ m.h.usedPlaces := held_le_used
  have hlt := hgrowing.used_lt
  have hdirty := hfreed.dirty (Nat.lt_trans hgrowing.dirty_lt (by omega)) hgrowing.used
  have hcounted := hfreed.counted (by omega) (by omega)
  have hbounded := hgrowing.bounded
  have hmore := hgrowing.shadowMore
  have hshadowSize := hgrowing.shadowSize
  have hn : h'.nBuckets = m.h.nBuckets := by rw [hfreed.rest]
  have hr : h'.resizePosition = m.h.resizePosition := by rw [hfreed.rest]
  have hn' : s'.nBuckets = m.shadow.nBuckets := by rw [hlost.rest]
  refine ⟨hfreed.sound, ?_, ?_, ?_, ?_, ?_, ?_, hdirty.1, ?_, ⟨hlost.sound, hlost.used, ?_, ?_⟩, ?_,
    ?_, ?_⟩
  · rw [hn, hn', hlost.rest]
    exact hgrowing.index
  · rw [hlost.rest]
    exact hgrowing.upperBound
  · rw [hlost.rest]
    exact hgrowing.shadowPosition
  · rw [hr, hn]
    exact hgrowing.position
  · rw [hfreed.rest]
    exact hgrowing.batch
  · rw [hcounted]
    show m.h.size - 1 = h'.heldPlaces
    omega
  · rw [hn, hr]
    exact Nat.le_trans (Nat.mul_le_mul_left 256 hdirty.2) hbounded
  · intro w hw
    obtain ⟨hw, hne⟩ := (hlost.holds w).mp hw
    exact (hfreed.holds w).mpr ⟨hgrowing.shadows.sub w hw, hne⟩
  · rw [hr]
    intro i hi w hw
    have hposition := hgrowing.position
    have hlast := ((hfreed.holds w).mp ⟨i, by omega, hw⟩).2
    exact (hlost.holds w).mpr ⟨hgrowing.shadows.moved i hi w (hfreed.value i w hw), hlast⟩
  · rw [hr]
    exact Nat.le_trans (Nat.mul_le_mul_left 256 hlost.dirty) hgrowing.shadowDirty
  · have hsizes := hlost.size
    rw [hcounted]
    show m.h.size - 1 ≤ s'.size
    omega
  · have hsizes := hlost.size
    rw [hn, hr]
    exact Nat.le_trans (Nat.mul_le_mul_left 256 hsizes.2) hshadowSize

end Freed

theorem delShadow_spec {m : Mh ν} (hgrowing : Growing K 0 m) (hpos : 0 < m.h.size) (v : ν) :
    ∃ y s', m.shadow.get K v = some y ∧ m.shadow.delShadow y = some s' ∧
      Lost K m.shadow s' v := by
  have hsound := hgrowing.shadows.sound
  have hsmall := hsound.small
  have hused := hgrowing.shadows.used
  have hless := hgrowing.shadow_used_lt
  have hsize := hgrowing.shadow_size_lt
  have hmore := hgrowing.shadowMore
  have hdirty := hgrowing.shadowDirty
  have hroom := hgrowing.room
  have hposition := hgrowing.position
  have hle := mhUpperBound_le m.shadow.nBuckets
  obtain ⟨y, hget, ⟨hy, w, hw, hkey⟩ | ⟨hy, habsent⟩⟩ := get_spec hsound hless v
  · obtain ⟨hexist, rfl⟩ := value_eq_some.mp hw
    have hfreed := free_spec hsound hy hexist
    have hdirty' := hfreed.dirty (by omega) hused
    have hcounted := hfreed.counted (by omega) (by omega)
    refine ⟨y, _, hget, ?_, hfreed.sound, hfreed.rest, ?_, hdirty'.1, hdirty'.2, ?_⟩
    · unfold delShadow
      rw [if_pos ⟨Nat.ne_of_lt hy, hexist⟩,
        if_neg (Nat.not_lt.mpr (Nat.le_of_eq hgrowing.shadowPosition))]
    · rw [← hkey]
      exact hfreed.holds
    · omega
  · refine ⟨y, m.shadow, hget, if_neg fun h => h.1 hy, hsound, rfl, ?_, hused, Nat.le_refl _,
      Nat.sub_le _ _, Nat.le_refl _⟩
    intro w
    refine ⟨fun hw => ⟨hw, ?_⟩, fun hw => hw.1⟩
    obtain ⟨i, hi, hwi⟩ := hw
    exact fun hkey => habsent i hi ⟨w, hwi, hkey⟩

/-- `_mh(del)` ends. It takes out the node of a place in use, and else changes nothing. -/
theorem del_spec {m : Mh ν} (hkept : Kept K m) {x : Nat} (hx : x ≤ m.h.nBuckets) :
    ∃ m', m.del K x = some m' ∧ Kept K m' ∧
      ((x < m.h.nBuckets ∧ m.h.exist x = true ∧
          ∀ w, m'.h.Holds w ↔ m.h.Holds w ∧ K.key w ≠ K.key (m.h.node x)) ∨
        (¬ (x < m.h.nBuckets ∧ m.h.exist x = true) ∧ m' = m)) := by
  unfold del
  by_cases hin : x ≠ m.h.nBuckets ∧ m.h.exist x = true
  · have hlt := Nat.lt_of_le_of_ne hx hin.1
    have hfreed := free_spec hkept.sound hlt hin.2
    have hsize := hkept.size
    have hheld := hfreed.held
    rw [if_pos hin]
    dsimp only
    rcases hkept with hidle | ⟨hposition, hgrowing⟩
    · have hzero : ¬ 0 < (m.h.free x).resizePosition :=
        Nat.not_lt.mpr (Nat.le_of_eq hidle.position)
      rw [if_neg hzero]
      exact ⟨_, rfl, .inl (hidle.freed hfreed), .inl ⟨hlt, hin.2, hfreed.holds⟩⟩
    · have hpos : 0 < (m.h.free x).resizePosition := hposition
      obtain ⟨y, s', hget, hdel, hlost⟩ :=
        delShadow_spec hgrowing (by omega) ((m.h.free x).node x)
      obtain ⟨m', hresize, hresized⟩ := resize_spec (hgrowing.freed hfreed hlost)
      rw [if_pos hpos, hget]
      dsimp only [Option.bind_eq_bind, Option.bind_some]
      rw [hdel, Option.bind_some, hresize]
      refine ⟨m', rfl, .of_ready hresized.ready, .inl ⟨hlt, hin.2, fun w => ?_⟩⟩
      rw [hresized.holds]
      exact hfreed.holds w
  · rw [if_neg hin]
    exact ⟨m, rfl, hkept, .inr ⟨fun h => hin ⟨Nat.ne_of_lt h.1, h.2⟩, rfl⟩⟩

end Mh

end BeeC
