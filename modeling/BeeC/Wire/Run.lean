import Mathlib.Data.List.Basic

/-!
Runs of a step function over a list of actions, what holds at every moment of a run, and what
holds of every step.
-/

namespace BeeC.Wire.Run

variable {σ α : Type} (step : σ → α → σ)

/-- The property holds before the first step of the run and after each step. -/
def Always (P : σ → Prop) (s : σ) (actions : List α) : Prop :=
  ∀ done, done <+: actions → P (done.foldl step s)

/-- Every step of the run is taken in a state that allows its action. -/
def Every (ok : σ → α → Prop) (s : σ) (actions : List α) : Prop :=
  ∀ done action, done ++ [action] <+: actions → ok (done.foldl step s) action

variable {step}

theorem always_nil {P : σ → Prop} {s : σ} : Always step P s [] ↔ P s := by
  simp [Always]

theorem always_cons {P : σ → Prop} {s : σ} {action : α} {actions : List α} :
    Always step P s (action :: actions) ↔ P s ∧ Always step P (step s action) actions := by
  constructor
  · intro h
    refine ⟨h [] List.nil_prefix, fun done hdone => ?_⟩
    exact h (action :: done) ((List.prefix_cons_inj action).mpr hdone)
  · rintro ⟨hs, h⟩ done hdone
    cases done with
    | nil => exact hs
    | cons first done =>
        obtain ⟨rfl, hrest⟩ := List.cons_prefix_cons.mp hdone
        exact h done hrest

theorem every_nil {ok : σ → α → Prop} {s : σ} : Every step ok s [] := by
  rintro done action h
  exact absurd (List.prefix_nil.mp h) (by simp)

theorem every_cons {ok : σ → α → Prop} {s : σ} {action : α} {actions : List α} :
    Every step ok s (action :: actions) ↔ ok s action ∧ Every step ok (step s action) actions := by
  constructor
  · intro h
    refine ⟨h [] action (by simp), fun done next hdone => ?_⟩
    exact h (action :: done) next ((List.prefix_cons_inj action).mpr hdone)
  · rintro ⟨hs, h⟩ done next hdone
    cases done with
    | nil =>
        obtain ⟨rfl, -⟩ := List.cons_prefix_cons.mp hdone
        exact hs
    | cons first done =>
        obtain ⟨rfl, hrest⟩ := List.cons_prefix_cons.mp hdone
        exact h done next hrest

theorem always_of_step {P : σ → Prop} (hstep : ∀ s action, P s → P (step s action)) {s : σ}
    (hs : P s) (actions : List α) : Always step P s actions := by
  induction actions generalizing s with
  | nil => exact always_nil.mpr hs
  | cons action actions ih => exact always_cons.mpr ⟨hs, ih (hstep s action hs)⟩

theorem Always.imp {P Q : σ → Prop} (hPQ : ∀ s, P s → Q s) {s : σ} {actions : List α}
    (h : Always step P s actions) : Always step Q s actions :=
  fun done hdone => hPQ _ (h done hdone)

theorem Always.every {P : σ → Prop} {ok : σ → α → Prop} (hok : ∀ s action, P s → ok s action)
    {s : σ} {actions : List α} (h : Always step P s actions) : Every step ok s actions :=
  fun done action hdone => hok _ action (h done ((List.prefix_append done [action]).trans hdone))

/-- If, under an invariant, a step preserves the property exactly when it is allowed, the property
always holds exactly when every step is allowed. -/
theorem always_iff_every {I P : σ → Prop} {ok : σ → α → Prop}
    (hinv : ∀ s action, I s → I (step s action))
    (hstep : ∀ s action, I s → P s → (P (step s action) ↔ ok s action)) {s : σ} (hI : I s)
    (hP : P s) (actions : List α) : Always step P s actions ↔ Every step ok s actions := by
  induction actions generalizing s with
  | nil => exact iff_of_true (always_nil.mpr hP) every_nil
  | cons action actions ih =>
      rw [always_cons, every_cons, ← hstep s action hI hP]
      refine ⟨fun h => ?_, fun h => ?_⟩
      · have hnext : P (step s action) := h.2 [] List.nil_prefix
        exact ⟨hnext, (ih (hinv s action hI) hnext).mp h.2⟩
      · exact ⟨hP, (ih (hinv s action hI) h.1).mpr h.2⟩

section Fallible

variable {ε : Type} (step : σ → α → Except ε σ)

/-- The steps of the run succeed, and the property holds before the first and after each. -/
def AlwaysOk (P : σ → Prop) (s : σ) (actions : List α) : Prop :=
  ∀ done, done <+: actions → ∃ s', done.foldlM step s = .ok s' ∧ P s'

/-- Every step of the run, as far as it succeeds, is taken in a state that allows its action. -/
def EveryOk (ok : σ → α → Prop) (s : σ) (actions : List α) : Prop :=
  ∀ done action, done ++ [action] <+: actions → ∀ s', done.foldlM step s = .ok s' → ok s' action

variable {step}

theorem foldlM_cons_eq_ok {s s' : σ} {action : α} {actions : List α} :
    (action :: actions).foldlM step s = .ok s' ↔
      ∃ next, step s action = .ok next ∧ actions.foldlM step next = .ok s' := by
  rw [List.foldlM_cons]
  cases step s action with
  | error reason => exact ⟨fun h => (nomatch h), fun ⟨_, h, _⟩ => (nomatch h)⟩
  | ok next =>
      refine ⟨fun h => ⟨next, rfl, h⟩, ?_⟩
      rintro ⟨_, hnext, h⟩
      cases hnext
      exact h

theorem alwaysOk_nil {P : σ → Prop} {s : σ} : AlwaysOk step P s [] ↔ P s := by
  constructor
  · intro h
    obtain ⟨s', hs', hP⟩ := h [] List.nil_prefix
    cases hs'
    exact hP
  · rintro h done hdone
    rw [List.prefix_nil.mp hdone]
    exact ⟨s, rfl, h⟩

theorem alwaysOk_cons {P : σ → Prop} {s : σ} {action : α} {actions : List α} :
    AlwaysOk step P s (action :: actions) ↔
      P s ∧ ∃ next, step s action = .ok next ∧ AlwaysOk step P next actions := by
  constructor
  · intro h
    obtain ⟨s', hs', hP⟩ := h [] List.nil_prefix
    cases hs'
    obtain ⟨_, hfirst, -⟩ := h [action] (by simp)
    obtain ⟨next, hnext, -⟩ := foldlM_cons_eq_ok.mp hfirst
    refine ⟨hP, next, hnext, fun done hdone => ?_⟩
    obtain ⟨last, hlast, hP⟩ := h (action :: done) ((List.prefix_cons_inj action).mpr hdone)
    obtain ⟨_, hnext', hlast⟩ := foldlM_cons_eq_ok.mp hlast
    rw [hnext] at hnext'
    cases hnext'
    exact ⟨last, hlast, hP⟩
  · rintro ⟨hP, next, hnext, h⟩ done hdone
    cases done with
    | nil => exact ⟨s, rfl, hP⟩
    | cons first done =>
        obtain ⟨rfl, hrest⟩ := List.cons_prefix_cons.mp hdone
        obtain ⟨last, hlast, hP⟩ := h done hrest
        exact ⟨last, foldlM_cons_eq_ok.mpr ⟨next, hnext, hlast⟩, hP⟩

theorem everyOk_nil {ok : σ → α → Prop} {s : σ} : EveryOk step ok s [] := by
  rintro done action h
  exact absurd (List.prefix_nil.mp h) (by simp)

theorem everyOk_cons {ok : σ → α → Prop} {s : σ} {action : α} {actions : List α} :
    EveryOk step ok s (action :: actions) ↔
      ok s action ∧ ∀ next, step s action = .ok next → EveryOk step ok next actions := by
  constructor
  · intro h
    refine ⟨h [] action (by simp) s rfl, fun next hnext done last hdone s' hs' => ?_⟩
    exact h (action :: done) last ((List.prefix_cons_inj action).mpr hdone) s'
      (foldlM_cons_eq_ok.mpr ⟨next, hnext, hs'⟩)
  · rintro ⟨hs, h⟩ done last hdone s' hs'
    cases done with
    | nil =>
        obtain ⟨rfl, -⟩ := List.cons_prefix_cons.mp hdone
        cases hs'
        exact hs
    | cons first done =>
        obtain ⟨rfl, hrest⟩ := List.cons_prefix_cons.mp hdone
        obtain ⟨next, hnext, hs'⟩ := foldlM_cons_eq_ok.mp hs'
        exact h next hnext done last hrest s' hs'

theorem alwaysOk_of_everyOk {P : σ → Prop} {ok : σ → α → Prop}
    (hstep : ∀ s action, P s → ok s action → ∃ next, step s action = .ok next ∧ P next) {s : σ}
    (hs : P s) {actions : List α} (h : EveryOk step ok s actions) : AlwaysOk step P s actions := by
  induction actions generalizing s with
  | nil => exact alwaysOk_nil.mpr hs
  | cons action actions ih =>
      obtain ⟨hfirst, hrest⟩ := everyOk_cons.mp h
      obtain ⟨next, hnext, hP⟩ := hstep s action hs hfirst
      exact alwaysOk_cons.mpr ⟨hs, next, hnext, ih hP (hrest next hnext)⟩

theorem EveryOk.imp {I : σ → Prop} {ok ok' : σ → α → Prop}
    (hinv : ∀ s action next, I s → ok s action → step s action = .ok next → I next)
    (hok : ∀ s action, I s → ok s action → ok' s action) {s : σ} (hs : I s) {actions : List α}
    (h : EveryOk step ok s actions) : EveryOk step ok' s actions := by
  induction actions generalizing s with
  | nil => exact everyOk_nil
  | cons action actions ih =>
      obtain ⟨hfirst, hrest⟩ := everyOk_cons.mp h
      exact everyOk_cons.mpr ⟨hok s action hs hfirst, fun next hnext =>
        ih (hinv s action next hs hfirst hnext) (hrest next hnext)⟩

theorem AlwaysOk.imp {P Q : σ → Prop} (hPQ : ∀ s, P s → Q s) {s : σ} {actions : List α}
    (h : AlwaysOk step P s actions) : AlwaysOk step Q s actions := by
  intro done hdone
  obtain ⟨s', hs', hP⟩ := h done hdone
  exact ⟨s', hs', hPQ s' hP⟩

theorem AlwaysOk.every {P : σ → Prop} {ok : σ → α → Prop} (hok : ∀ s action, P s → ok s action)
    {s : σ} {actions : List α} (h : AlwaysOk step P s actions) : EveryOk step ok s actions := by
  intro done action hdone s' hs'
  obtain ⟨_, hsame, hP⟩ := h done ((List.prefix_append done [action]).trans hdone)
  rw [hs'] at hsame
  cases hsame
  exact hok s' action hP

theorem AlwaysOk.steps {P : σ → Prop} {s : σ} {actions : List α} (h : AlwaysOk step P s actions) :
    EveryOk step (fun s action => ∃ next, step s action = .ok next) s actions := by
  intro done action hdone s' hs'
  obtain ⟨last, hlast, -⟩ := h _ hdone
  rw [List.foldlM_append, hs'] at hlast
  obtain ⟨next, hnext, -⟩ := foldlM_cons_eq_ok.mp hlast
  exact ⟨next, hnext⟩

theorem EveryOk.and {ok ok' : σ → α → Prop} {s : σ} {actions : List α}
    (h : EveryOk step ok s actions) (h' : EveryOk step ok' s actions) :
    EveryOk step (fun s action => ok s action ∧ ok' s action) s actions :=
  fun done action hdone s' hs' => ⟨h done action hdone s' hs', h' done action hdone s' hs'⟩

end Fallible

end BeeC.Wire.Run
