import Mathlib.Logic.Basic

/-!
Counted loops over steps that may stop, and how one such loop follows another.
-/

namespace BeeC.Wire.Loop

variable {ε α β σ τ : Type}

@[simp] theorem ok_bind (a : α) (f : α → Except ε β) : (Except.ok a >>= f) = f a := rfl

@[simp] theorem error_bind (e : ε) (f : α → Except ε β) :
    (Except.error e >>= f) = .error e := rfl

theorem bind_eq_ok {x : Except ε α} {f : α → Except ε β} {b : β} :
    (x >>= f) = .ok b ↔ ∃ a, x = .ok a ∧ f a = .ok b := by
  cases x with
  | error e => simp
  | ok a => simp

@[simp] theorem throw_eq (e : ε) : (throw e : Except ε α) = .error e := rfl

@[simp] theorem pure_eq (a : α) : (pure a : Except ε α) = .ok a := rfl

theorem forM_eq_ok {l : List α} {f : α → Except ε Unit} (h : ∀ a ∈ l, f a = .ok ()) :
    l.forM f = .ok () := by
  induction l with
  | nil => rfl
  | cons a l ih =>
      rw [List.forM, h a List.mem_cons_self, ok_bind]
      exact ih fun b hb => h b (List.mem_cons_of_mem a hb)

/-- Take `count` steps, and stop where a step stops. -/
def loop (step : σ → Except ε σ) : (count : Nat) → σ → Except ε σ
  | 0, s => .ok s
  | count + 1, s => step s >>= loop step count

@[simp] theorem loop_zero (step : σ → Except ε σ) (s : σ) : loop step 0 s = .ok s := rfl

theorem loop_succ (step : σ → Except ε σ) (count : Nat) (s : σ) :
    loop step (count + 1) s = step s >>= loop step count := rfl

theorem loop_add (step : σ → Except ε σ) (count more : Nat) (s : σ) :
    loop step (count + more) s = loop step count s >>= loop step more := by
  induction count generalizing s with
  | zero => rw [Nat.zero_add, loop_zero, ok_bind]
  | succ count ih =>
      rw [Nat.add_right_comm, loop_succ, loop_succ]
      cases step s with
      | error e => rfl
      | ok s' => exact ih s'

theorem loop_preserves {step : σ → Except ε σ} {P : σ → Prop}
    (hstep : ∀ s s', P s → step s = .ok s' → P s') (count : Nat) {s s' : σ} (h : P s)
    (hloop : loop step count s = .ok s') : P s' := by
  induction count generalizing s with
  | zero =>
      cases hloop
      exact h
  | succ count ih =>
      rw [loop_succ] at hloop
      obtain ⟨between, hfirst, hrest⟩ := bind_eq_ok.mp hloop
      exact ih (hstep s between h hfirst) hrest

/-- Two computations stop for the same reason, or both return and the results are related. -/
def Matches (R : α → β → Prop) : Except ε α → Except ε β → Prop
  | .ok a, .ok b => R a b
  | .error e, .error e' => e = e'
  | _, _ => False

theorem Matches.bind {α' β' : Type} {R : α → β → Prop} {S : α' → β' → Prop} {x : Except ε α}
    {y : Except ε β} {f : α → Except ε α'} {g : β → Except ε β'} (hxy : Matches R x y)
    (hfg : ∀ a b, R a b → Matches S (f a) (g b)) : Matches S (x >>= f) (y >>= g) := by
  cases x with
  | error e =>
      cases y with
      | error e' => exact hxy
      | ok b => exact hxy.elim
  | ok a =>
      cases y with
      | error e' => exact hxy.elim
      | ok b => exact hfg a b hxy

theorem Matches.map {α' β' : Type} {R : α → β → Prop} {S : α' → β' → Prop} {x : Except ε α}
    {y : Except ε β} {f : α → α'} {g : β → β'} (h : Matches R x y)
    (hRS : ∀ a b, R a b → S (f a) (g b)) : Matches S (x >>= fun a => .ok (f a)) (y.map g) := by
  cases x <;> cases y <;> first | exact h | exact hRS _ _ h

theorem Matches.exists_of_ok {R : α → β → Prop} {a : α} {y : Except ε β} (h : Matches R (.ok a) y) :
    ∃ b, y = .ok b ∧ R a b := by
  cases y with
  | error e => exact h.elim
  | ok b => exact ⟨b, rfl, h⟩

/-- If related states make related steps, the loops are related. The relation may depend on how
many steps are left. -/
theorem loop_matches {step : σ → Except ε σ} {step' : τ → Except ε τ} (R : Nat → σ → τ → Prop)
    (hstep : ∀ left s t, R (left + 1) s t → Matches (R left) (step s) (step' t))
    (count : Nat) {s : σ} {t : τ} (h : R count s t) :
    Matches (R 0) (loop step count s) (loop step' count t) := by
  induction count generalizing s t with
  | zero => exact h
  | succ count ih => exact (hstep count s t h).bind fun _ _ hnext => ih hnext

end BeeC.Wire.Loop
