import BeeC.Wire.Loop

/-!
Walking down a list step by step, and from the start again at any moment. An iterator does so if
every call keeps it in step with the number of calls.
-/

namespace BeeC.Wire.Walk

open BeeC.Wire.Loop

inductive Call where
  | next
  | rewind
  deriving DecidableEq, Repr

variable {ε σ α β : Type}

/-- What the calls find from a place of the list on: behind its end, nothing. -/
def walk (visits : List α) : (place : Nat) → List Call → List (Option α)
  | _, [] => []
  | place, .next :: calls => visits[place]? :: walk visits (place + 1) calls
  | _, .rewind :: calls => walk visits 0 calls

/-- The calls for the next one stay below a limit. -/
def Lasts (limit : Nat) : (place : Nat) → List Call → Prop
  | _, [] => True
  | place, .next :: calls => place < limit ∧ Lasts limit (place + 1) calls
  | _, .rewind :: calls => Lasts limit 0 calls

/-- What the calls on an iterator return. -/
def run (next : σ → Except ε (β × σ)) (rewind : σ → σ) :
    List Call → σ → Except ε (List β × σ)
  | [], s => .ok ([], s)
  | .next :: calls, s => do
      let (found, s) ← next s
      let (more, s) ← run next rewind calls s
      return (found :: more, s)
  | .rewind :: calls, s => run next rewind calls (rewind s)

/-- If a call below the limit tells what stands there, and the call at the limit stops, then the
iterator walks down the list exactly as long as the limit lasts. -/
theorem run_eq_walk_iff {next : σ → Except ε (β × σ)} {rewind : σ → σ} {visits : List α}
    {told : Option α → β} {limit : Nat} {R : Nat → σ → Prop}
    (hnext : ∀ place s, R place s → place < limit →
      ∃ s', next s = .ok (told visits[place]?, s') ∧ R (place + 1) s')
    (hlimit : ∀ place s, R place s → ¬place < limit → ∃ e, next s = .error e)
    (hrewind : ∀ place s, R place s → R 0 (rewind s)) (calls : List Call) {place : Nat} {s : σ}
    (h : R place s) :
    (∃ s', run next rewind calls s = .ok ((walk visits place calls).map told, s')) ↔
      Lasts limit place calls := by
  induction calls generalizing place s with
  | nil => exact iff_of_true ⟨s, rfl⟩ trivial
  | cons call calls ih =>
      cases call with
      | rewind => exact ih (hrewind place s h)
      | next =>
          by_cases hplace : place < limit
          · obtain ⟨s', hfound, h'⟩ := hnext place s h hplace
            refine Iff.trans ?_ ((ih h').trans (and_iff_right hplace).symm)
            rw [run, hfound, ok_bind]
            dsimp only
            constructor
            · rintro ⟨last, hrun⟩
              obtain ⟨⟨more, s''⟩, hmore, hlast⟩ := bind_eq_ok.mp hrun
              cases hlast
              exact ⟨s'', hmore⟩
            · rintro ⟨last, hrun⟩
              exact ⟨last, by rw [hrun]; rfl⟩
          · obtain ⟨e, hfail⟩ := hlimit place s h hplace
            refine iff_of_false ?_ (fun hlasts => hplace hlasts.1)
            rintro ⟨last, hrun⟩
            rw [run, hfail] at hrun
            cases hrun

theorem lasts_replicate_iff (limit place count : Nat) (h : place ≤ limit) :
    Lasts limit place (List.replicate count .next) ↔ place + count ≤ limit := by
  induction count generalizing place with
  | zero => exact iff_of_true trivial h
  | succ count ih =>
      rw [List.replicate_succ]
      by_cases hplace : place < limit
      · refine (and_iff_right hplace).trans ((ih (place + 1) hplace).trans ?_)
        omega
      · exact iff_of_false (fun hlasts => hplace hlasts.1) (by omega)

end BeeC.Wire.Walk
