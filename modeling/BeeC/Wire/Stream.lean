import BeeC.Wire.Loop
import Mathlib.Data.List.Basic

/-!
Decoders that take items off the front of a stream, and know how long the stream is. An item is
taken for good if what follows it makes no difference. Nothing here refers to a program.
-/

namespace BeeC.Wire.Stream

open BeeC.Wire.Loop

variable {ε σ β : Type} {step : Nat → σ × List β → Except ε (σ × List β)}

/-- Behind `done`, the step consumes the item and comes to the state, whatever follows. -/
def Consumes (step : Nat → σ × List β → Except ε (σ × List β)) (done item : List β) (s s' : σ) :
    Prop :=
  ∀ tail, step (done ++ (item ++ tail)).length (s, item ++ tail) = .ok (s', tail)

/-- Behind `done`, the step stops at the item, whatever follows. -/
def Refuses (step : Nat → σ × List β → Except ε (σ × List β)) (done item : List β) (s : σ) : Prop :=
  ∀ tail, ∃ e, step (done ++ (item ++ tail)).length (s, item ++ tail) = .error e

variable {ι : Type} {enc : ι → List β} {P : σ → List β → Prop} {items : List ι}

theorem loop_consumes
    (hstep : ∀ item ∈ items, ∀ s done, P s done →
      ∃ s', Consumes step done (enc item) s s' ∧ P s' (done ++ enc item)) {s : σ} {done : List β}
    (h : P s done) :
    ∃ s', Consumes (fun size => loop (step size) items.length) done (items.flatMap enc) s s' ∧
      P s' (done ++ items.flatMap enc) := by
  induction items generalizing s done with
  | nil =>
      refine ⟨s, fun tail => rfl, ?_⟩
      rw [List.flatMap_nil, List.append_nil]
      exact h
  | cons item items ih =>
      obtain ⟨s', hconsumes, h'⟩ := hstep item List.mem_cons_self s done h
      obtain ⟨s'', hrest, h''⟩ :=
        ih (fun other hother => hstep other (List.mem_cons_of_mem _ hother)) h'
      refine ⟨s'', ?_, ?_⟩
      · intro tail
        have hfirst := hconsumes (items.flatMap enc ++ tail)
        have hafter := hrest tail
        simp only [List.flatMap_cons, List.append_assoc] at hafter ⊢
        rw [List.length_cons, loop_succ, hfirst, ok_bind]
        exact hafter
      · rw [List.flatMap_cons, ← List.append_assoc]
        exact h''

theorem loop_refuses {good : ι → Prop}
    (hconsumes : ∀ item ∈ items, good item → ∀ s done, P s done →
      ∃ s', Consumes step done (enc item) s s' ∧ P s' (done ++ enc item))
    (hrefuses : ∀ item ∈ items, ¬good item → ∀ s done, P s done → Refuses step done (enc item) s)
    (hbad : ¬∀ item ∈ items, good item) {s : σ} {done : List β} (h : P s done) :
    Refuses (fun size => loop (step size) items.length) done (items.flatMap enc) s := by
  induction items generalizing s done with
  | nil => exact absurd (fun _ hitem => absurd hitem List.not_mem_nil) hbad
  | cons item items ih =>
      intro tail
      rw [List.flatMap_cons, List.append_assoc, List.length_cons]
      simp only [loop_succ]
      by_cases hgood : good item
      · obtain ⟨s', hfirst, h'⟩ := hconsumes item List.mem_cons_self hgood s done h
        have hrest : ¬∀ other ∈ items, good other :=
          fun hall => hbad (List.forall_mem_cons.mpr ⟨hgood, hall⟩)
        obtain ⟨e, hstop⟩ := ih
          (fun other hother => hconsumes other (List.mem_cons_of_mem _ hother))
          (fun other hother => hrefuses other (List.mem_cons_of_mem _ hother)) hrest h' tail
        refine ⟨e, ?_⟩
        rw [hfirst, ok_bind]
        simpa only [List.append_assoc] using hstop
      · obtain ⟨e, hstop⟩ :=
          hrefuses item List.mem_cons_self hgood s done h (items.flatMap enc ++ tail)
        exact ⟨e, by rw [hstop, error_bind]⟩

end BeeC.Wire.Stream
