import Mathlib.Order.Bounds.Basic

/-!
The search for the largest number that is accepted, by halving a window. Every probe may change the
state of what is probed. Nothing here refers to a program.
-/

namespace BeeC.Wire.Bisection

variable {σ : Type}

/-- The numbers that are left to look at, the last one that was accepted, and the state of what is
probed. -/
structure Window (σ : Type) where
  low : Int
  high : Int
  last : Option Int := none
  state : σ

namespace Window

def width (w : Window σ) : Nat := (w.high + 1 - w.low).toNat

def middle (w : Window σ) : Int := (w.low + w.high) / 2

/-- Probe the middle of the window, and keep the half above it or the half below. -/
def narrow (probe : Int → σ → Bool × σ) (w : Window σ) : Window σ :=
  if (probe w.middle w.state).1 then
    { low := w.middle + 1, high := w.high, last := some w.middle,
      state := (probe w.middle w.state).2 }
  else
    { w with high := w.middle - 1, state := (probe w.middle w.state).2 }

theorem low_le_middle {w : Window σ} (h : w.low ≤ w.high) : w.low ≤ w.middle := by
  unfold middle
  omega

theorem middle_le_high {w : Window σ} (h : w.low ≤ w.high) : w.middle ≤ w.high := by
  unfold middle
  omega

theorem width_narrow_lt (probe : Int → σ → Bool × σ) {w : Window σ} (h : w.low ≤ w.high) :
    (w.narrow probe).width < w.width := by
  have hlow := low_le_middle h
  have hhigh := middle_le_high h
  unfold narrow width
  split <;> simp only <;> omega

/-- Narrow the window until it is empty. -/
def search (probe : Int → σ → Bool × σ) (w : Window σ) : Window σ :=
  if w.low ≤ w.high then search probe (w.narrow probe) else w
  termination_by w.width
  decreasing_by exact width_narrow_lt probe ‹_›

end Window

/-- The largest of the values between two bounds that are accepted, if there is one. -/
def Largest {α : Type} [LE α] (accept : α → Prop) (bottom top : α) : Option α → Prop
  | none => ∀ v, bottom ≤ v → v ≤ top → ¬accept v
  | some v => IsGreatest {u | bottom ≤ u ∧ u ≤ top ∧ accept u} v

/-- With a value, every smaller one from the bound on is accepted. -/
def DownwardClosed {α : Type} [LE α] (accept : α → Prop) (bottom top : α) : Prop :=
  ∀ u v, bottom ≤ u → u ≤ v → v ≤ top → accept v → accept u

section Embedding

variable {α β : Type} [LE α] [Preorder β] {e : α → β} {accept : β → Prop} {bottom top : α}

theorem Largest.of_embedding (he : ∀ {a b}, e a ≤ e b ↔ a ≤ b) {last : Option α}
    (h : Largest accept (e bottom) (e top) (last.map e)) :
    Largest (fun a => accept (e a)) bottom top last := by
  cases last with
  | none => exact fun a hbottom htop => h (e a) (he.mpr hbottom) (he.mpr htop)
  | some best =>
      obtain ⟨⟨hbottom, htop, haccept⟩, hgreatest⟩ := h
      refine ⟨⟨he.mp hbottom, he.mp htop, haccept⟩, ?_⟩
      rintro a ⟨hlow, hhigh, ha⟩
      exact he.mp (hgreatest ⟨he.mpr hlow, he.mpr hhigh, ha⟩)

theorem DownwardClosed.of_embedding (he : ∀ {a b}, e a ≤ e b ↔ a ≤ b)
    (honto : ∀ v, e bottom ≤ v → v ≤ e top → ∃ a, e a = v)
    (h : DownwardClosed (fun a => accept (e a)) bottom top) :
    DownwardClosed accept (e bottom) (e top) := by
  intro u v hbottom hle htop haccept
  obtain ⟨a, rfl⟩ := honto u hbottom (hle.trans htop)
  obtain ⟨b, rfl⟩ := honto v (hbottom.trans hle) htop
  exact h a b (he.mp hbottom) (he.mp hle) (he.mp htop) haccept

end Embedding

/-- With more values below, the largest one is the same exactly if the least value of before is
accepted, or none is at all. -/
theorem Largest.widen_iff {α : Type} [LE α] [Std.IsLinearPreorder α] {accept : α → Prop}
    {bottom bottom' top : α} {last : Option α} (hbottom : bottom ≤ bottom') (htop : bottom' ≤ top)
    (hclosed : DownwardClosed accept bottom top) (h : Largest accept bottom' top last) :
    Largest accept bottom top last ↔ accept bottom' ∨ ¬accept bottom := by
  have hself : bottom ≤ bottom := Std.le_refl _
  have hself' : bottom' ≤ bottom' := Std.le_refl _
  cases last with
  | none =>
      have hnot : ¬accept bottom' := h bottom' hself' htop
      rw [or_iff_right hnot]
      constructor
      · exact fun hnone => hnone bottom hself (Std.le_trans hbottom htop)
      · exact fun hleast v hv hvtop hv' => hleast (hclosed bottom v hself hv hvtop hv')
  | some v =>
      obtain ⟨⟨hlow, hhigh, haccept⟩, hgreatest⟩ := h
      have hleast : accept bottom' := hclosed bottom' v hbottom hlow hhigh haccept
      refine ⟨fun _ => .inl hleast, fun _ => ⟨⟨Std.le_trans hbottom hlow, hhigh, haccept⟩, ?_⟩⟩
      rintro u ⟨-, hu, hu'⟩
      rcases Std.le_total (a := bottom') (b := u) with habove | hbelow
      · exact hgreatest ⟨habove, hu, hu'⟩
      · exact Std.le_trans hbelow hlow

/-- What the search keeps: the values above the window are not accepted, and the last one that was
accepted is right below it. -/
structure Brackets (accept : Int → Prop) (bottom top : Int) (w : Window σ) : Prop where
  low_le : w.low ≤ w.high + 1
  bottom_le : bottom ≤ w.low
  high_le : w.high ≤ top
  rejected : ∀ v, w.high < v → v ≤ top → ¬accept v
  last : w.last = none ∧ w.low = bottom ∨
    ∃ v, w.last = some v ∧ v + 1 = w.low ∧ bottom ≤ v ∧ accept v

namespace Brackets

variable {probe : Int → σ → Bool × σ} {accept : Int → Prop} {bottom top : Int} {w : Window σ}

theorem start (h : bottom ≤ top + 1) (state : σ) :
    Brackets accept bottom top { low := bottom, high := top, state } where
  low_le := h
  bottom_le := le_refl _
  high_le := le_refl _
  rejected := fun _ habove htop => absurd htop (not_le.mpr habove)
  last := .inl ⟨rfl, rfl⟩

theorem narrow (hprobe : ∀ v state, (probe v state).1 = true ↔ accept v)
    (hclosed : DownwardClosed accept bottom top) (h : Brackets accept bottom top w)
    (hopen : w.low ≤ w.high) : Brackets accept bottom top (w.narrow probe) := by
  have hlow := Window.low_le_middle hopen
  have hhigh := Window.middle_le_high hopen
  have hbottom := h.bottom_le
  have htop := h.high_le
  unfold Window.narrow
  split
  · next haccept =>
      refine ⟨by simpa using hhigh, by simp only; omega, htop, h.rejected, .inr ?_⟩
      exact ⟨w.middle, rfl, rfl, hbottom.trans hlow, (hprobe _ _).mp haccept⟩
  · next hreject =>
      refine ⟨by simp only; omega, hbottom, by simp only; omega, ?_, h.last⟩
      intro v habove hv haccept
      have hmiddle : w.middle ≤ v := by
        simp only at habove
        omega
      exact hreject ((hprobe _ _).mpr (hclosed _ v (hbottom.trans hlow) hmiddle hv haccept))

theorem search (hprobe : ∀ v state, (probe v state).1 = true ↔ accept v)
    (hclosed : DownwardClosed accept bottom top) (h : Brackets accept bottom top w) :
    Brackets accept bottom top (w.search probe) := by
  fun_induction Window.search probe w with
  | case1 w hopen ih => exact ih (h.narrow hprobe hclosed hopen)
  | case2 w hempty => exact h

theorem largest (h : Brackets accept bottom top w) (hempty : ¬w.low ≤ w.high) :
    Largest accept bottom top w.last := by
  rcases h.last with ⟨hnone, hlow⟩ | ⟨v, hsome, hnext, hbottom, haccept⟩
  · rw [hnone]
    intro v hv htop
    exact h.rejected v (by omega) htop
  · have htop := h.high_le
    have hclose := h.low_le
    rw [hsome]
    refine ⟨⟨hbottom, by omega, haccept⟩, ?_⟩
    rintro u ⟨-, hu, hbetter⟩
    by_contra habove
    exact h.rejected u (by omega) hu hbetter

end Brackets

theorem search_empty (probe : Int → σ → Bool × σ) (w : Window σ) :
    ¬(w.search probe).low ≤ (w.search probe).high := by
  fun_induction Window.search probe w with
  | case1 w hopen ih => exact ih
  | case2 w hempty => exact hempty

theorem search_largest {probe : Int → σ → Bool × σ} {accept : Int → Prop} {bottom top : Int}
    (hprobe : ∀ v state, (probe v state).1 = true ↔ accept v)
    (hclosed : DownwardClosed accept bottom top) (h : bottom ≤ top + 1) (state : σ) :
    Largest accept bottom top
      (Window.search probe { low := bottom, high := top, state }).last :=
  ((Brackets.start h state).search hprobe hclosed).largest (search_empty probe _)

end BeeC.Wire.Bisection
