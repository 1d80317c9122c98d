import BeeC.Wire.Bisection
import BeeC.IoConnect

namespace BeeC

open BeeC.Wire.Bisection
open BeeC.Wire.Loop

/-- Which of the two buffers or timeouts of a socket is meant. -/
inductive Direction where
  | snd | rcv
  deriving DecidableEq, Repr

/-- What `setsockopt` is asked to set. -/
inductive Setting where
  | tcpNodelay (on : Int32)
  | buffer (opt : Direction) (size : UInt32)
  | timeout (opt : Direction) (limit : Timeval)
  deriving DecidableEq, Repr

/-- The variables of `beer_io_xbufmax`, the state of the socket, and the size that was set last. -/
structure Xbufmax (σ : Type) where
  min : Int32
  max : Int32 := 128 * 1024 * 1024
  avg : UInt32 := 0
  sock : σ
  set : Option UInt32 := none

variable {σ : Type} (setsockopt : Setting → σ → Bool × σ)

/-- One turn of the loop. The sum is one of signed numbers. -/
def xbufmaxTurn (opt : Direction) (s : Xbufmax σ) : Except Fault (Xbufmax σ) := do
  let sum := s.min.toInt + s.max.toInt
  if sum < -2 ^ 31 ∨ 2 ^ 31 ≤ sum then throw .overflow
  let avg := UInt32.ofInt sum / 2
  let (set, sock) := setsockopt (.buffer opt avg) s.sock
  if set then
    return { s with min := (avg + 1).toInt32, avg, sock, set := some avg }
  else
    return { s with max := (avg - 1).toInt32, avg, sock }

def xbufmaxLoop (opt : Direction) : (fuel : Nat) → Xbufmax σ → Except Fault (Option (Xbufmax σ))
  | 0, _ => .ok none
  | fuel + 1, s =>
      if s.min ≤ s.max then xbufmaxTurn setsockopt opt s >>= xbufmaxLoop opt fuel
      else .ok (some s)

/-- The lower end of the search: `if (min == 0) min = 16384`. -/
def xbufmaxStart (min : Int32) : Int32 := if min = 0 then 16384 else min

/-- `beer_io_xbufmax`. The result is `none` where the loop has not ended with the fuel. -/
def beerIoXbufmax (opt : Direction) (min : Int32) (sock : σ) (fuel : Nat) :
    Except Fault (Option (Xbufmax σ)) :=
  xbufmaxLoop setsockopt opt fuel { min := xbufmaxStart min, sock }

/-- `beer_io_setopts`, for a socket of the network or a local one. -/
def beerIoSetopts (opt : Opt) (isUnix : Bool) (tmoutSend tmoutRecv : Timeval) (sock : σ)
    (fuel : Nat) : Except Fault (Option (BeerError × σ)) := do
  let (set, sock) := if isUnix then (true, sock) else setsockopt (.tcpNodelay 1) sock
  if !set then return some (.esystem, sock)
  let some s ← beerIoXbufmax setsockopt .snd opt.sendBuf sock fuel | return none
  let some s ← beerIoXbufmax setsockopt .rcv opt.recvBuf s.sock fuel | return none
  let (set, sock) := setsockopt (.timeout .snd tmoutSend) s.sock
  if !set then return some (.esystem, sock)
  let (set, sock) := setsockopt (.timeout .rcv tmoutRecv) sock
  if !set then return some (.esystem, sock)
  return some (.eok, sock)

theorem toInt_toInt32 {x : UInt32} (h : x.toNat < 2 ^ 31) : x.toInt32.toInt = x.toNat := by
  have hbits : x.toInt32.toInt = (x.toNat : Int).bmod (2 ^ 32) := by
    exact BitVec.toInt_eq_toNat_bmod _
  rw [hbits, Int.bmod_eq_of_le (by omega) (by omega)]

theorem toInt_toInt32_add {x : UInt32} (h : x.toNat < 2 ^ 31 - 1) :
    (x + 1).toInt32.toInt = x.toNat + 1 := by
  have hx := toInt_toInt32 (x := x) (by omega)
  rw [UInt32.toInt32_add, Int32.toInt_add, hx]
  exact Int.bmod_eq_of_le (by simp; omega) (by simp; omega)

theorem toInt_toInt32_sub {x : UInt32} (h : x.toNat < 2 ^ 31) :
    (x - 1).toInt32.toInt = x.toNat - 1 := by
  rw [UInt32.toInt32_sub, Int32.toInt_sub, toInt_toInt32 h]
  exact Int.bmod_eq_of_le (by simp; omega) (by simp; omega)

theorem toNat_half (sum : Int) : ((UInt32.ofInt sum / 2).toNat : Int) = sum % 2 ^ 32 / 2 := by
  have hsum : (UInt32.ofInt sum).toNat = (sum % 2 ^ 32).toNat := by
    simp only [UInt32.ofInt, UInt32.toNat_ofNat']
    omega
  rw [UInt32.toNat_div, hsum]
  simp
  omega

theorem ofInt_toNat (x : UInt32) : UInt32.ofInt (x.toNat : Int) = x := by
  apply UInt32.toNat.inj
  simp only [UInt32.ofInt, UInt32.toNat_ofNat']
  have := x.toNat_lt
  omega

namespace Xbufmax

/-- The size that is tried next. -/
def half (s : Xbufmax σ) : UInt32 := UInt32.ofInt (s.min.toInt + s.max.toInt) / 2

/-- The variables after a turn in which the sum does not overflow. -/
def next (opt : Direction) (s : Xbufmax σ) : Xbufmax σ :=
  let (set, sock) := setsockopt (.buffer opt s.half) s.sock
  if set then { s with min := (s.half + 1).toInt32, avg := s.half, sock, set := some s.half }
  else { s with max := (s.half - 1).toInt32, avg := s.half, sock }

/-- The search as one over numbers without bounds. -/
def window (s : Xbufmax σ) : Window σ where
  low := s.min.toInt
  high := s.max.toInt
  last := s.set.map fun size => (size.toNat : Int)
  state := s.sock

/-- The numbers of a search that starts at one or later. -/
structure Positive (s : Xbufmax σ) : Prop where
  min_pos : 0 < s.min.toInt
  max_le : s.max.toInt ≤ 2 ^ 27

end Xbufmax

theorem xbufmaxTurn_eq {opt : Direction} {s : Xbufmax σ}
    (hlow : -2 ^ 31 ≤ s.min.toInt + s.max.toInt) (hhigh : s.min.toInt + s.max.toInt < 2 ^ 31) :
    xbufmaxTurn setsockopt opt s = .ok (s.next setsockopt opt) := by
  have hfits : ¬(s.min.toInt + s.max.toInt < -2 ^ 31 ∨ 2 ^ 31 ≤ s.min.toInt + s.max.toInt) := by
    omega
  unfold xbufmaxTurn Xbufmax.next Xbufmax.half
  simp only [hfits, if_false, pure_eq]
  split <;> rfl

def xbufmaxProbe (opt : Direction) (size : Int) (sock : σ) : Bool × σ :=
  setsockopt (.buffer opt (UInt32.ofInt size)) sock

namespace Xbufmax

variable {setsockopt} {opt : Direction} {s : Xbufmax σ}

theorem Positive.half_eq (h : s.Positive) (hopen : s.min ≤ s.max) :
    (s.half.toNat : Int) = s.window.middle := by
  have hle := Int32.le_iff_toInt_le.mp hopen
  have hmin := h.min_pos
  have hmax := h.max_le
  rw [half, toNat_half, Int.emod_eq_of_lt (by omega) (by omega)]
  rfl

theorem Positive.next (setsockopt : Setting → σ → Bool × σ) (opt : Direction) (h : s.Positive)
    (hopen : s.min ≤ s.max) :
    (s.next setsockopt opt).window = s.window.narrow (xbufmaxProbe setsockopt opt) ∧
      (s.next setsockopt opt).Positive := by
  have hle : s.window.low ≤ s.window.high := Int32.le_iff_toInt_le.mp hopen
  have hmiddle := h.half_eq hopen
  have hlow := Window.low_le_middle hle
  have hhigh := Window.middle_le_high hle
  have hmin := h.min_pos
  have hmax := h.max_le
  have hwindow : s.window.low = s.min.toInt ∧ s.window.high = s.max.toInt := ⟨rfl, rfl⟩
  have hprobe : xbufmaxProbe setsockopt opt s.window.middle s.window.state =
      setsockopt (.buffer opt s.half) s.sock := by
    rw [xbufmaxProbe, ← hmiddle, ofInt_toNat]
    rfl
  unfold Window.narrow Xbufmax.next
  rw [hprobe]
  rcases setsockopt (.buffer opt s.half) s.sock with ⟨set, sock⟩
  cases set with
  | true =>
      have hnext := toInt_toInt32_add (x := s.half) (by omega)
      refine ⟨?_, ?_, hmax⟩
      · simp only [if_true, window, hnext, Option.map_some]
        rw [hmiddle]
        rfl
      · simp only [if_true, hnext]
        omega
  | false =>
      have hnext := toInt_toInt32_sub (x := s.half) (by omega)
      refine ⟨?_, hmin, ?_⟩
      · simp only [Bool.false_eq_true, if_false, window, hnext]
        rw [hmiddle]
        rfl
      · simp only [Bool.false_eq_true, if_false, hnext]
        omega

theorem Positive.turn_eq (h : s.Positive) (hopen : s.min ≤ s.max) :
    xbufmaxTurn setsockopt opt s = .ok (s.next setsockopt opt) := by
  have hle := Int32.le_iff_toInt_le.mp hopen
  have hmin := h.min_pos
  have hmax := h.max_le
  exact xbufmaxTurn_eq setsockopt (by omega) (by omega)

/-- The loop that has ended is the search. -/
theorem Positive.loop_window {fuel : Nat} {s' : Xbufmax σ} (h : s.Positive)
    (hloop : xbufmaxLoop setsockopt opt fuel s = .ok (some s')) :
    s'.window = s.window.search (xbufmaxProbe setsockopt opt) := by
  induction fuel generalizing s with
  | zero => exact absurd hloop (by simp [xbufmaxLoop])
  | succ fuel ih =>
      rw [xbufmaxLoop] at hloop
      rw [Window.search]
      by_cases hopen : s.min ≤ s.max
      · have hle : s.window.low ≤ s.window.high := Int32.le_iff_toInt_le.mp hopen
        rw [if_pos hopen, h.turn_eq hopen, ok_bind] at hloop
        have hnext := h.next setsockopt opt hopen
        rw [if_pos hle, ← hnext.1]
        exact ih hnext.2 hloop
      · have hempty : ¬s.window.low ≤ s.window.high := mt Int32.le_iff_toInt_le.mpr hopen
        rw [if_neg hopen] at hloop
        cases hloop
        rw [if_neg hempty]

/-- The loop ends when the window is empty, and every turn narrows it. -/
theorem Positive.loop_ends (setsockopt : Setting → σ → Bool × σ) (opt : Direction) {fuel : Nat}
    (h : s.Positive) (hfuel : s.window.width < fuel) :
    ∃ s', xbufmaxLoop setsockopt opt fuel s = .ok (some s') := by
  induction fuel generalizing s with
  | zero => exact absurd hfuel (Nat.not_lt_zero _)
  | succ fuel ih =>
      rw [xbufmaxLoop]
      by_cases hopen : s.min ≤ s.max
      · have hle : s.window.low ≤ s.window.high := Int32.le_iff_toInt_le.mp hopen
        rw [if_pos hopen, h.turn_eq hopen, ok_bind]
        have hnext := h.next setsockopt opt hopen
        have hnarrow := Window.width_narrow_lt (xbufmaxProbe setsockopt opt) hle
        exact ih hnext.2 (by rw [hnext.1]; omega)
      · exact ⟨s, if_neg hopen⟩

/-- A search that started below zero, while nothing is accepted. -/
structure Negative (s : Xbufmax σ) : Prop where
  min_neg : s.min.toInt < 0
  max_ge : -1 ≤ s.max.toInt
  sum_ge : -2 ^ 31 ≤ s.min.toInt + s.max.toInt

/-- The upper end never falls below minus one, so that the window stays open. -/
theorem Negative.turn (h : s.Negative)
    (hreject : ∀ size, (setsockopt (.buffer opt size) s.sock).1 = false) :
    s.min ≤ s.max ∧ xbufmaxTurn setsockopt opt s = .ok (s.next setsockopt opt) ∧
      (s.next setsockopt opt).Negative := by
  have hmin := h.min_neg
  have hmax := h.max_ge
  have hsum := h.sum_ge
  have hlow := s.min.le_toInt
  have hhigh := s.max.toInt_lt
  refine ⟨Int32.le_iff_toInt_le.mpr (by omega), xbufmaxTurn_eq setsockopt hsum (by omega), ?_⟩
  have hhalf := toNat_half (s.min.toInt + s.max.toInt)
  rw [show UInt32.ofInt (s.min.toInt + s.max.toInt) / 2 = s.half from rfl] at hhalf
  have hnext := toInt_toInt32_sub (x := s.half) (by omega)
  have hrejected := hreject s.half
  unfold Xbufmax.next
  rcases hset : setsockopt (.buffer opt s.half) s.sock with ⟨set, sock⟩
  rw [hset] at hrejected
  cases hrejected
  refine ⟨hmin, ?_, ?_⟩
  · simp only [Bool.false_eq_true, if_false, hnext]
    omega
  · simp only [Bool.false_eq_true, if_false, hnext]
    omega

theorem Negative.loop_never
    (hreject : ∀ size sock, (setsockopt (.buffer opt size) sock).1 = false)
    (fuel : Nat) (h : s.Negative) : xbufmaxLoop setsockopt opt fuel s = .ok none := by
  induction fuel generalizing s with
  | zero => rfl
  | succ fuel ih =>
      obtain ⟨hopen, hturn, hnext⟩ := h.turn fun size => hreject size s.sock
      rw [xbufmaxLoop, if_pos hopen, hturn, ok_bind]
      exact ih hnext

end Xbufmax

theorem xbufmaxStart_positive {min : Int32} (h : 0 ≤ min) (sock : σ) :
    ({ min := xbufmaxStart min, sock } : Xbufmax σ).Positive := by
  have hmin : 0 ≤ min.toInt := Int32.le_iff_toInt_le.mp h
  have hmax : (128 * 1024 * 1024 : Int32).toInt ≤ 2 ^ 27 := by decide
  refine ⟨?_, hmax⟩
  simp only [xbufmaxStart]
  split
  · decide
  · next hzero =>
      have hne : min.toInt ≠ 0 := fun heq => hzero (Int32.toInt_inj.mp heq)
      omega

theorem xbufmaxStart_negative {min : Int32} (h : min < 0) (sock : σ) :
    ({ min := xbufmaxStart min, sock } : Xbufmax σ).Negative := by
  have hmin : min.toInt < 0 := Int32.lt_iff_toInt_lt.mp h
  have hstart : xbufmaxStart min = min := if_neg fun hzero => by simp [hzero] at h
  have hlow := min.le_toInt
  have hmax : (128 * 1024 * 1024 : Int32).toInt = 2 ^ 27 := by decide
  refine ⟨?_, ?_, ?_⟩
  · rw [hstart]
    exact hmin
  · simp only [hmax]
    omega
  · simp only [hstart, hmax]
    omega

/-- A socket that takes no buffer of any size. -/
def takesNoBuffer : Setting → Unit → Bool × Unit
  | .buffer _ _, sock => (false, sock)
  | _, sock => (true, sock)

theorem beerIoXbufmax_never {min : Int32} (h : min < 0) (opt : Direction) (fuel : Nat) :
    beerIoXbufmax takesNoBuffer opt min () fuel = .ok none :=
  (xbufmaxStart_negative h ()).loop_never (fun _ _ => rfl) fuel

/-- Whatever the socket answers, the loop ends and no sum overflows. -/
def XbufmaxEnds (min : Int32) : Prop :=
  ∀ (σ : Type) (setsockopt : Setting → σ → Bool × σ) (opt : Direction) (sock : σ),
    ∃ fuel s, beerIoXbufmax setsockopt opt min sock fuel = .ok (some s)

theorem xbufmaxEnds_iff (min : Int32) : XbufmaxEnds min ↔ 0 ≤ min := by
  constructor
  · intro hends
    by_contra hneg
    obtain ⟨fuel, s, hrun⟩ := hends Unit takesNoBuffer .snd ()
    rw [beerIoXbufmax_never (Int32.not_le.mp hneg)] at hrun
    cases hrun
  · intro h σ setsockopt opt sock
    obtain ⟨s, hs⟩ := (xbufmaxStart_positive h sock).loop_ends setsockopt opt
      (Nat.lt_succ_self _)
    exact ⟨_, s, hs⟩

/-- What the socket answers depends on the size alone. -/
def Accepts (setsockopt : Setting → σ → Bool × σ) (opt : Direction) (accept : UInt32 → Prop) :
    Prop :=
  ∀ size sock, (setsockopt (.buffer opt size) sock).1 = true ↔ accept size

/-- `int max = 128 * 1024 * 1024`. -/
def xbufmaxTop : UInt32 := 128 * 1024 * 1024

/-- A size as a number without bounds. -/
def sizeToInt (size : UInt32) : Int := size.toNat

theorem sizeToInt_le {a b : UInt32} : sizeToInt a ≤ sizeToInt b ↔ a ≤ b := by
  unfold sizeToInt
  exact_mod_cast UInt32.le_iff_toNat_le.symm

theorem exists_sizeToInt {a b : UInt32} (v : Int) (hlow : sizeToInt a ≤ v)
    (hhigh : v ≤ sizeToInt b) : ∃ size, sizeToInt size = v := by
  unfold sizeToInt at *
  refine ⟨UInt32.ofNat v.toNat, ?_⟩
  have hb := b.toNat_lt
  rw [UInt32.toNat_ofNat']
  omega

theorem ofInt_sizeToInt (size : UInt32) : UInt32.ofInt (sizeToInt size) = size := ofInt_toNat size

theorem sizeToInt_toUInt32 {min : Int32} (h : 0 ≤ min.toInt) :
    sizeToInt min.toUInt32 = min.toInt := by
  have hbits : min.toInt = (min.toUInt32.toNat : Int).bmod (2 ^ 32) :=
    BitVec.toInt_eq_toNat_bmod _
  have hlt := min.toUInt32.toNat_lt
  rw [Int.bmod_def] at hbits
  unfold sizeToInt
  split at hbits <;> omega

theorem beerIoXbufmax_largest {setsockopt : Setting → σ → Bool × σ} {opt : Direction}
    {accept : UInt32 → Prop} {min : Int32} {sock : σ} {fuel : Nat} {s : Xbufmax σ}
    (hpos : 1 ≤ min) (hle : min ≤ 128 * 1024 * 1024) (haccept : Accepts setsockopt opt accept)
    (hclosed : DownwardClosed accept 1 xbufmaxTop)
    (hrun : beerIoXbufmax setsockopt opt min sock fuel = .ok (some s)) :
    Largest accept min.toUInt32 xbufmaxTop s.set := by
  have hmin : 1 ≤ min.toInt := Int32.le_iff_toInt_le.mp hpos
  have hmax : min.toInt ≤ 2 ^ 27 := Int32.le_iff_toInt_le.mp hle
  have hstart : xbufmaxStart min = min := if_neg fun hzero => by simp [hzero] at hpos
  have hbottom : sizeToInt min.toUInt32 = min.toInt := sizeToInt_toUInt32 (by omega)
  have hclosed' : DownwardClosed (fun v : Int => accept (UInt32.ofInt v))
      (sizeToInt min.toUInt32) (sizeToInt xbufmaxTop) := by
    refine DownwardClosed.of_embedding sizeToInt_le exists_sizeToInt ?_
    simp only [ofInt_sizeToInt]
    intro u v hu
    exact hclosed u v (UInt32.le_trans (sizeToInt_le.mp (hbottom.symm ▸ hmin)) hu)
  have htop : sizeToInt min.toUInt32 ≤ sizeToInt xbufmaxTop + 1 := by
    rw [hbottom, show sizeToInt xbufmaxTop = 2 ^ 27 from rfl]
    omega
  have hwindow := (xbufmaxStart_positive (Int32.le_trans (by decide) hpos) sock).loop_window hrun
  have hlargest := @search_largest _ (xbufmaxProbe setsockopt opt) _ _ _
    (fun v state => haccept (UInt32.ofInt v) state) hclosed' htop sock
  have h : Largest (fun v : Int => accept (UInt32.ofInt v)) (sizeToInt min.toUInt32)
      (sizeToInt xbufmaxTop) (s.set.map sizeToInt) := by
    have hopen : ({ min := xbufmaxStart min, sock } : Xbufmax σ).window =
        { low := sizeToInt min.toUInt32, high := sizeToInt xbufmaxTop, state := sock } := by
      rw [hbottom, hstart]
      rfl
    rw [← hopen, ← hwindow] at hlargest
    exact hlargest
  simpa only [ofInt_sizeToInt] using h.of_embedding sizeToInt_le

/-- The size that a search leaves set, on a socket whose answers depend on the size alone. -/
def XbufmaxLeaves (min : Int32) (accept : UInt32 → Prop) (last : Option UInt32) : Prop :=
  ∃ (σ : Type) (setsockopt : Setting → σ → Bool × σ) (opt : Direction) (sock : σ) (fuel : Nat)
    (s : Xbufmax σ), Accepts setsockopt opt accept ∧
      beerIoXbufmax setsockopt opt min sock fuel = .ok (some s) ∧ s.set = last

theorem XbufmaxLeaves.largest {min : Int32} {accept : UInt32 → Prop} {last : Option UInt32}
    (h : XbufmaxLeaves min accept last) (hpos : 1 ≤ min) (hle : min ≤ 128 * 1024 * 1024)
    (hclosed : DownwardClosed accept 1 xbufmaxTop) :
    Largest accept min.toUInt32 xbufmaxTop last := by
  obtain ⟨σ, setsockopt, opt, sock, fuel, s, haccept, hrun, rfl⟩ := h
  exact beerIoXbufmax_largest hpos hle haccept hclosed hrun

/-- The search ends on every socket exactly if it does not start below zero, and what it leaves set
is then the largest size from its start on. It is the largest size of all exactly if the start is
accepted, or nothing is. -/
theorem beerIoXbufmax_iff (min : Int32) :
    ((XbufmaxEnds min ∧ ∀ accept last, 1 ≤ min → min ≤ 128 * 1024 * 1024 →
        DownwardClosed accept 1 xbufmaxTop → XbufmaxLeaves min accept last →
          Largest accept min.toUInt32 xbufmaxTop last) ↔ 0 ≤ min) ∧
      ∀ accept last, 1 ≤ min → min ≤ 128 * 1024 * 1024 →
        DownwardClosed accept 1 xbufmaxTop → XbufmaxLeaves min accept last →
          (Largest accept 1 xbufmaxTop last ↔ accept min.toUInt32 ∨ ¬accept 1) := by
  refine ⟨?_, ?_⟩
  · rw [xbufmaxEnds_iff]
    refine and_iff_left ?_
    intro accept last hpos hle hclosed hleaves
    exact hleaves.largest hpos hle hclosed
  · intro accept last hpos hle hclosed hleaves
    have hmin : 1 ≤ min.toInt := Int32.le_iff_toInt_le.mp hpos
    have hmax : min.toInt ≤ 2 ^ 27 := Int32.le_iff_toInt_le.mp hle
    have hbottom := @sizeToInt_toUInt32 min (by omega)
    have hlow : 1 ≤ min.toUInt32 := sizeToInt_le.mp (by rw [hbottom]; exact hmin)
    have hhigh : min.toUInt32 ≤ xbufmaxTop := sizeToInt_le.mp (by rw [hbottom]; exact hmax)
    exact Largest.widen_iff hlow hhigh hclosed (hleaves.largest hpos hle hclosed)

/-- A search from minus one on. -/
theorem beerIoXbufmax_endless :
    (∀ fuel, beerIoXbufmax takesNoBuffer .snd (-1) () fuel = .ok none) ∧ ¬XbufmaxEnds (-1) :=
  ⟨fun fuel => beerIoXbufmax_never (by decide) .snd fuel,
    fun hends => absurd ((xbufmaxEnds_iff (-1)).mp hends) (by decide)⟩

/-- How many sizes a search can try at most. -/
def xbufmaxWidth (min : Int32) : Nat := (2 ^ 27 + 1 - (xbufmaxStart min).toInt).toNat

theorem beerIoXbufmax_ends (setsockopt : Setting → σ → Bool × σ) (opt : Direction) {min : Int32}
    (h : 0 ≤ min) (sock : σ) {fuel : Nat} (hfuel : xbufmaxWidth min < fuel) :
    ∃ s, beerIoXbufmax setsockopt opt min sock fuel = .ok (some s) :=
  (xbufmaxStart_positive h sock).loop_ends setsockopt opt hfuel

theorem beerIoSetopts_ends (setsockopt : Setting → σ → Bool × σ) (opt : Opt) (isUnix : Bool)
    (tmoutSend tmoutRecv : Timeval) (sock : σ) (hsend : 0 ≤ opt.sendBuf) (hrecv : 0 ≤ opt.recvBuf) :
    ∃ fuel result, beerIoSetopts setsockopt opt isUnix tmoutSend tmoutRecv sock fuel =
      .ok (some result) := by
  let fuel := xbufmaxWidth opt.sendBuf + xbufmaxWidth opt.recvBuf + 1
  refine ⟨fuel, ?_⟩
  unfold beerIoSetopts
  generalize (if isUnix then (true, sock) else setsockopt (.tcpNodelay 1) sock) = delayed
  obtain ⟨set, sock⟩ := delayed
  cases set with
  | false => exact ⟨_, rfl⟩
  | true =>
      obtain ⟨s, hs⟩ := beerIoXbufmax_ends setsockopt .snd hsend sock
        (show xbufmaxWidth opt.sendBuf < fuel by omega)
      obtain ⟨r, hr⟩ := beerIoXbufmax_ends setsockopt .rcv hrecv s.sock
        (show xbufmaxWidth opt.recvBuf < fuel by omega)
      simp only [Bool.not_true, Bool.false_eq_true, if_false, hs, hr, ok_bind, pure_eq]
      split
      · exact ⟨_, rfl⟩
      · split <;> exact ⟨_, rfl⟩

end BeeC
