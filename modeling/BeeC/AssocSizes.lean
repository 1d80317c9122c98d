import BeeC.Assoc

namespace BeeC

open BeeC.Wire.Probing

/-- None of so many odd numbers from `first` on divides `n`. The recursors are what the kernel
evaluates fastest. -/
def noneDivides (n first count : Nat) : Bool :=
  Nat.rec true (fun j rest => Bool.rec rest false (Nat.beq (n % (first + 2 * j)) 0)) count

theorem noneDivides_spec {n first count : Nat} (h : noneDivides n first count = true) :
    ∀ j < count, n % (first + 2 * j) ≠ 0 := by
  induction count with
  | zero =>
      intro j hj
      exact absurd hj (Nat.not_lt_zero j)
  | succ count ih =>
      intro j hj
      have hstep : noneDivides n first (count + 1) =
          Bool.rec (noneDivides n first count) false (Nat.beq (n % (first + 2 * count)) 0) := rfl
      rw [hstep] at h
      cases hbeq : Nat.beq (n % (first + 2 * count)) 0 with
      | true =>
          rw [hbeq] at h
          cases h
      | false =>
          rw [hbeq] at h
          rcases Nat.lt_or_eq_of_le (Nat.le_of_lt_succ hj) with hlt | rfl
          · exact ih h j hlt
          · exact Nat.ne_of_beq_eq_false hbeq

/-- Trial division by the odd numbers, in `w` blocks of `w` numbers. -/
def passesTrial (n w : Nat) : Bool :=
  Nat.rec true (fun i rest => Bool.rec false rest (noneDivides n (2 * (w * i) + 3) w)) w

theorem passesTrial_spec {n w : Nat} (h : passesTrial n w = true) :
    ∀ i < w, noneDivides n (2 * (w * i) + 3) w = true := by
  have hall : ∀ count, Nat.rec (motive := fun _ => Bool) true
      (fun i rest => Bool.rec false rest (noneDivides n (2 * (w * i) + 3) w)) count = true →
      ∀ i < count, noneDivides n (2 * (w * i) + 3) w = true := by
    intro count
    induction count with
    | zero =>
        intro _ i hi
        exact absurd hi (Nat.not_lt_zero i)
    | succ count ih =>
        intro h i hi
        cases hlast : noneDivides n (2 * (w * count) + 3) w with
        | false =>
            dsimp only at h
            rw [hlast] at h
            cases h
        | true =>
            dsimp only at h
            rw [hlast] at h
            rcases Nat.lt_or_eq_of_le (Nat.le_of_lt_succ hi) with hlt | rfl
            · exact ih h i hlt
            · exact hlast
  exact hall w h

theorem prime_of_passesTrial {n w : Nat} (hodd : n % 2 = 1) (hone : 1 < n)
    (hw : n < (2 * (w * w) + 3) ^ 2) (h : passesTrial n w = true) : n.Prime := by
  by_contra hprime
  have hdvd := Nat.minFac_dvd n
  have hsq := Nat.minFac_sq_le_self (Nat.lt_trans Nat.zero_lt_one hone) hprime
  have htwo := (Nat.minFac_prime (Nat.ne_of_gt hone)).two_le
  have hmod : n.minFac % 2 = 1 := by
    obtain ⟨c, hc⟩ := hdvd
    rw [hc, Nat.mul_mod] at hodd
    rcases Nat.mod_two_eq_zero_or_one n.minFac with hzero | hone
    · rw [hzero, Nat.zero_mul] at hodd
      cases hodd
    · exact hone
  have hroot : n.minFac < 2 * (w * w) + 3 :=
    lt_of_pow_lt_pow_left₀ 2 (Nat.zero_le _) (Nat.lt_of_le_of_lt hsq hw)
  have hquot : (n.minFac - 3) / 2 / w < w := by
    apply Nat.div_lt_of_lt_mul
    omega
  have hrest : (n.minFac - 3) / 2 % w < w := Nat.mod_lt _ (Nat.zero_lt_of_lt hquot)
  have hsplit := Nat.div_add_mod ((n.minFac - 3) / 2) w
  have htrial := noneDivides_spec (passesTrial_spec h _ hquot) _ hrest
  rw [show 2 * (w * ((n.minFac - 3) / 2 / w)) + 3 + 2 * ((n.minFac - 3) / 2 % w) = n.minFac by
    omega] at htrial
  exact htrial (Nat.mod_eq_zero_of_dvd hdvd)

theorem prime_of_mem_acPrimeList {n : Nat} (hmem : n ∈ acPrimeList) (hsmall : n < 2 ^ 31) :
    n.Prime := by
  have hall : ∀ n ∈ acPrimeList, n < 2 ^ 31 → n % 2 = 1 ∧ 1 < n ∧
      ∃ w ∈ [0, 1, 2, 3, 5, 8, 12, 17, 25, 36, 51, 71, 101, 142],
        n < (2 * (w * w) + 3) ^ 2 ∧ passesTrial n w = true := by
    decide +kernel
  obtain ⟨hodd, hone, w, -, hw, htrial⟩ := hall n hmem hsmall
  exact prime_of_passesTrial hodd hone hw htrial

/-- A size of the list has room for all places of the one before it, and for the nodes that are put
while these are moved. -/
theorem room_of_acPrimeList {i n n' : Nat} (hn : acPrimeList[i]? = some n)
    (hn' : acPrimeList[i + 1]? = some n') (hsmall : n' < 2 ^ 31) :
    n + n / 256 + 2 ≤ mhUpperBound n' := by
  have hall : ∀ i < 31, ∀ n ∈ acPrimeList[i]?, ∀ n' ∈ acPrimeList[i + 1]?, n' < 2 ^ 31 →
      n + n / 256 + 2 ≤ mhUpperBound n' := by
    decide
  have hi : i < 31 := (List.getElem?_eq_some_iff.mp hn).1
  exact hall i hi n hn n' hn' hsmall

theorem lt_of_acPrimeList {i n n' : Nat} (hn : acPrimeList[i]? = some n)
    (hn' : acPrimeList[i + 1]? = some n') : n < n' := by
  have hall : ∀ i < 31, ∀ n ∈ acPrimeList[i]?, ∀ n' ∈ acPrimeList[i + 1]?, n < n' := by
    decide
  exact hall i (List.getElem?_eq_some_iff.mp hn).1 n hn n' hn'

theorem exists_next_acPrimeList {i n : Nat} (hn : acPrimeList[i]? = some n) (hsmall : n < 2 ^ 31) :
    ∃ n', acPrimeList[i + 1]? = some n' := by
  have hall : ∀ i < 31, ∀ n ∈ acPrimeList[i]?, n < 2 ^ 31 → (acPrimeList[i + 1]?).isSome := by
    decide
  exact Option.isSome_iff_exists.mp (hall i (List.getElem?_eq_some_iff.mp hn).1 n hn hsmall)

theorem mhUpperBound_lt {n : Nat} (hn : 0 < n) : mhUpperBound n + n / 256 < n := by
  unfold mhUpperBound
  omega

theorem mhUpperBound_le (n : Nat) : mhUpperBound n ≤ n := by
  unfold mhUpperBound
  omega

theorem primeFrom_eq {i n n' prime : Nat} (hn : acPrimeList[i]? = some n)
    (hn' : acPrimeList[i + 1]? = some n') (hprime : prime = i ∨ prime = i + 1) :
    Mh.primeFrom (n + 1) (acPrimeList.length - prime) prime = i + 1 := by
  have hall : ∀ i < 31, ∀ n ∈ acPrimeList[i]?, ∀ n' ∈ acPrimeList[i + 1]?,
      Mh.primeFrom (n + 1) (acPrimeList.length - i) i = i + 1 ∧
        Mh.primeFrom (n + 1) (acPrimeList.length - (i + 1)) (i + 1) = i + 1 := by
    decide
  have hi : i < 31 := (List.getElem?_eq_some_iff.mp hn).1
  rcases hprime with rfl | rfl
  · exact (hall prime hi n hn n' hn').1
  · exact (hall i hi n hn n' hn').2

theorem mhInc_of_lt {count : Nat} (h : count + 1 < 2 ^ 32) : mhInc count = count + 1 :=
  Nat.mod_eq_of_lt h

theorem mhDec_of_pos {count : Nat} (hpos : 0 < count) (h : count < 2 ^ 32) :
    mhDec count = count - 1 := by
  unfold mhDec
  omega

end BeeC
