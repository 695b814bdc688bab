import Mathlib.Algebra.BigOperators.Intervals
import Mathlib.Algebra.BigOperators.Ring.Finset
import Mathlib.Tactic.Ring

/-!
# Running sums

The terms of a sequence are summed, the sums are summed, and the sums of the sums again.
Each sum gives every term a weight that depends on its distance from the end only: `1`,
`n - i`, and half of `(n - i) * (n - i + 1)`.  Two sequences that agree outside three places
and have the same three sums are therefore bound by one equation for each of the places.

## Main definitions

* `Sums x s` : `s` is the running sum of `x`

## Main results

* `Sums.second`, `Sums.third` : the weights of a term
* `pair_sum`, `triple_sum` : sums with a weight that vanishes at one place, or at two
-/

namespace Polaris.RunningSum

open Finset

variable {R : Type*} [CommRing R] {x y a b c : ℕ → R}

/-- `s n` is the sum of the first `n` terms of `x`. -/
structure Sums (x s : ℕ → R) : Prop where
  zero : s 0 = 0
  succ : ∀ n, s (n + 1) = s n + x n

/-- The sums with their first one, which is zero, left out. -/
def tail (s : ℕ → R) : ℕ → R :=
  fun n => s (n + 1)

namespace Sums

theorem first (ha : Sums x a) (n : ℕ) : a n = ∑ i ∈ range n, x i := by
  induction n with
  | zero => simpa using ha.zero
  | succ n ih => rw [ha.succ, sum_range_succ, ih]

theorem second (ha : Sums x a) (hb : Sums (tail a) b) (n : ℕ) :
    b n = ∑ i ∈ range n, ((n : R) - i) * x i := by
  induction n with
  | zero => simpa using hb.zero
  | succ n ih =>
    have hold : b n = ∑ i ∈ range (n + 1), ((n : R) - i) * x i := by
      rw [sum_range_succ, ih, sub_self, zero_mul, add_zero]
    rw [hb.succ, tail, ha.first, hold, ← sum_add_distrib]
    apply sum_congr rfl
    intro i _
    push_cast
    ring

theorem third (ha : Sums x a) (hb : Sums (tail a) b) (hc : Sums (tail b) c) (n : ℕ) :
    2 * c n = ∑ i ∈ range n, ((n : R) - i) * ((n : R) - i + 1) * x i := by
  induction n with
  | zero => simp [hc.zero]
  | succ n ih =>
    have hold : 2 * c n = ∑ i ∈ range (n + 1), ((n : R) - i) * ((n : R) - i + 1) * x i := by
      rw [sum_range_succ, ih, sub_self, zero_mul, zero_mul, add_zero]
    rw [hc.succ, tail, mul_add, hold, ha.second hb, mul_sum, ← sum_add_distrib]
    apply sum_congr rfl
    intro i _
    push_cast
    ring

end Sums

/-- The sum with weights that vanish at `q` and at `r`. -/
theorem triple_sum (ha : Sums x a) (hb : Sums (tail a) b) (hc : Sums (tail b) c) (n : ℕ) (q r : R) :
    ∑ i ∈ range n, ((i : R) - q) * ((i : R) - r) * x i
      = (n - q) * (n - r) * a n - (1 + (n - q) + (n - r)) * b n + 2 * c n := by
  rw [ha.first, ha.second hb, ha.third hb hc, mul_sum, mul_sum, ← sum_sub_distrib,
    ← sum_add_distrib]
  apply sum_congr rfl
  intro i _
  ring

/-- A sum of the differences of two sequences that agree at all places but one of weight. -/
theorem sum_sub_eq_single {n p : ℕ} (hp : p < n) (w : ℕ → R)
    (h : ∀ i, i < n → i ≠ p → w i = 0 ∨ x i = y i) :
    ∑ i ∈ range n, w i * y i - ∑ i ∈ range n, w i * x i = w p * (y p - x p) := by
  rw [← sum_sub_distrib, sum_eq_single_of_mem p (mem_range.mpr hp)]
  · rw [mul_sub]
  · intro i hi hne
    rcases h i (mem_range.mp hi) hne with hw | hxy
    · rw [hw, zero_mul, zero_mul, sub_zero]
    · rw [hxy, sub_self]

/-- The same where two places differ. -/
theorem sum_sub_eq_pair {n p q : ℕ} (hp : p < n) (hq : q < n) (hpq : p ≠ q) (w : ℕ → R)
    (h : ∀ i, i < n → i ≠ p → i ≠ q → x i = y i) :
    ∑ i ∈ range n, w i * y i - ∑ i ∈ range n, w i * x i
      = w p * (y p - x p) + w q * (y q - x q) := by
  rw [← sum_sub_distrib,
    sum_eq_add_of_mem p q (mem_range.mpr hp) (mem_range.mpr hq) hpq, mul_sub, mul_sub]
  intro i hi hne
  rw [h i (mem_range.mp hi) hne.1 hne.2, sub_self]

end Polaris.RunningSum
