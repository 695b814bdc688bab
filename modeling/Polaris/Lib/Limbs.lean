import Mathlib.Tactic.Ring
import Mathlib.Tactic.Linarith
import Mathlib.Tactic.LinearCombination

/-!
# Numbers as lists of words

A natural number written with words of `w` bits, the least significant first.  Leading zero words
are allowed.

## Main definitions

* `limbVal` — the number a list of words stands for.
-/

namespace Polaris

open List

variable {w : ℕ}

/-- The number with the given words, the least significant first. -/
def limbVal : List (BitVec w) → ℕ
  | [] => 0
  | x :: xs => x.toNat + 2 ^ w * limbVal xs

@[simp] theorem limbVal_nil : limbVal ([] : List (BitVec w)) = 0 := rfl

variable (x : BitVec w) (xs : List (BitVec w))

theorem limbVal_cons : limbVal (x :: xs) = x.toNat + 2 ^ w * limbVal xs := rfl

/-- One word more of a sum with carries. -/
theorem limbVal_carry {x : BitVec w} {xs : List (BitVec w)} {n a c c₁ c₂ A : ℕ}
    (hstep : x.toNat + 2 ^ w * c₁ = a + c) (hrest : limbVal xs + 2 ^ (w * n) * c₂ = A + c₁) :
    limbVal (x :: xs) + 2 ^ (w * (n + 1)) * c₂ = a + 2 ^ w * A + c := by
  rw [limbVal_cons, Nat.mul_succ, Nat.pow_add]
  linear_combination hstep + 2 ^ w * hrest

/-- One word more of a difference with carries. -/
theorem limbVal_borrow {x : BitVec w} {xs : List (BitVec w)} {n a b c c₁ c₂ A B : ℕ}
    (hstep : a + c + 2 ^ w = x.toNat + b + 1 + 2 ^ w * c₁)
    (hrest : A + c₁ + 2 ^ (w * n) = limbVal xs + B + 1 + 2 ^ (w * n) * c₂) :
    a + 2 ^ w * A + c + 2 ^ (w * (n + 1))
      = limbVal (x :: xs) + (b + 2 ^ w * B) + 1 + 2 ^ (w * (n + 1)) * c₂ := by
  rw [limbVal_cons, Nat.mul_succ, Nat.pow_add]
  linear_combination hstep + 2 ^ w * hrest

@[simp] theorem limbVal_singleton : limbVal [x] = x.toNat := by
  simp [limbVal]

theorem limbVal_append (ys : List (BitVec w)) :
    limbVal (xs ++ ys) = limbVal xs + 2 ^ (w * xs.length) * limbVal ys := by
  induction xs with
  | nil => simp
  | cons x xs ih =>
    rw [cons_append, limbVal_cons, ih, limbVal_cons, length_cons, Nat.mul_succ, Nat.pow_add]
    ring

theorem limbVal_lt : limbVal xs < 2 ^ (w * xs.length) := by
  induction xs with
  | nil => simp
  | cons x xs ih =>
    have hx := x.isLt
    have hmul : 2 ^ w * (limbVal xs + 1) ≤ 2 ^ w * 2 ^ (w * xs.length) := Nat.mul_le_mul_left _ ih
    rw [limbVal_cons, length_cons, Nat.mul_succ, Nat.pow_add, Nat.mul_comm (2 ^ (w * xs.length))]
    rw [Nat.mul_add, Nat.mul_one] at hmul
    omega

@[simp] theorem limbVal_replicate_zero (n : ℕ) : limbVal (replicate n (0#w)) = 0 := by
  induction n with
  | zero => rfl
  | succ n ih => rw [replicate_succ, limbVal_cons, ih]; simp

/-- Leading zeros do not count. -/
theorem limbVal_append_zeros (n : ℕ) : limbVal (xs ++ replicate n (0#w)) = limbVal xs := by
  rw [limbVal_append, limbVal_replicate_zero, Nat.mul_zero, Nat.add_zero]

theorem limbVal_eq_zero_iff {xs : List (BitVec w)} : limbVal xs = 0 ↔ ∀ x ∈ xs, x = 0#w := by
  induction xs with
  | nil => simp
  | cons x xs ih =>
    rw [limbVal_cons, Nat.add_eq_zero_iff, Nat.mul_eq_zero, ih, forall_mem_cons]
    have hpow : ¬ 2 ^ w = 0 := Nat.pos_iff_ne_zero.mp (Nat.two_pow_pos w)
    have hx : x.toNat = 0 ↔ x = 0#w := by
      rw [← BitVec.toNat_inj, BitVec.toNat_ofNat, Nat.zero_mod]
    rw [hx]
    tauto

theorem limbVal_take_add_drop {n : ℕ} (h : n ≤ xs.length) :
    limbVal (xs.take n) + 2 ^ (w * n) * limbVal (xs.drop n) = limbVal xs := by
  conv_rhs => rw [← take_append_drop n xs, limbVal_append, length_take_of_le h]

theorem limbVal_concat (x : BitVec w) :
    limbVal (xs ++ [x]) = limbVal xs + 2 ^ (w * xs.length) * x.toNat := by
  rw [limbVal_append, limbVal_singleton]

/-- Words of one length with one value are the same. -/
theorem limbVal_injective {xs ys : List (BitVec w)} (hlen : xs.length = ys.length)
    (h : limbVal xs = limbVal ys) : xs = ys := by
  induction xs generalizing ys with
  | nil =>
    cases ys with
    | nil => rfl
    | cons y ys => cases hlen
  | cons x xs ih =>
    cases ys with
    | nil => cases hlen
    | cons y ys =>
      rw [limbVal_cons, limbVal_cons] at h
      have hx := x.isLt
      have hy := y.isLt
      have hdiv := congrArg (· / 2 ^ w) h
      have hmod := congrArg (· % 2 ^ w) h
      simp only [Nat.add_mul_div_left _ _ (Nat.two_pow_pos w), Nat.div_eq_of_lt hx,
        Nat.div_eq_of_lt hy, Nat.zero_add] at hdiv
      simp only [Nat.add_mul_mod_self_left, Nat.mod_eq_of_lt hx, Nat.mod_eq_of_lt hy] at hmod
      rw [BitVec.eq_of_toNat_eq hmod, ih (by simpa using hlen) hdiv]

/-- The lowest word is the remainder. -/
theorem limbVal_mod_head : limbVal (x :: xs) % 2 ^ w = x.toNat := by
  rw [limbVal_cons, Nat.add_mul_mod_self_left, Nat.mod_eq_of_lt x.isLt]

/-- The upper words are the quotient, the lower ones the remainder. -/
theorem limbVal_drop {n : ℕ} (h : n ≤ xs.length) :
    limbVal (xs.drop n) = limbVal xs / 2 ^ (w * n) := by
  have hlt := limbVal_lt (xs.take n)
  rw [length_take_of_le h] at hlt
  rw [← limbVal_take_add_drop xs h, Nat.add_mul_div_left _ _ (Nat.two_pow_pos _),
    Nat.div_eq_of_lt hlt, Nat.zero_add]

end Polaris
