import Mathlib.Data.Nat.Bitwise
import Mathlib.Data.Nat.Size
import Mathlib.Tactic.Linarith
import Mathlib.Tactic.Positivity

/-!
# Words and the macros on them

The kernel code computes with `uint64_t`.  The model keeps such a value as a
natural number and applies `u64` where the machine would wrap.

The macros of `sysmacros.h` and the bit fields of `spa.h` are here, with their
meaning in terms of division and remainder.

## Main definitions

* `u64`, `u64Sub`, `u64Neg`
* `p2phase`, `p2roundup`, `highbit`
* `bf64Decode`, `bf64Encode`
* `spaMaxblocksize`, `txgSlot`, `txgClean`
-/

namespace Polaris

/-- A `uint64_t` result. -/
def u64 (n : ℕ) : ℕ := n % 2 ^ 64

/-- A `uint64_t` difference. -/
def u64Sub (a b : ℕ) : ℕ := u64 (a + 2 ^ 64 - b)

/-- A `uint64_t` negation. -/
def u64Neg (a : ℕ) : ℕ := u64Sub 0 a

/-- `highbit`: the position of the highest bit, counted from one, or zero.  A `ulong_t` has 32 bits
on `ppc` and `i386`; what is above them is cut off. -/
def highbit (n : ℕ) : ℕ := (n % 2 ^ 32).size

/-- `P2ROUNDUP`. -/
def p2roundup (x align : ℕ) : ℕ := u64Neg (u64Neg x &&& u64Neg align)

/-- `P2PHASE`. -/
def p2phase (x align : ℕ) : ℕ := x &&& (align - 1)

/-- `BF64_DECODE`. -/
def bf64Decode (x low len : ℕ) : ℕ := p2phase (x >>> low) (1 <<< len)

/-- `BF64_ENCODE`. -/
def bf64Encode (x low len : ℕ) : ℕ := u64 (p2phase x (1 <<< len) <<< low)

/-- `SPA_MAXBLOCKSIZE`. -/
def spaMaxblocksize : ℕ := 1 <<< 17

/-! ## Transaction groups -/

/-- `TXG_SIZE`. -/
def txgSize : ℕ := 4

/-- `TXG_CONCURRENT_STATES`. -/
def txgConcurrentStates : ℕ := 3

/-- `TXG_INITIAL`. -/
def txgInitial : ℕ := txgSize

/-- `TXG_CLEAN`. -/
def txgClean (txg : ℕ) : ℕ := u64Sub txg 1

/-- `txg & TXG_MASK`, as `TXG_SIZE` is a power of two. -/
def txgSlot (txg : ℕ) : Fin txgSize := ⟨txg % txgSize, Nat.mod_lt _ (by decide)⟩

/-! ## Words -/

theorem u64_of_lt {n : ℕ} (h : n < 2 ^ 64) : u64 n = n := Nat.mod_eq_of_lt h

theorem u64_lt (n : ℕ) : u64 n < 2 ^ 64 := Nat.mod_lt _ (by norm_num)

theorem u64Sub_of_le {a b : ℕ} (h : b ≤ a) (ha : a < 2 ^ 64) : u64Sub a b = a - b := by
  rw [u64Sub, u64]
  omega

theorem p2phase_eq_mod (x k : ℕ) : p2phase x (1 <<< k) = x % 2 ^ k := by
  rw [p2phase, Nat.one_shiftLeft, Nat.and_two_pow_sub_one_eq_mod]

theorem p2phase_eq_zero_iff (x k : ℕ) : p2phase x (1 <<< k) = 0 ↔ 2 ^ k ∣ x := by
  rw [p2phase_eq_mod, Nat.dvd_iff_mod_eq_zero]

theorem bf64Decode_eq (x low len : ℕ) : bf64Decode x low len = x / 2 ^ low % 2 ^ len := by
  rw [bf64Decode, p2phase_eq_mod, Nat.shiftRight_eq_div_pow]

theorem bf64Encode_eq {x low len : ℕ} (h : low + len ≤ 64) :
    bf64Encode x low len = x % 2 ^ len * 2 ^ low := by
  rw [bf64Encode, p2phase_eq_mod, Nat.shiftLeft_eq, u64_of_lt]
  calc x % 2 ^ len * 2 ^ low < 2 ^ len * 2 ^ low :=
        Nat.mul_lt_mul_of_pos_right (Nat.mod_lt _ (by positivity)) (by positivity)
    _ = 2 ^ (low + len) := by rw [← Nat.pow_add, Nat.add_comm]
    _ ≤ 2 ^ 64 := Nat.pow_le_pow_right (by norm_num) h

/-- Clearing the low bits of a word of any width. -/
theorem and_two_pow_sub_two_pow {a n k : ℕ} (ha : a < 2 ^ n) (hk : k < n) :
    a &&& (2 ^ n - 2 ^ k) = 2 ^ k * (a / 2 ^ k) := by
  have hpow : 2 ^ k < 2 ^ n := Nat.pow_lt_pow_right (by norm_num) hk
  have hneg : 2 ^ n - 2 ^ k = 2 ^ n - (2 ^ k - 1 + 1) := by
    have := Nat.two_pow_pos k
    omega
  refine Nat.eq_of_testBit_eq fun i => ?_
  rw [hneg, Nat.testBit_and, Nat.testBit_two_pow_sub_succ (by omega), Nat.testBit_two_pow_sub_one,
    Nat.testBit_two_pow_mul, Nat.testBit_div_two_pow]
  by_cases hik : k ≤ i
  · by_cases hi : i < n
    · simp [hik, hi, not_lt.mpr hik, Nat.sub_add_cancel hik]
    · have hbit : a.testBit i = false :=
        Nat.testBit_lt_two_pow (ha.trans_le (Nat.pow_le_pow_right (by norm_num) (by omega)))
      simp [hik, Nat.sub_add_cancel hik, hbit]
  · simp [hik, not_le.mp hik]

/-- Clearing the low bits of a `uint64_t`. -/
theorem and_u64Neg_two_pow {a k : ℕ} (ha : a < 2 ^ 64) (hk : k < 64) :
    a &&& u64Neg (2 ^ k) = 2 ^ k * (a / 2 ^ k) := by
  have hpow : 2 ^ k < 2 ^ 64 := Nat.pow_lt_pow_right (by norm_num) hk
  have hneg : u64Neg (2 ^ k) = 2 ^ 64 - 2 ^ k := by
    have := Nat.two_pow_pos k
    rw [u64Neg, u64Sub, u64]
    omega
  rw [hneg, and_two_pow_sub_two_pow ha hk]

/-- Rounding up to a multiple of a power of two. -/
theorem p2roundup_eq {x k : ℕ} (hk : k < 64) (hx : x + 2 ^ k ≤ 2 ^ 64) :
    p2roundup x (2 ^ k) = x + (2 ^ 64 - x) % 2 ^ k := by
  have hpow := Nat.two_pow_pos k
  have hmod : 2 ^ 64 % 2 ^ k = 0 := Nat.mod_eq_zero_of_dvd (Nat.pow_dvd_pow 2 hk.le)
  rw [p2roundup, and_u64Neg_two_pow (a := u64Neg x) (u64_lt _) hk]
  rcases Nat.eq_zero_or_pos x with rfl | hx0
  · rw [Nat.sub_zero, hmod]
    have h0 : u64Neg 0 = 0 := by decide
    rw [h0, Nat.zero_div, Nat.mul_zero, h0]
  have hneg : u64Neg x = 2 ^ 64 - x := by
    rw [u64Neg, u64Sub, u64]
    omega
  have hdiv := Nat.div_add_mod (2 ^ 64 - x) (2 ^ k)
  have hq : 2 ^ k * 1 ≤ 2 ^ k * ((2 ^ 64 - x) / 2 ^ k) :=
    Nat.mul_le_mul_left _ ((Nat.one_le_div_iff hpow).mpr (by omega))
  rw [hneg]
  generalize 2 ^ k * ((2 ^ 64 - x) / 2 ^ k) = q at *
  rw [u64Neg, u64Sub, u64]
  omega

theorem p2roundup_spec {x k : ℕ} (hk : k < 64) (hx : x + 2 ^ k ≤ 2 ^ 64) :
    x ≤ p2roundup x (2 ^ k) ∧ p2roundup x (2 ^ k) < x + 2 ^ k ∧ 2 ^ k ∣ p2roundup x (2 ^ k) := by
  have hpow := Nat.two_pow_pos k
  have hlt := Nat.mod_lt (2 ^ 64 - x) hpow
  have hdiv := Nat.div_add_mod (2 ^ 64 - x) (2 ^ k)
  rw [p2roundup_eq hk hx]
  refine ⟨by omega, by omega, ?_⟩
  have hsum : x + (2 ^ 64 - x) % 2 ^ k = 2 ^ 64 - 2 ^ k * ((2 ^ 64 - x) / 2 ^ k) := by omega
  rw [hsum]
  exact Nat.dvd_sub (Nat.pow_dvd_pow 2 hk.le) (Nat.dvd_mul_right ..)

theorem p2roundup_le {x k m : ℕ} (hk : k < 64) (hx : x + 2 ^ k ≤ 2 ^ 64) (hm : 2 ^ k ∣ m)
    (hle : x ≤ m) : p2roundup x (2 ^ k) ≤ m := by
  obtain ⟨-, hlt, a, ha⟩ := p2roundup_spec hk hx
  obtain ⟨b, rfl⟩ := hm
  rw [ha] at hlt ⊢
  have hab : 2 ^ k * a < 2 ^ k * (b + 1) := by rw [Nat.mul_add]; omega
  exact Nat.mul_le_mul_left _ (Nat.lt_succ_iff.mp (Nat.lt_of_mul_lt_mul_left hab))

/-- The lowest bit of an odd number and its negation. -/
theorem and_two_pow_sub {a n : ℕ} (hodd : a % 2 = 1) (ha : a < 2 ^ n) : a &&& (2 ^ n - a) = 1 := by
  have hsub : 2 ^ n - a = 2 ^ n - (a - 1 + 1) := by omega
  refine Nat.eq_of_testBit_eq fun i => ?_
  rw [hsub, Nat.testBit_and, Nat.testBit_two_pow_sub_succ (by omega)]
  cases i with
  | zero =>
    have hn : 0 < n := by
      rcases Nat.eq_zero_or_pos n with rfl | h
      · simp at ha; omega
      · exact h
    have : (a - 1) % 2 = 0 := by omega
    simp [Nat.testBit_zero, hodd, hn, this]
  | succ i =>
    have hhalf : (a - 1) / 2 = a / 2 := by omega
    rw [Nat.testBit_succ, Nat.testBit_succ, Nat.testBit_succ, hhalf]
    cases (a / 2).testBit i <;> simp

/-- `size & -size` is the largest power of two that divides `size`. -/
theorem lowbit_eq {k q : ℕ} (h : 2 ^ k * (2 * q + 1) < 2 ^ 64) :
    2 ^ k * (2 * q + 1) &&& u64Neg (2 ^ k * (2 * q + 1)) = 2 ^ k := by
  have hpow := Nat.two_pow_pos k
  have hk : k < 64 := by
    by_contra hk
    have := Nat.pow_le_pow_right (n := 2) (by norm_num) (not_lt.mp hk)
    nlinarith
  have hsplit : 2 ^ 64 = 2 ^ k * 2 ^ (64 - k) := by
    rw [← Nat.pow_add, Nat.add_sub_cancel' hk.le]
  have hneg : u64Neg (2 ^ k * (2 * q + 1)) = 2 ^ k * (2 ^ (64 - k) - (2 * q + 1)) := by
    have hpos : 0 < 2 ^ k * (2 * q + 1) := Nat.mul_pos hpow (by omega)
    rw [Nat.mul_sub, ← hsplit, u64Neg, u64Sub, u64]
    omega
  have hlt : 2 * q + 1 < 2 ^ (64 - k) := by
    rw [hsplit] at h
    exact Nat.lt_of_mul_lt_mul_left h
  rw [hneg, mul_comm (2 ^ k), mul_comm (2 ^ k), ← Nat.shiftLeft_eq, ← Nat.shiftLeft_eq,
    ← Nat.shiftLeft_and_distrib, and_two_pow_sub (by omega) hlt, Nat.one_shiftLeft]

end Polaris
