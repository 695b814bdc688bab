import Mathlib.Data.Nat.Bitwise

/-!
# Bit fields of a word

Fields at fixed positions of a machine word, as masks and shifts compute them.  Every operation is
described by the bits of its result.

## Main definitions

* `valmask`, `valtofld`, `extract`, `deposit` — the mask of a length, a value in its place, reading
  and writing a field.
-/

namespace Polaris.Bitfield

open BitVec

variable {w : ℕ}

/-- The low `len` bits. -/
def valmask (w len : ℕ) : BitVec w :=
  (1#w <<< len) - 1#w

/-- A value in the place of its field. -/
def valtofld (val : BitVec w) (pos len : ℕ) : BitVec w :=
  (val &&& valmask w len) <<< pos

/-- The value of a field. -/
def extract (whole : BitVec w) (pos len : ℕ) : BitVec w :=
  (whole >>> pos) &&& valmask w len

/-- The word with a value in one of its fields. -/
def deposit (whole val : BitVec w) (pos len : ℕ) : BitVec w :=
  (whole &&& ~~~(valmask w len <<< pos)) ||| valtofld val pos len

/-- A length beyond that of the word is all of it. -/
theorem toNat_valmask (hw : 0 < w) (len : ℕ) : (valmask w len).toNat = 2 ^ min len w - 1 := by
  have hone : 1 < 2 ^ w := Nat.one_lt_two_pow hw.ne'
  rw [valmask, toNat_sub, toNat_shiftLeft, toNat_ofNat, Nat.mod_eq_of_lt hone,
    Nat.shiftLeft_eq, Nat.one_mul]
  rcases Nat.lt_or_ge len w with h | h
  · have hlt : 2 ^ len < 2 ^ w := Nat.pow_lt_pow_right (by omega) h
    have hpos : 0 < 2 ^ len := Nat.two_pow_pos len
    rw [Nat.min_eq_left h.le, Nat.mod_eq_of_lt hlt,
      show 2 ^ w - 1 + 2 ^ len = 2 ^ len - 1 + 2 ^ w by omega, Nat.add_mod_right,
      Nat.mod_eq_of_lt (by omega)]
  · rw [Nat.min_eq_right h, Nat.mod_eq_zero_of_dvd (Nat.pow_dvd_pow 2 h), Nat.add_zero,
      Nat.mod_eq_of_lt (by omega)]

theorem getLsbD_valmask (len i : ℕ) :
    (valmask w len).getLsbD i = (decide (i < w) && decide (i < len)) := by
  by_cases hw : i < w
  · rw [getLsbD, toNat_valmask (by omega), Nat.testBit_two_pow_sub_one]
    simp only [hw, Nat.lt_min, decide_true, Bool.true_and, and_true]
  · rw [getLsbD_of_ge _ _ (by omega)]
    simp [hw]

@[simp] theorem getLsbD_valtofld (val : BitVec w) (pos len i : ℕ) :
    (valtofld val pos len).getLsbD i
      = (decide (i < w) && decide (pos ≤ i) && decide (i < pos + len) &&
        val.getLsbD (i - pos)) := by
  rw [valtofld, getLsbD_shiftLeft, getLsbD_and, getLsbD_valmask]
  by_cases hw : i < w
  · by_cases hp : pos ≤ i
    · have h1 : i - pos < w := by omega
      have h2 : (i - pos < len) = (i < pos + len) := by simp; omega
      simp [hw, hp, h1, h2, Bool.and_comm]
    · simp [hp]
  · simp [hw]

@[simp] theorem getLsbD_extract (whole : BitVec w) (pos len i : ℕ) :
    (extract whole pos len).getLsbD i = (decide (i < len) && whole.getLsbD (pos + i)) := by
  rw [extract, getLsbD_and, getLsbD_ushiftRight, getLsbD_valmask]
  by_cases hw : i < w
  · simp [hw, Bool.and_comm]
  · rw [getLsbD_of_ge whole _ (by omega)]
    simp

@[simp] theorem getLsbD_deposit (whole val : BitVec w) (pos len i : ℕ) :
    (deposit whole val pos len).getLsbD i
      = if pos ≤ i ∧
        i < pos + len then decide (i < w) && val.getLsbD (i - pos) else whole.getLsbD i := by
  rw [deposit, getLsbD_or, getLsbD_and, getLsbD_not, getLsbD_shiftLeft,
    getLsbD_valmask, getLsbD_valtofld]
  by_cases hw : i < w
  · split
    next hin =>
      have h1 : i - pos < w := by omega
      have h2 : i - pos < len := by omega
      simp [hw, hin.1, hin.2, h1, h2, not_lt.mpr hin.1]
    next hout =>
      by_cases hp : pos ≤ i
      · have h2 : ¬ i - pos < len := by omega
        have h3 : ¬ i < pos + len := by omega
        simp [hw, hp, h2, h3]
      · simp [hw, hp, not_le.mp hp]
  · simp [hw, getLsbD_of_ge whole i (by omega)]

end Polaris.Bitfield
