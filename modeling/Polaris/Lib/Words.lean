import Mathlib.Tactic.IntervalCases

/-!
# Loops over the words of a byte memory

A memory of bytes that is read and written in 64-bit words.  Byte `8 * i + j` is byte `j` of word
`i`, the lowest first; code that treats the bytes of a word alike cannot tell this order from the
other. A loop that rewrites one word after another is described byte by byte: `wordLoop_apply`.

## Main definitions

* `byteOf`, `load64`, `store64` — bytes of words and words of memory.
* `wordLoop`, `byteLoop` — rewrite `n` words in order, each from its old value, or `n` bytes.
-/

namespace Polaris

open BitVec

/-- Byte `j` of a word. -/
def byteOf (w : BitVec 64) (j : ℕ) : BitVec 8 := w.extractLsb' (8 * j) 8

/-- Word `i` of memory. -/
def load64 (m : ℕ → BitVec 8) (i : ℕ) : BitVec 64 :=
  m (8 * i + 7) ++ m (8 * i + 6) ++ m (8 * i + 5) ++ m (8 * i + 4)
    ++ m (8 * i + 3) ++ m (8 * i + 2) ++ m (8 * i + 1) ++ m (8 * i)

/-- Memory with word `i` replaced. -/
def store64 (m : ℕ → BitVec 8) (i : ℕ) (w : BitVec 64) : ℕ → BitVec 8 :=
  fun k => if k / 8 = i then byteOf w (k % 8) else m k

/-- A word with every byte replaced. -/
def mapBytes (f : BitVec 8 → BitVec 8) (w : BitVec 64) : BitVec 64 :=
  load64 (fun j => f (byteOf w j)) 0

/-- The loop that writes `f i` to the first `n` bytes. -/
def byteLoop (f : ℕ → BitVec 8) : ℕ → (ℕ → BitVec 8) → (ℕ → BitVec 8)
  | 0, m => m
  | n + 1, m => Function.update (byteLoop f n m) n (f n)

/-- The loop that rewrites the `n` words from `start` on, word `i` to `f i` of its old value. -/
def wordLoop (f : ℕ → BitVec 64 → BitVec 64) (start : ℕ) :
    ℕ → (ℕ → BitVec 8) → (ℕ → BitVec 8)
  | 0, m => m
  | n + 1, m =>
    let m := wordLoop f start n m
    store64 m (start + n) (f (start + n) (load64 m (start + n)))

theorem getLsbD_byteOf {w : BitVec 64} {j b : ℕ} (hb : b < 8) :
    (byteOf w j).getLsbD b = w.getLsbD (8 * j + b) := by
  simp [byteOf, hb]

theorem byteOf_load64 (m : ℕ → BitVec 8) (i : ℕ) {j : ℕ} (hj : j < 8) :
    byteOf (load64 m i) j = m (8 * i + j) := by
  apply eq_of_getLsbD_eq
  intro b hb
  rw [getLsbD_byteOf hb]
  simp only [load64, getLsbD_append]
  interval_cases j
  all_goals
    simp only [Nat.mul_zero, Nat.zero_add, Nat.reduceMul, Nat.add_zero]
    grind

@[simp] theorem byteOf_load64_div (m : ℕ → BitVec 8) (k : ℕ) :
    byteOf (load64 m (k / 8)) (k % 8) = m k := by
  rw [byteOf_load64 _ _ (Nat.mod_lt _ (by omega)), Nat.div_add_mod]

@[simp] theorem byteOf_xor (v w : BitVec 64) (j : ℕ) :
    byteOf (v ^^^ w) j = byteOf v j ^^^ byteOf w j := by
  apply eq_of_getLsbD_eq
  intro b hb
  rw [getLsbD_xor, getLsbD_byteOf hb, getLsbD_byteOf hb, getLsbD_byteOf hb, getLsbD_xor]

@[simp] theorem byteOf_and (v w : BitVec 64) (j : ℕ) :
    byteOf (v &&& w) j = byteOf v j &&& byteOf w j := by
  apply eq_of_getLsbD_eq
  intro b hb
  rw [getLsbD_and, getLsbD_byteOf hb, getLsbD_byteOf hb, getLsbD_byteOf hb, getLsbD_and]

/-- A word is made of its bytes. -/
theorem load64_byteOf (w : BitVec 64) : load64 (byteOf w) 0 = w := by
  apply eq_of_getLsbD_eq
  intro i hi
  have hbyte : byteOf (load64 (byteOf w) 0) (i / 8) = byteOf w (i / 8) := by
    rw [byteOf_load64 _ _ (by omega), Nat.mul_zero, Nat.zero_add]
  have hbit := congrArg (·.getLsbD (i % 8)) hbyte
  simpa only [getLsbD_byteOf (Nat.mod_lt i (by omega : 0 < 8)), Nat.div_add_mod] using hbit

theorem byteOf_mapBytes (f : BitVec 8 → BitVec 8) (w : BitVec 64) {j : ℕ} (hj : j < 8) :
    byteOf (mapBytes f w) j = f (byteOf w j) := by
  rw [mapBytes, byteOf_load64 _ _ hj, Nat.mul_zero, Nat.zero_add]

@[simp] theorem byteOf_zero (j : ℕ) : byteOf 0#64 j = 0#8 := by
  apply eq_of_getLsbD_eq
  intro b hb
  simp [getLsbD_byteOf hb]

theorem load64_congr {m m' : ℕ → BitVec 8} {i : ℕ} (h : ∀ j < 8, m (8 * i + j) = m' (8 * i + j)) :
    load64 m i = load64 m' i := by
  simp only [load64, h 7 (by omega), h 6 (by omega), h 5 (by omega), h 4 (by omega),
    h 3 (by omega), h 2 (by omega), h 1 (by omega)]
  rw [← Nat.add_zero (8 * i), h 0 (by omega)]

variable (f : ℕ → BitVec 64 → BitVec 64)

/-- The words of the range are rewritten from their old values, the other bytes are kept. -/
theorem wordLoop_apply (start n : ℕ) (m : ℕ → BitVec 8) (k : ℕ) :
    wordLoop f start n m k
      = if start ≤ k / 8 ∧ k / 8 < start + n then byteOf (f (k / 8) (load64 m (k / 8))) (k % 8)
        else m k := by
  induction n generalizing k with
  | zero => rw [wordLoop, if_neg (by omega)]
  | succ n ih =>
    -- the loop has not come to word `start + n` yet
    have hload : load64 (wordLoop f start n m) (start + n) = load64 m (start + n) := by
      refine load64_congr fun j hj => ?_
      rw [ih, if_neg (by omega)]
    rw [wordLoop, store64, hload]
    by_cases hk : k / 8 = start + n
    · rw [if_pos hk, if_pos (by omega), hk]
    · rw [if_neg hk, ih]
      exact if_congr (by omega) rfl rfl

theorem wordLoop_zero_apply (n : ℕ) (m : ℕ → BitVec 8) (k : ℕ) :
    wordLoop f 0 n m k
      = if k / 8 < n then byteOf (f (k / 8) (load64 m (k / 8))) (k % 8) else m k := by
  rw [wordLoop_apply]
  exact if_congr (by omega) rfl rfl

/-- A loop over the first `a` words, and another one over the words from there to word `b`. -/
theorem wordLoop_two_apply (g : ℕ → BitVec 64 → BitVec 64) {a b : ℕ} (hab : a ≤ b)
    (m : ℕ → BitVec 8) (k : ℕ) :
    wordLoop g a (b - a) (wordLoop f 0 a m) k
      = if k / 8 < b then
          byteOf (if k / 8 < a then f (k / 8) (load64 m (k / 8)) else g (k / 8) (load64 m (k / 8)))
            (k % 8)
        else m k := by
  rw [wordLoop_apply]
  by_cases hka : k / 8 < a
  · rw [if_neg (by omega), wordLoop_zero_apply, if_pos hka, if_pos (by omega), if_pos hka]
  -- the first loop has left the words of the second alone
  have hload : load64 (wordLoop f 0 a m) (k / 8) = load64 m (k / 8) := by
    refine load64_congr fun j hj => ?_
    rw [wordLoop_zero_apply, if_neg (by omega)]
  rw [hload, if_neg hka, wordLoop_zero_apply, if_neg hka]
  exact if_congr (by omega) rfl rfl

/-- A loop over `n` consecutive numbers keeps what each round carries on. -/
theorem foldl_range'_induction {α : Type} (step : α → ℕ → α) (P : ℕ → α → Prop) (first n : ℕ)
    {a : α} (hzero : P 0 a) (hstep : ∀ i < n, ∀ a, P i a → P (i + 1) (step a (first + i))) :
    P n ((List.range' first n).foldl step a) := by
  induction n with
  | zero => exact hzero
  | succ n ih =>
    rw [List.range'_1_concat, List.foldl_append]
    exact hstep n (Nat.lt_succ_self n) _ (ih fun i hi => hstep i (by omega))

theorem byteLoop_apply (f : ℕ → BitVec 8) (n : ℕ) (m : ℕ → BitVec 8) (k : ℕ) :
    byteLoop f n m k = if k < n then f k else m k := by
  induction n with
  | zero => rfl
  | succ n ih =>
    rw [byteLoop, Function.update_apply, ih]
    split
    next h => rw [h, if_pos (Nat.lt_succ_self n)]
    next h => exact if_congr (by omega) rfl rfl

end Polaris
