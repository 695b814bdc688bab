import Mathlib.Algebra.Group.Nat.Defs
import Mathlib.Data.Nat.Basic
import Mathlib.Tactic.Common

/-!
# Byte-addressed memory

A memory gives the byte at every address of `w` bits; addresses wrap around.  Loops that fill a
range or copy one range to another byte by byte, upwards, are described in full: what they write,
what they leave alone, and what an upward copy does when it overtakes its own source.

## Main definitions

* `Mem.store8`, `Mem.load32`, `Mem.store32` — accesses; words are big-endian.
* `Mem.fill`, `Mem.copy` — the byte loops.
* `Mem.Moved` — one range holds what another one held before, and nothing else has changed.
-/

namespace Polaris

open BitVec

/-- The byte at every address. -/
abbrev Mem (w : ℕ) := BitVec w → BitVec 8

namespace Mem

variable {w : ℕ}

/-- The address `k` bytes after `a`. -/
def off (a : BitVec w) (k : ℕ) : BitVec w :=
  a + BitVec.ofNat w k

def store8 (m : Mem w) (a : BitVec w) (b : BitVec 8) : Mem w :=
  fun x => if x = a then b else m x

def load32 (m : Mem w) (a : BitVec w) : BitVec 32 :=
  m (off a 0) ++ m (off a 1) ++ m (off a 2) ++ m (off a 3)

def store32 (m : Mem w) (a : BitVec w) (v : BitVec 32) : Mem w :=
  (((m.store8 (off a 0) (v.extractLsb' 24 8)).store8 (off a 1) (v.extractLsb' 16 8)).store8
    (off a 2) (v.extractLsb' 8 8)).store8 (off a 3) (v.extractLsb' 0 8)

/-- Stores `b` at `n` addresses from `a` upwards. -/
def fill (b : BitVec 8) : ℕ → Mem w → BitVec w → Mem w
  | 0, m, _ => m
  | n + 1, m, a => fill b n (m.store8 a b) (off a 1)

/-- Copies `n` bytes from `src` upwards to `dst` upwards, one at a time. -/
def copy : ℕ → Mem w → BitVec w → BitVec w → Mem w
  | 0, m, _, _ => m
  | n + 1, m, src, dst => copy n (m.store8 dst (m src)) (off src 1) (off dst 1)

/-- In `m'` the `n` bytes at `dst` are those `m` had at `src`, and all other bytes are as in `m`. -/
structure Moved (m m' : Mem w) (src dst : BitVec w) (n : ℕ) : Prop where
  copied : ∀ k < n, m' (off dst k) = m (off src k)
  frame : ∀ a, (∀ k < n, a ≠ off dst k) → m' a = m a

/-! ## Addresses -/

variable (a : BitVec w)

@[simp] theorem off_zero : off a 0 = a := by simp [off]

theorem off_off (j k : ℕ) : off (off a j) k = off a (j + k) := by
  rw [off, off, off, ofNat_add, BitVec.add_assoc]

theorem off_injective {j k : ℕ} (hj : j < 2 ^ w) (hk : k < 2 ^ w)
    (h : off a j = off a k) : j = k := by
  have hto := congrArg BitVec.toNat ((BitVec.add_right_inj a).mp h)
  rwa [toNat_ofNat, toNat_ofNat, Nat.mod_eq_of_lt hj, Nat.mod_eq_of_lt hk] at hto

/-- Where the destination lies, seen from the source. -/
theorem off_sub (src dst : BitVec w) : off src (dst - src).toNat = dst := by
  rw [off, ofNat_toNat, setWidth_eq, BitVec.add_comm, BitVec.sub_add_cancel]

theorem toNat_off_sub {k : ℕ} (hk : k < 2 ^ w) : (off a k - a).toNat = k := by
  rw [off, BitVec.add_comm, BitVec.add_sub_cancel, toNat_ofNat, Nat.mod_eq_of_lt hk]

/-- The bytes of the destination are bytes of the source, further on. -/
theorem off_dst (src dst : BitVec w) (k : ℕ) : off dst k = off src ((dst - src).toNat + k) := by
  rw [← off_off, off_sub]

variable {src dst : BitVec w}

/-- The source before the destination is reached is not in what the copy has written. -/
theorem off_ne_off {j k : ℕ} (hk : k < (dst - src).toNat) (hj : j < k) :
    off src k ≠ off dst j := by
  intro heq
  rw [← Nat.sub_add_cancel (Nat.le_of_lt hj), ← off_off] at heq
  have hdst : off src (k - j) = off src (dst - src).toNat := by
    rw [off_sub]
    exact (BitVec.add_left_inj (BitVec.ofNat w j)).mp heq
  have hlt := (dst - src).isLt
  have := off_injective src (by omega) hlt hdst
  omega

/-- The phase of an address within a word. -/
theorem toNat_and_three (a : BitVec 32) : (a &&& 3#32).toNat = a.toNat % 4 := by
  rw [toNat_and]
  exact Nat.and_two_pow_sub_one_eq_mod a.toNat 2

/-! ## Accesses -/

variable (m : Mem w)

theorem store8_self (a : BitVec w) (b : BitVec 8) : m.store8 a b a = b :=
  if_pos rfl

theorem store8_of_ne {a x : BitVec w} (b : BitVec 8) (h : x ≠ a) : m.store8 a b x = m x :=
  if_neg h

theorem store8_same (a : BitVec w) : m.store8 a (m a) = m := by
  funext x
  rw [store8]
  split
  next h => rw [h]
  next => rfl

/-! ## Filling a range -/

variable (n : ℕ)

theorem fill_apply (b : BitVec 8) (n : ℕ) (m : Mem w) (a x : BitVec w) :
    fill b n m a x = if ∃ k < n, x = off a k then b else m x := by
  induction n generalizing m a with
  | zero => simp [fill]
  | succ n ih =>
    rw [fill, ih]
    have hsplit : (∃ k < n + 1, x = off a k) ↔ x = a ∨ ∃ k < n, x = off (off a 1) k := by
      simp only [off_off]
      constructor
      · rintro ⟨k, hk, rfl⟩
        cases k with
        | zero => exact .inl (off_zero a)
        | succ k => exact .inr ⟨k, by omega, by rw [Nat.add_comm]⟩
      · rintro (rfl | ⟨k, hk, rfl⟩)
        · exact ⟨0, by omega, (off_zero x).symm⟩
        · exact ⟨1 + k, by omega, rfl⟩
    simp only [hsplit, store8]
    by_cases hx : x = a <;> simp [hx]

/-! ## Copying upwards -/

theorem copy_add (j n : ℕ) (m : Mem w) (src dst : BitVec w) :
    copy (j + n) m src dst = copy n (copy j m src dst) (off src j) (off dst j) := by
  induction j generalizing m src dst with
  | zero => simp [copy]
  | succ j ih => rw [Nat.succ_add, copy, ih, copy, off_off, off_off, Nat.add_comm 1 j]

/-- The last byte of a copy. -/
theorem copy_succ (m : Mem w) (src dst : BitVec w) :
    copy (n + 1) m src dst
      = (copy n m src dst).store8 (off dst n) (copy n m src dst (off src n)) := by
  rw [copy_add]
  rfl

theorem copy_self (m : Mem w) (src : BitVec w) : copy n m src src = m := by
  induction n with
  | zero => rfl
  | succ n ih => rw [copy_succ, ih, store8_same]

/-- A copy writes to its destination only. -/
theorem copy_frame (m : Mem w) (src dst : BitVec w) {a : BitVec w}
    (h : ∀ k < n, a ≠ off dst k) : copy n m src dst a = m a := by
  induction n with
  | zero => rfl
  | succ n ih =>
    rw [copy_succ, store8_of_ne _ _ (h n (Nat.lt_succ_self n))]
    exact ih fun k hk => h k (by omega)

/-- An upward copy repeats the bytes between its source and its destination. -/
theorem copy_apply {n : ℕ} (hn : n ≤ 2 ^ w) (m : Mem w) (hne : src ≠ dst)
    {k : ℕ} (hk : k < n) : copy n m src dst (off dst k) = m (off src (k % (dst - src).toNat)) := by
  have hd : 0 < (dst - src).toNat := by
    refine Nat.pos_of_ne_zero fun h0 => hne ?_
    rw [← off_sub src dst, h0, off_zero]
  induction n generalizing k with
  | zero => exact absurd hk (Nat.not_lt_zero k)
  | succ n ih =>
    rw [copy_succ]
    by_cases hkn : k = n
    · subst hkn
      rw [store8_self]
      -- the byte read is one written before if the copy has come that far
      by_cases hkd : k < (dst - src).toNat
      · rw [Nat.mod_eq_of_lt hkd]
        exact copy_frame _ _ _ _ fun j hj => off_ne_off hkd hj
      · have hsrc : off src k = off dst (k - (dst - src).toNat) := by
          rw [off_dst src dst, Nat.add_sub_cancel' (not_lt.mp hkd)]
        rw [hsrc, ih (by omega) (by omega), Nat.mod_eq_sub_mod (not_lt.mp hkd)]
    · rw [store8_of_ne]
      · exact ih (by omega) (by omega)
      · intro heq
        exact hkn (off_injective dst (by omega) (by omega) heq)

/-- Copying upwards moves a range exactly when it does not overtake the range it reads. -/
theorem moved_copy_iff {n : ℕ} (hn : n ≤ 2 ^ w) (src dst : BitVec w) :
    (∀ m, Moved m (copy n m src dst) src dst n) ↔ src = dst ∨ n ≤ (dst - src).toNat := by
  constructor
  · intro h
    by_contra hover
    obtain ⟨hne, hlt⟩ := not_or.mp hover
    have hlt := not_le.mp hlt
    -- the first byte of the source comes where the first byte of the destination should
    have hbyte := (h fun x => if x = src then 1#8 else 0#8).copied _ hlt
    rw [copy_apply hn _ hne hlt, Nat.mod_self, off_zero, off_sub, if_pos rfl,
      if_neg (Ne.symm hne)] at hbyte
    exact absurd hbyte (by decide)
  · rintro (rfl | hle) m
    · rw [copy_self]
      exact ⟨fun _ _ => rfl, fun _ _ => rfl⟩
    · refine ⟨fun k hk => ?_, fun a ha => copy_frame n m src dst ha⟩
      by_cases hne : src = dst
      · rw [hne, copy_self]
      · rw [copy_apply hn m hne hk, Nat.mod_eq_of_lt (by omega)]

theorem extract_append (a b c d : BitVec 8) :
    (a ++ b ++ c ++ d).extractLsb' 24 8 = a ∧ (a ++ b ++ c ++ d).extractLsb' 16 8 = b ∧
      (a ++ b ++ c ++ d).extractLsb' 8 8 = c ∧ (a ++ b ++ c ++ d).extractLsb' 0 8 = d := by
  refine ⟨?_, ?_, ?_, ?_⟩ <;>
  · apply eq_of_toNat_eq
    rw [extractLsb'_toNat, toNat_append, toNat_append, toNat_append,
      ← Nat.shiftLeft_add_eq_or_of_lt b.isLt, ← Nat.shiftLeft_add_eq_or_of_lt c.isLt,
      ← Nat.shiftLeft_add_eq_or_of_lt d.isLt]
    simp only [Nat.shiftLeft_eq, Nat.shiftRight_eq_div_pow]
    omega

/-- A word copied in one piece is four bytes copied, unless the bytes get into each other's way. -/
theorem store32_load32 (h : src = dst ∨ 4 ≤ (dst - src).toNat) :
    m.store32 dst (m.load32 src) = copy 4 m src dst := by
  obtain ⟨h0, h1, h2, h3⟩ := extract_append (m (off src 0)) (m (off src 1)) (m (off src 2))
    (m (off src 3))
  rw [store32, load32, h0, h1, h2, h3]
  rcases h with rfl | hd
  · simp only [store8_same, copy_self]
  · have hread {j : ℕ} (hj : j < 4) : copy j m src dst (off src j) = m (off src j) :=
      copy_frame j m src dst fun i hi => off_ne_off (by omega) hi
    rw [copy_succ 3, hread (by decide), copy_succ 2, hread (by decide), copy_succ 1,
      hread (by decide), copy_succ 0, hread (by decide), copy]

/-! ## Words -/

theorem load32_congr {m m' : Mem w} {a : BitVec w} (h : ∀ i < 4, m' (off a i) = m (off a i)) :
    m'.load32 a = m.load32 a := by
  rw [load32, load32, h 0 (by decide), h 1 (by decide), h 2 (by decide), h 3 (by decide)]

/-- The bytes of a word at different offsets. -/
theorem off_ne (hw : 4 ≤ 2 ^ w) (a : BitVec w) {i j : ℕ}
    (h : i < 4 ∧ j < 4 ∧ i ≠ j) : off a i ≠ off a j :=
  fun heq => h.2.2 (off_injective a (by omega) (by omega) heq)

/-- The bytes of a word that has been stored, the highest first. -/
theorem store32_apply (hw : 4 ≤ 2 ^ w) (a x : BitVec w) (v : BitVec 32) : m.store32 a v x =
    if (x - a).toNat < 4 then v.extractLsb' (24 - 8 * (x - a).toNat) 8 else m x := by
  have hoff {j : ℕ} (hj : j < 4) : x = off a j ↔ (x - a).toNat = j := by
    constructor
    · rintro rfl
      exact toNat_off_sub a (by omega)
    · intro hsub
      rw [← hsub, off_sub]
  simp only [store32, store8, hoff (by decide : 0 < 4), hoff (by decide : 1 < 4),
    hoff (by decide : 2 < 4), hoff (by decide : 3 < 4)]
  generalize (x - a).toNat = k
  by_cases hk : k < 4
  · obtain rfl | rfl | rfl | rfl : k = 0 ∨ k = 1 ∨ k = 2 ∨ k = 3 := by omega
    all_goals rfl
  · rw [if_neg hk, if_neg (by omega), if_neg (by omega), if_neg (by omega), if_neg (by omega)]

theorem load32_store32 (hw : 4 ≤ 2 ^ w) (a : BitVec w) (v : BitVec 32) :
    (m.store32 a v).load32 a = v := by
  have hbyte {i : ℕ} (hi : i < 4) : m.store32 a v (off a i) = v.extractLsb' (24 - 8 * i) 8 := by
    rw [store32_apply m hw, toNat_off_sub a (by omega), if_pos hi]
  rw [load32, hbyte (by decide), hbyte (by decide), hbyte (by decide), hbyte (by decide)]
  refine eq_of_getLsbD_eq fun i hi => ?_
  simp only [getLsbD_append, getLsbD_extractLsb']
  grind

end Mem

end Polaris
