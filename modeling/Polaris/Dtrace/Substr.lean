import Mathlib.Algebra.Order.Group.Nat
import Mathlib.Data.List.GetD
import Mathlib.Algebra.Ring.Int.Defs

/-!
# `substr()` and its result in scratch space

The subroutine `DIF_SUBR_SUBSTR` copies part of a string to the scratch area and leaves whatever is
there behind it.  The copy is right, whatever the area held, exactly when it runs into the string's
own NUL or copies nothing.

## Main definitions

* `dtraceSubstr` — the subroutine.
* `perlSubstr` — the substring it is meant to return.
* `SubstrInRange` — when it does.
-/

namespace Polaris

open Function

/-- The byte at an offset of a string. -/
def load8 (s : List (BitVec 8)) (k : ℕ) : BitVec 8 := s.getD k 0

/-- `dtrace_strlen`, with the 32-bit counter `len`; `lim` is what is left of the limit -/
def dtraceStrlen (load : ℕ → BitVec 8) : (lim addr : ℕ) → (len : BitVec 32) → BitVec 32
  | 0, _, len => len
  | lim + 1, addr, len => if load addr = 0 then len else dtraceStrlen load lim (addr + 1) (len + 1)

/-- The index and the number of bytes that the copy loop starts from, as `int64_t`. -/
def substrRange (len index remaining : ℤ) : ℤ × ℤ :=
  let (index, remaining) :=
    if index < 0 then
      let index := (index + len).bmod (2 ^ 64)
      if index < 0 ∧
        0 < (index + remaining).bmod (2 ^ 64) then (0, (remaining + index).bmod (2 ^ 64))
      else (index, remaining)
    else (index, remaining)
  if len ≤ index ∨ index < 0 then (len, remaining) else (index, remaining)

/-- The copy loop: `remaining` bytes from `load i` on, up to a NUL or the end of the area. -/
def substrCopy (load : ℕ → BitVec 8) (size : ℕ) : (remaining i : ℕ) → (ℕ → BitVec 8) → ℕ → BitVec 8
  | 0, _, d => d
  | remaining + 1, i, d =>
    let d := update d i (load i)
    if load i = 0 then d
    else if i + 1 = size then update d i 0
    else substrCopy load size remaining (i + 1) d

/-- `DIF_SUBR_SUBSTR` with `scratch` bytes left in the scratch area `d`; `none` is
`CPU_DTRACE_NOSCRATCH`. The length is missing when there are two arguments. -/
def dtraceSubstr (s : List (BitVec 8)) (size scratch : ℕ) (index : BitVec 64)
    (length : Option (BitVec 64)) (d : ℕ → BitVec 8) : Option (ℕ → BitVec 8) :=
  let len := (dtraceStrlen (load8 s) size 0 0).toNat
  let remaining := length.getD (.ofNat 64 size)
  if scratch < size then none
  else
    let (index, remaining) := substrRange len index.toInt remaining.toInt
    some (substrCopy (fun i => load8 s (i + index.toNat)) size remaining.toNat 0 (update d 0 0))

/-- The area holds the string, with its NUL. -/
def HoldsString (d : ℕ → BitVec 8) (s : List (BitVec 8)) : Prop :=
  ∀ k ≤ s.length, d k = load8 s k

/-- Where a substring starts, if a negative index counts from the end. -/
def substrStart (len index : ℤ) : ℤ := if index < 0 then index + len else index

/-- The substring as in Perl: a negative length leaves that many characters off the end, and the
range is clipped to the string. -/
def perlSubstr (s : List (BitVec 8)) (index length : ℤ) : List (BitVec 8) :=
  let start := substrStart s.length index
  let stop := if length < 0 then s.length + length else start + length
  (s.take stop.toNat).drop start.toNat

/-- The range is empty, or goes past the end of the string. -/
def SubstrInRange (len index length : ℤ) : Prop :=
  let start := substrStart len index
  (0 < length → len ≤ start ∨ start + length ≤ 0 ∨ len < start + length) ∧
    (length < 0 → (len + length ≤ start ∨ len + length ≤ 0) ∧ (-2 ^ 63 ≤ start + length ∨ len = 0))

section

variable {s : List (BitVec 8)} (hs : 0 ∉ s)

include hs

theorem load8_eq_zero_iff {k : ℕ} : load8 s k = 0 ↔ s.length ≤ k := by
  rcases lt_or_ge k s.length with hk | hk
  · have := List.getElem_mem hk
    grind [load8]
  · simp [load8, hk]

theorem dtraceStrlen_spec {lim addr : ℕ} {len : BitVec 32} (h : addr ≤ s.length)
    (hlim : s.length < addr + lim) :
    dtraceStrlen (load8 s) lim addr len = len + .ofNat 32 (s.length - addr) := by
  induction lim generalizing addr len with
  | zero => omega
  | succ lim ih =>
    rw [dtraceStrlen]
    split
    · next h0 =>
      rw [load8_eq_zero_iff hs] at h0
      simp [show s.length - addr = 0 by omega]
    · next h0 =>
      rw [load8_eq_zero_iff hs] at h0
      rw [ih (by omega) (by omega), show s.length - addr = 1 + (s.length - (addr + 1)) by omega,
        BitVec.ofNat_add, BitVec.add_assoc]
      rfl

/-- The loop copies up to the string's NUL. -/
theorem substrCopy_apply {size n i : ℕ} {d : ℕ → BitVec 8} (hi : i ≤ s.length)
    (hsize : s.length < size) (k : ℕ) : substrCopy (load8 s) size n i d k =
      if i ≤ k ∧ k < i + n ∧ k ≤ s.length then load8 s k else d k := by
  induction n generalizing i d with
  | zero => rw [if_neg (by omega), substrCopy]
  | succ n ih =>
    simp only [substrCopy, load8_eq_zero_iff hs]
    by_cases hend : s.length ≤ i
    · rw [if_pos hend, update_apply]
      grind
    · rw [if_neg hend, if_neg (by omega), ih (by omega), update_apply]
      grind

end

/-- A buffer holds one string. -/
theorem HoldsString.eq {d : ℕ → BitVec 8} {s t : List (BitVec 8)} (hs : 0 ∉ s) (ht : 0 ∉ t)
    (h : HoldsString d s) (h' : HoldsString d t) : s = t := by
  have hle {s t : List (BitVec 8)} (ht : 0 ∉ t) (h : HoldsString d s) (h' : HoldsString d t) :
      t.length ≤ s.length := by
    rcases le_total t.length s.length with hle | hle
    · exact hle
    · have h0 := (h' s.length hle).symm.trans (h s.length le_rfl)
      simpa [load8, ← load8_eq_zero_iff ht] using h0
  have hlen := (hle hs h' h).antisymm (hle ht h h')
  refine List.ext_getElem hlen fun i hi hi' => ?_
  have := (h i hi.le).symm.trans (h' i hi'.le)
  rwa [load8, load8, List.getD_eq_getElem _ _ hi, List.getD_eq_getElem _ _ hi'] at this

/-- What the copy loop leaves is the string `u`, whatever was there before, if it copies nothing and
`u` is empty or if it copies all of the string and `u` is that. -/
theorem forall_holdsString_substrCopy_iff {s u : List (BitVec 8)} {size n : ℕ} (hs : 0 ∉ s)
    (hu : 0 ∉ u) (hsize : s.length < size) :
    (∀ d, HoldsString (substrCopy (load8 s) size n 0 (update d 0 0)) u) ↔
      (n = 0 ∧ u = []) ∨ (s.length < n ∧ u = s) := by
  have happ (d : ℕ → BitVec 8) := substrCopy_apply hs (n := n) (d := update d 0 0)
    (Nat.zero_le _) hsize
  constructor
  · intro h
    have h1 := h fun _ => 1
    rcases n.eq_zero_or_pos with rfl | hn
    · exact .inl ⟨rfl, h1.eq hu (by simp) (by simp [HoldsString, substrCopy, load8])⟩
    by_cases hlt : s.length < n
    · exact .inr ⟨hlt, h1.eq hu hs fun k hk => by rw [happ, if_pos (by omega)]⟩
    -- Behind the bytes that are copied the area is not zero.
    have h0 := (h1 u.length le_rfl).trans ((load8_eq_zero_iff hu).mpr le_rfl)
    rw [happ] at h0
    split at h0
    · rw [load8_eq_zero_iff hs] at h0
      omega
    · rw [update_of_ne (by omega)] at h0
      simp at h0
  · rintro (⟨rfl, rfl⟩ | ⟨hlt, rfl⟩) d k hk
    · simp_all [substrCopy, load8]
    · rw [happ, if_pos (by omega)]

/-- The range that the loop starts from; the sum of two negative numbers can wrap. -/
theorem substrRange_eq {len index r : ℤ} (hlen : 0 ≤ len ∧ len < 2 ^ 32)
    (hi : -2 ^ 63 ≤ index ∧ index < 2 ^ 63) (hr : -2 ^ 63 ≤ r ∧ r < 2 ^ 63) :
    substrRange len index r =
      let start := substrStart len index
      if len ≤ start then (len, r)
      else if 0 ≤ start then (start, r)
      else if 0 < start + r then (0, start + r)
      else if start + r < -2 ^ 63 ∧ start + r ≠ -2 ^ 64 then (0, start + r + 2 ^ 64)
      else (len, r) := by
  simp only [substrRange, substrStart, Int.bmod_def]
  grind

/-- The subroutine returns the substring, whatever the scratch area held, exactly if the range is
empty or goes past the end of the string. -/
theorem forall_dtraceSubstr_iff {s : List (BitVec 8)} {size scratch : ℕ} (index length : BitVec 64)
    (hs : 0 ∉ s) (hlen : s.length < size) (hsize : size ≤ 2 ^ 32) (hscratch : size ≤ scratch) :
    (∀ d, ∃ d', dtraceSubstr s size scratch index (some length) d = some d' ∧
        HoldsString d' ((perlSubstr s index.toInt length.toInt).take (size - 1))) ↔
      SubstrInRange s.length index.toInt length.toInt := by
  have hstrlen : (dtraceStrlen (load8 s) size 0 0).toNat = s.length := by
    rw [dtraceStrlen_spec hs (Nat.zero_le _) (by omega), BitVec.toNat_add, BitVec.toNat_ofNat]
    simp
    omega
  have hlen32 : 0 ≤ (s.length : ℤ) ∧ (s.length : ℤ) < 2 ^ 32 := by omega
  have hrange := substrRange_eq hlen32 ⟨index.le_toInt, index.toInt_lt⟩ ⟨length.le_toInt,
    length.toInt_lt⟩
  have hr := length.le_toInt
  have hstart : 0 ≤ substrStart s.length index.toInt ∨
      -2 ^ 63 + s.length ≤ substrStart s.length index.toInt := by
    grind [substrStart]
  simp only [dtraceSubstr, hstrlen, if_neg hscratch.not_gt, Option.getD_some, Option.some.injEq,
    exists_eq_left', SubstrInRange]
  generalize substrRange s.length index.toInt length.toInt = range at hrange
  obtain ⟨u, hu⟩ : ∃ u, perlSubstr s index.toInt length.toInt = u := ⟨_, rfl⟩
  have hload : (fun i => load8 s (i + range.1.toNat)) = load8 (s.drop range.1.toNat) := by
    funext i
    simp [load8, add_comm]
  have hdrop : 0 ∉ s.drop range.1.toNat := fun h => hs (List.mem_of_mem_drop h)
  have hu0 : 0 ∉ u := hu ▸ fun h => hs (List.mem_of_mem_take (List.mem_of_mem_drop h))
  rw [hu, List.take_of_length_le (by simp [← hu, perlSubstr]; omega), hload,
    forall_holdsString_substrCopy_iff hdrop hu0 (by simp; omega)]
  simp only [perlSubstr] at hu
  dsimp only at hrange
  generalize substrStart s.length index.toInt = start at *
  generalize hstop : (if length.toInt < 0 then s.length + length.toInt else start + length.toInt)
    = stop at hu
  have hnil : u = [] ↔ min stop.toNat s.length ≤ start.toNat := by simp [← hu]
  rw [hnil, List.length_drop]
  by_cases heq : u = s.drop range.1.toNat
  · have hlength : min stop.toNat s.length - start.toNat = s.length - range.1.toNat := by
      simpa [← hu] using congrArg List.length heq
    simp only [eq_true heq, and_true]
    split_ifs at hrange <;> subst hrange <;> omega
  · have hmore : ¬ (s.length ≤ stop.toNat ∧ start.toNat = range.1.toNat) := fun h =>
      heq (by rw [← hu, List.take_of_length_le h.1, h.2])
    have hnone : ¬ (min stop.toNat s.length ≤ start.toNat ∧ s.length ≤ range.1.toNat) := fun h =>
      heq (by rw [hnil.mpr h.1, List.drop_eq_nil_of_le h.2])
    simp only [heq, and_false, or_false]
    clear hload hdrop heq
    split_ifs at hrange <;> subst hrange <;> omega

theorem forall_dtraceSubstr_bc : SubstrInRange 3 1 3 ∧
    ∀ d, ∃ d', dtraceSubstr [97, 98, 99] 8 8 1 (some 3) d = some d' ∧ HoldsString d' [98, 99] := by
  have hrange : SubstrInRange 3 1 3 := by simp [SubstrInRange, substrStart]
  exact ⟨hrange, (@forall_dtraceSubstr_iff [97, 98, 99] 8 8 1 3 (by decide) (by decide) (by decide)
    (by decide)).mpr hrange⟩

/-- Two of three characters: the third byte is what the scratch area held. -/
theorem dtraceSubstr_unterminated : ¬ ∃ d',
    dtraceSubstr [97, 98, 99] 8 8 0 (some 2) (fun _ => 1) = some d' ∧
      HoldsString d' ((perlSubstr [97, 98, 99] 0 2).take 7) := by
  rintro ⟨d', hd, hs⟩
  cases hd
  exact absurd (hs 2 (by decide)) (by decide)

end Polaris
