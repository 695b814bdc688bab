import Mathlib.Data.BitVec

/-!
# Shifts and comparison of 64-bit numbers in the PowerPC kernel

`__ashldi3`, `__ashrdi3`, `__lshrdi3` and `__ucmpdi2` of `os/gcc_implicit.c`.  Each takes its
operand apart through `union uu` and finds the two longs with the selectors `H` and `L`.  The file
chooses these by `_BIGENDIAN`; the macro that `isa_defs.h` defines is `_BIG_ENDIAN`.

## Main definitions

* `QuadBuild` — the layout of a quad in memory and what the preprocessor has seen.
* `ashldi3`, `ashrdi3`, `lshrdi3`, `ucmpdi2`
* `QuadBuild.view` — the quad that the selectors make of an operand.
-/

namespace Polaris

open Function
open BitVec hiding and_comm and_self

/-! ## The union -/

/-- What a build decides about `union uu`. -/
structure QuadBuild where
  /-- The long with the lower address is the most significant one. -/
  bigEndian : Bool
  /-- `_BIGENDIAN` is defined. -/
  bigendianDefined : Bool
  deriving DecidableEq, Repr

/-- `ul[2]`; `sl[2]` are the same bits. -/
abbrev QuadUnion := Fin 2 → BitVec 32

/-- The most significant long of a quad. -/
def hiLong (q : BitVec 64) : BitVec 32 := q.extractLsb' 32 32

/-- The least significant long of a quad. -/
def loLong (q : BitVec 64) : BitVec 32 := q.extractLsb' 0 32

abbrev longBits : ℕ := 32

abbrev quadBits : ℕ := 64

namespace QuadBuild

variable (b : QuadBuild)

/-- `H`. -/
def high : Fin 2 := if b.bigendianDefined then 0 else 1

/-- `L`. -/
def low : Fin 2 := if b.bigendianDefined then 1 else 0

/-- `aa.q = a`. -/
def store (q : BitVec 64) : QuadUnion := fun i =>
  if (i = 0) = b.bigEndian then hiLong q else loLong q

/-- `aa.q`. -/
def load (aa : QuadUnion) : BitVec 64 :=
  if b.bigEndian then aa 0 ++ aa 1 else aa 1 ++ aa 0

end QuadBuild

/-- The PowerPC build: big endian, and `_BIGENDIAN` is not defined anywhere. -/
def ppcBuild : QuadBuild := ⟨true, false⟩

/-! ## The helpers -/

section Helpers

variable (b : QuadBuild)

/-- `__ucmpdi2`: 0, 1 or 2. -/
def ucmpdi2 (x y : BitVec 64) : ℕ :=
  let aa := b.store x
  let bb := b.store y
  if aa b.high < bb b.high then 0 else if aa b.high > bb b.high then 2
  else if aa b.low < bb b.low then 0 else if aa b.low > bb b.low then 2 else 1

/-- `__ashldi3`. -/
def ashldi3 (a : BitVec 64) (shift : ℕ) : BitVec 64 :=
  let aa := b.store a
  if shift ≥ longBits then
    let aa := update aa b.high
      (if shift ≥ quadBits then 0#32 else aa b.low <<< (shift - longBits))
    b.load (update aa b.low 0#32)
  else if shift > 0 then
    let aa := update aa b.high ((aa b.high <<< shift) ||| (aa b.low >>> (longBits - shift)))
    b.load (update aa b.low (aa b.low <<< shift))
  else b.load aa

/-- `__ashrdi3`. -/
def ashrdi3 (a : BitVec 64) (shift : ℕ) : BitVec 64 :=
  let aa := b.store a
  if shift ≥ longBits then
    let s := ((aa b.high).sshiftRight (longBits - 1)).sshiftRight 1
    let aa := update aa b.low
      (if shift ≥ quadBits then s else (aa b.high).sshiftRight (shift - longBits))
    b.load (update aa b.high s)
  else if shift > 0 then
    let aa := update aa b.low ((aa b.low >>> shift) ||| (aa b.high <<< (longBits - shift)))
    b.load (update aa b.high ((aa b.high).sshiftRight shift))
  else b.load aa

/-- `__lshrdi3`. -/
def lshrdi3 (a : BitVec 64) (shift : ℕ) : BitVec 64 :=
  let aa := b.store a
  if shift ≥ longBits then
    let aa := update aa b.low
      (if shift ≥ quadBits then 0#32 else aa b.high >>> (shift - longBits))
    b.load (update aa b.high 0#32)
  else if shift > 0 then
    let aa := update aa b.low ((aa b.low >>> shift) ||| (aa b.high <<< (longBits - shift)))
    b.load (update aa b.high (aa b.high >>> shift))
  else b.load aa

end Helpers

/-! ## Quads as pairs of longs -/

@[simp] theorem hiLong_append (h l : BitVec 32) : hiLong (h ++ l) = h := extractLsb'_append_eq_left

@[simp] theorem loLong_append (h l : BitVec 32) : loLong (h ++ l) = l := extractLsb'_append_eq_right

theorem hiLong_append_loLong (q : BitVec 64) :
    hiLong q ++ loLong q = q := extractLsb'_append_extractLsb'

/-- Quads are equal when their longs are. -/
theorem quad_eq_iff {p q : BitVec 64} : p = q ↔ hiLong p = hiLong q ∧ loLong p = loLong q := by
  constructor
  · rintro rfl
    exact ⟨rfl, rfl⟩
  · rintro ⟨hhi, hlo⟩
    rw [← hiLong_append_loLong p, hhi, hlo, hiLong_append_loLong]

/-- What a shift to the left moves from the low long into the high one. -/
def spillLeft (w : BitVec 32) (s : ℕ) : BitVec 32 :=
  if s < 32 then w >>> (32 - s) else w <<< (s - 32)

/-- What a shift to the right moves from the high long into the low one. -/
def spillRight (w : BitVec 32) (s : ℕ) : BitVec 32 :=
  if s < 32 then w <<< (32 - s) else w >>> (s - 32)

/-- The same for a shift that keeps the sign. -/
def spillSigned (w : BitVec 32) (s : ℕ) : BitVec 32 :=
  if s < 32 then w <<< (32 - s) else w.sshiftRight (s - 32)

/-- Adding bits changes nothing only if there are none. -/
theorem or_eq_left_iff {w : ℕ} {x y : BitVec w} (hdisj : x &&& y = 0#w) :
    x ||| y = x ↔ y = 0#w := by
  constructor
  · intro heq
    have hsub : y &&& (x ||| y) = y := by
      refine eq_of_getLsbD_eq fun i _ => ?_
      simp only [getLsbD_and, getLsbD_or]
      grind
    rw [← hsub, heq, BitVec.and_comm, hdisj]
  · intro hy
    rw [hy, or_zero]

section Longs

variable (h l : BitVec 32) (s : ℕ)

theorem append_shiftLeft : (h ++ l) <<< s = ((h <<< s) ||| spillLeft l s) ++ (l <<< s) := by
  refine eq_of_getLsbD_eq fun i hi => ?_
  rw [spillLeft]
  split
  all_goals
    simp only [getLsbD_append, getLsbD_shiftLeft, getLsbD_or, getLsbD_ushiftRight]
    grind

theorem append_ushiftRight : (h ++ l) >>> s = (h >>> s) ++ ((l >>> s) ||| spillRight h s) := by
  refine eq_of_getLsbD_eq fun i hi => ?_
  rw [spillRight]
  split
  all_goals
    simp only [getLsbD_append, getLsbD_shiftLeft, getLsbD_or, getLsbD_ushiftRight]
    grind

/-- The low long of a pair shifted with its sign. -/
def signedLow : BitVec 32 :=
  if s < 32 then (l >>> s) ||| (h <<< (32 - s)) else h.sshiftRight (s - 32)

theorem append_sshiftRight : (h ++ l).sshiftRight s = h.sshiftRight s ++ signedLow h l s := by
  have hmsb : (h ++ l).msb = h.msb := by rw [msb_append, if_neg (by decide)]
  refine eq_of_getLsbD_eq fun i hi => ?_
  rw [signedLow]
  split
  all_goals
    simp only [getLsbD_sshiftRight, hmsb, getLsbD_append, getLsbD_shiftLeft,
      getLsbD_or, getLsbD_ushiftRight]
    grind

theorem shiftLeft_and_spillLeft : (h <<< s) &&& spillLeft l s = 0#32 := by
  refine eq_of_getLsbD_eq fun i hi => ?_
  rw [spillLeft]
  split
  all_goals
    simp only [getLsbD_and, getLsbD_shiftLeft, getLsbD_ushiftRight, getLsbD_zero]
    grind

theorem ushiftRight_and_spillRight : (l >>> s) &&& spillRight h s = 0#32 := by
  refine eq_of_getLsbD_eq fun i hi => ?_
  rw [spillRight]
  split
  all_goals
    simp only [getLsbD_and, getLsbD_shiftLeft, getLsbD_ushiftRight, getLsbD_zero]
    grind

/-- The low long shifts like a number of its own when the high one moves its sign into it. -/
theorem signedLow_eq_iff :
    signedLow h l s = l.sshiftRight s ↔ spillSigned h s = spillSigned (l.sshiftRight 31) s := by
  have hfill (i : ℕ) (hi : i < 32) : (l.sshiftRight 31).getLsbD i = l.msb := by
    rw [getLsbD_sshiftRight, msb_eq_getLsbD_last]
    grind
  rw [signedLow, spillSigned, spillSigned]
  by_cases hs : s < 32
  · simp only [if_pos hs]
    constructor
    all_goals
      intro heq
      refine eq_of_getLsbD_eq fun i hi => ?_
      have hbit := congrArg (·.getLsbD i) heq
      simp only [getLsbD_shiftLeft, getLsbD_or, getLsbD_ushiftRight,
        getLsbD_sshiftRight] at hbit hfill ⊢
      grind
  · simp only [if_neg hs]
    have hall : l.sshiftRight s = (l.sshiftRight 31).sshiftRight (s - 32) := by
      refine eq_of_getLsbD_eq fun i hi => ?_
      simp only [getLsbD_sshiftRight, msb_sshiftRight]
      grind
    rw [hall]

end Longs

/-! ## What the selectors see -/

/-- The quad whose most significant long is the one that `H` selects. -/
def QuadBuild.view (b : QuadBuild) (q : BitVec 64) : BitVec 64 :=
  b.store q b.high ++ b.store q b.low

section View

variable (b : QuadBuild) (q : BitVec 64) (s : ℕ)

/-- With selectors that fit the layout a quad is seen as it is. -/
theorem QuadBuild.view_of_agree (h : b.bigendianDefined = b.bigEndian) : b.view q = q := by
  obtain ⟨endian, defined⟩ := b
  obtain rfl : defined = endian := h
  cases defined
  all_goals simp [view, store, high, low, hiLong_append_loLong]

/-- On the PowerPC the longs are seen in each other's place. -/
theorem view_ppcBuild : ppcBuild.view q = loLong q ++ hiLong q := by
  simp [ppcBuild, QuadBuild.view, QuadBuild.store, QuadBuild.high, QuadBuild.low]

theorem QuadBuild.load_eq (aa : QuadUnion) : b.load aa = b.view (aa b.high ++ aa b.low) := by
  obtain ⟨endian, defined⟩ := b
  cases endian <;> cases defined
  all_goals simp [load, view, store, high, low]

theorem QuadBuild.low_ne_high : b.low ≠ b.high := by
  obtain ⟨endian, defined⟩ := b
  cases defined
  all_goals simp [high, low]

theorem QuadBuild.load_update (aa : QuadUnion) (h l : BitVec 32) :
    b.load (update (update aa b.high h) b.low l) = b.view (h ++ l) ∧
      b.load (update (update aa b.low l) b.high h) = b.view (h ++ l) := by
  have hne := b.low_ne_high
  constructor
  · rw [load_eq, update_of_ne hne.symm, update_self, update_self]
  · rw [load_eq, update_self, update_of_ne hne, update_self]

theorem ashldi3_eq : ashldi3 b q s = b.view (b.view q <<< s) := by
  have hview : b.view q <<< s = _ := append_shiftLeft (b.store q b.high) (b.store q b.low) s
  rw [hview, ashldi3]
  simp only [spillLeft, (b.load_update _ _ _).1, b.load_eq, update_of_ne b.low_ne_high]
  by_cases hge : 32 ≤ s
  · rw [if_pos hge, if_neg (by omega : ¬ s < 32), shiftLeft_eq_zero hge, zero_or,
      shiftLeft_eq_zero hge]
    by_cases hall : 64 ≤ s
    · rw [if_pos hall, shiftLeft_eq_zero (by omega : 32 ≤ s - 32)]
    · rw [if_neg hall]
  · rw [if_neg hge, if_pos (by omega : s < 32)]
    by_cases hpos : 0 < s
    · rw [if_pos hpos]
    · obtain rfl : s = 0 := by omega
      rw [if_neg hpos, ushiftRight_eq_zero (by omega : 32 ≤ 32 - 0), shiftLeft_zero,
        shiftLeft_zero, or_zero]

theorem lshrdi3_eq : lshrdi3 b q s = b.view (b.view q >>> s) := by
  have hview : b.view q >>> s = _ := append_ushiftRight (b.store q b.high) (b.store q b.low) s
  rw [hview, lshrdi3]
  simp only [spillRight, (b.load_update _ _ _).2, b.load_eq, update_of_ne b.low_ne_high.symm]
  by_cases hge : 32 ≤ s
  · rw [if_pos hge, if_neg (by omega : ¬ s < 32), ushiftRight_eq_zero hge,
      ushiftRight_eq_zero hge, zero_or]
    by_cases hall : 64 ≤ s
    · rw [if_pos hall, ushiftRight_eq_zero (by omega : 32 ≤ s - 32)]
    · rw [if_neg hall]
  · rw [if_neg hge, if_pos (by omega : s < 32)]
    by_cases hpos : 0 < s
    · rw [if_pos hpos]
    · obtain rfl : s = 0 := by omega
      rw [if_neg hpos, shiftLeft_eq_zero (by omega : 32 ≤ 32 - 0), ushiftRight_zero,
        ushiftRight_zero, or_zero]

/-- All the bits of a long that is shifted far enough are its sign. -/
theorem sshiftRight_of_ge (w : BitVec 32) {s : ℕ} (hs : 32 ≤ s) :
    w.sshiftRight s = w.sshiftRight 32 := by
  refine eq_of_getLsbD_eq fun i hi => ?_
  simp only [getLsbD_sshiftRight]
  rw [if_neg (by omega), if_neg (by omega)]

theorem ashrdi3_eq : ashrdi3 b q s = b.view ((b.view q).sshiftRight s) := by
  have hview : (b.view q).sshiftRight s = _ :=
    append_sshiftRight (b.store q b.high) (b.store q b.low) s
  have hsign : ((b.store q b.high).sshiftRight (32 - 1)).sshiftRight 1
      = (b.store q b.high).sshiftRight 32 := by
    rw [← sshiftRight_add]
  rw [hview, ashrdi3]
  simp only [signedLow, hsign, (b.load_update _ _ _).2, b.load_eq, update_of_ne b.low_ne_high.symm]
  by_cases hge : 32 ≤ s
  · rw [if_pos hge, if_neg (by omega : ¬ s < 32), sshiftRight_of_ge _ hge]
    by_cases hall : 64 ≤ s
    · rw [if_pos hall, sshiftRight_of_ge _ (by omega : 32 ≤ s - 32)]
    · rw [if_neg hall]
  · rw [if_neg hge, if_pos (by omega : s < 32)]
    by_cases hpos : 0 < s
    · rw [if_pos hpos]
    · obtain rfl : s = 0 := by omega
      rw [if_neg hpos, shiftLeft_eq_zero (by omega : 32 ≤ 32 - 0), ushiftRight_zero,
        sshiftRight_zero, or_zero]

/-- How quads compare, as `__ucmpdi2` answers. -/
def quadOrder (x y : BitVec 64) : ℕ :=
  if x < y then 0 else if x > y then 2 else 1

theorem append_lt_iff (h l h' l' : BitVec 32) : h ++ l < h' ++ l' ↔ h < h' ∨ h = h' ∧ l < l' := by
  have hl := l.isLt
  have hl' := l'.isLt
  rw [lt_def, lt_def, lt_def, ← toNat_inj, toNat_append,
    toNat_append, ← Nat.shiftLeft_add_eq_or_of_lt hl, ← Nat.shiftLeft_add_eq_or_of_lt hl',
    Nat.shiftLeft_eq, Nat.shiftLeft_eq]
  omega

theorem ucmpdi2_eq (x y : BitVec 64) : ucmpdi2 b x y = quadOrder (b.view x) (b.view y) := by
  simp only [ucmpdi2, quadOrder, QuadBuild.view, append_lt_iff, gt_iff_lt]
  grind

end View

/-- With selectors that fit the layout the helpers are the operators of the language, for the counts
that it defines. -/
theorem quadHelpers_of_agree {b : QuadBuild} (h : b.bigendianDefined = b.bigEndian)
    (x y : BitVec 64) (s : Fin 64) :
    ashldi3 b x s = x <<< s.val ∧ lshrdi3 b x s = x >>> s.val ∧
      ashrdi3 b x s = x.sshiftRight s ∧ ucmpdi2 b x y = quadOrder x y := by
  rw [ashldi3_eq, lshrdi3_eq, ashrdi3_eq, ucmpdi2_eq]
  simp only [b.view_of_agree _ h, and_self]

theorem quadHelpers_of_agree_big : ashldi3 ⟨true, true⟩ 1#64 32 = 1#64 <<< 32 :=
  (quadHelpers_of_agree rfl 1#64 0#64 32).1

/-! ## The PowerPC build -/

/-- The least significant longs do not order two quads against the most significant ones. -/
def LongsAgree (x y : BitVec 64) : Prop :=
  ¬ (hiLong x < hiLong y ∧ loLong y < loLong x) ∧ ¬ (hiLong y < hiLong x ∧ loLong x < loLong y)

theorem quad_exists_append (q : BitVec 64) : ∃ h l : BitVec 32, q = h ++ l :=
  ⟨hiLong q, loLong q, (hiLong_append_loLong q).symm⟩

theorem quad_append_inj {h l h' l' : BitVec 32} : h ++ l = h' ++ l' ↔ h = h' ∧ l = l' := by
  rw [quad_eq_iff, hiLong_append, hiLong_append, loLong_append, loLong_append]

/-- The helpers of the PowerPC kernel take the longs of their operands for each other.  A shift is
right exactly when it moves nothing from one long into the other (or just the sign that the other
fills up with), a comparison when the longs do not disagree. -/
theorem ppcBuild_helpers_iff (x y : BitVec 64) (s : ℕ) :
    (ashldi3 ppcBuild x s = x <<< s ↔
        spillLeft (hiLong x) s = 0#32 ∧ spillLeft (loLong x) s = 0#32) ∧
      (lshrdi3 ppcBuild x s = x >>> s ↔
        spillRight (hiLong x) s = 0#32 ∧ spillRight (loLong x) s = 0#32) ∧
      (ashrdi3 ppcBuild x s = x.sshiftRight s ↔
        spillSigned (hiLong x) s = spillSigned ((loLong x).sshiftRight 31) s ∧
          spillSigned (loLong x) s = spillSigned ((hiLong x).sshiftRight 31) s) ∧
      (ucmpdi2 ppcBuild x y = quadOrder x y ↔ LongsAgree x y) := by
  obtain ⟨h, l, rfl⟩ := quad_exists_append x
  obtain ⟨h', l', rfl⟩ := quad_exists_append y
  rw [ashldi3_eq, lshrdi3_eq, ashrdi3_eq, ucmpdi2_eq]
  simp only [view_ppcBuild, hiLong_append, loLong_append, append_shiftLeft, append_ushiftRight,
    append_sshiftRight, quad_append_inj]
  refine ⟨?_, ?_, ?_, ?_⟩
  · rw [eq_comm, or_eq_left_iff (shiftLeft_and_spillLeft h l s),
      or_eq_left_iff (shiftLeft_and_spillLeft l h s), and_comm]
  · rw [or_eq_left_iff (ushiftRight_and_spillRight l h s), eq_comm (b := l >>> s ||| _),
      or_eq_left_iff (ushiftRight_and_spillRight h l s), and_comm]
  · rw [signedLow_eq_iff, eq_comm (b := signedLow h l s), signedLow_eq_iff, and_comm]
  · simp only [quadOrder, LongsAgree, append_lt_iff, gt_iff_lt, hiLong_append, loLong_append]
    grind

/-- `1 << 32` and `2^32 >> 32` are 0, and so is `2^32 >> 1`; 1 is greater than `2^32`. -/
theorem ppcBuild_helpers_words :
    (ashldi3 ppcBuild 1#64 32 = 0#64 ∧ ashldi3 ppcBuild 1#64 32 ≠ 1#64 <<< 32) ∧
      (lshrdi3 ppcBuild 0x100000000#64 32 = 0#64 ∧
        lshrdi3 ppcBuild 0x100000000#64 32 ≠ 0x100000000#64 >>> 32) ∧
      (ashrdi3 ppcBuild 0x100000000#64 1 = 0#64 ∧
        ashrdi3 ppcBuild 0x100000000#64 1 ≠ (0x100000000#64).sshiftRight 1) ∧
      ucmpdi2 ppcBuild 1#64 0x100000000#64 = 2 ∧ quadOrder 1#64 0x100000000#64 = 0 := by
  decide

end Polaris
