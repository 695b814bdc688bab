import Polaris.Raidz.Map
import Mathlib.Algebra.BigOperators.Intervals
import Mathlib.Algebra.BigOperators.Ring.Finset
import Mathlib.Data.Nat.ModEq
import Mathlib.Tactic.Ring
import Mathlib.Tactic.Linarith

/-!
# The layout of a RAID-Z device

The abstract layout of a RAID-Z device is one function: logical sector `x` is sector `x / dcols` of
child `x % dcols`.  A map is a picture of that function: its columns are the places of the
consecutive logical sectors from the start of the I/O on, one column for each child it meets.  So
two maps share a sector only when their logical ranges do, and the exchange of the first two columns
changes nothing, because both are equally long.

## Main definitions

* `RaidzIo.Aligned` — an I/O in whole sectors on a device that has room for data.
* `raidzPlace` — the child and the sector on it of a logical sector.
* `RaidzMap.Uses` — some column of a map holds a given sector of a given child.
* `RaidzMap.Tiles` — a map fills the range that is allocated for its I/O.
-/

namespace Polaris

open Finset

/-- An I/O as `zio_vdev_io_start` issues it on a RAID-Z device that `vdev_raidz_open` accepted: the
device has one or two parity columns and a data column, the I/O is made of whole sectors, and the
space allocated for it ends within 64 bits. -/
structure RaidzIo.Aligned (zio : RaidzIo) (unitShift dcols nparity : ℕ) : Prop where
  parity : nparity = 1 ∨ nparity = 2
  room : nparity < dcols
  size_pos : 0 < zio.ioSize
  size_dvd : 2 ^ unitShift ∣ zio.ioSize
  offset_dvd : 2 ^ unitShift ∣ zio.ioOffset
  end_lt : zio.ioOffset + vdevRaidzAsize unitShift dcols nparity zio.ioSize < 2 ^ 64

/-- Where logical sector `x` is: the child, and the sector on it. -/
def raidzPlace (dcols x : ℕ) : ℕ × ℕ := (x % dcols, x / dcols)

theorem raidzPlace_injective (dcols : ℕ) : Function.Injective (raidzPlace dcols) := by
  intro x y h
  have hmod : x % dcols = y % dcols := congrArg Prod.fst h
  have hdiv : x / dcols = y / dcols := congrArg Prod.snd h
  rw [← Nat.div_add_mod x dcols, ← Nat.div_add_mod y dcols, hmod, hdiv]

/-- Column `c` holds sector `place.2` of child `place.1`. -/
def RaidzCol.Holds (rc : RaidzCol) (unitShift : ℕ) (place : ℕ × ℕ) : Prop :=
  rc.rcDevidx = place.1 ∧ rc.rcOffset ≤ place.2 <<< unitShift ∧
    place.2 <<< unitShift < rc.rcOffset + rc.rcSize

/-- Some column of the map holds sector `place.2` of child `place.1`. -/
def RaidzMap.Uses (rm : RaidzMap) (unitShift : ℕ) (place : ℕ × ℕ) : Prop :=
  ∃ c < rm.rmCols, (rm.rmCol c).Holds unitShift place

/-- Two columns occupy the same range of the same child. -/
structure RaidzCol.SamePlace (rc rc' : RaidzCol) : Prop where
  devidx : rc.rcDevidx = rc'.rcDevidx
  offset : rc.rcOffset = rc'.rcOffset
  size : rc.rcSize = rc'.rcSize

theorem RaidzCol.SamePlace.holds_iff {rc rc' : RaidzCol} (h : rc.SamePlace rc') {unitShift : ℕ}
    {place : ℕ × ℕ} : rc.Holds unitShift place ↔ rc'.Holds unitShift place := by
  rw [RaidzCol.Holds, RaidzCol.Holds, h.devidx, h.offset, h.size]

/-! ## The arithmetic of rows and columns -/

section Sectors

variable {zio : RaidzIo} {unitShift dcols nparity : ℕ}

/-- The sectors of column `c`. -/
def raidzColSectors (zio : RaidzIo) (unitShift dcols nparity c : ℕ) : ℕ :=
  raidzRows zio unitShift dcols nparity
    + if c < raidzBigcols zio unitShift dcols nparity then 1 else 0

/-- The sectors of all columns: full rows and the partial one. -/
def raidzSectors (zio : RaidzIo) (unitShift dcols nparity : ℕ) : ℕ :=
  raidzRows zio unitShift dcols nparity * dcols + raidzBigcols zio unitShift dcols nparity

theorem raidzColSize_eq (c : ℕ) :
    raidzColSize zio unitShift dcols nparity c
      = raidzColSectors zio unitShift dcols nparity c * 2 ^ unitShift :=
  Nat.shiftLeft_eq _ _

/-- The sectors of the first `m` columns. -/
theorem sum_raidzColSectors (m : ℕ) :
    ∑ c ∈ range m, raidzColSectors zio unitShift dcols nparity c
      = raidzRows zio unitShift dcols nparity * m
        + min m (raidzBigcols zio unitShift dcols nparity) := by
  induction m with
  | zero => simp
  | succ m ih =>
    rw [sum_range_succ, ih, raidzColSectors, Nat.mul_succ]
    split <;> omega

/-- The columns of a map with a full row are all the children. -/
theorem raidzRows_mul_acols : raidzRows zio unitShift dcols nparity
      * raidzAcols zio unitShift dcols nparity
    = raidzRows zio unitShift dcols nparity * dcols := by
  rw [raidzAcols]
  split
  next hq => simp [hq]
  next => rfl

namespace RaidzIo.Aligned

variable (h : zio.Aligned unitShift dcols nparity)

include h

/-- The buffer is whole sectors. -/
theorem sectors_mul : zio.ioSize >>> unitShift * 2 ^ unitShift = zio.ioSize := by
  rw [Nat.shiftRight_eq_div_pow, Nat.div_mul_cancel h.size_dvd]

/-- Quotient and remainder of the data sectors by the data columns. -/
theorem rows_spec : ∃ r, r < dcols - nparity ∧
    zio.ioSize >>> unitShift
      = raidzRows zio unitShift dcols nparity * (dcols - nparity) + r ∧
    raidzBigcols zio unitShift dcols nparity = if r = 0 then 0 else r + nparity := by
  have hd := h.room
  refine ⟨(zio.ioSize >>> unitShift) % (dcols - nparity), Nat.mod_lt _ (by omega), ?_, ?_⟩
  · rw [raidzRows, Nat.mul_comm, Nat.div_add_mod]
  · have hmod : zio.ioSize >>> unitShift - raidzRows zio unitShift dcols nparity * (dcols - nparity)
        = (zio.ioSize >>> unitShift) % (dcols - nparity) := by
      rw [raidzRows, Nat.mul_comm, ← Nat.mod_def]
    simp only [raidzBigcols, hmod]

theorem bigcols_le : raidzBigcols zio unitShift dcols nparity ≤ dcols := by
  obtain ⟨r, hr, -, hbc⟩ := h.rows_spec
  rw [hbc]
  split <;> omega

/-- A partial row has its parity and some data. -/
theorem bigcols_eq_zero_or : raidzBigcols zio unitShift dcols nparity = 0 ∨
    nparity < raidzBigcols zio unitShift dcols nparity := by
  obtain ⟨r, -, -, hbc⟩ := h.rows_spec
  rw [hbc]
  split <;> omega

/-- There is a column after the parity columns. -/
theorem nparity_lt_acols : nparity < raidzAcols zio unitShift dcols nparity := by
  obtain ⟨r, hr, hs, hbc⟩ := h.rows_spec
  have hd := h.room
  have hpos := h.size_pos
  have hmul := h.sectors_mul
  rw [raidzAcols, hbc]
  split
  next hq =>
    have hr0 : r ≠ 0 := fun h0 => by simp [hs, hq, h0] at hmul; omega
    rw [if_neg hr0]
    omega
  next => exact hd

theorem acols_le : raidzAcols zio unitShift dcols nparity ≤ dcols := by
  rw [raidzAcols]
  split
  · exact h.bigcols_le
  · exact le_rfl

theorem bigcols_le_acols :
    raidzBigcols zio unitShift dcols nparity ≤ raidzAcols zio unitShift dcols nparity := by
  rw [raidzAcols]
  split
  · exact le_rfl
  · exact h.bigcols_le

/-- All columns together. -/
theorem sum_acols : ∑ c ∈ range (raidzAcols zio unitShift dcols nparity),
    raidzColSectors zio unitShift dcols nparity c = raidzSectors zio unitShift dcols nparity := by
  rw [sum_raidzColSectors, raidzRows_mul_acols, raidzSectors, min_eq_right h.bigcols_le_acols]

/-- The parity columns and the data add up to all the sectors. -/
theorem sectors_eq : raidzSectors zio unitShift dcols nparity
    = ∑ c ∈ range nparity, raidzColSectors zio unitShift dcols nparity c
      + zio.ioSize >>> unitShift := by
  obtain ⟨r, hr, hs, hbc⟩ := h.rows_spec
  have hd := h.room
  have hrow : raidzRows zio unitShift dcols nparity * dcols
      = raidzRows zio unitShift dcols nparity * nparity
        + raidzRows zio unitShift dcols nparity * (dcols - nparity) := by
    rw [← Nat.mul_add, Nat.add_sub_cancel' hd.le]
  rw [sum_raidzColSectors, hs, raidzSectors, hbc, hrow]
  split <;> omega

/-- The parity of all rows, as `vdev_raidz_asize` counts it. -/
theorem sum_parity : ∑ c ∈ range nparity, raidzColSectors zio unitShift dcols nparity c
    = nparity * ((zio.ioSize >>> unitShift + dcols - nparity - 1) / (dcols - nparity)) := by
  obtain ⟨r, hr, hs, hbc⟩ := h.rows_spec
  have hd := h.room
  set n := dcols - nparity with hn
  set q := raidzRows zio unitShift dcols nparity with hq
  have harg : zio.ioSize >>> unitShift + dcols - nparity - 1 = (r + (n - 1)) + n * q := by
    rw [hs, Nat.mul_comm q n]
    omega
  have hdiv : (r + (n - 1)) / n = if r = 0 then 0 else 1 := by
    split
    next h0 => rw [h0]; exact Nat.div_eq_of_lt (by omega)
    next h0 => exact Nat.div_eq_of_lt_le (by omega) (by omega)
  rw [sum_raidzColSectors, harg, Nat.add_mul_div_left _ _ (by omega : 0 < n), hdiv, hbc, ← hq,
    Nat.mul_add, Nat.mul_comm q nparity]
  split
  · simp
  · simp; omega

end RaidzIo.Aligned

end Sectors

/-! ## Sizes -/

theorem roundup_mul (x y : ℕ) {m : ℕ} (hm : 0 < m) : roundup (x * m) (y * m) = roundup x y * m := by
  rcases Nat.eq_zero_or_pos y with rfl | hy
  · simp [roundup]
  have harg : x * m + (y * m - 1) = m - 1 + (x + (y - 1)) * m := by
    obtain _ | k := y
    · omega
    have h1 : (k + 1) * m = k * m + m := Nat.succ_mul k m
    have h2 : (x + k) * m = x * m + k * m := Nat.add_mul x k m
    simp only [Nat.add_sub_cancel]
    omega
  rw [roundup, roundup, harg, Nat.mul_comm y m, ← Nat.div_div_eq_div_mul,
    Nat.add_mul_div_right _ _ hm, Nat.div_eq_of_lt (by omega : m - 1 < m)]
  ring_nf

/-- Rounding up adds less than one multiple. -/
theorem exists_roundup (x : ℕ) {y : ℕ} (hy : 0 < y) : ∃ skip < y, roundup x y = x + skip := by
  have hdiv := Nat.div_add_mod (x + (y - 1)) y
  have hmod := Nat.mod_lt (x + (y - 1)) hy
  refine ⟨y - 1 - (x + (y - 1)) % y, by omega, ?_⟩
  rw [roundup, Nat.mul_comm]
  omega

section Places

variable {zio : RaidzIo} {unitShift dcols nparity : ℕ}

theorem foldl_add_eq_sum (f : ℕ → ℕ) (m : ℕ) :
    (List.range m).foldl (fun asize c => asize + f c) 0 = ∑ c ∈ range m, f c := by
  induction m with
  | zero => rfl
  | succ m ih => rw [List.range_succ, List.foldl_append, ih, sum_range_succ]; rfl

variable (h : zio.Aligned unitShift dcols nparity) (garbage : ℕ → ℕ → BitVec 8)

include h

/-- What is allocated for the buffer is what its columns take, rounded up. -/
theorem RaidzIo.Aligned.asize_eq : vdevRaidzAsize unitShift dcols nparity zio.ioSize
    = roundup (raidzSectors zio unitShift dcols nparity) (nparity + 1) * 2 ^ unitShift := by
  have hsucc := Nat.sub_add_cancel h.size_pos
  have hceil : (zio.ioSize - 1) >>> unitShift + 1 = zio.ioSize >>> unitShift := by
    rw [Nat.shiftRight_eq_div_pow, ← Nat.succ_div_of_dvd (hsucc.symm ▸ h.size_dvd), hsucc,
      Nat.shiftRight_eq_div_pow]
  simp only [vdevRaidzAsize, hceil]
  rw [Nat.shiftLeft_eq, h.sectors_eq, h.sum_parity, Nat.add_comm (zio.ioSize >>> unitShift)]

theorem RaidzIo.Aligned.rmAsize_eq :
    (vdevRaidzMapAlloc zio unitShift dcols nparity garbage).rmAsize
      = vdevRaidzAsize unitShift dcols nparity zio.ioSize := by
  rw [h.asize_eq, ← roundup_mul _ _ (by positivity : 0 < 2 ^ unitShift), ← h.sum_acols, sum_mul,
    ← Nat.shiftLeft_eq (nparity + 1)]
  simp only [vdevRaidzMapAlloc, foldl_add_eq_sum, raidzColSize_eq]

/-- The data columns before column `c`, as `rc_data` adds them up. -/
theorem RaidzIo.Aligned.dataStart_eq {c : ℕ} (hc : nparity ≤ c) :
    raidzDataStart zio unitShift dcols nparity c
      = ∑ i ∈ Ico nparity c, raidzColSize zio unitShift dcols nparity i := by
  have hp := h.parity
  induction c, hc using Nat.le_induction with
  | base =>
    obtain _ | p := nparity
    · omega
    simp [raidzDataStart]
  | succ c hc ih =>
    rw [raidzDataStart, if_neg (by omega), ih, sum_Ico_succ_top hc]

/-- The data columns are as long as the buffer. -/
theorem RaidzIo.Aligned.sum_data :
    ∑ i ∈ Ico nparity (raidzAcols zio unitShift dcols nparity),
      raidzColSize zio unitShift dcols nparity i = zio.ioSize := by
  have hsplit := sum_range_add_sum_Ico (raidzColSectors zio unitShift dcols nparity)
    h.nparity_lt_acols.le
  rw [h.sum_acols, h.sectors_eq] at hsplit
  simp only [raidzColSize_eq]
  rw [← sum_mul, Nat.add_left_cancel hsplit, h.sectors_mul]

/-! ## Places -/

/-- Column `c` begins at the place of logical sector `b + c`: when the row ends before it, it is on
the next row. -/
theorem RaidzIo.Aligned.col_begin {c : ℕ} (hc : c < raidzAcols zio unitShift dcols nparity) :
    (raidzCol zio unitShift dcols nparity garbage c).rcDevidx
        = (zio.ioOffset >>> unitShift + c) % dcols ∧
      (raidzCol zio unitShift dcols nparity garbage c).rcOffset
        = (zio.ioOffset >>> unitShift + c) / dcols * 2 ^ unitShift := by
  have hcd : c < dcols := hc.trans_le h.acols_le
  have hf := Nat.mod_lt (zio.ioOffset >>> unitShift) (Nat.zero_lt_of_lt hcd)
  have hb := Nat.div_add_mod (zio.ioOffset >>> unitShift) dcols
  simp only [raidzCol]
  generalize zio.ioOffset >>> unitShift = b at hf hb ⊢
  generalize b % dcols = f at hf hb ⊢
  generalize b / dcols = row at hb ⊢
  subst hb
  split
  next hcol =>
    obtain ⟨hdiv, hmod⟩ := (@Nat.div_mod_unique dcols (dcols * row + f + c) (row + 1)
      (f + c - dcols) (by omega)).mpr ⟨by rw [Nat.mul_succ]; omega, by omega⟩
    rw [hdiv, hmod]
    simp only [Nat.shiftLeft_eq, true_and]
    ring
  next hcol =>
    obtain ⟨hdiv, hmod⟩ := (@Nat.div_mod_unique dcols (dcols * row + f + c) row (f + c)
      (by omega)).mpr ⟨by omega, by omega⟩
    rw [hdiv, hmod]
    simp [Nat.shiftLeft_eq]

/-- Sector `k` of column `c` is logical sector `b + c + k * dcols`. -/
theorem RaidzIo.Aligned.col_holds_iff {c : ℕ} (hc : c < raidzAcols zio unitShift dcols nparity)
    (place : ℕ × ℕ) :
    (raidzCol zio unitShift dcols nparity garbage c).Holds unitShift place ↔
      ∃ k < raidzColSectors zio unitShift dcols nparity c,
        place = raidzPlace dcols (zio.ioOffset >>> unitShift + (c + k * dcols)) := by
  have hd : 0 < dcols := Nat.zero_lt_of_lt (hc.trans_le h.acols_le)
  obtain ⟨hdev, hoff⟩ := h.col_begin garbage hc
  have hsize : (raidzCol zio unitShift dcols nparity garbage c).rcSize
      = raidzColSectors zio unitShift dcols nparity c * 2 ^ unitShift := raidzColSize_eq c
  have hpos : 0 < 2 ^ unitShift := by positivity
  have hplace (k : ℕ) : raidzPlace dcols (zio.ioOffset >>> unitShift + (c + k * dcols))
      = ((zio.ioOffset >>> unitShift + c) % dcols,
          (zio.ioOffset >>> unitShift + c) / dcols + k) := by
    rw [← Nat.add_assoc, raidzPlace, Nat.add_mul_mod_self_right, Nat.add_mul_div_right _ _ hd]
  rw [RaidzCol.Holds, hdev, hoff, hsize, Nat.shiftLeft_eq, ← Nat.add_mul,
    Nat.mul_le_mul_right_iff hpos, Nat.mul_lt_mul_right hpos]
  constructor
  · rintro ⟨h1, h2, h3⟩
    refine ⟨place.2 - (zio.ioOffset >>> unitShift + c) / dcols, by omega, ?_⟩
    rw [hplace, Nat.add_sub_cancel' h2, h1]
  · rintro ⟨k, hk, rfl⟩
    rw [hplace]
    exact ⟨rfl, Nat.le_add_right .., Nat.add_lt_add_left hk _⟩

/-- The sectors of the columns, counted from the start of the I/O, are the first
`raidzSectors` ones. -/
theorem RaidzIo.Aligned.exists_col_iff (t : ℕ) :
    (∃ c < raidzAcols zio unitShift dcols nparity,
      ∃ k < raidzColSectors zio unitShift dcols nparity c, t = c + k * dcols) ↔
      t < raidzSectors zio unitShift dcols nparity := by
  have hbig := h.bigcols_le
  have hbigA := h.bigcols_le_acols
  have hA := h.acols_le
  have hAcols : raidzRows zio unitShift dcols nparity ≠ 0 →
      raidzAcols zio unitShift dcols nparity = dcols := fun hq => if_neg hq
  simp only [raidzSectors, raidzColSectors]
  generalize raidzRows zio unitShift dcols nparity = q at hAcols ⊢
  generalize raidzBigcols zio unitShift dcols nparity = bc at hbig hbigA ⊢
  generalize raidzAcols zio unitShift dcols nparity = acols at hbigA hA hAcols ⊢
  constructor
  · rintro ⟨c, hc, k, hk, rfl⟩
    rcases Nat.lt_or_ge k q with hkq | hkq
    · have hrow : (k + 1) * dcols ≤ q * dcols := Nat.mul_le_mul_right _ hkq
      rw [Nat.succ_mul] at hrow
      omega
    -- a sector below the full rows is in the partial row
    split at hk
    next hcb =>
      obtain rfl : k = q := by omega
      omega
    next => omega
  · intro ht
    rcases Nat.lt_or_ge t (q * dcols) with hfull | hpart
    · have hd : 0 < dcols := Nat.pos_of_ne_zero fun h0 => by simp [h0] at hfull
      have hq : q ≠ 0 := fun h0 => by simp [h0] at hfull
      refine ⟨t % dcols, ?_, t / dcols, ?_, ?_⟩
      · rw [hAcols hq]
        exact Nat.mod_lt _ hd
      · exact Nat.lt_add_right _ (Nat.div_lt_of_lt_mul (by rwa [Nat.mul_comm]))
      · rw [Nat.mul_comm, Nat.mod_add_div]
    · refine ⟨t - q * dcols, by omega, q, ?_, by omega⟩
      rw [if_pos (by omega)]
      omega

/-- Whether or not parity is switched, the columns of a map occupy what the columns of the loop
occupy, perhaps the first two in the other order. -/
theorem RaidzIo.Aligned.exists_perm :
    ∃ σ : Equiv.Perm ℕ,
      (∀ c, σ c < raidzAcols zio unitShift dcols nparity
        ↔ c < raidzAcols zio unitShift dcols nparity) ∧
      ∀ c, ((vdevRaidzMapAlloc zio unitShift dcols nparity garbage).rmCol c).SamePlace
        (raidzCol zio unitShift dcols nparity garbage (σ c)) := by
  have hA := h.nparity_lt_acols
  simp only [vdevRaidzMapAlloc]
  split
  next hswap =>
    have hbig := h.bigcols_eq_zero_or
    have hsize : raidzColSize zio unitShift dcols nparity 0
        = raidzColSize zio unitShift dcols nparity 1 := by
      simp only [raidzColSize]
      congr 3
      simp only [eq_iff_iff]
      omega
    refine ⟨Equiv.swap 0 1, fun c => ?_, fun c => ?_⟩
    · rw [Equiv.swap_apply_def]
      split <;> [omega; split <;> omega]
    · match c with
      | 0 => exact ⟨rfl, rfl, hsize⟩
      | 1 => exact ⟨rfl, rfl, hsize.symm⟩
      | c + 2 =>
        rw [Equiv.swap_apply_of_ne_of_ne (by omega) (by omega)]
        exact ⟨rfl, rfl, rfl⟩
  next => exact ⟨Equiv.refl ℕ, fun c => Iff.rfl, fun c => ⟨rfl, rfl, rfl⟩⟩

/-- The sectors a map uses are the places of the first logical sectors from its offset on. -/
theorem RaidzIo.Aligned.uses_iff (place : ℕ × ℕ) :
    (vdevRaidzMapAlloc zio unitShift dcols nparity garbage).Uses unitShift place ↔
      ∃ t < raidzSectors zio unitShift dcols nparity,
        place = raidzPlace dcols (zio.ioOffset >>> unitShift + t) := by
  obtain ⟨σ, hσ, hcol⟩ := h.exists_perm garbage
  constructor
  · rintro ⟨c, hc, hold⟩
    have hσc := (hσ c).mpr hc
    obtain ⟨k, hk, hplace⟩ :=
      (h.col_holds_iff garbage hσc place).mp ((hcol c).holds_iff.mp hold)
    exact ⟨_, (h.exists_col_iff _).mp ⟨σ c, hσc, k, hk, rfl⟩, hplace⟩
  · rintro ⟨t, ht, hplace⟩
    obtain ⟨c, hc, k, hk, rfl⟩ := (h.exists_col_iff t).mpr ht
    refine ⟨σ.symm c, (hσ _).mp (by simpa using hc), (hcol _).holds_iff.mpr ?_⟩
    rw [Equiv.apply_symm_apply]
    exact (h.col_holds_iff garbage hc place).mpr ⟨k, hk, hplace⟩

/-- No two columns of a map are on one child. -/
theorem RaidzIo.Aligned.devidx_injOn :
    Set.InjOn (fun c => ((vdevRaidzMapAlloc zio unitShift dcols nparity garbage).rmCol c).rcDevidx)
      {c | c < raidzAcols zio unitShift dcols nparity} := by
  obtain ⟨σ, hσ, hcol⟩ := h.exists_perm garbage
  intro c hc c' hc' heq
  have hlt := ((hσ c).mpr hc).trans_le h.acols_le
  have hlt' := ((hσ c').mpr hc').trans_le h.acols_le
  have hmod : (zio.ioOffset >>> unitShift + σ c) % dcols
      = (zio.ioOffset >>> unitShift + σ c') % dcols := by
    rw [← (h.col_begin garbage ((hσ c).mpr hc)).1, ← (h.col_begin garbage ((hσ c').mpr hc')).1,
      ← (hcol c).devidx, ← (hcol c').devidx]
    exact heq
  have hcc : σ c ≡ σ c' [MOD dcols] := Nat.ModEq.add_left_cancel' _ hmod
  rw [Nat.ModEq, Nat.mod_eq_of_lt hlt, Nat.mod_eq_of_lt hlt'] at hcc
  exact σ.injective hcc

end Places

/-! ## The map of an I/O -/

/-- The map `rm` of an I/O fills the range that is allocated for it: the columns and at most
`nparity` skipped sectors behind them take `vdev_raidz_asize` bytes, the columns being the places of
the logical sectors from the offset on, each in one column; the data columns in order are the
buffer. -/
structure RaidzMap.Tiles (rm : RaidzMap) (zio : RaidzIo) (unitShift dcols nparity : ℕ) : Prop where
  asize : rm.rmAsize = vdevRaidzAsize unitShift dcols nparity zio.ioSize
  fills : ∃ skip ≤ nparity, ∑ c ∈ range nparity, (rm.rmCol c).rcSize
      + ∑ c ∈ Ico nparity rm.rmCols, (rm.rmCol c).rcSize + skip <<< unitShift
    = vdevRaidzAsize unitShift dcols nparity zio.ioSize
  places : ∀ place, rm.Uses unitShift place ↔
    ∃ x, zio.ioOffset ≤ x <<< unitShift ∧
      x <<< unitShift < zio.ioOffset + ∑ c ∈ range rm.rmCols, (rm.rmCol c).rcSize ∧
      place = raidzPlace dcols x
  oneCol : ∀ place, rm.Uses unitShift place →
    ∃! c, c < rm.rmCols ∧ (rm.rmCol c).Holds unitShift place
  children : Set.InjOn (fun c => (rm.rmCol c).rcDevidx) {c | c < rm.rmCols}
  dataSize : ∑ c ∈ Ico nparity rm.rmCols, (rm.rmCol c).rcSize = zio.ioSize
  dataStart : ∀ c, nparity ≤ c → c < rm.rmCols →
    (rm.rmCol c).rcBuf = .ioData (∑ i ∈ Ico nparity c, (rm.rmCol i).rcSize) ∧
      ∀ k, (rm.rmCol c).rcData k = zio.ioData (∑ i ∈ Ico nparity c, (rm.rmCol i).rcSize + k)

/-- The columns lie inside the allocated range. -/
theorem RaidzMap.Tiles.sum_le {rm : RaidzMap} {zio : RaidzIo} {unitShift dcols nparity : ℕ}
    (h : rm.Tiles zio unitShift dcols nparity) (hcols : nparity ≤ rm.rmCols) :
    ∑ c ∈ range rm.rmCols, (rm.rmCol c).rcSize
      ≤ vdevRaidzAsize unitShift dcols nparity zio.ioSize := by
  obtain ⟨skip, -, hfill⟩ := h.fills
  rw [sum_range_add_sum_Ico _ hcols] at hfill
  exact hfill ▸ Nat.le_add_right ..

section Map

variable {zio : RaidzIo} {unitShift dcols nparity : ℕ} (garbage : ℕ → ℕ → BitVec 8)

theorem mapAlloc_rcSize (c : ℕ) :
    ((vdevRaidzMapAlloc zio unitShift dcols nparity garbage).rmCol c).rcSize
      = raidzColSize zio unitShift dcols nparity c := by
  simp only [vdevRaidzMapAlloc]
  split
  · match c with
    | 0 | 1 | c + 2 => rfl
  · rfl

/-- The exchange of columns leaves the buffers where they are. -/
theorem mapAlloc_rcBuf {c : ℕ} (hc : nparity ≤ c) :
    ((vdevRaidzMapAlloc zio unitShift dcols nparity garbage).rmCol c).rcBuf
        = .ioData (raidzDataStart zio unitShift dcols nparity c) ∧
      ∀ k, ((vdevRaidzMapAlloc zio unitShift dcols nparity garbage).rmCol c).rcData k
        = zio.ioData (raidzDataStart zio unitShift dcols nparity c + k) := by
  simp only [vdevRaidzMapAlloc]
  split
  · match c with
    | 0 | 1 | c + 2 => simp [raidzSwap, raidzCol, not_lt.mpr hc]
  · simp [raidzCol, not_lt.mpr hc]

theorem RaidzIo.Aligned.tiles (h : zio.Aligned unitShift dcols nparity)
    (garbage : ℕ → ℕ → BitVec 8) :
    (vdevRaidzMapAlloc zio unitShift dcols nparity garbage).Tiles zio unitShift dcols nparity where
  asize := h.rmAsize_eq garbage
  fills := by
    obtain ⟨skip, hskip, hround⟩ := exists_roundup (raidzSectors zio unitShift dcols nparity)
      (Nat.succ_pos nparity)
    refine ⟨skip, by omega, ?_⟩
    have hA : nparity ≤ (vdevRaidzMapAlloc zio unitShift dcols nparity garbage).rmCols :=
      h.nparity_lt_acols.le
    rw [sum_range_add_sum_Ico _ hA, h.asize_eq, hround, Nat.add_mul, ← h.sum_acols, sum_mul,
      Nat.shiftLeft_eq]
    simp only [mapAlloc_rcSize, raidzColSize_eq]
    rfl
  places := by
    intro place
    obtain ⟨b, hb⟩ := h.offset_dvd
    have hpos : 0 < 2 ^ unitShift := by positivity
    have hsec : zio.ioOffset >>> unitShift = b := by
      rw [hb, Nat.shiftRight_eq_div_pow, Nat.mul_div_cancel_left _ hpos]
    have hsum : ∑ c ∈ range (vdevRaidzMapAlloc zio unitShift dcols nparity garbage).rmCols,
        ((vdevRaidzMapAlloc zio unitShift dcols nparity garbage).rmCol c).rcSize
          = raidzSectors zio unitShift dcols nparity * 2 ^ unitShift := by
      simp only [mapAlloc_rcSize, raidzColSize_eq, ← sum_mul, ← h.sum_acols]
      rfl
    simp only [h.uses_iff, hsum, Nat.shiftLeft_eq, hsec]
    rw [hb, Nat.mul_comm (2 ^ unitShift), ← Nat.add_mul]
    simp only [Nat.mul_le_mul_right_iff hpos, Nat.mul_lt_mul_right hpos]
    constructor
    · rintro ⟨t, ht, hplace⟩
      exact ⟨b + t, Nat.le_add_right .., Nat.add_lt_add_left ht _, hplace⟩
    · rintro ⟨x, hx, hlt, hplace⟩
      exact ⟨x - b, by omega, by rwa [Nat.add_sub_cancel' hx]⟩
  oneCol := by
    rintro place ⟨c, hc, hold⟩
    refine ⟨c, ⟨hc, hold⟩, ?_⟩
    rintro c' ⟨hc', hold'⟩
    exact h.devidx_injOn garbage hc' hc (hold'.1.trans hold.1.symm)
  children := h.devidx_injOn garbage
  dataSize := by
    simp only [mapAlloc_rcSize]
    exact h.sum_data
  dataStart := by
    intro c hc _
    have hbuf := @mapAlloc_rcBuf zio unitShift dcols _ garbage _ hc
    rw [h.dataStart_eq hc] at hbuf
    simpa only [mapAlloc_rcSize] using hbuf

/-- **The map of an I/O fills exactly the range allocated for it, and maps of disjoint ranges share
no sector of any child.** -/
theorem vdevRaidzMapAlloc_layout (h : zio.Aligned unitShift dcols nparity)
    (garbage : ℕ → ℕ → BitVec 8) :
    (vdevRaidzMapAlloc zio unitShift dcols nparity garbage).Tiles zio unitShift dcols nparity ∧
      Function.Injective (raidzPlace dcols) ∧
      ∀ (zio' : RaidzIo) (garbage' : ℕ → ℕ → BitVec 8), zio'.Aligned unitShift dcols nparity →
        (zio.ioOffset + vdevRaidzAsize unitShift dcols nparity zio.ioSize ≤ zio'.ioOffset ∨
          zio'.ioOffset + vdevRaidzAsize unitShift dcols nparity zio'.ioSize ≤ zio.ioOffset) →
        ∀ place, (vdevRaidzMapAlloc zio unitShift dcols nparity garbage).Uses unitShift place →
          ¬ (vdevRaidzMapAlloc zio' unitShift dcols nparity garbage').Uses unitShift place := by
  refine ⟨h.tiles garbage, raidzPlace_injective dcols, ?_⟩
  intro zio' garbage' h' hdisj place huse huse'
  obtain ⟨x, hlo, hhi, hx⟩ := ((h.tiles garbage).places place).mp huse
  obtain ⟨x', hlo', hhi', hx'⟩ := ((h'.tiles garbage').places place).mp huse'
  obtain rfl : x = x' := raidzPlace_injective dcols (hx.symm.trans hx')
  have hle := (h.tiles garbage).sum_le h.nparity_lt_acols.le
  have hle' := (h'.tiles garbage').sum_le h'.nparity_lt_acols.le
  omega

end Map

/-- Two sectors at the second megabyte of a device of three children, where parity is switched. -/
theorem vdevRaidzMapAlloc_layout_switched :
    let zio : RaidzIo := ⟨1048576, 1024, fun _ => 0⟩
    let rm := vdevRaidzMapAlloc zio 9 3 1 fun _ _ => 0
    rm.rmCols = 3 ∧ (rm.rmCol 0).rcDevidx = 0 ∧ (rm.rmCol 1).rcDevidx = 2 ∧ rm.Tiles zio 9 3 1 :=
  ⟨by decide, by decide, by decide,
    (vdevRaidzMapAlloc_layout
      ⟨.inl rfl, by decide, by decide, by decide, by decide, by decide⟩ _).1⟩

end Polaris
