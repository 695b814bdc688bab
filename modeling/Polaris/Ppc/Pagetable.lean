import Polaris.Macros

/-!
# Carving the page table out of free memory

`mach_ppcmmu.c`: how large the page table has to be and where `ppcmmu_alloc_pagetable` puts it.
Addresses and sizes have 32 bits.

## Main definitions

* `alignNatural32`, `setPageTableSize` — the size, a power of two.
* `ppcmmuAllocPagetable`
-/

namespace Polaris

open BitVec

/-- `cntlzw`: the number of leading zeros. -/
def cntlzw (n : BitVec 32) : ℕ := n.clz.toNat

/-- `ISP2`. -/
def isp2Word (n : BitVec 32) : Bool := n &&& (n - 1#32) = 0#32

/-- `align_natural32`; a shift by 32 gives 0. -/
def alignNatural32 (n : BitVec 32) : BitVec 32 :=
  if n = 0#32 then 1#32
  else if isp2Word n then n
  else 1#32 <<< (32 - cntlzw n)

/-- `set_page_table_size`: room for two entries of 8 bytes for every page, at least 64 KB. -/
def setPageTableSize (pmemPages : BitVec 32) : BitVec 32 :=
  let ptSize := alignNatural32 (pmemPages * 2#32 * 8#32)
  if ptSize < 0x10000#32 then 0x10000#32 else ptSize

/-- `P2ALIGN`. -/
def p2align (x align : BitVec 32) : BitVec 32 := x &&& -align

/-- `ppcmmu_alloc_pagetable`: `*pt` and `*len`; a length of 0 says that there is not enough room. -/
def ppcmmuAllocPagetable (physinstalled sAvail eAvail : BitVec 32) : BitVec 32 × BitVec 32 :=
  let kernPtSize := setPageTableSize physinstalled
  let kernPtVirt := p2align sAvail kernPtSize
  if kernPtVirt + kernPtSize ≤ eAvail then (kernPtVirt, kernPtSize) else (0#32, 0#32)

/-! ## The size -/

/-- A word that shares no bit with its predecessor is a power of two. -/
theorem isp2Word_eq {n : BitVec 32} (h : isp2Word n) (hn : n ≠ 0#32) :
    ∃ k < 32, n.toNat = 2 ^ k := by
  have hpos : n.toNat ≠ 0 := by
    intro hzero
    exact hn (eq_of_toNat_eq hzero)
  have hpred : (n - 1#32).toNat = n.toNat - 1 := by
    rw [toNat_sub, toNat_ofNat]
    omega
  have hand := congrArg BitVec.toNat (of_decide_eq_true h)
  rw [toNat_and, hpred] at hand
  obtain ⟨k, hk⟩ := (Nat.and_sub_one_eq_zero_iff_isPowerOfTwo hpos).mp hand
  refine ⟨k, ?_, hk⟩
  have hlt := n.isLt
  rw [hk] at hlt
  exact (Nat.pow_lt_pow_iff_right (by decide)).mp hlt

theorem alignNatural32_eq (n : BitVec 32) :
    alignNatural32 n = 0#32 ∨ ∃ k < 32, (alignNatural32 n).toNat = 2 ^ k := by
  rw [alignNatural32]
  split
  · exact .inr ⟨0, by decide, rfl⟩
  next hn =>
    split
    next h2 => exact .inr (isp2Word_eq h2 hn)
    next =>
      rcases Nat.lt_or_ge (32 - cntlzw n) 32 with hlt | hge
      · refine .inr ⟨32 - cntlzw n, hlt, ?_⟩
        have hpow : 2 ^ (32 - cntlzw n) < 2 ^ 32 := Nat.pow_lt_pow_right (by decide) hlt
        rw [toNat_shiftLeft, Nat.shiftLeft_eq, toNat_ofNat, Nat.one_mod_eq_one.mpr (by decide),
          Nat.one_mul, Nat.mod_eq_of_lt hpow]
      · exact .inl (shiftLeft_eq_zero hge)

/-- The size of the table is a power of two. -/
theorem setPageTableSize_eq (pmemPages : BitVec 32) :
    ∃ k < 32, (setPageTableSize pmemPages).toNat = 2 ^ k := by
  rw [setPageTableSize]
  split
  next => exact ⟨16, by decide, rfl⟩
  next hge =>
    rcases alignNatural32_eq (pmemPages * 2#32 * 8#32) with hzero | hpow
    · rw [hzero] at hge
      exact absurd (by decide) hge
    · exact hpow

/-! ## The place -/

theorem toNat_p2align (x : BitVec 32) {align : BitVec 32} {k : ℕ} (hk : k < 32)
    (halign : align.toNat = 2 ^ k) : (p2align x align).toNat = 2 ^ k * (x.toNat / 2 ^ k) := by
  have hpos := Nat.two_pow_pos k
  rw [p2align, toNat_and, toNat_neg, halign, Nat.mod_eq_of_lt (by omega),
    and_two_pow_sub_two_pow x.isLt hk]

/-- The table is aligned to its size and lies in the segment. -/
structure Carved (table : BitVec 32 × BitVec 32) (sAvail eAvail : BitVec 32) : Prop where
  aligned : table.2.toNat ∣ table.1.toNat
  above : sAvail.toNat ≤ table.1.toNat
  below : table.1.toNat + table.2.toNat ≤ eAvail.toNat

/-- A table that is accepted is where it should be exactly when the segment begins at a multiple of
the size and the table does not end at the top of the address space: the place is rounded down, not
up, and the sum that is compared with the end of the segment wraps around. -/
theorem ppcmmuAllocPagetable_carved_iff (physinstalled sAvail eAvail : BitVec 32)
    (h : (ppcmmuAllocPagetable physinstalled sAvail eAvail).2 ≠ 0#32) :
    Carved (ppcmmuAllocPagetable physinstalled sAvail eAvail) sAvail eAvail ↔
      (setPageTableSize physinstalled).toNat ∣ sAvail.toNat ∧
        sAvail.toNat + (setPageTableSize physinstalled).toNat < 2 ^ 32 := by
  obtain ⟨k, hk, hsize⟩ := setPageTableSize_eq physinstalled
  have hvirt := toNat_p2align sAvail hk hsize
  have hdiv := Nat.div_add_mod sAvail.toNat (2 ^ k)
  rw [ppcmmuAllocPagetable] at h ⊢
  split
  next hle =>
    rw [le_def, toNat_add, hvirt, hsize] at hle
    rw [hsize, Nat.dvd_iff_mod_eq_zero]
    constructor
    · rintro ⟨-, habove, hbelow⟩
      simp only [hvirt, hsize] at habove hbelow
      omega
    · rintro ⟨haligned, hfits⟩
      rw [Nat.mod_eq_of_lt (by omega)] at hle
      constructor
      · simp only [hvirt, hsize]
        exact Nat.dvd_mul_right _ _
      · simp only [hvirt]
        omega
      · simp only [hvirt, hsize]
        exact hle
  next hgt =>
    simp only [if_neg hgt] at h
    exact absurd rfl h

/-- Free memory from `0x34000` on: the table is put at `0x30000`, over what is there already. -/
theorem ppcmmuAllocPagetable_below :
    (ppcmmuAllocPagetable 0x1000#32 0x34000#32 0x100000#32) = (0x30000#32, 0x10000#32) ∧
      ¬ Carved (ppcmmuAllocPagetable 0x1000#32 0x34000#32 0x100000#32) 0x34000#32 0x100000#32 := by
  refine ⟨by decide, ?_⟩
  intro hcarved
  exact absurd hcarved.above (by decide)

theorem ppcmmuAllocPagetable_carved_aligned :
    (ppcmmuAllocPagetable 0x1000#32 0x40000#32 0x100000#32).2 ≠ 0#32 ∧
      Carved (ppcmmuAllocPagetable 0x1000#32 0x40000#32 0x100000#32) 0x40000#32 0x100000#32 :=
  ⟨by decide, (ppcmmuAllocPagetable_carved_iff _ _ _ (by decide)).mpr (by decide)⟩

end Polaris
