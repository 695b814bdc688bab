import Polaris.Ppc.Mmu

/-!
# Block address translations

The software tables of the BAT registers in `hat_ppcmmu.c`: how an entry is read from its registers,
how an address is looked up, and how the blocks that meet a range are unloaded.  The code adds
addresses and sizes of 32 bits; what a block covers is said with unbounded sums.

## Main definitions

* `BatTable`, `ppcmmuBatRead`
* `ppcmmuBatTableFindBat`, `ppcmmuBatTableUnloadRange`
* `BatInfo.Covers`, `BatInfo.Meets` — what a block covers.
-/

namespace Polaris

open Bitfield
open BitVec hiding and_self

/-! ## Tables -/

/-- An entry of a table and the upper BAT register it belongs to. -/
structure BatEntry where
  info : BatInfo
  batu : BitVec 32

/-- A table of as many entries as the processor has registers.  No block is empty. -/
structure BatTable where
  btArray : List BatEntry
  btSize_le : btArray.length ≤ 8
  size_pos : ∀ e ∈ btArray, e.info.batValid = true → 0 < e.info.batSize.toNat

/-- `ppcmmu_bat_read`, with the values of the two registers of the entry. -/
def ppcmmuBatRead (bat : BatInfo) (batu batl : BitVec 32) : BatInfo :=
  if batu &&& 3#32 = 0#32 then { bat with batValid := false }
  else
    { batValid := true
      batSize := (extract batu 2 11 + 1#32) <<< 17
      batPaddr := batl &&& (valmask 32 15 <<< 17)
      batVaddr := batu &&& (valmask 32 15 <<< 17) }

/-- No block that is read is empty. -/
theorem ppcmmuBatRead_size_pos {bat : BatInfo} {batu batl : BitVec 32}
    (h : (ppcmmuBatRead bat batu batl).batValid = true) :
    0 < (ppcmmuBatRead bat batu batl).batSize.toNat := by
  rw [ppcmmuBatRead] at h ⊢
  split at h
  · cases h
  next hvalid =>
    have hlen : (extract batu 2 11).toNat < 2 ^ 11 := by
      rw [extract, toNat_and]
      exact Nat.and_lt_two_pow _ (by decide)
    rw [if_neg hvalid, toNat_shiftLeft, toNat_add, Nat.shiftLeft_eq, toNat_ofNat]
    omega

/-- `ppcmmu_bat_table_find_bat`. -/
def ppcmmuBatTableFindBat (table : BatTable) (vaddr : BitVec 32) : Option BatInfo :=
  (table.btArray.map BatEntry.info).find? fun bat =>
    bat.batValid && (bat.batVaddr ≤ vaddr && vaddr < bat.batVaddr + bat.batSize)

/-- `range_intersect`. -/
def rangeIntersect (va1 len1 va2 len2 : BitVec 32) : Bool :=
  if va1 = va2 then true
  else if va1 > va2 then va1 < va2 + len2
  else va2 < va1 + len1

/-- `ppcmmu_unmap_ibat` or `ppcmmu_unmap_dbat` for an entry, which is not valid afterwards. -/
def BatEntry.unmap (e : BatEntry) : BatEntry :=
  { info := { e.info with batValid := false }, batu := 0#32 }

/-- One round of `ppcmmu_bat_table_unload_range`. -/
def BatEntry.unload (vaddr len : BitVec 32) (e : BatEntry) : BatEntry :=
  if e.info.batValid && rangeIntersect vaddr len e.info.batVaddr e.info.batSize then e.unmap else e

theorem BatEntry.unload_valid {vaddr len : BitVec 32} {e : BatEntry}
    (h : (e.unload vaddr len).info.batValid = true) : e.unload vaddr len = e := by
  rw [unload] at h ⊢
  split at h
  · cases h
  next hmiss => rw [if_neg hmiss]

/-- `ppcmmu_bat_table_unload_range`. -/
def ppcmmuBatTableUnloadRange (table : BatTable) (vaddr len : BitVec 32) : BatTable where
  btArray := table.btArray.map (BatEntry.unload vaddr len)
  btSize_le := by
    rw [List.length_map]
    exact table.btSize_le
  size_pos := by
    rw [List.forall_mem_map]
    intro e he hvalid
    have hsame := BatEntry.unload_valid hvalid
    rw [hsame] at hvalid ⊢
    exact table.size_pos e he hvalid

/-! ## What a block covers -/

variable (bat : BatInfo)

namespace BatInfo

/-- The block contains the address. -/
def Covers (bat : BatInfo) (vaddr : BitVec 32) : Prop :=
  bat.batVaddr.toNat ≤ vaddr.toNat ∧ vaddr.toNat < bat.batVaddr.toNat + bat.batSize.toNat

/-- The block and the range have an address in common. -/
def Meets (bat : BatInfo) (vaddr len : BitVec 32) : Prop :=
  ∃ a, (bat.batVaddr.toNat ≤ a ∧ a < bat.batVaddr.toNat + bat.batSize.toNat) ∧
    (vaddr.toNat ≤ a ∧ a < vaddr.toNat + len.toNat)

/-- The block ends below the top of the address space. -/
def EndsBelow (bat : BatInfo) : Prop :=
  bat.batVaddr.toNat + bat.batSize.toNat < 2 ^ 32

theorem meets_iff (vaddr len : BitVec 32) :
    bat.Meets vaddr len ↔ 0 < bat.batSize.toNat ∧ 0 < len.toNat ∧
      vaddr.toNat < bat.batVaddr.toNat + bat.batSize.toNat ∧
      bat.batVaddr.toNat < vaddr.toNat + len.toNat := by
  constructor
  · rintro ⟨a, ⟨hlo, hhi⟩, hlo', hhi'⟩
    omega
  · rintro ⟨hsize, hlen, hbelow, habove⟩
    exact ⟨max bat.batVaddr.toNat vaddr.toNat, by omega, by omega⟩

instance (bat : BatInfo) (vaddr len : BitVec 32) : Decidable (bat.Meets vaddr len) :=
  decidable_of_iff' _ (bat.meets_iff vaddr len)

/-- The range is compared rightly with the block.  A range that is not empty goes wrong when it
meets the block and the one of the two that begins first reaches the top of the address space; an
empty one when it lies at the start of the block, or inside a block that does not reach the top. -/
def UnloadsRightly (bat : BatInfo) (vaddr len : BitVec 32) : Prop :=
  if 0 < len.toNat then
    bat.Meets vaddr len → (bat.batVaddr < vaddr → bat.EndsBelow) ∧
      (vaddr < bat.batVaddr → vaddr.toNat + len.toNat < 2 ^ 32)
  else bat.batVaddr ≠ vaddr ∧ ¬ (bat.Covers vaddr ∧ bat.EndsBelow)

end BatInfo

/-- Below a sum of 32 bits, for an address that is not below its first summand. -/
theorem lt_add_iff_of_le {a b c : BitVec 32} (h : b.toNat ≤ a.toNat) :
    a < b + c ↔ a.toNat < b.toNat + c.toNat ∧ b.toNat + c.toNat < 2 ^ 32 := by
  rw [lt_def, toNat_add]
  omega

/-! ## Lookup -/

theorem batFinds_iff (vaddr : BitVec 32) :
    (bat.batValid && (bat.batVaddr ≤ vaddr && vaddr < bat.batVaddr + bat.batSize)) = true ↔
      bat.batValid = true ∧ bat.Covers vaddr ∧ bat.EndsBelow := by
  rw [Bool.and_eq_true, Bool.and_eq_true, decide_eq_true_iff, decide_eq_true_iff, le_def,
    BatInfo.Covers, BatInfo.EndsBelow]
  constructor
  · rintro ⟨hvalid, hle, hlt⟩
    obtain ⟨hlt, hbelow⟩ := (lt_add_iff_of_le hle).mp hlt
    exact ⟨hvalid, ⟨hle, hlt⟩, hbelow⟩
  · rintro ⟨hvalid, ⟨hle, hlt⟩, hbelow⟩
    exact ⟨hvalid, hle, (lt_add_iff_of_le hle).mpr ⟨hlt, hbelow⟩⟩

/-- The lookup finds the blocks that end below the top of the address space. -/
theorem ppcmmuBatTableFindBat_isSome (table : BatTable) (vaddr : BitVec 32) :
    (ppcmmuBatTableFindBat table vaddr).isSome ↔
      ∃ e ∈ table.btArray, e.info.batValid = true ∧ e.info.Covers vaddr ∧ e.info.EndsBelow := by
  rw [ppcmmuBatTableFindBat, List.find?_isSome]
  simp only [batFinds_iff, List.mem_map, exists_exists_and_eq_and]

/-! ## Unloading -/

theorem rangeIntersect_iff {bat : BatInfo} (hsize : 0 < bat.batSize.toNat) (vaddr len : BitVec 32) :
    (rangeIntersect vaddr len bat.batVaddr bat.batSize = true ↔ bat.Meets vaddr len) ↔
      bat.UnloadsRightly vaddr len := by
  rw [rangeIntersect, BatInfo.UnloadsRightly, BatInfo.meets_iff, BatInfo.Covers, BatInfo.EndsBelow]
  by_cases heq : vaddr = bat.batVaddr
  · subst heq
    have hsame : ¬ bat.batVaddr < bat.batVaddr := BitVec.lt_irrefl _
    simp only [if_true, hsame, true_iff, ne_eq, not_true_eq_false, false_and,
      false_imp_iff, and_self,
      imp_true_iff]
    split
    next => simp only [iff_true]; omega
    next => simp only [iff_false]; omega
  rw [if_neg heq]
  by_cases hgt : bat.batVaddr < vaddr
  · have hle : bat.batVaddr.toNat < vaddr.toNat := hgt
    have hnot : ¬ vaddr.toNat < bat.batVaddr.toNat := by omega
    rw [if_pos hgt, decide_eq_true_iff, lt_add_iff_of_le hle.le]
    simp only [lt_def, hle, hnot, true_imp_iff, false_imp_iff, ne_eq, Ne.symm heq,
      not_false_eq_true, true_and, and_true]
    split
    all_goals omega
  · have hle : vaddr.toNat < bat.batVaddr.toNat := by
      have hne : vaddr.toNat ≠ bat.batVaddr.toNat := fun h => heq (eq_of_toNat_eq h)
      rw [lt_def] at hgt
      omega
    rw [if_neg hgt, decide_eq_true_iff, lt_add_iff_of_le hle.le]
    simp only [lt_def, hle, hgt, true_imp_iff, false_imp_iff, ne_eq, Ne.symm heq,
      not_false_eq_true, true_and]
    split
    all_goals omega

/-- The entry as it should be after a range has been unloaded. -/
def BatEntry.without (e : BatEntry) (vaddr len : BitVec 32) : BatEntry :=
  if e.info.batValid = true ∧ e.info.Meets vaddr len then e.unmap else e

theorem BatEntry.unload_eq_iff {e : BatEntry} (hsize : e.info.batValid = true →
    0 < e.info.batSize.toNat)
    (vaddr len : BitVec 32) :
    e.unload vaddr len = e.without vaddr len ↔
      (e.info.batValid = true → e.info.UnloadsRightly vaddr len) := by
  by_cases hvalid : e.info.batValid = true
  · have hne : e.unmap ≠ e := by
      intro h
      rw [← h] at hvalid
      cases hvalid
    rw [← rangeIntersect_iff (hsize hvalid), unload, without]
    simp only [hvalid, Bool.true_and, true_and, true_imp_iff]
    by_cases hhit : rangeIntersect vaddr len e.info.batVaddr e.info.batSize = true
    · by_cases hmeets : e.info.Meets vaddr len
      · simp only [hhit, hmeets]
      · simp only [hhit, hmeets, if_true, if_false, iff_false, not_true_eq_false, hne]
    · by_cases hmeets : e.info.Meets vaddr len
      · simp only [hhit, hmeets, if_true, if_false, iff_true, hne.symm, Bool.false_eq_true]
      · simp only [hhit, hmeets, if_false, Bool.false_eq_true]
  · rw [unload, without, if_neg (by simp [hvalid]), if_neg (by simp [hvalid])]
    exact ⟨fun _ h => absurd h hvalid, fun _ => rfl⟩

/-- A lookup and an unloading of a range do what they should exactly when no sum of 32 bits that
they look at reaches the top of the address space, and the range is not an empty one at a block. -/
theorem ppcmmuBatTable_exact_iff (table : BatTable) (vaddr len : BitVec 32) :
    (((ppcmmuBatTableFindBat table vaddr).isSome ↔
          ∃ e ∈ table.btArray, e.info.batValid = true ∧ e.info.Covers vaddr) ↔
        ((∃ e ∈ table.btArray, e.info.batValid = true ∧ e.info.Covers vaddr) →
          ∃ e ∈ table.btArray, e.info.batValid = true ∧ e.info.Covers vaddr ∧ e.info.EndsBelow)) ∧
      ((ppcmmuBatTableUnloadRange table vaddr len).btArray
          = table.btArray.map (·.without vaddr len) ↔
        ∀ e ∈ table.btArray, e.info.batValid = true → e.info.UnloadsRightly vaddr len) := by
  constructor
  · rw [ppcmmuBatTableFindBat_isSome]
    constructor
    · intro h hcovers
      exact h.mpr hcovers
    · intro h
      refine ⟨?_, h⟩
      rintro ⟨e, he, hvalid, hcovers, -⟩
      exact ⟨e, he, hvalid, hcovers⟩
  · rw [ppcmmuBatTableUnloadRange, List.map_inj_left]
    refine forall₂_congr fun e he => ?_
    exact BatEntry.unload_eq_iff (table.size_pos e he) vaddr len

/-- A table with one block, read from its registers: the last 128 KB of the address space. -/
def topBatTable : BatTable where
  btArray := [⟨ppcmmuBatRead ⟨false, 0#32, 0#32, 0#32⟩ 0xFFFE0003#32 0xFFFE0000#32, 0xFFFE0003#32⟩]
  btSize_le := by decide
  size_pos := by
    intro e he hvalid
    rw [List.mem_singleton] at he
    subst he
    exact ppcmmuBatRead_size_pos hvalid

/-- The last block is found at none of its addresses, and is not unloaded with a range inside of it.
-/
theorem topBatTable_missed :
    (ppcmmuBatTableFindBat topBatTable 0xFFFF0000#32).isNone ∧
      (∃ e ∈ topBatTable.btArray, e.info.batValid = true ∧ e.info.Covers 0xFFFF0000#32) ∧
      (ppcmmuBatTableUnloadRange topBatTable 0xFFFF0000#32 0x1000#32).btArray
        ≠ topBatTable.btArray.map (·.without 0xFFFF0000#32 0x1000#32) := by
  refine ⟨by decide, ⟨_, List.mem_singleton.mpr rfl, rfl, by decide, by decide⟩, ?_⟩
  intro h
  have hfirst := congrArg (fun bats => bats.map fun e => e.info.batValid) h
  revert hfirst
  decide

end Polaris
