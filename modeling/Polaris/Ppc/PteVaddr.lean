import Polaris.Ppc.Memload

/-!
# The virtual address of a page table entry

An entry holds only the upper six bits of its page index.  `pte_to_vaddr` gets the others back from
the number of the group the entry lies in, by undoing the hash.

## Main definitions

* `pteAddress` — where an entry lies in memory.
* `pteToVaddr`
-/

namespace Polaris

open Bitfield
open BitVec hiding getLsbD_extract

/-- The address of an entry in the table at `ptes`. -/
def pteAddress (ptes : BitVec 32) (p : PteAddr) : BitVec 32 :=
  ptes + (p.pteg <<< 6) + BitVec.ofNat 32 (8 * p.slot)

/-- `ptep_get_api`. -/
def Pte.getApi (p : Pte) : BitVec 32 := extract p.w0 0 6

/-- `pte_to_vaddr`, for an entry at `pte`. -/
def pteToVaddr (env : MmuEnv) (pte : BitVec 32) (e : Pte) : BitVec 32 :=
  let h1 := (pte &&& 0xFFC0#32) >>> 6
  let h1 := if e.getH ≠ hPrimary then h1 ^^^ env.hashPtegMask else h1
  ((h1 ^^^ (e.getVsid &&& 0x3FF#32)) <<< 12) ||| (e.getApi <<< 22) ||| (e.getVsid <<< 28)

/-- The group that an entry with the given H bit belongs into. -/
def homePteg (env : MmuEnv) (vsid vaddr h : BitVec 32) : BitVec 32 :=
  if h = hPrimary then hashGetPrimary env (fqvaToHash1 vsid vaddr)
  else hashGetSecondary env (hashGetPrimary env (fqvaToHash1 vsid vaddr))

/-- A table that is aligned to its size is aligned to 64 KB; the address shows the lower ten bits of
the number of the group. -/
theorem pteAddress_pteg {ptes : BitVec 32} (hptes : ptes.toNat % 2 ^ 16 = 0) (p : PteAddr) :
    (pteAddress ptes p &&& 0xFFC0#32) >>> 6 = p.pteg &&& 0x3FF#32 := by
  have hshift (x : BitVec 32) : (x &&& 0xFFC0#32) >>> 6 = (x >>> 6) &&& 0x3FF#32 := by
    rw [ushiftRight_and_distrib]
    rfl
  rw [hshift]
  refine eq_of_toNat_eq ?_
  rw [toNat_and, toNat_and, toNat_ushiftRight, pteAddress, toNat_add,
    toNat_add, toNat_shiftLeft, toNat_ofNat, toNat_ofNat,
    Nat.shiftRight_eq_div_pow, Nat.shiftLeft_eq, show 0x3FF % 2 ^ 32 = 2 ^ 10 - 1 from rfl,
    Nat.and_two_pow_sub_one_eq_mod, Nat.and_two_pow_sub_one_eq_mod]
  omega

/-! ## Fields -/

section Fields

variable (v vsid h api w1 : BitVec 32) (i : ℕ)

theorem getLsbD_getVsid :
    (Pte.mk (pte0New v vsid h api) w1).getVsid.getLsbD i = (decide (i < 24) && vsid.getLsbD i) := by
  simp only [Pte.getVsid, pte0New, getLsbD_extract, getLsbD_or, getLsbD_valtofld]
  grind

theorem getLsbD_getApi :
    (Pte.mk (pte0New v vsid h api) w1).getApi.getLsbD i = (decide (i < 6) && api.getLsbD i) := by
  simp only [Pte.getApi, pte0New, getLsbD_extract, getLsbD_or, getLsbD_valtofld]
  grind

theorem getH_pte0New : (Pte.mk (pte0New v vsid h api) w1).getH = h &&& 1#32 := by
  refine eq_of_getLsbD_eq fun i hi => ?_
  rw [show 1#32 = valmask 32 1 from rfl]
  simp only [Pte.getH, pte0New, getLsbD_extract, getLsbD_or, getLsbD_valtofld, getLsbD_and,
    getLsbD_valmask]
  grind

end Fields

/-! ## Addresses -/

section Vaddr

variable (env : MmuEnv) {ptes vaddr : BitVec 32} (range w1 : BitVec 32) (slot : Fin 8)

theorem getLsbD_of_page (hpage : vaddr &&& 0xFFF#32 = 0#32) {i : ℕ} (hi : i < 12) :
    vaddr.getLsbD i = false := by
  have hbit := congrArg (·.getLsbD i) hpage
  rw [show 0xFFF#32 = valmask 32 12 from rfl] at hbit
  simp only [getLsbD_and, getLsbD_valmask, getLsbD_zero] at hbit
  grind

theorem getLsbD_hashPtegMask (i : ℕ) :
    env.hashPtegMask.getLsbD i
      = (decide (i < 10) || (decide (i < 32) && env.htabmask.getLsbD (i - 10))) := by
  rw [MmuEnv.hashPtegMask, show 0x3FF#32 = valmask 32 10 from rfl]
  simp only [getLsbD_or, getLsbD_shiftLeft, getLsbD_valmask]
  grind

/-- The bits of the hash that a group of 64 KB is selected with. -/
theorem getLsbD_fqvaToHash1 (vsid vaddr : BitVec 32) {i : ℕ} (hi : i < 10) :
    (fqvaToHash1 vsid vaddr).getLsbD i = (vsid.getLsbD i ^^ vaddr.getLsbD (i + 12)) := by
  rw [fqvaToHash1, show 0x7FFFF#32 = valmask 32 19 from rfl, show 0xFFFF#32
    = valmask 32 16 from rfl]
  simp only [getLsbD_xor, getLsbD_and, getLsbD_ushiftRight, getLsbD_valmask]
  grind

theorem getLsbD_vsidOf (range vaddr : BitVec 32) {i : ℕ} (hi : i < 4) :
    (vsidOf range vaddr).getLsbD i = vaddr.getLsbD (28 + i) := by
  simp only [vsidOf, getLsbD_or, getLsbD_shiftLeft, getLsbD_ushiftRight]
  grind

theorem getLsbD_vaddrToApi (i : ℕ) :
    (vaddrToApi vaddr).getLsbD i = (decide (i < 6) && vaddr.getLsbD (22 + i)) := by
  rw [vaddrToApi, show 0x3F#32 = valmask 32 6 from rfl]
  simp only [getLsbD_and, getLsbD_ushiftRight, getLsbD_valmask]
  grind

/-- What `pte_to_vaddr` gets back: the address, with the mask of a larger table over it when the
entry is in a secondary group. -/
theorem pteToVaddr_eq (hptes : ptes.toNat % 2 ^ 16 = 0) (hpage : vaddr &&& 0xFFF#32 = 0#32)
    {h : BitVec 32} (hh : h = hPrimary ∨ h = hSecondary) :
    pteToVaddr env (pteAddress ptes ⟨homePteg env (vsidOf range vaddr) vaddr h, slot⟩)
        ⟨pte0New 1#32 (vsidOf range vaddr) h (vaddrToApi vaddr), w1⟩
      = if h = hPrimary then vaddr else vaddr ||| (env.htabmask <<< 22) := by
  rw [pteToVaddr, pteAddress_pteg hptes, getH_pte0New, homePteg]
  simp only
  refine eq_of_getLsbD_eq fun i hi => ?_
  have hlow (hi : i < 12) := getLsbD_of_page hpage hi
  have hhash (hi : i - 12 < 10) := getLsbD_fqvaToHash1 (vsidOf range vaddr) vaddr hi
  have hvsid (hi : i - 28 < 4) := getLsbD_vsidOf range vaddr hi
  have hparts : i < 12 ∨ 12 ≤ i ∧ i < 22 ∨ 22 ≤ i ∧ i < 28 ∨ 28 ≤ i := by omega
  rcases hh with rfl | rfl
  · rw [if_pos rfl, if_neg (by decide), if_pos rfl, show 0x3FF#32 = valmask 32 10 from rfl]
    simp only [getLsbD_or, getLsbD_shiftLeft, getLsbD_xor, getLsbD_and,
      getLsbD_valmask, getLsbD_getVsid, getLsbD_getApi, getLsbD_vaddrToApi, hashGetPrimary,
      getLsbD_hashPtegMask]
    rcases hparts with h | h | h | h <;> grind
  · have hne : ¬ hSecondary = hPrimary := by decide
    rw [if_neg hne, if_neg hne, if_pos (by decide), show 0x3FF#32 = valmask 32 10 from rfl]
    simp only [getLsbD_or, getLsbD_shiftLeft, getLsbD_xor, getLsbD_and,
      getLsbD_valmask, getLsbD_getVsid, getLsbD_getApi, getLsbD_vaddrToApi, hashGetPrimary,
      hashGetSecondary, getLsbD_hashPtegMask]
    rcases hparts with h | h | h | h <;> grind

/-- An entry gives its address back when it is in its primary group, and in a secondary one exactly
when the address has all the bits of `HTABMASK` above its API. -/
theorem pteToVaddr_eq_iff (hptes : ptes.toNat % 2 ^ 16 = 0) (hpage : vaddr &&& 0xFFF#32 = 0#32)
    {h : BitVec 32} (hh : h = hPrimary ∨ h = hSecondary) :
    pteToVaddr env (pteAddress ptes ⟨homePteg env (vsidOf range vaddr) vaddr h, slot⟩)
        ⟨pte0New 1#32 (vsidOf range vaddr) h (vaddrToApi vaddr), w1⟩ = vaddr ↔
      h = hPrimary ∨ vaddr ||| (env.htabmask <<< 22) = vaddr := by
  rw [pteToVaddr_eq env range w1 slot hptes hpage hh]
  split
  next hprimary => simp only [hprimary, true_or]
  next hsecondary => simp only [hsecondary, false_or]

end Vaddr

/-- The environment of a page table of 128 KB. -/
def env128K : MmuEnv := { smallEnv with htabmask := 1#32 }

/-- The first page of an address space, in the secondary group of a table of 128 KB: the answer is
the page at 4 MB. -/
theorem pteToVaddr_secondary :
    pteToVaddr env128K (pteAddress 0x20000#32
        ⟨homePteg env128K (vsidOf 2#32 0#32) 0#32 hSecondary, 0⟩)
      ⟨pte0New 1#32 (vsidOf 2#32 0#32) hSecondary (vaddrToApi 0#32), 0#32⟩ = 0x400000#32 := by
  decide

theorem pteToVaddr_eq_iff_secondary :
    pteToVaddr smallEnv (pteAddress 0x10000#32
        ⟨homePteg smallEnv (vsidOf 2#32 0x5000#32) 0x5000#32 hSecondary, 0⟩)
      ⟨pte0New 1#32 (vsidOf 2#32 0x5000#32) hSecondary (vaddrToApi 0x5000#32), 0#32⟩ = 0x5000#32 :=
  (pteToVaddr_eq_iff smallEnv 2#32 0#32 0 (by decide) (by decide) (.inr rfl)).mpr (.inr (by decide))

end Polaris
