import Polaris.Lib.Memory
import Polaris.Ppc.PteVaddr
import Polaris.Ppc.PtegMaps

/-!
# Mappings before the HAT is up

`map_one_page`, `unmap_one_page` and `translate_callback` of `mach_ppcmmu.c` work on the page table
before `segkmem` is ready.  Each goes through the eight entries of the primary group and then
through the eight entries at `hash_get_secondary(hash1)`.  That macro computes one address from
another, but is given the hash here, so the table is a range of the memory in this model, and
entries are read and written at any address.

## Main definitions

* `bootSlots` — the entries the three routines look at; `hwSlots` — those the hardware looks at.
* `mapOnePage`, `unmapOnePage`, `translateCallback`
* `BootOp`, `bootRun`
-/

namespace Polaris

open Bitfield Mem List

/-! ## Entries in memory -/

/-- The entry at an address. -/
def loadPte (m : Mem 32) (pte : BitVec 32) : Pte := ⟨m.load32 pte, m.load32 (off pte 4)⟩

/-- `mmu_update_pte`, without `remap`. -/
def bootUpdatePte (m : Mem 32) (pte : BitVec 32) (new : Pte) : Mem 32 :=
  (m.store32 (off pte 4) new.w1).store32 pte new.w0

/-- `mmu_delete_pte`. -/
def bootDeletePte (m : Mem 32) (pte : BitVec 32) : Mem 32 :=
  m.store32 pte (m.load32 pte &&& ~~~pte0VFldMask)

/-- `PTE0_H_FLD_MASK`. -/
def pte0HFldMask : BitVec 32 := valmask 32 1 <<< 6

/-- `PTE0_VSID_FLD_MASK | PTE0_H_FLD_MASK | PTE0_API_FLD_MASK`. -/
def pte0Mask : BitVec 32 := valmask 32 24 <<< 7 ||| pte0HFldMask ||| valmask 32 6

/-! ## The groups of an address -/

section Groups

variable (env : MmuEnv) (ptes : BitVec 32)

/-- `hash_get_primary`, as the address it is. -/
def hashGetPrimaryAddr (h : BitVec 32) : BitVec 32 :=
  ((h &&& env.hashPtegMask) <<< 6) + ptes

/-- `hash_get_secondary`, as the address it is. -/
def hashGetSecondaryAddr (priHash : BitVec 32) : BitVec 32 :=
  (env.hashPtegMask <<< 6) ^^^ priHash

/-- `VSID(KERNEL_VSID_RANGE, vaddr)`. -/
def kernelVsid (vaddr : BitVec 32) : BitVec 32 := vsidOf 1#32 vaddr

/-- The eight entries from an address on. -/
def groupSlots (pte : BitVec 32) : List (BitVec 32) :=
  (List.range 8).map fun i => off pte (8 * i)

/-- What the loops go through: the address of an entry, and whether `h != hash1`. -/
def bootSlots (vaddr : BitVec 32) : List (BitVec 32 × Bool) :=
  let hash1 := fqvaToHash1 (kernelVsid vaddr) vaddr
  (groupSlots (hashGetPrimaryAddr env ptes hash1)).map (·, false) ++
    (groupSlots (hashGetSecondaryAddr env hash1)).map (·, true)

/-- The H bit. -/
def hBit (second : Bool) : BitVec 32 := if second then hSecondary else hPrimary

theorem hBit_false : hBit false = hPrimary := rfl

theorem hBit_true : hBit true = hSecondary := rfl

/-- The entries of the two groups where the hardware and `fqva_ptefind` look for an address, with
the H bit that they have there. -/
def hwSlots (vsid vaddr : BitVec 32) : List (BitVec 32 × Bool) :=
  [false, true].flatMap fun second =>
    (groupSlots (ptes + (homePteg env vsid vaddr (hBit second) <<< 6))).map (·, second)

end Groups

/-! ## The routines -/

/-- `map_one_page` stops at an entry that is not valid, or is one for the address. -/
def Stops (m : Mem 32) (new0 pte : BitVec 32) : Prop :=
  (loadPte m pte).isValid = false ∨ (loadPte m pte).w0 &&& pte0Mask = new0 &&& pte0Mask

instance (m : Mem 32) (new0 pte : BitVec 32) : Decidable (Stops m new0 pte) :=
  inferInstanceAs (Decidable (_ ∨ _))

/-- The search of `map_one_page` for an entry that is not valid; `none` is its panic, and
`some none` says that the address is mapped. -/
def mapFind (m : Mem 32) (new0 : BitVec 32) (slots : List (BitVec 32 × Bool)) :
    Option (Option (BitVec 32 × Bool)) :=
  (slots.find? fun slot => decide (Stops m new0 slot.1)).map fun slot =>
    if (loadPte m slot.1).isValid then none else some slot

/-- The search of `unmap_one_page` and `translate_callback`. -/
def keyFind (m : Mem 32) (key : BitVec 32) (slots : List (BitVec 32 × Bool)) :
    Option (BitVec 32 × Bool) :=
  slots.find? fun slot => (loadPte m slot.1).isValid &&
    (loadPte m slot.1).w0 &&& pte0Mask == if slot.2 then key ||| pte0HFldMask else key

section Routines

variable (env : MmuEnv) (ptes : BitVec 32) (m : Mem 32)

/-- The first word of the entry that `map_one_page` makes. -/
def newPte0 (vaddr : BitVec 32) : BitVec 32 :=
  pte0New 1#32 (kernelVsid vaddr) 0#32 (vaddrToApi vaddr)

/-- `new_pte`. -/
def newPte (phys vaddr mode : BitVec 32) : Pte :=
  ⟨newPte0 vaddr, pte1New (phys >>> 12) 0#32 0#32 0#32 (mode.sshiftRight 3) 0#32 0#32⟩

/-- `map_one_page`. -/
def mapOnePage (phys vaddr mode : BitVec 32) : Option (Mem 32) :=
  if pte1RpnValMask < phys >>> 12 then none
  else
    match mapFind m (newPte0 vaddr) (bootSlots env ptes vaddr) with
    | none => none
    | some none => some m
    | some (some (pte, second)) =>
      some (bootUpdatePte m pte ((newPte phys vaddr mode).setH (hBit second)))

/-- What `unmap_one_page` and `translate_callback` compare with. -/
def unmapKey (vaddr : BitVec 32) : BitVec 32 :=
  pte0New 0#32 (kernelVsid vaddr) 0#32 (vaddrToApi vaddr)

/-- The search of `unmap_one_page` and `translate_callback` for an address. -/
def unmapFind (vaddr : BitVec 32) : Option (BitVec 32 × Bool) :=
  keyFind m (unmapKey vaddr) (bootSlots env ptes vaddr)

/-- What `unmap_one_page` does with the entry it has found. -/
def unmapFound : Option (BitVec 32 × Bool) → Mem 32
  | none => m
  | some (pte, _) => bootDeletePte m pte

/-- `unmap_one_page`. -/
def unmapOnePage (vaddr : BitVec 32) : Mem 32 :=
  unmapFound m (unmapFind env ptes m vaddr)

/-- What `translate_callback` reads from the entry it has found: `ret[2]` and `ret[3]`. -/
def translateFound (vaddr : BitVec 32) (found : Option (BitVec 32 × Bool)) :
    Option (BitVec 32 × BitVec 32) :=
  found.map fun slot =>
    (((loadPte m slot.1).getRpn <<< 12) ||| (vaddr &&& 0xFFF#32),
      (loadPte m slot.1).w1 &&& (valmask 32 4 <<< 3 ||| valmask 32 2))

/-- `translate_callback`. -/
def translateCallback (vaddr : BitVec 32) : Option (BitVec 32 × BitVec 32) :=
  translateFound m vaddr (unmapFind env ptes m vaddr)

/-- The same search in the groups where the hardware looks. -/
def hwFind (vaddr : BitVec 32) : Option (BitVec 32 × Bool) :=
  keyFind m (unmapKey vaddr) (hwSlots env ptes (kernelVsid vaddr) vaddr)

end Routines

/-- What is done to the table. -/
inductive BootOp
  | map (phys vaddr mode : BitVec 32)
  | unmap (vaddr : BitVec 32)
  deriving DecidableEq

section Runs

variable (env : MmuEnv) (ptes : BitVec 32)

def BootOp.apply (m : Mem 32) : BootOp → Option (Mem 32)
  | map phys vaddr mode => mapOnePage env ptes m phys vaddr mode
  | unmap vaddr => some (unmapOnePage env ptes m vaddr)

/-- A sequence of calls; `none` if one of them panics. -/
def bootRun (m : Mem 32) (ops : List BootOp) : Option (Mem 32) :=
  ops.foldlM (BootOp.apply env ptes) m

/-- `P` holds of every call, with the memory as it is then. -/
def AtEachCall (P : Mem 32 → BootOp → Prop) (m : Mem 32) : List BootOp → Prop
  | [] => True
  | op :: ops => P m op ∧ ∀ m', op.apply env ptes m = some m' → AtEachCall P m' ops

/-- A call that makes an entry makes it where it is looked for. -/
def Placed (m : Mem 32) : BootOp → Prop
  | .map _ vaddr _ => ∀ pte second,
      mapFind m (newPte0 vaddr) (bootSlots env ptes vaddr) = some (some (pte, second)) →
        (pte, second) ∈ hwSlots env ptes (kernelVsid vaddr) vaddr
  | .unmap _ => True

/-- The window that is taken for the complementary group, at an address made from the hash. -/
def windowAddr (vaddr : BitVec 32) : BitVec 32 :=
  hashGetSecondaryAddr env (fqvaToHash1 (kernelVsid vaddr) vaddr)

/-- The complementary group. -/
def complementAddr (vaddr : BitVec 32) : BitVec 32 :=
  ptes + (homePteg env (kernelVsid vaddr) vaddr hSecondary <<< 6)

/-- An entry of the primary group is free, or is one for the address; or the first free entry in
the window is in the complementary group as well, unless one for the address stands before it. -/
def PlacedWhen (m : Mem 32) : BootOp → Prop
  | .map _ vaddr _ =>
    (∃ pte ∈ groupSlots (hashGetPrimaryAddr env ptes (fqvaToHash1 (kernelVsid vaddr) vaddr)),
        Stops m (newPte0 vaddr) pte) ∨
      ∀ before pte after, groupSlots (windowAddr env vaddr) = before ++ pte :: after →
        (∀ q ∈ before, ¬ Stops m (newPte0 vaddr) q) → (loadPte m pte).isValid = false →
          pte ∈ groupSlots (complementAddr env ptes vaddr)
  | .unmap _ => True

end Runs

/-! ## The two groups -/

section Search

variable {m : Mem 32} {new0 pte : BitVec 32} {second : Bool} {slots : List (BitVec 32 × Bool)}

theorem mapFind_eq_some_iff : mapFind m new0 slots = some (some (pte, second)) ↔
    slots.find? (fun slot => decide (Stops m new0 slot.1)) = some (pte, second) ∧
      (loadPte m pte).isValid = false := by
  rw [mapFind, Option.map_eq_some_iff]
  constructor
  · rintro ⟨slot, hfind, hslot⟩
    split at hslot
    · cases hslot
    next hvalid =>
      cases hslot
      exact ⟨hfind, Bool.eq_false_of_not_eq_true hvalid⟩
  · rintro ⟨hfind, hvalid⟩
    exact ⟨_, hfind, if_neg (ne_true_of_eq_false hvalid)⟩

theorem mapFind_mem (h : mapFind m new0 slots = some (some (pte, second))) :
    (pte, second) ∈ slots :=
  mem_of_find?_eq_some (mapFind_eq_some_iff.mp h).1

/-- The search in two groups gets into the second if nothing in the first stops it. -/
theorem mapFind_second_iff {first window : List (BitVec 32)} :
    mapFind m new0 (first.map (·, false) ++ window.map (·, true)) = some (some (pte, true)) ↔
      (∀ q ∈ first, ¬ Stops m new0 q) ∧ ∃ before after, window = before ++ pte :: after ∧
        (∀ q ∈ before, ¬ Stops m new0 q) ∧ (loadPte m pte).isValid = false := by
  have hfirst : ((first.find? fun q => decide (Stops m new0 q)).map fun q => (q, false))
      ≠ some (pte, true) := by
    simp
  have hsecond : ((window.find? fun q => decide (Stops m new0 q)).map fun q => (q, true))
      = some (pte, true) ↔ (window.find? fun q => decide (Stops m new0 q)) = some pte := by
    simp
  rw [mapFind_eq_some_iff, find?_append, Option.or_eq_some_iff, find?_map, find?_map]
  simp only [Function.comp_def, hfirst, hsecond, false_or, Option.map_eq_none_iff, find?_eq_none,
    decide_eq_true_eq, find?_eq_some_iff_append, Bool.not_eq_true', decide_eq_false_iff_not]
  constructor
  · rintro ⟨⟨hnone, -, before, after, hwindow, hbefore⟩, hvalid⟩
    exact ⟨hnone, before, after, hwindow, hbefore, hvalid⟩
  · rintro ⟨hnone, before, after, hwindow, hbefore, hvalid⟩
    exact ⟨⟨hnone, .inl hvalid, before, after, hwindow, hbefore⟩, hvalid⟩

end Search

section Placement

variable (env : MmuEnv) (ptes : BitVec 32)

theorem mem_hwSlots {vsid vaddr pte : BitVec 32} {second : Bool} :
    (pte, second) ∈ hwSlots env ptes vsid vaddr ↔
      pte ∈ groupSlots (ptes + (homePteg env vsid vaddr (hBit second) <<< 6)) := by
  cases second with
  | false => simp [hwSlots]
  | true => simp [hwSlots]

/-- The primary group is found. -/
theorem hashGetPrimaryAddr_eq (vsid vaddr : BitVec 32) :
    hashGetPrimaryAddr env ptes (fqvaToHash1 vsid vaddr)
      = ptes + (homePteg env vsid vaddr hPrimary <<< 6) := by
  rw [hashGetPrimaryAddr, BitVec.add_comm, homePteg, if_pos rfl, hashGetPrimary]

theorem homePteg_secondary (vsid vaddr : BitVec 32) :
    homePteg env vsid vaddr hSecondary
      = hashGetSecondary env (hashGetPrimary env (fqvaToHash1 vsid vaddr)) :=
  if_neg (by decide)

/-- Entries of the first group. -/
theorem mem_bootSlots_first {vaddr pte : BitVec 32} (h : (pte, false) ∈ bootSlots env ptes vaddr) :
    pte ∈ groupSlots (ptes + (homePteg env (kernelVsid vaddr) vaddr hPrimary <<< 6)) := by
  simp only [bootSlots, mem_append, mem_map, Prod.mk.injEq, Bool.true_eq_false, and_false,
    exists_false, or_false, and_true, exists_eq_right] at h
  rwa [hashGetPrimaryAddr_eq] at h

theorem placed_iff (m : Mem 32) (op : BootOp) :
    Placed env ptes m op ↔ PlacedWhen env ptes m op := by
  cases op with
  | unmap vaddr => exact Iff.rfl
  | map phys vaddr mode =>
    rw [Placed, PlacedWhen, or_iff_not_imp_left]
    constructor
    · intro hplaced hstop before pte after hwindow hbefore hvalid
      rw [complementAddr, ← hBit_true, ← mem_hwSlots]
      refine hplaced pte true (mapFind_second_iff.mpr ⟨?_, before, after, hwindow, hbefore, hvalid⟩)
      intro q hq hq'
      exact hstop ⟨q, hq, hq'⟩
    · intro hwhen pte second hfind
      rw [mem_hwSlots]
      cases second with
      | false =>
        rw [hBit_false]
        exact mem_bootSlots_first env ptes (mapFind_mem hfind)
      | true =>
        obtain ⟨hfirst, before, after, hwindow, hbefore, hvalid⟩ := mapFind_second_iff.mp hfind
        refine hwhen ?_ before pte after hwindow hbefore hvalid
        rintro ⟨q, hq, hstop⟩
        exact hfirst q hq hstop

theorem groupSlots_injective {a b : BitVec 32} (h : groupSlots a = groupSlots b) : a = b := by
  have hhead := congrArg head? h
  simpa [groupSlots, range_succ_eq_map] using hhead

/-- The entries that are looked at are those of the two groups if the hash is, by chance, the
address that the macro expects. -/
theorem bootSlots_eq_iff (vaddr : BitVec 32) :
    bootSlots env ptes vaddr = hwSlots env ptes (kernelVsid vaddr) vaddr ↔
      windowAddr env vaddr = complementAddr env ptes vaddr := by
  rw [bootSlots, hwSlots, hashGetPrimaryAddr_eq, windowAddr, complementAddr]
  simp only [flatMap_cons, flatMap_nil, append_nil, hBit, Bool.false_eq_true, if_false, if_true,
    append_cancel_left_eq]
  constructor
  · intro h
    apply groupSlots_injective
    exact (map_injective_iff.mpr (Prod.mk_left_injective true)) h
  · intro h
    rw [h]

/-- For no table this is so at every address. -/
theorem exists_windowAddr_ne : ∃ vaddr, windowAddr env vaddr ≠ complementAddr env ptes vaddr := by
  by_contra hall
  simp only [not_exists, ne_eq, not_not, windowAddr, complementAddr, homePteg_secondary,
    hashGetSecondaryAddr] at hall
  have hzero := hall 0x10000#32
  have hone := hall 0x11000#32
  rw [show fqvaToHash1 (kernelVsid 0x10000#32) 0x10000#32 = 0#32 from by decide] at hzero
  rw [show fqvaToHash1 (kernelVsid 0x11000#32) 0x11000#32 = 1#32 from by decide] at hone
  have hptes : ptes = 0#32 := by
    rw [hashGetPrimary, BitVec.zero_and, hashGetSecondary, BitVec.xor_zero,
      BitVec.xor_zero] at hzero
    bv_omega
  have hbit := congrArg (·.getLsbD 0) hone
  simp [hptes] at hbit

end Placement

/-! ## A table with one entry -/

section OneEntry

variable {a b w : BitVec 32}

/-- What is read as a valid entry starts in the word that is stored, and is this word if its H bit
is set. -/
theorem eq_of_isValid (hvalid : (loadPte (store32 (fun _ => 0#8) a w) b).isValid = true) :
    (b - a).toNat < 4 ∧
      ((loadPte (store32 (fun _ => 0#8) a w) b).w0.getLsbD 6 = true → b = a) := by
  have hzero {x : BitVec 32} (hx : ¬ (x - a).toNat < 4) : store32 (fun _ => 0#8) a w x = 0#8 := by
    rw [store32_apply _ (by decide), if_neg hx]
  rw [Pte.isValid_eq_getLsbD, loadPte, load32] at hvalid
  have hlt : (b - a).toNat < 4 := by
    by_contra hge
    rw [off_zero, hzero hge] at hvalid
    simp only [BitVec.getLsbD_append, BitVec.getLsbD_zero] at hvalid
    grind
  refine ⟨hlt, fun hbit => ?_⟩
  by_contra hne
  have hpos : (b - a).toNat ≠ 0 := by
    intro hsub
    rw [← off_sub a b, hsub, off_zero] at hne
    exact hne rfl
  have hlast : ¬ (off b 3 - a).toNat < 4 := by
    rw [off_dst a b, toNat_off_sub a (by omega)]
    omega
  rw [loadPte, load32, hzero hlast] at hbit
  simp only [BitVec.getLsbD_append, BitVec.getLsbD_zero] at hbit
  grind

theorem exists_not_mem_groupSlots (hne : a ≠ b) : ∃ pte ∈ groupSlots b, pte ∉ groupSlots a := by
  by_contra! hall
  simp only [groupSlots, mem_map, mem_range, forall_exists_index, and_imp,
    forall_apply_eq_imp_iff₂] at hall
  obtain ⟨i, hi, hfirst⟩ := hall 0 (by decide)
  obtain ⟨j, hj, hlast⟩ := hall 7 (by decide)
  rw [Nat.mul_zero, off_zero] at hfirst
  rw [← hfirst, off_off] at hlast
  have heq := off_injective a (by omega) (by omega) hlast
  obtain rfl : i = 0 := by omega
  rw [Nat.mul_zero, off_zero] at hfirst
  exact hne hfirst

end OneEntry

section Placement

variable (env : MmuEnv) (ptes : BitVec 32) {vaddr : BitVec 32}

theorem getLsbD_clear_valid (w : BitVec 32) : (w &&& ~~~pte0VFldMask).getLsbD 31 = false := by
  rw [BitVec.getLsbD_and, show (~~~pte0VFldMask).getLsbD 31 = false by decide, Bool.and_false]

theorem getLsbD_unmapKey : (unmapKey vaddr).getLsbD 6 = false := by
  simp only [unmapKey, pte0New, BitVec.getLsbD_or, getLsbD_valtofld]
  simp

theorem and_pte0Mask :
    pte0New 1#32 (kernelVsid vaddr) hSecondary (vaddrToApi vaddr) &&& pte0Mask
      = unmapKey vaddr ||| pte0HFldMask := by
  refine BitVec.eq_of_getLsbD_eq fun i hi => ?_
  simp only [unmapKey, pte0New, pte0Mask, pte0HFldMask, hSecondary, BitVec.getLsbD_or,
    BitVec.getLsbD_and, BitVec.getLsbD_shiftLeft, BitVec.getLsbD_one, BitVec.getLsbD_zero,
    getLsbD_valtofld, getLsbD_valmask]
  grind

/-- Entries of groups have a distance of eight bytes, or a multiple. -/
theorem sub_mod_eight {g g' pte pte' : BitVec 32} (h : pte ∈ groupSlots (ptes + (g <<< 6)))
    (h' : pte' ∈ groupSlots (ptes + (g' <<< 6))) : (pte - pte').toNat % 8 = 0 := by
  rw [groupSlots, mem_map] at h h'
  obtain ⟨i, -, rfl⟩ := h
  obtain ⟨j, -, rfl⟩ := h'
  rw [off, off]
  bv_omega

/-- If the window is not the complementary group, an entry of this group is found by the hardware
only. -/
theorem exists_hwFind_only (hne : windowAddr env vaddr ≠ complementAddr env ptes vaddr) :
    ∃ m slot, unmapFind env ptes m vaddr = none ∧ hwFind env ptes m vaddr = some slot := by
  obtain ⟨a, ha, hwindow⟩ := exists_not_mem_groupSlots hne
  let w := pte0New 1#32 (kernelVsid vaddr) hSecondary (vaddrToApi vaddr)
  let m := store32 (fun _ => 0#8) a w
  have hload : (loadPte m a).w0 = w := load32_store32 _ (by decide) a w
  have hbit : (unmapKey vaddr ||| pte0HFldMask).getLsbD 6 = true := by
    rw [BitVec.getLsbD_or, show pte0HFldMask.getLsbD 6 = true by decide, Bool.or_true]
  have hboot : unmapFind env ptes m vaddr = none := by
    rw [unmapFind, keyFind, find?_eq_none]
    rintro ⟨b, second⟩ hmem hmatch
    rw [Bool.and_eq_true, beq_iff_eq] at hmatch
    obtain ⟨hvalid, hkey⟩ := hmatch
    obtain ⟨hlt, hsame⟩ : (b - a).toNat < 4 ∧ _ := eq_of_isValid hvalid
    rw [bootSlots, mem_append, mem_map, mem_map] at hmem
    rcases hmem with ⟨_, hb, ⟨⟩⟩ | ⟨_, hb, ⟨⟩⟩
    · rw [hashGetPrimaryAddr_eq] at hb
      have hmod := sub_mod_eight ptes hb ha
      have hzero : (b - a).toNat = 0 := by omega
      obtain rfl : a = b := by rw [← off_sub a b, hzero, off_zero]
      rw [hload, and_pte0Mask, if_neg Bool.false_ne_true] at hkey
      rw [hkey, getLsbD_unmapKey] at hbit
      cases hbit
    · rw [if_pos rfl] at hkey
      rw [← hkey, BitVec.getLsbD_and, Bool.and_eq_true] at hbit
      obtain rfl : b = a := hsame hbit.1
      exact hwindow hb
  have hhw : hwFind env ptes m vaddr ≠ none := by
    rw [hwFind, keyFind, ne_eq, find?_eq_none]
    intro hnone
    refine hnone (a, true) ((mem_hwSlots env ptes).mpr ha) ?_
    rw [Bool.and_eq_true, beq_iff_eq, Pte.isValid_eq_getLsbD, hload, if_pos rfl, and_pte0Mask]
    exact ⟨getLsbD_pte0New_valid, rfl⟩
  obtain ⟨slot, hslot⟩ := Option.ne_none_iff_exists'.mp hhw
  exact ⟨m, slot, hboot, hslot⟩

theorem unmapFound_ne {m : Mem 32} {slot : BitVec 32 × Bool}
    (h : hwFind env ptes m vaddr = some slot) : unmapFound m (some slot) ≠ m := by
  intro heq
  have hmatch := find?_some h
  rw [Bool.and_eq_true, Pte.isValid_eq_getLsbD] at hmatch
  have hbit := hmatch.1
  rw [loadPte, ← heq, unmapFound, bootDeletePte, load32_store32 _ (by decide),
    getLsbD_clear_valid] at hbit
  cases hbit

end Placement

/-- Nine pages with one hash, in a table of 64 KB at 1 MB. -/
def collidingOps : List BootOp :=
  (List.range 9).map fun k => .map 0#32 (BitVec.ofNat 32 (k * 0x400000)) 0#32

end Polaris
