import Polaris.Ppc.Boot

/-!
# One entry for a page

A page should have one entry in the page table at most.  `map_one_page` compares the entries that it
comes by with the one it is to make, and stops at the first entry that is free: a page that is
mapped further on gets a second entry.

What it and `unmap_one_page` write through the wrong address of the second group may touch any
entries of the table, or none.

## Main definitions

* `Translates` — an entry that the hardware finds for an address.
* `AtMostOne` — no address has two.
* `Quiet` — the condition on a call under which this stays so.
-/

namespace Polaris

open Bitfield Mem List BitVec Option

section Entries

variable (env : MmuEnv) (ptes : BitVec 32) (m : Mem 32)

/-- With the first word `w`, the hardware takes the entry at `p` when it looks for `vaddr`. -/
def FitsPage (vsid vaddr : BitVec 32) (p : PteAddr) (w : BitVec 32) : Prop :=
  ∃ second, p.pteg = homePteg env vsid vaddr (hBit second) ∧
    w = pte0New 1#32 vsid (hBit second) (vaddrToApi vaddr)

/-- The hardware finds the entry at `p` when it looks for `vaddr`. -/
def Translates (vsid vaddr : BitVec 32) (p : PteAddr) : Prop :=
  FitsPage env vsid vaddr p (m.load32 (pteAddress ptes p))

/-- There is one valid entry for a page at most. -/
def AtMostOne : Prop :=
  ∀ vsid vaddr p q, Translates env ptes m vsid vaddr p → Translates env ptes m vsid vaddr q → p = q

/-- The entry at `p` is the only one for its page. -/
def Alone (p : PteAddr) : Prop :=
  ∀ vsid vaddr q, Translates env ptes m vsid vaddr p → Translates env ptes m vsid vaddr q → q = p

/-- The first word of the entry at `p` has a byte in common with the `n` bytes at `pte`. -/
def Touches (pte : BitVec 32) (n : ℕ) (p : PteAddr) : Prop :=
  ∃ i < 4, ∃ j < n, off (pteAddress ptes p) i = off pte j

/-- Byte `k` of words that are written one after the other. -/
def writtenByte (ws : List (BitVec 32)) (k : ℕ) : Option (BitVec 8) :=
  ws[k / 4]?.map fun w => w.extractLsb' (24 - 8 * (k % 4)) 8

/-- The first word of the entry at `p` as it gets when the words `ws` are written at `pte`. -/
def wordWith (pte : BitVec 32) (ws : List (BitVec 32)) (p : PteAddr) : BitVec 32 :=
  load32 (fun x => (writtenByte ws (x - pte).toNat).getD (m x)) (pteAddress ptes p)

/-- If words written at `pte` make a part of the table an entry for some page, then no other entry
is for this page, be it one that they leave alone or one that they are written over as well. -/
def Spares (pte : BitVec 32) (ws : List (BitVec 32)) : Prop :=
  ∀ vsid vaddr p q, Touches ptes pte (4 * ws.length) p → q ≠ p →
    FitsPage env vsid vaddr p (wordWith ptes m pte ws p) →
      (¬ Touches ptes pte (4 * ws.length) q → ¬ Translates env ptes m vsid vaddr q) ∧
      (Touches ptes pte (4 * ws.length) q → ¬ FitsPage env vsid vaddr q (wordWith ptes m pte ws q))

/-- An entry in a primary group is made for a page that has none, and what is written in the window
makes no double of any entry. -/
def Quiet : BootOp → Prop
  | .map phys vaddr mode => ∀ pte second,
      mapFind m (newPte0 vaddr) (bootSlots env ptes vaddr) = some (some (pte, second)) →
        if second then
          let new := (newPte phys vaddr mode).setH hSecondary
          Spares env ptes m pte [new.w0, new.w1]
        else ∀ p, ¬ Translates env ptes m (kernelVsid vaddr) vaddr p
  | .unmap vaddr => ∀ pte, unmapFind env ptes m vaddr = some (pte, true) →
      Spares env ptes m pte [m.load32 pte &&& ~~~pte0VFldMask]

/-- `Q` holds of the memory after every call. -/
def AtEveryPoint (Q : Mem 32 → Prop) (m : Mem 32) : List BootOp → Prop
  | [] => Q m
  | op :: ops => Q m ∧ ∀ m', op.apply env ptes m = some m' → AtEveryPoint Q m' ops

end Entries

/-! ## Addresses of entries -/

section Addresses

variable {env : MmuEnv} {ptes : BitVec 32} {p q : PteAddr}

theorem pteAddress_eq_off (ptes : BitVec 32) (p : PteAddr) :
    pteAddress ptes p = off ptes (64 * p.pteg.toNat + 8 * p.slot) := by
  rw [pteAddress, off, ofNat_add, ← BitVec.add_assoc]
  congr 2
  refine eq_of_toNat_eq ?_
  rw [toNat_shiftLeft, toNat_ofNat, Nat.shiftLeft_eq, Nat.mul_comm]

theorem off_pteAddress_injective (hp : p.pteg.toNat < 2 ^ 26) (hq : q.pteg.toNat < 2 ^ 26) {i j : ℕ}
    (hi : i < 8) (hj : j < 8) (h : off (pteAddress ptes p) i = off (pteAddress ptes q) j) :
    p = q := by
  rw [pteAddress_eq_off, pteAddress_eq_off, off_off, off_off] at h
  have heq := off_injective ptes (by omega) (by omega) h
  have hpteg : p.pteg.toNat = q.pteg.toNat := by omega
  have hslot : p.slot.val = q.slot.val := by omega
  obtain ⟨pteg, slot⟩ := p
  obtain ⟨pteg', slot'⟩ := q
  obtain rfl := eq_of_toNat_eq hpteg
  obtain rfl := Fin.eq_of_val_eq hslot
  rfl

theorem homePteg_lt (hsup : env.Supported) (vsid vaddr h : BitVec 32) :
    (homePteg env vsid vaddr h).toNat < 2 ^ 26 := by
  obtain ⟨n, -, hn, -, -, -, hmask, -⟩ := hsup.sizes
  obtain ⟨hprimary, hsecondary⟩ := hashGetPrimary_le hsup (fqvaToHash1 vsid vaddr)
  rw [homePteg]
  split
  · omega
  · omega

end Addresses

/-! ## Words of entries -/

variable {pte phys mode : BitVec 32} {second : Bool} {op : BootOp}

section Words

variable {vsid vsid' h h' api api' : BitVec 32}

/-- The H bit is a field of its own. -/
theorem pte0New_congr (heq : pte0New 1#32 vsid h api = pte0New 1#32 vsid' h api') (k : BitVec 32) :
    pte0New 1#32 vsid k api = pte0New 1#32 vsid' k api' := by
  refine eq_of_getLsbD_eq fun i hi => ?_
  have hbit := congrArg (·.getLsbD i) heq
  simp only [pte0New, getLsbD_or, getLsbD_valtofld] at hbit ⊢
  grind

theorem hBit_injective {second' : Bool}
    (heq : pte0New 1#32 vsid (hBit second) api = pte0New 1#32 vsid' (hBit second') api') :
    second = second' := by
  have hh := congrArg (fun w => (Pte.mk w 0#32).getH) heq
  simp only [getH_pte0New] at hh
  revert hh
  cases second <;> cases second' <;> decide

/-- The entry that `map_one_page` makes in a primary group. -/
theorem setH_newPte0 (vaddr w1 : BitVec 32) :
    ((Pte.mk (newPte0 vaddr) w1).setH (hBit false)).w0
      = pte0New 1#32 (kernelVsid vaddr) hPrimary (vaddrToApi vaddr) := by
  rw [Pte.setH, newPte0, hBit_false, hPrimary]
  refine eq_of_getLsbD_eq fun i hi => ?_
  simp only [deposit, pte0New, getLsbD_or, getLsbD_and, getLsbD_not, getLsbD_shiftLeft,
    getLsbD_valtofld, getLsbD_valmask]
  grind

end Words

/-! ## A step -/

section Steps

variable {env : MmuEnv} {ptes vsid vaddr : BitVec 32} {m m' : Mem 32} {p q : PteAddr}

theorem Translates.pteg_lt (hsup : env.Supported) (h : Translates env ptes m vsid vaddr p) :
    p.pteg.toNat < 2 ^ 26 := by
  obtain ⟨second, hpteg, -⟩ := h
  rw [hpteg]
  exact homePteg_lt hsup _ _ _

theorem Translates.valid (h : Translates env ptes m vsid vaddr p) :
    (m.load32 (pteAddress ptes p)).getLsbD 31 = true := by
  obtain ⟨second, -, hload⟩ := h
  rw [hload]
  exact getLsbD_pte0New_valid

theorem Translates.congr (heq : m'.load32 (pteAddress ptes p) = m.load32 (pteAddress ptes p))
    (h : Translates env ptes m vsid vaddr p) : Translates env ptes m' vsid vaddr p := by
  obtain ⟨second, hpteg, hload⟩ := h
  exact ⟨second, hpteg, heq.trans hload⟩

/-- Two searches that find one entry in their primary groups find the same everywhere. -/
theorem Translates.transfer {vsid' vaddr' : BitVec 32}
    (hhome : homePteg env vsid' vaddr' hPrimary = homePteg env vsid vaddr hPrimary)
    (hword : pte0New 1#32 vsid' hPrimary (vaddrToApi vaddr')
      = pte0New 1#32 vsid hPrimary (vaddrToApi vaddr))
    (h : Translates env ptes m vsid' vaddr' p) : Translates env ptes m vsid vaddr p := by
  obtain ⟨second, hpteg, hload⟩ := h
  refine ⟨second, ?_, hload.trans (pte0New_congr hword _)⟩
  rw [hpteg]
  cases second with
  | false => exact hhome
  | true =>
    rw [hBit_true, homePteg_secondary, homePteg_secondary]
    congr 1

/-- Only entries that were written can have got a double. -/
theorem atMostOne_iff_touched {T : PteAddr → Prop}
    (hframe : ∀ p, ¬ T p → m'.load32 (pteAddress ptes p) = m.load32 (pteAddress ptes p))
    (hone : AtMostOne env ptes m) : AtMostOne env ptes m' ↔ ∀ p, T p → Alone env ptes m' p := by
  constructor
  · intro hone' p _ vsid vaddr q hp hq
    exact hone' vsid vaddr q p hq hp
  · intro halone vsid vaddr p q hp hq
    by_cases htp : T p
    · exact (halone p htp vsid vaddr q hp hq).symm
    · by_cases htq : T q
      · exact halone q htq vsid vaddr p hq hp
      · exact hone vsid vaddr p q (hp.congr (hframe p htp).symm) (hq.congr (hframe q htq).symm)

theorem writtenByte_cons (w : BitVec 32) (ws : List (BitVec 32)) (k : ℕ) :
    writtenByte (w :: ws) k
      = if k < 4 then some (w.extractLsb' (24 - 8 * k) 8) else writtenByte ws (k - 4) := by
  rw [writtenByte, writtenByte]
  split
  next hk => rw [Nat.div_eq_of_lt hk, Nat.mod_eq_of_lt hk, getElem?_cons_zero, map_some]
  next hk =>
    obtain ⟨j, rfl⟩ := Nat.exists_eq_add_of_le (Nat.le_of_not_lt hk)
    rw [Nat.add_sub_cancel_left, Nat.add_div_left j (by decide), Nat.add_mod_left,
      getElem?_cons_succ]

theorem bootDeletePte_apply (m : Mem 32) (pte x : BitVec 32) : bootDeletePte m pte x =
    (writtenByte [m.load32 pte &&& ~~~pte0VFldMask] (x - pte).toNat).getD (m x) := by
  rw [bootDeletePte, store32_apply _ (by decide), writtenByte_cons]
  split
  · rfl
  · rfl

theorem bootUpdatePte_apply (m : Mem 32) (pte : BitVec 32) (new : Pte) (x : BitVec 32) :
    bootUpdatePte m pte new x = (writtenByte [new.w0, new.w1] (x - pte).toNat).getD (m x) := by
  rw [bootUpdatePte, store32_apply _ (by decide), writtenByte_cons]
  split
  · rfl
  next hk =>
    have hsub : (x - off pte 4).toNat = (x - pte).toNat - 4 := by
      rw [off]
      bv_omega
    rw [store32_apply _ (by decide), hsub, writtenByte_cons]
    split
    · rfl
    · rfl

/-- Entries that are not touched are left alone. -/
theorem wordWith_of_not_touches {ws : List (BitVec 32)} (h : ¬ Touches ptes pte (4 * ws.length) p) :
    wordWith ptes m pte ws p = m.load32 (pteAddress ptes p) := by
  refine load32_congr fun i hi => ?_
  have hnone : writtenByte ws (off (pteAddress ptes p) i - pte).toNat = none := by
    rw [writtenByte, map_eq_none_iff, List.getElem?_eq_none_iff]
    by_contra! hlt
    exact h ⟨i, hi, (off (pteAddress ptes p) i - pte).toNat, by omega, (off_sub _ _).symm⟩
  rw [hnone, getD_none]

section Written

variable {ws : List (BitVec 32)} (hword : ∀ x, m' x = (writtenByte ws (x - pte).toNat).getD (m x))

include hword

theorem load32_written (p : PteAddr) :
    m'.load32 (pteAddress ptes p) = wordWith ptes m pte ws p := by
  rw [wordWith, ← funext hword]

theorem atMostOne_iff_alone (hone : AtMostOne env ptes m) : AtMostOne env ptes m' ↔
    ∀ p, Touches ptes pte (4 * ws.length) p → Alone env ptes m' p := by
  refine atMostOne_iff_touched (fun p hp => ?_) hone
  rw [load32_written hword, wordWith_of_not_touches hp]

theorem atMostOne_iff_spares (hone : AtMostOne env ptes m) :
    AtMostOne env ptes m' ↔ Spares env ptes m pte ws := by
  rw [atMostOne_iff_alone hword hone]
  constructor
  · intro halone vsid vaddr p q hp hne hfit
    rw [← load32_written hword] at hfit
    have hq : ¬ Translates env ptes m' vsid vaddr q :=
      fun hq => hne (halone p hp vsid vaddr q hfit hq)
    rw [Translates, load32_written hword] at hq
    refine ⟨fun htouch => ?_, fun _ => hq⟩
    rwa [wordWith_of_not_touches htouch] at hq
  · intro hspares p hp vsid vaddr q hfit hfit'
    by_contra hne
    rw [Translates, load32_written hword] at hfit hfit'
    obtain ⟨hout, hin⟩ := hspares vsid vaddr p q hp hne hfit
    by_cases htouch : Touches ptes pte (4 * ws.length) q
    · exact hin htouch hfit'
    · rw [wordWith_of_not_touches htouch] at hfit'
      exact hout htouch hfit'

end Written

/-- Writing an entry of the table touches no other one. -/
theorem touches_pteAddress (hp : p.pteg.toNat < 2 ^ 26) (hq : q.pteg.toNat < 2 ^ 26) {n : ℕ}
    (hn : n ≤ 8) (h : Touches ptes (pteAddress ptes q) n p) : p = q := by
  obtain ⟨i, hi, j, hj, heq⟩ := h
  exact off_pteAddress_injective hp hq (by omega) (by omega) heq

theorem mem_groupSlots {pteg : BitVec 32} (h : pte ∈ groupSlots (ptes + (pteg <<< 6))) :
    ∃ slot, pte = pteAddress ptes ⟨pteg, slot⟩ := by
  rw [groupSlots, List.mem_map] at h
  obtain ⟨i, hi, rfl⟩ := h
  rw [List.mem_range] at hi
  exact ⟨⟨i, hi⟩, rfl⟩

theorem alone_of_not_valid (h : (m.load32 (pteAddress ptes p)).getLsbD 31 = false) :
    Alone env ptes m p := by
  intro vsid vaddr q hp _
  rw [hp.valid] at h
  cases h

theorem forall_touches_iff (hsup : env.Supported) (hq : q.pteg.toNat < 2 ^ 26) {n : ℕ} (hn : n ≤ 8)
    (hpos : 0 < n) :
    (∀ p, Touches ptes (pteAddress ptes q) n p → Alone env ptes m p) ↔ Alone env ptes m q := by
  constructor
  · intro h
    exact h q ⟨0, by decide, 0, hpos, rfl⟩
  · intro hq' p hp
    by_cases hlt : p.pteg.toNat < 2 ^ 26
    · rwa [touches_pteAddress hlt hq hn hp]
    · intro vsid vaddr r hr _
      exact absurd (hr.pteg_lt hsup) hlt

/-- An entry that is made in a primary group is alone if the page had none. -/
theorem alone_new_iff (hsup : env.Supported) (hq : q.pteg = homePteg env vsid vaddr hPrimary)
    (hdead : (m.load32 (pteAddress ptes q)).getLsbD 31 = false)
    (hnew : m'.load32 (pteAddress ptes q) = pte0New 1#32 vsid hPrimary (vaddrToApi vaddr))
    (hframe : ∀ p, p.pteg.toNat < 2 ^ 26 → p ≠ q →
      m'.load32 (pteAddress ptes p) = m.load32 (pteAddress ptes p)) :
    Alone env ptes m' q ↔ ∀ p, ¬ Translates env ptes m vsid vaddr p := by
  constructor
  · intro halone p hp
    have hne : p ≠ q := by
      rintro rfl
      rw [hp.valid] at hdead
      cases hdead
    refine hne (halone vsid vaddr p ⟨false, hq, hnew⟩ (hp.congr ?_))
    exact hframe p (hp.pteg_lt hsup) hne
  · intro hnone vsid' vaddr' p hq' hp
    by_contra hne
    obtain ⟨second, hpteg, hload⟩ := hq'
    rw [hnew] at hload
    obtain rfl : false = second := hBit_injective hload
    refine hnone p (Translates.transfer (hpteg.symm.trans hq) hload.symm ?_)
    exact hp.congr (hframe p (hp.pteg_lt hsup) hne).symm

end Steps

section Calls

variable {env : MmuEnv} {ptes vaddr : BitVec 32} {m m' : Mem 32}

/-- The frame number always fits. -/
theorem not_pte1RpnValMask_lt (phys : BitVec 32) : ¬ pte1RpnValMask < phys >>> 12 := by
  rw [show pte1RpnValMask = 0xFFFFF#32 by decide, BitVec.not_lt, BitVec.le_def,
    toNat_ushiftRight, Nat.shiftRight_eq_div_pow]
  bv_omega

theorem quiet_map
    (hfind : mapFind m (newPte0 vaddr) (bootSlots env ptes vaddr) = some (some (pte, second))) :
    Quiet env ptes m (.map phys vaddr mode) ↔
      if second then
        let new := (newPte phys vaddr mode).setH hSecondary
        Spares env ptes m pte [new.w0, new.w1]
      else ∀ p, ¬ Translates env ptes m (kernelVsid vaddr) vaddr p := by
  constructor
  · intro hquiet
    exact hquiet pte second hfind
  · intro hcase pte' second' hfind'
    cases hfind.symm.trans hfind'
    exact hcase

theorem quiet_of_none (h : op.apply env ptes m = none) : Quiet env ptes m op := by
  cases op with
  | map phys vaddr mode =>
    intro pte second hfind
    rw [BootOp.apply, mapOnePage, if_neg (not_pte1RpnValMask_lt phys), hfind] at h
    cases h
  | unmap vaddr => cases h

variable (hsup : env.Supported) (hone : AtMostOne env ptes m)

include hsup hone

theorem map_quiet_iff (h : mapOnePage env ptes m phys vaddr mode = some m') :
    AtMostOne env ptes m' ↔ Quiet env ptes m (.map phys vaddr mode) := by
  rw [mapOnePage, if_neg (not_pte1RpnValMask_lt phys)] at h
  split at h
  · cases h
  next hfind =>
    cases h
    refine iff_of_true hone fun pte second hfind' => ?_
    cases hfind.symm.trans hfind'
  next pte second hfind =>
    cases h
    have hword := bootUpdatePte_apply m pte ((newPte phys vaddr mode).setH (hBit second))
    rw [quiet_map hfind]
    cases second with
    | true => exact atMostOne_iff_spares hword hone
    | false =>
      rw [if_neg Bool.false_ne_true, atMostOne_iff_alone hword hone]
      obtain ⟨slot, rfl⟩ := mem_groupSlots (mem_bootSlots_first env ptes (mapFind_mem hfind))
      have hlt := homePteg_lt hsup (kernelVsid vaddr) vaddr hPrimary
      refine (forall_touches_iff hsup hlt (Nat.le_refl 8) (by decide)).trans ?_
      have hdead := (mapFind_eq_some_iff.mp hfind).2
      rw [Pte.isValid_eq_getLsbD] at hdead
      refine alone_new_iff hsup rfl hdead ?_ ?_
      · rw [bootUpdatePte, load32_store32 _ (by decide)]
        exact setH_newPte0 vaddr _
      · intro p hp hne
        rw [load32_written hword, wordWith_of_not_touches]
        intro htouch
        exact hne (touches_pteAddress hp hlt (Nat.le_refl 8) htouch)

theorem unmap_quiet_iff (vaddr : BitVec 32) :
    AtMostOne env ptes (unmapOnePage env ptes m vaddr) ↔ Quiet env ptes m (.unmap vaddr) := by
  rw [Quiet, unmapOnePage]
  cases hfind : unmapFind env ptes m vaddr with
  | none =>
    simp only [unmapFound, reduceCtorEq, false_implies, implies_true, iff_true]
    exact hone
  | some found =>
    obtain ⟨pte, second⟩ := found
    simp only [unmapFound, some_inj, Prod.mk.injEq, and_imp, forall_eq']
    have hword := bootDeletePte_apply m pte
    cases second with
    | true =>
      simp only [true_implies]
      exact atMostOne_iff_spares hword hone
    | false =>
      simp only [Bool.false_eq_true, false_implies, iff_true]
      rw [atMostOne_iff_alone hword hone]
      rw [unmapFind, keyFind] at hfind
      have hmem := mem_bootSlots_first env ptes (mem_of_find?_eq_some hfind)
      obtain ⟨slot, rfl⟩ := mem_groupSlots hmem
      refine (forall_touches_iff hsup (homePteg_lt hsup _ _ _) (by decide : 4 ≤ 8)
        (by decide)).mpr ?_
      apply alone_of_not_valid
      rw [bootDeletePte, load32_store32 _ (by decide)]
      exact getLsbD_clear_valid _

theorem quiet_iff (h : op.apply env ptes m = some m') : AtMostOne env ptes m' ↔
    Quiet env ptes m op := by
  cases op with
  | map phys vaddr mode => exact map_quiet_iff hsup hone h
  | unmap vaddr =>
    cases h
    exact unmap_quiet_iff hsup hone vaddr

end Calls

/-- Two pages of one group; the first is unmapped, and the second mapped once more. -/
def remapOps : List BootOp :=
  [.map 0#32 0#32 0#32, .map 0x1000#32 0x400000#32 0#32, .unmap 0#32,
    .map 0x1000#32 0x400000#32 0#32]

theorem not_translates_cleared (env : MmuEnv) (ptes vsid vaddr : BitVec 32) (p : PteAddr) :
    ¬ Translates env ptes (fun _ => 0#8) vsid vaddr p := by
  intro h
  have hzero : load32 (fun _ => 0#8) (pteAddress ptes p) = 0#32 :=
    (by decide : 0#8 ++ 0#8 ++ 0#8 ++ 0#8 = 0#32)
  have hvalid := h.valid
  rw [hzero, getLsbD_zero] at hvalid
  cases hvalid

theorem forall_not_translates_iff {env : MmuEnv} {ptes vsid vaddr : BitVec 32} {m : Mem 32} :
    (∀ p, ¬ Translates env ptes m vsid vaddr p) ↔ ∀ second slot,
      m.load32 (pteAddress ptes ⟨homePteg env vsid vaddr (hBit second), slot⟩)
        ≠ pte0New 1#32 vsid (hBit second) (vaddrToApi vaddr) := by
  constructor
  · intro hnone second slot hload
    exact hnone _ ⟨second, rfl, hload⟩
  · rintro hload ⟨pteg, slot⟩ ⟨second, rfl, hfit⟩
    exact hload second slot hfit

/-- A check that a call stays in the primary group, and is for a page without an entry. -/
def quietCall (env : MmuEnv) (ptes : BitVec 32) (m : Mem 32) : BootOp → Bool
  | .map _ vaddr _ =>
    (mapFind m (newPte0 vaddr) (bootSlots env ptes vaddr)).all fun found => found.all fun slot =>
      !slot.2 && decide (∀ second slot,
        m.load32 (pteAddress ptes ⟨homePteg env (kernelVsid vaddr) vaddr (hBit second), slot⟩)
          ≠ pte0New 1#32 (kernelVsid vaddr) (hBit second) (vaddrToApi vaddr))
  | .unmap vaddr => (unmapFind env ptes m vaddr).all fun slot => !slot.2

def quietRun (env : MmuEnv) (ptes : BitVec 32) (m : Mem 32) : List BootOp → Bool
  | [] => true
  | op :: ops =>
    quietCall env ptes m op && (op.apply env ptes m).all fun m' => quietRun env ptes m' ops

theorem atEachCall_of_quietRun {env : MmuEnv} {ptes : BitVec 32} (m : Mem 32) (ops : List BootOp)
    (h : quietRun env ptes m ops = true) : AtEachCall env ptes (Quiet env ptes) m ops := by
  induction ops generalizing m with
  | nil => trivial
  | cons op ops ih =>
    rw [quietRun, Bool.and_eq_true] at h
    obtain ⟨hop, hrest⟩ := h
    refine ⟨?_, fun m' hm' => ih m' ?_⟩
    · cases op with
      | map phys vaddr mode =>
        intro pte second hfind
        simp only [quietCall, hfind, all_some, Bool.and_eq_true, Bool.not_eq_true',
          decide_eq_true_eq] at hop
        obtain ⟨rfl, hload⟩ := hop
        exact forall_not_translates_iff.mpr hload
      | unmap vaddr =>
        intro pte hfind
        simp [quietCall, hfind] at hop
    · rw [hm'] at hrest
      exact hrest

end Polaris
