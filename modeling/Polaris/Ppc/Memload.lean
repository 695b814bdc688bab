import Polaris.Ppc.Mmu

/-!
# Loading a translation and looking it up

Whatever a load does to find room, it only takes entries out of the table before it writes its own,
so the lookup that follows finds the entry that was written.  Its frame is the one `ppcmmu_mempte`
has put there.

## Main definitions

* `Mmu.Fewer` — a table with some of the entries of another.
* `Mmu.Maps` — the table translates an address to a frame.
-/

namespace Polaris

open Bitfield Function List Option
open BitVec hiding cons getLsbD_extract

/-! ## Fields -/

/-- The entry a load writes is the one a lookup compares with. -/
theorem deposit_pte0New (v vsid vsid' h h' api : BitVec 32) :
    deposit (deposit (pte0New v vsid h api) vsid' 7 24) h' 6 1 = pte0New v vsid' h' api := by
  refine eq_of_getLsbD_eq fun i hi => ?_
  simp only [pte0New, getLsbD_deposit, getLsbD_or, getLsbD_valtofld, hi, decide_true, Bool.true_and]
  grind

theorem pte0New_extract_h (v vsid h api : BitVec 32) :
    pte0New v vsid (extract (pte0New v vsid h api) 6 1) api = pte0New v vsid h api := by
  refine eq_of_getLsbD_eq fun i hi => ?_
  simp only [pte0New, getLsbD_extract, getLsbD_or, getLsbD_valtofld, hi, decide_true, Bool.true_and]
  grind

/-- The hash does not see the bits of a VSID that the field cuts off. -/
theorem fqvaToHash1_extract (v vsid vsid' h api vaddr : BitVec 32) :
    fqvaToHash1 (extract (deposit (pte0New v vsid h api) vsid' 7 24) 7 24) vaddr
      = fqvaToHash1 vsid' vaddr := by
  have hmask : 0x7FFFF#32 = valmask 32 19 := rfl
  rw [fqvaToHash1, fqvaToHash1]
  congr 1
  refine eq_of_getLsbD_eq fun i hi => ?_
  simp only [pte0New, hmask, getLsbD_and, getLsbD_valmask, getLsbD_extract, getLsbD_deposit,
    getLsbD_or, getLsbD_valtofld, hi, decide_true, Bool.true_and]
  grind

variable {pfn vsid hbit vaddr : BitVec 32} {p : PteAddr} {fuel : ℕ} {hat : HatId}
  {r : Option PteAddr}
  {mml : Option ℕ}

/-- A frame that fits into its field is read back, whatever is written to the other fields. -/
theorem extract_rpn (hfits : pfn ≤ pte1RpnValMask) (xpn r c wimg wimg' x pp old : BitVec 32) :
    extract (deposit (pte1New pfn xpn r c wimg x pp) wimg' 3 4 ||| (old &&& refchgMask)) 12 20
      = pfn := by
  have hhigh (i : ℕ) (hi : 20 ≤ i) : pfn.getLsbD i = false := by
    refine Nat.testBit_lt_two_pow (Nat.lt_of_lt_of_le (m := 2 ^ 20) ?_
      (Nat.pow_le_pow_right (by omega) hi))
    rw [le_def, pte1RpnValMask, toNat_valmask (by omega), Nat.min_eq_left (by omega)] at hfits
    omega
  refine eq_of_getLsbD_eq fun i hi => ?_
  simp only [pte1New, refchgMask, getLsbD_extract, getLsbD_deposit, getLsbD_or,
    getLsbD_and, getLsbD_shiftLeft, getLsbD_valmask, getLsbD_valtofld]
  grind

theorem extract_rpn_new (hfits : pfn ≤ pte1RpnValMask) (xpn r c wimg wimg' x pp : BitVec 32) :
    extract (deposit (pte1New pfn xpn r c wimg x pp) wimg' 3 4) 12 20 = pfn := by
  have := extract_rpn hfits xpn r c wimg wimg' x pp 0#32
  simpa using this

theorem extract_v (vsid h api : BitVec 32) : extract (pte0New 1#32 vsid h api) 31 1 = 1#32 := by
  have hone : 1#32 = valmask 32 1 := rfl
  refine eq_of_getLsbD_eq fun i hi => ?_
  simp only [pte0New, hone, getLsbD_extract, getLsbD_or, getLsbD_valtofld, getLsbD_valmask]
  grind

/-- An entry that has been invalidated matches nothing. -/
theorem invalid_ne_pte0New (w vsid h api : BitVec 32) :
    w &&& ~~~pte0VFldMask ≠ pte0New 1#32 vsid h api := by
  have hmask : pte0VFldMask.getLsbD 31 = true := by decide
  have hleft : (w &&& ~~~pte0VFldMask).getLsbD 31 = false := by
    simp only [getLsbD_and, getLsbD_not, hmask, Bool.not_true, Bool.and_false]
  have hright : (pte0New 1#32 vsid h api).getLsbD 31 = true := by
    simp only [pte0New, getLsbD_or, getLsbD_valtofld]
    simp
  intro heq
  rw [heq, hright] at hleft
  cases hleft

/-- The entries of the two groups differ. -/
theorem pte0New_h_ne (v vsid api : BitVec 32) :
    pte0New v vsid hPrimary api ≠ pte0New v vsid hSecondary api := by
  intro heq
  have hbit := congrArg (·.getLsbD 6) heq
  simp only [pte0New, hPrimary, hSecondary, getLsbD_or, getLsbD_valtofld] at hbit
  simp at hbit

theorem vsidOf_eq_add (range vaddr : BitVec 32) : (range <<< 4) + (vaddr >>> 28)
    = vsidOf range vaddr := by
  rw [vsidOf, add_eq_or_of_and_eq_zero]
  refine eq_of_getLsbD_eq fun i hi => ?_
  simp only [getLsbD_and, getLsbD_shiftLeft, getLsbD_ushiftRight, getLsbD_zero]
  by_cases h : i < 4
  · simp [h]
  · rw [getLsbD_of_ge vaddr _ (by omega), Bool.and_false]

/-! ## Making room -/

/-- Every entry of `s'` is one of `s`, or not valid. -/
structure Mmu.Fewer (s s' : Mmu) : Prop where
  vsidr : s'.vsidr = s.vsidr
  pte : ∀ p, s'.pte p = s.pte p ∨ ∃ w, (s'.pte p).w0 = w &&& ~~~pte0VFldMask

namespace Mmu.Fewer

variable {s s' s'' : Mmu}

theorem refl (s : Mmu) : s.Fewer s := ⟨rfl, fun _ => .inl rfl⟩

theorem trans (h : s.Fewer s') (h' : s'.Fewer s'') : s.Fewer s'' := by
  refine ⟨h'.vsidr.trans h.vsidr, fun p => ?_⟩
  rcases h'.pte p with heq | hinv
  · rw [heq]
    exact h.pte p
  · exact .inr hinv

/-- What matches nothing in `s` matches nothing in `s'`. -/
theorem w0_ne (h : s.Fewer s') {api : BitVec 32} (hne : pte0New 1#32 vsid hbit api ≠ (s.pte p).w0) :
    pte0New 1#32 vsid hbit api ≠ (s'.pte p).w0 := by
  rcases h.pte p with heq | ⟨w, hw⟩
  · rwa [heq]
  · rw [hw]
    exact (invalid_ne_pte0New w vsid hbit api).symm

end Mmu.Fewer

section Room

variable {env : MmuEnv} {s s' : Mmu} {pteg : BitVec 32}

theorem fewer_setHme (s : Mmu) (p : PteAddr) (hme : Hme) : s.Fewer (s.setHme p hme) :=
  ⟨rfl, fun _ => .inl rfl⟩

theorem fewer_ppcmmuPteunload (h : ppcmmuPteunload env s p = some s') : s.Fewer s' := by
  have hpte : s'.vsidr = s.vsidr ∧
      s'.pte = update s.pte p { s.pte p with w0 := (s.pte p).w0 &&& ~~~pte0VFldMask } := by
    simp only [ppcmmuPteunload] at h
    split at h
    · split at h
      · obtain rfl := some.inj h
        exact ⟨rfl, rfl⟩
      · cases h
    · obtain rfl := some.inj h
      exact ⟨rfl, rfl⟩
  refine ⟨hpte.1, fun q => ?_⟩
  rw [hpte.2]
  by_cases hq : q = p
  · subst hq
    rw [update_self]
    exact .inr ⟨_, rfl⟩
  · rw [update_of_ne hq]
    exact .inl rfl

theorem pteg_of_find {f : PteAddr → Bool}
    (h : ((finRange 8).map (PteAddr.mk pteg)).find? f = some p) : p.pteg = pteg := by
  obtain ⟨i, -, rfl⟩ := mem_map.mp (mem_of_find?_eq_some h)
  rfl

theorem findFreePte_spec {rep : ℕ} (h : findFreePte env fuel rep s pteg = some (r, s')) :
    s.Fewer s' ∧ ∀ p, r = some p → p.pteg = pteg := by
  induction fuel generalizing rep s with
  | zero => cases h
  | succ fuel ih =>
    rw [findFreePte] at h
    split at h
    next p hfree =>
      obtain ⟨rfl, rfl⟩ := Prod.mk.inj (some.inj h)
      exact ⟨.refl s, fun q hq => some.inj hq ▸ pteg_of_find hfree⟩
    next =>
      split at h
      next p _ =>
        split at h
        next =>
          obtain ⟨t, hunload, hrest⟩ := bind_eq_some_iff.mp h
          obtain ⟨hfewer, hpteg⟩ := ih hrest
          exact ⟨(fewer_ppcmmuPteunload hunload).trans hfewer, hpteg⟩
        next => exact ih h
      next =>
        split at h
        next =>
          obtain ⟨rfl, rfl⟩ := Prod.mk.inj (some.inj h)
          exact ⟨.refl s, fun q hq => by cases hq⟩
        next => exact ih h

theorem fewer_stealHere (h : stealHere env hat s p = some s') : s.Fewer s' := by
  obtain ⟨t, hunload, rfl⟩ := map_eq_some_iff.mp h
  have hfewer : s.Fewer t := by
    split at hunload
    next => exact (fewer_setHme s p _).trans (fewer_ppcmmuPteunload hunload)
    next => exact some.inj hunload ▸ fewer_setHme s p _
  exact hfewer.trans (fewer_setHme _ _ _)

theorem stealScan_spec {slots : List (Fin 8)} {again again' : Bool}
    (h : stealScan env hat mml pteg slots again s = some (r, again', s')) :
    s.Fewer s' ∧ ∀ p, r = some p → p.pteg = pteg := by
  induction slots generalizing again s with
  | nil =>
    obtain ⟨rfl, -, rfl⟩ := some.inj h
    exact ⟨.refl _, fun q hq => by cases hq⟩
  | cons i rest ih =>
    simp only [stealScan] at h
    split at h
    next => exact ih h
    next =>
      split at h
      next => exact ih h
      next =>
        split at h
        next =>
          obtain ⟨hfewer, hpteg⟩ := ih h
          exact ⟨(fewer_setHme _ _ _).trans hfewer, hpteg⟩
        next =>
          split at h
          next => exact ih h
          next =>
            obtain ⟨t, hsteal, heq⟩ := map_eq_some_iff.mp h
            obtain ⟨rfl, -, rfl⟩ := heq
            exact ⟨fewer_stealHere hsteal, fun q hq => by cases hq; rfl⟩

theorem stealPte_spec (h : stealPte env hat mml fuel s pteg = some (r, s')) :
    s.Fewer s' ∧ ∀ p, r = some p → p.pteg = pteg := by
  induction fuel generalizing s with
  | zero => cases h
  | succ fuel ih =>
    rw [stealPte] at h
    split at h
    next => cases h
    next p _ t hscan =>
      obtain ⟨rfl, rfl⟩ := Prod.mk.inj (some.inj h)
      exact stealScan_spec hscan
    next again t hscan =>
      obtain ⟨hfewer, hnone⟩ := stealScan_spec hscan
      split at h
      next =>
        obtain ⟨hfewer', hpteg⟩ := ih h
        exact ⟨hfewer.trans hfewer', hpteg⟩
      next =>
        obtain ⟨rfl, rfl⟩ := Prod.mk.inj (some.inj h)
        exact ⟨hfewer, hnone⟩

/-- The place is in the group its H bit says. -/
def MmuEnv.Place (env : MmuEnv) (pteg : BitVec 32) (p : PteAddr) (hbit : BitVec 32) : Prop :=
  p.pteg = pteg ∧ hbit = hPrimary ∨ p.pteg = hashGetSecondary env pteg ∧ hbit = hSecondary

/-- Nothing but the loss of entries has made a place free. -/
theorem pickPte_spec (h : pickPte env fuel s hat mml pteg = some (p, hbit, s')) :
    s.Fewer s' ∧ env.Place pteg p hbit := by
  simp only [pickPte] at h
  obtain ⟨⟨r₁, s₁⟩, h₁, h⟩ := bind_eq_some_iff.mp h
  obtain ⟨hfewer₁, hpteg₁⟩ := findFreePte_spec h₁
  cases r₁ with
  | some q =>
    obtain ⟨rfl, rfl, rfl⟩ := some.inj h
    exact ⟨hfewer₁, .inl ⟨hpteg₁ _ rfl, rfl⟩⟩
  | none =>
    obtain ⟨⟨r₂, s₂⟩, h₂, h⟩ := bind_eq_some_iff.mp h
    obtain ⟨hfewer₂, hpteg₂⟩ := findFreePte_spec h₂
    have hfewer₂ := hfewer₁.trans hfewer₂
    cases r₂ with
    | some q =>
      obtain ⟨rfl, rfl, rfl⟩ := some.inj h
      exact ⟨hfewer₂, .inr ⟨hpteg₂ _ rfl, rfl⟩⟩
    | none =>
      obtain ⟨⟨r₃, s₃⟩, h₃, h⟩ := bind_eq_some_iff.mp h
      obtain ⟨hfewer₃, hpteg₃⟩ := stealPte_spec h₃
      have hfewer₃ := hfewer₂.trans hfewer₃
      cases r₃ with
      | some q =>
        obtain ⟨rfl, rfl, rfl⟩ := some.inj h
        exact ⟨hfewer₃, .inl ⟨hpteg₃ _ rfl, rfl⟩⟩
      | none =>
        obtain ⟨⟨r₄, s₄⟩, h₄, h⟩ := bind_eq_some_iff.mp h
        obtain ⟨hfewer₄, hpteg₄⟩ := stealPte_spec h₄
        cases r₄ with
        | some q =>
          obtain ⟨rfl, rfl, rfl⟩ := some.inj h
          exact ⟨hfewer₃.trans hfewer₄, .inr ⟨hpteg₄ _ rfl, rfl⟩⟩
        | none => cases h

end Room

/-! ## Lookup -/

section Lookup

variable {env : MmuEnv} {s s' : Mmu} {pteg vsid api hbit : BitVec 32} {p : PteAddr}

theorem findPte_eq_some (h : findPte s pteg vsid api hbit = some p) :
    p.pteg = pteg ∧ pte0New 1#32 vsid hbit api = (s.pte p).w0 :=
  ⟨pteg_of_find h, by simpa using find?_some h⟩

theorem findPte_eq_none :
    findPte s pteg vsid api hbit = none ↔
      ∀ p : PteAddr, p.pteg = pteg → pte0New 1#32 vsid hbit api ≠ (s.pte p).w0 := by
  simp only [findPte, List.find?_eq_none, List.mem_map, List.mem_finRange, true_and,
    decide_eq_true_eq]
  constructor
  · rintro h ⟨_, i⟩ rfl
    exact h _ ⟨i, rfl⟩
  · rintro h _ ⟨i, rfl⟩
    exact h _ rfl

/-- The only entry of a group that matches is found. -/
theorem findPte_of_unique (hpteg : p.pteg = pteg) (hp : pte0New 1#32 vsid hbit api = (s.pte p).w0)
    (hne : ∀ q : PteAddr, q ≠ p → q.pteg = pteg → pte0New 1#32 vsid hbit api ≠ (s.pte q).w0) :
    findPte s pteg vsid api hbit = some p := by
  cases hfind : findPte s pteg vsid api hbit with
  | none => exact absurd hp (findPte_eq_none.mp hfind p hpteg)
  | some q =>
    obtain ⟨hq, hmatch⟩ := findPte_eq_some hfind
    by_contra hqp
    exact hne q (fun heq => hqp (by rw [heq])) hq hmatch

/-- Only the first words of the entries matter. -/
theorem fqvaPtefind_congr (h : ∀ q, (s'.pte q).w0 = (s.pte q).w0) (vaddr : BitVec 32) :
    fqvaPtefind env s' vsid vaddr = fqvaPtefind env s vsid vaddr := by
  simp only [fqvaPtefind, findPte, h]

/-- An entry that is found has the address in it. -/
theorem fqvaPtefind_eq_some (h : fqvaPtefind env s vsid vaddr = some p) :
    ∃ hbit, (s.pte p).w0 = pte0New 1#32 vsid hbit (vaddrToApi vaddr) := by
  rcases or_eq_some_iff.mp h with h | ⟨-, h⟩
  · exact ⟨hPrimary, (findPte_eq_some h).2.symm⟩
  · exact ⟨hSecondary, (findPte_eq_some h).2.symm⟩

theorem fqvaPtefind_eq_none :
    fqvaPtefind env s vsid vaddr = none ↔
      findPte s (hashGetPrimary env (fqvaToHash1 vsid vaddr)) vsid (vaddrToApi vaddr) hPrimary
        = none ∧
      findPte s (hashGetSecondary env (hashGetPrimary env (fqvaToHash1 vsid vaddr))) vsid
        (vaddrToApi vaddr) hSecondary = none :=
  or_eq_none_iff

/-- An entry that is written where there was none is found. -/
theorem fqvaPtefind_update {e : Pte} (hnone : fqvaPtefind env s vsid vaddr = none)
    (hfewer : s.Fewer s') (hplace : env.Place (hashGetPrimary env (fqvaToHash1 vsid vaddr)) p hbit)
    (he : e.w0 = pte0New 1#32 vsid hbit (vaddrToApi vaddr)) :
    fqvaPtefind env (s'.setPte p e) vsid vaddr = some p := by
  obtain ⟨hprim, hsec⟩ := fqvaPtefind_eq_none.mp hnone
  rw [findPte_eq_none] at hprim hsec
  have hself : (s'.setPte p e).pte p = e := by simp [Mmu.setPte]
  have hother {q : PteAddr} (hq : q ≠ p) : (s'.setPte p e).pte q = s'.pte q := by
    simp [Mmu.setPte, hq]
  refine or_eq_some_iff.mpr ?_
  rcases hplace with ⟨hpteg, rfl⟩ | ⟨hpteg, rfl⟩
  · refine .inl (findPte_of_unique hpteg (by rw [hself, he]; rfl) fun q hq hqp => ?_)
    rw [hother hq]
    exact hfewer.w0_ne (hprim q hqp)
  refine .inr ⟨findPte_eq_none.mpr fun q hqp => ?_,
    findPte_of_unique hpteg (by rw [hself, he]; rfl) fun q hq hqp => ?_⟩
  · by_cases hq : q = p
    · rw [hq, hself, he]
      exact pte0New_h_ne 1#32 vsid (vaddrToApi vaddr)
    · rw [hother hq]
      exact hfewer.w0_ne (hprim q hqp)
  · rw [hother hq]
    exact hfewer.w0_ne (hsec q hqp)

end Lookup

/-! ## Loading -/

/-- The page table has a valid entry for the address, and its frame is `pfn`. -/
def Mmu.Maps (s : Mmu) (env : MmuEnv) (hat : HatId) (vaddr pfn : BitVec 32) : Prop :=
  ∃ p, ppcmmuPtefind env s hat vaddr = some p ∧ (s.pte p).getV = 1#32 ∧ (s.pte p).getRpn = pfn

section Loading

variable {env : MmuEnv} {s s' : Mmu} {hat : HatId} {p : PteAddr} {new : Pte} {remap : Bool}
  {flags attr vaddr : BitVec 32}

theorem ptelock_frame (h : ptelock env s p = some s') : s'.vsidr = s.vsidr ∧ s'.pte = s.pte := by
  simp only [ptelock] at h
  split at h
  · split at h
    · obtain rfl := some.inj h
      exact ⟨rfl, rfl⟩
    · cases h
  · split at h
    · split at h
      · obtain rfl := some.inj h
        exact ⟨rfl, rfl⟩
      · cases h
    · obtain rfl := some.inj h
      exact ⟨rfl, rfl⟩

/-- The end of a load changes no entry but its own. -/
theorem loadAt_frame (h : loadAt env s hat p new remap flags attr = some s') :
    s'.vsidr = s.vsidr ∧ s'.pte = (mmuUpdatePte s p new remap).pte := by
  obtain ⟨t, hlock, rfl⟩ := map_eq_some_iff.mp h
  have ht : t.vsidr = s.vsidr ∧ t.pte = (mmuUpdatePte s p new remap).pte := by
    split at hlock
    next => exact ptelock_frame hlock
    next =>
      obtain rfl := some.inj hlock
      exact ⟨rfl, rfl⟩
  dsimp only
  split
  next => exact ht
  next => exact ht

theorem ppcmmuPtefind_eq (hvsid : vsidValid (s.vsidr hat)) :
    ppcmmuPtefind env s hat vaddr = fqvaPtefind env s (vsidOf (s.vsidr hat) vaddr) vaddr := by
  rw [ppcmmuPtefind, if_pos hvsid, vsidOf_eq_add]

/-- An entry that is written over the one for the same address is found in its place. -/
theorem loadAt_remap (hp : fqvaPtefind env s vsid vaddr = some p) (hw0 : new.w0 = (s.pte p).w0)
    (h : loadAt env s hat p new true flags attr = some s') :
    s'.vsidr = s.vsidr ∧ fqvaPtefind env s' vsid vaddr = some p ∧
      s'.pte p = { new with w1 := new.w1 ||| ((s.pte p).w1 &&& refchgMask) } := by
  obtain ⟨hvsidr, hpte⟩ := loadAt_frame h
  simp only [mmuUpdatePte, Mmu.setPte, if_true] at hpte
  refine ⟨hvsidr, ?_, by rw [hpte, update_self]⟩
  rw [← hp]
  refine fqvaPtefind_congr (fun q => ?_) vaddr
  rw [hpte]
  by_cases hq : q = p
  · rw [hq, update_self, hw0]
  · rw [update_of_ne hq]

/-- An entry that is written where there was none is found. -/
theorem loadAt_new {t : Mmu} (hnone : fqvaPtefind env t vsid vaddr = none) (hfewer : t.Fewer s)
    (hplace : env.Place (hashGetPrimary env (fqvaToHash1 vsid vaddr)) p hbit)
    (hw0 : new.w0 = pte0New 1#32 vsid hbit (vaddrToApi vaddr))
    (h : loadAt env s hat p new false flags attr = some s') :
    s'.vsidr = t.vsidr ∧ fqvaPtefind env s' vsid vaddr = some p ∧ s'.pte p = new := by
  obtain ⟨hvsidr, hpte⟩ := loadAt_frame h
  have hpte : s'.pte = (s.setPte p new).pte := hpte
  refine ⟨hvsidr.trans hfewer.vsidr, ?_, by rw [hpte]; simp [Mmu.setPte]⟩
  rw [fqvaPtefind_congr (s := s.setPte p new) (fun q => by rw [hpte]) vaddr]
  exact fqvaPtefind_update hnone hfewer hplace hw0

/-- A load that succeeds maps the address to the frame of the entry it was given. -/
theorem ppcmmuPteload_maps {w prot : BitVec 32} {pp : Page} (hfits : pfn ≤ pte1RpnValMask)
    (h : ppcmmuPteload env fuel s hat vaddr (some pp)
      ⟨pte0New 1#32 vsid 0#32 (vaddrToApi vaddr), pte1New pfn 0#32 0#32 0#32 w 0#32 prot⟩ flags attr
        = some s') : s'.Maps env hat vaddr pfn := by
  simp only [ppcmmuPteload, map_some, getD_some] at h
  generalize ppcmmuAlloc s hat = t at h
  split at h
  next hvsid =>
    have hfind : ppcmmuPtefind env t hat vaddr = _ := ppcmmuPtefind_eq hvsid
    have hmaps (hbit : BitVec 32) {p : PteAddr} (hvsidr : s'.vsidr = t.vsidr)
        (hp : fqvaPtefind env s' (vsidOf (t.vsidr hat) vaddr) vaddr = some p)
        (hw0 : (s'.pte p).w0 = pte0New 1#32 (vsidOf (t.vsidr hat) vaddr) hbit (vaddrToApi vaddr))
        (hrpn : (s'.pte p).getRpn = pfn) : s'.Maps env hat vaddr pfn := by
      refine ⟨p, ?_, ?_, hrpn⟩
      · rw [ppcmmuPtefind_eq (by rwa [hvsidr]), hvsidr, hp]
      · rw [Pte.getV, hw0, extract_v]
    split at h
    next p hp =>
      split at h
      next => cases h
      next =>
        rw [hfind] at hp
        obtain ⟨hbit, hw0⟩ := fqvaPtefind_eq_some hp
        obtain ⟨hvsidr, hp', hself⟩ := loadAt_remap hp (by
          simp only [Pte.setH, Pte.setWimg, Pte.setVsid, Pte.getH, deposit_pte0New, hw0,
            pte0New_extract_h]) h
        refine hmaps (t.pte p).getH hvsidr hp' ?_ ?_
        · rw [hself]
          exact deposit_pte0New _ _ _ _ _ _
        · rw [Pte.getRpn, hself]
          exact extract_rpn hfits _ _ _ _ _ _ _ _
    next hnone =>
      obtain ⟨⟨p, hbit, u⟩, hpick, hload⟩ := bind_eq_some_iff.mp h
      obtain ⟨hfewer, hplace⟩ := pickPte_spec hpick
      rw [hfind] at hnone
      simp only [Pte.setWimg, Pte.setVsid, Pte.getVsid, fqvaToHash1_extract] at hplace
      obtain ⟨hvsidr, hp', hself⟩ := loadAt_new hnone hfewer hplace
        (deposit_pte0New _ _ _ _ _ _) hload
      refine hmaps hbit hvsidr hp' ?_ ?_
      · rw [hself]
        exact deposit_pte0New _ _ _ _ _ _
      · rw [Pte.getRpn, hself]
        exact extract_rpn_new hfits _ _ _ _ _ _ _
  next => cases h

/-- The frame is the one that `ppcmmu_mempte` finds in its variable. -/
theorem ppcmmuMemload_maps {pp : Page}
    (h : ppcmmuMemload env fuel pfn s hat vaddr pp attr flags = some s') :
    s'.Maps env hat vaddr pfn := by
  obtain ⟨apte, hmempte, hload⟩ := bind_eq_some_iff.mp h
  rw [ppcmmuMempte] at hmempte
  split at hmempte
  next => cases hmempte
  next hfits =>
    obtain ⟨prot, -, rfl⟩ := map_eq_some_iff.mp hmempte
    exact ppcmmuPteload_maps (BitVec.not_lt.mp hfits) hload

theorem Mmu.Maps.getpfnum (h : s.Maps env hat vaddr pfn) :
    ppcmmuGetpfnum env s hat vaddr = pfn := by
  obtain ⟨p, hp, -, hrpn⟩ := h
  rw [ppcmmuGetpfnum, hp]
  exact hrpn

/-- A page is mapped by its frame exactly when that is what the variable `pfn` of `ppcmmu_mempte`
happens to hold; the kernel asks its BATs first. -/
theorem ppcmmuMemload_maps_iff {fuel : ℕ} {pfn : BitVec 32} {pp : Page}
    (hrun : ppcmmuMemload env fuel pfn s hat vaddr pp attr flags = some s') :
    (s'.Maps env hat vaddr pp.pagenum ∧ hatGetpfnum env s' hat vaddr = pp.pagenum) ↔
      pfn = pp.pagenum ∧
        (hat = .khat → ∀ bat, ppcmmuFindBat env vaddr = some bat →
          bat.frame vaddr = pp.pagenum) := by
  have hmaps := ppcmmuMemload_maps hrun
  constructor
  · rintro ⟨hpage, hget⟩
    refine ⟨hmaps.getpfnum.symm.trans hpage.getpfnum, fun hk bat hbat => ?_⟩
    rwa [hatGetpfnum, if_pos hk, ppcmmuGetkpfnum, hbat] at hget
  · rintro ⟨rfl, hbat⟩
    refine ⟨hmaps, ?_⟩
    rw [hatGetpfnum]
    split
    next hk =>
      rw [ppcmmuGetkpfnum]
      split
      next bat hfind => exact hbat hk bat hfind
      next =>
        rw [← hk]
        exact hmaps.getpfnum
    next => exact hmaps.getpfnum

end Loading

/-- The smallest page table, without block translations. -/
def smallEnv : MmuEnv where
  htabmask := 0#32
  pfIsMemory := fun _ => true
  pageNumtopp := fun _ => none
  kernelbase := 0xE0000000#32
  segkmapBase := 0#32
  segkmapSize := 0#32
  khatIndex := 0
  ptelockHashtabSize := 0
  ibats := []
  dbats := []

/-- Nothing is mapped yet; the VSID ranges 0 and 1 are taken, and 1 is the kernel's. -/
def emptyMmu : Mmu where
  pte := fun _ => ⟨0#32, 0#32⟩
  hme := fun _ => ⟨0, false, false, false, false⟩
  ptegp := fun _ => ⟨0#16, 0#32⟩
  ptelock := []
  vsidr := fun hat => if hat = .khat then 1#32 else 0#32
  vsidInUse := fun id => id = 0#32 ∨ id = 1#32
  vsidAlloc := []

/-- The first page of the kernel, of frame 0x100, is mapped to frame 0x200 when that is left in the
variable. -/
theorem not_maps_stray : ∃ s', ppcmmuMemload smallEnv 1 0x200#32 emptyMmu .khat 0xE0000000#32
      ⟨0x100#32, false, 0⟩ 3#32 0#32 = some s' ∧
    ¬ s'.Maps smallEnv .khat 0xE0000000#32 0x100#32 ∧
    hatGetpfnum smallEnv s' .khat 0xE0000000#32 = 0x200#32 := by
  refine ⟨_, rfl, ?_, rfl⟩
  intro h
  have := h.getpfnum
  revert this
  decide

theorem ppcmmuMemload_maps_iff_lucky : ∃ s', ppcmmuMemload smallEnv 1 0x100#32 emptyMmu .khat
      0xE0000000#32 ⟨0x100#32, false, 0⟩ 3#32 0#32 = some s' ∧
    s'.Maps smallEnv .khat 0xE0000000#32 0x100#32 ∧
    hatGetpfnum smallEnv s' .khat 0xE0000000#32 = 0x100#32 := by
  obtain ⟨s', hrun⟩ : ∃ s', ppcmmuMemload smallEnv 1 0x100#32 emptyMmu .khat 0xE0000000#32
    ⟨0x100#32, false, 0⟩ 3#32 0#32 = some s' := ⟨_, rfl⟩
  exact ⟨s', hrun, (ppcmmuMemload_maps_iff hrun).mpr ⟨rfl, fun _ bat hbat => by cases hbat⟩⟩

end Polaris
