import Polaris.Ppc.Memload

/-!
# The maps of a pair of groups

`ptegp_validmap` has a bit and `ptegp_lockmap` a count for each of the sixteen entries of a pair of
groups. `find_free_pte`, `steal_pte` and `hat_kern_setup` count the entries of a group;
`ppcmmu_pteload`, `ppcmmu_pteunload`, `ptelock` and `pteunlock` take the place of an entry from its
address, with `PTEOFFSET`.  That mask is one too wide: `PTEGSIZE` is the size of a pair.

## Main definitions

* `slotBit`, `slotLock` — the bit and the count of an entry by its number in the group.
* `pteunlock`, `hatKernSetup`
* `Mmu.MapExact` — the bit of an entry is set exactly when the entry is valid.
* `PteOp` — what happens to an entry.
-/

namespace Polaris

open Function List Option
open BitVec hiding cons not_not

/-! ## The bits -/

section Bits

variable (env : MmuEnv)

/-- The bit of `ptegp_validmap` that the `i`th entry of a group has, as the loops over a group
compute it. -/
def slotBit (p : PteAddr) : ℕ := (if env.upper p.pteg then 8 else 0) + p.slot

/-- The place of its lock count in `ptegp_lockmap`. -/
def slotLock (p : PteAddr) : ℕ := (if env.upper p.pteg then 16 else 0) + 2 * p.slot

/-- The bit that is computed from the address of an entry. -/
def addrBit (p : PteAddr) : ℕ := (if env.upper p.pteg then 8 else 0) + pteOffset p

/-- The entry is one of the table. -/
def MmuEnv.InTable (p : PteAddr) : Prop := p.pteg.toNat ≤ env.nptegmask.toNat

/-- A size that `SDR1` has a mask for: 64 KB to 32 MB. -/
def MmuEnv.Supported : Prop := ∃ k ≤ 9, env.htabmask.toNat = 2 ^ k - 1

end Bits

/-- `ptep_isvalid`. -/
def Pte.isValid (e : Pte) : Bool := e.w0 &&& pte0VFldMask ≠ 0#32

theorem Pte.isValid_eq_getLsbD (e : Pte) : e.isValid = e.w0.getLsbD 31 := by
  have hmask : ∀ i < 32, pte0VFldMask.getLsbD i = decide (i = 31) := by decide
  rw [isValid, Bool.eq_iff_iff, decide_eq_true_iff, ne_eq, ← not_iff_not, Decidable.not_not]
  constructor
  · intro hzero hbit
    have hbit' := congrArg (·.getLsbD 31) hzero
    simp only [getLsbD_and, hbit, hmask 31 (by decide), getLsbD_zero] at hbit'
    cases hbit'
  · intro hbit
    refine eq_of_getLsbD_eq fun i hi => ?_
    rw [getLsbD_and, hmask i hi, getLsbD_zero]
    by_cases h : i = 31
    · rw [h, Bool.eq_false_of_not_eq_true hbit, Bool.false_and]
    · rw [decide_eq_false h, Bool.and_false]

theorem getLsbD_pte0New_valid {vsid h api : BitVec 32} :
    (pte0New 1#32 vsid h api).getLsbD 31 = true := by
  simp [pte0New]

/-! ## Unlocking, and the state after boot -/

section Routines

variable (env : MmuEnv) (s : Mmu)

/-- `pteunlock`. -/
def pteunlock (p : PteAddr) : Option Mmu :=
  let count := lkcnt env s p
  if count = 3#32 then
    match s.ptelock.find? (·.1 = p) with
    | none => none
    | some (_, n) =>
      if n - 1 = 0 then
        some (setLkcnt env { s with ptelock := s.ptelock.filter (·.1 ≠ p) } p 0#32)
      else some { s with ptelock := s.ptelock.map fun e => if e.1 = p then (p, n - 1) else e }
  else if 1#32 < count then some (setLkcnt env s p (count - 1#32))
  else some (setLkcnt env s p 0#32)

/-- One round of the loops of `hat_kern_setup`. -/
def kernSetupPte (p : PteAddr) : Option Mmu :=
  if (s.pte p).isValid then
    let s := s.setHme p { s.hme p with valid := true }
    let g := s.ptegp (env.pteToPtegp p.pteg)
    ptelock env (s.setPtegp (env.pteToPtegp p.pteg)
      { g with validmap := g.validmap ||| BitVec.twoPow 16 (slotBit env p) }) p
  else some s

/-- The entries of the table, in order. -/
def MmuEnv.ptes : List PteAddr :=
  (List.range (2 * env.nptegp.toNat)).flatMap fun g =>
    (List.finRange 8).map (PteAddr.mk (BitVec.ofNat 32 g))

/-- `hat_kern_setup`. -/
def hatKernSetup : Option Mmu :=
  env.ptes.foldlM (kernSetupPte env) s

end Routines

/-! ## Pairs -/

section Pairs

variable {env : MmuEnv}

theorem MmuEnv.Supported.sizes (h : env.Supported) :
    ∃ n, 512 ≤ n ∧ n ≤ 2 ^ 18 ∧ n % 2 = 0 ∧ 2 * n ∣ 2 ^ 32 ∧ env.nptegp.toNat = n ∧
      env.nptegmask.toNat = 2 * n - 1 ∧
      ∀ x : BitVec 32, (x &&& env.nptegmask).toNat = x.toNat % (2 * n) := by
  obtain ⟨k, hk, hmask⟩ := h
  have hpos : 1 ≤ 2 ^ k := Nat.two_pow_pos k
  have hle : 2 ^ k ≤ 2 ^ 9 := Nat.pow_le_pow_right (by decide) hk
  have hnptegp : env.nptegp.toNat = 512 * 2 ^ k := by
    rw [MmuEnv.nptegp, toNat_mul, toNat_add, hmask, toNat_ofNat, toNat_ofNat]
    omega
  have hnptegmask : env.nptegmask.toNat = 2 * (512 * 2 ^ k) - 1 := by
    rw [MmuEnv.nptegmask, toNat_sub, toNat_mul, hnptegp, toNat_ofNat, toNat_ofNat]
    omega
  have hpow : 2 * (512 * 2 ^ k) = 2 ^ (10 + k) := by
    rw [Nat.pow_add]
    omega
  refine ⟨512 * 2 ^ k, by omega, by omega, by omega, ?_, hnptegp, hnptegmask, fun x => ?_⟩
  · rw [hpow]
    exact Nat.pow_dvd_pow 2 (by omega)
  rw [toNat_and, hnptegmask, hpow, Nat.and_two_pow_sub_one_eq_mod]

/-- The entry at the same place of the other group of a pair. -/
def MmuEnv.partner (env : MmuEnv) (p : PteAddr) : PteAddr :=
  ⟨env.nptegmask - p.pteg, p.slot⟩

/-- The two ways to find the bit and the count of an entry agree in the even groups only. -/
theorem addrBit_eq_iff (env : MmuEnv) (p : PteAddr) :
    (addrBit env p = slotBit env p ∧ addrBit env p < 16 ∧ lkcntShift env p = slotLock env p ∧
      lkcntShift env p + 2 ≤ 32) ↔ p.pteg.toNat % 2 = 0 := by
  rw [addrBit, slotBit, lkcntShift, slotLock, pteOffset]
  split
  all_goals omega

variable (hsup : env.Supported)

include hsup

/-- An entry is in the lower group of its pair, or in the upper one, which is the complement of
that. -/
theorem inTable_cases {p : PteAddr} (hp : env.InTable p) :
    (p.pteg.toNat < env.nptegp.toNat ∧ (env.pteToPtegp p.pteg).toNat = p.pteg.toNat ∧
        slotBit env p = p.slot ∧ addrBit env p = pteOffset p) ∨
      env.nptegp.toNat ≤ p.pteg.toNat ∧
        (env.pteToPtegp p.pteg).toNat = env.nptegmask.toNat - p.pteg.toNat ∧
        slotBit env p = 8 + p.slot ∧ addrBit env p = 8 + pteOffset p := by
  obtain ⟨n, hlo, hhi, -, ⟨q, hq⟩, hnptegp, hnptegmask, hand⟩ := hsup.sizes
  rw [MmuEnv.InTable, hnptegmask] at hp
  have hmod : (p.pteg &&& env.nptegmask).toNat = p.pteg.toNat := by
    rw [hand, Nat.mod_eq_of_lt (by omega)]
  have heq : p.pteg &&& env.nptegmask = p.pteg := eq_of_toNat_eq hmod
  simp only [MmuEnv.pteToPtegp, heq, slotBit, addrBit]
  by_cases h : env.nptegp ≤ p.pteg
  · have hup : env.upper p.pteg := decide_eq_true h
    refine .inr ⟨h, ?_, by rw [if_pos hup], by rw [if_pos hup]⟩
    have hsplit : 2 ^ 32 - 1 - p.pteg.toNat = 2 * n - 1 - p.pteg.toNat + 2 * n * (q - 1) := by
      rw [hq, Nat.mul_sub, Nat.mul_one]
      omega
    rw [if_pos h, hand, toNat_not, hnptegmask, hsplit, Nat.add_mul_mod_self_left,
      Nat.mod_eq_of_lt (by omega)]
  · have hlow : ¬ env.upper p.pteg := fun hu => h (of_decide_eq_true hu)
    rw [if_neg h, if_neg hlow, Nat.zero_add, Nat.zero_add]
    exact .inl ⟨Nat.lt_of_not_le h, rfl, rfl, rfl⟩

/-- The number of the pair and the number of the bit decide the entry. -/
theorem slotBit_injective {p q : PteAddr} (hp : env.InTable p) (hq : env.InTable q)
    (hpair : env.pteToPtegp p.pteg = env.pteToPtegp q.pteg) (hbit : slotBit env p = slotBit env q) :
    p = q := by
  have hpcases := inTable_cases hsup hp
  have hqcases := inTable_cases hsup hq
  rw [hpair, hbit] at hpcases
  rw [MmuEnv.InTable] at hp hq
  obtain ⟨hpteg, hslot⟩ : p.pteg.toNat = q.pteg.toNat ∧ p.slot.val = q.slot.val := by omega
  obtain ⟨pteg, slot⟩ := p
  obtain ⟨pteg', slot'⟩ := q
  obtain rfl := eq_of_toNat_eq hpteg
  obtain rfl := Fin.eq_of_val_eq hslot
  rfl

theorem partner_spec {p : PteAddr} (hp : env.InTable p) (hlower : p.pteg.toNat < env.nptegp.toNat) :
    env.InTable (env.partner p) ∧ (env.partner p).pteg.toNat = env.nptegmask.toNat - p.pteg.toNat ∧
      env.pteToPtegp (env.partner p).pteg = env.pteToPtegp p.pteg := by
  obtain ⟨n, hlo, hhi, -, -, hnptegp, hnptegmask, -⟩ := hsup.sizes
  have hpteg : (env.partner p).pteg.toNat = env.nptegmask.toNat - p.pteg.toNat := by
    rw [MmuEnv.partner, toNat_sub]
    omega
  have hin : env.InTable (env.partner p) := by
    rw [MmuEnv.InTable, hpteg]
    exact Nat.sub_le _ _
  have hcases := inTable_cases hsup hp
  have hcases' := inTable_cases hsup hin
  exact ⟨hin, hpteg, eq_of_toNat_eq (by omega)⟩

/-- The bits that are taken from the addresses of the sixteen entries of a pair are different
exactly when the lower group is an even one. -/
theorem addrBit_injective_iff {i : BitVec 32} (hi : i < env.nptegp) :
    (∀ p q, env.InTable p → env.InTable q → env.pteToPtegp p.pteg = i → env.pteToPtegp q.pteg = i →
      addrBit env p = addrBit env q → p = q) ↔ i.toNat % 2 = 0 := by
  obtain ⟨n, hlo, hhi, heven, -, hnptegp, hnptegmask, -⟩ := hsup.sizes
  obtain ⟨r, rfl⟩ : ∃ r : PteAddr, r.pteg = i := ⟨⟨i, 0⟩, rfl⟩
  rw [lt_def] at hi
  constructor
  · intro hinj
    have hin : env.InTable r := by
      rw [MmuEnv.InTable]
      omega
    obtain ⟨hin', hpteg', hpair'⟩ := partner_spec hsup hin hi
    have hcases := inTable_cases hsup hin
    have hcases' := inTable_cases hsup hin'
    have hself : env.pteToPtegp r.pteg = r.pteg := eq_of_toNat_eq (by omega)
    by_contra hodd
    have hbit : addrBit env r = addrBit env (env.partner r) := by
      have hslot : (env.partner r).slot = r.slot := rfl
      rw [pteOffset] at hcases hcases'
      rw [hslot] at hcases'
      omega
    rw [← hinj r (env.partner r) hin hin' hself (hpair'.trans hself) hbit] at hpteg'
    omega
  · intro hieven p q hp hq hpi hqi hbit
    refine slotBit_injective hsup hp hq (hpi.trans hqi.symm) ?_
    have hpcases := inTable_cases hsup hp
    have hqcases := inTable_cases hsup hq
    rw [hpi, hbit, pteOffset] at hpcases
    rw [hqi, pteOffset] at hqcases
    rw [MmuEnv.InTable] at hp hq
    omega

theorem hashPtegMask_eq : env.hashPtegMask = env.nptegmask := by
  obtain ⟨k, hk, hmask⟩ := hsup
  have hle : 2 ^ k ≤ 2 ^ 9 := Nat.pow_le_pow_right (by decide) hk
  have hmask' : (env.htabmask <<< 10).toNat = (2 ^ k - 1) <<< 10 := by
    rw [toNat_shiftLeft, hmask, Nat.mod_eq_of_lt]
    rw [Nat.shiftLeft_eq]
    omega
  refine eq_of_toNat_eq ?_
  rw [MmuEnv.hashPtegMask, toNat_or, hmask', toNat_ofNat, Nat.mod_eq_of_lt (by decide),
    ← Nat.shiftLeft_add_eq_or_of_lt (by decide), Nat.shiftLeft_eq, MmuEnv.nptegmask, MmuEnv.nptegp,
    toNat_sub, toNat_mul, toNat_mul, toNat_add, hmask]
  simp only [toNat_ofNat]
  omega

/-- Both groups of an address are groups of the table. -/
theorem hashGetPrimary_le (x : BitVec 32) :
    (hashGetPrimary env x).toNat ≤ env.nptegmask.toNat ∧
      (hashGetSecondary env (hashGetPrimary env x)).toNat ≤ env.nptegmask.toNat := by
  have hsecond : hashGetSecondary env (hashGetPrimary env x) = ~~~x &&& env.hashPtegMask := by
    refine eq_of_getLsbD_eq fun i hi => ?_
    simp only [hashGetSecondary, hashGetPrimary, getLsbD_xor, getLsbD_and, getLsbD_not]
    grind
  rw [hsecond, hashGetPrimary, hashPtegMask_eq hsup, toNat_and, toNat_and]
  exact ⟨Nat.and_le_right, Nat.and_le_right⟩

end Pairs

/-! ## What changes -/

/-- The entry `p` becomes valid or invalid, and nothing else changes but the bit of the map that is
taken from its address. -/
structure Marks (env : MmuEnv) (p : PteAddr) (valid : Bool) (s s' : Mmu) : Prop where
  pte : ∀ q, (s'.pte q).isValid = if q = p then valid else (s.pte q).isValid
  map : ∀ g, ∀ i < 16, (s'.ptegp g).validmap.getLsbD i =
    if g = env.pteToPtegp p.pteg ∧ i = addrBit env p then valid else (s.ptegp g).validmap.getLsbD i

/-- No entry becomes valid or invalid, and the maps stay. -/
structure SameMarks (s s' : Mmu) : Prop where
  pte : ∀ q, (s'.pte q).isValid = (s.pte q).isValid
  map : ∀ g, (s'.ptegp g).validmap = (s.ptegp g).validmap

/-- A bit of a map is set exactly when its entry is valid. -/
def Mmu.MapExact (env : MmuEnv) (s : Mmu) : Prop :=
  ∀ p, env.InTable p →
    (s.ptegp (env.pteToPtegp p.pteg)).validmap.getLsbD (slotBit env p) = (s.pte p).isValid

section Steps

variable {env : MmuEnv} {s s' : Mmu} {p : PteAddr}

theorem slotBit_lt (env : MmuEnv) (p : PteAddr) : slotBit env p < 16 := by
  rw [slotBit]
  split
  all_goals omega

theorem SameMarks.mapExact_iff (h : SameMarks s s') : s'.MapExact env ↔ s.MapExact env := by
  refine forall₂_congr fun p _ => ?_
  rw [h.map, h.pte]

/-- A change of an entry keeps the map exact only in an even group. -/
theorem Marks.mapExact_iff {valid : Bool} (h : Marks env p valid s s') (hsup : env.Supported)
    (hp : env.InTable p) (hs : s.MapExact env) (hchange : (s.pte p).isValid ≠ valid) :
    s'.MapExact env ↔ p.pteg.toNat % 2 = 0 := by
  have hbit : addrBit env p = slotBit env p ↔ p.pteg.toNat % 2 = 0 := by
    rw [addrBit, slotBit, pteOffset]
    omega
  rw [← hbit]
  constructor
  · intro hs'
    have hself := hs' p hp
    rw [h.map _ _ (slotBit_lt env p), h.pte, if_pos rfl] at hself
    by_contra hne
    rw [if_neg (fun hand => hne hand.2.symm), hs p hp] at hself
    exact hchange hself
  · intro heq q hq
    rw [h.map _ _ (slotBit_lt env q), h.pte]
    by_cases hqp : q = p
    · rw [if_pos hqp, hqp, if_pos ⟨rfl, heq.symm⟩]
    · rw [if_neg hqp, if_neg, hs q hq]
      rintro ⟨hpair, hslot⟩
      exact hqp (slotBit_injective hsup hq hp hpair (hslot.trans heq))

/-! ## The routines -/

theorem SameMarks.refl (s : Mmu) : SameMarks s s := ⟨fun _ => rfl, fun _ => rfl⟩

theorem SameMarks.trans {s'' : Mmu} (h : SameMarks s s') (h' : SameMarks s' s'') :
    SameMarks s s'' :=
  ⟨fun q => (h'.pte q).trans (h.pte q), fun g => (h'.map g).trans (h.map g)⟩

theorem Marks.trans_same {s'' : Mmu} {valid : Bool} (h : Marks env p valid s s')
    (h' : SameMarks s' s'') : Marks env p valid s s'' :=
  ⟨fun q => (h'.pte q).trans (h.pte q), fun g i hi => (congrArg (·.getLsbD i)
    (h'.map g)).trans (h.map g i hi)⟩

theorem getLsbD_validmapMask (env : MmuEnv) (p : PteAddr) {i : ℕ} (hi : i < 16) :
    (validmapMask env p).getLsbD i = decide (i = addrBit env p) := by
  rw [validmapMask, getLsbD_setWidth, addrBit, pteOffset]
  split
  · rw [show 0x100#32 = twoPow 32 8 from rfl, getLsbD_shiftLeft, getLsbD_twoPow]
    grind
  · rw [show 1#32 = twoPow 32 0 from rfl, getLsbD_shiftLeft, getLsbD_twoPow]
    grind

theorem isValid_invalidated (w0 w1 : BitVec 32) :
    (Pte.mk (w0 &&& ~~~pte0VFldMask) w1).isValid = false := by
  rw [Pte.isValid, decide_eq_false_iff_not, not_not, BitVec.and_assoc, BitVec.and_comm (~~~_)]
  simp

theorem ptegp_setPtegp (s : Mmu) (i : BitVec 32) (g : Ptegp) :
    (s.setPtegp i g).ptegp = update s.ptegp i g := rfl

theorem sameMarks_setHme (s : Mmu) (p : PteAddr) (hme : Hme) : SameMarks s (s.setHme p hme) :=
  ⟨fun _ => rfl, fun _ => rfl⟩

theorem sameMarks_ptelocks (s : Mmu) (locks : List (PteAddr × ℕ)) :
    SameMarks s { s with ptelock := locks } :=
  ⟨fun _ => rfl, fun _ => rfl⟩

theorem sameMarks_setLkcnt (env : MmuEnv) (s : Mmu) (p : PteAddr) (count : BitVec 32) :
    SameMarks s (setLkcnt env s p count) := by
  refine ⟨fun _ => rfl, fun g => ?_⟩
  rw [setLkcnt, ptegp_setPtegp]
  by_cases hg : g = env.pteToPtegp p.pteg
  · rw [hg, update_self]
  · rw [update_of_ne hg]

theorem sameMarks_ptelock (h : ptelock env s p = some s') : SameMarks s s' := by
  simp only [ptelock] at h
  split at h
  · split at h
    · obtain rfl := some.inj h
      exact ⟨fun _ => rfl, fun _ => rfl⟩
    · cases h
  have hcount := sameMarks_setLkcnt env s p (lkcnt env s p + 1#32)
  split at h
  · split at h
    · obtain rfl := some.inj h
      exact ⟨hcount.pte, hcount.map⟩
    · cases h
  · obtain rfl := some.inj h
    exact hcount

theorem sameMarks_pteunlock (h : pteunlock env s p = some s') : SameMarks s s' := by
  simp only [pteunlock] at h
  split at h
  · split at h
    · cases h
    split at h
    · obtain rfl := some.inj h
      exact (sameMarks_ptelocks s _).trans (sameMarks_setLkcnt env _ p _)
    · obtain rfl := some.inj h
      exact sameMarks_ptelocks s _
  · split at h
    · obtain rfl := some.inj h
      exact sameMarks_setLkcnt env s p _
    · obtain rfl := some.inj h
      exact sameMarks_setLkcnt env s p _

/-- Setting or clearing the bit of an entry. -/
theorem marks_setBit {valid : Bool}
    (hpte : ∀ q, (s'.pte q).isValid = if q = p then valid else (s.pte q).isValid)
    (hself : (s'.ptegp (env.pteToPtegp p.pteg)).validmap =
      if valid then (s.ptegp (env.pteToPtegp p.pteg)).validmap ||| validmapMask env p
      else (s.ptegp (env.pteToPtegp p.pteg)).validmap &&& ~~~validmapMask env p)
    (hother : ∀ g, g ≠ env.pteToPtegp p.pteg → (s'.ptegp g).validmap = (s.ptegp g).validmap) :
    Marks env p valid s s' := by
  refine ⟨hpte, fun g i hi => ?_⟩
  by_cases hg : g = env.pteToPtegp p.pteg
  · rw [hg, hself]
    cases valid
    · simp only [Bool.false_eq_true, if_false, getLsbD_and, getLsbD_not,
        getLsbD_validmapMask env p hi, hi, decide_true, Bool.true_and, true_and]
      grind
    · simp only [if_true, getLsbD_or, getLsbD_validmapMask env p hi, true_and]
      grind
  · rw [hother g hg, if_neg (fun h => hg h.1)]

theorem marks_ppcmmuPteunload (h : ppcmmuPteunload env s p = some s') : Marks env p false s s' := by
  simp only [ppcmmuPteunload] at h
  have hmarks : Marks env p false s
      (((s.setPte p { s.pte p with w0 := (s.pte p).w0 &&& ~~~pte0VFldMask }).setHme p
        { s.hme p with valid := false, nosync := false, busy := false }).setPtegp
        (env.pteToPtegp p.pteg)
          { s.ptegp (env.pteToPtegp p.pteg) with
            validmap :=
              (s.ptegp (env.pteToPtegp p.pteg)).validmap &&& ~~~validmapMask env p }) := by
    refine marks_setBit (fun q => ?_) ?_ ?_
    · change (update s.pte p _ q).isValid = _
      by_cases hq : q = p
      · rw [hq, update_self, if_pos rfl, isValid_invalidated]
      · rw [update_of_ne hq, if_neg hq]
    · rw [ptegp_setPtegp, update_self, if_neg Bool.false_ne_true]
    · intro g hg
      rw [ptegp_setPtegp, update_of_ne hg]
      rfl
  split at h
  · split at h
    · obtain rfl := some.inj h
      exact hmarks.trans_same ((sameMarks_ptelocks _ _).trans (sameMarks_setLkcnt env _ p _))
    · cases h
  · obtain rfl := some.inj h
    exact hmarks.trans_same (sameMarks_setLkcnt env _ p _)

variable {hat : HatId} {new : Pte} {flags attr : BitVec 32}

theorem isValid_mmuUpdatePte (s : Mmu) (p : PteAddr) (new : Pte) (remap : Bool) (q : PteAddr) :
    ((mmuUpdatePte s p new remap).pte q).isValid = if q
      = p then new.isValid else (s.pte q).isValid := by
  change (update s.pte p _ q).isValid = _
  by_cases hq : q = p
  · rw [hq, update_self, if_pos rfl]
    rfl
  · rw [update_of_ne hq, if_neg hq]

/-- The lock that a load takes, if it takes one. -/
theorem sameMarks_loadLock {t : Mmu}
    (h : (if flags &&& 1#32 ≠ 0#32 then ptelock env s p else some s) = some t) : SameMarks s t := by
  split at h
  · exact sameMarks_ptelock h
  · obtain rfl := some.inj h
    exact .refl s

theorem marks_loadAt (hnew : new.isValid = true)
    (h : loadAt env s hat p new false flags attr = some s') : Marks env p true s s' := by
  obtain ⟨t, hlock, rfl⟩ := map_eq_some_iff.mp h
  have ht := sameMarks_loadLock hlock
  have hmarks : Marks env p true s (t.setPtegp (env.pteToPtegp p.pteg)
      { t.ptegp (env.pteToPtegp p.pteg) with
        validmap := (t.ptegp (env.pteToPtegp p.pteg)).validmap ||| validmapMask env p }) := by
    apply marks_setBit
    · intro q
      rw [← hnew, ← isValid_mmuUpdatePte s p new false]
      exact ht.pte q
    · rw [ptegp_setPtegp, update_self, if_pos rfl, ht.map]
      rfl
    · intro g hg
      rw [ptegp_setPtegp, update_of_ne hg, ht.map]
      rfl
  exact hmarks.trans_same (sameMarks_setHme _ p _)

theorem sameMarks_loadAt (hnew : new.isValid = true) (hold : (s.pte p).isValid = true)
    (h : loadAt env s hat p new true flags attr = some s') : SameMarks s s' := by
  obtain ⟨t, hlock, rfl⟩ := map_eq_some_iff.mp h
  have ht := sameMarks_loadLock hlock
  have hupdate : SameMarks s (mmuUpdatePte s p new true) := by
    refine ⟨fun q => ?_, fun _ => rfl⟩
    rw [isValid_mmuUpdatePte]
    by_cases hq : q = p
    · rw [if_pos hq, hq, hnew, hold]
    · rw [if_neg hq]
  exact hupdate.trans (ht.trans (sameMarks_setHme t p _))

end Steps

/-! ## Runs -/

/-- What the routines do to an entry. -/
inductive PteOp
  | load (p : PteAddr) (hat : HatId) (new : Pte) (flags attr : BitVec 32)
  | remap (p : PteAddr) (hat : HatId) (new : Pte) (flags attr : BitVec 32)
  | unload (p : PteAddr)
  | lock (p : PteAddr)
  | unlock (p : PteAddr)

namespace PteOp

variable (env : MmuEnv)

def run (s : Mmu) : PteOp → Option Mmu
  | load p hat new flags attr => loadAt env s hat p new false flags attr
  | remap p hat new flags attr => loadAt env s hat p new true flags attr
  | unload p => ppcmmuPteunload env s p
  | lock p => ptelock env s p
  | unlock p => pteunlock env s p

/-- What the callers see to: a load goes to an entry that is not valid, a remap and an unload to one
that is, and what is loaded is valid. -/
def Ready (s : Mmu) : PteOp → Prop
  | load p _ new _ _ => env.InTable p ∧ (s.pte p).isValid = false ∧ new.isValid = true
  | remap p _ new _ _ => env.InTable p ∧ (s.pte p).isValid = true ∧ new.isValid = true
  | unload p => env.InTable p ∧ (s.pte p).isValid = true
  | lock p => env.InTable p
  | unlock p => env.InTable p

/-- It does not mark an entry of an odd group. -/
def EvenGroup : PteOp → Prop
  | load p _ _ _ _ => p.pteg.toNat % 2 = 0
  | unload p => p.pteg.toNat % 2 = 0
  | _ => True

end PteOp

/-- A run of the routines, each in a state that is ready for it, through the given states. -/
inductive PteRun (env : MmuEnv) : Mmu → List PteOp → List Mmu → Prop
  | nil (s : Mmu) : PteRun env s [] []
  | cons {s s' : Mmu} {op : PteOp} {ops : List PteOp} {states : List Mmu} (ready : op.Ready env s)
      (step : op.run env s = some s') (rest : PteRun env s' ops states) :
      PteRun env s (op :: ops) (s' :: states)

section Run

variable {env : MmuEnv} {s s' : Mmu} (hsup : env.Supported)

include hsup

theorem PteOp.mapExact_iff {op : PteOp} (hready : op.Ready env s)
    (hstep : op.run env s = some s') (hs : s.MapExact env) : s'.MapExact env ↔ op.EvenGroup := by
  cases op with
  | load p hat new flags attr =>
    obtain ⟨hp, hold, hnew⟩ := hready
    exact (marks_loadAt hnew hstep).mapExact_iff hsup hp hs (by rw [hold]; decide)
  | remap p hat new flags attr =>
    obtain ⟨-, hold, hnew⟩ := hready
    exact iff_of_true ((sameMarks_loadAt hnew hold hstep).mapExact_iff.mpr hs) trivial
  | unload p =>
    obtain ⟨hp, hold⟩ := hready
    exact (marks_ppcmmuPteunload hstep).mapExact_iff hsup hp hs (by rw [hold]; decide)
  | lock p => exact iff_of_true ((sameMarks_ptelock hstep).mapExact_iff.mpr hs) trivial
  | unlock p => exact iff_of_true ((sameMarks_pteunlock hstep).mapExact_iff.mpr hs) trivial

/-- The maps stay exact through a run exactly when it marks no entry of an odd group. -/
theorem PteRun.mapExact_iff {ops : List PteOp} {states : List Mmu}
    (hrun : PteRun env s ops states) (hs : s.MapExact env) :
    (∀ t ∈ states, t.MapExact env) ↔ ∀ op ∈ ops, op.EvenGroup := by
  induction hrun with
  | nil s => simp
  | cons ready step rest ih =>
    have hiff := PteOp.mapExact_iff hsup ready step hs
    rw [forall_mem_cons, forall_mem_cons, hiff]
    refine and_congr_right fun heven => ?_
    exact ih (hiff.mpr heven)

theorem fqvaPtefind_ready {vsid vaddr : BitVec 32} {p : PteAddr}
    (h : fqvaPtefind env s vsid vaddr = some p) : env.InTable p ∧ (s.pte p).isValid = true := by
  obtain ⟨hbit, hw0⟩ := fqvaPtefind_eq_some h
  refine ⟨?_, by rw [Pte.isValid_eq_getLsbD, hw0, getLsbD_pte0New_valid]⟩
  obtain ⟨hprimary, hsecondary⟩ := hashGetPrimary_le hsup (fqvaToHash1 vsid vaddr)
  rw [MmuEnv.InTable]
  rcases or_eq_some_iff.mp h with h | ⟨-, h⟩
  · rwa [(findPte_eq_some h).1]
  · rwa [(findPte_eq_some h).1]

/-- A whole load that finds its address mapped, or a free place in the primary group, is a step. -/
theorem ppcmmuPteload_pteRun {hat : HatId} {pp : Option Page} {new : Pte} {fuel : ℕ}
    {vaddr flags attr pteg : BitVec 32} (hs : s.MapExact env) (hnew : new.isValid = true)
    (hpteg : pteg = hashGetPrimary env (fqvaToHash1
      (new.setVsid (vsidOf ((ppcmmuAlloc s hat).vsidr hat) vaddr)).getVsid vaddr))
    (hroom : (ppcmmuPtefind env (ppcmmuAlloc s hat) hat vaddr).isSome ∨
      (freeSlot env s pteg).isSome)
    (h : ppcmmuPteload env fuel s hat vaddr pp new flags attr = some s') :
    ∃ op, PteRun env (ppcmmuAlloc s hat) [op] [s'] ∧ (pteg.toNat % 2 = 0 → op.EvenGroup) := by
  have halloc : (ppcmmuAlloc s hat).pte = s.pte ∧ (ppcmmuAlloc s hat).ptegp = s.ptegp := by
    rw [ppcmmuAlloc]
    split
    · exact ⟨rfl, rfl⟩
    · split
      · exact ⟨rfl, rfl⟩
      · exact ⟨rfl, rfl⟩
  have hfree : freeSlot env s pteg = freeSlot env (ppcmmuAlloc s hat) pteg := by
    rw [freeSlot, freeSlot, halloc.2]
  rw [Mmu.MapExact, ← halloc.1, ← halloc.2] at hs
  rw [hfree] at hroom
  simp only [ppcmmuPteload] at h
  generalize ppcmmuAlloc s hat = t at *
  split at h
  next hvsid =>
    generalize hwimg : (pp.map fun pp => (new.setVsid (vsidOf (t.vsidr hat) vaddr)).setWimg
      (wimg (!pp.isNC) 1#32)).getD (new.setVsid (vsidOf (t.vsidr hat) vaddr)) = new' at h
    have hw0 : new'.w0 = (new.setVsid (vsidOf (t.vsidr hat) vaddr)).w0 := by
      rw [← hwimg]
      cases pp with
      | none => rfl
      | some pp => rfl
    have hnew' (hbit : BitVec 32) : (new'.setH hbit).isValid = true := by
      rw [Pte.isValid_eq_getLsbD] at hnew ⊢
      rw [Pte.setH, hw0, Pte.setVsid]
      simp [hnew]
    split at h
    next p hp =>
      split at h
      next => cases h
      next =>
        rw [ppcmmuPtefind_eq hvsid] at hp
        obtain ⟨htable, hvalid⟩ := fqvaPtefind_ready hsup hp
        exact ⟨.remap p hat _ flags attr, .cons ⟨htable, hvalid, hnew' _⟩ h (.nil _),
          fun _ => trivial⟩
    next hnone =>
      rw [hnone] at hroom
      obtain ⟨p, hp⟩ := isSome_iff_exists.mp (hroom.resolve_left (by simp))
      have hgroup := pteg_of_find hp
      have htable : env.InTable p := by
        rw [MmuEnv.InTable, hgroup, hpteg]
        exact (hashGetPrimary_le hsup _).1
      rw [show new'.getVsid = (new.setVsid (vsidOf (t.vsidr hat) vaddr)).getVsid by
        rw [Pte.getVsid, hw0, Pte.getVsid], ← hpteg, pickPte] at h
      cases fuel with
      | zero => cases h
      | succ fuel =>
        rw [findFreePte, hp] at h
        refine ⟨.load p hat _ flags attr, .cons ⟨htable, ?_, hnew' _⟩ h (.nil _), fun heven => ?_⟩
        · have hbit := find?_some hp
          rw [← hs p htable, slotBit, hgroup]
          simpa using hbit
        · rw [PteOp.EvenGroup, hgroup]
          exact heven
  next => cases h

/-! ## After boot -/

/-- A round of `hat_kern_setup` sets the bit of its entry if that is valid. -/
theorem kernSetupPte_spec {p : PteAddr} (hp : env.InTable p) (h : kernSetupPte env s p = some s') :
    (∀ q, (s'.pte q).isValid = (s.pte q).isValid) ∧ ∀ q, env.InTable q →
      (s'.ptegp (env.pteToPtegp q.pteg)).validmap.getLsbD (slotBit env q) =
        ((s.ptegp (env.pteToPtegp q.pteg)).validmap.getLsbD (slotBit env q) ||
          (decide (q = p) && (s.pte p).isValid)) := by
  simp only [kernSetupPte] at h
  split at h
  next hvalid =>
    have hlock := sameMarks_ptelock h
    refine ⟨hlock.pte, fun q hq => ?_⟩
    rw [hlock.map, ptegp_setPtegp, hvalid, Bool.and_true]
    by_cases hpair : env.pteToPtegp q.pteg = env.pteToPtegp p.pteg
    · rw [hpair, update_self, getLsbD_or, getLsbD_twoPow]
      have hiff : slotBit env p = slotBit env q ↔ q = p := by
        constructor
        · intro hslot
          exact slotBit_injective hsup hq hp hpair hslot.symm
        · intro heq
          rw [heq]
      simp only [slotBit_lt env p, decide_true, Bool.true_and, hiff]
      rfl
    · rw [update_of_ne hpair, decide_eq_false (fun heq => hpair (by rw [heq])), Bool.or_false]
      rfl
  next hinvalid =>
    obtain rfl := some.inj h
    have hfalse : (s.pte p).isValid = false := by simpa using hinvalid
    refine ⟨fun _ => rfl, fun q _ => ?_⟩
    rw [hfalse, Bool.and_false, Bool.or_false]

theorem foldlM_kernSetupPte_spec {ps : List PteAddr}
    (hps : ∀ p ∈ ps, env.InTable p) (h : ps.foldlM (kernSetupPte env) s = some s') :
    (∀ q, (s'.pte q).isValid = (s.pte q).isValid) ∧ ∀ q, env.InTable q →
      (s'.ptegp (env.pteToPtegp q.pteg)).validmap.getLsbD (slotBit env q) =
        ((s.ptegp (env.pteToPtegp q.pteg)).validmap.getLsbD (slotBit env q) ||
          (decide (q ∈ ps) && (s.pte q).isValid)) := by
  induction ps generalizing s with
  | nil =>
    obtain rfl := some.inj h
    exact ⟨fun _ => rfl, fun q _ => by simp⟩
  | cons p ps ih =>
    rw [foldlM_cons, bind_eq_bind, bind_eq_some_iff] at h
    obtain ⟨t, hround, hrest⟩ := h
    rw [forall_mem_cons] at hps
    obtain ⟨hpte, hmap⟩ := kernSetupPte_spec hsup hps.1 hround
    obtain ⟨hpte', hmap'⟩ := ih hps.2 hrest
    refine ⟨fun q => (hpte' q).trans (hpte q), fun q hq => ?_⟩
    rw [hmap' q hq, hmap q hq, hpte q]
    by_cases hqp : q = p
    · subst hqp
      cases (s.pte q).isValid <;> simp
    · simp [hqp]

theorem mem_ptes (p : PteAddr) : p ∈ env.ptes ↔ env.InTable p := by
  obtain ⟨n, hlo, hhi, -, -, hnptegp, hnptegmask, -⟩ := hsup.sizes
  rw [MmuEnv.ptes, MmuEnv.InTable, hnptegp, hnptegmask]
  simp only [List.mem_flatMap, List.mem_range, List.mem_map, List.mem_finRange, true_and]
  constructor
  · rintro ⟨g, hg, slot, rfl⟩
    simp only [toNat_ofNat]
    omega
  · intro hp
    exact ⟨p.pteg.toNat, by omega, p.slot, by rw [ofNat_toNat, setWidth_eq]⟩

/-- `hat_kern_setup` makes the maps exact. -/
theorem hatKernSetup_mapExact (hempty : ∀ g, (s.ptegp g).validmap = 0#16)
    (h : hatKernSetup env s = some s') : s'.MapExact env := by
  obtain ⟨hpte, hmap⟩ := foldlM_kernSetupPte_spec hsup (fun p hp => (mem_ptes hsup p).mp hp) h
  intro p hp
  rw [hmap p hp, hempty, getLsbD_zero, Bool.false_or, hpte p,
    decide_eq_true ((mem_ptes hsup p).mpr hp), Bool.true_and]

end Run

theorem validmapMask_eq_iff (env : MmuEnv) (p : PteAddr) :
    (validmapMask env p = twoPow 16 (slotBit env p) ∧ addrBit env p < 16 ∧
      lkcntShift env p = slotLock env p ∧ lkcntShift env p + 2 ≤ 32) ↔ p.pteg.toNat % 2 = 0 := by
  rw [← addrBit_eq_iff env p]
  refine and_congr_left fun ⟨hlt, _⟩ => ?_
  constructor
  · intro hmask
    have hbit := congrArg (·.getLsbD (addrBit env p)) hmask
    simp only [getLsbD_validmapMask env p hlt, getLsbD_twoPow, slotBit_lt env p, decide_true,
      Bool.true_and] at hbit
    exact (of_decide_eq_true hbit.symm).symm
  · intro heq
    refine eq_of_getLsbD_eq fun i hi => ?_
    rw [getLsbD_validmapMask env p hi, getLsbD_twoPow, heq, decide_eq_true (slotBit_lt env p),
      Bool.true_and]
    exact decide_eq_decide.mpr eq_comm

/-- The bit and the lock count of an entry are its own in the even groups only.  Those taken from
addresses are different in a pair whose lower group is even; and the maps stay exact in a run as
long as no entry of an odd group is loaded or unloaded. -/
theorem ptegMaps_iff (env : MmuEnv) (hsup : env.Supported) :
    (∀ p, env.InTable p →
        ((validmapMask env p = BitVec.twoPow 16 (slotBit env p) ∧ addrBit env p < 16 ∧
          lkcntShift env p = slotLock env p ∧ lkcntShift env p + 2 ≤ 32) ↔ p.pteg.toNat % 2 = 0)) ∧
      (∀ i < env.nptegp, ((∀ p q, env.InTable p → env.InTable q → env.pteToPtegp p.pteg = i →
          env.pteToPtegp q.pteg = i → addrBit env p = addrBit env q → p = q) ↔ i.toNat % 2 = 0)) ∧
      ∀ s₀ s ops states, (∀ g, (s₀.ptegp g).validmap = 0#16) → hatKernSetup env s₀ = some s →
        PteRun env s ops states →
          ((∀ t ∈ states, t.MapExact env) ↔ ∀ op ∈ ops, op.EvenGroup) := by
  refine ⟨fun p _ => validmapMask_eq_iff env p, fun i hi => addrBit_injective_iff hsup hi, ?_⟩
  intro s₀ s ops states hempty hsetup hrun
  exact hrun.mapExact_iff hsup (hatKernSetup_mapExact hsup hempty hsetup)

/-- The first entry of group 1 is loaded: its own bit stays clear, so that its place is free for the
next load, and the bit of an entry of group 1022 is set. -/
theorem loadAt_odd : ∃ s, loadAt smallEnv emptyMmu .khat ⟨1#32, 0⟩
      ⟨pte0New 1#32 16#32 0#32 0#32, 0#32⟩ false 0#32 0#32 = some s ∧
    (s.pte ⟨1#32, 0⟩).isValid = true ∧ freeSlot smallEnv s 1#32 = some ⟨1#32, 0⟩ ∧
    smallEnv.pteToPtegp 1022#32 = smallEnv.pteToPtegp 1#32 ∧
    freeSlot smallEnv s 1022#32 = some ⟨1022#32, 1⟩ := by
  refine ⟨_, rfl, ?_⟩
  decide

theorem smallEnv_supported : smallEnv.Supported := ⟨0, by decide, rfl⟩

theorem hatKernSetup_emptyMmu : hatKernSetup smallEnv emptyMmu = some emptyMmu := by
  rw [hatKernSetup]
  generalize smallEnv.ptes = ps
  induction ps with
  | nil => rfl
  | cons p ps ih =>
    have hinvalid : ¬ (Pte.mk 0#32 0#32).isValid = true := by decide
    have hround : kernSetupPte smallEnv emptyMmu p = some emptyMmu := if_neg hinvalid
    rw [foldlM_cons, hround]
    exact ih

/-- A whole load in an even group keeps the maps exact. -/
theorem ptegMaps_iff_small : smallEnv.Supported ∧
    ∃ s, ppcmmuPteload smallEnv 1 emptyMmu .khat 0x2000#32 none
        ⟨pte0New 1#32 16#32 0#32 0#32, 0#32⟩ 0#32 0#32 = some s ∧ s.MapExact smallEnv := by
  have hsup := smallEnv_supported
  have hexact := hatKernSetup_mapExact hsup (fun _ => rfl) hatKernSetup_emptyMmu
  obtain ⟨s, hs⟩ : ∃ s, ppcmmuPteload smallEnv 1 emptyMmu .khat 0x2000#32 none
      ⟨pte0New 1#32 16#32 0#32 0#32, 0#32⟩ 0#32 0#32 = some s := ⟨_, rfl⟩
  refine ⟨hsup, s, hs, ?_⟩
  obtain ⟨op, hrun, heven⟩ :=
    ppcmmuPteload_pteRun hsup hexact (by decide) rfl (.inr (by decide)) hs
  refine ((ptegMaps_iff smallEnv hsup).2.2 emptyMmu emptyMmu [op] [s] (fun _ => rfl)
    hatKernSetup_emptyMmu hrun).mpr ?_ _ mem_cons_self
  rw [forall_mem_singleton]
  exact heven (by decide)

end Polaris
