import Polaris.Metaslab.Sync

/-!
# The metaslabs of a device

A top-level device keeps one ledger for each of its metaslabs.  The functions on a
metaslab change its weight and with it the order of the group, which no ledger depends
on.

`metaslab_group_alloc` tries one metaslab after the other.  Each round either hands
out a range, or it takes a metaslab out of the running: its weight falls below the
size, or it is no longer active.  So the loop ends.

## Main definitions

* `Geometry`, `Geometry.extent`
* `Vdev.Refines`, `Vdev.Changed`
-/

namespace Polaris

open Finset Function

/-! ## Devices and their metaslabs -/

/-- How a device is cut into metaslabs. -/
structure Geometry where
  ashift : ℕ
  msShift : ℕ
  msCount : ℕ
  ashift_le : ashift ≤ msShift
  units : msShift ≤ ashift + 47
  light : msShift ≤ 59
  fits : msCount * 2 ^ msShift ≤ 2 ^ 63

/-- The extent of a metaslab. -/
def Geometry.extent (g : Geometry) (m : ℕ) (hm : m < g.msCount) : Extent where
  start := m * 2 ^ g.msShift
  size := 2 ^ g.msShift
  shift := g.ashift
  units := ⟨Nat.two_pow_pos _, le_rfl, le_rfl,
    (Nat.pow_dvd_pow 2 g.ashift_le).trans (Nat.dvd_mul_left ..), Nat.pow_dvd_pow 2 g.ashift_le⟩
  offsets := Nat.pow_le_pow_right (by norm_num) g.units
  half := by
    have hle : (m + 1) * 2 ^ g.msShift ≤ g.msCount * 2 ^ g.msShift := Nat.mul_le_mul_right _ hm
    rw [Nat.add_mul, Nat.one_mul] at hle
    exact hle.trans g.fits
  light := Nat.pow_le_pow_right (by norm_num) g.light

/-- A device keeps the ledgers `L`. -/
structure Vdev.Refines (vd : Vdev) (g : Geometry) (words : Objset) (L : ℕ → Ledger ℕ) : Prop where
  ashift : vd.vdevAshift = g.ashift
  msShift : vd.vdevMsShift = g.msShift
  msCount : vd.vdevMsCount = g.msCount
  ms : ∀ m (hm : m < g.msCount), (vd.vdevMs m).Refines (g.extent m hm) words (L m)
  tree : ∀ m ∈ vd.vdevMg.mgMetaslabTree, m < g.msCount

/-- The device is the same up to its metaslabs and their order in the group. -/
structure Vdev.SameShape (vd vd' : Vdev) : Prop where
  id : vd'.vdevId = vd.vdevId
  ashift : vd'.vdevAshift = vd.vdevAshift
  asize : vd'.vdevAsize = vd.vdevAsize
  opAsize : vd'.vdevOpAsize = vd.vdevOpAsize
  msArray : vd'.vdevMsArray = vd.vdevMsArray
  msShift : vd'.vdevMsShift = vd.vdevMsShift
  msCount : vd'.vdevMsCount = vd.vdevMsCount

theorem Vdev.SameShape.refl (vd : Vdev) : vd.SameShape vd := ⟨rfl, rfl, rfl, rfl, rfl, rfl, rfl⟩

variable {size m w txg : ℕ} {vd vd' vd'' : Vdev} {msp : Metaslab} {mos : Mos} {g : Geometry}
  {L : ℕ → Ledger ℕ}

theorem Vdev.SameShape.trans (h : vd.SameShape vd') (h' : vd'.SameShape vd'') :
    vd.SameShape vd'' :=
  ⟨h'.id.trans h.id, h'.ashift.trans h.ashift, h'.asize.trans h.asize, h'.opAsize.trans h.opAsize,
    h'.msArray.trans h.msArray, h'.msShift.trans h.msShift, h'.msCount.trans h.msCount⟩

theorem Vdev.setMs_sameShape (vd : Vdev) (m : ℕ) (msp : Metaslab) : vd.SameShape (vd.setMs m msp) :=
  ⟨rfl, rfl, rfl, rfl, rfl, rfl, rfl⟩

/-- The metaslabs have the same objects too. -/
structure Vdev.Kept (vd vd' : Vdev) : Prop extends Vdev.SameShape vd vd' where
  smo : ∀ k, (vd'.vdevMs k).msSmoSyncing = (vd.vdevMs k).msSmoSyncing

theorem Vdev.Kept.refl (vd : Vdev) : vd.Kept vd := ⟨.refl vd, fun _ => rfl⟩

theorem Vdev.Kept.trans (h : vd.Kept vd') (h' : vd'.Kept vd'') : vd.Kept vd'' :=
  ⟨h.toSameShape.trans h'.toSameShape, fun k => (h'.smo k).trans (h.smo k)⟩

/-- Only metaslab `m` has changed, and the order of the group. -/
structure Vdev.Changed (vd vd' : Vdev) (m : ℕ) : Prop extends Vdev.Kept vd vd' where
  others : ∀ k, k ≠ m → vd'.vdevMs k = vd.vdevMs k
  tree : ∀ x ∈ vd'.vdevMg.mgMetaslabTree, x = m ∨ x ∈ vd.vdevMg.mgMetaslabTree

namespace Vdev.Changed

theorem refl (vd : Vdev) (m : ℕ) : vd.Changed vd m :=
  ⟨Kept.refl vd, fun _ _ => rfl, fun _ hx => Or.inr hx⟩

theorem trans (h : vd.Changed vd' m) (h' : vd'.Changed vd'' m) : vd.Changed vd'' m :=
  ⟨h.toKept.trans h'.toKept, fun k hk => (h'.others k hk).trans (h.others k hk),
    fun x hx => (h'.tree x hx).elim Or.inl (h.tree x)⟩

theorem setMs (h : msp.msSmoSyncing = (vd.vdevMs m).msSmoSyncing) :
    vd.Changed (vd.setMs m msp) m := by
  refine ⟨⟨setMs_sameShape vd m msp, fun k => ?_⟩, fun _ hk => update_of_ne hk ..,
    fun _ hx => Or.inr hx⟩
  by_cases hk : k = m
  · subst hk
    simpa [Vdev.setMs]
  · simp [Vdev.setMs, hk]

end Vdev.Changed

theorem Vdev.mem_treeAdd {x : ℕ} {l : List ℕ} (h : x ∈ vd.treeAdd m l) : x = m ∨ x ∈ l := by
  induction l with
  | nil => exact Or.inl (by simpa [treeAdd] using h)
  | cons y l ih =>
    rw [treeAdd] at h
    split at h
    · simpa using h
    · rcases List.mem_cons.mp h with rfl | h
      · exact Or.inr (by simp)
      · exact (ih h).imp_right (List.mem_cons_of_mem _)

theorem metaslabGroupSort_changed (vd : Vdev) (m w : ℕ) :
    vd.Changed (metaslabGroupSort vd m w) m := by
  have hc : vd.Changed (vd.setMs m { vd.vdevMs m with msWeight := w }) m := Vdev.Changed.setMs rfl
  refine ⟨⟨⟨rfl, rfl, rfl, rfl, rfl, rfl, rfl⟩, hc.smo⟩, hc.others, fun x hx => ?_⟩
  exact (Vdev.mem_treeAdd hx).imp_right List.mem_of_mem_erase

@[simp] theorem metaslabGroupSort_ms (vd : Vdev) (m w : ℕ) :
    (metaslabGroupSort vd m w).vdevMs m = { vd.vdevMs m with msWeight := w } :=
  update_self ..

@[simp] theorem Vdev.setMs_self (vd : Vdev) (m : ℕ) (msp : Metaslab) :
    (vd.setMs m msp).vdevMs m = msp := update_self ..

theorem Vdev.setMs_of_ne (vd : Vdev) {k : ℕ} (h : k ≠ m) (msp : Metaslab) :
    (vd.setMs m msp).vdevMs k = vd.vdevMs k := update_of_ne h ..

namespace Vdev.Refines

variable {words : Objset}

/-- Changing one metaslab and its ledger. -/
theorem update (h : vd.Refines g words L) (hc : vd.Changed vd' m) (hm : m < g.msCount)
    {L' : Ledger ℕ} (hms : (vd'.vdevMs m).Refines (g.extent m hm) words L') :
    vd'.Refines g words (update L m L') := by
  refine ⟨hc.ashift.trans h.ashift, hc.msShift.trans h.msShift, hc.msCount.trans h.msCount, ?_, ?_⟩
  · intro k hk
    by_cases hkm : k = m
    · subst hkm
      rw [update_self]
      exact hms
    · rw [update_of_ne hkm, hc.others k hkm]
      exact h.ms k hk
  · intro x hx
    rcases hc.tree x hx with rfl | hx
    · exact hm
    · exact h.tree x hx

/-- Replacing one metaslab. -/
theorem setMs (h : vd.Refines g words L) (hm : m < g.msCount) {msp : Metaslab} {L' : Ledger ℕ}
    (hsmo : msp.msSmoSyncing = (vd.vdevMs m).msSmoSyncing)
    (hms : msp.Refines (g.extent m hm) words L') :
    vd.Changed (vd.setMs m msp) m ∧ (vd.setMs m msp).Refines g words (Function.update L m L') := by
  have hc : vd.Changed (vd.setMs m msp) m := Changed.setMs hsmo
  refine ⟨hc, h.update hc hm ?_⟩
  rw [Vdev.setMs_self]
  exact hms

/-- Changing one metaslab but not its ledger. -/
theorem update_self (h : vd.Refines g words L) (hc : vd.Changed vd' m) (hm : m < g.msCount)
    (hms : (vd'.vdevMs m).Refines (g.extent m hm) words (L m)) : vd'.Refines g words L := by
  have := h.update hc hm hms
  rwa [update_eq_self] at this

/-! ## Activating and passivating -/

theorem activate (h : vd.Refines g mos.words L) (hm : m < g.msCount) (hw : w < 2 ^ 64) :
    ∃ vd', metaslabActivate vd mos m w = some vd' ∧ vd.Changed vd' m ∧ vd'.Refines g mos.words L ∧
      (vd'.vdevMs m).msMap.Loaded (L m).avail := by
  have hms := h.ms m hm
  by_cases hactive : (vd.vdevMs m).msWeight &&& metaslabActiveMask = 0
  · obtain ⟨sm, hrun, hl, hs⟩ := hms.load
    set vd₁ := vd.setMs m { vd.vdevMs m with msMap := sm } with hvd₁
    have hc₁ : vd.Changed vd₁ m := Changed.setMs rfl
    have hc : vd.Changed (metaslabGroupSort vd₁ m ((vd.vdevMs m).msWeight ||| w)) m :=
      hc₁.trans (metaslabGroupSort_changed ..)
    refine ⟨_, ?_, hc, h.update_self hc hm ?_, ?_⟩
    · simp only [metaslabActivate, if_pos hactive]
      exact bind_of_some hrun rfl
    · rw [metaslabGroupSort_ms, hvd₁, Vdev.setMs_self]
      exact (hms.set_map hl hs).set_weight (Nat.or_lt_two_pow hms.word hw) fun _ => hl.loaded
    · rw [metaslabGroupSort_ms, hvd₁, Vdev.setMs_self]
      exact hl
  · refine ⟨vd, by simp [metaslabActivate, hactive], Changed.refl vd m, h, ?_⟩
    exact hms.loaded (hms.active hactive)

theorem passivate (h : vd.Refines g words L) (hm : m < g.msCount) (hsize : size < 2 ^ 62) :
    vd.Changed (metaslabPassivate vd m size) m ∧
      (metaslabPassivate vd m size).Refines g words L := by
  have hc := metaslabGroupSort_changed vd m (min (vd.vdevMs m).msWeight size)
  refine ⟨hc, h.update_self hc hm ?_⟩
  rw [metaslabPassivate, metaslabGroupSort_ms]
  have hmin : min (vd.vdevMs m).msWeight size < 2 ^ 62 := lt_of_le_of_lt (min_le_right ..) hsize
  exact (h.ms m hm).set_weight (hmin.trans (by norm_num)) fun hne =>
    absurd (and_metaslabActiveMask_of_lt hmin) hne

end Vdev.Refines

/-! ## Allocating from the group -/

theorem metaslabGroupPick_spec {minDistance activation : ℕ} {dva : List Dva} {l : List ℕ}
    (h : metaslabGroupPick vd size minDistance activation dva l = some m) :
    m ∈ l ∧ size ≤ (vd.vdevMs m).msWeight := by
  induction l with
  | nil => simp [metaslabGroupPick] at h
  | cons x l ih =>
    rw [metaslabGroupPick] at h
    by_cases hlight : (vd.vdevMs x).msWeight < size
    · simp [hlight] at h
    have hx : x ∈ x :: l ∧ size ≤ (vd.vdevMs x).msWeight := ⟨by simp, not_lt.mp hlight⟩
    simp only [if_neg hlight] at h
    generalize u64 (minDistance + if (vd.vdevMs x).msSmo.smoAlloc ≠ 0 then 0
      else minDistance >>> 1) = target at h
    split at h
    · cases h
      exact hx
    · split at h
      · cases h
        exact hx
      · exact ⟨List.mem_cons_of_mem _ (ih h).1, (ih h).2⟩

/-- How often a metaslab may still be tried for an allocation of the given size. -/
def tries (size : ℕ) (msp : Metaslab) : ℕ :=
  if msp.msWeight < size then 0
  else if msp.msWeight &&& metaslabWeightSecondary = 0 then 1 else 2

/-- How many rounds `metaslab_group_alloc` may still take. -/
def rounds (size : ℕ) (vd : Vdev) : ℕ := ∑ m ∈ range vd.vdevMsCount, tries size (vd.vdevMs m)

theorem tries_le (size : ℕ) (msp : Metaslab) : tries size msp ≤ 2 := by
  rw [tries]
  split_ifs <;> omega

theorem rounds_le (size : ℕ) (vd : Vdev) : rounds size vd ≤ 2 * vd.vdevMsCount := by
  have hle := sum_le_card_nsmul (range vd.vdevMsCount) (fun m => tries size (vd.vdevMs m)) 2
    fun m _ => tries_le size _
  rw [card_range, smul_eq_mul, mul_comm] at hle
  exact hle

theorem rounds_lt (hc : vd.Changed vd' m) (hm : m < vd.vdevMsCount)
    (hlt : tries size (vd'.vdevMs m) < tries size (vd.vdevMs m)) :
    rounds size vd' < rounds size vd := by
  rw [rounds, rounds, hc.msCount]
  refine sum_lt_sum (fun k _ => ?_) ⟨m, mem_range.mpr hm, hlt⟩
  by_cases hk : k = m
  · exact hk ▸ hlt.le
  · rw [hc.others k hk]

/-- A metaslab that has just failed is not tried again. -/
theorem tries_of_light (hw : w < size) :
    tries size { msp with msWeight := w } = 0 := if_pos hw

theorem tries_pos (h : size ≤ msp.msWeight) : 0 < tries size msp := by
  rw [tries, if_neg (not_lt.mpr h)]
  split_ifs <;> omega

/-- A metaslab that is no longer active is tried once. -/
theorem tries_of_inactive (hw : w < 2 ^ 62) : tries size { msp with msWeight := w } ≤ 1 := by
  have hand : w &&& metaslabWeightSecondary = 0 := by
    have h62 : metaslabWeightSecondary = 2 ^ 62 := by decide
    rw [h62, Nat.and_two_pow, Nat.testBit_lt_two_pow hw]
    simp
  simp only [tries, hand, if_true]
  split_ifs <;> omega

/-- The metaslab that a round picks is set up, and then it either hands out a range or
it is out of space. -/
theorem Vdev.Refines.tryAlloc (h : vd.Refines g mos.words L) (hm : m < g.msCount)
    (hl : (vd.vdevMs m).msMap.Loaded (L m).avail) (hpos : 0 < size) (hsize : size < 2 ^ 62)
    (hlow : ¬ 2 ^ 32 ∣ size) (hunits : 2 ^ g.ashift ∣ size) (ht : (L m).syncing ≤ txg ∧
      txg ≤ (L m).syncing + 2) :
    ∃ offset sm, spaceMapAlloc (vd.vdevMs m).msMap size = some (offset, sm) ∧
      (offset = minusOne ∧ (vd.setMs m { vd.vdevMs m with msMap := sm }).Refines g mos.words L ∨
        offset ≠ minusOne ∧ (g.extent m hm).Range offset size ∧
          ∃ (hI : Ico offset (offset + size) ⊆ (L m).avail) (am : SpaceMap),
            spaceMapAdd ((vd.vdevMs m).msAllocmap (txgSlot txg)) offset size = some am ∧
            (vd.setMs m { vd.vdevMs m with
              msMap := sm
              msAllocmap := Function.update (vd.vdevMs m).msAllocmap (txgSlot txg) am }).Refines g
                mos.words (Function.update L m ((L m).allocate txg _ ht hI))) := by
  have hms := h.ms m hm
  have hs := hms.spans
  obtain ⟨offset, sm, hrun, hspans, hcases⟩ := spaceMapAlloc_spec hl
    (by rw [hs.start, hs.size]; exact (g.extent m hm).half) hpos (by omega) hlow
    (by rw [hs.shift]; exact hunits)
  rw [hs.start, hs.size, hs.shift] at hspans
  refine ⟨offset, sm, hrun, hcases.imp (fun ⟨hoff, hl'⟩ => ⟨hoff, ?_⟩)
    fun ⟨hoff, hr, hI, hl'⟩ => ⟨hoff, ?_, hI, ?_⟩⟩
  · refine h.update_self (Changed.setMs rfl) hm ?_
    rw [Vdev.setMs_self]
    exact hms.set_map hl' hspans
  · exact hs.range.mp hr
  · obtain ⟨am, ham, hms'⟩ := hms.allocate ht (hs.range.mp hr) hI hl' hspans
    exact ⟨am, ham, (h.setMs hm (by rfl) hms').2⟩

/-- What an allocation does to the ledgers of a device: there is no room, or a range that
was available is handed out. -/
inductive Vdev.Allocated (g : Geometry) (words : Objset) (L : ℕ → Ledger ℕ) (size txg : ℕ) :
    ℕ → Vdev → Prop
  | full {vd : Vdev} (h : vd.Refines g words L) : Allocated g words L size txg minusOne vd
  | room {vd : Vdev} {offset m : ℕ} (hoff : offset ≠ minusOne) (hm : m < g.msCount)
      (hr : (g.extent m hm).Range offset size)
      (ht : (L m).syncing ≤ txg ∧ txg ≤ (L m).syncing + 2)
      (hI : Ico offset (offset + size) ⊆ (L m).avail)
      (h : vd.Refines g words (Function.update L m ((L m).allocate txg _ ht hI))) :
      Allocated g words L size txg offset vd

theorem activationWeight_lt (vd : Vdev) (dva : List Dva) : activationWeight vd dva < 2 ^ 64 := by
  rw [activationWeight]
  split <;> decide

section

variable (hpos : 0 < size) (hsize : size < 2 ^ 62) (hlow : ¬ 2 ^ 32 ∣ size)
  (hunits : 2 ^ g.ashift ∣ size)
  (ht : ∀ m, m < g.msCount → (L m).syncing ≤ txg ∧ txg ≤ (L m).syncing + 2)

include hpos hsize hlow hunits ht

theorem metaslabGroupAllocLoop_spec {activation : ℕ} (hact : activation < 2 ^ 64) (minDistance : ℕ)
    (dva : List Dva) {n : ℕ} (h : vd.Refines g mos.words L) (hn : rounds size vd < n) :
    ∃ offset vd', metaslabGroupAllocLoop mos size txg minDistance activation dva n vd =
        some (offset, vd') ∧ vd.Kept vd' ∧ Vdev.Allocated g mos.words L size txg offset vd' := by
  induction n generalizing vd with
  | zero => omega
  | succ n ih =>
    rw [metaslabGroupAllocLoop]
    cases hpick : metaslabGroupPick vd size minDistance activation dva
        vd.vdevMg.mgMetaslabTree with
    | none => exact ⟨_, _, rfl, Vdev.Kept.refl vd, .full h⟩
    | some m =>
      obtain ⟨hmem, hheavy⟩ := metaslabGroupPick_spec hpick
      have hm := h.tree m hmem
      have hm' : m < vd.vdevMsCount := h.msCount ▸ hm
      -- each round that fails leaves fewer rounds
      have hnext : ∀ vd', vd.Changed vd' m → vd'.Refines g mos.words L →
          tries size (vd'.vdevMs m) < tries size (vd.vdevMs m) →
          ∃ offset vd'', metaslabGroupAllocLoop mos size txg minDistance activation dva n vd' =
            some (offset, vd'') ∧ vd.Kept vd'' ∧
            Vdev.Allocated g mos.words L size txg offset vd'' := by
        intro vd' hc h' hlt
        have hround := rounds_lt hc hm' hlt
        obtain ⟨offset, vd'', hrun, hk, ha⟩ := ih h' (by omega)
        exact ⟨offset, vd'', hrun, hc.toKept.trans hk, ha⟩
      by_cases hsec : (vd.vdevMs m).msWeight &&& metaslabWeightSecondary ≠ 0 ∧
          activation = metaslabWeightPrimary
      · simp only [if_pos hsec]
        have hw : (vd.vdevMs m).msWeight - ((vd.vdevMs m).msWeight &&& metaslabActiveMask) <
            2 ^ 62 := by
          have hword := (h.ms m hm).word
          rw [and_metaslabActiveMask]
          omega
        obtain ⟨hc, h'⟩ := h.passivate hm hw
        refine hnext _ hc h' (lt_of_le_of_lt (b := 1) ?_ ?_)
        · rw [metaslabPassivate, metaslabGroupSort_ms]
          exact tries_of_inactive (lt_of_le_of_lt (min_le_right ..) hw)
        · rw [tries, if_neg (not_lt.mpr hheavy), if_neg hsec.1]
          omega
      · simp only [if_neg hsec]
        obtain ⟨vd₁, hrun₁, hc₁, h₁, hl⟩ := h.activate hm hact
        obtain ⟨offset, sm, hrun₂, hfull | ⟨hoff, hr, hI, am, hrun₃, h₂⟩⟩ :=
          h₁.tryAlloc hm hl hpos hsize hlow hunits (ht m hm)
        · obtain ⟨rfl, h₂⟩ := hfull
          have hsub : u64Sub size 1 = size - 1 := by
            rw [u64Sub, u64]
            omega
          obtain ⟨hc₂, h₃⟩ := h₂.passivate hm (by omega : u64Sub size 1 < 2 ^ 62)
          have hc := hc₁.trans ((Vdev.Changed.setMs (by rfl)).trans hc₂)
          obtain ⟨offset, vd', hrun, hk, ha⟩ := hnext _ hc h₃ (by
            rw [metaslabPassivate, metaslabGroupSort_ms, tries_of_light]
            · exact tries_pos hheavy
            · have :=
            min_le_right ((vd₁.setMs m { vd₁.vdevMs m with msMap := sm }).vdevMs m).msWeight
                (u64Sub size 1)
              omega)
          refine ⟨offset, vd', bind_of_some hrun₁ (bind_of_some hrun₂ ?_), hk, ha⟩
          simpa using hrun
        · refine ⟨offset, _, bind_of_some hrun₁ (bind_of_some hrun₂ ?_), ?_,
            .room hoff hm hr (ht m hm) hI h₂⟩
          · rw [if_pos hoff]
            exact bind_of_some hrun₃ rfl
          · exact hc₁.toKept.trans (Vdev.Changed.setMs (by rfl)).toKept

/-- **`metaslab_group_alloc`** returns, and hands out space that was available. -/
theorem metaslabGroupAlloc_spec (minDistance : ℕ) (dva : List Dva) (h : vd.Refines g mos.words L) :
    ∃ offset vd', metaslabGroupAlloc vd mos size txg minDistance dva = some (offset, vd') ∧
      vd.Kept vd' ∧ Vdev.Allocated g mos.words L size txg offset vd' :=
  metaslabGroupAllocLoop_spec hpos hsize hlow hunits ht (activationWeight_lt vd dva)
    minDistance dva h
    (Nat.lt_succ_of_le (rounds_le size vd))

end

end Polaris
