import Polaris.Metaslab.Group

/-!
# The functions on a device

What claiming a block, syncing a metaslab and ending a transaction group do to the
ledgers of a device, and how a device comes to have ledgers at all:
`vdev_metaslab_init` opens one for each metaslab, from its space map object.

## Main statements

* `metaslabWeight_spec`
* `Vdev.Refines.claim`, `Vdev.Refines.sync`, `Vdev.Refines.done`, `Vdev.Refines.skip`
* `vdevMetaslabInit_spec`
-/

namespace Polaris

open Finset Function Option

variable {vd : Vdev} {g : Geometry} {m offset size txg : ℕ} {msp : Metaslab} {e : Extent}
  {words : Objset} {mos : Mos} {smo : SpaceMapObj} {D : Finset ℕ}

/-! ## Weights -/

/-- The weight without the active bits. -/
theorem weight_lt {space count object : ℕ} (hspace : space ≤ 2 ^ 59) (hm : m < count)
    (hfit : m * space < 2 ^ 64) :
    (if object ≠ 0 then
      u64 (u64Sub (u64 (2 * space)) (u64 (m * space) / count) * metaslabSmoBonusMultiplier)
      else u64Sub (u64 (2 * space)) (u64 (m * space) / count)) < 2 ^ 62 := by
  have hquot : m * space / count ≤ space := by
    refine Nat.div_le_of_le_mul ?_
    exact Nat.mul_le_mul_right _ hm.le
  have hbase : u64Sub (u64 (2 * space)) (u64 (m * space) / count) ≤ 2 ^ 60 := by
    rw [u64_of_lt (by omega : 2 * space < 2 ^ 64), u64_of_lt hfit,
      u64Sub_of_le (by omega) (by omega)]
    exact (Nat.sub_le ..).trans (by omega)
  rw [metaslabSmoBonusMultiplier]
  split
  · rw [u64_of_lt (by omega)]
    omega
  · omega

/-- **`metaslab_weight`** keeps the active bits and sets no others of them. -/
theorem metaslabWeight_spec (hshift : vd.vdevMsShift = g.msShift)
    (hcount : vd.vdevMsCount = g.msCount) (hm : m < g.msCount) {L : Ledger ℕ}
    (h : msp.Refines (g.extent m hm) words L) :
    metaslabWeight vd msp < 2 ^ 64 ∧
      metaslabWeight vd msp &&& metaslabActiveMask = msp.msWeight &&& metaslabActiveMask := by
  have hlight := h.light
  have hsize : (g.extent m hm).size ≤ 2 ^ 59 := (g.extent m hm).light
  have hstart : (g.extent m hm).start >>> g.msShift = m := by
    rw [Nat.shiftRight_eq_div_pow, Geometry.extent]
    exact Nat.mul_div_cancel _ (Nat.two_pow_pos _)
  have hfit : m * ((g.extent m hm).size - msp.msSmo.smoAlloc) < 2 ^ 64 := by
    have hle : m * ((g.extent m hm).size - msp.msSmo.smoAlloc) ≤ m * (g.extent m hm).size :=
      Nat.mul_le_mul_left _ (Nat.sub_le ..)
    have hhalf := (g.extent m hm).half
    have hdef : (g.extent m hm).start = m * (g.extent m hm).size := rfl
    omega
  have hlt := @weight_lt _ _ _ msp.msSmo.smoObject (by omega) hm hfit
  simp only [metaslabWeight, h.spans.start, h.spans.size, hshift, hcount, hstart,
    u64Sub_of_le hlight (by omega)]
  refine ⟨Nat.or_lt_two_pow (hlt.trans (by norm_num)) ?_, ?_⟩
  · exact Nat.and_le_left.trans_lt h.word
  · rw [Nat.and_or_distrib_right, and_metaslabActiveMask_of_lt hlt, Nat.zero_or, Nat.and_assoc,
      Nat.and_self]

/-- A free changes no object of the metaslab. -/
theorem metaslabFree_smoSyncing {msp' : Metaslab} {now : Bool}
    (hrun : metaslabFree msp offset size txg now = some msp') :
    msp'.msSmoSyncing = msp.msSmoSyncing := by
  cases now
  all_goals
    simp [metaslabFree, bind_eq_some_iff] at hrun
    grind

namespace Vdev.Refines

variable {L : ℕ → Ledger ℕ}

/-! ## Claiming, freeing and syncing -/

/-- **`metaslab_claim_dva`** returns only if the range is available, and takes it. -/
theorem claim (h : vd.Refines g mos.words L) (hm : m < g.msCount)
    (ht : (L m).syncing ≤ txg ∧ txg ≤ (L m).syncing + 2) (hfit : offset + size < 2 ^ 64)
    {vd' : Vdev} (hrun : metaslabClaim vd mos m offset size txg = some vd') :
    vd.Kept vd' ∧ (g.extent m hm).Range offset size ∧
      ∃ hI : Ico offset (offset + size) ⊆ (L m).avail,
        vd'.Refines g mos.words (Function.update L m ((L m).allocate txg _ ht hI)) := by
  obtain ⟨vd₁, hrun₁, hc₁, h₁, hl⟩ := h.activate (w := metaslabWeightSecondary) hm (by decide)
  simp only [metaslabClaim, hrun₁, bind_eq_bind, bind_some,
    bind_eq_some_iff] at hrun
  obtain ⟨sm, hsm, am, ham, hvd'⟩ := hrun
  cases hvd'
  have hms := h₁.ms m hm
  have hs := hms.spans
  obtain ⟨hr, hI, hl', hsame⟩ := spaceMapClaim_inv hl hfit hsm
  rw [hs.range] at hr
  obtain ⟨am', ham', hms'⟩ := hms.allocate ht hr hI hl' (hs.of_same hsame)
  cases ham.symm.trans ham'
  obtain ⟨hc, hvd⟩ := h₁.setMs hm (by rfl) hms'
  exact ⟨hc₁.toKept.trans hc.toKept, hr, hI, hvd⟩

/-- Only the objects of the metaslabs matter. -/
theorem set_words (h : vd.Refines g words L) {words' : Objset}
    (hw : ∀ k, k < g.msCount → (vd.vdevMs k).msSmoSyncing.smoObject ≠ 0 →
      words' (vd.vdevMs k).msSmoSyncing.smoObject = words (vd.vdevMs k).msSmoSyncing.smoObject) :
    vd.Refines g words' L :=
  { h with ms := fun k hk => (h.ms k hk).set_words (hw k hk) }

/-- **`metaslab_sync`** of one metaslab of a device. -/
theorem sync (h : vd.Refines g mos.words L) (hm : m < g.msCount) {newObject : ℕ}
    (hnew : FreshObject vd (vd.vdevMs m) mos newObject)
    (hobj : ∀ k, k < g.msCount → k ≠ m → (vd.vdevMs k).msSmoSyncing.smoObject ≠ 0 →
      (vd.vdevMs k).msSmoSyncing.smoObject ≠ syncedObject (vd.vdevMs m) newObject ∧
      (vd.vdevMs k).msSmoSyncing.smoObject ≠ vd.vdevMsArray) (syncPass : ℕ) :
    ∃ msp' mos', metaslabSync vd (vd.vdevMs m) mos (L m).syncing syncPass newObject =
        some (msp', mos') ∧
      (vd.setMs m msp').Refines g mos'.words (Function.update L m (L m).sync) ∧
      msp'.msSmoSyncing.smoObject = syncedObject (vd.vdevMs m) newObject ∧
      ∀ o, o ≠ syncedObject (vd.vdevMs m) newObject → o ≠ vd.vdevMsArray →
        mos'.words o = mos.words o := by
  obtain ⟨msp', mos', hrun, hms, hsynced, hothers⟩ := (h.ms m hm).sync hnew syncPass
  refine ⟨msp', mos', hrun, ⟨h.ashift, h.msShift, h.msCount, fun k hk => ?_, h.tree⟩,
    hsynced, hothers⟩
  by_cases hkm : k = m
  · subst hkm
    rw [Function.update_self, Vdev.setMs_self]
    exact hms
  · rw [update_of_ne hkm, vd.setMs_of_ne hkm]
    refine (h.ms k hk).set_words fun hne => ?_
    obtain ⟨h1, h2⟩ := hobj k hk hkm hne
    exact hothers _ h1 h2

section

variable (h : vd.Refines g words L) (hm : m < g.msCount)

include h hm

/-- **`metaslab_sync_done`** of one metaslab of a device. -/
theorem done (hA : (L m).alloc (L m).syncing = ∅) (hF : (L m).free (L m).syncing = ∅) :
    ∃ vd', metaslabSyncDone vd m (L m).syncing = some vd' ∧ vd.Changed vd' m ∧
      vd'.Refines g words (Function.update L m ((L m).done hA hF)) := by
  have hms := h.ms m hm
  obtain ⟨fm, sm, msp', hrun, hevict, hms', hsmo⟩ := hms.done hA hF
  obtain ⟨hlt, hmask⟩ := metaslabWeight_spec h.msShift h.msCount hm hms'
  have hc : vd.Changed (metaslabGroupSort (vd.setMs m msp') m (metaslabWeight vd msp')) m :=
    (Changed.setMs hsmo).trans (metaslabGroupSort_changed ..)
  refine ⟨_, ?_, hc, h.update hc hm ?_⟩
  · have hsize : ((vd.vdevMs m).msFreemap (txgSlot ((L m).syncing + 3))).smSize ≠ 0 := by
      rw [hms.freed.spans.size]
      exact (g.extent m hm).units.pos.ne'
    simp only [metaslabSyncDone, txgSlot_clean, if_neg hsize]
    exact bind_of_some hrun (bind_of_some hevict rfl)
  · rw [metaslabGroupSort_ms, Vdev.setMs_self]
    exact hms'.set_weight hlt (by rw [hmask]; exact hms'.active)

/-- A metaslab in which nothing was allocated or freed is not synced. -/
theorem skip (hA : (L m).alloc (L m).syncing = ∅) (hF : (L m).free (L m).syncing = ∅)
    (hfreed : (L m).freed = ∅) :
    vd.Refines g words (Function.update L m ((L m).done hA hF)) :=
  h.update (Changed.refl vd m) hm ((h.ms m hm).skip hA hF hfreed)

/-- **`metaslab_free_dva`** of a block in group `txg`. -/
theorem freeDeferred (ht : (L m).syncing ≤ txg ∧ txg ≤ (L m).syncing + 2)
    (hr : (g.extent m hm).Range offset size)
    {birth : ℕ} (hb : birth ≤ txg) (hold : (L m).Holds (Ico offset (offset + size)) birth none) :
    ∃ msp', metaslabFree (vd.vdevMs m) offset size txg false = some msp' ∧
      vd.Changed (vd.setMs m msp') m ∧
      (vd.setMs m msp').Refines g words (Function.update L m ((L m).defer txg _ ht
        fun _ hx => hold.deferrable hb hx)) := by
  obtain ⟨msp', hrun, hms⟩ := (h.ms m hm).free_deferred ht hr (fun _ hx => hold.deferrable hb hx)
    fun _ hx => hold.not_dying hx
  obtain ⟨hc, hvd⟩ := h.setMs hm (metaslabFree_smoSyncing hrun) hms
  exact ⟨msp', hrun, hc, hvd⟩

/-- **`metaslab_free_dva`** of a block that was allocated in the same group. -/
theorem freeNow (ht : (L m).syncing ≤ txg ∧ txg ≤ (L m).syncing + 2)
    (hfit : offset + size < 2 ^ 64) {birth : ℕ}
    (hold : (L m).Holds (Ico offset (offset + size)) birth none) {msp' : Metaslab}
    (hrun : metaslabFree (vd.vdevMs m) offset size txg true = some msp') :
    vd.Changed (vd.setMs m msp') m ∧ ∃ hI : Ico offset (offset + size) ⊆ (L m).alloc txg,
      (vd.setMs m msp').Refines g words (Function.update L m ((L m).release txg _ hI)) := by
  obtain ⟨hI, hms⟩ := (h.ms m hm).free_now ht hfit (fun _ hx => hold.not_dying hx) hrun
  obtain ⟨hc, hvd⟩ := h.setMs hm (metaslabFree_smoSyncing hrun) hms
  exact ⟨hc, hI, hvd⟩

end

end Vdev.Refines

/-! ## Opening a device -/

/-- A space map object that has `D` allocated, or no object and nothing allocated. -/
def SmoLogs (e : Extent) (words : Objset) (smo : SpaceMapObj) (D : Finset ℕ) : Prop :=
  smo = ⟨0, 0, 0⟩ ∧ D = ∅ ∨
    smo.smoObject ≠ 0 ∧ ∃ l, ObjLog e.start e.size e.shift words smo l D

theorem SmoLogs.subset (h : SmoLogs e words smo D) : D ⊆ e.bytes := by
  rcases h with ⟨-, rfl⟩ | ⟨-, l, hlog⟩
  · exact empty_subset _
  · exact hlog.replays.subset

/-- A metaslab that has just been set up keeps the ledger of its object. -/
theorem Metaslab.refines_opened (hlog : SmoLogs e words msp.msSmoSyncing D)
    (hsmo : msp.msSmo = msp.msSmoSyncing)
    (halloc : ∀ i, (msp.msAllocmap i).On e ∅) (hfree : ∀ i, (msp.msFreemap i).On e ∅)
    (hmap : msp.msMap.Unloaded) (hs : msp.msMap.Spans e.start e.size e.shift)
    (hw : msp.msWeight = 0) (s : ℕ) :
    msp.Refines e words (Ledger.opened e.bytes D s hlog.subset) := by
  have hfreed : (Ledger.opened e.bytes D s hlog.subset).freed = ∅ :=
    Ledger.opened_inPhase (by simp) (by simp)
  have hempty : ∀ t, (Ledger.opened e.bytes D s hlog.subset).alloc t = ∅ := fun t =>
    Ledger.opened_inPhase (by simp) (by simp)
  have hcard : msp.msSmoSyncing.smoAlloc = D.card := by
    rcases hlog with ⟨hzero, hD⟩ | ⟨-, l, hlog⟩
    · rw [hzero, hD]
      rfl
    · exact hlog.alloc
  have hlogged : ∃ l, Logged words msp.msSmoSyncing l ∧ Replays e.start e.size e.shift l D := by
    rcases hlog with ⟨hzero, hD⟩ | ⟨-, l, hlog⟩
    · rw [hzero, hD]
      exact ⟨[], ⟨rfl, _, (List.nil_append _).symm⟩, .nil⟩
    · exact ⟨l, hlog.written.logged, hlog.replays⟩
  refine ⟨rfl, fun i _ => ?_, fun i _ => ?_, ?_, hs, Or.inr ⟨hmap, hempty, ?_, ?_⟩, ?_,
    ?_, ?_, ?_, ?_⟩
  · rw [hempty]
    exact halloc _
  · rw [Ledger.opened_free]
    exact hfree _
  · rw [hfreed]
    exact hfree _
  · rw [hsmo, Ledger.opened_disk, hfreed, union_empty]
    exact hlogged
  · rw [hsmo, Ledger.opened_disk, hfreed, union_empty]
    exact hcard
  · rw [Ledger.opened_disk]
    exact hlog
  · rw [hsmo]
    exact hlog.imp (fun h => by simp [h.1]) fun h => ⟨h.1, rfl⟩
  · rw [hsmo, hcard]
    have hle := card_le_card hlog.subset
    rwa [Extent.bytes, Nat.card_Ico, Nat.add_sub_cancel_left] at hle
  · simp [hw]
  · simp [hw]

/-- A metaslab as `metaslab_init` leaves it, up to its weight. -/
def newMetaslab (e : Extent) (smo : SpaceMapObj) (fm : SpaceMap) : Metaslab where
  msSmo := smo
  msSmoSyncing := smo
  msAllocmap := fun _ => spaceMapCreate e.start e.size e.shift
  msFreemap := Function.update (fun _ => spaceMapCreate e.start e.size e.shift)
    (txgSlot (txgClean 0)) fm
  msMap := spaceMapCreate e.start e.size e.shift
  msWeight := 0

theorem newMetaslab_refines (hlog : SmoLogs e words smo D) {fm : SpaceMap}
    (hfm : fm.On e ∅) (s : ℕ) :
    (newMetaslab e smo fm).Refines e words (Ledger.opened e.bytes D s hlog.subset) := by
  have hon := SpaceMap.On.create e
  refine Metaslab.refines_opened hlog rfl (fun _ => hon) (fun i => ?_) ⟨hon.rep, rfl, rfl, rfl⟩
    hon.spans rfl s
  by_cases hi : i = txgSlot (txgClean 0)
  · simp only [newMetaslab, hi, update_self]
    exact hfm
  · simp only [newMetaslab, update_of_ne hi]
    exact hon

/-- The first `metaslab_sync_done` creates the maps. -/
theorem metaslabSyncDone_new
    (hms : vd.vdevMs m =
      { msSmo := ⟨0, 0, 0⟩
        msSmoSyncing := smo
        msAllocmap := fun _ => spaceMapCreate 0 0 0
        msFreemap := fun _ => spaceMapCreate 0 0 0
        msMap := spaceMapCreate e.start e.size e.shift
        msWeight := 0 }) :
    ∃ fm : SpaceMap, fm.On e ∅ ∧ metaslabSyncDone vd m 0 =
      some (metaslabGroupSort (vd.setMs m (newMetaslab e smo fm)) m
        (metaslabWeight vd (newMetaslab e smo fm))) := by
  obtain ⟨fm, hvacate, hfm⟩ := (SpaceMap.On.create e).vacate (spaceMapCreate e.start e.size e.shift)
  refine ⟨fm, hfm, ?_⟩
  have hsize : (spaceMapCreate 0 0 0).smSize = 0 := rfl
  have hevict : ∀ msp : Metaslab, msp.msMap.smLoaded = false → metaslabEvict msp 0 = some msp := by
    intro msp hl
    simp [metaslabEvict, hl]
  simp only [metaslabSyncDone, hms, hsize, if_true]
  exact bind_of_some hvacate (bind_of_some (hevict _ rfl) rfl)

/-- **`metaslab_init`** when a pool is opened or created. -/
theorem metaslabInit_spec (hashift : vd.vdevAshift = g.ashift) (hshift : vd.vdevMsShift = g.msShift)
    (hcount : vd.vdevMsCount = g.msCount) (hm : m < g.msCount)
    (hlog : SmoLogs (g.extent m hm) words smo D) (htxg : txg ≤ txgInitial) :
    ∃ vd', metaslabInit vd m smo (g.extent m hm).start (g.extent m hm).size txg = some vd' ∧
      vd.SameShape vd' ∧ (∀ k, k ≠ m → vd'.vdevMs k = vd.vdevMs k) ∧
      (∀ x ∈ vd'.vdevMg.mgMetaslabTree, x = m ∨ x ∈ vd.vdevMg.mgMetaslabTree) ∧
      (vd'.vdevMs m).msSmoSyncing = smo ∧
      ∀ s, (vd'.vdevMs m).Refines (g.extent m hm) words (Ledger.opened _ D s hlog.subset) := by
  rw [metaslabInit, if_pos htxg, hashift]
  generalize hvd₁ : metaslabGroupAdd vd m _ = vd₁
  have hshape : vd.SameShape vd₁ := hvd₁ ▸ ⟨rfl, rfl, rfl, rfl, rfl, rfl, rfl⟩
  have hothers : ∀ k, k ≠ m → vd₁.vdevMs k = vd.vdevMs k := fun k hk =>
    hvd₁ ▸ update_of_ne hk ..
  have htree : ∀ x ∈ vd₁.vdevMg.mgMetaslabTree, x = m ∨
    x ∈ vd.vdevMg.mgMetaslabTree := fun x hx => by
    rw [← hvd₁] at hx
    exact Vdev.mem_treeAdd hx
  obtain ⟨fm, hfm, hrun⟩ := @metaslabSyncDone_new vd₁ m (g.extent m hm) _
    (by rw [← hvd₁]; exact update_self ..)
  have hrefines := newMetaslab_refines hlog hfm
  have hsort := metaslabGroupSort_changed (vd₁.setMs m (newMetaslab (g.extent m hm) smo fm)) m
    (metaslabWeight vd₁ (newMetaslab (g.extent m hm) smo fm))
  obtain ⟨hlt, hmask⟩ := metaslabWeight_spec (hshape.msShift.trans hshift)
    (hshape.msCount.trans hcount) hm (hrefines 0)
  refine ⟨_, hrun, (hshape.trans (vd₁.setMs_sameShape ..)).trans hsort.toSameShape, fun k hk => ?_,
    fun x hx => ?_, ?_, fun s => ?_⟩
  · rw [hsort.others k hk, vd₁.setMs_of_ne hk]
    exact hothers k hk
  · rcases hsort.tree x hx with rfl | hx
    · exact Or.inl rfl
    · exact htree x hx
  · rw [metaslabGroupSort_ms, Vdev.setMs_self]
    rfl
  · rw [metaslabGroupSort_ms, Vdev.setMs_self]
    exact (hrefines s).set_weight hlt (by rw [hmask]; exact (hrefines s).active)

theorem vdevMetaslabSmo_congr {vd' : Vdev} (h : vd.SameShape vd') (mos : Mos) (m txg : ℕ) :
    vdevMetaslabSmo vd' mos m txg = vdevMetaslabSmo vd mos m txg := by
  simp only [vdevMetaslabSmo, h.msArray]

/-- The first `k` metaslabs have been set up. -/
structure Vdev.Opening (vd vd' : Vdev) (g : Geometry) (mos : Mos) (txg : ℕ) (D : ℕ → Finset ℕ)
    (k : ℕ) : Prop where
  shape : vd.SameShape vd'
  tree : ∀ x ∈ vd'.vdevMg.mgMetaslabTree, x < k
  smo : ∀ m, m < k → (vd'.vdevMs m).msSmoSyncing = vdevMetaslabSmo vd mos m txg
  ms : ∀ m (hm : m < g.msCount), m < k → ∃ hD, ∀ s,
    (vd'.vdevMs m).Refines (g.extent m hm) mos.words
      (Ledger.opened (g.extent m hm).bytes (D m) s hD)

section

variable (htxg : txg ≤ txgInitial) (hashift : vd.vdevAshift = g.ashift)
  (hshift : vd.vdevMsShift = g.msShift) (htree : vd.vdevMg.mgMetaslabTree = []) {D : ℕ → Finset ℕ}
  (hlog : ∀ m (hm : m < g.msCount),
    SmoLogs (g.extent m hm) mos.words (vdevMetaslabSmo vd mos m txg) (D m))

include htxg hashift hshift htree hlog

theorem vdevMetaslabInit_loop (hcount : vd.vdevMsCount = g.msCount) :
    ∀ k, k ≤ g.msCount → ∃ vd', (List.range k).foldlM
      (fun vd m => metaslabInit vd m (vdevMetaslabSmo vd mos m txg) (m <<< vd.vdevMsShift)
        (1 <<< vd.vdevMsShift) txg) vd = some vd' ∧ vd.Opening vd' g mos txg D k := by
  intro k
  induction k with
  | zero =>
    exact fun _ => ⟨vd, rfl, .refl vd, by simp [htree], fun _ h => absurd h (by omega),
      fun _ _ h => absurd h (by omega)⟩
  | succ k ih =>
    intro hk
    obtain ⟨vd₁, hrun₁, h₁⟩ := ih (by omega)
    have hshape := h₁.shape
    have hshift₁ := hshape.msShift.trans hshift
    obtain ⟨vd', hrun, hshape', hothers, htree', hsmo, hms⟩ := metaslabInit_spec
      (hshape.ashift.trans hashift) hshift₁ (hshape.msCount.trans hcount) (by omega : k < g.msCount)
      (hlog k (by omega)) htxg
    refine ⟨vd', ?_, hshape.trans hshape', fun x hx => ?_, fun m hm => ?_, fun m hm hmk => ?_⟩
    · rw [List.range_succ, List.foldlM_append]
      refine bind_of_some hrun₁ (bind_of_some ?_ rfl)
      simp only [vdevMetaslabSmo_congr hshape, hshift₁, Nat.shiftLeft_eq, Nat.one_mul]
      exact hrun
    · rcases htree' x hx with rfl | hx
      · omega
      · have := h₁.tree x hx
        omega
    · by_cases hmk : m = k
      · exact hmk ▸ hsmo
      · rw [hothers m hmk]
        exact h₁.smo m (by omega)
    · by_cases hmk' : m = k
      · subst hmk'
        exact ⟨_, hms⟩
      · rw [hothers m hmk']
        exact h₁.ms m hm (by omega)

/-- **`vdev_metaslab_init`** when a pool is opened or created.  The ledgers begin with any
group. -/
theorem vdevMetaslabInit_spec (hne : vd.vdevMsShift ≠ 0)
    (hcount : vd.vdevAsize >>> vd.vdevMsShift = g.msCount) :
    ∃ vd', vdevMetaslabInit vd mos txg = some vd' ∧
      { vd with vdevMsCount := g.msCount }.SameShape vd' ∧
      (∀ m, m < g.msCount → (vd'.vdevMs m).msSmoSyncing = vdevMetaslabSmo vd mos m txg) ∧
      ∀ s, ∃ L : ℕ → Ledger ℕ, (∀ m, (L m).syncing = s) ∧ vd'.Refines g mos.words L ∧
        ∀ m I birth, m < g.msCount → I ⊆ D m → (L m).Holds I birth none := by
  obtain ⟨vd', hrun, h⟩ := @vdevMetaslabInit_loop { vd with vdevMsCount := g.msCount } g txg
    mos htxg hashift hshift htree D hlog rfl g.msCount le_rfl
  refine ⟨vd', ?_, h.shape, h.smo, fun s => ?_⟩
  · simp only [vdevMetaslabInit, if_neg hne, hcount]
    exact hrun
  · have hD : ∀ m (hm : m < g.msCount), D m ⊆ (g.extent m hm).bytes :=
      fun m hm => (hlog m hm).subset
    refine ⟨fun m => if hm : m < g.msCount then Ledger.opened _ (D m) s (hD m hm)
      else Ledger.opened ∅ ∅ s (empty_subset _), fun m => ?_, ⟨h.shape.ashift.trans hashift,
      h.shape.msShift.trans hshift, h.shape.msCount, fun m hm => ?_, h.tree⟩,
      fun m I birth hm hI => ?_⟩
    · simp only
      split <;> rfl
    · obtain ⟨_, hms⟩ := h.ms m hm hm
      rw [dif_pos hm]
      exact hms s
    · simp only [dif_pos hm]
      exact Ledger.Holds.opened hI

end

end Polaris
