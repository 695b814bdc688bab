import Polaris.Metaslab.Refine

/-!
# Syncing a metaslab

`metaslab_sync` writes the syncing group to the space map object, and
`metaslab_sync_done` makes available what the group has freed.  They refine
`Ledger.sync` and `Ledger.done`.

`metaslab_sync` either appends to the object or condenses it.  Both leave the same
space allocated on disk, because what is available in core and what is allocated in
later groups determine it.

## Main statements

* `metaslabSyncOpen_spec`, `metaslabCondense_spec`, `metaslabSyncWrite_spec`
* `Metaslab.Refines.sync`, `Metaslab.Refines.done`
-/

namespace Polaris

open Finset Function List Ledger

variable {msp : Metaslab} {e : Extent} {mos : Mos} {L : Ledger ℕ}

/-! ## The parts of `metaslab_sync` -/

/-- The object of a metaslab from the first sync on. -/
def syncedObject (msp : Metaslab) (newObject : ℕ) : ℕ :=
  if msp.msSmoSyncing.smoObject = 0 then newObject else msp.msSmoSyncing.smoObject

/-- What is needed of the object set: `dmu_object_alloc` returns a new object, and the
object of the metaslab is not the array that lists the objects. -/
structure FreshObject (vd : Vdev) (msp : Metaslab) (mos : Mos) (newObject : ℕ) : Prop where
  ne_zero : newObject ≠ 0
  empty : mos.words newObject = []
  ne_array : syncedObject msp newObject ≠ vd.vdevMsArray

theorem metaslabSyncOpen_spec (h : msp.Refines e mos.words L) {vd : Vdev} {newObject : ℕ}
    (hnew : FreshObject vd msp mos newObject) :
    ∃ (fm : SpaceMap) (smo : SpaceMapObj) (words : Objset) (l : List ℕ),
      metaslabSyncOpen vd msp mos L.syncing newObject = some
        ({ msp with
            msSmoSyncing := smo
            msFreemap := update msp.msFreemap (txgSlot (L.syncing + 3)) fm },
          { mos with words := words }) ∧
      fm.On e (L.freed ∪ L.free L.syncing) ∧ smo.smoObject = syncedObject msp newObject ∧
      smo.smoObject ≠ 0 ∧ ObjLog e.start e.size e.shift words smo l L.disk ∧
      ∀ o, o ≠ vd.vdevMsArray → words o = mos.words o := by
  obtain ⟨fm, hrun, hon⟩ := (h.free 0 (by omega)).walk_add h.freed freed_disjoint_free
  simp only [metaslabSyncOpen, txgSlot_clean]
  rcases h.disk with ⟨hzero, hdisk⟩ | ⟨hne, l, hlog⟩
  · have hobj : syncedObject msp newObject = newObject := by simp [syncedObject, hzero]
    have harray := hnew.ne_array
    rw [hobj] at harray
    set words := dmuWrite mos.words vd.vdevMsArray (8 * (msp.msMap.smStart >>> vd.vdevMsShift))
      [newObject]
    have hother : ∀ o, o ≠ vd.vdevMsArray → words o = mos.words o := fun o ho =>
      update_of_ne ho ..
    refine ⟨fm, ⟨newObject, 0, 0⟩, words, [], ?_, hon, hobj.symm, hnew.ne_zero, ?_, hother⟩
    · rw [if_pos (by rw [hzero]), hzero]
      exact bind_of_some hrun rfl
    · rw [hdisk]
      exact ⟨⟨rfl, (hother _ harray).trans hnew.empty⟩, .nil, rfl⟩
  · refine ⟨fm, msp.msSmoSyncing, mos.words, l, ?_, hon, ?_, hne, hlog, fun _ _ => rfl⟩
    · rw [if_neg hne]
      exact bind_of_some hrun rfl
    · rw [syncedObject, if_neg hne]

/-- The two maps of the group extend the log. -/
theorem metaslabSyncWrite_spec {txg : ℕ} {A F D : Finset ℕ} {l : List ℕ}
    (ha : (msp.msAllocmap (txgSlot txg)).On e A) (hf : (msp.msFreemap (txgSlot txg)).On e F)
    (hlog : ObjLog e.start e.size e.shift mos.words msp.msSmoSyncing l D) (hdis : Disjoint D A)
    (hsub : F ⊆ D ∪ A) (syncPass : ℕ) :
    ∃ (am fm : SpaceMap) (smo : SpaceMapObj) (words : Objset) (ws : List ℕ),
      metaslabSyncWrite msp mos txg syncPass = some
        ({ msp with
            msAllocmap := update msp.msAllocmap (txgSlot txg) am
            msFreemap := update msp.msFreemap (txgSlot txg) fm
            msSmoSyncing := smo },
          { words := words, bonus := update mos.bonus smo.smoObject smo }) ∧
      am.On e ∅ ∧ fm.On e ∅ ∧ smo.smoObject = msp.msSmoSyncing.smoObject ∧
      ObjLog e.start e.size e.shift words smo (l ++ ws) ((D ∪ A) \ F) ∧
      ∀ o, o ≠ msp.msSmoSyncing.smoObject → words o = mos.words o := by
  obtain ⟨am, smo₁, os₁, ws₁, hrun₁, ham, hlog₁, hobj₁, hother₁⟩ :=
    ha.sync (t := .smAlloc) hlog hdis syncPass txg
  obtain ⟨fm, smo₂, os₂, ws₂, hrun₂, hfm, hlog₂, hobj₂, hother₂⟩ :=
    hf.sync (t := .smFree) hlog₁ hsub syncPass txg
  rw [hobj₁] at hobj₂ hother₂
  rw [append_assoc] at hlog₂
  exact ⟨am, fm, smo₂, os₂, ws₁ ++ ws₂, bind_of_some hrun₁ (bind_of_some hrun₂ rfl), ham, hfm,
    hobj₂, hlog₂, fun o ho => (hother₂ o ho).trans (hother₁ o ho)⟩

/-- Condensing rebuilds what will be allocated on disk, and empties the object. -/
theorem metaslabCondense_spec
    (halloc : ∀ i, i < 4 →
      (msp.msAllocmap (txgSlot (L.syncing + i))).On e (L.alloc (L.syncing + i)))
    (hfree : (msp.msFreemap (txgSlot L.syncing)).On e (L.free L.syncing))
    (hfreed : (msp.msFreemap (txgSlot (L.syncing + 3))).On e (L.freed ∪ L.free L.syncing))
    (hmap : msp.msMap.On e L.avail) (hall : L.all = e.bytes) :
    ∃ am fm, metaslabCondense msp mos L.syncing = some
        ({ msp with
            msAllocmap := update msp.msAllocmap (txgSlot L.syncing) am
            msFreemap := update msp.msFreemap (txgSlot L.syncing) fm
            msSmoSyncing := { msp.msSmoSyncing with smoObjsize := 0, smoAlloc := 0 } },
          { mos with words := dmuFreeAll mos.words msp.msSmoSyncing.smoObject }) ∧
      am.On e ((L.disk ∪ L.alloc L.syncing) \ L.free L.syncing) ∧ fm.On e ∅ := by
  obtain ⟨am₀, hrun₀, ham₀⟩ := (halloc 0 (by omega)).vacate (msp.msAllocmap (txgSlot L.syncing))
  obtain ⟨fm, hrunf, hfm⟩ := hfree.vacate (msp.msFreemap (txgSlot L.syncing))
  obtain ⟨am₁, hrun₁, ham₁⟩ := ham₀.add e.units (disjoint_empty_left _)
  rw [empty_union, ← Extent.bytes, ← hall] at ham₁
  -- minus the in-core map, minus what is freed, minus the later groups
  have hsub₂ : L.avail ⊆ L.all := filter_subset _ _
  obtain ⟨am₂, hrun₂, ham₂⟩ := hmap.walk_remove ham₁ hsub₂
  have hsub₃ : L.freed ∪ L.free L.syncing ⊆ L.all \ L.avail := by
    refine union_subset ?_ ?_
    · exact subset_sdiff.mpr ⟨filter_subset _ _, inPhase_disjoint (by simp)⟩
    · exact subset_sdiff.mpr ⟨filter_subset _ _, free_disjoint_inPhase (by simp) (by simp)⟩
  obtain ⟨am₃, hrun₃, ham₃⟩ := hfreed.walk_remove ham₂ hsub₃
  have hlater : ∀ t, t ≠ L.syncing →
      L.alloc t ⊆ (L.all \ L.avail) \ (L.freed ∪ L.free L.syncing) := by
    intro t ht
    refine subset_sdiff.mpr ⟨subset_sdiff.mpr ⟨filter_subset _ _, inPhase_disjoint (by simp)⟩, ?_⟩
    rw [disjoint_union_right]
    exact ⟨inPhase_disjoint (by simp), (free_disjoint_inPhase (by simp) (by simpa using ht)).symm⟩
  obtain ⟨am₄, hrun₄, ham₄⟩ := (halloc 1 (by omega)).walk_remove ham₃ (hlater _ (by omega))
  have hsub₅ := subset_sdiff.mpr ⟨hlater (L.syncing + 2) (by omega),
    inPhase_disjoint (L := L) (p := .allocated (L.syncing + 2))
      (q := .allocated (L.syncing + 1)) (by simp)⟩
  obtain ⟨am₅, hrun₅, ham₅⟩ := (halloc 2 (by omega)).walk_remove ham₄ hsub₅
  rw [sync_disk_eq] at ham₅
  refine ⟨am₅, fm, ?_, ham₅, hfm⟩
  simp only [metaslabCondense, txgSlot_clean]
  refine bind_of_some hrun₀ (bind_of_some hrunf ?_)
  rw [ham₀.spans.start, ham₀.spans.size]
  refine bind_of_some hrun₁ (bind_of_some hrun₂ (bind_of_some hrun₃ ?_))
  have hfold : (range' 1 (txgConcurrentStates - 1)).foldlM
      (fun allocmap t => spaceMapWalk (msp.msAllocmap (txgSlot (L.syncing + t))) spaceMapRemove
        allocmap) am₃ = some am₅ := bind_of_some hrun₄ (bind_of_some hrun₅ rfl)
  exact bind_of_some hfold rfl

/-! ## The whole of `metaslab_sync` -/

/-- What a sync leaves: the maps of the group are empty, the freed map has what the
group has freed, and the object is a log of what is allocated on disk now. -/
structure SyncOutcome (vd : Vdev) (msp : Metaslab) (e : Extent) (mos : Mos) (L : Ledger ℕ)
    (newObject : ℕ) (msp' : Metaslab) (mos' : Mos) : Prop where
  alloc : ∃ am : SpaceMap, am.On e ∅ ∧
    msp'.msAllocmap = update msp.msAllocmap (txgSlot L.syncing) am
  free : ∃ fm fm' : SpaceMap, fm.On e (L.freed ∪ L.free L.syncing) ∧ fm'.On e ∅ ∧
    msp'.msFreemap = update (update msp.msFreemap (txgSlot (L.syncing + 3)) fm)
      (txgSlot L.syncing) fm'
  map : msp'.msMap = msp.msMap
  smo : msp'.msSmo = msp.msSmo
  weight : msp'.msWeight = msp.msWeight
  object : msp'.msSmoSyncing.smoObject = syncedObject msp newObject
  ne_zero : syncedObject msp newObject ≠ 0
  log : ∃ l, ObjLog e.start e.size e.shift mos'.words msp'.msSmoSyncing l L.sync.disk
  bonus : mos'.bonus (syncedObject msp newObject) = msp'.msSmoSyncing
  others : ∀ o, o ≠ syncedObject msp newObject → o ≠ vd.vdevMsArray → mos'.words o = mos.words o

theorem txgSlot_ne_clean (txg : ℕ) : txgSlot txg ≠ txgSlot (txg + 3) := fun h => by
  have := txgSlot_inj (i := 0) (j := 3) (by omega) (by omega) h
  omega

variable {vd : Vdev} {newObject : ℕ}

/-- The frees of the group are in another map than those of the groups before. -/
theorem Metaslab.Refines.free_update {words : Objset} (h : msp.Refines e words L) (fm : SpaceMap) :
    (update msp.msFreemap (txgSlot (L.syncing + 3)) fm (txgSlot L.syncing)).On e
      (L.free L.syncing) := by
  rw [update_of_ne (txgSlot_ne_clean L.syncing)]
  exact h.free 0 (by omega)

/-- **Appending** the group to the object. -/
theorem metaslabAppend_spec (h : msp.Refines e mos.words L)
    (hnew : FreshObject vd msp mos newObject) (syncPass : ℕ) :
    ∃ msp' mos', metaslabAppend vd msp mos L.syncing syncPass newObject = some (msp', mos') ∧
      SyncOutcome vd msp e mos L newObject msp' mos' ∧
      (msp.msSmoSyncing.smoObject ≠ 0 → ∃ ws, mos'.words msp.msSmoSyncing.smoObject =
        mos.words msp.msSmoSyncing.smoObject ++ ws) := by
  obtain ⟨fm, smo, words, l, hopen, hfm, hobj, hne, hlog, hother⟩ := metaslabSyncOpen_spec h hnew
  have hf := h.free_update fm
  have hdis : Disjoint L.disk (L.alloc L.syncing) := inPhase_disjoint (by simp)
  obtain ⟨am, fm', smo', words', ws, hwrite, ham, hfm', hobj', hlog', hother'⟩ :=
    @metaslabSyncWrite_spec
      { msp with
        msSmoSyncing := smo
        msFreemap := update msp.msFreemap (txgSlot (L.syncing + 3)) fm }
      e { mos with words := words } _ _ _ _ _ (h.alloc 0 (by omega)) hf hlog hdis
      free_subset syncPass
  rw [hobj] at hobj' hother' hne
  refine ⟨_, _, bind_of_some hopen hwrite, ⟨⟨am, ham, rfl⟩, ⟨fm, fm', hfm, hfm', rfl⟩,
    rfl, rfl, rfl,
    hobj', hne, ⟨l ++ ws, ?_⟩, ?_, fun o ho ho' => ?_⟩, fun hold => ⟨ws, ?_⟩⟩
  · rw [sync_disk]
    exact hlog'
  · simp only [← hobj', update_self]
  · exact (hother' o ho).trans (hother o ho')
  · have hsame : syncedObject msp newObject = msp.msSmoSyncing.smoObject := if_neg hold
    have hw := hlog.written.words
    have hw' := hlog'.written.words
    rw [hobj, hsame] at hw
    rw [hobj', hsame] at hw'
    rw [← hother _ (hsame ▸ hnew.ne_array), hw]
    exact hw'

/-- **Condensing** the object, and then writing the group to it. -/
theorem metaslabSync_condense_spec (h : msp.Refines e mos.words L)
    (hl : msp.msMap.smLoaded = true) (hnew : FreshObject vd msp mos newObject) (syncPass : ℕ) :
    ∃ msp₁ mos₁ msp₂ mos₂ msp' mos',
      metaslabSyncOpen vd msp mos L.syncing newObject = some (msp₁, mos₁) ∧
      metaslabCondense msp₁ mos₁ L.syncing = some (msp₂, mos₂) ∧
      metaslabSyncWrite msp₂ mos₂ L.syncing syncPass = some (msp', mos') ∧
      SyncOutcome vd msp e mos L newObject msp' mos' := by
  obtain ⟨fm, smo, words, l, hopen, hfm, hobj, hne, hlog, hother⟩ := metaslabSyncOpen_spec h hnew
  have hf := h.free_update fm
  have hfreed : (update msp.msFreemap (txgSlot (L.syncing + 3)) fm
      (txgSlot (L.syncing + 3))).On e (L.freed ∪ L.free L.syncing) := by
    rw [update_self]
    exact hfm
  set msp₁ : Metaslab := { msp with
    msSmoSyncing := smo
    msFreemap := update msp.msFreemap (txgSlot (L.syncing + 3)) fm } with hmsp₁
  set mos₁ : Mos := { mos with words := words }
  obtain ⟨am, fm', hcond, ham, hfm'⟩ := @metaslabCondense_spec msp₁ e mos₁ L h.alloc hf
    hfreed ⟨h.spans, (h.loaded hl).rep⟩ h.all
  set msp₂ : Metaslab := { msp₁ with
    msAllocmap := update msp₁.msAllocmap (txgSlot L.syncing) am
    msFreemap := update msp₁.msFreemap (txgSlot L.syncing) fm'
    msSmoSyncing := { smo with smoObjsize := 0, smoAlloc := 0 } } with hmsp₂
  set mos₂ : Mos := { mos₁ with words := dmuFreeAll words smo.smoObject }
  have ha₂ : (msp₂.msAllocmap (txgSlot L.syncing)).On e
      ((L.disk ∪ L.alloc L.syncing) \ L.free L.syncing) := by
    simp only [hmsp₂, update_self]
    exact ham
  have hf₂ : (msp₂.msFreemap (txgSlot L.syncing)).On e ∅ := by
    simp only [hmsp₂, update_self]
    exact hfm'
  have hlog₂ : ObjLog e.start e.size e.shift mos₂.words msp₂.msSmoSyncing [] ∅ :=
    ⟨⟨rfl, update_self ..⟩, .nil, rfl⟩
  obtain ⟨am₃, fm₃, smo₃, words₃, ws, hwrite, ham₃, hfm₃, hobj₃, hlog₃, hother₃⟩ :=
    metaslabSyncWrite_spec ha₂ hf₂ hlog₂ (disjoint_empty_left _) (empty_subset _) syncPass
  rw [empty_union, sdiff_empty, ← sync_disk] at hlog₃
  have hobj' : smo₃.smoObject = syncedObject msp newObject := hobj₃.trans hobj
  refine ⟨msp₁, mos₁, msp₂, mos₂, _, _, hopen, hcond, hwrite, ⟨⟨am₃, ham₃, ?_⟩,
    ⟨fm, fm₃, hfm, hfm₃, ?_⟩, rfl, rfl, rfl, hobj', hobj ▸ hne, ⟨_, hlog₃⟩, ?_, fun o ho ho' => ?_⟩⟩
  · simp only [hmsp₂, hmsp₁, update_idem]
  · simp only [hmsp₂, hmsp₁, update_idem]
  · simp only [← hobj', update_self]
  · rw [← hobj] at ho
    exact (hother₃ o ho).trans ((update_of_ne ho ..).trans (hother o ho'))

/-- A metaslab after a sync. -/
theorem SyncOutcome.refines (h : msp.Refines e mos.words L) {msp' : Metaslab} {mos' : Mos}
    (ho : SyncOutcome vd msp e mos L newObject msp' mos')
    (hmap : msp.msMap.smLoaded = true ∨ (msp.msSmoSyncing.smoObject ≠ 0 →
      ∃ ws, mos'.words msp.msSmoSyncing.smoObject = mos.words msp.msSmoSyncing.smoObject ++ ws)) :
    msp'.Refines e mos'.words L.sync := by
  obtain ⟨am, ham, halloc⟩ := ho.alloc
  obtain ⟨fm, fm', hfm, hfm', hfree⟩ := ho.free
  have hwindow : L.syncing ≤ L.syncing ∧ L.syncing ≤ L.syncing + 2 := by omega
  refine ⟨h.all, ?_, ?_, ?_, ?_, ?_, Or.inr ⟨?_, ho.log⟩, ?_, ?_, ?_, ?_⟩
  · rw [halloc]
    rw [← sync_alloc_self (L := L)] at ham
    exact fun i hi =>
      Metaslab.Refines.update_slot hwindow ham (fun u hu => sync_alloc hu) hi (h.alloc i hi)
  · intro i hi
    rw [hfree, sync_syncing]
    by_cases h0 : i = 0
    · subst h0
      simp only [Nat.add_zero, update_self, sync_free_self]
      exact hfm'
    have hne : txgSlot (L.syncing + i) ≠ txgSlot L.syncing := fun he =>
      h0 (txgSlot_inj (j := 0) (by omega) (by omega) he)
    have hne' : txgSlot (L.syncing + i) ≠ txgSlot (L.syncing + 3) := fun he => by
      have := txgSlot_inj (by omega) (by omega) he
      omega
    rw [update_of_ne hne, update_of_ne hne', sync_free (by omega)]
    exact h.free i hi
  · rw [hfree, sync_freed, sync_syncing,
      update_of_ne (txgSlot_ne_clean L.syncing).symm, update_self]
    exact hfm
  · rw [ho.map]
    exact h.spans
  · rw [ho.map, sync_avail]
    refine h.map.imp_right fun hd => ?_
    have hext := hmap.resolve_left (by rw [hd.unloaded.loaded]; simp)
    obtain ⟨l, hlog, hreplay⟩ := hd.log
    have hunion := sync_disk_union_freed (hd.alloc L.syncing)
    refine ⟨ho.map ▸ hd.unloaded, fun t => ?_, ⟨l, ho.smo ▸ h.logged_of_extends hlog hext, ?_⟩, ?_⟩
    · by_cases ht : t = L.syncing
      · exact ht ▸ sync_alloc_self
      · rw [sync_alloc ht, hd.alloc]
    · rw [hunion]
      exact hreplay
    · rw [hunion, ho.smo]
      exact hd.card
  · rw [ho.object]
    exact ho.ne_zero
  · rw [ho.smo, ho.object]
    refine h.prior.imp_right fun ⟨hne, heq⟩ => ⟨hne, ?_⟩
    rw [syncedObject, if_neg (heq ▸ hne), heq]
  · rw [ho.smo]
    exact h.light
  · rw [ho.weight, ho.map]
    exact h.active
  · rw [ho.weight]
    exact h.word

/-- **`metaslab_sync`** refines `Ledger.sync`, whether it condenses the object or not. -/
theorem Metaslab.Refines.sync (h : msp.Refines e mos.words L)
    (hnew : FreshObject vd msp mos newObject) (syncPass : ℕ) :
    ∃ msp' mos', metaslabSync vd msp mos L.syncing syncPass newObject = some (msp', mos') ∧
      msp'.Refines e mos'.words L.sync ∧
      msp'.msSmoSyncing.smoObject = syncedObject msp newObject ∧
      ∀ o, o ≠ syncedObject msp newObject → o ≠ vd.vdevMsArray → mos'.words o = mos.words o := by
  obtain ⟨fm, smo, words, -, hopen, -⟩ := metaslabSyncOpen_spec h hnew
  by_cases hcond : metaslabShouldCondense { msp with
      msSmoSyncing := smo
      msFreemap := update msp.msFreemap (txgSlot (L.syncing + 3)) fm } syncPass = true
  · have hl : msp.msMap.smLoaded = true := by
      simp only [metaslabShouldCondense, Bool.and_eq_true] at hcond
      exact hcond.1.1
    obtain ⟨_, _, _, _, msp', mos', hopen', hcondense, hwrite, ho⟩ :=
      metaslabSync_condense_spec h hl hnew syncPass
    cases hopen.symm.trans hopen'
    refine ⟨msp', mos', bind_of_some hopen ?_, ho.refines h (Or.inl hl), ho.object, ho.others⟩
    simp only [if_pos hcond]
    exact bind_of_some hcondense hwrite
  · obtain ⟨msp', mos', hrun, ho, hext⟩ := metaslabAppend_spec h hnew syncPass
    refine ⟨msp', mos', ?_, ho.refines h (Or.inr hext), ho.object, ho.others⟩
    refine bind_of_some hopen ?_
    simp only [if_neg hcond]
    rw [metaslabAppend, hopen] at hrun
    exact hrun

/-! ## After the group has synced -/

namespace Metaslab.Refines

variable {words : Objset}

/-- The object has a log of what is allocated on disk, also if there is no object. -/
theorem exists_log (h : msp.Refines e words L) :
    ∃ l, Logged words msp.msSmoSyncing l ∧ Replays e.start e.size e.shift l L.disk ∧
      msp.msSmoSyncing.smoAlloc = L.disk.card := by
  rcases h.disk with ⟨hzero, hdisk⟩ | ⟨-, l, hlog⟩
  · rw [hzero, hdisk]
    exact ⟨[], ⟨rfl, _, (nil_append _).symm⟩, .nil, rfl⟩
  · exact ⟨l, hlog.written.logged, hlog.replays, hlog.alloc⟩

/-- What was freed goes back to the map if it is loaded, and is forgotten otherwise. -/
theorem vacate_freed (h : msp.Refines e words L) :
    ∃ fm sm, spaceMapVacate (msp.msFreemap (txgSlot (L.syncing + 3)))
        (if msp.msMap.smLoaded then some spaceMapFree else none) msp.msMap = some (fm, sm) ∧
      fm.On e ∅ ∧ sm.Spans e.start e.size e.shift ∧
      (sm.Loaded (L.avail ∪ L.freed) ∨ sm = msp.msMap ∧ msp.Dormant e words L) := by
  obtain ⟨h1, h2, h3⟩ := h.spans
  rcases h.map with hl | hd
  · have hin := h.freed.subset
    have hblocks := h.freed.blocks
    rw [Extent.bytes, ← h1, ← h2] at hin
    rw [← h3] at hblocks
    obtain ⟨fm, sm, hrun, hfm, hsame, hsm, hsame'⟩ :=
      spaceMapVacate_update segmentwise_union hl.adds h.freed.rep hl.rep hin hblocks
        (inPhase_disjoint (by simp))
    refine ⟨fm, sm, ?_, h.freed.of_same hsame hfm, h.spans.of_same hsame',
      Or.inl (hl.of_same hsm hsame')⟩
    rw [hl.loaded, if_pos rfl]
    exact hrun
  · obtain ⟨fm, hrun, hfm⟩ := h.freed.vacate msp.msMap
    refine ⟨fm, msp.msMap, ?_, hfm, h.spans, Or.inr ⟨rfl, hd⟩⟩
    rw [hd.unloaded.loaded]
    exact hrun

theorem txgSlot_add_four (txg : ℕ) : txgSlot (txg + 4) = txgSlot txg := by
  simp [txgSlot, txgSize]

section

variable (h : msp.Refines e words L)

include h

/-- The slot of the group that is done is the one of a group to come. -/
theorem alloc_shift (hA : L.alloc L.syncing = ∅) (hF : L.free L.syncing = ∅) : ∀ i, i < 4 →
      (msp.msAllocmap (txgSlot ((L.done hA hF).syncing + i))).On e
        ((L.done hA hF).alloc ((L.done hA hF).syncing + i)) := by
  intro i hi
  rw [Ledger.alloc, Ledger.done_inPhase (by simp) (by simp), ← Ledger.alloc, Ledger.done_syncing,
    Nat.add_assoc, Nat.add_comm 1 i]
  by_cases hlast : i = 3
  · subst hlast
    rw [txgSlot_add_four, alloc_eq_empty (by omega), ← hA]
    exact h.alloc 0 (by omega)
  · exact h.alloc (i + 1) (by omega)

/-- The metaslab once the group is done, but before its map may be evicted. -/
theorem of_vacated (hA : L.alloc L.syncing = ∅)
    (hF : L.free L.syncing = ∅) {fm sm : SpaceMap} (hfm : fm.On e ∅)
    (hs : sm.Spans e.start e.size e.shift)
    (hsm : sm.Loaded (L.avail ∪ L.freed) ∨ sm = msp.msMap ∧ msp.Dormant e words L) :
    { msp with
      msFreemap := update msp.msFreemap (txgSlot (L.syncing + 3)) fm
      msMap := sm
      msSmo := msp.msSmoSyncing }.Refines e words (L.done hA hF) := by
  have halloc : ∀ t, (L.done hA hF).alloc t = L.alloc t := fun t =>
    done_inPhase (by simp) (by simp)
  have hdisk : (L.done hA hF).disk = L.disk := done_inPhase (by simp) (by simp)
  have hfree : ∀ i, i < 3 → (update msp.msFreemap (txgSlot (L.syncing + 3)) fm
      (txgSlot (L.syncing + 1 + i))).On e ((L.done hA hF).free (L.syncing + 1 + i)) := by
    intro i hi
    rw [done_free, Nat.add_assoc, Nat.add_comm 1 i]
    by_cases hlast : i = 2
    · subst hlast
      rw [update_self, free_eq_empty (by omega)]
      exact hfm
    · have hne : txgSlot (L.syncing + (i + 1)) ≠ txgSlot (L.syncing + 3) := fun he => by
        have := txgSlot_inj (by omega) (by omega) he
        omega
      rw [update_of_ne hne]
      exact h.free (i + 1) (by omega)
  have hfreed : (update msp.msFreemap (txgSlot (L.syncing + 3)) fm
      (txgSlot (L.syncing + 1 + 3))).On e (L.done hA hF).freed := by
    rw [done_freed, Nat.add_assoc, txgSlot_add_four, update_of_ne (txgSlot_ne_clean _), ← hF]
    exact h.free 0 (by omega)
  obtain ⟨l, hlog, hreplay, hcard⟩ := h.exists_log
  refine ⟨h.all, h.alloc_shift hA hF, hfree, hfreed, hs, ?_, ?_, ?_, ?_, fun hne => ?_, h.word⟩
  · rw [done_avail]
    refine hsm.imp_right fun ⟨heq, hd⟩ => ?_
    refine ⟨heq ▸ hd.unloaded, fun t => (halloc t).trans (hd.alloc t), ⟨l, hlog, ?_⟩, ?_⟩
    · rw [done_freed, hdisk, union_empty]
      exact hreplay
    · rw [done_freed, hdisk, union_empty]
      exact hcard
  · rw [hdisk]
    exact h.disk
  · exact h.disk.imp (fun hzero => by simp [hzero.1]) fun hne => ⟨hne.1, rfl⟩
  · rw [hcard]
    have hle := card_le_card (show L.disk ⊆ e.bytes from h.all ▸ filter_subset _ _)
    rwa [Extent.bytes, Nat.card_Ico, Nat.add_sub_cancel_left] at hle
  · have hload := h.active hne
    rcases hsm with hl | ⟨-, hd⟩
    · exact hl.loaded
    · rw [hd.unloaded.loaded] at hload
      simp at hload

/-- A map may be evicted when nothing is allocated in the groups in flight. -/
theorem evict (hsmo : msp.msSmo = msp.msSmoSyncing)
    (hfreed : L.freed = ∅) (hlast : L.alloc (L.syncing + 2) = ∅) {txg : ℕ}
    (htxg : L.syncing = txg + 1) :
    ∃ msp', metaslabEvict msp txg = some msp' ∧ msp'.Refines e words L ∧
      msp'.msSmoSyncing = msp.msSmoSyncing := by
  rw [metaslabEvict]
  split
  · rename_i hcond
    simp only [txgConcurrentStates, Bool.and_eq_true, decide_eq_true_eq, all_eq_true,
      mem_range'_1] at hcond
    obtain ⟨⟨hl, hidle⟩, hempty⟩ := hcond
    obtain ⟨sm, hrun, hu, hs⟩ := spaceMapUnload_spec (h.loaded hl)
    rw [h.spans.start, h.spans.size, h.spans.shift] at hs
    have halloc : ∀ t, L.alloc t = ∅ := by
      intro t
      by_cases ht : L.syncing ≤ t ∧ t ≤ L.syncing + 1
      · have hspace := hempty (t - txg) (by omega)
        rw [Nat.add_sub_cancel' (by omega), (h.alloc_of_window (by omega)).rep.space] at hspace
        exact card_eq_zero.mp hspace
      · by_cases ht' : t = L.syncing + 2
        · exact ht' ▸ hlast
        · exact alloc_eq_empty (by omega)
    obtain ⟨l, hlog, hreplay, hcard⟩ := h.exists_log
    rw [← hsmo] at hlog hcard
    rw [← union_empty L.disk, ← hfreed] at hreplay hcard
    exact ⟨{ msp with msMap := sm }, bind_of_some hrun rfl, { h with
      spans := hs
      map := Or.inr ⟨hu, halloc, ⟨l, hlog, hreplay⟩, hcard⟩
      active := fun hne => absurd hidle hne }, rfl⟩
  · exact ⟨msp, rfl, h, rfl⟩

/-- **The end of the syncing group** for one metaslab. -/
theorem done (hA : L.alloc L.syncing = ∅) (hF : L.free L.syncing = ∅) :
    ∃ fm sm msp', spaceMapVacate (msp.msFreemap (txgSlot (L.syncing + 3)))
        (if msp.msMap.smLoaded then some spaceMapFree else none) msp.msMap = some (fm, sm) ∧
      metaslabEvict { msp with
        msFreemap := update msp.msFreemap (txgSlot (L.syncing + 3)) fm
        msMap := sm
        msSmo := msp.msSmoSyncing } L.syncing = some msp' ∧
      msp'.Refines e words (L.done hA hF) ∧ msp'.msSmoSyncing = msp.msSmoSyncing := by
  obtain ⟨fm, sm, hrun, hfm, hs, hsm⟩ := h.vacate_freed
  have hlast : (L.done hA hF).alloc ((L.done hA hF).syncing + 2) = ∅ := by
    rw [Ledger.alloc, Ledger.done_inPhase (by simp) (by simp), Ledger.done_syncing]
    exact alloc_eq_empty (by omega)
  obtain ⟨msp', hevict, h', hsmo⟩ := (h.of_vacated hA hF hfm hs hsm).evict rfl done_freed hlast
    rfl
  exact ⟨fm, sm, msp', hrun, hevict, h', hsmo⟩

/-- The end of a syncing group that has not touched the metaslab. -/
theorem skip (hA : L.alloc L.syncing = ∅) (hF : L.free L.syncing = ∅)
    (hfreed : L.freed = ∅) : msp.Refines e words (L.done hA hF) := by
  have hphase : ∀ p, p ≠ .free → p ≠ .freed → (L.done hA hF).inPhase p = L.inPhase p :=
    fun p hp hp' => done_inPhase hp hp'
  have havail : (L.done hA hF).avail = L.avail := by rw [done_avail, hfreed, union_empty]
  refine { h with
    alloc := h.alloc_shift hA hF, free := fun i hi => ?_, freed := ?_, map := ?_, disk := ?_ }
  · rw [done_free, done_syncing, Nat.add_assoc, Nat.add_comm 1 i]
    by_cases hlast : i = 2
    · subst hlast
      rw [free_eq_empty (by omega), ← hfreed]
      exact h.freed
    · exact h.free (i + 1) (by omega)
  · rw [done_freed, done_syncing, Nat.add_assoc, txgSlot_add_four, ← hF]
    exact h.free 0 (by omega)
  · rw [havail]
    refine h.map.imp_right fun hd => ⟨hd.unloaded, fun t => ?_, ?_, ?_⟩
    · rw [Ledger.alloc, hphase _ (by simp) (by simp)]
      exact hd.alloc t
    · rw [Ledger.done_freed, ← hfreed, Ledger.disk, hphase _ (by simp) (by simp)]
      exact hd.log
    · rw [Ledger.done_freed, ← hfreed, Ledger.disk, hphase _ (by simp) (by simp)]
      exact hd.card
  · rw [Ledger.disk, hphase _ (by simp) (by simp)]
    exact h.disk

end

end Metaslab.Refines

end Polaris
