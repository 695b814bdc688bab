import Polaris.Metaslab.Dva
import Polaris.Metaslab.Ledger
import Polaris.SpaceMap.Alloc

/-!
# Metaslabs keep ledgers

`Metaslab.Refines` connects a metaslab with a `Ledger`: the maps of the transaction
groups and the in-core map stand for the accounts, and the space map object is a log
of what is allocated on disk.  Each function on a metaslab refines an operation on the
ledger.

A map that is not loaded stands for nothing.  What can be taken from the metaslab then
is what a load would yield, and `Metaslab.Refines.load` says that this is what the
ledger has available.

## Main definitions

* `Extent`, `SpaceMap.On`
* `Metaslab.Refines`
-/

namespace Polaris

open Finset Function Ledger

/-! ## Maps of one extent -/

/-- The part of a device that a metaslab covers: whole units, not too many for the
words of a space map object, below the largest file offset, and small enough for the
two high bits of a weight to be free. -/
structure Extent where
  start : ℕ
  size : ℕ
  shift : ℕ
  units : RangeIn start size shift start size
  offsets : size ≤ 2 ^ (shift + 47)
  half : start + size ≤ 2 ^ 63
  light : size ≤ 2 ^ 59

/-- The bytes of an extent. -/
def Extent.bytes (e : Extent) : Finset ℕ := Ico e.start (e.start + e.size)

/-- A range of whole units in the extent. -/
abbrev Extent.Range (e : Extent) (a n : ℕ) : Prop := RangeIn e.start e.size e.shift a n

theorem Extent.Range.subset {e : Extent} {a n : ℕ} (h : e.Range a n) :
    Ico a (a + n) ⊆ e.bytes := Ico_subset_Ico h.lower h.upper

theorem Extent.offset_lt (e : Extent) {x : ℕ} (hx : x ∈ e.bytes) :
    (x - e.start) / 2 ^ e.shift < 2 ^ 47 := by
  have hx' := mem_Ico.mp hx
  have hsize := e.offsets
  rw [pow_add] at hsize
  rw [Nat.div_lt_iff_lt_mul (Nat.two_pow_pos _), mul_comm]
  omega

section

variable {sm : SpaceMap} {start size shift : ℕ} (h : sm.Spans start size shift)

include h

theorem SpaceMap.Spans.range {a n : ℕ} : sm.Range a n ↔ RangeIn start size shift a n := by
  rw [SpaceMap.Range, h.start, h.size, h.shift]

theorem SpaceMap.Spans.of_same {sm' : SpaceMap} (hs : sm.Same sm') : sm'.Spans start size shift :=
  ⟨hs.start.trans h.start, hs.size.trans h.size, hs.shift.trans h.shift⟩

end

/-- A map of the extent that stands for `A`. -/
structure SpaceMap.On (sm : SpaceMap) (e : Extent) (A : Finset ℕ) : Prop where
  spans : sm.Spans e.start e.size e.shift
  rep : sm.Rep A

namespace SpaceMap.On

variable {e : Extent} {sm mdest : SpaceMap} {A B : Finset ℕ} {a n : ℕ}

theorem subset (h : sm.On e A) : A ⊆ e.bytes := by
  have := h.rep.inside
  rwa [h.spans.start, h.spans.size] at this

theorem blocks (h : sm.On e A) : Blockwise (2 ^ e.shift) A := by
  have := h.rep.blocks
  rwa [h.spans.shift] at this

theorem range (h : sm.On e A) : sm.Range a n ↔ e.Range a n := h.spans.range

theorem of_same {sm' : SpaceMap} (h : sm.On e A) (hs : sm.Same sm') (hr : sm'.Rep B) : sm'.On e B :=
  ⟨h.spans.of_same hs, hr⟩

theorem create (e : Extent) : (spaceMapCreate e.start e.size e.shift).On e ∅ :=
  ⟨⟨rfl, rfl, rfl⟩, spaceMapCreate_rep (e.half.trans_lt (by norm_num))⟩

theorem add (h : sm.On e A) (hr : e.Range a n) (hd : Disjoint A (Ico a (a + n))) :
    ∃ sm', spaceMapAdd sm a n = some sm' ∧ sm'.On e (A ∪ Ico a (a + n)) := by
  obtain ⟨sm', hrun, hrep, hsame⟩ := spaceMapAdd_spec h.rep (h.range.mpr hr) hd
  exact ⟨sm', hrun, h.of_same hsame hrep⟩

theorem remove (h : sm.On e A) (hr : e.Range a n) (hsub : Ico a (a + n) ⊆ A) :
    ∃ sm', spaceMapRemove sm a n = some sm' ∧ sm'.On e (A \ Ico a (a + n)) := by
  obtain ⟨sm', hrun, hrep, hsame⟩ := spaceMapRemove_spec h.rep (h.range.mpr hr) hsub
  exact ⟨sm', hrun, h.of_same hsame hrep⟩

theorem walk {func : SpaceMapFunc} {pre : Finset ℕ → Finset ℕ → Prop}
    {op : Finset ℕ → Finset ℕ → Finset ℕ} (hop : Segmentwise pre op) (h : sm.On e A)
    (hd : mdest.On e B) (hfunc : Updates mdest func pre op) (hpre : pre B A) :
    ∃ mdest', spaceMapWalk sm func mdest = some mdest' ∧ mdest'.On e (op B A) := by
  have hin := h.subset
  have hblocks := h.blocks
  rw [Extent.bytes, ← hd.spans.start, ← hd.spans.size] at hin
  rw [← hd.spans.shift] at hblocks
  obtain ⟨mdest', hrun, hrep, hsame⟩ := spaceMapWalk_update hop hfunc h.rep hd.rep hin hblocks hpre
  exact ⟨mdest', hrun, hd.of_same hsame hrep⟩

theorem walk_add (h : sm.On e A) (hd : mdest.On e B) (hdis : Disjoint B A) :
    ∃ mdest', spaceMapWalk sm spaceMapAdd mdest = some mdest' ∧ mdest'.On e (B ∪ A) :=
  walk segmentwise_union h hd (adds_spaceMapAdd _) hdis

theorem walk_remove (h : sm.On e A) (hd : mdest.On e B) (hsub : A ⊆ B) :
    ∃ mdest', spaceMapWalk sm spaceMapRemove mdest = some mdest' ∧ mdest'.On e (B \ A) :=
  walk segmentwise_sdiff h hd (updates_spaceMapRemove _) hsub

theorem vacate (h : sm.On e A) (mdest : SpaceMap) :
    ∃ sm', spaceMapVacate sm none mdest = some (sm', mdest) ∧ sm'.On e ∅ := by
  obtain ⟨sm', hrun, hrep, hsame⟩ := spaceMapVacate_none h.rep mdest
  exact ⟨sm', hrun, h.of_same hsame hrep⟩

theorem sync (h : sm.On e A) {t : MapType} {os : Objset} {smo : SpaceMapObj} {l : List ℕ}
    {D : Finset ℕ} (hlog : ObjLog e.start e.size e.shift os smo l D) (hlegal : t.legal D A)
    (syncPass txg : ℕ) :
    ∃ (sm' : SpaceMap) (smo' : SpaceMapObj) (os' : Objset) (ws : List ℕ),
      spaceMapSync sm t smo os syncPass txg = some (sm', smo', os') ∧ sm'.On e ∅ ∧
      ObjLog e.start e.size e.shift os' smo' (l ++ ws) (t.effect D A) ∧
      smo'.smoObject = smo.smoObject ∧ ∀ o, o ≠ smo.smoObject → os' o = os o := by
  obtain ⟨h1, h2, h3⟩ := h.spans
  have hoff : ∀ x ∈ A, (x - sm.smStart) / 2 ^ sm.smShift < 2 ^ 47 := by
    rw [h1, h3]
    exact fun x hx => e.offset_lt (h.subset hx)
  have halign := e.units.alignStart
  rw [← h1, ← h2, ← h3] at hlog
  rw [← h1, ← h3] at halign
  obtain ⟨sm', smo', os', ws, hrun, hrep', hsame, hlog', hobj, hother⟩ :=
    spaceMapSync_spec h.rep halign hlog hlegal hoff syncPass txg
  rw [h1, h2, h3] at hlog'
  exact ⟨sm', smo', os', ws, hrun, h.of_same hsame hrep', hlog', hobj, hother⟩

end SpaceMap.On

/-! ## Slots and weights -/

theorem txgSlot_clean (txg : ℕ) : txgSlot (txgClean txg) = txgSlot (txg + 3) := by
  simp only [txgSlot, txgClean, u64Sub, u64, txgSize, Fin.mk.injEq]
  omega

theorem txgSlot_inj {txg i j : ℕ} (hi : i < 4) (hj : j < 4)
    (h : txgSlot (txg + i) = txgSlot (txg + j)) : i = j := by
  simp only [txgSlot, txgSize, Fin.mk.injEq] at h
  omega

theorem and_metaslabActiveMask (w : ℕ) : w &&& metaslabActiveMask = w / 2 ^ 62 % 4 * 2 ^ 62 := by
  have hmask : metaslabActiveMask = (2 ^ 2 - 1) * 2 ^ 62 := by decide
  refine Nat.eq_of_testBit_eq fun i => ?_
  rw [hmask, Nat.testBit_and, Nat.testBit_mul_two_pow, Nat.testBit_two_pow_sub_one,
    Nat.testBit_mul_two_pow, show (4 : ℕ) = 2 ^ 2 from rfl, Nat.testBit_mod_two_pow,
    Nat.testBit_div_two_pow]
  by_cases hi : 62 ≤ i
  · rw [Nat.sub_add_cancel hi]
    cases w.testBit i <;> simp
  · simp [hi]

theorem and_metaslabActiveMask_of_lt {w : ℕ} (h : w < 2 ^ 62) : w &&& metaslabActiveMask = 0 := by
  rw [and_metaslabActiveMask, Nat.div_eq_of_lt h, Nat.zero_mod, Nat.zero_mul]

/-! ## The refinement -/

/-- A metaslab whose map is not loaded.  Nothing is allocated in the groups in flight,
and the object as of the last group has what is allocated or waits for the syncing
group to be done. -/
structure Metaslab.Dormant (msp : Metaslab) (e : Extent) (words : Objset) (L : Ledger ℕ) :
    Prop where
  unloaded : msp.msMap.Unloaded
  alloc : ∀ t, L.alloc t = ∅
  log : ∃ l, Logged words msp.msSmo l ∧ Replays e.start e.size e.shift l (L.disk ∪ L.freed)
  card : msp.msSmo.smoAlloc = (L.disk ∪ L.freed).card

/-- The metaslab keeps the ledger `L`. -/
structure Metaslab.Refines (msp : Metaslab) (e : Extent) (words : Objset) (L : Ledger ℕ) :
    Prop where
  all : L.all = e.bytes
  alloc : ∀ i, i < 4 → (msp.msAllocmap (txgSlot (L.syncing + i))).On e (L.alloc (L.syncing + i))
  free : ∀ i, i < 3 → (msp.msFreemap (txgSlot (L.syncing + i))).On e (L.free (L.syncing + i))
  freed : (msp.msFreemap (txgSlot (L.syncing + 3))).On e L.freed
  spans : msp.msMap.Spans e.start e.size e.shift
  map : msp.msMap.Loaded L.avail ∨ msp.Dormant e words L
  disk : msp.msSmoSyncing = ⟨0, 0, 0⟩ ∧ L.disk = ∅ ∨ msp.msSmoSyncing.smoObject ≠ 0 ∧
    ∃ l, ObjLog e.start e.size e.shift words msp.msSmoSyncing l L.disk
  prior : msp.msSmo.smoObject = 0 ∧ msp.msSmo.smoObjsize = 0 ∨
    msp.msSmo.smoObject ≠ 0 ∧ msp.msSmo.smoObject = msp.msSmoSyncing.smoObject
  light : msp.msSmo.smoAlloc ≤ e.size
  active : msp.msWeight &&& metaslabActiveMask ≠ 0 → msp.msMap.smLoaded = true
  word : msp.msWeight < 2 ^ 64

namespace Metaslab.Refines

variable {msp : Metaslab} {e : Extent} {words : Objset} {L : Ledger ℕ} {a n t : ℕ}

section

variable (h : msp.Refines e words L)

include h

theorem loaded (hl : msp.msMap.smLoaded = true) : msp.msMap.Loaded L.avail := by
  rcases h.map with h | h
  · exact h
  · rw [h.unloaded.loaded] at hl
    simp at hl

theorem avail_eq_of_dormant (hd : msp.Dormant e words L) :
    L.avail = e.bytes \ (L.disk ∪ L.freed) := by
  rw [avail_eq, hd.alloc, hd.alloc, hd.alloc, h.all]
  simp

/-- **Loading the map.**  What can be taken from the metaslab is what the ledger has
available, whether the map is loaded or not. -/
theorem load :
    ∃ sm, spaceMapLoad msp.msMap (some .metaslabFfOps) .smFree msp.msSmo words = some sm ∧
      sm.Loaded L.avail ∧ sm.Spans e.start e.size e.shift := by
  rcases h.map with hl | hd
  · refine ⟨msp.msMap, ?_, hl, h.spans⟩
    simp [spaceMapLoad, hl.loading, hl.loaded, guard]
  obtain ⟨l, hlog, hreplay⟩ := hd.log
  have hunits := e.units
  rw [h.avail_eq_of_dormant hd, Extent.bytes]
  obtain ⟨h1, h2, h3⟩ := h.spans
  rw [← h1, ← h2, ← h3] at hreplay hunits ⊢
  obtain ⟨sm, hrun, hrep, g1, g2, g3, hloaded, hloading, hops, hppd⟩ :=
    spaceMapLoad_spec hd.unloaded.rep hd.unloaded.loading hd.unloaded.loaded hlog hreplay hd.card
      (some .metaslabFfOps) (m := .smFree) fun _ => hunits
  exact ⟨sm, hrun, ⟨hrep, hloaded, hloading, hops, _, hppd⟩, g1, g2, g3⟩

/-- The metaslab with its map loaded. -/
theorem set_map {sm : SpaceMap} (hl : sm.Loaded L.avail)
    (hs : sm.Spans e.start e.size e.shift) : { msp with msMap := sm }.Refines e words L :=
  { h with spans := hs, map := Or.inl hl, active := fun _ => hl.loaded }

/-- The metaslab with another weight. -/
theorem set_weight {w : ℕ} (hw : w < 2 ^ 64)
    (hactive : w &&& metaslabActiveMask ≠ 0 → msp.msMap.smLoaded = true) :
    { msp with msWeight := w }.Refines e words L :=
  { h with
    map := h.map.imp_right fun hd => ⟨hd.unloaded, hd.alloc, hd.log, hd.card⟩
    active := hactive
    word := hw }

/-- The log as of the last group is kept when the object only grows. -/
theorem logged_of_extends {l : List ℕ} (hlog : Logged words msp.msSmo l)
    {words' : Objset} (hw : msp.msSmoSyncing.smoObject ≠ 0 →
      ∃ ws, words' msp.msSmoSyncing.smoObject = words msp.msSmoSyncing.smoObject ++ ws) :
    Logged words' msp.msSmo l := by
  refine ⟨hlog.size, ?_⟩
  rcases h.prior with ⟨-, hsize⟩ | ⟨hne, heq⟩
  · have hnil : l = [] := List.eq_nil_of_length_eq_zero (by have := hlog.size; omega)
    exact ⟨_, by rw [hnil, List.nil_append]⟩
  · obtain ⟨ws, hws⟩ := hw (heq ▸ hne)
    obtain ⟨r, hr⟩ := hlog.words
    exact ⟨r ++ ws, by rw [heq, hws, ← heq, hr, List.append_assoc]⟩

/-- Only the object of the metaslab matters. -/
theorem set_words {words' : Objset}
    (hw : msp.msSmoSyncing.smoObject ≠ 0 →
      words' msp.msSmoSyncing.smoObject = words msp.msSmoSyncing.smoObject) :
    msp.Refines e words' L := by
  refine { h with
    map := h.map.imp_right fun hd => ⟨hd.unloaded, hd.alloc, ?_, hd.card⟩, disk := ?_ }
  · obtain ⟨l, hlog, hreplay⟩ := hd.log
    exact ⟨l, h.logged_of_extends hlog fun hne => ⟨[], by rw [hw hne, List.append_nil]⟩, hreplay⟩
  · refine h.disk.imp_right fun ⟨hne, l, hlog⟩ => ⟨hne, l, ⟨⟨hlog.written.size, ?_⟩, hlog.replays,
      hlog.alloc⟩⟩
    rw [hw hne]
    exact hlog.written.words

end

/-! ## Allocating -/

variable (ht : L.syncing ≤ t ∧ t ≤ L.syncing + 2)

include ht

/-- The group `t` has the slot of its index in the window. -/
theorem exists_index : ∃ i, i < 3 ∧ t = L.syncing + i :=
  ⟨t - L.syncing, by omega, by omega⟩

theorem alloc_of_window (h : msp.Refines e words L) :
    (msp.msAllocmap (txgSlot t)).On e (L.alloc t) := by
  obtain ⟨i, hi, rfl⟩ := exists_index ht
  exact h.alloc i (by omega)

theorem free_of_window (h : msp.Refines e words L) :
    (msp.msFreemap (txgSlot t)).On e (L.free t) := by
  obtain ⟨i, hi, rfl⟩ := exists_index ht
  exact h.free i hi

/-- Changing the map of group `t`. -/
theorem update_slot {maps : Fin txgSize → SpaceMap} {A A' : ℕ → Finset ℕ} {am : SpaceMap}
    (ham : am.On e (A' t)) (hother : ∀ u, u ≠ t → A' u = A u) {i : ℕ} (hi : i < 4)
    (h : (maps (txgSlot (L.syncing + i))).On e (A (L.syncing + i))) :
    (update maps (txgSlot t) am (txgSlot (L.syncing + i))).On e (A' (L.syncing + i)) := by
  obtain ⟨j, hj, rfl⟩ := exists_index ht
  by_cases hij : i = j
  · subst hij
    rw [update_self]
    exact ham
  · rw [update_of_ne fun h => hij (txgSlot_inj hi (by omega) h), hother _ (by omega)]
    exact h

section

variable (h : msp.Refines e words L)

include h

/-- Changing the map and what was allocated in group `t`. -/
theorem set_alloc (L' : Ledger ℕ) (hall : L'.all = L.all) (hsyncing : L'.syncing = L.syncing)
    {am sm : SpaceMap} (ham : am.On e (L'.alloc t)) (hl : sm.Loaded L'.avail)
    (hs : sm.Spans e.start e.size e.shift)
    (hphase : ∀ p, p ≠ .free → p ≠ .allocated t → L'.inPhase p = L.inPhase p)
    (hfree : ∀ u, L'.free u = L.free u) :
    { msp with
      msMap := sm
      msAllocmap := update msp.msAllocmap (txgSlot t) am }.Refines e words L' := by
  have hfreed : L'.freed = L.freed := hphase _ (by simp) (by simp)
  have hdisk : L'.disk = L.disk := hphase _ (by simp) (by simp)
  refine { h with
    all := hall.trans h.all
    alloc := fun i hi => ?_
    free := fun i hi => ?_
    freed := ?_
    spans := hs
    map := Or.inl hl
    disk := ?_
    active := fun _ => hl.loaded }
  · rw [hsyncing]
    exact update_slot ht ham (fun u hu => hphase _ (by simp) (by simpa using hu)) hi (h.alloc i hi)
  · rw [hsyncing, hfree]
    exact h.free i hi
  · rw [hsyncing, hfreed]
    exact h.freed
  · rw [hdisk]
    exact h.disk

/-- **Handing out a range** that the map has just given up. -/
theorem allocate (hr : e.Range a n) (hI : Ico a (a + n) ⊆ L.avail) {sm : SpaceMap}
    (hl : sm.Loaded (L.avail \ Ico a (a + n))) (hs : sm.Spans e.start e.size e.shift) :
    ∃ am, spaceMapAdd (msp.msAllocmap (txgSlot t)) a n = some am ∧
      { msp with
        msMap := sm
        msAllocmap := update msp.msAllocmap (txgSlot t) am }.Refines e words
        (L.allocate t (Ico a (a + n)) ht hI) := by
  have hdis : Disjoint (L.alloc t) (Ico a (a + n)) :=
    (inPhase_disjoint (by simp)).mono_right hI
  obtain ⟨am, hrun, ham⟩ := (h.alloc_of_window ht).add hr hdis
  refine ⟨am, hrun, h.set_alloc ht (L.allocate t _ ht hI) rfl rfl ?_ ?_ hs
    (fun _ => allocate_inPhase) fun _ => allocate_free⟩
  · rwa [allocate_alloc_self]
  · rwa [allocate_avail]

/-! ## Freeing -/

/-- **Freeing at once.**  The call returns only if the range was allocated in the same
group and has not synced.  The map is loaded then. -/
theorem free_now (hfit : a + n < 2 ^ 64) (hlive : ∀ x ∈ Ico a (a + n), (L.byte x).dying = none)
    {msp' : Metaslab} (hrun : metaslabFree msp a n t true = some msp') :
    ∃ hI : Ico a (a + n) ⊆ L.alloc t, msp'.Refines e words (L.release t (Ico a (a + n)) hI) := by
  have hon := h.alloc_of_window ht
  simp only [metaslabFree, if_true, Option.bind_eq_bind, Option.bind_eq_some_iff] at hrun
  obtain ⟨am, ham, sm, hsm, hmsp⟩ := hrun
  obtain ⟨hr, hI⟩ := spaceMapRemove_inv hon.rep hfit ham
  have hpos := hr.pos
  rw [hon.range] at hr
  obtain ⟨am', ham', hon'⟩ := hon.remove hr hI
  cases ham.symm.trans ham'
  have hl : msp.msMap.Loaded L.avail := by
    refine h.map.resolve_right fun hd => ?_
    have hmem := hI (mem_Ico.mpr ⟨le_rfl, by omega⟩)
    rw [hd.alloc t] at hmem
    exact notMem_empty _ hmem
  have hdis : Disjoint L.avail (Ico a (a + n)) := (inPhase_disjoint (by simp)).mono_right hI
  obtain ⟨sm', hsm', hl', hsame⟩ := spaceMapFree_spec hl (h.spans.range.mpr hr) hdis
  cases hsm.symm.trans hsm'
  cases hmsp
  refine ⟨hI, h.set_alloc ht (L.release t _ hI) rfl rfl ?_ ?_ (h.spans.of_same hsame)
    (fun _ => release_inPhase) fun _ => release_free hlive⟩
  · rwa [release_alloc_self]
  · rwa [release_avail]

/-- **Freeing in group `t`.** -/
theorem free_deferred (hr : e.Range a n)
    (hI : ∀ x ∈ Ico a (a + n), (L.byte x).phase = .synced ∨
      ∃ u, u ≤ t ∧ (L.byte x).phase = .allocated u)
    (hlive : ∀ x ∈ Ico a (a + n), (L.byte x).dying = none) :
    ∃ msp', metaslabFree msp a n t false = some msp' ∧
      msp'.Refines e words (L.defer t (Ico a (a + n)) ht hI) := by
  have hdis : Disjoint (L.free t) (Ico a (a + n)) := by
    rw [disjoint_right]
    intro x hx hx'
    rw [mem_free, hlive x hx] at hx'
    simp at hx'
  obtain ⟨fm, hrun, hon⟩ := (h.free_of_window ht).add hr hdis
  rw [← @defer_free_self _ _ _ _ _ ht hI (h.all ▸ hr.subset)] at hon
  have hphase : ∀ p, (L.defer t (Ico a (a + n)) ht hI).inPhase p = L.inPhase p :=
    fun _ => defer_inPhase
  have hne : txgSlot (L.syncing + 3) ≠ txgSlot t := fun hslot => by
    obtain ⟨i, hi, rfl⟩ := exists_index ht
    have := txgSlot_inj (by omega) (by omega) hslot
    omega
  have hfreed := h.freed
  rw [← update_of_ne hne fm msp.msFreemap] at hfreed
  refine ⟨{ msp with msFreemap := update msp.msFreemap (txgSlot t) fm },
    by simp [metaslabFree, hrun], { h with
    alloc := fun i hi => ?_
    free := fun i hi =>
      update_slot ht hon (fun u hu => defer_free hu hlive) (by omega) (h.free i hi)
    freed := ?_
    map := ?_
    disk := ?_ }⟩
  · rw [Ledger.alloc, hphase]
    exact h.alloc i hi
  · rw [Ledger.freed, hphase]
    exact hfreed
  · refine h.map.imp (fun hl => ?_) fun hd => ⟨hd.unloaded, fun u => ?_, ?_, ?_⟩
    · rw [avail, hphase]
      exact hl
    · rw [Ledger.alloc, hphase]
      exact hd.alloc u
    · rw [Ledger.disk, Ledger.freed, hphase, hphase]
      exact hd.log
    · rw [Ledger.disk, Ledger.freed, hphase, hphase]
      exact hd.card
  · rw [Ledger.disk, hphase]
    exact h.disk

end

end Metaslab.Refines

end Polaris
