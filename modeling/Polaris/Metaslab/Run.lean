import Polaris.Metaslab.Pool

/-!
# Runs of the allocator

A run of the allocator is a sequence of allocations, frees and claims, together with
the syncs of the transaction groups, one after the other.  Along a run we keep a list of
the blocks that are live or that were freed in a group that is not done yet.

The invariant is that the pool keeps ledgers that hold all these blocks.  So no block
overlaps another one, and none of them is in a map that space is taken from.

## Main definitions

* `Block`, `Spa.Opened`, `SpaRun`
* `Spa.Inv`

## Main statements

* `SpaRun.inv`
-/

namespace Polaris

open Finset Option Function

/-! ## Blocks -/

/-- A block that a block pointer refers to, with the groups in which it was allocated
and freed. -/
structure Block where
  vdev : ℕ
  offset : ℕ
  size : ℕ
  birth : ℕ
  freedIn : Option ℕ
  deriving DecidableEq, Repr

/-- The bytes of a block. -/
def Block.range (b : Block) : Finset ℕ := Ico b.offset (b.offset + b.size)

/-- Two blocks do not overlap. -/
def Block.Apart (b b' : Block) : Prop := b.vdev = b'.vdev → Disjoint b.range b'.range

theorem Block.Apart.symm {b b' : Block} (h : b.Apart b') : b'.Apart b := fun hv => (h hv.symm).symm

/-! ## Objects -/

/-- The pool has a metaslab `m` of device `v`. -/
def Spa.HasMs (spa : Spa) (v m : ℕ) : Prop :=
  v < spa.vdevChildren ∧ m < (spa.vdevChild v).vdevMsCount

/-- The space map object of a metaslab, or zero. -/
def Spa.smObject (spa : Spa) (v m : ℕ) : ℕ := ((spa.vdevChild v).vdevMs m).msSmoSyncing.smoObject

/-- No two metaslabs share an object, and none of the objects is the array of a device. -/
structure Spa.Objects (spa : Spa) : Prop where
  distinct : ∀ v m v' m', spa.HasMs v m → spa.HasMs v' m' → spa.smObject v m ≠ 0 →
    spa.smObject v m = spa.smObject v' m' → v = v' ∧ m = m'
  array : ∀ v m v', spa.HasMs v m → v' < spa.vdevChildren → spa.smObject v m ≠ 0 →
    spa.smObject v m ≠ (spa.vdevChild v').vdevMsArray

/-- What `dmu_object_alloc` returns: an object that nothing uses. -/
structure Spa.Fresh (spa : Spa) (newObject : ℕ) : Prop where
  ne_zero : newObject ≠ 0
  empty : spa.spaMetaObjset.words newObject = []
  ms : ∀ v m, spa.HasMs v m → spa.smObject v m ≠ newObject
  array : ∀ v, v < spa.vdevChildren → (spa.vdevChild v).vdevMsArray ≠ newObject

/-! ## Runs -/

/-- A pool that was just opened or created.  Its space map objects have `D` allocated. -/
structure Spa.Opened (spa : Spa) (g : ℕ → Geometry) (D : ℕ → ℕ → Finset ℕ) : Prop where
  sound : spa.Sound g
  objects : spa.Objects
  vdev : ∀ v, v < spa.vdevChildren → ∃ vd txg, txg ≤ txgInitial ∧
    vd.vdevAshift = (g v).ashift ∧ vd.vdevMsShift = (g v).msShift ∧ vd.vdevMsShift ≠ 0 ∧
    vd.vdevAsize >>> vd.vdevMsShift = (g v).msCount ∧ vd.vdevMg.mgMetaslabTree = [] ∧
    (∀ m (hm : m < (g v).msCount), SmoLogs ((g v).extent m hm) spa.spaMetaObjset.words
      (vdevMetaslabSmo vd spa.spaMetaObjset m txg) (D v m)) ∧
    vdevMetaslabInit vd spa.spaMetaObjset txg = some (spa.vdevChild v)

/-- The index of the metaslab of a block. -/
def Block.index (b : Block) (g : ℕ → Geometry) : ℕ := b.offset >>> (g b.vdev).msShift

/-- A block of whole units of a metaslab. -/
structure Block.Placed (b : Block) (vdevChildren : ℕ) (g : ℕ → Geometry) : Prop where
  vdev : b.vdev < vdevChildren
  ms : b.index g < (g b.vdev).msCount
  range : ((g b.vdev).extent (b.index g) ms).Range b.offset b.size

/-- The block in metaslab `m` of device `v` was freed in group `txg`. -/
def Block.FreedFrom (b : Block) (g : ℕ → Geometry) (v m txg : ℕ) : Prop :=
  b.vdev = v ∧ b.index g = m ∧ b.freedIn = some txg

instance (b : Block) (g : ℕ → Geometry) (v m txg : ℕ) : Decidable (b.FreedFrom g v m txg) :=
  inferInstanceAs (Decidable (_ ∧ _ ∧ _))

/-- The group that a metaslab syncs next, by device and metaslab. -/
abbrev Syncing := ℕ → ℕ → ℕ

/-- The metaslab is done with the syncing group. -/
def Syncing.advance (cur : Syncing) (v m : ℕ) : Syncing :=
  update cur v (update (cur v) m (cur v m + 1))

/-- The pool after `metaslab_sync`. -/
def Spa.setSynced (spa : Spa) (v m : ℕ) (msp : Metaslab) (mos : Mos) : Spa :=
  { spa.setVdev v ((spa.vdevChild v).setMs m msp) with spaMetaObjset := mos }

/-- `SpaRun g spa S cur blocks`: the pool `spa` is reached while group `S` is syncing, and
`blocks` are the blocks that are live or that were freed in a group that is not done.

Groups up to `S + 2` are open.  A metaslab that is done with group `S` takes part in no
more of its operations. -/
inductive SpaRun (g : ℕ → Geometry) : Spa → ℕ → Syncing → List Block → Prop
  /-- The pool is opened, with the blocks that are found on disk. -/
  | start {spa : Spa} {S : ℕ} {D : ℕ → ℕ → Finset ℕ} {blocks : List Block} (hopen : spa.Opened g D)
      (hplaced : ∀ b ∈ blocks, b.Placed spa.vdevChildren g)
      (hfound : ∀ b ∈ blocks, b.freedIn = none ∧ b.range ⊆ D b.vdev (b.index g))
      (hapart : blocks.Pairwise Block.Apart) :
      SpaRun g spa S (fun _ _ => S) blocks
  /-- `metaslab_alloc_dva` finds room. -/
  | alloc {spa spa' : Spa} {S : ℕ} {cur : Syncing} {blocks : List Block} {psize txg : ℕ}
      {dva : List Dva} {hintdva : Option Dva} {stat : SpaStat} {d : Dva}
      (h : SpaRun g spa S cur blocks) (hpos : 0 < psize) (hmax : psize ≤ spaMaxblocksize)
      (hcur : ∀ v m, spa.HasMs v m → cur v m ≤ txg) (htxg : txg ≤ S + 2)
      (hrun : metaslabAllocDva spa psize dva hintdva txg stat = some (spa', .ok d)) :
      SpaRun g spa' S cur (⟨d.vdev, d.offset, d.asize, txg, none⟩ :: blocks)
  /-- `metaslab_alloc_dva` finds no room. -/
  | full {spa spa' : Spa} {S : ℕ} {cur : Syncing} {blocks : List Block} {psize txg : ℕ}
      {dva : List Dva} {hintdva : Option Dva} {stat : SpaStat} {e : Errno}
      (h : SpaRun g spa S cur blocks) (hpos : 0 < psize) (hmax : psize ≤ spaMaxblocksize)
      (hcur : ∀ v m, spa.HasMs v m → cur v m ≤ txg) (htxg : txg ≤ S + 2)
      (hrun : metaslabAllocDva spa psize dva hintdva txg stat = some (spa', .error e)) :
      SpaRun g spa' S cur blocks
  /-- A live block is freed in group `txg`. -/
  | free {spa spa' : Spa} {S : ℕ} {cur : Syncing} {blocks : List Block} {b : Block} {dva : Dva}
      {txg : ℕ} (h : SpaRun g spa S cur blocks) (hb : b ∈ blocks) (hlive : b.freedIn = none)
      (hdva : dva.vdev = b.vdev ∧ dva.offset = b.offset ∧
        dvaSize (spa.vdevChild b.vdev) dva = b.size)
      (hbirth : b.birth ≤ txg) (hcur : cur b.vdev (b.index g) ≤ txg) (htxg : txg ≤ S + 2)
      (hrun : metaslabFreeDva spa dva txg false = some spa') :
      SpaRun g spa' S cur ({ b with freedIn := some txg } :: blocks.erase b)
  /-- A live block is freed at once, in the group in which it was allocated. -/
  | freeNow {spa spa' : Spa} {S : ℕ} {cur : Syncing} {blocks : List Block} {b : Block} {dva : Dva}
      {txg : ℕ} (h : SpaRun g spa S cur blocks) (hb : b ∈ blocks) (hlive : b.freedIn = none)
      (hdva : dva.vdev = b.vdev ∧ dva.offset = b.offset ∧
        dvaSize (spa.vdevChild b.vdev) dva = b.size)
      (hcur : cur b.vdev (b.index g) ≤ txg) (htxg : txg ≤ S + 2)
      (hrun : metaslabFreeDva spa dva txg true = some spa') :
      SpaRun g spa' S cur (blocks.erase b)
  /-- A block is claimed. -/
  | claim {spa spa' : Spa} {S : ℕ} {cur : Syncing} {blocks : List Block} {b : Block} {dva : Dva}
      {txg : ℕ} (h : SpaRun g spa S cur blocks)
      (hdva : b = ⟨dva.vdev, dva.offset, dvaSize (spa.vdevChild dva.vdev) dva, txg, none⟩)
      (hsize : b.size < 2 ^ 63) (hcur : cur b.vdev (b.index g) ≤ txg) (htxg : txg ≤ S + 2)
      (hrun : metaslabClaimDva spa dva txg = some (spa', .ok ())) :
      SpaRun g spa' S cur (b :: blocks)
  /-- The address of a claim is bad. -/
  | reject {spa spa' : Spa} {S : ℕ} {cur : Syncing} {blocks : List Block} {dva : Dva} {txg : ℕ}
      {e : Errno} (h : SpaRun g spa S cur blocks)
      (hrun : metaslabClaimDva spa dva txg = some (spa', .error e)) : SpaRun g spa' S cur blocks
  /-- The device gets its array of space map objects. -/
  | array {spa : Spa} {S : ℕ} {cur : Syncing} {blocks : List Block} {v newObject : ℕ}
      (h : SpaRun g spa S cur blocks) (hv : v < spa.vdevChildren) (hnew : spa.Fresh newObject) :
      SpaRun g (spa.setVdev v (vdevSyncArray (spa.vdevChild v) newObject)) S cur blocks
  /-- `metaslab_sync`, in any pass. -/
  | sync {spa : Spa} {S : ℕ} {cur : Syncing} {blocks : List Block} {v m syncPass newObject : ℕ}
      {msp : Metaslab} {mos : Mos} (h : SpaRun g spa S cur blocks) (hms : spa.HasMs v m)
      (hcur : cur v m = S) (hnew : spa.Fresh newObject)
      (hrun : metaslabSync (spa.vdevChild v)
        ((spa.vdevChild v).vdevMs m) spa.spaMetaObjset S syncPass
        newObject = some (msp, mos)) :
      SpaRun g (spa.setSynced v m msp mos) S cur blocks
  /-- `metaslab_sync_done`, once everything of the group has been synced. -/
  | syncDone {spa : Spa} {S : ℕ} {cur : Syncing} {blocks : List Block} {v m : ℕ} {vd : Vdev}
      (h : SpaRun g spa S cur blocks) (hms : spa.HasMs v m) (hcur : cur v m = S)
      (hA : (((spa.vdevChild v).vdevMs m).msAllocmap (txgSlot S)).smSpace = 0)
      (hF : (((spa.vdevChild v).vdevMs m).msFreemap (txgSlot S)).smSpace = 0)
      (hrun : metaslabSyncDone (spa.vdevChild v) m S = some vd) :
      SpaRun g (spa.setVdev v vd) S (cur.advance v m)
        (blocks.filter fun b => ¬ b.FreedFrom g v m S)
  /-- A metaslab in which nothing was allocated or freed is not synced. -/
  | skip {spa : Spa} {S : ℕ} {cur : Syncing} {blocks : List Block} {v m : ℕ}
      (h : SpaRun g spa S cur blocks) (hms : spa.HasMs v m) (hcur : cur v m = S)
      (hA : (((spa.vdevChild v).vdevMs m).msAllocmap (txgSlot S)).smSpace = 0)
      (hF : (((spa.vdevChild v).vdevMs m).msFreemap (txgSlot S)).smSpace = 0)
      (hfreed : (((spa.vdevChild v).vdevMs m).msFreemap (txgSlot (txgClean S))).smSpace = 0) :
      SpaRun g spa S (cur.advance v m) blocks
  /-- The next group begins to sync. -/
  | next {spa : Spa} {S : ℕ} {cur : Syncing} {blocks : List Block} (h : SpaRun g spa S cur blocks)
      (hcur : ∀ v m, spa.HasMs v m → cur v m = S + 1) : SpaRun g spa (S + 1) cur blocks
  /-- Other objects of the meta object set change. -/
  | other {spa : Spa} {S : ℕ} {cur : Syncing} {blocks : List Block} {mos : Mos}
      (h : SpaRun g spa S cur blocks)
      (hmos : ∀ v m, spa.HasMs v m → spa.smObject v m ≠ 0 →
        mos.words (spa.smObject v m) = spa.spaMetaObjset.words (spa.smObject v m)) :
      SpaRun g { spa with spaMetaObjset := mos } S cur blocks

/-! ## The invariant -/

/-- The ledgers hold the block. -/
structure Block.Held (b : Block) (vdevChildren : ℕ) (g : ℕ → Geometry) (L : Ledgers) : Prop
    extends b.Placed vdevChildren g where
  holds : (L b.vdev (b.index g)).Holds b.range b.birth b.freedIn

/-- The pool keeps ledgers that hold all blocks. -/
structure Spa.Inv (spa : Spa) (g : ℕ → Geometry) (S : ℕ) (cur : Syncing) (blocks : List Block)
    (L : Ledgers) : Prop where
  refines : spa.Refines g L
  objects : spa.Objects
  syncing : ∀ v m, spa.HasMs v m → (L v m).syncing = cur v m
  window : ∀ v m, spa.HasMs v m → S ≤ cur v m ∧ cur v m ≤ S + 1
  held : ∀ b ∈ blocks, b.Held spa.vdevChildren g L
  apart : blocks.Pairwise Block.Apart

variable {dva : Dva} {spa spa' : Spa} {newObject m : ℕ} {l : Ledger ℕ}

theorem Geometry.index_eq {g : Geometry} (hm : m < g.msCount) {x : ℕ}
    (hx : x ∈ (g.extent m hm).bytes) :
    x >>> g.msShift = m := by
  simp only [Extent.bytes, Geometry.extent, mem_Ico] at hx
  rw [Nat.shiftRight_eq_div_pow]
  refine Nat.div_eq_of_lt_le hx.1 ?_
  rw [Nat.add_mul, Nat.one_mul]
  exact hx.2

theorem Extent.Range.mem {e : Extent} {a n : ℕ} (h : e.Range a n) : a ∈ e.bytes :=
  h.subset (mem_Ico.mpr ⟨le_rfl, by have := h.pos; omega⟩)

namespace Block.Held

variable {b : Block} {n : ℕ} {g : ℕ → Geometry} {L : Ledgers} {v m : ℕ}

/-- Changing one ledger. -/
theorem set (h : b.Held n g L) (hl : b.vdev = v → b.index g = m →
    l.Holds b.range b.birth b.freedIn) :
    b.Held n g (L.set v m l) := by
  refine ⟨h.toPlaced, ?_⟩
  by_cases hvm : b.vdev = v ∧ b.index g = m
  · rw [hvm.1, hvm.2, Ledgers.set_self]
    exact hl hvm.1 hvm.2
  · rw [Ledgers.set_of_ne _ _ hvm]
    exact h.holds

/-- The ledger of the metaslab of the block. -/
theorem holds_at (h : b.Held n g L) (hv : b.vdev = v) (hm : b.index g = m) :
    (L v m).Holds b.range b.birth b.freedIn := by
  rw [← hv, ← hm]
  exact h.holds

/-- A block is not available. -/
theorem disjoint_avail (h : b.Held n g L) (hm : m < (g b.vdev).msCount) {I : Finset ℕ}
    (hin : I ⊆ ((g b.vdev).extent m hm).bytes) (hI : I ⊆ (L b.vdev m).avail) :
      Disjoint b.range I := by
  by_cases hbm : b.index g = m
  · exact (h.holds_at rfl hbm).disjoint_avail.mono_right hI
  rw [disjoint_left]
  intro x hx hx'
  have h1 := Geometry.index_eq h.ms (h.range.subset hx)
  have h2 := Geometry.index_eq hm (hin hx')
  exact hbm (h1.symm.trans h2)

end Block.Held

theorem Spa.Kept.hasMs (h : spa.Kept spa') {v : ℕ} : spa'.HasMs v m ↔ spa.HasMs v m := by
  rw [Spa.HasMs, Spa.HasMs, h.children, (h.vdev v).msCount]

theorem Spa.Kept.smObject (h : spa.Kept spa') (v m : ℕ) : spa'.smObject v m = spa.smObject v m := by
  rw [Spa.smObject, (h.vdev v).smo, Spa.smObject]

theorem Spa.Kept.objects (h : spa.Kept spa') (ho : spa.Objects) : spa'.Objects := by
  refine ⟨fun v m v' m' => ?_, fun v m v' => ?_⟩
  · rw [h.hasMs, h.hasMs, h.smObject, h.smObject]
    exact ho.distinct v m v' m'
  · rw [h.hasMs, h.smObject, h.children, (h.vdev v').msArray]
    exact ho.array v m v'

theorem Spa.Refines.hasMs {g : ℕ → Geometry} {L : Ledgers} (h : spa.Refines g L) {v : ℕ} :
    spa.HasMs v m ↔ v < spa.vdevChildren ∧ m < (g v).msCount := by
  refine and_congr_right fun hv => ?_
  rw [(h.vdev v hv).msCount]

namespace Spa.Inv

variable {spa spa' : Spa} {g : ℕ → Geometry} {S : ℕ} {cur : Syncing} {blocks : List Block}
  {L : Ledgers}
  {v m txg : ℕ} {b : Block}

theorem set_syncing (hl : l.syncing = (L v m).syncing) (v' m' : ℕ) :
    (L.set v m l v' m').syncing = (L v' m').syncing := by
  by_cases hvm : v' = v ∧ m' = m
  · rw [hvm.1, hvm.2, Ledgers.set_self, hl]
  · rw [Ledgers.set_of_ne _ _ hvm]

theorem dvaMetaslab_eq (h : spa.Refines g L) (hb : b.Placed spa.vdevChildren g)
    (hv : dva.vdev = b.vdev) (ho : dva.offset = b.offset) :
      dvaMetaslab spa dva = some (spa.vdevChild b.vdev, b.index g) := by
  have hvd := h.vdev b.vdev hb.vdev
  have hms := hb.ms
  rw [Block.index] at hms
  simp only [dvaMetaslab, vdevLookupTop, hv, ho, if_pos hb.vdev, hvd.msShift, hvd.msCount,
    if_neg (not_le.mpr hms), ge_iff_le, Block.index]

/-- What `metaslab_free_dva` does with a block: nothing if the pool is frozen. -/
theorem freeDva_cases (h : spa.Refines g L) (hb : b.Placed spa.vdevChildren g)
    (hdva : dva.vdev = b.vdev ∧ dva.offset = b.offset ∧ dvaSize (spa.vdevChild b.vdev) dva = b.size)
    {now : Bool} (hrun : metaslabFreeDva spa dva txg now = some spa') :
    spa' = spa ∨ ∃ msp, metaslabFree ((spa.vdevChild b.vdev).vdevMs (b.index g)) b.offset b.size txg
        now = some msp ∧
      spa' = spa.setVdev b.vdev ((spa.vdevChild b.vdev).setMs (b.index g) msp) := by
  rw [metaslabFreeDva] at hrun
  split at hrun
  · exact Or.inl (some.inj hrun).symm
  · simp only [dvaMetaslab_eq h hb hdva.1 hdva.2.1, hdva.2.1, hdva.2.2, hdva.1, bind_eq_bind,
      bind_eq_some_iff] at hrun
    obtain ⟨msp, hfree, hspa⟩ := hrun
    exact Or.inr ⟨msp, hfree, (some.inj hspa).symm⟩

/-- What `metaslab_claim_dva` does: the address is bad, or the metaslab takes the claim. -/
theorem claimDva_cases (h : spa.Refines g L) {r : Except Errno Unit}
    (hrun : metaslabClaimDva spa dva txg = some (spa', r)) :
    r = .error .enxio ∧ spa' = spa ∨ r = .ok () ∧ dva.vdev < spa.vdevChildren ∧
      dva.offset >>> (g dva.vdev).msShift < (g dva.vdev).msCount ∧
      ∃ vd, metaslabClaim (spa.vdevChild dva.vdev) spa.spaMetaObjset
          (dva.offset >>> (g dva.vdev).msShift) dva.offset
          (dvaSize (spa.vdevChild dva.vdev) dva) txg = some vd ∧
            spa' = spa.setVdev dva.vdev vd := by
  simp only [metaslabClaimDva, dvaMetaslab, vdevLookupTop, ge_iff_le] at hrun
  by_cases hv : dva.vdev < spa.vdevChildren
  · have hvd := h.vdev dva.vdev hv
    simp only [if_pos hv, hvd.msShift, hvd.msCount] at hrun
    by_cases hm : dva.offset >>> (g dva.vdev).msShift < (g dva.vdev).msCount
    · simp only [if_neg (not_le.mpr hm), bind_eq_bind, bind_eq_some_iff] at hrun
      obtain ⟨vd, hclaim, hr⟩ := hrun
      cases hr
      exact Or.inr ⟨rfl, hv, hm, vd, hclaim, rfl⟩
    · simp only [if_pos (not_lt.mp hm)] at hrun
      cases hrun
      exact Or.inl ⟨rfl, rfl⟩
  · simp only [if_neg hv] at hrun
    cases hrun
    exact Or.inl ⟨rfl, rfl⟩

theorem smObject_setSynced (spa : Spa) (v m : ℕ) (msp : Metaslab) (mos : Mos) (v' m' : ℕ) :
    (spa.setSynced v m msp mos).smObject v' m' =
      if v' = v ∧ m' = m then msp.msSmoSyncing.smoObject else spa.smObject v' m' := by
  by_cases hv : v' = v
  · subst hv
    by_cases hm : m' = m <;> simp [Spa.smObject, Spa.setSynced, Spa.setVdev, Vdev.setMs, hm]
  · simp [Spa.smObject, Spa.setSynced, Spa.setVdev, hv]

theorem setSynced_sameShape (spa : Spa) (v m : ℕ) (msp : Metaslab) (mos : Mos) (v' : ℕ) :
    (spa.vdevChild v').SameShape ((spa.setSynced v m msp mos).vdevChild v') := by
  by_cases hv : v' = v
  · subst hv
    simpa [Spa.setSynced, Spa.setVdev] using Vdev.setMs_sameShape ..
  · simpa [Spa.setSynced, Spa.setVdev, hv] using Vdev.SameShape.refl _

/-- A map without space stands for the empty set. -/
theorem eq_empty_of_space {sm : SpaceMap} {e : Extent} {A : Finset ℕ} (h : sm.On e A)
    (hs : sm.smSpace = 0) : A = ∅ := card_eq_zero.mp (h.rep.space ▸ hs)

theorem advance_apply (cur : Syncing) (v m v' m' : ℕ) :
    cur.advance v m v' m' = if v' = v ∧ m' = m then cur v m + 1 else cur v' m' :=
  update_update_apply ..

/-- The devices after one of them has got its array. -/
theorem vdevSyncArray_child (spa : Spa) (v newObject k : ℕ) :
    ∃ array, (array = (spa.vdevChild k).vdevMsArray ∨ array = newObject) ∧
      (spa.setVdev v (vdevSyncArray (spa.vdevChild v) newObject)).vdevChild k =
        { spa.vdevChild k with vdevMsArray := array } := by
  by_cases hk : k = v
  · subst hk
    simp only [Spa.setVdev, update_self, vdevSyncArray]
    split
    · exact ⟨newObject, Or.inr rfl, rfl⟩
    · exact ⟨_, Or.inl rfl, rfl⟩
  · exact ⟨_, Or.inl rfl, update_of_ne hk ..⟩

section

variable (h : spa.Inv g S cur blocks L)

include h

/-- A step that keeps the objects and the groups of the ledgers. -/
theorem of_kept (hk : spa.Kept spa') {L' : Ledgers}
    (hL : spa'.Refines g L') (hsyncing : ∀ v m, (L' v m).syncing = (L v m).syncing)
    {blocks' : List Block} (hheld : ∀ b ∈ blocks', b.Held spa.vdevChildren g L')
    (hapart : blocks'.Pairwise Block.Apart) : spa'.Inv g S cur blocks' L' := by
  refine ⟨hL, hk.objects h.objects, fun v m hvm => ?_, fun v m hvm => ?_, fun b hb => ?_, hapart⟩
  · rw [hsyncing]
    exact h.syncing v m (hk.hasMs.mp hvm)
  · exact h.window v m (hk.hasMs.mp hvm)
  · rw [hk.children]
    exact hheld b hb

/-- A group that is open for a metaslab is in flight there. -/
theorem inFlight (hvm : spa.HasMs v m) (hcur : cur v m ≤ txg)
    (htxg : txg ≤ S + 2) : (L v m).syncing ≤ txg ∧ txg ≤ (L v m).syncing + 2 := by
  have hwin := h.window v m hvm
  rw [h.syncing v m hvm]
  omega

/-- A range that was available is handed out, and becomes a block. -/
theorem allocated (hk : spa.Kept spa') (hv : b.vdev < spa.vdevChildren)
    (hm : m < (g b.vdev).msCount) (hr : ((g b.vdev).extent m hm).Range b.offset b.size)
    (ht : (L b.vdev m).syncing ≤ b.birth ∧ b.birth ≤ (L b.vdev m).syncing + 2)
    (hI : b.range ⊆ (L b.vdev m).avail) (hlive : b.freedIn = none)
    (hL : spa'.Refines g (L.set b.vdev m ((L b.vdev m).allocate b.birth b.range ht hI))) :
    ∃ L', spa'.Inv g S cur (b :: blocks) L' := by
  have hindex : b.index g = m := Geometry.index_eq hm hr.mem
  refine ⟨_, h.of_kept hk hL (set_syncing rfl) (fun c hc => ?_)
    (List.pairwise_cons.mpr ⟨fun c hc => ?_,
    h.apart⟩)⟩
  · rcases List.mem_cons.mp hc with rfl | hc
    · subst hindex
      refine ⟨⟨hv, hm, hr⟩, ?_⟩
      rw [Ledgers.set_self, hlive]
      exact Ledger.Holds.allocated
    · exact (h.held c hc).set fun hcv hcm => ((h.held c hc).holds_at hcv hcm).allocate
  · intro hbc
    have hm' : m < (g c.vdev).msCount := hbc ▸ hm
    refine ((h.held c hc).disjoint_avail hm' ?_ ?_).symm
    · have : (g c.vdev).extent m hm' = (g b.vdev).extent m hm := by simp only [hbc]
      rw [this]
      exact hr.subset
    · rw [← hbc]
      exact hI

theorem alloc {psize : ℕ} (hpos : 0 < psize)
    (hmax : psize ≤ spaMaxblocksize) (hcur : ∀ v m, spa.HasMs v m → cur v m ≤ txg)
    (htxg : txg ≤ S + 2) {dva : List Dva} {hintdva : Option Dva} {stat : SpaStat}
    {r : Except Errno Dva} (hrun : metaslabAllocDva spa psize dva hintdva txg stat
      = some (spa', r)) :
    (∃ d, r = .ok d ∧
      ∃ L', spa'.Inv g S cur (⟨d.vdev, d.offset, d.asize, txg, none⟩ :: blocks) L') ∨
      r = .error .enospc ∧ ∃ L', spa'.Inv g S cur blocks L' := by
  have hflight : L.InFlight spa g txg := by
    intro v m hv hm
    have hvm := h.refines.hasMs.mpr ⟨hv, hm⟩
    exact h.inFlight hvm (hcur v m hvm) htxg
  obtain ⟨rotor, hstart, -⟩ := bind_eq_some_iff.mp hrun
  obtain ⟨spa₁, r₁, hrun₁, hk, hr⟩ := metaslabAllocDva_spec h.refines hpos hmax hflight hstart stat
  cases hrun.symm.trans hrun₁
  rcases hr with ⟨hfull, hL⟩ | ⟨d, hd, ⟨m, hv, hm, hr, ht, hI, hL⟩⟩
  · exact Or.inr ⟨hfull, L, h.of_kept hk hL (fun _ _ => rfl) h.held h.apart⟩
  · exact Or.inl ⟨d, hd, h.allocated (b := ⟨d.vdev, d.offset, d.asize, txg, none⟩) hk
      (hk.children ▸ hv) hm hr ht hI rfl hL⟩

/-- The other blocks are apart from the one that is freed. -/
theorem apart_of_mem (hb : b ∈ blocks) :
    ∀ c ∈ blocks.erase b, c.Apart b := by
  have hperm : (b :: blocks.erase b).Pairwise Block.Apart :=
    (List.perm_cons_erase hb).pairwise h.apart fun hxy => Block.Apart.symm hxy
  exact fun c hc => ((List.pairwise_cons.mp hperm).1 c hc).symm

theorem held_erase {c : Block} (hc : c ∈ blocks.erase b) :
    c.Held spa.vdevChildren g L := h.held c (List.mem_of_mem_erase hc)

section

variable (hb : b ∈ blocks) (hlive : b.freedIn = none)
  (hdva : dva.vdev = b.vdev ∧ dva.offset = b.offset ∧ dvaSize (spa.vdevChild b.vdev) dva = b.size)

include hb hlive hdva

theorem free (hbirth : b.birth ≤ txg) (hcur : cur b.vdev (b.index g) ≤ txg) (htxg : txg ≤ S + 2)
    (hrun : metaslabFreeDva spa dva txg false = some spa') :
    ∃ L', spa'.Inv g S cur ({ b with freedIn := some txg } :: blocks.erase b) L' := by
  have hheld := h.held b hb
  have hhold := hheld.holds
  rw [hlive] at hhold
  have hapart : ({ b with freedIn := some txg } :: blocks.erase b).Pairwise Block.Apart :=
    List.pairwise_cons.mpr ⟨fun c hc => (h.apart_of_mem hb c hc).symm, h.apart.erase b⟩
  rcases freeDva_cases h.refines hheld.toPlaced hdva hrun with rfl | ⟨msp, hfree, rfl⟩
  · refine ⟨L, h.of_kept (.refl _) h.refines (fun _ _ => rfl) (fun c hc => ?_) hapart⟩
    rcases List.mem_cons.mp hc with rfl | hc
    · exact ⟨⟨hheld.vdev, hheld.ms, hheld.range⟩, hhold.ignored⟩
    · exact h.held_erase hc
  have hvm := h.refines.hasMs.mpr ⟨hheld.vdev, hheld.ms⟩
  have ht := h.inFlight hvm hcur htxg
  obtain ⟨msp', hfree', hc, hL⟩ := (h.refines.vdev b.vdev hheld.vdev).freeDeferred hheld.ms ht
    hheld.range hbirth hhold
  cases hfree.symm.trans hfree'
  refine ⟨_, h.of_kept (.setVdev hc.toKept) (h.refines.setVdev hc.toKept hL) (set_syncing rfl)
    (fun c hc => ?_) hapart⟩
  rcases List.mem_cons.mp hc with rfl | hc
  · refine ⟨⟨hheld.vdev, hheld.ms, hheld.range⟩, ?_⟩
    rw [← Ledgers.set, show Block.index { b with freedIn := some txg } g = b.index g from rfl,
      Ledgers.set_self]
    exact hhold.deferred
  · exact (h.held_erase hc).set fun hcv hcm =>
      ((h.held_erase hc).holds_at hcv hcm).defer (h.apart_of_mem hb c hc hcv)

theorem freeNow (hcur : cur b.vdev (b.index g) ≤ txg) (htxg : txg ≤ S + 2)
    (hrun : metaslabFreeDva spa dva txg true = some spa') :
    ∃ L', spa'.Inv g S cur (blocks.erase b) L' := by
  have hheld := h.held b hb
  have hhold := hheld.holds
  rw [hlive] at hhold
  rcases freeDva_cases h.refines hheld.toPlaced hdva hrun with rfl | ⟨msp, hfree, rfl⟩
  · exact ⟨L, h.of_kept (.refl _) h.refines (fun _ _ => rfl) (fun c hc => h.held_erase hc)
      (h.apart.erase b)⟩
  have hvm := h.refines.hasMs.mpr ⟨hheld.vdev, hheld.ms⟩
  have ht := h.inFlight hvm hcur htxg
  have hfit : b.offset + b.size < 2 ^ 64 := by
    have hupper := hheld.range.upper
    have hhalf := ((g b.vdev).extent (b.index g) hheld.ms).half
    omega
  obtain ⟨hc, hI, hL⟩ := (h.refines.vdev b.vdev hheld.vdev).freeNow hheld.ms ht hfit hhold hfree
  refine ⟨_, h.of_kept (.setVdev hc.toKept) (h.refines.setVdev hc.toKept hL) (set_syncing rfl)
    (fun c hc => ?_) (h.apart.erase b)⟩
  exact (h.held_erase hc).set fun hcv hcm =>
    ((h.held_erase hc).holds_at hcv hcm).release (h.apart_of_mem hb c hc hcv)

end

theorem claim (hdva : b = ⟨dva.vdev, dva.offset, dvaSize (spa.vdevChild dva.vdev) dva, txg, none⟩)
    (hsize : b.size < 2 ^ 63) (hcur : cur b.vdev (b.index g) ≤ txg) (htxg : txg ≤ S + 2)
    (hrun : metaslabClaimDva spa dva txg = some (spa', .ok ())) :
    ∃ L', spa'.Inv g S cur (b :: blocks) L' := by
  rcases claimDva_cases h.refines hrun with ⟨hbad, -⟩ | ⟨-, hv, hm, vd, hclaim, rfl⟩
  · cases hbad
  subst hdva
  have ht := h.inFlight (h.refines.hasMs.mpr ⟨hv, hm⟩) hcur htxg
  have hfit : dva.offset + dvaSize (spa.vdevChild dva.vdev) dva < 2 ^ 64 := by
    have hhalf := ((g dva.vdev).extent _ hm).half
    have hlt := Nat.lt_div_mul_add (a := dva.offset) (Nat.two_pow_pos (g dva.vdev).msShift)
    rw [← Nat.shiftRight_eq_div_pow] at hlt
    exact lt_of_lt_of_le (Nat.add_lt_add_of_le_of_lt (hlt.le.trans hhalf) hsize) (by norm_num)
  obtain ⟨hk, hr, hI, hL⟩ := (h.refines.vdev dva.vdev hv).claim hm ht hfit hclaim
  exact h.allocated (.setVdev hk) hv hm hr ht hI rfl (h.refines.setVdev hk hL)

theorem reject {e : Errno}
    (hrun : metaslabClaimDva spa dva txg = some (spa', .error e)) : spa'.Inv g S cur blocks L := by
  rcases claimDva_cases h.refines hrun with ⟨-, rfl⟩ | ⟨hok, -⟩
  · exact h
  · cases hok

/-! ## Syncing -/

/-- The object of a metaslab after a sync is not one of another metaslab. -/
theorem syncedObject_ne (hvm : spa.HasMs v m)
    (hnew : spa.Fresh newObject) {v' m' : ℕ} (hvm' : spa.HasMs v' m') (hne : ¬ (v' = v ∧ m' = m))
    (h0 : spa.smObject v' m' ≠ 0) :
    spa.smObject v' m' ≠ syncedObject ((spa.vdevChild v).vdevMs m) newObject := by
  rw [syncedObject]
  split
  · exact hnew.ms v' m' hvm'
  · exact fun heq => hne (h.objects.distinct v' m' v m hvm' hvm h0 heq)

/-- The object of a metaslab after a sync is not the array of a device. -/
theorem syncedObject_ne_array (hvm : spa.HasMs v m)
    (hnew : spa.Fresh newObject) {v' : ℕ} (hv' : v' < spa.vdevChildren) :
    syncedObject ((spa.vdevChild v).vdevMs m) newObject ≠ (spa.vdevChild v').vdevMsArray := by
  rw [syncedObject]
  split
  · exact (hnew.array v' hv').symm
  · rename_i hold
    exact h.objects.array v m v' hvm hv' hold

theorem freshObject (hvm : spa.HasMs v m) (hnew : spa.Fresh newObject) :
    FreshObject (spa.vdevChild v) ((spa.vdevChild v).vdevMs m) spa.spaMetaObjset newObject :=
  ⟨hnew.ne_zero, hnew.empty, h.syncedObject_ne_array hvm hnew hvm.1⟩

theorem sync (hvm : spa.HasMs v m) (hcur : cur v m = S)
    (hnew : spa.Fresh newObject) {syncPass : ℕ} {msp : Metaslab} {mos : Mos}
    (hrun : metaslabSync (spa.vdevChild v) ((spa.vdevChild v).vdevMs m) spa.spaMetaObjset S syncPass
      newObject = some (msp, mos)) :
    (spa.setSynced v m msp mos).Inv g S cur blocks (L.set v m (L v m).sync) := by
  have hvm' := h.refines.hasMs.mp hvm
  have hsyncing : (L v m).syncing = S := (h.syncing v m hvm).trans hcur
  obtain ⟨msp', mos', hrun', hvd, hobj, hothers⟩ := (h.refines.vdev v hvm.1).sync hvm'.2
    (h.freshObject hvm hnew) (fun k hk hkm h0 => by
      have hvk := h.refines.hasMs.mpr ⟨hvm.1, hk⟩
      exact ⟨h.syncedObject_ne hvm hnew hvk (fun heq => hkm heq.2) h0,
      h.objects.array v k v hvk hvm.1 h0⟩)
    syncPass
  rw [hsyncing] at hrun'
  cases hrun.symm.trans hrun'
  have hshape := setSynced_sameShape spa v m msp mos
  have hhas : ∀ v' m', (spa.setSynced v m msp mos).HasMs v' m' ↔ spa.HasMs v' m' := fun v' m' => by
    rw [Spa.HasMs, Spa.HasMs, (hshape v').msCount]
    rfl
  have hsync : (L v m).sync.syncing = (L v m).syncing := rfl
  refine ⟨⟨h.refines.sound.congr rfl rfl fun k =>
      ⟨(hshape k).id, (hshape k).asize, (hshape k).opAsize⟩, fun k hk => ?_⟩,
    ⟨fun v₁ m₁ v₂ m₂ h₁ h₂ h0 heq => ?_, fun v₁ m₁ v₂ h₁ h₂ h0 => ?_⟩, fun k l hkl => ?_,
    fun k l hkl => h.window k l ((hhas k l).mp hkl), fun b hb => ?_, h.apart⟩
  · by_cases hkv : k = v
    · subst hkv
      simpa [Spa.setSynced, Spa.setVdev, Ledgers.set] using hvd
    have hw := (h.refines.vdev k hk).set_words fun l hl h0 => by
      have hkl := h.refines.hasMs.mpr ⟨hk, hl⟩
      exact hothers _ (h.syncedObject_ne hvm hnew hkl (fun heq => hkv heq.1) h0)
        (h.objects.array k l v hkl hvm.1 h0)
    simpa [Spa.setSynced, Spa.setVdev, Ledgers.set, hkv] using hw
  · rw [hhas] at h₁ h₂
    rw [smObject_setSynced] at h0 heq
    rw [smObject_setSynced] at heq
    split_ifs at h0 heq with hc₁ hc₂ hc₂
    · exact ⟨hc₁.1.trans hc₂.1.symm, hc₁.2.trans hc₂.2.symm⟩
    · rw [hobj] at h0 heq
      exact absurd heq.symm (h.syncedObject_ne hvm hnew h₂ hc₂ (heq ▸ h0))
    · rw [hobj] at heq
      exact absurd heq (h.syncedObject_ne hvm hnew h₁ hc₁ h0)
    · exact h.objects.distinct v₁ m₁ v₂ m₂ h₁ h₂ h0 heq
  · rw [hhas] at h₁
    rw [(hshape v₂).msArray]
    rw [smObject_setSynced] at h0 ⊢
    split_ifs at h0 ⊢ with hc₁
    · rw [hobj]
      exact h.syncedObject_ne_array hvm hnew h₂
    · exact h.objects.array v₁ m₁ v₂ h₁ h₂ h0
  · rw [set_syncing hsync]
    exact h.syncing k l ((hhas k l).mp hkl)
  · exact (h.held b hb).set fun hbv hbm => ((h.held b hb).holds_at hbv hbm).sync

section

variable (hvm : spa.HasMs v m) (hcur : cur v m = S)

include hvm hcur

/-- A metaslab is done with the syncing group. -/
theorem advance (hk : spa.Kept spa') (hl : l.syncing = (L v m).syncing + 1)
    (hL : spa'.Refines g (L.set v m l))
    {blocks' : List Block} (hheld : ∀ b ∈ blocks', b.Held spa.vdevChildren g (L.set v m l))
    (hapart : blocks'.Pairwise Block.Apart) :
      spa'.Inv g S (cur.advance v m) blocks' (L.set v m l) := by
  refine ⟨hL, hk.objects h.objects, fun v' m' hvm' => ?_, fun v' m' hvm' => ?_,
    fun b hb => ?_, hapart⟩
  · rw [hk.hasMs] at hvm'
    rw [advance_apply]
    split_ifs with heq
    · rw [heq.1, heq.2, Ledgers.set_self, hl, h.syncing v m hvm]
    · rw [Ledgers.set_of_ne _ _ heq]
      exact h.syncing v' m' hvm'
  · rw [hk.hasMs] at hvm'
    rw [advance_apply]
    split_ifs with heq
    · omega
    · exact h.window v' m' hvm'
  · rw [hk.children]
    exact hheld b hb

variable (hA : (((spa.vdevChild v).vdevMs m).msAllocmap (txgSlot S)).smSpace = 0)
  (hF : (((spa.vdevChild v).vdevMs m).msFreemap (txgSlot S)).smSpace = 0)

include hA hF

/-- Everything of the syncing group has been synced. -/
theorem synced_empty :
    (L v m).alloc (L v m).syncing = ∅ ∧ (L v m).free (L v m).syncing = ∅ := by
  have hvm' := h.refines.hasMs.mp hvm
  have hms := (h.refines.vdev v hvm.1).ms m hvm'.2
  rw [← hcur, ← h.syncing v m hvm] at hA hF
  exact ⟨eq_empty_of_space (hms.alloc 0 (by omega)) hA,
    eq_empty_of_space (hms.free 0 (by omega)) hF⟩

theorem syncDone {vd : Vdev} (hrun : metaslabSyncDone (spa.vdevChild v) m S = some vd) :
    ∃ L', (spa.setVdev v vd).Inv g S (cur.advance v m)
      (blocks.filter fun b => ¬ b.FreedFrom g v m S) L' := by
  obtain ⟨hA', hF'⟩ := h.synced_empty hvm hcur hA hF
  have hsyncing : (L v m).syncing = S := (h.syncing v m hvm).trans hcur
  obtain ⟨vd', hrun', hc, hL⟩ := (h.refines.vdev v hvm.1).done (h.refines.hasMs.mp hvm).2 hA' hF'
  rw [hsyncing] at hrun'
  cases hrun.symm.trans hrun'
  refine ⟨_, h.advance hvm hcur (.setVdev hc.toKept) rfl (h.refines.setVdev hc.toKept hL)
    (fun b hb => ?_) (h.apart.filter _)⟩
  rw [List.mem_filter, decide_eq_true_eq] at hb
  obtain ⟨hb, hlive⟩ := hb
  refine (h.held b hb).set fun hbv hbm => ((h.held b hb).holds_at hbv hbm).done fun hf => ?_
  exact hlive ⟨hbv, hbm, hsyncing ▸ hf⟩

theorem skip
    (hfreed : (((spa.vdevChild v).vdevMs m).msFreemap (txgSlot (txgClean S))).smSpace = 0) :
    ∃ L', spa.Inv g S (cur.advance v m) blocks L' := by
  obtain ⟨hA', hF'⟩ := h.synced_empty hvm hcur hA hF
  have hms := (h.refines.vdev v hvm.1).ms m (h.refines.hasMs.mp hvm).2
  rw [txgSlot_clean, ← hcur, ← h.syncing v m hvm] at hfreed
  have hfreed' := eq_empty_of_space hms.freed hfreed
  have hL := h.refines.setVdev (.refl _)
    ((h.refines.vdev v hvm.1).skip (h.refines.hasMs.mp hvm).2 hA' hF' hfreed')
  rw [Spa.setVdev, Function.update_eq_self] at hL
  exact ⟨_, h.advance hvm hcur (.refl spa) rfl hL
    (fun b hb => (h.held b hb).set fun hbv hbm =>
    ((h.held b hb).holds_at hbv hbm).skip hfreed') h.apart⟩

end

theorem next (hcur : ∀ v m, spa.HasMs v m → cur v m = S + 1) :
    spa.Inv g (S + 1) cur blocks L :=
  { h with window := fun v m hvm => by have := hcur v m hvm; omega }

theorem other {mos : Mos}
    (hmos : ∀ v m, spa.HasMs v m → spa.smObject v m ≠ 0 →
      mos.words (spa.smObject v m) = spa.spaMetaObjset.words (spa.smObject v m)) :
    { spa with spaMetaObjset := mos }.Inv g S cur blocks L := by
  have hs := h.refines.sound
  refine ⟨⟨⟨hs.id, hs.ring, hs.asize, hs.opAsize⟩, fun v hv => ?_⟩,
    ⟨h.objects.distinct, h.objects.array⟩, h.syncing, h.window, h.held, h.apart⟩
  exact (h.refines.vdev v hv).set_words fun m hm => hmos v m (h.refines.hasMs.mpr ⟨hv, hm⟩)

theorem array (hnew : spa.Fresh newObject) :
    (spa.setVdev v (vdevSyncArray (spa.vdevChild v) newObject)).Inv g S cur blocks L := by
  have hchild := vdevSyncArray_child spa v newObject
  set spa₁ := spa.setVdev v (vdevSyncArray (spa.vdevChild v) newObject) with hspa₁
  have hhas : ∀ k m, spa₁.HasMs k m ↔ spa.HasMs k m := fun k m => by
    obtain ⟨array, -, hk⟩ := hchild k
    rw [Spa.HasMs, Spa.HasMs, hk]
    rfl
  have hobj : ∀ k m, spa₁.smObject k m = spa.smObject k m := fun k m => by
    obtain ⟨array, -, hk⟩ := hchild k
    rw [Spa.smObject, Spa.smObject, hk]
  refine ⟨⟨h.refines.sound.congr rfl rfl fun k => ?_, fun k hk => ?_⟩,
    ⟨fun k m k' m' => ?_, fun k m k' hkm hk' h0 => ?_⟩,
    fun k m hkm => h.syncing k m ((hhas k m).mp hkm), fun k m hkm =>
    h.window k m ((hhas k m).mp hkm),
    h.held, h.apart⟩
  · obtain ⟨array, -, heq⟩ := hchild k
    rw [heq]
    exact ⟨rfl, rfl, rfl⟩
  · obtain ⟨array, -, heq⟩ := hchild k
    have hvd := h.refines.vdev k hk
    rw [heq]
    exact ⟨hvd.ashift, hvd.msShift, hvd.msCount, hvd.ms, hvd.tree⟩
  · rw [hhas, hhas, hobj, hobj]
    exact h.objects.distinct k m k' m'
  · rw [hhas] at hkm
    rw [hobj] at h0 ⊢
    obtain ⟨array, harray, heq⟩ := hchild k'
    rw [heq]
    rcases harray with rfl | rfl
    · exact h.objects.array k m k' hkm hk' h0
    · exact hnew.ms k m hkm

end

/-- The pool as it was opened. -/
theorem start {D : ℕ → ℕ → Finset ℕ} (hopen : spa.Opened g D)
    (hplaced : ∀ b ∈ blocks, b.Placed spa.vdevChildren g)
    (hfound : ∀ b ∈ blocks, b.freedIn = none ∧ b.range ⊆ D b.vdev (b.index g))
    (hapart : blocks.Pairwise Block.Apart) : ∃ L, spa.Inv g S (fun _ _ => S) blocks L := by
  have hvdev : ∀ v, v < spa.vdevChildren → ∃ Lv : ℕ → Ledger ℕ, (∀ m, (Lv m).syncing = S) ∧
      (spa.vdevChild v).Refines (g v) spa.spaMetaObjset.words Lv ∧
      ∀ m I birth, m < (g v).msCount → I ⊆ D v m → (Lv m).Holds I birth none := by
    intro v hv
    obtain ⟨vd, txg, htxg, hashift, hshift, hne, hcount, htree, hlog, hinit⟩ := hopen.vdev v hv
    obtain ⟨vd', hinit', -, -, hL⟩ :=
      vdevMetaslabInit_spec htxg hashift hshift htree hlog hne hcount
    cases hinit.symm.trans hinit'
    exact hL S
  choose! L hsyncing hL hholds using hvdev
  refine ⟨L, ⟨hopen.sound, hL⟩, hopen.objects, fun v m hvm => hsyncing v hvm.1 m,
    fun _ _ _ => by omega,
    fun b hb => ⟨hplaced b hb, ?_⟩, hapart⟩
  obtain ⟨hlive, hD⟩ := hfound b hb
  rw [hlive]
  exact hholds b.vdev (hplaced b hb).vdev (b.index g) b.range b.birth (hplaced b hb).ms hD

end Spa.Inv

/-- Every pool that is reached keeps ledgers that hold its blocks. -/
theorem SpaRun.inv {g : ℕ → Geometry} {S : ℕ} {cur : Syncing} {blocks : List Block}
    (h : SpaRun g spa S cur blocks) : ∃ L, spa.Inv g S cur blocks L := by
  induction h with
  | start hopen hplaced hfound hapart => exact Spa.Inv.start hopen hplaced hfound hapart
  | alloc _ hpos hmax hcur htxg hrun ih =>
    obtain ⟨L, hL⟩ := ih
    rcases hL.alloc hpos hmax hcur htxg hrun with ⟨d, hd, hinv⟩ | ⟨hfull, -⟩
    · cases hd
      exact hinv
    · cases hfull
  | full _ hpos hmax hcur htxg hrun ih =>
    obtain ⟨L, hL⟩ := ih
    rcases hL.alloc hpos hmax hcur htxg hrun with ⟨d, hd, -⟩ | ⟨-, hinv⟩
    · cases hd
    · exact hinv
  | free _ hb hlive hdva hbirth hcur htxg hrun ih =>
    obtain ⟨L, hL⟩ := ih
    exact hL.free hb hlive hdva hbirth hcur htxg hrun
  | freeNow _ hb hlive hdva hcur htxg hrun ih =>
    obtain ⟨L, hL⟩ := ih
    exact hL.freeNow hb hlive hdva hcur htxg hrun
  | claim _ hdva hsize hcur htxg hrun ih =>
    obtain ⟨L, hL⟩ := ih
    exact hL.claim hdva hsize hcur htxg hrun
  | reject _ hrun ih =>
    obtain ⟨L, hL⟩ := ih
    exact ⟨L, hL.reject hrun⟩
  | array _ _ hnew ih =>
    obtain ⟨L, hL⟩ := ih
    exact ⟨L, hL.array hnew⟩
  | sync _ hms hcur hnew hrun ih =>
    obtain ⟨L, hL⟩ := ih
    exact ⟨_, hL.sync hms hcur hnew hrun⟩
  | syncDone _ hms hcur hA hF hrun ih =>
    obtain ⟨L, hL⟩ := ih
    exact hL.syncDone hms hcur hA hF hrun
  | skip _ hms hcur hA hF hfreed ih =>
    obtain ⟨L, hL⟩ := ih
    exact hL.skip hms hcur hA hF hfreed
  | next _ hcur ih =>
    obtain ⟨L, hL⟩ := ih
    exact ⟨L, hL.next hcur⟩
  | other _ hmos ih =>
    obtain ⟨L, hL⟩ := ih
    exact ⟨L, hL.other hmos⟩

end Polaris
