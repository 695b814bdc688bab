import Polaris.SpaceMap.Object

/-!
# Metaslabs

The middle part of `metaslab.c`: a metaslab is a piece of a top-level virtual device,
and its space is tracked by an in-core map of the free space, by one map of what was
allocated and one of what was freed for each transaction group in flight, and by a
space map object.

A metaslab is addressed by its virtual device and by its index there.  The AVL tree of
a metaslab group is modelled by its in-order sequence of such indices.  The locks are
not modelled: each function runs as a whole.

## Main definitions

* `Metaslab`, `MetaslabGroup`, `Vdev`, `Mos`
* `metaslabInit`, `metaslabActivate`, `metaslabPassivate`, `metaslabSync`, `metaslabSyncDone`
* `vdevMetaslabInit`
-/

namespace Polaris

open Function

/-! ## The data -/

/-- The meta object set: the words of its objects, and the bonus buffers of those
that are space map objects. -/
structure Mos where
  words : Objset
  bonus : ℕ → SpaceMapObj

/-- `metaslab_t`. -/
structure Metaslab where
  msSmo : SpaceMapObj
  msSmoSyncing : SpaceMapObj
  msAllocmap : Fin txgSize → SpaceMap
  msFreemap : Fin txgSize → SpaceMap
  msMap : SpaceMap
  msWeight : ℕ

/-- `metaslab_group_t`, whose tree is the list of its metaslabs in order. -/
structure MetaslabGroup where
  mgMetaslabTree : List ℕ
  mgAliquot : ℕ
  mgBias : ℤ

/-- The fields of a top-level `vdev_t` that the allocator uses.  `vdevOpAsize` is the
function that `vdev_psize_to_asize` calls. -/
structure Vdev where
  vdevId : ℕ
  vdevAshift : ℕ
  vdevAsize : ℕ
  vdevOpAsize : ℕ → ℕ
  vdevMsArray : ℕ
  vdevMsShift : ℕ
  vdevMsCount : ℕ
  vdevMs : ℕ → Metaslab
  vdevMg : MetaslabGroup

/-- Store a metaslab. -/
def Vdev.setMs (vd : Vdev) (m : ℕ) (msp : Metaslab) : Vdev :=
  { vd with vdevMs := update vd.vdevMs m msp }

/-! ## Metaslab groups -/

/-- `metaslab_aliquot`. -/
def metaslabAliquot : ℕ := 512 <<< 10

/-- `metaslab_group_create`, for a device with the given number of children. -/
def metaslabGroupCreate (vdevChildren : ℕ) : MetaslabGroup :=
  { mgMetaslabTree := [], mgAliquot := u64 (metaslabAliquot * max 1 vdevChildren), mgBias := 0 }

/-- `metaslab_compare`. -/
def metaslabCompare (m1 m2 : Metaslab) : ℤ :=
  if m1.msWeight < m2.msWeight then 1
  else if m1.msWeight > m2.msWeight then -1
  -- if the weights are identical, use the offset to force uniqueness
  else if m1.msMap.smStart < m2.msMap.smStart then -1
  else if m1.msMap.smStart > m2.msMap.smStart then 1
  else 0

/-- `avl_add` on the tree of a group. -/
def Vdev.treeAdd (vd : Vdev) (m : ℕ) : List ℕ → List ℕ
  | [] => [m]
  | x :: l =>
    if metaslabCompare (vd.vdevMs m) (vd.vdevMs x) < 0 then m :: x :: l else x :: vd.treeAdd m l

/-- `metaslab_group_add`. -/
def metaslabGroupAdd (vd : Vdev) (m : ℕ) (msp : Metaslab) : Vdev :=
  let vd := vd.setMs m { msp with msWeight := 0 }
  { vd with vdevMg := { vd.vdevMg with mgMetaslabTree := vd.treeAdd m vd.vdevMg.mgMetaslabTree } }

/-- `metaslab_group_sort`. -/
def metaslabGroupSort (vd : Vdev) (m weight : ℕ) : Vdev :=
  let tree := vd.vdevMg.mgMetaslabTree.erase m
  let vd := vd.setMs m { vd.vdevMs m with msWeight := weight }
  { vd with vdevMg := { vd.vdevMg with mgMetaslabTree := vd.treeAdd m tree } }

/-! ## Weights -/

/-- `METASLAB_WEIGHT_PRIMARY`. -/
def metaslabWeightPrimary : ℕ := 1 <<< 63

/-- `METASLAB_WEIGHT_SECONDARY`. -/
def metaslabWeightSecondary : ℕ := 1 <<< 62

/-- `METASLAB_ACTIVE_MASK`. -/
def metaslabActiveMask : ℕ := metaslabWeightPrimary ||| metaslabWeightSecondary

/-- `METASLAB_SMO_BONUS_MULTIPLIER`. -/
def metaslabSmoBonusMultiplier : ℕ := 2

/-- `metaslab_weight`. -/
def metaslabWeight (vd : Vdev) (msp : Metaslab) : ℕ :=
  let space := u64Sub msp.msMap.smSize msp.msSmo.smoAlloc
  let weight := u64Sub (u64 (2 * space))
    (u64 ((msp.msMap.smStart >>> vd.vdevMsShift) * space) / vd.vdevMsCount)
  let weight := if msp.msSmo.smoObject
    ≠ 0 then u64 (weight * metaslabSmoBonusMultiplier) else weight
  weight ||| (msp.msWeight &&& metaslabActiveMask)

/-- `metaslab_activate`, when `space_map_load` reports no error, which it never does. -/
def metaslabActivate (vd : Vdev) (mos : Mos) (m activationWeight : ℕ) : Option Vdev := do
  let msp := vd.vdevMs m
  if msp.msWeight &&& metaslabActiveMask = 0 then do
    let sm ← spaceMapLoad msp.msMap (some .metaslabFfOps) .smFree msp.msSmo mos.words
    let vd := vd.setMs m { msp with msMap := sm }
    pure (metaslabGroupSort vd m (msp.msWeight ||| activationWeight))
  else pure vd

/-- `metaslab_passivate`. -/
def metaslabPassivate (vd : Vdev) (m size : ℕ) : Vdev :=
  metaslabGroupSort vd m (min (vd.vdevMs m).msWeight size)

/-! ## Writing a metaslab to disk -/

/-- The first part of `metaslab_sync`: the metaslab gets its space map object, and
what was freed in this group is added to the freed map.  `newObject` is what
`dmu_object_alloc` returns. -/
def metaslabSyncOpen (vd : Vdev) (msp : Metaslab) (mos : Mos) (txg newObject : ℕ) :
    Option (Metaslab × Mos) := do
  let smo := msp.msSmoSyncing
  let (smo, mos) := if smo.smoObject = 0 then
      ({ smo with smoObject := newObject },
        { mos with
          words := dmuWrite mos.words vd.vdevMsArray
            (8 * (msp.msMap.smStart >>> vd.vdevMsShift)) [newObject] })
    else (smo, mos)
  let clean := txgSlot (txgClean txg)
  let freedMap ← spaceMapWalk (msp.msFreemap (txgSlot txg)) spaceMapAdd (msp.msFreemap clean)
  pure ({ msp with
      msSmoSyncing := smo
      msFreemap := update msp.msFreemap clean freedMap },
    mos)

/-- The test of `metaslab_sync` for condensing the space map object. -/
def metaslabShouldCondense (msp : Metaslab) (syncPass : ℕ) : Bool :=
  msp.msMap.smLoaded && syncPass = 1 &&
    msp.msSmoSyncing.smoObjsize ≥ 2 * 8 * msp.msMap.smRoot.avlNumnodes

/-- The branch of `metaslab_sync` that condenses the space map object. -/
def metaslabCondense (msp : Metaslab) (mos : Mos) (txg : ℕ) : Option (Metaslab × Mos) := do
  let slot := txgSlot txg
  let clean := txgSlot (txgClean txg)
  let (allocmap, _) ← spaceMapVacate (msp.msAllocmap slot) none (msp.msAllocmap slot)
  let (freemap, _) ← spaceMapVacate (msp.msFreemap slot) none (msp.msFreemap slot)
  -- this metaslab is 100% allocated, minus the content of the in-core map, minus what's
  -- been freed this txg, minus allocations from txgs in the future
  let allocmap ← spaceMapAdd allocmap allocmap.smStart allocmap.smSize
  let allocmap ← spaceMapWalk msp.msMap spaceMapRemove allocmap
  let allocmap ← spaceMapWalk (msp.msFreemap clean) spaceMapRemove allocmap
  let allocmap ← (List.range' 1 (txgConcurrentStates - 1)).foldlM
    (fun allocmap t => spaceMapWalk (msp.msAllocmap (txgSlot (txg + t))) spaceMapRemove allocmap)
    allocmap
  let (smo, words) := spaceMapTruncate msp.msSmoSyncing mos.words
  pure ({ msp with
      msAllocmap := update msp.msAllocmap slot allocmap
      msFreemap := update msp.msFreemap slot freemap
      msSmoSyncing := smo },
    { mos with words := words })

/-- The last part of `metaslab_sync`: the two maps are written to the object, and its
bonus buffer is updated. -/
def metaslabSyncWrite (msp : Metaslab) (mos : Mos) (txg syncPass : ℕ) :
    Option (Metaslab × Mos) := do
  let slot := txgSlot txg
  let (allocmap, smo, words) ←
    spaceMapSync (msp.msAllocmap slot) .smAlloc msp.msSmoSyncing mos.words syncPass txg
  let (freemap, smo, words) ← spaceMapSync (msp.msFreemap slot) .smFree smo words syncPass txg
  pure ({ msp with
      msAllocmap := update msp.msAllocmap slot allocmap
      msFreemap := update msp.msFreemap slot freemap
      msSmoSyncing := smo },
    { words := words, bonus := update mos.bonus smo.smoObject smo })

/-- `metaslab_sync`. -/
def metaslabSync (vd : Vdev) (msp : Metaslab) (mos : Mos) (txg syncPass newObject : ℕ) :
    Option (Metaslab × Mos) := do
  let (msp, mos) ← metaslabSyncOpen vd msp mos txg newObject
  let (msp, mos) ← (if metaslabShouldCondense msp syncPass then metaslabCondense msp mos txg
    else some (msp, mos))
  metaslabSyncWrite msp mos txg syncPass

/-- What `metaslab_sync` would do if it never condensed: append the allocations and
the frees of the group to the object. -/
def metaslabAppend (vd : Vdev) (msp : Metaslab) (mos : Mos) (txg syncPass newObject : ℕ) :
    Option (Metaslab × Mos) := do
  let (msp, mos) ← metaslabSyncOpen vd msp mos txg newObject
  metaslabSyncWrite msp mos txg syncPass

/-- The first part of `vdev_sync`: the device gets the array that lists the space map
objects of its metaslabs.  `newObject` is what `dmu_object_alloc` returns. -/
def vdevSyncArray (vd : Vdev) (newObject : ℕ) : Vdev :=
  if vd.vdevMsArray = 0 ∧ vd.vdevMsShift ≠ 0 then { vd with vdevMsArray := newObject } else vd

/-! ## After the group has synced -/

/-- The maps of a metaslab that is just becoming available. -/
def metaslabCreateMaps (msp : Metaslab) : Metaslab :=
  let sm := msp.msMap
  { msp with
    msAllocmap := fun _ => spaceMapCreate sm.smStart sm.smSize sm.smShift
    msFreemap := fun _ => spaceMapCreate sm.smStart sm.smSize sm.smShift }

/-- The part of `metaslab_sync_done` that evicts the map if it is loaded but no longer
active and all future allocations have synced. -/
def metaslabEvict (msp : Metaslab) (txg : ℕ) : Option Metaslab :=
  if msp.msMap.smLoaded && msp.msWeight &&& metaslabActiveMask = 0 &&
      (List.range' 1 (txgConcurrentStates - 1)).all fun t =>
        (msp.msAllocmap (txgSlot (txg + t))).smSpace = 0 then do
    let sm ← spaceMapUnload msp.msMap
    pure { msp with msMap := sm }
  else pure msp

/-- `metaslab_sync_done`, when no load is in progress. -/
def metaslabSyncDone (vd : Vdev) (m txg : ℕ) : Option Vdev := do
  let clean := txgSlot (txgClean txg)
  let msp := vd.vdevMs m
  let msp := if (msp.msFreemap clean).smSize = 0 then metaslabCreateMaps msp else msp
  let (freedMap, sm) ← spaceMapVacate (msp.msFreemap clean)
    (if msp.msMap.smLoaded then some spaceMapFree else none) msp.msMap
  let msp ← metaslabEvict
    { msp with
      msFreemap := update msp.msFreemap clean freedMap
      msMap := sm
      msSmo := msp.msSmoSyncing } txg
  pure (metaslabGroupSort (vd.setMs m msp) m (metaslabWeight vd msp))

/-! ## Creating metaslabs -/

/-- `metaslab_init`.  The maps that `kmem_zalloc` leaves zeroed have no size. -/
def metaslabInit (vd : Vdev) (m : ℕ) (smo : SpaceMapObj) (start size txg : ℕ) : Option Vdev :=
  let vd := metaslabGroupAdd vd m
    { msSmo := ⟨0, 0, 0⟩
      msSmoSyncing := smo
      msAllocmap := fun _ => spaceMapCreate 0 0 0
      msFreemap := fun _ => spaceMapCreate 0 0 0
      msMap := spaceMapCreate start size vd.vdevAshift
      msWeight := 0 }
  -- all space is available now, unless it is added to an existing pool
  if txg ≤ txgInitial then metaslabSyncDone vd m 0 else pure vd

/-- The space map object that `vdev_metaslab_init` finds for a metaslab. -/
def vdevMetaslabSmo (vd : Vdev) (mos : Mos) (m txg : ℕ) : SpaceMapObj :=
  if txg = 0 then
    let object := (dmuRead mos.words vd.vdevMsArray (m * 8) 8).headD 0
    if object ≠ 0 then mos.bonus object else ⟨0, 0, 0⟩
  else ⟨0, 0, 0⟩

/-- `vdev_metaslab_init`, for a device that has no metaslabs yet. -/
def vdevMetaslabInit (vd : Vdev) (mos : Mos) (txg : ℕ) : Option Vdev :=
  if vd.vdevMsShift = 0 then pure vd
  else
    let newc := vd.vdevAsize >>> vd.vdevMsShift
    (List.range newc).foldlM
      (fun vd m => metaslabInit vd m (vdevMetaslabSmo vd mos m txg) (m <<< vd.vdevMsShift)
        (1 <<< vd.vdevMsShift) txg)
      { vd with vdevMsCount := newc }

end Polaris
