import Polaris.Metaslab.Basic

/-!
# Allocating, freeing and claiming blocks

The last part of `metaslab.c`.  `metaslab_alloc_dva` goes round the metaslab groups of
the class, and `metaslab_group_alloc` goes through the metaslabs of a group, best
first.  `metaslab_free_dva` and `metaslab_claim_dva` find the metaslab of a block by
its offset.

A data virtual address is kept as its decoded fields.  The circular list of the groups
is a list of the devices that they belong to, in the order of `mg_next`.

## Main definitions

* `Dva`, `Spa`
* `metaslabGroupAlloc`, `metaslabAllocDva`, `metaslabFreeDva`, `metaslabClaimDva`
-/

namespace Polaris

open Function

/-- `dva_t`. -/
structure Dva where
  vdev : ℕ
  offset : ℕ
  asize : ℕ
  gang : Bool
  deriving DecidableEq, Repr

/-- The pool, and its only metaslab class.  `mcRing` has the groups in the order of
`mg_next`, by the index of their device. -/
structure Spa where
  vdevChildren : ℕ
  vdevChild : ℕ → Vdev
  mcRing : List ℕ
  mcRotor : ℕ
  mcAllocated : ℕ
  spaFreezeTxg : ℕ
  spaMetaObjset : Mos

/-- Store a top-level virtual device. -/
def Spa.setVdev (spa : Spa) (v : ℕ) (vd : Vdev) : Spa :=
  { spa with vdevChild := update spa.vdevChild v vd }

/-- The errors of this file. -/
inductive Errno where
  | enospc
  | enxio
  deriving DecidableEq, Repr

/-- `SPA_GANGBLOCKSIZE`. -/
def spaGangblocksize : ℕ := 1 <<< 9

/-- `vdev_lookup_top`. -/
def vdevLookupTop (spa : Spa) (vdev : ℕ) : Option Vdev :=
  if vdev < spa.vdevChildren then some (spa.vdevChild vdev) else none

/-- `vdev_psize_to_asize`. -/
def vdevPsizeToAsize (vd : Vdev) (psize : ℕ) : ℕ := vd.vdevOpAsize psize

/-! ## Allocating from a group -/

/-- `metaslab_distance`. -/
def metaslabDistance (vd : Vdev) (msp : Metaslab) (dva : Dva) : ℕ :=
  let offset := dva.offset >>> vd.vdevMsShift
  let start := msp.msMap.smStart >>> vd.vdevMsShift
  if vd.vdevId ≠ dva.vdev then 1 <<< 63
  else if offset < start then u64 ((start - offset) <<< vd.vdevMsShift)
  else if offset > start then u64 ((offset - start) <<< vd.vdevMsShift)
  else 0

/-- The activation weight of `metaslab_group_alloc`. -/
def activationWeight (vd : Vdev) (dva : List Dva) : ℕ :=
  if dva.any fun d => d.vdev = vd.vdevId then metaslabWeightSecondary else metaslabWeightPrimary

/-- The inner loop of `metaslab_group_alloc`: the first metaslab of the tree that will
do. -/
def metaslabGroupPick (vd : Vdev) (size minDistance activation : ℕ) (dva : List Dva) :
    List ℕ → Option ℕ
  | [] => none
  | m :: rest =>
    let msp := vd.vdevMs m
    if msp.msWeight < size then none
    else if activation = metaslabWeightPrimary then some m
    else
      let targetDistance :=
        u64 (minDistance + if msp.msSmo.smoAlloc ≠ 0 then 0 else minDistance >>> 1)
      if dva.all fun d => ¬ metaslabDistance vd msp d < targetDistance then some m
      else metaslabGroupPick vd size minDistance activation dva rest

/-- The loop of `metaslab_group_alloc`.  Returns the offset, or `-1ULL`. -/
def metaslabGroupAllocLoop (mos : Mos) (size txg minDistance activation : ℕ) (dva : List Dva) :
    ℕ → Vdev → Option (ℕ × Vdev)
  | 0, _ => none
  | n + 1, vd =>
    match metaslabGroupPick vd size minDistance activation dva vd.vdevMg.mgMetaslabTree with
    | none => pure (minusOne, vd)
    | some m => do
        let weight := (vd.vdevMs m).msWeight
        if weight &&& metaslabWeightSecondary ≠ 0 ∧ activation = metaslabWeightPrimary then
          -- `weight & ~METASLAB_ACTIVE_MASK`
          metaslabGroupAllocLoop mos size txg minDistance activation dva n
            (metaslabPassivate vd m (weight - (weight &&& metaslabActiveMask)))
        else do
          let vd ← metaslabActivate vd mos m activation
          let msp := vd.vdevMs m
          let (offset, sm) ← spaceMapAlloc msp.msMap size
          let msp := { msp with msMap := sm }
          if offset ≠ minusOne then do
            let allocmap ← spaceMapAdd (msp.msAllocmap (txgSlot txg)) offset size
            pure (offset, vd.setMs m
              { msp with msAllocmap := update msp.msAllocmap (txgSlot txg) allocmap })
          else
            metaslabGroupAllocLoop mos size txg minDistance activation dva n
              (metaslabPassivate (vd.setMs m msp) m (u64Sub size 1))

/-- `metaslab_group_alloc`.  In two rounds at most a metaslab is used up, or the loop
ends. -/
def metaslabGroupAlloc (vd : Vdev) (mos : Mos) (size txg minDistance : ℕ) (dva : List Dva) :
    Option (ℕ × Vdev) :=
  metaslabGroupAllocLoop mos size txg minDistance (activationWeight vd dva) dva
    (2 * vd.vdevMsCount + 1) vd

/-! ## Allocating from the class -/

/-- The groups in the order of `mg_next`, from the one of device `v` on. -/
def ringFrom (ring : List ℕ) (v : ℕ) : List ℕ :=
  ring.dropWhile (fun x => x ≠ v) ++ ring.takeWhile (fun x => x ≠ v)

/-- `mg_next` of the group of device `v`. -/
def mgNext (ring : List ℕ) (v : ℕ) : ℕ := (ringFrom ring v).tail.headD v

/-- The statistics that `metaslab_alloc_dva` reads without a lock: `vs_alloc` and
`vs_space` of a device and of the whole pool. -/
structure SpaStat where
  vsAlloc : ℕ → ℕ
  vsSpace : ℕ → ℕ
  spaAlloc : ℕ
  spaSpace : ℕ

/-- The bias that evens out the use of the devices. -/
def metaslabBias (stat : SpaStat) (v aliquot : ℕ) : ℤ :=
  let vu : ℤ := (u64 (stat.vsAlloc v <<< 10) / u64 (stat.vsSpace v + 1) : ℕ)
  let su : ℤ := (u64 (stat.spaAlloc <<< 10) / u64 (stat.spaSpace + 1) : ℕ)
  ((su - vu) * aliquot).tdiv (1024 * 4)

/-- What `metaslab_alloc_dva` does to the class when a group had room. -/
def metaslabRotate (spa : Spa) (stat : SpaStat) (v asize : ℕ) : Spa :=
  let vd := spa.vdevChild v
  let mg := vd.vdevMg
  let mg := if spa.mcAllocated
    = 0 then { mg with mgBias := metaslabBias stat v mg.mgAliquot } else mg
  let spa := spa.setVdev v { vd with vdevMg := mg }
  let allocated := u64 (spa.mcAllocated + asize)
  -- the sum is one of `uint64_t`
  if (allocated : ℤ) ≥ (mg.mgAliquot + mg.mgBias) % 2 ^ 64 then
    { spa with mcRotor := mgNext spa.mcRing v, mcAllocated := 0 }
  else { spa with mcAllocated := allocated }

/-- One round of `metaslab_alloc_dva` over the groups.  Returns the address if a group
had room, and otherwise whether the distance was zero for all of them. -/
def metaslabAllocRing (psize : ℕ) (dva : List Dva) (txg dshift : ℕ) (stat : SpaStat) :
    List ℕ → Bool → Spa → Option (Spa × (Bool ⊕ Dva))
  | [], allZero, spa => pure (spa, .inl allZero)
  | v :: rest, allZero, spa => do
      let vd := spa.vdevChild v
      let far := vd.vdevAsize >>> dshift
      let near := far ≤ 1 <<< vd.vdevMsShift
      let asize := vdevPsizeToAsize vd psize
      let (offset, vd) ←
        metaslabGroupAlloc vd spa.spaMetaObjset asize txg (if near then 0 else far) dva
      let spa := spa.setVdev v vd
      if offset ≠ minusOne then
        pure (metaslabRotate spa stat v asize,
          .inr { vdev := vd.vdevId, offset := offset, asize := asize, gang := false })
      else
        metaslabAllocRing psize dva txg dshift stat rest (allZero && near)
          { spa with mcRotor := mgNext spa.mcRing v, mcAllocated := 0 }

/-- The rounds of `metaslab_alloc_dva`, with ever smaller distances. -/
def metaslabAllocTop (psize : ℕ) (dva : List Dva) (txg : ℕ) (stat : SpaStat) (ring : List ℕ) :
    ℕ → ℕ → Spa → Option (Spa × Except Errno Dva)
  | 0, _, _ => none
  | n + 1, dshift, spa => do
      let (spa, r) ← metaslabAllocRing psize dva txg dshift stat ring true spa
      match r with
      | .inr d => pure (spa, .ok d)
      | .inl true => pure (spa, .error .enospc)
      | .inl false => metaslabAllocTop psize dva txg stat ring n (dshift + 1) spa

/-- The group that `metaslab_alloc_dva` starts with. -/
def metaslabAllocStart (spa : Spa) (dva : List Dva) (hintdva : Option Dva) : Option ℕ :=
  match hintdva with
  | some hint => do
      let _ ← vdevLookupTop spa hint.vdev
      pure hint.vdev
  | none =>
    match dva.getLast? with
    | some last => do
        let _ ← vdevLookupTop spa last.vdev
        pure (mgNext spa.mcRing last.vdev)
    | none => pure spa.mcRotor

/-- `metaslab_alloc_dva`.  The list `dva` has the addresses that the block already
got, and `hintdva` is `hintdva[d]` if there is a hint. -/
def metaslabAllocDva (spa : Spa) (psize : ℕ) (dva : List Dva) (hintdva : Option Dva) (txg : ℕ)
    (stat : SpaStat) : Option (Spa × Except Errno Dva) := do
  let rotor ← metaslabAllocStart spa dva hintdva
  metaslabAllocTop psize dva txg stat (ringFrom spa.mcRing rotor) 64 3 spa

/-! ## Freeing and claiming -/

/-- The size of a block, as `metaslab_free_dva` and `metaslab_claim_dva` take it. -/
def dvaSize (vd : Vdev) (dva : Dva) : ℕ :=
  if dva.gang then vdevPsizeToAsize vd spaGangblocksize else dva.asize

/-- The metaslab of a block, with its device, unless the address is bad. -/
def dvaMetaslab (spa : Spa) (dva : Dva) : Option (Vdev × ℕ) :=
  match vdevLookupTop spa dva.vdev with
  | none => none
  | some vd =>
    if dva.offset >>> vd.vdevMsShift ≥ vd.vdevMsCount then none
    else some (vd, dva.offset >>> vd.vdevMsShift)

/-- The body of `metaslab_free_dva`. -/
def metaslabFree (msp : Metaslab) (offset size txg : ℕ) (now : Bool) : Option Metaslab :=
  let slot := txgSlot txg
  if now then do
    let allocmap ← spaceMapRemove (msp.msAllocmap slot) offset size
    let sm ← spaceMapFree msp.msMap offset size
    pure { msp with msAllocmap := update msp.msAllocmap slot allocmap, msMap := sm }
  else do
    let freemap ← spaceMapAdd (msp.msFreemap slot) offset size
    pure { msp with msFreemap := update msp.msFreemap slot freemap }

/-- `metaslab_free_dva`.  A bad address is ignored, with a warning. -/
def metaslabFreeDva (spa : Spa) (dva : Dva) (txg : ℕ) (now : Bool) : Option Spa :=
  if txg > spa.spaFreezeTxg then pure spa
  else
    match dvaMetaslab spa dva with
    | none => pure spa
    | some (vd, m) => do
        let msp ← metaslabFree (vd.vdevMs m) dva.offset (dvaSize vd dva) txg now
        pure (spa.setVdev dva.vdev (vd.setMs m msp))

/-- The body of `metaslab_claim_dva`. -/
def metaslabClaim (vd : Vdev) (mos : Mos) (m offset size txg : ℕ) : Option Vdev := do
  let vd ← metaslabActivate vd mos m metaslabWeightSecondary
  let msp := vd.vdevMs m
  let sm ← spaceMapClaim msp.msMap offset size
  let allocmap ← spaceMapAdd (msp.msAllocmap (txgSlot txg)) offset size
  pure (vd.setMs m { msp with
      msMap := sm
      msAllocmap := update msp.msAllocmap (txgSlot txg) allocmap })

/-- `metaslab_claim_dva`. -/
def metaslabClaimDva (spa : Spa) (dva : Dva) (txg : ℕ) : Option (Spa × Except Errno Unit) :=
  match dvaMetaslab spa dva with
  | none => pure (spa, .error .enxio)
  | some (vd, m) => do
      let vd ← metaslabClaim vd spa.spaMetaObjset m dva.offset (dvaSize vd dva) txg
      pure (spa.setVdev dva.vdev vd, .ok ())

end Polaris
