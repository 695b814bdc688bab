import Mathlib.Data.BitVec
import Polaris.Macros

/-!
# Space accounting of the directories

`dsl_dir.c`: every directory of a pool counts the bytes it uses, the directories below it
included.  A change of a count is passed on to the parent, and a directory with a reservation
counts there for at least what it reserves.

The counts are 64-bit words and all the arithmetic wraps.  A directory is named by an element
of an arbitrary type; the walks up to the root carry fuel and return `none` where it runs out
or where the code would follow a null pointer.

## Main definitions

* `DslDir`, `DslDirs`
* `parentDelta`, `dslDirDiduseSpace`
* `dslDirSetReservationCheck`, `dslDirSetReservationSync`
* `dslDirRenameCheck`, `dslDirRenameSync`
-/

namespace Polaris

/-- The error numbers of the checks. -/
inductive DslErrno where
  | eoverflow
  | enospc
  | ebusy
  | eexist
  | enoent
  | einval
  | eio
  deriving DecidableEq, Repr

/-- `dsl_dir_t` with the fields of `dd_phys` that the accounting reads.  `ddUsedBytes` is the
count in core, `ddPhysUsedBytes` the one of the last sync. -/
structure DslDir (ι : Type) where
  ddParent : Option ι
  ddUsedBytes : BitVec 64
  ddPhysUsedBytes : BitVec 64
  ddCompressedBytes : BitVec 64
  ddUncompressedBytes : BitVec 64
  ddQuota : BitVec 64
  ddReserved : BitVec 64
  ddSpaceTowrite : Fin txgSize → BitVec 64

/-- All directories of a pool. -/
abbrev DslDirs (ι : Type) := ι → DslDir ι

/-- `MAX` on `uint64_t`. -/
def max64 (a b : BitVec 64) : BitVec 64 := if a < b then b else a

/-- `MIN` on `uint64_t`. -/
def min64 (a b : BitVec 64) : BitVec 64 := if a < b then a else b

/-- `UINT64_MAX` -/
def uint64Max : BitVec 64 := BitVec.allOnes 64

/-- `INT64_MAX` -/
def int64Max : BitVec 64 := 9223372036854775807#64

variable {ι : Type} [DecidableEq ι]

/-- `parent_delta` -/
def parentDelta (dd : DslDir ι) (used delta : BitVec 64) : BitVec 64 :=
  let oldAccounted := max64 used dd.ddReserved
  let newAccounted := max64 (used + delta) dd.ddReserved
  newAccounted - oldAccounted

/-- The three counts of one directory in `dsl_dir_diduse_space`. -/
def DslDirs.charge (s : DslDirs ι) (i : ι) (used compressed uncompressed : BitVec 64) : DslDirs ι :=
  Function.update s i
    { s i with
      ddUsedBytes := (s i).ddUsedBytes + used
      ddUncompressedBytes := (s i).ddUncompressedBytes + uncompressed
      ddCompressedBytes := (s i).ddCompressedBytes + compressed }

/-- `dsl_dir_diduse_space` -/
def dslDirDiduseSpace : ℕ → DslDirs ι → ι → BitVec 64 → BitVec 64 → BitVec 64 →
    Option (DslDirs ι)
  | 0, _, _, _, _, _ => none
  | fuel + 1, s, i, used, compressed, uncompressed =>
    let accountedDelta := parentDelta (s i) (s i).ddUsedBytes used
    let s' := s.charge i used compressed uncompressed
    match (s i).ddParent with
    | none => some s'
    | some p => dslDirDiduseSpace fuel s' p accountedDelta compressed uncompressed

/-- `dsl_dir_estimated_space` -/
def dslDirEstimatedSpace (dd : DslDir ι) : BitVec 64 :=
  (List.finRange txgSize).foldl (fun space i => space + dd.ddSpaceTowrite i) dd.ddPhysUsedBytes

/-- `dsl_dir_space_available`; `poolsize` is `dsl_pool_adjustedsize`. -/
def dslDirSpaceAvailable (poolsize : BitVec 64) (s : DslDirs ι) (ancestor : Option ι)
    (delta : BitVec 64) (ondiskonly : Bool) : ℕ → ι → Option (BitVec 64)
  | 0, _ => none
  | fuel + 1, i => do
    let dd := s i
    let parentspace ←
      match dd.ddParent with
      | none => some uint64Max
      | some p => dslDirSpaceAvailable poolsize s ancestor delta ondiskonly fuel p
    let quota := if dd.ddQuota ≠ 0 then dd.ddQuota else uint64Max
    let used := if ondiskonly then dd.ddUsedBytes else dslDirEstimatedSpace dd
    let used := if some i = ancestor then used + delta else used
    let quota := if dd.ddParent = none then min64 quota poolsize else quota
    let parentspace :=
      if used < dd.ddReserved ∧ parentspace ≠ uint64Max then
        parentspace + (dd.ddReserved - used)
      else parentspace
    some (if quota < used then 0 else min64 parentspace (quota - used))

/-- The change of what a directory accounts for when its reservation becomes `newReservation`. -/
def reservationDelta (dd : DslDir ι) (newReservation : BitVec 64) : BitVec 64 :=
  max64 dd.ddUsedBytes newReservation - max64 dd.ddUsedBytes dd.ddReserved

/-- `dsl_dir_set_reservation_check` -/
def dslDirSetReservationCheck (fuel : ℕ) (poolsize : BitVec 64) (s : DslDirs ι) (i : ι)
    (newReservation : BitVec 64) (syncing : Bool) : Option (Except DslErrno Unit) :=
  if int64Max < newReservation then some (.error .eoverflow)
  else if !syncing then some (.ok ())
  else do
    let dd := s i
    let delta := reservationDelta dd newReservation
    let avail ←
      match dd.ddParent with
      | some p => dslDirSpaceAvailable poolsize s none 0 false fuel p
      | none => some (poolsize - dd.ddUsedBytes)
    if 0 < delta.toInt ∧ avail < delta then some (.error .enospc)
    else if 0 < delta.toInt ∧ 0 < dd.ddQuota ∧ dd.ddQuota < newReservation then
      some (.error .enospc)
    else some (.ok ())

/-- `dsl_dir_set_reservation_sync` -/
def dslDirSetReservationSync (fuel : ℕ) (s : DslDirs ι) (i : ι) (newReservation : BitVec 64) :
    Option (DslDirs ι) :=
  let delta := reservationDelta (s i) newReservation
  let s' := Function.update s i { s i with ddReserved := newReservation }
  match (s i).ddParent with
  | none => some s'
  | some p => dslDirDiduseSpace fuel s' p delta 0 0

/-- The inner loop of `closest_common_ancestor`: whether `ds1` is on the path from `dd` up. -/
def ancestorLoop (s : DslDirs ι) (ds1 : ι) : ℕ → Option ι → Option Bool
  | _, none => some false
  | 0, some _ => none
  | fuel + 1, some dd => if ds1 = dd then some true else ancestorLoop s ds1 fuel (s dd).ddParent

/-- `closest_common_ancestor`; `n` bounds the inner loop. -/
def closestCommonAncestor (s : DslDirs ι) (n : ℕ) (ds2 : Option ι) :
    ℕ → Option ι → Option (Option ι)
  | _, none => some none
  | 0, some _ => none
  | fuel + 1, some ds1 => do
    if (← ancestorLoop s ds1 n ds2) then some (some ds1)
    else closestCommonAncestor s n ds2 fuel (s ds1).ddParent

/-- `would_change` -/
def wouldChange (s : DslDirs ι) (ancestor : Option ι) : ℕ → Option ι → BitVec 64 →
    Option (BitVec 64)
  | 0, _, _ => none
  | fuel + 1, dd, delta =>
    if dd = ancestor then some delta
    else
      match dd with
      | none => none
      | some i =>
        wouldChange s ancestor fuel (s i).ddParent (parentDelta (s i) (s i).ddUsedBytes delta)

/-- `dsl_dir_transfer_possible` -/
def dslDirTransferPossible (fuel : ℕ) (poolsize : BitVec 64) (s : DslDirs ι) (sdd : Option ι)
    (tdd : ι) (space : BitVec 64) : Option (Except DslErrno Unit) := do
  let ancestor ← closestCommonAncestor s fuel (some tdd) fuel sdd
  let adelta ← wouldChange s ancestor fuel sdd (-space)
  let avail ← dslDirSpaceAvailable poolsize s ancestor adelta false fuel tdd
  some (if avail < space then .error .enospc else .ok ())

/-- `dsl_dir_rename_check`.  `refcount` is what `dmu_buf_refcount` and `lookup` what `zap_lookup`
of the new name returns. -/
def dslDirRenameCheck (fuel : ℕ) (poolsize : BitVec 64) (refcount : ℕ)
    (lookup : Except DslErrno Unit) (s : DslDirs ι) (i newparent : ι) :
    Option (Except DslErrno Unit) :=
  if 2 < refcount then some (.error .ebusy)
  else
    match lookup with
    | .ok () => some (.error .eexist)
    | .error .enoent =>
      if some newparent ≠ (s i).ddParent then do
        let myspace := max64 (s i).ddUsedBytes (s i).ddReserved
        if (← closestCommonAncestor s fuel (some newparent) fuel (some i)) = some i then
          some (.error .einval)
        else dslDirTransferPossible fuel poolsize s (s i).ddParent newparent myspace
      else some (.ok ())
    | .error e => some (.error e)

/-- `dsl_dir_rename_sync`, without the names. -/
def dslDirRenameSync (fuel : ℕ) (s : DslDirs ι) (i newparent : ι) : Option (DslDirs ι) := do
  let s' ←
    if some newparent ≠ (s i).ddParent then do
      let myspace := max64 (s i).ddUsedBytes (s i).ddReserved
      let oldparent ← (s i).ddParent
      let s₁ ← dslDirDiduseSpace fuel s oldparent (-myspace)
        (-(s i).ddCompressedBytes) (-(s i).ddUncompressedBytes)
      dslDirDiduseSpace fuel s₁ newparent myspace
        (s₁ i).ddCompressedBytes (s₁ i).ddUncompressedBytes
    else some s
  some (Function.update s' i { s' i with ddParent := some newparent })

end Polaris
