import Polaris.SpaceMap.FirstFit

/-!
# Space map objects

The on-disk part of `space_map.c`.  A space map object is a log of words: each word
says that a run of units was allocated or freed.  `space_map_sync` appends an
in-core map to the log, and `space_map_load` replays the log.

An object set is modelled by the 64-bit words of its objects.  The size of an object
is a natural number: no object grows to the `2 ^ 64` bytes that a `uint64_t` can
count.

## Main definitions

* `MapType`, `SpaceMapObj`, `Objset`, `dmuWrite`, `dmuRead`
* `smOffsetEncode` and the other fields of a word
* `spaceMapSync`, `spaceMapLoad`, `spaceMapTruncate`
* `spaceMapUnload`, `spaceMapAlloc`, `spaceMapClaim`, `spaceMapFree`
-/

namespace Polaris

open AvlTree

/-- `SM_ALLOC` and `SM_FREE`. -/
inductive MapType where
  | smAlloc
  | smFree
  deriving DecidableEq, Repr

/-- The code of a map type. -/
def MapType.code : MapType → ℕ
  | smAlloc => 0
  | smFree => 1

/-- `space_map_obj_t`. -/
structure SpaceMapObj where
  smoObject : ℕ
  smoObjsize : ℕ
  smoAlloc : ℕ
  deriving DecidableEq, Repr

/-- The words of the objects of an object set, up to the last one written. -/
abbrev Objset := ℕ → List ℕ

/-- `dmu_write` of whole words.  A gap before the words reads as zero. -/
def dmuWrite (os : Objset) (object offset : ℕ) (words : List ℕ) : Objset :=
  let i := offset / 8
  let old := os object
  Function.update os object
    (old.take i ++ List.replicate (i - old.length) 0 ++ words ++ old.drop (i + words.length))

/-- `dmu_read` of whole words. -/
def dmuRead (os : Objset) (object offset size : ℕ) : List ℕ :=
  (List.range (size / 8)).map fun i => (os object).getD (offset / 8 + i) 0

/-- `dmu_free_range` of a whole object. -/
def dmuFreeAll (os : Objset) (object : ℕ) : Objset := Function.update os object []

/-! ## The words of the log -/

/-- `SM_RUN_DECODE`. -/
def smRunDecode (x : ℕ) : ℕ := bf64Decode x 0 15 + 1
/-- `SM_RUN_ENCODE`. -/
def smRunEncode (x : ℕ) : ℕ := bf64Encode (u64Sub x 1) 0 15
/-- `SM_TYPE_DECODE`. -/
def smTypeDecode (x : ℕ) : ℕ := bf64Decode x 15 1
/-- `SM_TYPE_ENCODE`. -/
def smTypeEncode (x : ℕ) : ℕ := bf64Encode x 15 1
/-- `SM_OFFSET_DECODE`. -/
def smOffsetDecode (x : ℕ) : ℕ := bf64Decode x 16 47
/-- `SM_OFFSET_ENCODE`. -/
def smOffsetEncode (x : ℕ) : ℕ := bf64Encode x 16 47
/-- `SM_DEBUG_DECODE`. -/
def smDebugDecode (x : ℕ) : ℕ := bf64Decode x 63 1
/-- `SM_DEBUG_ENCODE`. -/
def smDebugEncode (x : ℕ) : ℕ := bf64Encode x 63 1
/-- `SM_DEBUG_ACTION_ENCODE`. -/
def smDebugActionEncode (x : ℕ) : ℕ := bf64Encode x 60 3
/-- `SM_DEBUG_SYNCPASS_ENCODE`. -/
def smDebugSyncpassEncode (x : ℕ) : ℕ := bf64Encode x 50 10
/-- `SM_DEBUG_TXG_ENCODE`. -/
def smDebugTxgEncode (x : ℕ) : ℕ := bf64Encode x 0 50
/-- `SM_RUN_MAX`. -/
def smRunMax : ℕ := smRunDecode (2 ^ 64 - 1)

/-- `SPACE_MAP_BLOCKSHIFT`. -/
def spaceMapBlockshift : ℕ := 12

/-- The first word of a sync. -/
def debugWord (maptype : MapType) (syncPass txg : ℕ) : ℕ :=
  smDebugEncode 1 ||| smDebugActionEncode maptype.code ||| smDebugSyncpassEncode syncPass |||
    smDebugTxgEncode txg

/-- The word of a run. -/
def runWord (maptype : MapType) (start runLen : ℕ) : ℕ :=
  smOffsetEncode start ||| smTypeEncode maptype.code ||| smRunEncode runLen

/-! ## Writing the log -/

/-- The buffer of `space_map_sync`: the filled part of `entry_map`, and what the
loop changes. -/
structure SyncBuf where
  entries : List ℕ
  smo : SpaceMapObj
  os : Objset
  smSpace : ℕ

/-- Write the filled part of the buffer to the end of the object. -/
def syncFlush (b : SyncBuf) : SyncBuf :=
  { b with
    entries := []
    smo := { b.smo with smoObjsize := b.smo.smoObjsize + 8 * b.entries.length }
    os := dmuWrite b.os b.smo.smoObject b.smo.smoObjsize b.entries }

/-- The inner loop of `space_map_sync`: the runs of one segment, in units. -/
def syncRuns (maptype : MapType) (cap : ℕ) : ℕ → ℕ → ℕ → SyncBuf → Option SyncBuf
  | 0, _, _, _ => none
  | n + 1, start, size, b =>
    if size = 0 then pure b
    else
      let runLen := min size smRunMax
      let b := if b.entries.length = cap then syncFlush b else b
      let b := { b with entries := b.entries ++ [runWord maptype start runLen] }
      syncRuns maptype cap n (u64 (start + runLen)) (size - runLen) b

/-- The body of the outer loop of `space_map_sync`. -/
def syncSeg (sm : SpaceMap) (maptype : MapType) (cap : ℕ) (b : SyncBuf) (ss : SpaceSeg) :
    Option SyncBuf :=
  let size := u64Sub ss.ssEnd ss.ssStart
  let start := u64Sub ss.ssStart sm.smStart >>> sm.smShift
  let units := size >>> sm.smShift
  syncRuns maptype cap (units + 1) start units { b with smSpace := u64Sub b.smSpace size }

/-- `smo_alloc` after a sync of `space` bytes. -/
def syncAlloc : MapType → ℕ → ℕ → ℕ
  | .smAlloc, alloc, space => u64 (alloc + space)
  | .smFree, alloc, space => u64Sub alloc space

/-- `space_map_sync`. -/
def spaceMapSync (sm : SpaceMap) (maptype : MapType) (smo : SpaceMapObj) (os : Objset)
    (syncPass txg : ℕ) : Option (SpaceMap × SpaceMapObj × Objset) :=
  if sm.smSpace = 0 then pure (sm, smo, os)
  else do
    let bufsize := min ((8 + sm.smRoot.avlNumnodes) * 8) (1 <<< spaceMapBlockshift)
    let b : SyncBuf :=
      { entries := [debugWord maptype syncPass txg]
        smo := { smo with smoAlloc := syncAlloc maptype smo.smoAlloc sm.smSpace }
        os := os
        smSpace := sm.smSpace }
    let (b, t) ← avlDestroyLoop (fun b _ ss => syncSeg sm maptype (bufsize / 8) b ss)
      sm.fuel sm.fuel sm.smRoot 0 b
    let b := if b.entries.length ≠ 0 then syncFlush b else b
    guard (b.smSpace = 0)
    pure ({ sm with smRoot := t, smSpace := b.smSpace }, b.smo, b.os)

/-- `space_map_truncate`. -/
def spaceMapTruncate (smo : SpaceMapObj) (os : Objset) : SpaceMapObj × Objset :=
  ({ smo with smoObjsize := 0, smoAlloc := 0 }, dmuFreeAll os smo.smoObject)

/-! ## Replaying the log -/

/-- The body of the inner loop of `space_map_load`. -/
def loadWord (maptype : MapType) (sm : SpaceMap) (e : ℕ) : Option SpaceMap :=
  if smDebugDecode e ≠ 0 then some sm
  else (if smTypeDecode e = maptype.code then spaceMapAdd else spaceMapRemove) sm
    (u64 (u64 (smOffsetDecode e <<< sm.smShift) + sm.smStart)) (u64 (smRunDecode e <<< sm.smShift))

/-- The outer loop of `space_map_load`: one buffer of the object at a time. -/
def loadLoop (maptype : MapType) (smo : SpaceMapObj) (os : Objset) (bufsize : ℕ) :
    ℕ → ℕ → SpaceMap → Option SpaceMap
  | 0, _, _ => none
  | n + 1, offset, sm =>
    if offset < smo.smoObjsize then do
      let size := min (smo.smoObjsize - offset) bufsize
      guard (p2phase size 8 = 0)
      guard (size ≠ 0)
      let sm ← (dmuRead os smo.smoObject offset size).foldlM (loadWord maptype) sm
      loadLoop maptype smo os bufsize n (offset + bufsize) sm
    else pure sm

/-- The map before the replay, and the space that is expected after it. -/
def loadStart (sm : SpaceMap) (maptype : MapType) (smo : SpaceMapObj) : Option (SpaceMap × ℕ) :=
  match maptype with
  | .smFree => (spaceMapAdd sm sm.smStart sm.smSize).map fun sm' =>
    (sm', u64Sub sm.smSize smo.smoAlloc)
  | .smAlloc => some (sm, smo.smoAlloc)

/-- The end of `space_map_load`. -/
def loadDone (sm : SpaceMap) (ops : Option SpaceMapOps) : SpaceMap :=
  let sm := { sm with smLoading := false, smLoaded := true, smOps := ops }
  match ops with
  | some ops => ops.smopLoad sm
  | none => sm

/-- `space_map_load`, called when no other load is in progress. -/
def spaceMapLoad (sm : SpaceMap) (ops : Option SpaceMapOps) (maptype : MapType) (smo : SpaceMapObj)
    (os : Objset) : Option SpaceMap := do
  guard (sm.smLoading = false)
  if sm.smLoaded then pure sm
  else do
    let sm := { sm with smLoading := true }
    guard (sm.smSpace = 0)
    let (sm, space) ← loadStart sm maptype smo
    let bufsize := 1 <<< spaceMapBlockshift
    let sm ← loadLoop maptype smo os bufsize (smo.smoObjsize / bufsize + 2) 0 sm
    guard (sm.smSpace = space)
    pure (loadDone sm ops)

/-- `space_map_unload`. -/
def spaceMapUnload (sm : SpaceMap) : Option SpaceMap := do
  let sm := match sm.smLoaded, sm.smOps with
    | true, some ops => ops.smopUnload sm
    | _, _ => sm
  let sm := { sm with smLoaded := false, smOps := none }
  let (sm, _) ← spaceMapVacate sm none sm
  pure sm

/-- `space_map_alloc`. -/
def spaceMapAlloc (sm : SpaceMap) (size : ℕ) : Option (ℕ × SpaceMap) := do
  let ops ← sm.smOps
  let (start, sm) ← ops.smopAlloc sm size
  if start ≠ minusOne then do
    let sm ← spaceMapRemove sm start size
    pure (start, sm)
  else pure (start, sm)

/-- `space_map_claim`. -/
def spaceMapClaim (sm : SpaceMap) (start size : ℕ) : Option SpaceMap := do
  let ops ← sm.smOps
  spaceMapRemove (ops.smopClaim sm start size) start size

/-- `space_map_free`. -/
def spaceMapFree (sm : SpaceMap) (start size : ℕ) : Option SpaceMap := do
  let sm ← spaceMapAdd sm start size
  let ops ← sm.smOps
  pure (ops.smopFree sm start size)

end Polaris
