import Polaris.Avl.Basic
import Polaris.Macros

/-!
# Space maps

The in-core part of `space_map.c`: a space map keeps a set of byte offsets as the
segments of an AVL tree.  The functions follow the source line by line.  A
`VERIFY` that fails is `none`, as is a fault in the tree.

Segments come from `kmem_alloc`.  The model hands out ascending addresses from
`heap` on, and `kmem_free` releases the cell, so an access to a freed segment is a
fault.  Every walk in the tree is given as many steps as the tree has nodes, and
one more.

## Main definitions

* `SpaceSeg`, `SpaceMap`
* `spaceMapAdd`, `spaceMapRemove`, `spaceMapContains`
* `spaceMapVacate`, `spaceMapWalk`, `spaceMapExcise`, `spaceMapUnion`
-/

namespace Polaris

open AvlTree

/-- `space_seg_t`, without its AVL node. -/
structure SpaceSeg where
  ssStart : ℕ
  ssEnd : ℕ
  deriving DecidableEq, Repr

/-- The `space_map_ops_t` vectors of the source. -/
inductive SpaceMapOps where
  | metaslabFfOps
  deriving DecidableEq, Repr

/-- `space_map_t`.  `heap` is the first address that `kmem_alloc` has not handed
out. -/
structure SpaceMap where
  smRoot : AvlTree SpaceSeg
  smSpace : ℕ
  smStart : ℕ
  smSize : ℕ
  smShift : ℕ
  smLoaded : Bool
  smLoading : Bool
  smOps : Option SpaceMapOps
  smPpd : Option (Fin 64 → ℕ)
  heap : ℕ

/-- `space_map_func_t`. -/
abbrev SpaceMapFunc := SpaceMap → ℕ → ℕ → Option SpaceMap

/-- `space_map_seg_compare`: overlapping segments compare equal. -/
def spaceMapSegCompare (s1 s2 : SpaceSeg) : ℤ :=
  if s1.ssStart < s2.ssStart then
    if s1.ssEnd > s2.ssStart then 0 else -1
  else if s1.ssStart > s2.ssStart then
    if s1.ssStart < s2.ssEnd then 0 else 1
  else 0

/-- `space_map_create`. -/
def spaceMapCreate (start size shift : ℕ) : SpaceMap where
  smRoot := avlCreate spaceMapSegCompare (fun _ => none) fun _ => ⟨0, 0⟩
  smSpace := 0
  smStart := start
  smSize := size
  smShift := shift
  smLoaded := false
  smLoading := false
  smOps := none
  smPpd := none
  heap := 2

/-- The address of the stack variable of `avl_remove`. -/
def stackTmp : Addr := 1

namespace SpaceMap

/-- The number of steps given to a walk in the tree. -/
def fuel (sm : SpaceMap) : ℕ := sm.smRoot.avlNumnodes + 1

/-- `kmem_alloc` of a segment, with its two fields set. -/
def newSeg (sm : SpaceMap) (seg : SpaceSeg) : Addr × SpaceMap :=
  (sm.heap, { sm with
      smRoot := (sm.smRoot.put sm.heap ⟨0, 0, 0, false, 0⟩).setData sm.heap seg
      heap := sm.heap + 2 })

end SpaceMap

/-- The part of `space_map_add` that joins the range with its neighbours. -/
def spaceMapJoin (sm : SpaceMap) (start fin index : ℕ) (ssBefore ssAfter : Addr)
    (mergeBefore mergeAfter : Bool) : Option SpaceMap :=
  if mergeBefore && mergeAfter then do
    let t ← avlRemove sm.fuel stackTmp sm.smRoot ssBefore
    let seg ← t.object ssBefore
    let t ← t.modifyObject ssAfter fun ss => { ss with ssStart := seg.ssStart }
    pure { sm with smRoot := t.release ssBefore }
  else if mergeBefore then do
    let t ← sm.smRoot.modifyObject ssBefore fun ss => { ss with ssEnd := fin }
    pure { sm with smRoot := t }
  else if mergeAfter then do
    let t ← sm.smRoot.modifyObject ssAfter fun ss => { ss with ssStart := start }
    pure { sm with smRoot := t }
  else do
    let (ss, sm') := sm.newSeg ⟨start, fin⟩
    let t ← avlInsert sm.fuel sm'.smRoot ss index
    pure { sm' with smRoot := t }

/-- `space_map_add`. -/
def spaceMapAdd (sm : SpaceMap) (start size : ℕ) : Option SpaceMap := do
  let fin := u64 (start + size)
  guard (size ≠ 0)
  guard (start ≥ sm.smStart)
  guard (fin ≤ u64 (sm.smStart + sm.smSize))
  guard (u64 (sm.smSpace + size) ≤ sm.smSize)
  guard (p2phase start (1 <<< sm.smShift) = 0)
  guard (p2phase size (1 <<< sm.smShift) = 0)
  let (ss, index) ← avlFind sm.fuel sm.smRoot ⟨start, fin⟩
  -- make sure we don't overlap with either of our neighbors
  guard (ss = 0)
  let ssBefore ← avlNearest sm.fuel sm.smRoot index avlBefore
  let ssAfter ← avlNearest sm.fuel sm.smRoot index avlAfter
  let mergeBefore ← (if ssBefore ≠ 0 then
    (sm.smRoot.object ssBefore).map fun ss => decide (ss.ssEnd = start) else some false)
  let mergeAfter ← (if ssAfter ≠ 0 then
    (sm.smRoot.object ssAfter).map fun ss => decide (ss.ssStart = fin) else some false)
  let sm ← spaceMapJoin sm start fin index ssBefore ssAfter mergeBefore mergeAfter
  pure { sm with smSpace := u64 (sm.smSpace + size) }

/-- The part of `space_map_remove` that takes the range out of the segment `ss`. -/
def spaceMapCut (sm : SpaceMap) (start fin : ℕ) (ss : Addr) (leftOver rightOver : Bool) :
    Option SpaceMap :=
  if leftOver && rightOver then do
    let seg ← sm.smRoot.object ss
    let (newseg, sm') := sm.newSeg ⟨fin, seg.ssEnd⟩
    let t ← sm'.smRoot.modifyObject ss fun ss => { ss with ssEnd := start }
    let t ← avlInsertHere sm.fuel t newseg ss avlAfter
    pure { sm' with smRoot := t }
  else if leftOver then do
    let t ← sm.smRoot.modifyObject ss fun ss => { ss with ssEnd := start }
    pure { sm with smRoot := t }
  else if rightOver then do
    let t ← sm.smRoot.modifyObject ss fun ss => { ss with ssStart := fin }
    pure { sm with smRoot := t }
  else do
    let t ← avlRemove sm.fuel stackTmp sm.smRoot ss
    pure { sm with smRoot := t.release ss }

/-- `space_map_remove`. -/
def spaceMapRemove (sm : SpaceMap) (start size : ℕ) : Option SpaceMap := do
  let fin := u64 (start + size)
  guard (size ≠ 0)
  guard (p2phase start (1 <<< sm.smShift) = 0)
  guard (p2phase size (1 <<< sm.smShift) = 0)
  let (ss, _) ← avlFind sm.fuel sm.smRoot ⟨start, fin⟩
  -- make sure we completely overlap with someone
  guard (ss ≠ 0)
  let seg ← sm.smRoot.object ss
  guard (seg.ssStart ≤ start)
  guard (seg.ssEnd ≥ fin)
  guard (u64Sub sm.smSpace size ≤ sm.smSize)
  let leftOver := decide (seg.ssStart ≠ start)
  let rightOver := decide (seg.ssEnd ≠ fin)
  let sm ← spaceMapCut sm start fin ss leftOver rightOver
  pure { sm with smSpace := u64Sub sm.smSpace size }

/-- `space_map_contains`. -/
def spaceMapContains (sm : SpaceMap) (start size : ℕ) : Option Bool := do
  let fin := u64 (start + size)
  guard (size ≠ 0)
  guard (p2phase start (1 <<< sm.smShift) = 0)
  guard (p2phase size (1 <<< sm.smShift) = 0)
  let (ss, _) ← avlFind sm.fuel sm.smRoot ⟨start, fin⟩
  if ss ≠ 0 then
    (sm.smRoot.object ss).map fun seg => decide (seg.ssStart ≤ start ∧ seg.ssEnd ≥ fin)
  else pure false

/-- `space_map_vacate`.  Returns the emptied map and `mdest`. -/
def spaceMapVacate (sm : SpaceMap) (func : Option SpaceMapFunc) (mdest : SpaceMap) :
    Option (SpaceMap × SpaceMap) := do
  let body : SpaceMap → Addr → SpaceSeg → Option SpaceMap := fun mdest _ ss =>
    match func with
    | some func => func mdest ss.ssStart (u64Sub ss.ssEnd ss.ssStart)
    | none => some mdest
  let (mdest, t) ← avlDestroyLoop body sm.fuel sm.fuel sm.smRoot 0 mdest
  pure ({ sm with smRoot := t, smSpace := 0 }, mdest)

/-- `space_map_walk`.  Returns `mdest`. -/
def spaceMapWalk (sm : SpaceMap) (func : SpaceMapFunc) (mdest : SpaceMap) : Option SpaceMap := do
  let ss ← avlFirst sm.fuel sm.smRoot
  avlForeach (fun mdest ss => func mdest ss.ssStart (u64Sub ss.ssEnd ss.ssStart))
    sm.fuel sm.fuel sm.smRoot ss mdest

/-- The loop of `space_map_excise`. -/
def spaceMapExciseLoop : ℕ → SpaceMap → ℕ → ℕ → Option SpaceMap
  | 0, _, _, _ => none
  | n + 1, sm, start, fin => do
      let (found, index) ← avlFind sm.fuel sm.smRoot ⟨start, start⟩
      let ss ← (if found = 0 then avlNearest sm.fuel sm.smRoot index avlAfter else some found)
      if ss = 0 then pure sm
      else do
        let seg ← sm.smRoot.object ss
        if seg.ssStart ≥ fin then pure sm
        else do
          let rmStart := max seg.ssStart start
          let rmEnd := min seg.ssEnd fin
          let sm ← spaceMapRemove sm rmStart (u64Sub rmEnd rmStart)
          spaceMapExciseLoop n sm start fin

/-- `space_map_excise`.  Every round but the last takes a segment off the range. -/
def spaceMapExcise (sm : SpaceMap) (start size : ℕ) : Option SpaceMap :=
  spaceMapExciseLoop sm.fuel sm start (u64 (start + size))

/-- `space_map_union`: replace `smd` with the union of `smd` and `sms`. -/
def spaceMapUnion (smd sms : SpaceMap) : Option SpaceMap := do
  let ss ← avlFirst sms.fuel sms.smRoot
  avlForeach (fun smd ss => do
      let smd ← spaceMapExcise smd ss.ssStart (u64Sub ss.ssEnd ss.ssStart)
      spaceMapAdd smd ss.ssStart (u64Sub ss.ssEnd ss.ssStart))
    sms.fuel sms.fuel sms.smRoot ss smd

end Polaris
