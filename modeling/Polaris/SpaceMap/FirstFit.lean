import Polaris.SpaceMap.Basic

/-!
# The first-fit block allocator

`metaslab_ff_ops` of `metaslab.c`, which is the only operations vector that a space
map is given.  It keeps one cursor for each alignment in `sm_ppd`.

## Main definitions

* `metaslabFfLoad`, `metaslabFfUnload`, `metaslabFfAlloc`, `metaslabFfClaim`, `metaslabFfFree`
* `SpaceMapOps.smopLoad`, `SpaceMapOps.smopUnload`, `SpaceMapOps.smopAlloc`,
  `SpaceMapOps.smopClaim`, `SpaceMapOps.smopFree`
-/

namespace Polaris

open AvlTree

/-- `-1ULL`. -/
def minusOne : ℕ := 2 ^ 64 - 1

/-- `metaslab_ff_load`. -/
def metaslabFfLoad (sm : SpaceMap) : SpaceMap := { sm with smPpd := some fun _ => 0 }

/-- `metaslab_ff_unload`. -/
def metaslabFfUnload (sm : SpaceMap) : SpaceMap := { sm with smPpd := none }

/-- The loop of `metaslab_ff_alloc`: the first segment from `ss` on that has room. -/
def metaslabFfScan : ℕ → ℕ → AvlTree SpaceSeg → Addr → ℕ → ℕ → Option (Option ℕ)
  | 0, _, _, _, _, _ => none
  | n + 1, fuel, t, ss, size, align =>
    if ss = 0 then pure none
    else do
      let seg ← t.object ss
      let offset := p2roundup seg.ssStart align
      if u64 (offset + size) ≤ seg.ssEnd then pure (some offset)
      else do
        let next ← avlWalk fuel t ss avlAfter
        metaslabFfScan n fuel t next size align

/-- One pass of `metaslab_ff_alloc` over the map, from a cursor on. -/
def metaslabFfPass (sm : SpaceMap) (cursor size align : ℕ) : Option (Option ℕ) := do
  let (found, index) ← avlFind sm.fuel sm.smRoot ⟨cursor, u64 (cursor + size)⟩
  let ss ← (if found = 0 then avlNearest sm.fuel sm.smRoot index avlAfter else some found)
  metaslabFfScan sm.fuel sm.fuel sm.smRoot ss size align

/-- The recursion of `metaslab_ff_alloc`, which calls itself with the cursor reset. -/
def metaslabFfAllocLoop : ℕ → SpaceMap → ℕ → Option (ℕ × SpaceMap)
  | 0, _, _ => none
  | n + 1, sm, size => do
      let align := size &&& u64Neg size
      let ppd ← sm.smPpd
      if h : highbit align - 1 < 64 ∧ highbit align ≠ 0 then do
        let i : Fin 64 := ⟨highbit align - 1, h.1⟩
        match ← metaslabFfPass sm (ppd i) size align with
        | some offset =>
          pure (offset, { sm with smPpd := some (Function.update ppd i (u64 (offset + size))) })
        | none =>
          -- if we know we've searched the whole map, give up
          if ppd i = 0 then pure (minusOne, sm)
          else metaslabFfAllocLoop n { sm with smPpd := some (Function.update ppd i 0) } size
      else none

/-- `metaslab_ff_alloc`. -/
def metaslabFfAlloc (sm : SpaceMap) (size : ℕ) : Option (ℕ × SpaceMap) :=
  metaslabFfAllocLoop 2 sm size

/-- `metaslab_ff_claim`. -/
def metaslabFfClaim (sm : SpaceMap) (_start _size : ℕ) : SpaceMap := sm

/-- `metaslab_ff_free`. -/
def metaslabFfFree (sm : SpaceMap) (_start _size : ℕ) : SpaceMap := sm

namespace SpaceMapOps

/-- `smop_load`. -/
def smopLoad : SpaceMapOps → SpaceMap → SpaceMap
  | metaslabFfOps => metaslabFfLoad

/-- `smop_unload`. -/
def smopUnload : SpaceMapOps → SpaceMap → SpaceMap
  | metaslabFfOps => metaslabFfUnload

/-- `smop_alloc`. -/
def smopAlloc : SpaceMapOps → SpaceMap → ℕ → Option (ℕ × SpaceMap)
  | metaslabFfOps => metaslabFfAlloc

/-- `smop_claim`. -/
def smopClaim : SpaceMapOps → SpaceMap → ℕ → ℕ → SpaceMap
  | metaslabFfOps => metaslabFfClaim

/-- `smop_free`. -/
def smopFree : SpaceMapOps → SpaceMap → ℕ → ℕ → SpaceMap
  | metaslabFfOps => metaslabFfFree

end SpaceMapOps

end Polaris
