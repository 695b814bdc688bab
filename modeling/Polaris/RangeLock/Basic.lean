import Polaris.Macros

/-!
# Range locks of a file

`zfs_rlock.c`: the locks on ranges of a file.  The tree of a znode is kept as the list of its nodes
in order of their offsets.  A node is the `rl_t` of a caller that holds the lock, or a proxy that
stands for a piece of the ranges of several readers; of the `rl_t`s that callers hold, only `r_cnt`
can change while they are out of the tree, and it is kept beside it.

Each critical section of `z_range_lock` is one function, up to the grant or to the `cv_wait` that
releases the mutex.  `none` stands for the use of a null pointer.

## Main definitions

* `Rl` — a node of the tree.
* `zfsRangeLockWriter`, `zfsRangeLockReader`, `zfsRangeAddReader` — taking a lock.
* `zfsRangeUnlockReader`, `zfsRangeUnlock` — releasing it.
* `RangeStep` — the callers of a file, interleaved at the mutex.
-/

namespace Polaris

open Function

inductive RlType
  | reader
  | writer
  | append
  deriving DecidableEq

/-- A node of the tree. -/
structure Rl where
  rOff : ℕ
  rLen : ℕ
  rCnt : ℕ
  rType : RlType
  /-- The caller whose `rl_t` this is; `r_proxy` is set when there is none. -/
  rOwner : Option ℕ
  rWriteWanted : Bool
  rReadWanted : Bool
  deriving DecidableEq

/-- `rl->r_off + rl->r_len`. -/
def Rl.rEnd (rl : Rl) : ℕ :=
  u64 (rl.rOff + rl.rLen)

/-- What a writer looks at in the znode. -/
structure ZnodeSize where
  zpSize : ℕ
  zBlksz : ℕ
  zMaxBlksz : ℕ

/-- The arguments of `zfs_range_lock`. -/
structure RangeRequest where
  off : ℕ
  len : ℕ
  type : RlType

/-- What comes of a try to take a lock: the range that is granted, with the new tree and the
`r_cnt`s of the callers, or the tree in which the caller has left its mark before it waits. -/
inductive LockTry
  | got (off len : ℕ) (tree : List Rl) (cnt : ℕ → ℕ)
  | wait (tree : List Rl)

/-! ## The tree -/

/-- The nodes before the place of `off`. -/
def rlBefore (tree : List Rl) (off : ℕ) : List Rl :=
  tree.takeWhile (·.rOff < off)

/-- The nodes from the place of `off` on. -/
def rlAfter (tree : List Rl) (off : ℕ) : List Rl :=
  tree.dropWhile (·.rOff < off)

/-- `avl_find`: nodes are compared by their offsets. -/
def rlFind (tree : List Rl) (off : ℕ) : Option Rl :=
  (rlAfter tree off).head?.filter (·.rOff = off)

/-- `rl->r_write_wanted = B_TRUE`. -/
def setWriteWanted (tree : List Rl) (rl : Rl) : List Rl :=
  tree.map fun e => if e.rOff = rl.rOff then { e with rWriteWanted := true } else e

/-- `rl->r_read_wanted = B_TRUE`. -/
def setReadWanted (tree : List Rl) (rl : Rl) : List Rl :=
  tree.map fun e => if e.rOff = rl.rOff then { e with rReadWanted := true } else e

/-- The `rl_t` of the caller `h` for a range. -/
def newRl (h off len : ℕ) (type : RlType) : Rl where
  rOff := off
  rLen := len
  rCnt := 1
  rType := type
  rOwner := some h
  rWriteWanted := false
  rReadWanted := false

/-! ## Writers -/

/-- `ISP2`. -/
def isp2 (x : ℕ) : Bool :=
  x &&& (x - 1) == 0

/-- The range a writer asks for: at the end of the file if it appends, and the whole file if the
block size has to grow. -/
def writerRange (zp : ZnodeSize) (req : RangeRequest) : ℕ × ℕ :=
  let off := if req.type = .append then zp.zpSize else req.off
  let endSize := max zp.zpSize (u64 (off + req.len))
  if zp.zBlksz < endSize ∧ (isp2 zp.zBlksz = false ∨ zp.zBlksz < zp.zMaxBlksz) then (0, 2 ^ 64 - 1)
  else (off, req.len)

/-- The node a writer has to wait for. -/
def writerConflict (tree : List Rl) (off len : ℕ) : Option Rl :=
  match rlFind tree off with
  | some rl => some rl
  | none =>
    match (rlAfter tree off).head?.filter (·.rOff < u64 (off + len)) with
    | some rl => some rl
    | none => (rlBefore tree off).getLast?.filter (off < ·.rEnd)

/-- One round of the loop of `zfs_range_lock_writer`. -/
def zfsRangeLockWriter (zp : ZnodeSize) (tree : List Rl) (cnt : ℕ → ℕ) (h : ℕ)
    (req : RangeRequest) : LockTry :=
  let (off, len) := writerRange zp req
  if tree.isEmpty then .got off len [newRl h off len .writer] cnt
  else
    match writerConflict tree off len with
    | some rl => .wait (setWriteWanted tree rl)
    | none =>
      .got off len (rlBefore tree off ++ newRl h off len .writer :: rlAfter tree off) cnt

/-! ## Readers -/

/-- If this is an original lock, the proxy that replaces it; the original keeps a count of 0. -/
def zfsRangeProxify (cnt : ℕ → ℕ) (rl : Rl) : Rl × (ℕ → ℕ) :=
  match rl.rOwner with
  | none => (rl, cnt)
  | some h =>
    ({ rOff := rl.rOff
       rLen := rl.rLen
       rCnt := 1
       rType := .reader
       rOwner := none
       rWriteWanted := false
       rReadWanted := false }, update cnt h 0)

/-- A new proxy for a range. -/
def zfsRangeNewProxy (off len : ℕ) : Rl where
  rOff := off
  rLen := len
  rCnt := 1
  rType := .reader
  rOwner := none
  rWriteWanted := false
  rReadWanted := false

/-- Splits a node at `off`: the front and the rear. -/
def zfsRangeSplit (cnt : ℕ → ℕ) (rl : Rl) (off : ℕ) : Rl × Rl × (ℕ → ℕ) :=
  let rear : Rl :=
    { rOff := off
      rLen := rl.rEnd - off
      rCnt := rl.rCnt
      rType := .reader
      rOwner := none
      rWriteWanted := false
      rReadWanted := false }
  let (front, cnt) := zfsRangeProxify cnt rl
  ({ front with rLen := off - rl.rOff }, rear, cnt)

/-- `rl->r_cnt++`. -/
def Rl.bump (rl : Rl) : Rl :=
  { rl with rCnt := rl.rCnt + 1 }

/-- The gap before `next` that the loop of `zfs_range_add_reader` fills. -/
def readerGap (prev : Option Rl) (next : Rl) : List Rl :=
  match prev with
  | some prev =>
    if prev.rEnd < next.rOff then [zfsRangeNewProxy prev.rEnd (next.rOff - prev.rEnd)] else []
  | none => []

/-- The loop of `zfs_range_add_reader` and the range that remains after it: what becomes of the
nodes from `next` on when a reader of a range that ends at `last` is added. -/
def addReaderLoop (last : ℕ) : Option Rl → (ℕ → ℕ) → List Rl → Option (List Rl × (ℕ → ℕ))
  | prev, cnt, [] => prev.map fun prev => ([zfsRangeNewProxy prev.rEnd (last - prev.rEnd)], cnt)
  | prev, cnt, next :: rest =>
    if last ≤ next.rOff then
      prev.map fun prev => (zfsRangeNewProxy prev.rEnd (last - prev.rEnd) :: next :: rest, cnt)
    else if last = next.rEnd then
      let (proxy, cnt) := zfsRangeProxify cnt next
      some (readerGap prev next ++ proxy.bump :: rest, cnt)
    else if last < next.rEnd then
      let (front, rear, cnt) := zfsRangeSplit cnt next last
      some (readerGap prev next ++ front.bump :: rear :: rest, cnt)
    else
      let (proxy, cnt) := zfsRangeProxify cnt next
      (addReaderLoop last (some proxy.bump) cnt rest).map fun (more, cnt) =>
        (readerGap prev next ++ proxy.bump :: more, cnt)

/-- The nodes before and from the place of a new reader on, once the node that reaches into its
range has been split there. -/
def splitPrev (tree : List Rl) (cnt : ℕ → ℕ) (off : ℕ) (prev : Option Rl) :
    List Rl × List Rl × (ℕ → ℕ) :=
  match prev with
  | none => (rlBefore tree off, rlAfter tree off, cnt)
  | some prev =>
    if prev.rEnd ≤ off ∨ prev.rOff = off then (rlBefore tree off, rlAfter tree off, cnt)
    else
      let (front, rear, cnt) := zfsRangeSplit cnt prev off
      ((rlBefore tree off).dropLast ++ [front], rear :: rlAfter tree off, cnt)

def zfsRangeAddReader (tree : List Rl) (cnt : ℕ → ℕ) (h off len : ℕ) (prev : Option Rl) :
    Option (List Rl × (ℕ → ℕ)) :=
  let (before, after, cnt) := splitPrev tree cnt off prev
  let last := u64 (off + len)
  match after with
  | [] => some (before ++ [newRl h off len .reader], cnt)
  | next :: rest =>
    if last ≤ next.rOff then some (before ++ newRl h off len .reader :: next :: rest, cnt)
    else
      -- a proxy for the range before the first overlap
      let first := if off < next.rOff then [zfsRangeNewProxy off (next.rOff - off)] else []
      (addReaderLoop last none (update cnt h 0) (next :: rest)).map fun (more, cnt) =>
        (before ++ first ++ more, cnt)

/-- A node that keeps readers out. -/
def Rl.excludes (rl : Rl) : Bool :=
  rl.rType = .writer ∨ rl.rWriteWanted

/-- The loop of `zfs_range_lock_reader`: the node to wait for. -/
def readerScan (last : ℕ) : List Rl → Option Rl
  | [] => none
  | next :: rest =>
    if last ≤ next.rOff then none
    else if next.excludes then some next
    else if last ≤ next.rEnd then none
    else readerScan last rest

/-- The node at the offset of a reader or before it. -/
def readerPrev (tree : List Rl) (off : ℕ) : Option Rl :=
  (rlFind tree off).or (rlBefore tree off).getLast?

/-- The node a reader has to wait for. -/
def readerConflict (tree : List Rl) (off len : ℕ) : Option Rl :=
  let last := u64 (off + len)
  let next := if (rlFind tree off).isSome then (rlAfter tree off).tail else rlAfter tree off
  match (readerPrev tree off).filter (off < ·.rEnd) with
  | some prev =>
    if prev.excludes then some prev
    else if last < prev.rEnd then none
    else readerScan last next
  | none => readerScan last next

/-- `zfs_range_lock_reader`, from `retry` on. -/
def zfsRangeLockReader (tree : List Rl) (cnt : ℕ → ℕ) (h off len : ℕ) : Option LockTry :=
  match readerConflict tree off len with
  | some rl => some (.wait (setReadWanted tree rl))
  | none =>
    (zfsRangeAddReader tree cnt h off len (readerPrev tree off)).map fun (tree, cnt) =>
      .got off len tree cnt

/-! ## Release -/

/-- The loop of `zfs_range_unlock_reader` over the proxies of a range of which `len` is left. -/
def unlockReaderLoop : ℕ → List Rl → Option (List Rl)
  | len, [] => if len = 0 then some [] else none
  | len, rl :: rest =>
    if len = 0 then some (rl :: rest)
    else
      (unlockReaderLoop (u64Sub len rl.rLen) rest).map fun more =>
        if rl.rCnt - 1 = 0 then more else { rl with rCnt := rl.rCnt - 1 } :: more

/-- `avl_remove` of the `rl_t` of the caller `h`. -/
def removeOwn (tree : List Rl) (h : ℕ) : List Rl :=
  tree.filter (·.rOwner ≠ some h)

def zfsRangeUnlockReader (tree : List Rl) (cnt : ℕ → ℕ) (h off len : ℕ) : Option (List Rl) :=
  if cnt h = 1 then some (removeOwn tree h)
  else if (rlFind tree off).isSome then
    (unlockReaderLoop len (rlAfter tree off)).map (rlBefore tree off ++ ·)
  else none

/-! ## The callers -/

/-- A lock that a caller holds: the range and the type of its `rl_t`. -/
structure HeldRange where
  off : ℕ
  len : ℕ
  writer : Bool
  deriving DecidableEq

/-- The locks of a file: the tree, the `r_cnt`s of the callers' `rl_t`s, the callers that hold a
lock and those that wait in `zfs_range_lock`. -/
structure RangeState where
  tree : List Rl
  cnt : ℕ → ℕ
  held : ℕ → Option HeldRange
  waiting : ℕ → Option RangeRequest

/-- The state after a try of the caller `h`. -/
def RangeState.afterTry (s : RangeState) (h : ℕ) (req : RangeRequest) : LockTry → RangeState
  | .got off len tree cnt =>
    { tree := tree
      cnt := cnt
      held := update s.held h (some ⟨off, len, req.type ≠ .reader⟩)
      waiting := update s.waiting h none }
  | .wait tree => { s with tree := tree, waiting := update s.waiting h (some req) }

/-- `zfs_range_lock` up to the grant or the first `cv_wait`. -/
def zfsRangeLock (s : RangeState) (zp : ZnodeSize) (h : ℕ) (req : RangeRequest) :
    Option RangeState :=
  let s := { s with cnt := update s.cnt h 1 }
  if req.type = .reader then
    if s.tree.isEmpty then
      some (s.afterTry h req
        (.got req.off req.len [newRl h req.off req.len .reader] s.cnt))
    else (zfsRangeLockReader s.tree s.cnt h req.off req.len).map (s.afterTry h req)
  else some (s.afterTry h req (zfsRangeLockWriter zp s.tree s.cnt h req))

/-- A caller goes on after its `cv_wait`. -/
def zfsRangeWake (s : RangeState) (zp : ZnodeSize) (h : ℕ) (req : RangeRequest) :
    Option RangeState :=
  if req.type = .reader then
    (zfsRangeLockReader s.tree s.cnt h req.off req.len).map (s.afterTry h req)
  else some (s.afterTry h req (zfsRangeLockWriter zp s.tree s.cnt h req))

def zfsRangeUnlock (s : RangeState) (h : ℕ) (rl : HeldRange) : Option RangeState :=
  let s' := { s with held := update s.held h none }
  if rl.writer then some { s' with tree := removeOwn s.tree h }
  else
    (zfsRangeUnlockReader s.tree s.cnt h rl.off rl.len).map fun tree => { s' with tree := tree }

/-- The range that is asked for is not empty and ends within 64 bits, for a caller that appends at
the size the file has then. -/
def RangeRequest.Fits (req : RangeRequest) (zp : ZnodeSize) : Prop :=
  0 < req.len ∧ zp.zpSize < 2 ^ 64 ∧
    (if req.type = .append then zp.zpSize else req.off) + req.len < 2 ^ 64

/-- One critical section of one caller: it asks for a lock, wakes up in `zfs_range_lock` and tries
again, or releases the lock it holds.  The size of the file and of its blocks can be anything each
time. -/
inductive RangeStep : RangeState → RangeState → Prop
  | lock {s s' : RangeState} (zp : ZnodeSize) (h : ℕ) (req : RangeRequest) (hheld : s.held h = none)
      (hwaiting : s.waiting h = none) (hfits : req.Fits zp)
      (hrun : zfsRangeLock s zp h req = some s') : RangeStep s s'
  | wake {s s' : RangeState} (zp : ZnodeSize) (h : ℕ) (req : RangeRequest)
      (hwaiting : s.waiting h = some req) (hfits : req.Fits zp)
      (hrun : zfsRangeWake s zp h req = some s') : RangeStep s s'
  | unlock {s s' : RangeState} (h : ℕ) (rl : HeldRange) (hheld : s.held h = some rl)
      (hrun : zfsRangeUnlock s h rl = some s') : RangeStep s s'

/-- No locks. -/
def RangeState.init : RangeState where
  tree := []
  cnt := fun _ => 0
  held := fun _ => none
  waiting := fun _ => none

/-- The states of a file whose locks are taken and released in any order. -/
inductive RangeReach : RangeState → Prop
  | init : RangeReach .init
  | step {s s' : RangeState} (h : RangeReach s) (hstep : RangeStep s s') : RangeReach s'

end Polaris
