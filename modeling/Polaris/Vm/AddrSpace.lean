import Mathlib.Algebra.Group.Nat.Defs
import Mathlib.Data.List.TakeWhile
import Mathlib.Tactic.Common

/-!
# The segments of an address space

`as_findseg`, `as_addseg`, `as_removeseg` and `as_gap` of `vm_as.c`, with the `valid_va_range` of
the PowerPC port.  The segment tree is the list of its segments in tree order: `AVL_PREV` and
`AVL_NEXT` are the neighbours in the list, and a search by address is a search with the comparison
`as_segcompar`. Addresses have `w` bits, and their sums wrap.

## Main definitions

* `Seg`, `AddrSpace` — a segment, the tree with the hints kept beside it.
* `asFindseg`, `asAddseg`, `asRemoveseg`, `asGap`
* `AsOp`, `AddrSpace.step` — one call.
-/

namespace Polaris

structure Seg where
  sBase : ℕ
  sSize : ℕ
  deriving DecidableEq, Repr

/-- `struct as`: the tree, and what earlier calls have left as hints. -/
structure AddrSpace where
  aSegtree : List Seg
  aSeglast : Option Seg
  aLastgap : Option Seg
  aLastgaphl : Option Seg
  deriving DecidableEq, Repr

def AddrSpace.empty : AddrSpace := ⟨[], none, none, none⟩

/-- A sum of addresses of `w` bits. -/
def addrAdd (w a b : ℕ) : ℕ := (a + b) % 2 ^ w

/-- A difference of addresses of `w` bits. -/
def addrSub (w a b : ℕ) : ℕ := (a + 2 ^ w - b) % 2 ^ w

/-- `s_base + s_size`. -/
def Seg.end (w : ℕ) (seg : Seg) : ℕ := addrAdd w seg.sBase seg.sSize

def asSegcompar (w addr : ℕ) (seg : Seg) : Ordering :=
  if addr < seg.sBase then .lt
  else if addr ≥ seg.end w then .gt
  else .eq

/-! ## The tree -/

/-- `avl_find`. -/
def segFind (w addr : ℕ) (t : List Seg) : Option Seg :=
  t.find? fun seg => asSegcompar w addr seg = .eq

/-- `avl_nearest` with `AVL_AFTER`, where a search has failed. -/
def segAfter (w addr : ℕ) (t : List Seg) : Option Seg :=
  t.find? fun seg => asSegcompar w addr seg = .lt

/-- `avl_insert` where a search has failed. -/
def segInsert (w : ℕ) (newseg : Seg) (t : List Seg) : List Seg :=
  t.takeWhile (fun seg => asSegcompar w newseg.sBase seg = .gt) ++
    newseg :: t.dropWhile fun seg => asSegcompar w newseg.sBase seg = .gt

/-- `avl_insert_here` with `AVL_AFTER`. -/
def segInsertAfter (newseg lseg : Seg) (t : List Seg) : List Seg :=
  t.takeWhile (· ≠ lseg) ++ lseg :: newseg :: (t.dropWhile (· ≠ lseg)).tail

/-- `AVL_PREV`. -/
def segPrev (t : List Seg) (seg : Seg) : Option Seg :=
  (t.takeWhile (· ≠ seg)).getLast?

/-- `AVL_NEXT`. -/
def segNext (t : List Seg) (seg : Seg) : Option Seg :=
  (t.dropWhile (· ≠ seg)).tail.head?

/-! ## Finding, adding and removing -/

/-- `as_findseg` with `tail`, and the space with the segment it has found last. -/
def asFindseg (w : ℕ) (as : AddrSpace) (addr : ℕ) : AddrSpace × Option Seg :=
  match as.aSeglast with
  | some seg =>
    if seg.sBase ≤ addr ∧ addr < seg.end w then (as, some seg) else search
  | none => search
where
  search : AddrSpace × Option Seg :=
    let seg := ((segFind w addr as.aSegtree).or (segAfter w addr as.aSegtree)).or
      as.aSegtree.getLast?
    ({ as with aSeglast := seg }, seg)

/-- The neighbours `as_addseg` tries when `as_gap` has left a segment. -/
def asNeighbours (as : AddrSpace) (newseg hl : Seg) : Option Seg × Option Seg :=
  if hl.sBase > newseg.sBase then (segPrev as.aSegtree hl, some hl)
  else (some hl, segNext as.aSegtree hl)

/-- The segment after which `as_addseg` inserts without a search. -/
def asShortcut (as : AddrSpace) (newseg : Seg) : Option Seg :=
  match as.aLastgaphl with
  | none => none
  | some hl =>
    match asNeighbours as newseg hl with
    | (some lseg, some hseg) =>
      if lseg.sBase < newseg.sBase ∧ hseg.sBase > newseg.sBase then some lseg else none
    | _ => none

/-- `as_addseg`; `false` is the result -1. -/
def asAddseg (w : ℕ) (as : AddrSpace) (newseg : Seg) : AddrSpace × Bool :=
  match asShortcut as newseg with
  | some lseg =>
    ({ as with
        aSegtree := segInsertAfter newseg lseg as.aSegtree
        aLastgaphl := none
        aSeglast := some newseg }, true)
  | none =>
    let as := { as with aLastgaphl := none }
    let addr := newseg.sBase
    let eaddr := newseg.end w
    match ((segFind w addr as.aSegtree).or (segAfter w addr as.aSegtree)).or
        as.aSegtree.getLast? with
    | some seg =>
      if seg.end w > addr ∧ (addr ≥ seg.sBase ∨ eaddr > seg.sBase) then (as, false)
      else ({ as with aSeglast := some newseg, aSegtree := segInsert w newseg as.aSegtree }, true)
    | none =>
      ({ as with aSeglast := some newseg, aSegtree := segInsert w newseg as.aSegtree }, true)

def asRemoveseg (as : AddrSpace) (seg : Seg) : AddrSpace :=
  let aLastgap := match as.aLastgap with
    | some gap =>
      if seg = gap ∨ seg.sBase > gap.sBase then segNext as.aSegtree seg else some gap
    | none => none
  { aSegtree := as.aSegtree.erase seg
    aSeglast := if as.aSeglast = some seg then none else as.aSeglast
    aLastgap := aLastgap
    aLastgaphl := none }

/-! ## Searching for a hole -/

/-- `valid_va_range` of the PowerPC port: the length of the range, cut back if it goes over the top.
-/
def validVaRange (w base len minlen : ℕ) : Option ℕ :=
  let lo := base
  let hi := addrAdd w lo len
  if addrSub w hi lo < minlen then none
  else if hi < lo then
    let avail := addrSub w 0 lo
    if avail < minlen then none else some avail
  else some len

/-- `AH_LO` and `AH_HI`. -/
inductive GapDir
  | lo
  | hi
  deriving DecidableEq, Repr

/-- What a call of `as_gap` asks for: `contain` is the address of `AH_CONTAIN`. -/
structure GapArgs where
  minlen : ℕ
  base : ℕ
  len : ℕ
  dir : GapDir
  contain : Option ℕ
  deriving DecidableEq, Repr

/-- What the loop of `as_gap` does with a hole: leave the loop, go on, or return the range. -/
inductive GapStep
  | stop
  | cont
  | hit (base len : ℕ)
  deriving DecidableEq, Repr

/-- The lower end of the hole above `lseg`. -/
def gapLo (w : ℕ) : Option Seg → ℕ
  | none => 0
  | some seg => seg.end w

/-- The upper end of the hole below `hseg`. -/
def gapHi (hibound : ℕ) : Option Seg → ℕ
  | none => hibound
  | some seg => seg.sBase

/-- The body of the loop of `as_gap` for the hole between `lseg` and `hseg`. -/
def asGapHole (w : ℕ) (args : GapArgs) (lobound hibound : ℕ) (lseg hseg : Option Seg) : GapStep :=
  let lo := gapLo w lseg
  let hi := gapHi hibound hseg
  if (args.dir = .lo ∧ lo > hibound) ∨ (args.dir = .hi ∧ hi < lobound) then .stop
  else if lo > hibound ∨ hi < lobound then .cont
  else
    let lo := if lo < lobound then lobound else lo
    let hi := if hi > hibound then hibound else hi
    match validVaRange w lo (addrSub w hi lo) args.minlen with
    | none => .cont
    | some len =>
      if args.contain.all fun addr => lo ≤ addr ∧ addrAdd w lo len > addr then .hit lo len
      else .cont

/-- A hole that `as_gap` returns: the range, and the segments around the hole. -/
structure GapHit where
  base : ℕ
  len : ℕ
  lseg : Option Seg
  hseg : Option Seg
  deriving DecidableEq, Repr

/-- The loop of `as_gap` upwards; `up` begins with `hseg`. -/
def asGapUp (w : ℕ) (args : GapArgs) (lobound hibound : ℕ) : Option Seg → List Seg → Option GapHit
  | lseg, [] =>
    match asGapHole w args lobound hibound lseg none with
    | .hit base len => some ⟨base, len, lseg, none⟩
    | _ => none
  | lseg, hseg :: up =>
    match asGapHole w args lobound hibound lseg (some hseg) with
    | .hit base len => some ⟨base, len, lseg, some hseg⟩
    | .stop => none
    | .cont => asGapUp w args lobound hibound (some hseg) up

/-- The loop of `as_gap` downwards; `down` begins with `lseg`. -/
def asGapDown (w : ℕ) (args : GapArgs) (lobound hibound : ℕ) :
    Option Seg → List Seg → Option GapHit
  | hseg, [] =>
    match asGapHole w args lobound hibound none hseg with
    | .hit base len => some ⟨base, len, none, hseg⟩
    | _ => none
  | hseg, lseg :: down =>
    match asGapHole w args lobound hibound (some lseg) hseg with
    | .hit base len => some ⟨base, len, some lseg, hseg⟩
    | .stop => none
    | .cont => asGapDown w args lobound hibound (some lseg) down

/-- The upper bound of a search downwards, which `a_lastgap` may lower. -/
def asGapHibound (as : AddrSpace) (minlen hibound : ℕ) : ℕ :=
  match as.aLastgap with
  | some gap => if minlen ≥ gap.sSize ∧ hibound ≥ gap.sBase then gap.sBase else hibound
  | none => hibound

/-- The search of `as_gap` for `AH_LO`, in a tree that is not empty. -/
def asGapLowest (w : ℕ) (as : AddrSpace) (args : GapArgs) (lobound hibound : ℕ) :
    AddrSpace × Option GapHit :=
  match asFindseg w as lobound with
  | (as, none) => (as, none)
  | (as, some hseg) =>
    (as, asGapUp w args lobound hibound (segPrev as.aSegtree hseg)
      (as.aSegtree.dropWhile (· ≠ hseg)))

/-- The search of `as_gap` for `AH_HI`, in a tree that is not empty. -/
def asGapHighest (w : ℕ) (as : AddrSpace) (args : GapArgs) (lobound hibound : ℕ) :
    AddrSpace × Option GapHit :=
  match asFindseg w as hibound with
  | (as, none) => (as, none)
  | (as, some hseg) =>
    let below := (as.aSegtree.takeWhile (· ≠ hseg)).reverse
    if hseg.end w < hibound then
      (as, asGapDown w args lobound hibound none (hseg :: below))
    else (as, asGapDown w args lobound hibound (some hseg) below)

/-- The search of `as_gap` in the given direction. -/
def asGapSearch (w : ℕ) (as : AddrSpace) (args : GapArgs) : AddrSpace × Option GapHit :=
  let lobound := args.base
  let hibound := addrAdd w lobound args.len
  match args.dir with
  | .lo => asGapLowest w as args lobound hibound
  | .hi => asGapHighest w as args lobound (asGapHibound as args.minlen hibound)

/-- `as_gap`: the range it returns, or `none` for -1. -/
def asGap (w : ℕ) (as : AddrSpace) (args : GapArgs) : AddrSpace × Option (ℕ × ℕ) :=
  if as.aSegtree = [] then
    (as, (validVaRange w args.base args.len args.minlen).map fun len => (args.base, len))
  else
    match asGapSearch w as args with
    | (as, none) => (as, none)
    | (as, some hit) =>
      ({ as with
          aLastgap := if args.dir = .hi then hit.hseg else as.aLastgap
          aLastgaphl := hit.hseg.or hit.lseg }, some (hit.base, hit.len))

/-- `*basep` and `*lenp` after `as_gap`: the range it returns, or else the saved ones. -/
def asGapRange (w : ℕ) (as : AddrSpace) (args : GapArgs) : ℕ × ℕ :=
  (asGap w as args).2.getD (args.base, args.len)

/-! ## Calls -/

inductive AsOp
  | add (newseg : Seg)
  | remove (seg : Seg)
  | gap (args : GapArgs)
  deriving DecidableEq, Repr

/-- The space after a call. -/
def AddrSpace.step (w : ℕ) (as : AddrSpace) : AsOp → AddrSpace
  | .add newseg => (asAddseg w as newseg).1
  | .remove seg => asRemoveseg as seg
  | .gap args => (asGap w as args).1

/-- The space after the calls. -/
def AddrSpace.run (w : ℕ) (as : AddrSpace) (ops : List AsOp) : AddrSpace :=
  ops.foldl (AddrSpace.step w) as

end Polaris
