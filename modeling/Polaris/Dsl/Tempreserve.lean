import Mathlib.Algebra.BigOperators.Group.List.Basic
import Mathlib.Algebra.Group.Pi.Lemmas
import Mathlib.Tactic.Abel
import Polaris.Dsl.Space

/-!
# Temporary reservations

`dsl_dir_tempreserve_space` reserves space in a directory and its ancestors until the first error,
or until a reservation further down covers what is asked for.  The cookie records what was added,
and clearing it takes that away again.

Other transactions reserve and clear in the same directories.  They run while this one holds no
lock; what they add is kept beside the counters, so that the difference of the two is this
transaction's part.

## Main definitions

* `Tempreserved` — the counters, with what other transactions added to them.
* `dslDirTempreserveSpace`, `dslDirTempreserveClear`
-/

namespace Polaris

variable {ι : Type}

/-- The errors of a reservation; `arc` is one of `arc_tempreserve_space`. -/
inductive TempreserveErr where
  | edquot
  | enospc
  | erestart
  | arc (err : ℕ)
  deriving DecidableEq, Repr

/-- `dd_tempreserved` of all directories, and the part of it that other transactions added since. -/
structure Tempreserved (ι : Type) where
  ddTempreserved : ι → Fin txgSize → BitVec 64
  others : ι → Fin txgSize → BitVec 64

/-- A directory of the chain up to the root at the time its lock is held: its fields, the adjusted
size of the pool, and what other transactions added to all counters since the lock before. -/
structure TempreserveDir (ι : Type) where
  dd : ι
  fields : DslDir ι
  poolsize : BitVec 64
  others : ι → Fin txgSize → BitVec 64

/-- The entries of the cookie: the directory, or `none` for the cache, and the size. -/
abbrev TrList (ι : Type) := List (Option ι × BitVec 64)

namespace Tempreserved

/-- Other transactions add `δ`. -/
def interfere (s : Tempreserved ι) (δ : ι → Fin txgSize → BitVec 64) : Tempreserved ι :=
  ⟨s.ddTempreserved + δ, s.others + δ⟩

/-- What this transaction added. -/
def own (s : Tempreserved ι) : ι → Fin txgSize → BitVec 64 := s.ddTempreserved - s.others

@[simp] theorem own_interfere (s : Tempreserved ι) (δ : ι → Fin txgSize → BitVec 64) :
    (s.interfere δ).own = s.own :=
  add_sub_add_right_eq_sub _ _ _

variable [DecidableEq ι]

/-- Add to one entry. -/
def add (s : Tempreserved ι) (i : ι) (g : Fin txgSize) (size : BitVec 64) : Tempreserved ι :=
  { s with ddTempreserved := s.ddTempreserved + Pi.single i (Pi.single g size) }

@[simp] theorem own_add (s : Tempreserved ι) (i : ι) (g : Fin txgSize) (size : BitVec 64) :
    (s.add i g size).own = s.own + Pi.single i (Pi.single g size) :=
  add_sub_right_comm _ _ _

end Tempreserved

variable [DecidableEq ι]

/-- `dsl_dir_tempreserve_impl` on the chain from a directory to the root -/
def dslDirTempreserveImpl (netfree : Bool) (txg : BitVec 64) : List (TempreserveDir ι) →
    (asize : BitVec 64) → TrList ι → Tempreserved ι →
      Option TempreserveErr × TrList ι × Tempreserved ι
  | [], _, trList, s => (none, trList, s)
  | d :: parents, asize, trList, s =>
    let s := s.interfere d.others
    let estUsed := (List.finRange txgSize).foldl (fun used i => used + s.ddTempreserved d.dd i)
      (dslDirEstimatedSpace d.fields)
    let quota := if d.fields.ddQuota ≠ 0 then d.fields.ddQuota else uint64Max
    let (quota, err) :=
      if parents.isEmpty then
        if d.poolsize < quota then (d.poolsize, TempreserveErr.enospc) else (quota, .edquot)
      else if netfree then (uint64Max, .edquot)
      else (quota, .edquot)
    if 0 < asize ∧ quota < estUsed then
      let towrite := fun txg : BitVec 64 => d.fields.ddSpaceTowrite (txgSlot txg.toNat)
      if towrite txg ≠ 0 ∨ towrite (txg - 1) ≠ 0 ∨ towrite (txg - 2) ≠ 0 ∨
        d.fields.ddUsedBytes < quota then
        (some .erestart, trList, s)
      else (some err, trList, s)
    else
      let s := s.add d.dd (txgSlot txg.toNat) asize
      let parentRsrv := parentDelta d.fields estUsed asize
      let trList := trList ++ [(some d.dd, asize)]
      if parentRsrv ≠ 0 then dslDirTempreserveImpl netfree txg parents parentRsrv trList s
      else (none, trList, s)

/-- `dsl_dir_tempreserve_clear`; `others` is what other transactions add before each entry. -/
def dslDirTempreserveClear (txg : BitVec 64) : TrList ι → (ℕ → ι → Fin txgSize → BitVec 64) →
    Tempreserved ι → Tempreserved ι
  | [], _, s => s
  | (none, _) :: trList, others, s => dslDirTempreserveClear txg trList (others <| · + 1) s
  | (some i, size) :: trList, others, s =>
    dslDirTempreserveClear txg trList (others <| · + 1)
      ((s.interfere (others 0)).add i (txgSlot txg.toNat) (-size))

/-- `dsl_dir_tempreserve_space`; `arc` is the result of `arc_tempreserve_space`.  The cookie comes
with success. -/
def dslDirTempreserveSpace (chain : List (TempreserveDir ι)) (arc : Option ℕ)
    (others : ℕ → ι → Fin txgSize → BitVec 64) (lsize asize fsize txg : BitVec 64)
    (s : Tempreserved ι) :
    Except TempreserveErr (TrList ι) × Tempreserved ι :=
  let (err, trList, s) := dslDirTempreserveImpl (asize ≤ fsize) txg chain asize [] s
  match err, arc with
  | none, none => (.ok (trList ++ [(none, lsize)]), s)
  | none, some err => (.error (.arc err), dslDirTempreserveClear txg trList others s)
  | some err, _ => (.error err, dslDirTempreserveClear txg trList others s)

/-- What the entries of a cookie add up to. -/
def TrList.sum (g : Fin txgSize) (trList : TrList ι) : ι → Fin txgSize → BitVec 64 :=
  (trList.map fun tr => tr.1.elim 0 fun i => Pi.single i (Pi.single g tr.2)).sum

/-- The list gets an entry for everything that is added. -/
theorem dslDirTempreserveImpl_own (netfree : Bool) (txg : BitVec 64)
    (chain : List (TempreserveDir ι)) (asize : BitVec 64) (trList : TrList ι) (s : Tempreserved ι) :
    let r := dslDirTempreserveImpl netfree txg chain asize trList s
    r.2.2.own - r.2.1.sum (txgSlot txg.toNat) = s.own - trList.sum (txgSlot txg.toNat) := by
  induction chain generalizing asize trList s with
  | nil => rfl
  | cons d parents ih =>
    have hadd : ((s.interfere d.others).add d.dd (txgSlot txg.toNat) asize).own -
        TrList.sum (txgSlot txg.toNat) (trList ++ [(some d.dd, asize)]) =
        s.own - trList.sum (txgSlot txg.toNat) := by
      simp [TrList.sum]
    rw [dslDirTempreserveImpl]
    generalize (if parents.isEmpty then _ else _ : BitVec 64 × TempreserveErr) = quota
    dsimp only
    split_ifs
    · rw [Tempreserved.own_interfere]
    · rw [Tempreserved.own_interfere]
    · exact (ih ..).trans hadd
    · exact hadd

/-- Clearing takes the entries of the list away. -/
theorem dslDirTempreserveClear_own (txg : BitVec 64) (trList : TrList ι)
    (others : ℕ → ι → Fin txgSize → BitVec 64) (s : Tempreserved ι) :
    (dslDirTempreserveClear txg trList others s).own = s.own - trList.sum (txgSlot txg.toNat) := by
  induction trList generalizing others s with
  | nil => simp [dslDirTempreserveClear, TrList.sum]
  | cons tr trList ih =>
    obtain ⟨_ | i, size⟩ := tr
    · simp [dslDirTempreserveClear, ih, TrList.sum]
    · simp only [dslDirTempreserveClear, ih, TrList.sum, Tempreserved.own_add,
        Tempreserved.own_interfere,
        Pi.single_neg, List.map_cons, List.sum_cons, Option.elim_some]
      abel

/-- A reservation that fails leaves every counter as other transactions made it; one that succeeds
adds what its cookie says, and clearing the cookie takes that away, whatever happened in between. -/
theorem dslDirTempreserveSpace_own (chain : List (TempreserveDir ι)) (arc : Option ℕ)
    (others : ℕ → ι → Fin txgSize → BitVec 64) (lsize asize fsize txg : BitVec 64)
    (s : Tempreserved ι) :
    match dslDirTempreserveSpace chain arc others lsize asize fsize txg s with
    | (.error _, s') => s'.own = s.own
    | (.ok cookie, s') => s'.own = s.own + cookie.sum (txgSlot txg.toNat) ∧
        ∀ δ others', (dslDirTempreserveClear txg cookie others' (s'.interfere δ)).own = s.own := by
  have himpl := dslDirTempreserveImpl_own (asize ≤ fsize) txg chain asize [] s
  simp only [dslDirTempreserveSpace]
  generalize dslDirTempreserveImpl _ txg chain asize [] s = r at himpl
  obtain ⟨err, trList, s'⟩ := r
  have hown : s'.own = s.own + trList.sum (txgSlot txg.toNat) := by
    rw [← sub_eq_iff_eq_add, himpl]
    exact sub_zero _
  have hcache : TrList.sum (txgSlot txg.toNat) (trList ++ [(none, lsize)])
      = trList.sum (txgSlot txg.toNat) := by
    simp [TrList.sum]
  rcases err with _ | err
  · rcases arc with _ | err
    · simp [hcache, hown, dslDirTempreserveClear_own]
    · simp [hown, dslDirTempreserveClear_own]
  · simp [hown, dslDirTempreserveClear_own]

end Polaris
