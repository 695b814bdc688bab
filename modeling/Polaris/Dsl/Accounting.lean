import Mathlib.Data.Fintype.Fin
import Polaris.Dsl.Space
import Polaris.Lib.Rollup

/-!
# The counts of a directory are those of its subtree

The abstract account of a pool is a forest with what was charged to each directory itself, as
integers.  The counts of `dsl_dir_t` are 64-bit words that wrap.  While no count leaves its type,
every directory counts what was charged to it and what its children account for: the larger
of a child's count and its reservation for the used bytes, the child's count for the other two.

One call of `dsl_dir_diduse_space` settles the charged directory and leaves its parent owed
`parent_delta`; the recursion pays the debt up to the root.

## Main definitions

* `DslDirs.Pending`, `DslDirs.Accounts`
* `DiduseFits`, `RenameFits` : no count leaves its type during a call
* `DslDirRun` : the runs

## Main results

* `DslDirs.Pending.charge`, `DslDirs.Pending.diduse` : one directory, and the recursion
* `dslDir_accounting` : every run keeps the account
-/

namespace Polaris

open Rollup Function BitVec Option DslDirs

/-! ## Words as integers -/

/-- An `int64_t` count stays a count when `δ` is added. -/
def FitsInt64 (a δ : BitVec 64) : Prop :=
  0 ≤ a.toInt + δ.toInt ∧ a.toInt + δ.toInt < 2 ^ 63

/-- A `uint64_t` count stays in its type when the signed `δ` is added. -/
def FitsUint64 (a δ : BitVec 64) : Prop :=
  0 ≤ (a.toNat : ℤ) + δ.toInt ∧ (a.toNat : ℤ) + δ.toInt < 2 ^ 64

instance (a δ : BitVec 64) : Decidable (FitsInt64 a δ) :=
  inferInstanceAs (Decidable (_ ∧ _))

instance (a δ : BitVec 64) : Decidable (FitsUint64 a δ) :=
  inferInstanceAs (Decidable (_ ∧ _))

variable {a b δ : BitVec 64}

theorem FitsInt64.toInt_add (h : FitsInt64 a δ) :
    (a + δ).toInt = a.toInt + δ.toInt := by
  obtain ⟨h₁, h₂⟩ := h
  rw [BitVec.toInt_add]
  apply Int.bmod_eq_of_le <;> omega

theorem FitsUint64.toNat_add (h : FitsUint64 a δ) :
    ((a + δ).toNat : ℤ) = a.toNat + δ.toInt := by
  obtain ⟨h₁, h₂⟩ := h
  rw [BitVec.toInt_eq_toNat_cond] at h₁ h₂ ⊢
  rw [BitVec.toNat_add]
  split_ifs at h₁ h₂ ⊢ <;> omega

/-- A word that is not negative as `int64_t` reads the same as `uint64_t`. -/
theorem toNat_of_toInt_nonneg (h : 0 ≤ a.toInt) : (a.toNat : ℤ) = a.toInt := by
  have ha := a.isLt
  rw [toInt_eq_toNat_cond] at h ⊢
  split_ifs at h ⊢ <;> omega

theorem toInt_of_toNat_lt (h : a.toNat < 2 ^ 63) : a.toInt = a.toNat := by
  rw [toInt_eq_toNat_cond, if_pos (by omega)]

theorem toNat_max64 (a b : BitVec 64) : (max64 a b).toNat = max a.toNat b.toNat := by
  rw [max64]
  split_ifs with h
  · exact (Nat.max_eq_right (Nat.le_of_lt (lt_def.mp h))).symm
  · exact (Nat.max_eq_left (not_lt.mp fun hlt => h (lt_def.mpr hlt))).symm

/-- The difference of two words below `2 ^ 63`, as `int64_t`. -/
theorem toInt_sub_of_lt (ha : a.toNat < 2 ^ 63) (hb : b.toNat < 2 ^ 63) :
    (a - b).toInt = a.toNat - b.toNat := by
  rw [toInt_sub, toInt_of_toNat_lt ha, toInt_of_toNat_lt hb]
  apply Int.bmod_eq_of_le <;> omega

/-- The negation of a word below `2 ^ 63`, as `int64_t`. -/
theorem toInt_neg_of_lt (ha : a.toNat < 2 ^ 63) : (-a).toInt = -(a.toNat : ℤ) := by
  rw [toInt_neg, toInt_of_toNat_lt ha]
  apply Int.bmod_eq_of_le <;> omega

variable {ι : Type}

namespace DslDirs

/-! ## The account of a pool -/

/-- `dd_parent` -/
def parents (s : DslDirs ι) : ι → Option ι := fun i => (s i).ddParent

/-- `dd_used_bytes` -/
def usedBytes (s : DslDirs ι) : ι → ℤ := fun i => (s i).ddUsedBytes.toInt

/-- `dd_reserved` -/
def reserved (s : DslDirs ι) : ι → ℤ := fun i => ((s i).ddReserved.toNat : ℤ)

/-- `dd_compressed_bytes` -/
def compressedBytes (s : DslDirs ι) : ι → ℤ := fun i => ((s i).ddCompressedBytes.toNat : ℤ)

/-- `dd_uncompressed_bytes` -/
def uncompressedBytes (s : DslDirs ι) : ι → ℤ := fun i => ((s i).ddUncompressedBytes.toNat : ℤ)

/-- What a directory accounts for in its parent. -/
def accounted (s : DslDirs ι) : ι → ℤ := fun i => max (s.usedBytes i) (s.reserved i)

/-- Used bytes are not negative, and reservations are at most `INT64_MAX`. -/
def InRange (s : DslDirs ι) : Prop :=
  ∀ i, 0 ≤ s.usedBytes i ∧ s.reserved i < 2 ^ 63

/-- What a directory accounts for as a word, `MAX(used, dd_reserved)`. -/
theorem toNat_max64_reserved (s : DslDirs ι) (i : ι) (ha : 0 ≤ a.toInt) :
    ((max64 a (s i).ddReserved).toNat : ℤ) = max a.toInt (s.reserved i) := by
  rw [toNat_max64, reserved, Nat.cast_max, toNat_of_toInt_nonneg ha]

theorem InRange.max64_lt {s : DslDirs ι} (h : s.InRange) (i : ι) (ha : 0 ≤ a.toInt) :
    (max64 a (s i).ddReserved).toNat < 2 ^ 63 := by
  have hmax := s.toNat_max64_reserved i ha
  have hlt := a.toInt_lt
  have hr := (h i).2
  omega

/-- **`parent_delta` is the change of what the directory accounts for**, in spite of the unsigned
sum it takes for a negative `delta`. -/
theorem InRange.toInt_parentDelta {s : DslDirs ι} {i : ι} {used : BitVec 64} (h : s.InRange)
    (hfits : FitsInt64 (s i).ddUsedBytes used) :
    (parentDelta (s i) (s i).ddUsedBytes used).toInt
      = max (s.usedBytes i + used.toInt) (s.reserved i) - s.accounted i := by
  have hnew : 0 ≤ ((s i).ddUsedBytes + used).toInt := by
    rw [hfits.toInt_add]
    exact hfits.1
  have hold : 0 ≤ (s i).ddUsedBytes.toInt := (h i).1
  rw [parentDelta, toInt_sub_of_lt (h.max64_lt i hnew) (h.max64_lt i hold),
    s.toNat_max64_reserved i hnew, s.toNat_max64_reserved i hold, hfits.toInt_add]
  rfl

end DslDirs

/-- What was charged to each directory itself. -/
structure DslCharges (ι : Type) where
  used : ι → ℤ
  compressed : ι → ℤ
  uncompressed : ι → ℤ

/-- A charge of `dsl_dir_diduse_space` to the directory `i`. -/
def DslCharges.charge [DecidableEq ι] (own : DslCharges ι) (i : ι) (u c x : ℤ) : DslCharges ι where
  used := update own.used i (own.used i + u)
  compressed := update own.compressed i (own.compressed i + c)
  uncompressed := update own.uncompressed i (own.uncompressed i + x)

/-- Every count is right for the forest `par`, except that the directory `p`, if there is one,
is still owed `u` used bytes, `c` compressed and `x` uncompressed ones. -/
structure DslDirs.Pending [Fintype ι] [DecidableEq ι] (par : ι → Option ι) (s : DslDirs ι)
    (own : DslCharges ι) (p : Option ι) (u c x : ℤ) : Prop where
  used : Owed par s.usedBytes own.used s.accounted p u
  compressed : Owed par s.compressedBytes own.compressed s.compressedBytes p c
  uncompressed : Owed par s.uncompressedBytes own.uncompressed s.uncompressedBytes p x
  range : s.InRange

/-- The directories are a forest and every count is right. -/
structure DslDirs.Accounts [Fintype ι] [DecidableEq ι] (s : DslDirs ι) (own : DslCharges ι) :
    Prop where
  rooted : Rooted s.parents
  used : Balanced s.parents s.usedBytes own.used s.accounted
  compressed : Balanced s.parents s.compressedBytes own.compressed s.compressedBytes
  uncompressed : Balanced s.parents s.uncompressedBytes own.uncompressed s.uncompressedBytes
  range : s.InRange

variable [DecidableEq ι]

/-! ## Runs -/

/-- No count leaves its type during `dsl_dir_diduse_space`. -/
def DiduseFits : ℕ → DslDirs ι → ι → BitVec 64 → BitVec 64 → BitVec 64 → Prop
  | 0, _, _, _, _, _ => True
  | fuel + 1, s, i, used, compressed, uncompressed =>
    FitsInt64 (s i).ddUsedBytes used ∧
    FitsUint64 (s i).ddCompressedBytes compressed ∧
    FitsUint64 (s i).ddUncompressedBytes uncompressed ∧
    ∀ p ∈ (s i).ddParent, DiduseFits fuel (s.charge i used compressed uncompressed) p
      (parentDelta (s i) (s i).ddUsedBytes used) compressed uncompressed

instance instDecidableDiduseFits : (fuel : ℕ) → (s : DslDirs ι) → (i : ι) →
    (used compressed uncompressed : BitVec 64) →
    Decidable (DiduseFits fuel s i used compressed uncompressed)
  | 0, _, _, _, _, _ => isTrue trivial
  | fuel + 1, s, i, used, compressed, uncompressed =>
    have := instDecidableDiduseFits fuel (s.charge i used compressed uncompressed)
    inferInstanceAs (Decidable (_ ∧ _ ∧ _ ∧ _))

/-- No count leaves its type during `dsl_dir_rename_sync`, and those of the renamed directory
fit the `int64_t` arguments they are passed as. -/
def RenameFits (fuel : ℕ) (s : DslDirs ι) (i newparent : ι) : Prop :=
  some newparent ≠ (s i).ddParent →
  (s i).ddCompressedBytes.toNat < 2 ^ 63 ∧
  (s i).ddUncompressedBytes.toNat < 2 ^ 63 ∧
  ∀ p ∈ (s i).ddParent,
    DiduseFits fuel s p (-max64 (s i).ddUsedBytes (s i).ddReserved)
      (-(s i).ddCompressedBytes) (-(s i).ddUncompressedBytes) ∧
    ∀ s₁ ∈ dslDirDiduseSpace fuel s p (-max64 (s i).ddUsedBytes (s i).ddReserved)
      (-(s i).ddCompressedBytes) (-(s i).ddUncompressedBytes),
      DiduseFits fuel s₁ newparent (max64 (s i).ddUsedBytes (s i).ddReserved)
        (s₁ i).ddCompressedBytes (s₁ i).ddUncompressedBytes

instance (fuel : ℕ) (s : DslDirs ι) (i newparent : ι) :
    Decidable (RenameFits fuel s i newparent) :=
  inferInstanceAs (Decidable (_ → _ ∧ _ ∧ _))

/-- The runs from any pool whose counts are right.  Each of the two sync functions runs after its
check returned zero.  `other` is everything else that changes a directory without touching its
parent, its counts or its reservation. -/
inductive DslDirRun [Fintype ι] : DslDirs ι → DslCharges ι → Prop
  | start {s : DslDirs ι} {own : DslCharges ι} (h : s.Accounts own) : DslDirRun s own
  | diduse {s s' : DslDirs ι} {own : DslCharges ι} {fuel : ℕ} {i : ι}
      {used compressed uncompressed : BitVec 64} (h : DslDirRun s own)
      (hfits : DiduseFits fuel s i used compressed uncompressed)
      (hrun : dslDirDiduseSpace fuel s i used compressed uncompressed = some s') :
      DslDirRun s' (own.charge i used.toInt compressed.toInt uncompressed.toInt)
  | setReservation {s s' : DslDirs ι} {own : DslCharges ι} {fuel : ℕ} {poolsize : BitVec 64}
      {i : ι} {reservation : BitVec 64} {syncing : Bool} (h : DslDirRun s own)
      (hcheck : dslDirSetReservationCheck fuel poolsize s i reservation syncing = some (.ok ()))
      (hfits : ∀ p ∈ (s i).ddParent,
        DiduseFits fuel (update s i { s i with ddReserved := reservation }) p
          (reservationDelta (s i) reservation) 0 0)
      (hrun : dslDirSetReservationSync fuel s i reservation = some s') : DslDirRun s' own
  | rename {s s' : DslDirs ι} {own : DslCharges ι} {fuel : ℕ} {poolsize : BitVec 64}
      {refcount : ℕ} {lookup : Except DslErrno Unit} {i newparent : ι} (h : DslDirRun s own)
      (hcheck : dslDirRenameCheck fuel poolsize refcount lookup s i newparent = some (.ok ()))
      (hfits : RenameFits fuel s i newparent)
      (hrun : dslDirRenameSync fuel s i newparent = some s') : DslDirRun s' own
  | other {s s' : DslDirs ι} {own : DslCharges ι} (h : DslDirRun s own)
      (hsame : ∀ i, (s' i).ddParent = (s i).ddParent ∧ (s' i).ddUsedBytes = (s i).ddUsedBytes ∧
        (s' i).ddCompressedBytes = (s i).ddCompressedBytes ∧
        (s' i).ddUncompressedBytes = (s i).ddUncompressedBytes ∧
        (s' i).ddReserved = (s i).ddReserved) : DslDirRun s' own

/-! ## One directory -/

variable {fuel : ℕ} {poolsize used compressed uncompressed reservation : BitVec 64} {i j : ι}
  {par : ι → Option ι} {s s' : DslDirs ι} {own : DslCharges ι}

/-- An update of one directory that keeps a field keeps it everywhere. -/
theorem DslDirs.field_update {β : Type} (f : DslDir ι → β) {d : DslDir ι} (h : f d = f (s i)) :
    (fun j => f (update s i d j)) = fun j => f (s j) := by
  funext j
  by_cases hj : j = i
  · subst hj
    rw [update_self, h]
  · rw [update_of_ne hj]

@[simp]
theorem DslDirs.parents_charge : (s.charge i used compressed uncompressed).parents = s.parents :=
  field_update (fun d => d.ddParent) rfl

@[simp]
theorem DslDirs.reserved_charge : (s.charge i used compressed uncompressed).reserved = s.reserved :=
  field_update (fun d => (d.ddReserved.toNat : ℤ)) rfl

theorem DslDirs.charge_of_ne (hj : j ≠ i) :
    s.charge i used compressed uncompressed j = s j :=
  update_of_ne hj _ _

theorem DslDirs.usedBytes_charge (h : FitsInt64 (s i).ddUsedBytes used) :
    (s.charge i used compressed uncompressed).usedBytes
      = update s.usedBytes i (s.usedBytes i + used.toInt) :=
  (comp_update (fun d : DslDir ι => d.ddUsedBytes.toInt) s i _).trans
    (congrArg _ h.toInt_add)

theorem DslDirs.compressedBytes_charge (h : FitsUint64 (s i).ddCompressedBytes compressed) :
    (s.charge i used compressed uncompressed).compressedBytes
      = update s.compressedBytes i (s.compressedBytes i + compressed.toInt) :=
  (comp_update (fun d : DslDir ι => (d.ddCompressedBytes.toNat : ℤ)) s i _).trans
    (congrArg _ h.toNat_add)

theorem DslDirs.uncompressedBytes_charge (h : FitsUint64 (s i).ddUncompressedBytes uncompressed) :
    (s.charge i used compressed uncompressed).uncompressedBytes
      = update s.uncompressedBytes i (s.uncompressedBytes i + uncompressed.toInt) :=
  (comp_update (fun d : DslDir ι => (d.ddUncompressedBytes.toNat : ℤ)) s i _).trans
    (congrArg _ h.toNat_add)

/-- After a charge the directory accounts for `parent_delta` more. -/
theorem DslDirs.InRange.accounted_charge (h : s.InRange)
    (hfits : FitsInt64 (s i).ddUsedBytes used) :
    (s.charge i used compressed uncompressed).accounted
      = update s.accounted i
          (s.accounted i + (parentDelta (s i) (s i).ddUsedBytes used).toInt) := by
  funext j
  rw [accounted, usedBytes_charge hfits, reserved_charge,
    h.toInt_parentDelta hfits]
  by_cases hj : j = i
  · subst hj
    rw [update_self, update_self]
    omega
  · rw [update_of_ne hj, update_of_ne hj, accounted]

theorem DslDirs.InRange.charge (h : s.InRange) (hfits : FitsInt64 (s i).ddUsedBytes used) :
    (s.charge i used compressed uncompressed).InRange := by
  intro j
  rw [usedBytes_charge hfits, reserved_charge]
  refine ⟨?_, (h j).2⟩
  by_cases hj : j = i
  · subst hj
    rw [update_self]
    exact hfits.1
  · rw [update_of_ne hj]
    exact (h j).1

/-- **One directory of `dsl_dir_diduse_space`**: paid what it is owed, it leaves its parent owed
`parent_delta`. -/
theorem DslDirs.Pending.charge [Fintype ι]
    (h : DslDirs.Pending par s own (some i) used.toInt compressed.toInt uncompressed.toInt)
    (hi : par i ≠ some i) (hused : FitsInt64 (s i).ddUsedBytes used)
    (hcomp : FitsUint64 (s i).ddCompressedBytes compressed)
    (huncomp : FitsUint64 (s i).ddUncompressedBytes uncompressed) :
    DslDirs.Pending par (s.charge i used compressed uncompressed) own (par i)
      (parentDelta (s i) (s i).ddUsedBytes used).toInt compressed.toInt uncompressed.toInt := by
  constructor
  · rw [usedBytes_charge hused, h.range.accounted_charge hused]
    exact h.used.settle hi
  · rw [compressedBytes_charge hcomp]
    exact h.compressed.settle hi
  · rw [uncompressedBytes_charge huncomp]
    exact h.uncompressed.settle hi
  · exact h.range.charge hused

/-! ## A new reservation -/

/-- With a new reservation a directory accounts for `reservationDelta` more. -/
theorem DslDirs.accounted_setReserved (h : s.InRange) (hr : reservation.toNat < 2 ^ 63) :
    DslDirs.accounted (update s i { s i with ddReserved := reservation })
      = update s.accounted i
          (s.accounted i + (reservationDelta (s i) reservation).toInt) := by
  have hused : 0 ≤ (s i).ddUsedBytes.toInt := (h i).1
  have hlt : (max64 (s i).ddUsedBytes reservation).toNat < 2 ^ 63 := by
    have := (s i).ddUsedBytes.toInt_lt
    have := toNat_of_toInt_nonneg hused
    rw [toNat_max64]
    omega
  have hdelta : (reservationDelta (s i) reservation).toInt
      = max (s.usedBytes i) reservation.toNat - s.accounted i := by
    rw [reservationDelta, toInt_sub_of_lt hlt (h.max64_lt i hused), s.toNat_max64_reserved i hused,
      toNat_max64, Nat.cast_max, toNat_of_toInt_nonneg hused]
    rfl
  funext j
  by_cases hj : j = i
  · subst hj
    rw [update_self, hdelta, accounted, usedBytes, reserved, update_self]
    change max (s.usedBytes j) (reservation.toNat : ℤ) = _
    omega
  · rw [update_of_ne hj, accounted, usedBytes, reserved, update_of_ne hj]
    rfl

theorem DslDirs.InRange.setReserved (h : s.InRange) (hr : reservation.toNat < 2 ^ 63) :
    DslDirs.InRange (update s i { s i with ddReserved := reservation }) := by
  intro j
  by_cases hj : j = i
  · subst hj
    rw [usedBytes, reserved, update_self]
    exact ⟨(h j).1, by exact_mod_cast hr⟩
  · rw [usedBytes, reserved, update_of_ne hj]
    exact h j

/-! ## The recursion -/

/-- The call returns where the path to the root fits the fuel. -/
theorem dslDirDiduseSpace_returns {n : ℕ} (h : Depth s.parents i n) (hn : n ≤ fuel)
    (used compressed uncompressed : BitVec 64) :
    ∃ s', dslDirDiduseSpace fuel s i used compressed uncompressed = some s' := by
  induction fuel generalizing s i n used with
  | zero => cases h <;> omega
  | succ fuel ih =>
    cases h with
    | root h =>
      have hp : (s i).ddParent = none := h
      rw [dslDirDiduseSpace, hp]
      exact ⟨_, rfl⟩
    | up h hp =>
      have hpi : (s i).ddParent = some _ := h
      rw [dslDirDiduseSpace, hpi]
      apply ih _ (Nat.le_of_succ_le_succ hn)
      rw [parents_charge]
      exact hp

/-- The call changes only the directories on the path to the root. -/
theorem dslDirDiduseSpace_frame (hj : ¬ Above s.parents j i)
    (hrun : dslDirDiduseSpace fuel s i used compressed uncompressed = some s') : s' j = s j := by
  induction fuel generalizing s i used with
  | zero => cases hrun
  | succ fuel ih =>
    have hji : j ≠ i := by
      rintro rfl
      exact hj (Above.refl _ j)
    rw [dslDirDiduseSpace] at hrun
    split at hrun
    case h_1 =>
      cases hrun
      exact charge_of_ne hji
    case h_2 p hp =>
      have hjp : ¬ Above (s.charge i used compressed uncompressed).parents j p := by
        rw [parents_charge]
        exact fun h => hj (Above.up hp h)
      rw [ih hjp hrun, charge_of_ne hji]

/-- The call keeps every parent and every reservation. -/
theorem dslDirDiduseSpace_fixed
    (hrun : dslDirDiduseSpace fuel s i used compressed uncompressed = some s') :
    s'.parents = s.parents ∧ s'.reserved = s.reserved := by
  induction fuel generalizing s i used with
  | zero => cases hrun
  | succ fuel ih =>
    rw [dslDirDiduseSpace] at hrun
    split at hrun
    case h_1 =>
      cases hrun
      exact ⟨parents_charge, reserved_charge⟩
    case h_2 p hp =>
      have h := ih hrun
      rwa [parents_charge, reserved_charge] at h

variable [Fintype ι]

/-- **`dsl_dir_diduse_space` pays what the directory is owed, up to the root.**  The forest `par`
of the account may differ from the one the code walks, off the path it walks. -/
theorem DslDirs.Pending.diduse (hrooted : Rooted s.parents) (hpath : ∀ j, Above s.parents j i →
    par j = s.parents j)
    (h : DslDirs.Pending par s own (some i) used.toInt compressed.toInt uncompressed.toInt)
    (hfits : DiduseFits fuel s i used compressed uncompressed)
    (hrun : dslDirDiduseSpace fuel s i used compressed uncompressed = some s') :
    DslDirs.Pending par s' own none 0 0 0 := by
  induction fuel generalizing s i used with
  | zero => cases hrun
  | succ fuel ih =>
    obtain ⟨hused, hcomp, huncomp, hup⟩ := hfits
    have hi : par i = (s i).ddParent := hpath i (Above.refl _ i)
    have hcharge := h.charge (by rw [hi]; exact hrooted.parent_ne) hused hcomp huncomp
    rw [dslDirDiduseSpace] at hrun
    split at hrun
    case h_1 hp =>
      cases hrun
      rw [hi, hp] at hcharge
      exact ⟨owed_none.mpr (owed_none.mp hcharge.used),
        owed_none.mpr (owed_none.mp hcharge.compressed),
        owed_none.mpr (owed_none.mp hcharge.uncompressed), hcharge.range⟩
    case h_2 p hp =>
      rw [hi, hp] at hcharge
      apply ih _ _ hcharge (hup p hp) hrun
      · rw [parents_charge]
        exact hrooted
      · rw [parents_charge]
        intro j hj
        exact hpath j (Above.up hp hj)

/-! ## The checks -/

omit [Fintype ι] in
theorem reservation_lt_of_check {syncing : Bool}
    (h : dslDirSetReservationCheck fuel poolsize s i reservation syncing = some (.ok ())) :
    reservation.toNat < 2 ^ 63 := by
  by_contra hge
  have hlt : int64Max < reservation := by
    rw [lt_def, int64Max]
    simp
    omega
  rw [dslDirSetReservationCheck, if_pos hlt] at h
  cases h

omit [Fintype ι] in
/-- The inner loop of `closest_common_ancestor` finds every ancestor. -/
theorem not_above_of_ancestorLoop {d : ι} {n : ℕ}
    (h : ancestorLoop s d n (some i) = some false) : ¬ Above s.parents d i := by
  induction n generalizing i with
  | zero => cases h
  | succ n ih =>
    rw [ancestorLoop] at h
    intro habove
    rcases above_iff.mp habove with hd | ⟨p, hp, hd⟩
    · rw [if_pos hd] at h
      cases h
    have hpi : (s i).ddParent = some p := hp
    rw [hpi] at h
    split_ifs at h
    · cases h
    · exact ih h hd

omit [Fintype ι] in
/-- A directory is not renamed into its own subtree. -/
theorem not_above_of_renameCheck {refcount : ℕ} {lookup : Except DslErrno Unit} {newparent : ι}
    (h : dslDirRenameCheck fuel poolsize refcount lookup s i newparent = some (.ok ()))
    (hne : some newparent ≠ (s i).ddParent) : ¬ Above s.parents i newparent := by
  unfold dslDirRenameCheck at h
  split_ifs at h
  · cases h
  split at h
  · cases h
  · cases fuel with
    | zero => cases h
    | succ fuel =>
      rw [closestCommonAncestor] at h
      cases hloop : ancestorLoop s i (fuel + 1) (some newparent) with
      | none => rw [hloop] at h; cases h
      | some b =>
        cases b with
        | false => exact not_above_of_ancestorLoop hloop
        | true =>
          rw [hloop] at h
          simp at h
  · cases h

/-! ## The three calls -/

namespace DslDirs

theorem Accounts.pending {p : Option ι} {u : ℤ} (hc : s.Accounts own)
    {s₁ : DslDirs ι} (hpar : par = s.parents) (hcomp : s₁.compressedBytes = s.compressedBytes)
    (huncomp : s₁.uncompressedBytes = s.uncompressedBytes)
    (h : Owed par s₁.usedBytes own.used s₁.accounted p u) (hrange : s₁.InRange) :
    Pending par s₁ own p u 0 0 := by
  subst hpar
  constructor
  · exact h
  · rw [hcomp]
    exact hc.compressed.owed_zero p
  · rw [huncomp]
    exact hc.uncompressed.owed_zero p
  · exact hrange

theorem Pending.congr {p : Option ι} {u c x : ℤ}
    (h : Pending par s own p u c x) (hused : s'.usedBytes = s.usedBytes)
    (hres : s'.reserved = s.reserved) (hcomp : s'.compressedBytes = s.compressedBytes)
    (huncomp : s'.uncompressedBytes = s.uncompressedBytes) : Pending par s' own p u c x := by
  have hacc : s'.accounted = s.accounted := by
    funext j
    rw [accounted, hused, hres, accounted]
  constructor
  · rw [hused, hacc]
    exact h.used
  · rw [hcomp]
    exact h.compressed
  · rw [huncomp]
    exact h.uncompressed
  · intro j
    rw [hused, hres]
    exact h.range j

/-- Where nothing is owed the account is right. -/
theorem Pending.accounts {u c x : ℤ} (h : Pending s.parents s own none u c x)
    (hrooted : Rooted s.parents) : s.Accounts own where
  rooted := hrooted
  used := owed_none.mp h.used
  compressed := owed_none.mp h.compressed
  uncompressed := owed_none.mp h.uncompressed
  range := h.range

theorem Accounts.diduse (h : s.Accounts own)
    (hfits : DiduseFits fuel s i used compressed uncompressed)
    (hrun : dslDirDiduseSpace fuel s i used compressed uncompressed = some s') :
    s'.Accounts (own.charge i used.toInt compressed.toInt uncompressed.toInt) := by
  have hpar := (dslDirDiduseSpace_fixed hrun).1
  have hpending : Pending s.parents s
      (own.charge i used.toInt compressed.toInt uncompressed.toInt) (some i)
      used.toInt compressed.toInt uncompressed.toInt :=
    ⟨h.used.charge i _, h.compressed.charge i _, h.uncompressed.charge i _, h.range⟩
  have hnone := hpending.diduse h.rooted (fun _ _ => rfl) hfits hrun
  rw [← hpar] at hnone
  exact hnone.accounts (by rw [hpar]; exact h.rooted)

theorem Accounts.setReservation (h : s.Accounts own) (hr : reservation.toNat < 2 ^ 63)
    (hfits : ∀ p ∈ (s i).ddParent,
      DiduseFits fuel (update s i { s i with ddReserved := reservation }) p
        (reservationDelta (s i) reservation) 0 0)
    (hrun : dslDirSetReservationSync fuel s i reservation = some s') : s'.Accounts own := by
  set s₁ : DslDirs ι := update s i { s i with ddReserved := reservation }
  have hpar : s₁.parents = s.parents := field_update (fun d => d.ddParent) rfl
  have hused : s₁.usedBytes = s.usedBytes := field_update (fun d => d.ddUsedBytes.toInt) rfl
  have hpending : Pending s.parents s₁ own (s.parents i) (reservationDelta (s i) reservation).toInt
      0 0 := by
    apply h.pending rfl
    · exact field_update (fun d => (d.ddCompressedBytes.toNat : ℤ)) rfl
    · exact field_update (fun d => (d.ddUncompressedBytes.toNat : ℤ)) rfl
    · rw [hused, accounted_setReserved h.range hr]
      exact h.used.revalue i _
    · exact h.range.setReserved hr
  rw [dslDirSetReservationSync] at hrun
  split at hrun
  case h_1 hp =>
    cases hrun
    have hpi : s.parents i = none := hp
    rw [hpi, ← hpar] at hpending
    exact hpending.accounts (by rw [hpar]; exact h.rooted)
  case h_2 p hp =>
    have hpi : s.parents i = some p := hp
    rw [hpi, ← hpar] at hpending
    have hpar' := (dslDirDiduseSpace_fixed hrun).1
    have hnone := hpending.diduse (by rw [hpar]; exact h.rooted) (fun _ _ => rfl) (hfits p hp) hrun
    rw [← hpar'] at hnone
    exact hnone.accounts (by rw [hpar', hpar]; exact h.rooted)

/-- The first half of a rename: the directory is taken out of its old parent's account. -/
theorem Accounts.detach (h : s.Accounts own) {p : ι} (hp : (s i).ddParent = some p)
    (hc : (s i).ddCompressedBytes.toNat < 2 ^ 63) (hx : (s i).ddUncompressedBytes.toNat < 2 ^ 63)
    (hfits : DiduseFits fuel s p (-max64 (s i).ddUsedBytes (s i).ddReserved)
      (-(s i).ddCompressedBytes) (-(s i).ddUncompressedBytes))
    (hrun : dslDirDiduseSpace fuel s p (-max64 (s i).ddUsedBytes (s i).ddReserved)
      (-(s i).ddCompressedBytes) (-(s i).ddUncompressedBytes) = some s') :
    Pending (update s.parents i none) s' own none 0 0 0 := by
  have hused : 0 ≤ (s i).ddUsedBytes.toInt := (h.range i).1
  have hne : ∀ j, j ≠ i → update s.parents i none j = s.parents j :=
    fun j hj => update_of_ne hj _ _
  have hi : update s.parents i none i = none := update_self _ _ _
  have hpi : s.parents i = some p := hp
  have hpath : ∀ j, Above s.parents j p → update s.parents i none j = s.parents j := by
    intro j hj
    apply hne
    rintro rfl
    exact h.rooted.not_above_parent hp hj
  apply Pending.diduse h.rooted hpath _ hfits hrun
  constructor
  · rw [toInt_neg_of_lt (h.range.max64_lt i hused), s.toNat_max64_reserved i hused, ← hpi]
    exact h.used.detach hne hi
  · rw [toInt_neg_of_lt hc, ← hpi]
    exact h.compressed.detach hne hi
  · rw [toInt_neg_of_lt hx, ← hpi]
    exact h.uncompressed.detach hne hi
  · exact h.range

/-- The second half of a rename: the directory, now a root, is hung under its new parent. -/
theorem Pending.attach {q : ι} {s₁ s₂ : DslDirs ι}
    (h : Pending (update par i none) s₁ own none 0 0 0) (hpar : s₁.parents = par)
    (hrooted : Rooted par) (hq : ¬ Above par i q) (hc : (s₁ i).ddCompressedBytes.toNat < 2 ^ 63)
    (hx : (s₁ i).ddUncompressedBytes.toNat < 2 ^ 63)
    (hfits : DiduseFits fuel s₁ q (max64 (s₁ i).ddUsedBytes (s₁ i).ddReserved)
      (s₁ i).ddCompressedBytes (s₁ i).ddUncompressedBytes)
    (hrun : dslDirDiduseSpace fuel s₁ q (max64 (s₁ i).ddUsedBytes (s₁ i).ddReserved)
      (s₁ i).ddCompressedBytes (s₁ i).ddUncompressedBytes = some s₂) :
    Pending (update par i (some q)) s₂ own none 0 0 0 := by
  have hused : 0 ≤ (s₁ i).ddUsedBytes.toInt := (h.range i).1
  have hi : update par i none i = none := update_self _ _ _
  have hiq : update par i (some q) i = some q := update_self _ _ _
  have hne : ∀ j, j ≠ i → update par i (some q) j = update par i none j :=
    fun j hj => by rw [update_of_ne hj, update_of_ne hj]
  have hpath : ∀ j, Above s₁.parents j q → update par i (some q) j = s₁.parents j := by
    rw [hpar]
    intro j hj
    apply update_of_ne
    rintro rfl
    exact hq hj
  apply Pending.diduse (by rw [hpar]; exact hrooted) hpath _ hfits hrun
  constructor
  · rw [toInt_of_toNat_lt (h.range.max64_lt i hused), s₁.toNat_max64_reserved i hused]
    exact (owed_none.mp h.used).attach hi hne hiq
  · rw [toInt_of_toNat_lt hc]
    exact (owed_none.mp h.compressed).attach hi hne hiq
  · rw [toInt_of_toNat_lt hx]
    exact (owed_none.mp h.uncompressed).attach hi hne hiq
  · exact h.range

theorem Accounts.rename (h : s.Accounts own) {newparent : ι}
    (hcheck : some newparent ≠ (s i).ddParent → ¬ Above s.parents i newparent)
    (hfits : RenameFits fuel s i newparent)
    (hrun : dslDirRenameSync fuel s i newparent = some s') : s'.Accounts own := by
  rw [dslDirRenameSync] at hrun
  by_cases hsame : some newparent = (s i).ddParent
  · rw [if_neg (not_not.mpr hsame)] at hrun
    cases hrun
    rw [hsame, update_eq_self]
    exact h
  rw [if_pos hsame] at hrun
  obtain ⟨hc, hx, hfits⟩ := hfits hsame
  obtain ⟨p, hp, hrun⟩ := bind_eq_some_iff.mp hrun
  obtain ⟨s₁, hrun₁, hrun⟩ := bind_eq_some_iff.mp hrun
  obtain ⟨s₂, hrun₂, hs'⟩ := bind_eq_some_iff.mp hrun
  cases hs'
  obtain ⟨hfits₁, hfits₂⟩ := hfits p hp
  have hfits₂ := hfits₂ s₁ hrun₁
  have hpar₁ := (dslDirDiduseSpace_fixed hrun₁).1
  have hpar₂ := (dslDirDiduseSpace_fixed hrun₂).1
  have hi : s₁ i = s i := dslDirDiduseSpace_frame (h.rooted.not_above_parent hp) hrun₁
  have hdetached := h.detach hp hc hx hfits₁ hrun₁
  rw [← hi] at hfits₂ hrun₂ hc hx
  have hattached := hdetached.attach hpar₁ h.rooted (hcheck hsame) hc hx hfits₂ hrun₂
  have hpar : parents (update s₂ i { s₂ i with ddParent := some newparent })
      = update s.parents i (some newparent) := by
    funext j
    by_cases hj : j = i
    · subst hj
      rw [parents, update_self, update_self]
    · rw [parents, update_of_ne hj, update_of_ne hj, ← hpar₁, ← hpar₂]
      rfl
  rw [← hpar] at hattached
  apply (hattached.congr _ _ _ _).accounts
  · rw [hpar]
    apply h.rooted.move (q := newparent) _ (update_self _ _ _) (hcheck hsame)
    exact fun j hj => update_of_ne hj _ _
  · exact field_update (fun d => d.ddUsedBytes.toInt) rfl
  · exact field_update (fun d => (d.ddReserved.toNat : ℤ)) rfl
  · exact field_update (fun d => (d.ddCompressedBytes.toNat : ℤ)) rfl
  · exact field_update (fun d => (d.ddUncompressedBytes.toNat : ℤ)) rfl

theorem Accounts.other (h : s.Accounts own)
    (hsame : ∀ i, (s' i).ddParent = (s i).ddParent ∧ (s' i).ddUsedBytes = (s i).ddUsedBytes ∧
      (s' i).ddCompressedBytes = (s i).ddCompressedBytes ∧
      (s' i).ddUncompressedBytes = (s i).ddUncompressedBytes ∧
      (s' i).ddReserved = (s i).ddReserved) : s'.Accounts own := by
  have hpar : s'.parents = s.parents := funext fun i => (hsame i).1
  have hpending : Pending s'.parents s own none 0 0 0 := by
    rw [hpar]
    exact ⟨h.used.owed_zero none, h.compressed.owed_zero none, h.uncompressed.owed_zero none,
      h.range⟩
  apply (hpending.congr _ _ _ _).accounts
  · rw [hpar]
    exact h.rooted
  · exact funext fun i => congrArg BitVec.toInt (hsame i).2.1
  · exact funext fun i => congrArg (fun w => (w.toNat : ℤ)) (hsame i).2.2.2.2
  · exact funext fun i => congrArg (fun w => (w.toNat : ℤ)) (hsame i).2.2.1
  · exact funext fun i => congrArg (fun w => (w.toNat : ℤ)) (hsame i).2.2.2.1

end DslDirs

/-- Every run keeps the account. -/
theorem DslDirRun.accounts (h : DslDirRun s own) : s.Accounts own := by
  induction h with
  | start h => exact h
  | diduse _ hfits hrun ih => exact ih.diduse hfits hrun
  | setReservation _ hcheck hfits hrun ih =>
    exact ih.setReservation (reservation_lt_of_check hcheck) hfits hrun
  | rename _ hcheck hfits hrun ih =>
    exact ih.rename (not_above_of_renameCheck hcheck) hfits hrun
  | other _ hsame ih => exact ih.other hsame

/-- **In every run a directory counts what was charged to it and what its children account for**,
and a further charge to it is taken in up to the root. -/
theorem dslDir_accounting {s : DslDirs ι} {own : DslCharges ι} (h : DslDirRun s own) (i : ι) :
    s.usedBytes i
        = own.used i + ∑ c ∈ children s.parents i, max (s.usedBytes c) (s.reserved c) ∧
    s.compressedBytes i
        = own.compressed i + ∑ c ∈ children s.parents i, s.compressedBytes c ∧
    s.uncompressedBytes i
        = own.uncompressed i + ∑ c ∈ children s.parents i, s.uncompressedBytes c ∧
    ∃ n, ∀ used compressed uncompressed,
      ∃ s', dslDirDiduseSpace n s i used compressed uncompressed = some s' := by
  have ha := h.accounts
  obtain ⟨n, hn⟩ := ha.rooted i
  exact ⟨ha.used i, ha.compressed i, ha.uncompressed i, n,
    dslDirDiduseSpace_returns hn (le_refl n)⟩

/-- A root with the children `1`, which reserves 100 bytes, and `2`. -/
def threeDirs : DslDirs (Fin 3) := fun i =>
  { ddParent := if i = 0 then none else some 0
    ddUsedBytes := if i = 0 then 107 else 0
    ddPhysUsedBytes := if i = 0 then 107 else 0
    ddCompressedBytes := if i = 0 then 7 else 0
    ddUncompressedBytes := if i = 0 then 9 else 0
    ddQuota := 0
    ddReserved := if i = 1 then 100 else 0
    ddSpaceTowrite := fun _ => 50 }

/-- What was charged to them: everything to the root. -/
def threeCharges : DslCharges (Fin 3) where
  used := fun i => if i = 0 then 7 else 0
  compressed := fun i => if i = 0 then 7 else 0
  uncompressed := fun i => if i = 0 then 9 else 0

theorem threeDirs_accounts : threeDirs.Accounts threeCharges := by
  constructor
  · intro i
    by_cases hi : i = 0
    · exact ⟨1, Depth.root (by simp [parents, threeDirs, hi])⟩
    · exact ⟨2, Depth.up (p := 0) (by simp [parents, threeDirs, hi]) (Depth.root rfl)⟩
  · unfold Rollup.Balanced
    decide +kernel
  · unfold Rollup.Balanced
    decide +kernel
  · unfold Rollup.Balanced
    decide +kernel
  · unfold DslDirs.InRange
    decide +kernel

/-- The directories after a charge to `1` that outgrows its reservation. -/
def threeDirsCharged : DslDirs (Fin 3) :=
  (dslDirDiduseSpace 3 threeDirs 1 150 80 200).get (by decide +kernel)

/-- The directories after `1` is renamed below `2`. -/
def threeDirsRenamed : DslDirs (Fin 3) :=
  (dslDirRenameSync 3 threeDirsCharged 1 2).get (by decide +kernel)

theorem threeDirs_run : DslDirRun threeDirsRenamed (threeCharges.charge 1 150 80 200) := by
  have hcharged : DslDirRun threeDirsCharged (threeCharges.charge 1 150 80 200) :=
    DslDirRun.diduse (DslDirRun.start threeDirs_accounts) (by decide +kernel)
      (some_get _).symm
  have hcheck : dslDirRenameCheck 3 1000000 2 (.error .enoent) threeDirsCharged 1 2
      = some (.ok ()) := by
    decide +kernel
  exact DslDirRun.rename hcharged hcheck (by decide +kernel) (some_get _).symm

theorem dslDir_accounting_threeDirs :
    threeDirsRenamed.usedBytes 0
      = (threeCharges.charge 1 150 80 200).used 0
        + ∑ c ∈ children threeDirsRenamed.parents 0,
            max (threeDirsRenamed.usedBytes c) (threeDirsRenamed.reserved c) :=
  (dslDir_accounting threeDirs_run 0).1

end Polaris
