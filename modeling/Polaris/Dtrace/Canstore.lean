import Polaris.Lib.Memory

/-!
# Where a DIF object may store

The check `dtrace_canstore` of `dtrace.c` and the instructions that rely on it, on a build whose
addresses and sizes are 64 bits.  Both sums of the check are taken modulo `2 ^ 64`, so a length that
wraps the end of the interval around passes it.

## Main definitions

* `DtraceRegion` — an area the emulator owns: scratch space, dynamic variables, a static variable.
* `dtraceCanstore` — the check.
* `difStore` — the instructions `copys`, `stb`, `sth`, `stw` and `stx`.
* `StoreFits` — when the check can be relied on.
-/

namespace Polaris

open Mem

/-! ## The check -/

structure DtraceRegion where
  base : BitVec 64
  size : BitVec 64
  deriving DecidableEq, Repr

/-- `dtrace_statvar`. -/
structure DtraceStatvar where
  dtsvData : BitVec 64
  dtsvSize : BitVec 64
  deriving DecidableEq, Repr

/-- The scratch space of `dtrace_mstate`. -/
structure DtraceMstate where
  dtmsScratchBase : BitVec 64
  dtmsScratchSize : BitVec 64
  deriving DecidableEq, Repr

/-- The variables of `dtrace_vstate`; a static variable may be missing. -/
structure DtraceVstate where
  dtdsBase : BitVec 64
  dtdsSize : BitVec 64
  dtvsLocals : List (Option DtraceStatvar)
  dtvsGlobals : List (Option DtraceStatvar)
  deriving DecidableEq, Repr

/-- `addr - a < s && addr + sz <= a + s`. -/
def DtraceRegion.admits (r : DtraceRegion) (addr sz : BitVec 64) : Bool :=
  (addr - r.base).ult r.size && (addr + sz).ule (r.base + r.size)

def DtraceStatvar.region (svar : DtraceStatvar) : DtraceRegion :=
  ⟨svar.dtsvData, svar.dtsvSize⟩

def dtraceCanstoreStatvar (addr sz : BitVec 64) : List (Option DtraceStatvar) → Bool
  | [] => false
  | none :: svars => dtraceCanstoreStatvar addr sz svars
  | some svar :: svars =>
    if svar.dtsvSize = 0#64 then dtraceCanstoreStatvar addr sz svars
    else if svar.region.admits addr sz then true
    else dtraceCanstoreStatvar addr sz svars

def DtraceMstate.scratch (mstate : DtraceMstate) : DtraceRegion :=
  ⟨mstate.dtmsScratchBase, mstate.dtmsScratchSize⟩

def DtraceVstate.dynvars (vstate : DtraceVstate) : DtraceRegion :=
  ⟨vstate.dtdsBase, vstate.dtdsSize⟩

def dtraceCanstore (addr sz : BitVec 64) (mstate : DtraceMstate) (vstate : DtraceVstate) : Bool :=
  if mstate.scratch.admits addr sz then true
  else if vstate.dynvars.admits addr sz then true
  else if dtraceCanstoreStatvar addr sz vstate.dtvsLocals then true
  else dtraceCanstoreStatvar addr sz vstate.dtvsGlobals

/-! ## The store instructions -/

inductive DtraceFault
  | badAddr (illval : BitVec 64)
  | badAlign (illval : BitVec 64)
  deriving DecidableEq, Repr

inductive DifStoreOp
  | copys | stb | sth | stw | stx
  deriving DecidableEq, Repr

/-- How many bytes the instruction stores. -/
def DifStoreOp.size (r2 : BitVec 64) : DifStoreOp → BitVec 64
  | .copys => r2
  | .stb => 1#64
  | .sth => 2#64
  | .stw => 4#64
  | .stx => 8#64

/-- The bits of the address that have to be zero. -/
def DifStoreOp.alignMask : DifStoreOp → BitVec 64
  | .copys | .stb => 0#64
  | .sth => 1#64
  | .stw => 3#64
  | .stx => 7#64

/-- `dtrace_load8`: an address that must not be touched, or that faults, reads as zero. -/
def dtraceLoad8 (toxic : BitVec 64 → Bool) (m : Mem 64) (addr : BitVec 64) : BitVec 8 :=
  if toxic addr then 0#8 else m addr

/-- The loop of `dtrace_bcopy` that goes upwards. -/
def dtraceBcopyUp (toxic : BitVec 64 → Bool) : ℕ → Mem 64 → BitVec 64 → BitVec 64 → Mem 64
  | 0, m, _, _ => m
  | len + 1, m, s2, s1 =>
    dtraceBcopyUp toxic len (m.store8 s1 (dtraceLoad8 toxic m s2)) (off s2 1) (off s1 1)

/-- The loop of `dtrace_bcopy` that goes downwards, from `len` bytes on. -/
def dtraceBcopyDown (toxic : BitVec 64 → Bool) (src dst : BitVec 64) : ℕ → Mem 64 → Mem 64
  | 0, m => m
  | len + 1, m =>
    dtraceBcopyDown toxic src dst len
      (m.store8 (off dst len) (dtraceLoad8 toxic m (off src len)))

def dtraceBcopy (toxic : BitVec 64 → Bool) (m : Mem 64) (src dst len : BitVec 64) : Mem 64 :=
  if dst.ule src then dtraceBcopyUp toxic len.toNat m src dst
  else dtraceBcopyDown toxic src dst len.toNat m

/-- Stores the low `n` bytes of `v`, in either byte order. -/
def storeLow (bigEndian : Bool) (v : BitVec 64) (addr : BitVec 64) (n : ℕ) : ℕ → Mem 64 → Mem 64
  | 0, m => m
  | k + 1, m =>
    (storeLow bigEndian v addr n k m).store8 (off addr k)
      (v.extractLsb' (8 * (if bigEndian then n - 1 - k else k)) 8)

/-- What a store instruction that passes its checks writes. -/
def difWrite (toxic : BitVec 64 → Bool) (bigEndian : Bool) (r1 r2 rd : BitVec 64) (m : Mem 64) :
    DifStoreOp → Mem 64
  | .copys => dtraceBcopy toxic m r1 rd r2
  | .stb => storeLow bigEndian r1 rd 1 1 m
  | .sth => storeLow bigEndian r1 rd 2 2 m
  | .stw => storeLow bigEndian r1 rd 4 4 m
  | .stx => storeLow bigEndian r1 rd 8 8 m

/-- A store instruction with the values of its registers. -/
def difStore (toxic : BitVec 64 → Bool) (bigEndian : Bool) (mstate : DtraceMstate)
    (vstate : DtraceVstate) (op : DifStoreOp) (r1 r2 rd : BitVec 64) (m : Mem 64) :
    Except DtraceFault (Mem 64) :=
  if !dtraceCanstore rd (op.size r2) mstate vstate then .error (.badAddr rd)
  else if rd &&& op.alignMask ≠ 0#64 then .error (.badAlign rd)
  else .ok (difWrite toxic bigEndian r1 r2 rd m op)

/-! ## What the check is for -/

/-- The areas a store may go to. -/
def dtraceRegions (mstate : DtraceMstate) (vstate : DtraceVstate) : List DtraceRegion :=
  mstate.scratch :: vstate.dynvars ::
    (((vstate.dtvsLocals ++ vstate.dtvsGlobals).filterMap id).filter
      fun svar => svar.dtsvSize ≠ 0#64).map DtraceStatvar.region

variable {r : DtraceRegion} {addr sz a : BitVec 64}

namespace DtraceRegion

/-- The first address after the region, in unbounded arithmetic. -/
def limit (r : DtraceRegion) : ℕ :=
  r.base.toNat + r.size.toNat

/-- The address lies in the region. -/
def Covers (r : DtraceRegion) (addr : BitVec 64) : Prop :=
  r.base.toNat ≤ addr.toNat ∧ addr.toNat < r.limit

/-- The interval of `sz` bytes from `addr`, in unbounded arithmetic, lies in the region. -/
def Contains (r : DtraceRegion) (addr sz : BitVec 64) : Prop :=
  r.base.toNat ≤ addr.toNat ∧ addr.toNat + sz.toNat ≤ r.limit

instance (r : DtraceRegion) (addr : BitVec 64) : Decidable (r.Covers addr) :=
  inferInstanceAs (Decidable (_ ∧ _))

instance (r : DtraceRegion) (addr sz : BitVec 64) : Decidable (r.Contains addr sz) :=
  inferInstanceAs (Decidable (_ ∧ _))

theorem admits_iff (h : r.limit ≤ 2 ^ 64) (addr sz : BitVec 64) :
    r.admits addr sz = true ↔
      r.Covers addr ∧ (addr.toNat + sz.toNat) % 2 ^ 64 ≤ r.limit % 2 ^ 64 := by
  simp only [admits, Covers, limit, BitVec.ult, BitVec.ule, Bool.and_eq_true, decide_eq_true_eq,
    BitVec.toNat_sub, BitVec.toNat_add] at h ⊢
  omega

/-- An interval whose end does not wrap is contained in the region that admits it. -/
theorem contains_of_admits (h : r.limit ≤ 2 ^ 64) (hadmits : r.admits addr sz = true)
    (hend : addr.toNat + sz.toNat < 2 ^ 64 ∨ r.limit = 2 ^ 64) : r.Contains addr sz := by
  obtain ⟨⟨hbase, hlimit⟩, hle⟩ := (admits_iff h addr sz).mp hadmits
  constructor
  · exact hbase
  · omega

/-- An interval whose end wraps is admitted by every region below the top that covers its start. -/
theorem admits_of_wrap (hcovers : r.Covers addr) (hlimit : r.limit < 2 ^ 64)
    (hwrap : 2 ^ 64 ≤ addr.toNat + sz.toNat) : r.admits addr sz = true := by
  have := hcovers.2
  rw [admits_iff (by omega)]
  constructor
  · exact hcovers
  · omega

end DtraceRegion

theorem dtraceCanstoreStatvar_iff (addr sz : BitVec 64) (svars : List (Option DtraceStatvar)) :
    dtraceCanstoreStatvar addr sz svars = true ↔
      ∃ svar, some svar ∈ svars ∧ svar.dtsvSize ≠ 0#64 ∧ svar.region.admits addr sz = true := by
  induction svars with
  | nil => simp [dtraceCanstoreStatvar]
  | cons head svars ih =>
    cases head with
    | none => simp [dtraceCanstoreStatvar, ih]
    | some svar =>
      simp only [dtraceCanstoreStatvar, List.mem_cons, Option.some.injEq, or_and_right,
        exists_or, exists_eq_left]
      by_cases hsize : svar.dtsvSize = 0#64
      · simp [hsize, ih]
      · by_cases hadmits : svar.region.admits addr sz = true <;> simp [hsize, hadmits, ih]

theorem mem_dtraceRegions {mstate : DtraceMstate} {vstate : DtraceVstate} :
    r ∈ dtraceRegions mstate vstate ↔ r = mstate.scratch ∨ r = vstate.dynvars ∨
      (∃ svar, some svar ∈ vstate.dtvsLocals ∧ svar.dtsvSize ≠ 0#64 ∧ svar.region = r) ∨
      ∃ svar, some svar ∈ vstate.dtvsGlobals ∧ svar.dtsvSize ≠ 0#64 ∧ svar.region = r := by
  simp [dtraceRegions, and_assoc]

/-- The check finds a region that admits the interval, if there is one. -/
theorem dtraceCanstore_iff (addr sz : BitVec 64) (mstate : DtraceMstate) (vstate : DtraceVstate) :
    dtraceCanstore addr sz mstate vstate = true ↔
      ∃ r ∈ dtraceRegions mstate vstate, r.admits addr sz = true := by
  simp only [mem_dtraceRegions, or_and_right, exists_or, exists_eq_left]
  rw [dtraceCanstore]
  simp only [Bool.if_true_left, Bool.or_eq_true, decide_eq_true_eq, dtraceCanstoreStatvar_iff]
  constructor
  · rintro (h | h | ⟨svar, hmem, hsize, h⟩ | ⟨svar, hmem, hsize, h⟩)
    · exact .inl h
    · exact .inr (.inl h)
    · exact .inr (.inr (.inl ⟨_, ⟨svar, hmem, hsize, rfl⟩, h⟩))
    · exact .inr (.inr (.inr ⟨_, ⟨svar, hmem, hsize, rfl⟩, h⟩))
  · rintro (h | h | ⟨r, ⟨svar, hmem, hsize, rfl⟩, h⟩ | ⟨r, ⟨svar, hmem, hsize, rfl⟩, h⟩)
    · exact .inl h
    · exact .inr (.inl h)
    · exact .inr (.inr (.inl ⟨svar, hmem, hsize, h⟩))
    · exact .inr (.inr (.inr ⟨svar, hmem, hsize, h⟩))

/-! ## What the instructions write -/

variable (toxic : BitVec 64 → Bool)

theorem dtraceBcopyUp_frame (n : ℕ) (m : Mem 64) (src dst : BitVec 64)
    (h : ∀ k < n, a ≠ off dst k) : dtraceBcopyUp toxic n m src dst a = m a := by
  induction n generalizing m src dst with
  | zero => rfl
  | succ n ih =>
    rw [dtraceBcopyUp, ih]
    · exact store8_of_ne _ _ (off_zero dst ▸ h 0 (Nat.zero_lt_succ n))
    · intro k hk
      rw [off_off]
      exact h (1 + k) (by omega)

theorem dtraceBcopyDown_frame (n : ℕ) (m : Mem 64) (src dst : BitVec 64)
    (h : ∀ k < n, a ≠ off dst k) : dtraceBcopyDown toxic src dst n m a = m a := by
  induction n generalizing m with
  | zero => rfl
  | succ n ih =>
    rw [dtraceBcopyDown, ih]
    · exact store8_of_ne _ _ (h n (Nat.lt_succ_self n))
    · intro k hk
      exact h k (by omega)

theorem storeLow_frame (bigEndian : Bool) (v addr : BitVec 64) (w n : ℕ) (m : Mem 64)
    (h : ∀ k < n, a ≠ off addr k) : storeLow bigEndian v addr w n m a = m a := by
  induction n with
  | zero => rfl
  | succ n ih =>
    rw [storeLow, store8_of_ne _ _ (h n (Nat.lt_succ_self n))]
    exact ih fun k hk => h k (by omega)

theorem difWrite_frame (bigEndian : Bool) (r1 r2 rd : BitVec 64) (m : Mem 64)
    (op : DifStoreOp) (h : ∀ k < (op.size r2).toNat, a ≠ off rd k) :
    difWrite toxic bigEndian r1 r2 rd m op a = m a := by
  cases op
  case copys =>
    rw [difWrite, dtraceBcopy]
    split
    · exact dtraceBcopyUp_frame _ _ _ _ _ h
    · exact dtraceBcopyDown_frame _ _ _ _ _ h
  all_goals exact storeLow_frame _ _ _ _ _ _ h

/-- A store passes the check, and changes nothing but its bytes. -/
theorem difStore_ok {toxic : BitVec 64 → Bool} {bigEndian : Bool} {mstate : DtraceMstate}
    {vstate : DtraceVstate} {op : DifStoreOp} {r1 r2 rd : BitVec 64} {m m' : Mem 64}
    (h : difStore toxic bigEndian mstate vstate op r1 r2 rd m = .ok m') :
    dtraceCanstore rd (op.size r2) mstate vstate = true ∧
      ∀ a, (∀ k < (op.size r2).toNat, a ≠ off rd k) → m' a = m a := by
  rw [difStore] at h
  split at h
  next => cases h
  next hcan =>
    split at h
    next => cases h
    next =>
      cases h
      constructor
      · simpa using hcan
      · intro a ha
        exact difWrite_frame _ _ _ _ _ _ _ ha

/-- The bytes of an interval that a region contains lie in the region. -/
theorem DtraceRegion.Contains.covers_off (h : r.limit ≤ 2 ^ 64) (hin : r.Contains addr sz) {k : ℕ}
    (hk : k < sz.toNat) : r.Covers (off addr k) := by
  obtain ⟨hbase, hend⟩ := hin
  have hto : (off addr k).toNat = addr.toNat + k := by
    rw [off, BitVec.toNat_add, BitVec.toNat_ofNat]
    omega
  constructor <;> rw [hto] <;> omega

/-! ## When the check can be relied on -/

/-- The end of the interval stays below the top of the address space, or no region that ends below
the top covers its start, or the interval ends at the top together with a region. -/
def StoreFits (regions : List DtraceRegion) (addr sz : BitVec 64) : Prop :=
  addr.toNat + sz.toNat < 2 ^ 64 ∨
    (∀ r ∈ regions, r.Covers addr → r.limit = 2 ^ 64) ∨
    (addr.toNat + sz.toNat = 2 ^ 64 ∧ ∃ r ∈ regions, r.Covers addr ∧ r.limit = 2 ^ 64)

section Sound

variable {mstate : DtraceMstate} {vstate : DtraceVstate}
  (hregions : ∀ r ∈ dtraceRegions mstate vstate, r.limit ≤ 2 ^ 64)

include hregions

theorem StoreFits.contained (h : StoreFits (dtraceRegions mstate vstate) addr sz)
    (hcan : dtraceCanstore addr sz mstate vstate = true) :
    ∃ r ∈ dtraceRegions mstate vstate, r.Contains addr sz := by
  obtain ⟨r, hr, hadmits⟩ := (dtraceCanstore_iff addr sz mstate vstate).mp hcan
  have hlimit := hregions r hr
  rcases h with hlt | htop | ⟨hend, r', hr', hcovers, htop⟩
  · exact ⟨r, hr, r.contains_of_admits hlimit hadmits (.inl hlt)⟩
  · have hcovers := ((r.admits_iff hlimit addr sz).mp hadmits).1
    exact ⟨r, hr, r.contains_of_admits hlimit hadmits (.inr (htop r hr hcovers))⟩
  · exact ⟨r', hr', hcovers.1, by omega⟩

theorem storeFits_of_contained
    (h : dtraceCanstore addr sz mstate vstate = true →
      ∃ r ∈ dtraceRegions mstate vstate, r.Contains addr sz) :
    StoreFits (dtraceRegions mstate vstate) addr sz := by
  by_cases hlt : addr.toNat + sz.toNat < 2 ^ 64
  · exact .inl hlt
  by_cases htop : ∀ r ∈ dtraceRegions mstate vstate, r.Covers addr → r.limit = 2 ^ 64
  · exact .inr (.inl htop)
  simp only [not_forall] at htop
  obtain ⟨r, hr, hcovers, hne⟩ := htop
  have hlimit := hregions r hr
  have hadmits := r.admits_of_wrap hcovers (by omega) (not_lt.mp hlt)
  obtain ⟨r', hr', hbase, hend⟩ :=
    h ((dtraceCanstore_iff addr sz mstate vstate).mpr ⟨r, hr, hadmits⟩)
  have hlimit' := hregions r' hr'
  refine .inr (.inr ⟨by omega, r', hr', ⟨hbase, ?_⟩, ?_⟩) <;> omega

/-- The check is right exactly about the intervals that fit, and a store of one that fits changes no
byte outside the regions. -/
theorem dtraceCanstore_sound_iff :
    (∀ addr sz, (dtraceCanstore addr sz mstate vstate = true →
        ∃ r ∈ dtraceRegions mstate vstate, r.Contains addr sz) ↔
      StoreFits (dtraceRegions mstate vstate) addr sz) ∧
    ∀ (toxic : BitVec 64 → Bool) (bigEndian : Bool) (op : DifStoreOp) (r1 r2 rd : BitVec 64)
        (m m' : Mem 64),
      StoreFits (dtraceRegions mstate vstate) rd (op.size r2) →
      difStore toxic bigEndian mstate vstate op r1 r2 rd m = .ok m' →
      ∀ a, (∀ r ∈ dtraceRegions mstate vstate, ¬ r.Covers a) → m' a = m a := by
  constructor
  · intro addr sz
    constructor
    · exact storeFits_of_contained hregions
    · intro h
      exact h.contained hregions
  · intro toxic bigEndian op r1 r2 rd m m' hfits hstore a ha
    obtain ⟨hcan, hframe⟩ := difStore_ok hstore
    obtain ⟨r, hr, hin⟩ := hfits.contained hregions hcan
    apply hframe
    intro k hk heq
    exact ha r hr (heq ▸ hin.covers_off (hregions r hr) hk)

end Sound

/-- A scratch area that ends four bytes below the top of the address space. -/
def topMstate : DtraceMstate := ⟨0xfffffffffffffff0#64, 12#64⟩

/-- A scratch area of 256 bytes. -/
def lowMstate : DtraceMstate := ⟨0x1000#64, 0x100#64⟩

/-- No variables. -/
def noVars : DtraceVstate := ⟨0#64, 0#64, [none], []⟩

/-- A `copys` of `2 ^ 64 - 1` bytes passes the check for a scratch area of 256 bytes, and a `stx`
across the end of an area near the top of the address space is carried out. -/
theorem dtraceCanstore_wraps :
    (dtraceCanstore 0x1000#64 0xffffffffffffffff#64 lowMstate noVars = true ∧
      ¬ ∃ r ∈ dtraceRegions lowMstate noVars, r.Contains 0x1000#64 0xffffffffffffffff#64) ∧
    ∃ m', difStore (fun _ => false) true topMstate noVars .stx 0x55#64 0#64 0xfffffffffffffff8#64
        (fun _ => 0#8) = .ok m' ∧
      m' 0xffffffffffffffff#64 ≠ 0#8 ∧
      ∀ r ∈ dtraceRegions topMstate noVars, ¬ r.Covers 0xffffffffffffffff#64 := by
  refine ⟨by decide, _, rfl, by decide, by decide⟩

/-- A store of eight bytes to the scratch area of 256 bytes. -/
theorem dtraceCanstore_sound_low :
    dtraceCanstore 0x1010#64 8#64 lowMstate noVars = true ∧
      ∃ r ∈ dtraceRegions lowMstate noVars, r.Contains 0x1010#64 8#64 := by
  have hlimits : ∀ r ∈ dtraceRegions lowMstate noVars, r.limit ≤ 2 ^ 64 := by decide
  have hcan : dtraceCanstore 0x1010#64 8#64 lowMstate noVars = true := by decide
  exact ⟨hcan, ((dtraceCanstore_sound_iff hlimits).1 0x1010#64 8#64).mpr (.inl (by decide)) hcan⟩

end Polaris
