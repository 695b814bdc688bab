import Polaris.RangeLock.Exclusion

/-!
# Waiting for range locks

A caller that waits leaves a mark on a node, and is woken when the node goes.  Readers stay away
from nodes that a writer waits for, and wait themselves only for such nodes and for writers; so a
node with a mark is never cut or replaced by a proxy, and only the release that takes it out of the
tree makes it go.

## Main definitions

* `Rl.Stays` — a node is still the same `rl_t`.
* `zfsRangeUnlockBroadcasts` — the callers that a release wakes.
-/

namespace Polaris

open Function List Option

/-- The condition variables of a node, `r_wr_cv` and `r_rd_cv`. -/
inductive RlCv where
  | wr
  | rd
  deriving DecidableEq, Repr

/-- Somebody waits on the condition variable: `r_write_wanted` and `r_read_wanted`. -/
def Rl.wanted (rl : Rl) : RlCv → Bool
  | .wr => rl.rWriteWanted
  | .rd => rl.rReadWanted

/-- The node is the same `rl_t` later: no mark is lost, and only the count may be another one. -/
structure Rl.Stays (rl rl' : Rl) : Prop where
  off : rl'.rOff = rl.rOff
  len : rl'.rLen = rl.rLen
  type : rl'.rType = rl.rType
  owner : rl'.rOwner = rl.rOwner
  wanted : ∀ cv, rl.wanted cv = true → rl'.wanted cv = true

/-- The nodes that the loop of `zfs_range_unlock_reader` takes out of the tree. -/
def unlockReaderRemoved : ℕ → List Rl → List Rl
  | _, [] => []
  | len, rl :: rest =>
    if len = 0 then []
    else (if rl.rCnt - 1 = 0 then [rl] else []) ++ unlockReaderRemoved (u64Sub len rl.rLen) rest

/-- The nodes that `zfs_range_unlock` takes out of the tree. -/
def zfsRangeUnlockRemoved (s : RangeState) (h : ℕ) (rl : HeldRange) : List Rl :=
  if rl.writer ∨ s.cnt h = 1 then s.tree.filter (·.rOwner = some h)
  else unlockReaderRemoved rl.len (rlAfter s.tree rl.off)

/-- The `cv_broadcast`s of `zfs_range_unlock`: one for each mark on a node that is taken out. -/
def zfsRangeUnlockBroadcasts (s : RangeState) (h : ℕ) (rl : HeldRange) : List (Rl × RlCv) :=
  (zfsRangeUnlockRemoved s h rl).flatMap fun e => ([.wr, .rd].filter e.wanted).map (e, ·)

theorem Rl.Stays.refl (rl : Rl) : rl.Stays rl :=
  ⟨rfl, rfl, rfl, rfl, fun _ h => h⟩

theorem Rl.Ok.excludes_of_wanted {rl : Rl} (h : rl.Ok) {cv : RlCv} (hw : rl.wanted cv = true) :
    rl.excludes = true := by
  cases cv with
  | wr => exact decide_eq_true (.inr hw)
  | rd => exact h.marked hw

theorem mem_broadcasts {s : RangeState} {h : ℕ} {r : HeldRange} {e : Rl} {cv : RlCv}
    (he : e ∈ zfsRangeUnlockRemoved s h r) (hw : e.wanted cv = true) :
    (e, cv) ∈ zfsRangeUnlockBroadcasts s h r := by
  refine mem_flatMap.mpr ⟨e, he, mem_map_of_mem (mem_filter.mpr ⟨?_, hw⟩)⟩
  cases cv <;> simp

/-! ## Nodes that stay -/

variable {e : Rl} {tree rest out : List Rl} {cnt : ℕ → ℕ} {off len : ℕ}

/-- A node off the range of a new reader is left alone. -/
theorem ReaderAdd.mem_of_apart {p q : ℕ} {cnt' : ℕ → ℕ} (h : ReaderAdd q p rest cnt out cnt')
    (he : e ∈ rest) (hpos : 0 < e.rLen) (hapart : e.rOff + e.rLen ≤ p ∨ q ≤ e.rOff) : e ∈ out := by
  induction h with
  | skip _ _ ih =>
    rcases mem_cons.mp he with rfl | he
    · exact mem_cons_self
    · exact mem_cons_of_mem _ (ih he hapart)
  | cut _ hoff hend _ _ hrest ih =>
    have := hrest.le
    rcases mem_cons.mp he with rfl | he
    · omega
    · exact mem_cons_of_mem _ (ih (mem_cons_of_mem _ he) hapart)
  | done => exact he
  | gap hpr _ hle _ _ ih =>
    have := hle e he
    exact mem_cons_of_mem _ (ih he (by omega))
  | node _ hoff hend _ _ ih =>
    rcases mem_cons.mp he with rfl | he
    · omega
    · exact mem_cons_of_mem _ (ih he (by omega))
  | split _ hoff hpq hend =>
    rcases mem_cons.mp he with rfl | he
    · omega
    · exact mem_cons_of_mem _ (mem_cons_of_mem _ he)

/-- The tree after a try. -/
def LockTry.newTree : LockTry → List Rl
  | .got _ _ tree _ => tree
  | .wait tree => tree

theorem RangeState.afterTry_tree (s : RangeState) (h : ℕ) (req : RangeRequest) (t : LockTry) :
    (s.afterTry h req t).tree = t.newTree := by
  cases t <;> rfl

/-- The marked nodes of a tree are in another one. -/
def Keeps (tree tree' : List Rl) : Prop :=
  ∀ e ∈ tree, ∀ cv, e.wanted cv = true → ∃ e' ∈ tree', e.Stays e'

/-- A lock in a range that is free. -/
theorem Keeps.insert (tree : List Rl) (h off len : ℕ) (type : RlType) :
    Keeps tree (rlBefore tree off ++ newRl h off len type :: rlAfter tree off) :=
  fun e he _ _ => ⟨e, mem_insert.mpr (.inr he), .refl e⟩

/-- A mark is set on some nodes. -/
theorem Keeps.map {f : Rl → Rl} (hstays : ∀ e : Rl, e.Stays (f e)) : Keeps tree (tree.map f) :=
  fun e he _ _ => ⟨f e, mem_map_of_mem he, hstays e⟩

theorem keeps_zfsRangeLockWriter (zp : ZnodeSize) (h : ℕ) (req : RangeRequest) :
    Keeps tree (zfsRangeLockWriter zp tree cnt h req).newTree := by
  simp only [zfsRangeLockWriter]
  split
  next hempty =>
    rw [List.isEmpty_iff.mp hempty]
    exact Keeps.insert [] _ _ _ _
  next =>
    split
    next rl _ =>
      refine Keeps.map fun e => ?_
      split
      · exact ⟨rfl, rfl, rfl, rfl, fun cv h => by cases cv <;> first | rfl | exact h⟩
      · exact .refl e
    next => exact Keeps.insert tree _ _ _ _

theorem keeps_zfsRangeLockReader (hs : RlSorted tree) {t : LockTry} {h : ℕ} (hlen : 0 < len)
    (hfits : off + len < 2 ^ 64) (hrun : zfsRangeLockReader tree cnt h off len = some t) :
    Keeps tree t.newTree := by
  rw [zfsRangeLockReader] at hrun
  cases hconflict : readerConflict tree off len with
  | some rl =>
    rw [hconflict] at hrun
    cases hrun
    refine Keeps.map fun e => ?_
    split
    · exact ⟨rfl, rfl, rfl, rfl, fun cv h => by cases cv <;> first | rfl | exact h⟩
    · exact .refl e
  | none =>
    rw [hconflict] at hrun
    obtain ⟨⟨tree', cnt'⟩, hadd, rfl⟩ := map_eq_some_iff.mp hrun
    have hexcl (e) (he : e ∈ tree) := not_excludes_of_readerConflict hs hfits hconflict he
    refine fun e he cv hw => ⟨e, ?_, .refl e⟩
    obtain ⟨_, _, hrun', hspec⟩ := zfsRangeAddReader_spec hs cnt (h := h) hlen hfits
      fun e he hoff hlt => reader_of_excludes hs he (hexcl e he hoff hlt)
    cases hadd.symm.trans hrun'
    rcases hspec with ⟨-, -, rfl⟩ | hspec
    · exact mem_insert.mpr (.inr he)
    · -- a node with a mark keeps readers out, so it is off the range that was granted
      refine hspec.mem_of_apart he (hs.ok e he).pos ?_
      by_contra hover
      have := hexcl e he (by omega) (by omega)
      rw [(hs.ok e he).excludes_of_wanted hw] at this
      cases this

/-! ## Releases -/

/-- A node is taken out of the tree or stays. -/
theorem unlockReaderLoop_stays (hrun : unlockReaderLoop len rest = some out) (he : e ∈ rest) :
    (∃ e' ∈ out, e.Stays e') ∨ e ∈ unlockReaderRemoved len rest := by
  induction rest generalizing len out with
  | nil => exact absurd he not_mem_nil
  | cons next rest ih =>
    rw [unlockReaderLoop] at hrun
    rw [unlockReaderRemoved]
    split_ifs at hrun ⊢
    · cases hrun
      exact .inl ⟨e, he, .refl e⟩
    all_goals
      obtain ⟨more, hmore, rfl⟩ := map_eq_some_iff.mp hrun
      rcases mem_cons.mp he with rfl | he
    · exact .inr mem_cons_self
    · exact (ih hmore he).imp_right (mem_cons_of_mem _)
    · exact .inl ⟨_, mem_cons_self, rfl, rfl, rfl, rfl, fun cv h => by cases cv <;> exact h⟩
    · refine (ih hmore he).imp_left fun hkept => ?_
      obtain ⟨e', he', hstays⟩ := hkept
      exact ⟨e', mem_cons_of_mem _ he', hstays⟩

theorem zfsRangeUnlock_stays {s s' : RangeState} {h : ℕ} {r : HeldRange}
    (hrun : zfsRangeUnlock s h r = some s') (he : e ∈ s.tree) :
    (∃ e' ∈ s'.tree, e.Stays e') ∨ e ∈ zfsRangeUnlockRemoved s h r := by
  have hown : (∃ e' ∈ removeOwn s.tree h, e.Stays e') ∨ e ∈ s.tree.filter (·.rOwner = some h) := by
    by_cases ho : e.rOwner = some h
    · exact .inr (mem_filter.mpr ⟨he, decide_eq_true ho⟩)
    · exact .inl ⟨e, mem_filter.mpr ⟨he, decide_eq_true ho⟩, .refl e⟩
  simp only [zfsRangeUnlock, zfsRangeUnlockReader] at hrun
  rw [zfsRangeUnlockRemoved]
  split_ifs at hrun with hw hcnt hfind
  · cases hrun
    rwa [if_pos (.inl hw)]
  · cases hrun
    rwa [if_pos (.inr hcnt)]
  · rw [if_neg (by tauto)]
    obtain ⟨tree, htree, rfl⟩ := map_eq_some_iff.mp hrun
    obtain ⟨out, hout, rfl⟩ := map_eq_some_iff.mp htree
    rw [← rlBefore_append_rlAfter s.tree r.off, mem_append] at he
    rcases he with he | he
    · exact .inl ⟨e, mem_append_left _ he, .refl e⟩
    · refine (unlockReaderLoop_stays hout he).imp_left fun hkept => ?_
      obtain ⟨e', he', hstays⟩ := hkept
      exact ⟨e', mem_append_right _ he', hstays⟩
  · cases hrun

/-! ## Every interleaving -/

/-- What a step does to the marked nodes: each stays, or a release takes it out and wakes those that
wait for it. -/
def RangeState.Wakes (s s' : RangeState) : Prop :=
  ∀ e ∈ s.tree, ∀ cv, e.wanted cv = true → (∃ e' ∈ s'.tree, e.Stays e') ∨
    ∃ h r, s.held h = some r ∧ zfsRangeUnlock s h r = some s' ∧
      (e, cv) ∈ zfsRangeUnlockBroadcasts s h r

theorem Keeps.wakes {s s' : RangeState} (h : Keeps s.tree s'.tree) : s.Wakes s' :=
  fun e he cv hw => .inl (h e he cv hw)

theorem RangeInv.wakes {s s' : RangeState} (inv : RangeInv s) (hstep : RangeStep s s') :
    s.Wakes s' := by
  have hreader {cnt : ℕ → ℕ} {zp : ZnodeSize} {h : ℕ} {req : RangeRequest} (hfits : req.Fits zp)
      (htype : req.type = .reader) (hrun : (zfsRangeLockReader s.tree cnt h req.off req.len).map
        ({ s with cnt := cnt }.afterTry h req) = some s') : Keeps s.tree s'.tree := by
    obtain ⟨t, ht, rfl⟩ := map_eq_some_iff.mp hrun
    obtain ⟨hlen, -, hend⟩ := hfits
    rw [if_neg (by simp [htype])] at hend
    rw [RangeState.afterTry_tree]
    exact keeps_zfsRangeLockReader inv.sorted hlen hend ht
  have hwriter {cnt : ℕ → ℕ} {zp : ZnodeSize} {h : ℕ} {req : RangeRequest}
      (hrun : some ({ s with cnt := cnt }.afterTry h req (zfsRangeLockWriter zp s.tree cnt h req))
        = some s') : Keeps s.tree s'.tree := by
    cases hrun
    rw [RangeState.afterTry_tree]
    exact keeps_zfsRangeLockWriter zp h req
  cases hstep with
  | lock zp h req hheld _ hfits hrun =>
    simp only [zfsRangeLock] at hrun
    split_ifs at hrun with htype hempty
    · cases hrun
      refine Keeps.wakes ?_
      rw [List.isEmpty_iff.mp hempty]
      exact Keeps.insert [] _ _ _ _
    · exact (hreader hfits htype hrun).wakes
    · exact (hwriter hrun).wakes
  | wake zp h req hwaiting hfits hrun =>
    rw [zfsRangeWake] at hrun
    split_ifs at hrun with htype
    · exact (hreader hfits htype hrun).wakes
    · exact (hwriter hrun).wakes
  | unlock h r hheld hrun =>
    refine fun e he cv hw => (zfsRangeUnlock_stays hrun he).imp_right fun hgone => ?_
    exact ⟨h, r, hheld, hrun, mem_broadcasts hgone hw⟩

/-- **The nodes of the locks.**  The nodes are apart.  A range that is held for reading is made up
of nodes, each with the number of readers of its bytes, and one that is held for writing is a node.
A node that somebody waits for stays, up to its count, until a release takes it out of the tree and
wakes them; and nothing is left in the tree when all locks are released. -/
theorem zfsRangeLock_tiled {s : RangeState} (hreach : RangeReach s) :
    (s.tree.Pairwise fun a b => a.rOff + a.rLen ≤ b.rOff) ∧
    (∀ h r, s.held h = some r → r.writer = false → ∀ x, r.Has x → ∃ e ∈ s.tree, e.Has x ∧
      e.rType = .reader ∧ r.off ≤ e.rOff ∧ e.rOff + e.rLen ≤ r.off + r.len ∧
      ∀ y, e.Has y → e.rCnt = (holdersAt s.held y).ncard) ∧
    (∀ h r, s.held h = some r → r.writer = true → ∃ e ∈ s.tree, e.rOwner = some h ∧
      e.rType = .writer ∧ e.rOff = r.off ∧ e.rLen = r.len) ∧
    (∀ s', RangeStep s s' → s.Wakes s') ∧
    ((∀ h, s.held h = none) → s.tree = []) := by
  have inv := hreach.inv
  refine ⟨inv.sorted.order, fun h r hr hw x hx => ?_, fun h r hr hw => ?_,
    fun s' hstep => inv.wakes hstep, fun hnone => ?_⟩
  · obtain ⟨e, he, htype, hex⟩ := exists_of_readersAt_pos (inv.readersAt_pos hr hw hx)
    have hcut := inv.cut h r hr hw e he htype
    have hx1 := hx.1
    have hx2 := hx.2
    have he1 := hex.1
    have he2 := hex.2
    refine ⟨e, he, hex, htype, by omega, by omega, fun y hy => ?_⟩
    rw [← inv.counts, inv.sorted.readersAt_eq he hy, if_pos htype]
  · obtain ⟨e, he, hown, htype, hrange⟩ := inv.own_node hr (.inl hw)
    rw [hw, decide_eq_true_iff] at htype
    exact ⟨e, he, hown, htype, hrange⟩
  · refine eq_nil_iff_forall_not_mem.mpr fun e he => ?_
    have hpos := (inv.sorted.ok e he).pos
    obtain ⟨h, r, hr, -⟩ := inv.exists_held he (x := e.rOff) ⟨le_rfl, by omega⟩
    rw [hnone h] at hr
    cases hr

/-- Two readers share the bytes from 5 to 10, and a writer waits for them. -/
theorem zfsRangeLock_tiled_waiting : ∃ s, RangeReach s ∧ s.held 0 = some ⟨0, 10, false⟩ ∧
    s.held 1 = some ⟨5, 10, false⟩ ∧ s.waiting 2 = some ⟨5, 5, .writer⟩ ∧
    (∃ e ∈ s.tree, e.wanted .wr = true) ∧
    (∃ e ∈ s.tree, e.Has 7 ∧ e.rCnt = (holdersAt s.held 7).ncard) ∧
    ∀ s', RangeStep s s' → s.Wakes s' := by
  have hreach₀ := RangeReach.step .init
    (.lock ⟨40, 64, 64⟩ 0 ⟨0, 10, .reader⟩ rfl rfl ⟨by decide, by decide, by decide⟩ rfl)
  have hreach₁ := RangeReach.step hreach₀
    (.lock ⟨40, 64, 64⟩ 1 ⟨5, 10, .reader⟩ rfl rfl ⟨by decide, by decide, by decide⟩ rfl)
  have hreach₂ := RangeReach.step hreach₁
    (.lock ⟨40, 64, 64⟩ 2 ⟨5, 5, .writer⟩ rfl rfl ⟨by decide, by decide, by decide⟩ rfl)
  obtain ⟨-, hreaders, -, hwakes, -⟩ := zfsRangeLock_tiled hreach₂
  obtain ⟨e, he, hx, -, -, -, hcnt⟩ := hreaders 0 ⟨0, 10, false⟩ rfl rfl 7 ⟨by decide, by decide⟩
  exact ⟨_, hreach₂, rfl, rfl, rfl, ⟨_, mem_cons_of_mem _ mem_cons_self, rfl⟩,
    ⟨e, he, hx, hcnt 7 hx⟩, hwakes⟩

end Polaris
