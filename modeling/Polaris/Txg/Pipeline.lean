import Polaris.Txg.Basic

/-!
# The pipeline of transaction groups

The invariant of every interleaving.  A per-CPU lock is held by one handle at most, or by the
quiesce thread; the counts are the numbers of holds; a hold is on the open group, or on the one
that is being drained, at a CPU that the quiesce thread has not passed.  The groups that are open,
quiescing or quiesced follow the last one that was passed to `spa_sync`.

## Main results

* `TxgInv.step` : one step of any thread
* `txg_pipeline` : every interleaving
-/

namespace Polaris

open Multiset Function

namespace TxgHandle

/-- The handle has the lock of CPU `c`. -/
def locks (c : ℕ) (h : TxgHandle) : Bool :=
  h.phase ≠ .released && h.thCpu = c

/-- The handle is a hold. -/
def counted (h : TxgHandle) : Bool :=
  h.phase = .held || h.phase = .released

/-- The handle is a hold that is counted at CPU `c` in slot `g`. -/
def counts (c : ℕ) (g : Fin txgSize) (h : TxgHandle) : Bool :=
  h.counted && h.thCpu = c && txgSlot h.thTxg = g

end TxgHandle

/-- How many handles have the lock of CPU `c`. -/
def lockers (c : ℕ) (l : Multiset TxgHandle) : ℕ :=
  l.countP (·.locks c)

/-- How many handles are counted at CPU `c` in slot `g`. -/
def holders (c : ℕ) (g : Fin txgSize) (l : Multiset TxgHandle) : ℕ :=
  l.countP (·.counts c g)

theorem lockers_cons (c : ℕ) (h : TxgHandle) (l : Multiset TxgHandle) :
    lockers c (h ::ₘ l) = lockers c l + (h.locks c).toNat := by
  rw [lockers, countP_cons, lockers]
  cases h.locks c <;> rfl

theorem holders_cons (c : ℕ) (g : Fin txgSize) (h : TxgHandle) (l : Multiset TxgHandle) :
    holders c g (h ::ₘ l) = holders c g l + (h.counts c g).toNat := by
  rw [holders, countP_cons, holders]
  cases h.counts c g <;> rfl

/-- Where a hold is counted. -/
theorem counts_eq {h : TxgHandle} (hcounted : h.counted) {c : ℕ} {g : Fin txgSize} :
    h.counts c g = decide (c = h.thCpu ∧ g = txgSlot h.thTxg) := by
  simp [TxgHandle.counts, hcounted, eq_comm]

namespace TxState

variable (tx : TxState) (c c' : ℕ)

theorem setLock_tcLock (b : Bool) :
    ((tx.setLock c b).txCpu c').tcLock = if c' = c then b else (tx.txCpu c').tcLock := by
  simp only [setLock, update_apply]
  split <;> rfl

theorem setLock_tcCount (b : Bool) : ((tx.setLock c b).txCpu c').tcCount
    = (tx.txCpu c').tcCount := by
  simp only [setLock, update_apply]
  split
  next h => rw [h]
  next => rfl

theorem setCount_tcLock (txg n : ℕ) : ((tx.setCount c txg n).txCpu c').tcLock
    = (tx.txCpu c').tcLock := by
  simp only [setCount, update_apply]
  split
  next h => rw [h]
  next => rfl

theorem setCount_tcCount (txg n : ℕ) (g : Fin txgSize) :
    ((tx.setCount c txg n).txCpu c').tcCount g
      = if c' = c ∧ g = txgSlot txg then n else (tx.txCpu c').tcCount g := by
  simp only [setCount, update_apply]
  by_cases hc : c' = c
  · simp only [hc, if_true, true_and, update_apply]
  · rw [if_neg hc, if_neg fun h => hc h.1]

end TxState

namespace QuiescePc

/-- The quiesce thread has the lock of CPU `c`. -/
def locks (maxNcpus c : ℕ) : QuiescePc → Bool
  | lock _ k => c < k
  | unlock _ k => k ≤ c && c < maxNcpus
  | _ => false

/-- Group `txg` is being drained, and CPU `c` has not been passed. -/
def drains (txg c : ℕ) : QuiescePc → Bool
  | unlock t _ => t = txg
  | drain t k => t = txg && k ≤ c
  | _ => false

/-- The group that is being quiesced. -/
def quiescing : QuiescePc → List ℕ
  | lock t _ | unlock t _ | drain t _ => [t]
  | _ => []

end QuiescePc

open QuiescePc

/-- The groups that are being quiesced or are quiesced and not yet taken by the sync thread. -/
def TxgSystem.waiting (s : TxgSystem) : List ℕ :=
  s.quiescePc.quiescing ++ if s.tx.txQuiescedTxg = 0 then [] else [s.tx.txQuiescedTxg]

/-- Where the quiesce thread is, when `next` is the next group to sync. -/
def QuiescePc.Stage (next opened quiesced maxNcpus : ℕ) : QuiescePc → Prop
  | .wait | .exited => quiesced = 0 ∧ opened = next ∨ quiesced = next ∧ opened = next + 1
  | .lock txg c => txg = next ∧ opened = next ∧ quiesced = 0 ∧ c ≤ maxNcpus
  | .unlock txg _ | .drain txg _ => txg = next ∧ opened = next + 1 ∧ quiesced = 0

/-- Where the sync thread is. -/
def SyncPc.Stage (next : ℕ) (called returned : List ℕ) : SyncPc → Prop
  | .spaSync txg => next = txg + 1 ∧ called = returned ++ [txg]
  | _ => called = returned

/-- The invariant. -/
structure TxgInv (maxNcpus txg : ℕ) (s : TxgSystem) : Prop where
  pos : 0 < txg
  cpu : ∀ h ∈ s.handles, h.thCpu < maxNcpus
  lock : ∀ c, lockers c s.handles + (s.quiescePc.locks maxNcpus c).toNat
    = (s.tx.txCpu c).tcLock.toNat
  count : ∀ c g, (s.tx.txCpu c).tcCount g = holders c g s.handles
  loaded : ∀ h ∈ s.handles, h.phase = .loaded → h.thTxg = s.tx.txOpenTxg
  holds : ∀ h ∈ s.handles, h.counted → h.thTxg = s.tx.txOpenTxg ∨
    h.thTxg + 1 = s.tx.txOpenTxg ∧ s.quiescePc.drains h.thTxg h.thCpu
  called : s.called = List.range' txg s.called.length
  quiesce : s.quiescePc.Stage (txg + s.called.length) s.tx.txOpenTxg s.tx.txQuiescedTxg maxNcpus
  sync : s.syncPc.Stage (txg + s.called.length) s.called s.returned

variable {c t : ℕ} {rest : Multiset TxgHandle} {hd : TxgHandle}

namespace TxgInv

variable {maxNcpus txg : ℕ} {s s' : TxgSystem}

theorem init (maxNcpus : ℕ) (hpos : 0 < txg) : TxgInv maxNcpus txg (.init txg) where
  pos := hpos
  cpu := fun h hh => absurd hh (notMem_zero h)
  lock := fun _ => rfl
  count := fun _ _ => rfl
  loaded := fun h hh => absurd hh (notMem_zero h)
  holds := fun h hh => absurd hh (notMem_zero h)
  called := rfl
  quiesce := .inl ⟨rfl, rfl⟩
  sync := rfl

section

variable (h : TxgInv maxNcpus txg s)

include h

/-- Nothing but the handles and the data of the CPUs changes. -/
theorem of_handles {new : Multiset TxgHandle} {tx : TxState}
    (hlock : ∀ c, lockers c new + (s.quiescePc.locks maxNcpus c).toNat = (tx.txCpu c).tcLock.toNat)
    (hcount : ∀ c g, (tx.txCpu c).tcCount g = holders c g new)
    (hnew : ∀ hd ∈ new, hd ∈ s.handles ∨ hd.thCpu < maxNcpus ∧
      (hd.phase = .loaded → hd.thTxg = s.tx.txOpenTxg) ∧ (hd.counted → hd.thTxg = s.tx.txOpenTxg ∨
        hd.thTxg + 1 = s.tx.txOpenTxg ∧ s.quiescePc.drains hd.thTxg hd.thCpu))
    (htx : { s.tx with txCpu := tx.txCpu } = tx := by rfl) :
    TxgInv maxNcpus txg { s with tx := tx, handles := new } := by
  rw [← htx] at hlock hcount ⊢
  exact { h with
    cpu := fun hd hmem => (hnew hd hmem).elim (h.cpu hd) (·.1)
    lock := hlock
    count := hcount
    loaded := fun hd hmem => (hnew hd hmem).elim (h.loaded hd) (·.2.1)
    holds := fun hd hmem => (hnew hd hmem).elim (h.holds hd) (·.2.2) }

theorem enter (hc : c < maxNcpus) (hfree : (s.tx.txCpu c).tcLock = false) :
    TxgInv maxNcpus txg
      { s with tx := s.tx.setLock c true, handles := ⟨.entered, c, 0⟩ ::ₘ s.handles } := by
  apply h.of_handles
  case hlock =>
    intro c'
    have hold := h.lock c'
    rw [lockers_cons, TxState.setLock_tcLock]
    by_cases hcc : c' = c
    · rw [hcc, hfree, Bool.toNat_false] at hold
      simp [TxgHandle.locks, hcc]
      omega
    · rw [if_neg hcc, ← hold]
      simp [TxgHandle.locks, Ne.symm hcc]
  case hcount =>
    intro c' g
    rw [holders_cons, TxState.setLock_tcCount, h.count]
    rfl
  case hnew => exact forall_mem_cons.mpr ⟨.inr ⟨hc, fun hph => (by cases hph),
    fun hph => by cases hph⟩, fun _ hmem => .inl hmem⟩

theorem load (hs : s.handles = ⟨.entered, c, t⟩ ::ₘ rest) :
    TxgInv maxNcpus txg { s with handles := ⟨.loaded, c, s.tx.txOpenTxg⟩ ::ₘ rest } := by
  have hc : c < maxNcpus := h.cpu ⟨.entered, c, t⟩ (hs ▸ mem_cons_self _ _)
  apply h.of_handles
  case hlock =>
    intro c'
    have hold := h.lock c'
    rw [hs, lockers_cons] at hold
    rwa [lockers_cons]
  case hcount =>
    intro c' g
    rw [h.count, hs, holders_cons, holders_cons]
    rfl
  case hnew => exact forall_mem_cons.mpr ⟨.inr ⟨hc, fun _ => rfl, fun _ => .inl rfl⟩, fun _ hmem =>
    .inl (hs ▸ mem_cons_of_mem hmem)⟩

theorem hold (hs : s.handles = ⟨.loaded, c, t⟩ ::ₘ rest) :
    TxgInv maxNcpus txg { s with
      tx := s.tx.setCount c t ((s.tx.txCpu c).tcCount (txgSlot t) + 1)
      handles := ⟨.held, c, t⟩ ::ₘ rest } := by
  have hmem : ⟨.loaded, c, t⟩ ∈ s.handles := hs ▸ mem_cons_self _ _
  have hc : c < maxNcpus := h.cpu _ hmem
  have hopen : t = s.tx.txOpenTxg := h.loaded _ hmem rfl
  apply h.of_handles
  case hlock =>
    intro c'
    have hold := h.lock c'
    rw [hs, lockers_cons] at hold
    rwa [lockers_cons, TxState.setCount_tcLock]
  case hcount =>
    intro c' g
    rw [TxState.setCount_tcCount, h.count, h.count, hs, holders_cons, holders_cons, holders_cons,
      @counts_eq ⟨.held, c, t⟩ rfl]
    split
    next hcg => simp [TxgHandle.counts, TxgHandle.counted, hcg]
    next hcg => simp [TxgHandle.counts, TxgHandle.counted, hcg]
  case hnew => exact forall_mem_cons.mpr ⟨.inr ⟨hc, fun hph => (by cases hph), fun _ => .inl hopen⟩,
    fun _ hmem => .inl (hs ▸ mem_cons_of_mem hmem)⟩

theorem releToQuiesce (hs : s.handles = ⟨.held, c, t⟩ ::ₘ rest) :
    TxgInv maxNcpus txg
      { s with tx := s.tx.setLock c false, handles := ⟨.released, c, t⟩ ::ₘ rest } := by
  have hmem : ⟨.held, c, t⟩ ∈ s.handles := hs ▸ mem_cons_self _ _
  have hc : c < maxNcpus := h.cpu _ hmem
  have hholds := h.holds _ hmem rfl
  apply h.of_handles
  case hlock =>
    intro c'
    have hold := h.lock c'
    rw [hs, lockers_cons] at hold
    rw [lockers_cons, TxState.setLock_tcLock]
    by_cases hcc : c' = c
    · have hbit := Bool.toNat_le (s.tx.txCpu c).tcLock
      rw [hcc] at hold ⊢
      rw [if_pos rfl]
      simp only [TxgHandle.locks, ne_eq, reduceCtorEq, not_false_eq_true, decide_true,
        Bool.and_self,
        Bool.toNat_true, not_true_eq_false, decide_false, Bool.false_and,
        Bool.toNat_false] at hold ⊢
      omega
    · rw [if_neg hcc, ← hold]
      simp [TxgHandle.locks, Ne.symm hcc]
  case hcount =>
    intro c' g
    rw [holders_cons, TxState.setLock_tcCount, h.count, hs, holders_cons]
    rfl
  case hnew => exact forall_mem_cons.mpr ⟨.inr ⟨hc, fun hph => (by cases hph), fun _ => hholds⟩,
    fun _ hmem => .inl (hs ▸ mem_cons_of_mem hmem)⟩

theorem releToSync (hs : s.handles = ⟨.released, c, t⟩ ::ₘ rest) :
    TxgInv maxNcpus txg { s with
      tx := s.tx.setCount c t ((s.tx.txCpu c).tcCount (txgSlot t) - 1)
      handles := rest } := by
  apply h.of_handles
  case hlock =>
    intro c'
    have hold := h.lock c'
    rw [hs, lockers_cons] at hold
    rwa [TxState.setCount_tcLock]
  case hcount =>
    intro c' g
    rw [TxState.setCount_tcCount, h.count, h.count, hs, holders_cons, holders_cons, counts_eq rfl,
      counts_eq rfl]
    split
    next hcg => simp [hcg]
    next hcg => simp [hcg]
  case hnew => exact fun hd hmem => .inl (hs ▸ mem_cons_of_mem hmem)

/-- No hold is lost: what `txg_rele_to_sync` asserts. -/
theorem count_ne_zero (hmem : hd ∈ s.handles) (hcounted : hd.counted) :
    (s.tx.txCpu hd.thCpu).tcCount (txgSlot hd.thTxg) ≠ 0 := by
  rw [h.count, holders, ← Nat.pos_iff_ne_zero, countP_pos]
  exact ⟨hd, hmem, by simp [TxgHandle.counts, hcounted]⟩

/-- While the quiesce thread has the lock of a CPU, no handle has. -/
theorem not_locks (hq : s.quiescePc.locks maxNcpus c)
    (hmem : hd ∈ s.handles) (hc : hd.thCpu = c) : hd.phase = .released := by
  by_contra hph
  have hpos : 0 < lockers c s.handles :=
    countP_pos.mpr ⟨hd, hmem, by simp [TxgHandle.locks, hph, hc]⟩
  have hlock := h.lock c
  have hbit := Bool.toNat_le (s.tx.txCpu c).tcLock
  rw [hq, Bool.toNat_true] at hlock
  omega

/-- A step of the quiesce thread that changes no more than its place. -/
theorem quiesce_move {pc : QuiescePc}
    (hlocks : ∀ c, pc.locks maxNcpus c = s.quiescePc.locks maxNcpus c)
    (hdrains : ∀ hd ∈ s.handles, hd.counted → hd.thTxg + 1 = s.tx.txOpenTxg →
      s.quiescePc.drains hd.thTxg hd.thCpu → pc.drains hd.thTxg hd.thCpu)
    (hstage : pc.Stage (txg + s.called.length) s.tx.txOpenTxg s.tx.txQuiescedTxg maxNcpus) :
    TxgInv maxNcpus txg { s with quiescePc := pc } :=
  { h with
    lock := fun c => by rw [hlocks]; exact h.lock c
    holds := fun hd hmem hc => (h.holds hd hmem hc).imp_right fun ho =>
      ⟨ho.1, hdrains hd hmem hc ho.1 ho.2⟩
    quiesce := hstage }

/-- The quiesce thread takes or drops the lock of CPU `c`. -/
theorem quiesce_lock {b : Bool} {pc : QuiescePc}
    (hother : ∀ c', c' ≠ c → pc.locks maxNcpus c' = s.quiescePc.locks maxNcpus c')
    (hself : lockers c s.handles = 0 ∧ pc.locks maxNcpus c = b)
    (hdrains : ∀ t c, s.quiescePc.drains t c → pc.drains t c)
    (hstage : pc.Stage (txg + s.called.length) s.tx.txOpenTxg s.tx.txQuiescedTxg maxNcpus) :
    TxgInv maxNcpus txg { s with tx := s.tx.setLock c b, quiescePc := pc } :=
  { h with
    lock := fun c' => by
      rw [TxState.setLock_tcLock]
      split
      next hcc => rw [hcc, hself.1, hself.2, Nat.zero_add]
      next hcc => rw [hother c' hcc]; exact h.lock c'
    count := fun c' g => by rw [TxState.setLock_tcCount]; exact h.count c' g
    holds := fun hd hmem hc => (h.holds hd hmem hc).imp_right fun ho => ⟨ho.1, hdrains _ _ ho.2⟩
    quiesce := hstage }

/-- The quiesce thread has all the locks and advances the open group. -/
theorem quiesce_advance (hpc : s.quiescePc = .lock t c) (hc : ¬c < maxNcpus) :
    TxgInv maxNcpus txg { s with
      tx := { s.tx with txOpenTxg := s.tx.txOpenTxg + 1 }
      quiescePc := .unlock t 0 } := by
  have hstage := h.quiesce
  rw [hpc] at hstage
  obtain ⟨hnext, hopen, hquiesced, hle⟩ := hstage
  have hall (hd : TxgHandle) (hmem : hd ∈ s.handles) : hd.phase = .released := by
    have hcpu := h.cpu hd hmem
    apply h.not_locks _ hmem rfl
    rw [hpc]
    simp only [locks, decide_eq_true_eq]
    omega
  refine { h with
    lock := fun c' => ?_
    loaded := fun hd hmem hph => ?_
    holds := fun hd hmem hcounted => .inr ?_
    quiesce := ⟨hnext, by rw [hopen], hquiesced⟩ }
  · rw [← h.lock c', hpc]
    simp only [locks, Nat.zero_le, decide_true, Bool.true_and]
    rw [show c = maxNcpus by omega]
  · rw [hall hd hmem] at hph
    cases hph
  · rcases h.holds hd hmem hcounted with ho | ⟨-, hdrain⟩
    · simp only [drains, decide_eq_true_eq]
      omega
    · rw [hpc] at hdrain
      exact absurd hdrain Bool.false_ne_true

/-- The quiesce thread hands the group over. -/
theorem quiesce_handoff (hpc : s.quiescePc = .drain t c) (hc : ¬c < maxNcpus) :
    TxgInv maxNcpus txg { s with
      tx := { s.tx with txQuiescedTxg := t }
      quiescePc := .wait } := by
  have hstage := h.quiesce
  rw [hpc] at hstage
  obtain ⟨hnext, hopen, -⟩ := hstage
  refine { h with
    lock := fun c' => ?_, holds := fun hd hmem hcounted => ?_, quiesce := .inr ⟨hnext, hopen⟩ }
  · have hold := h.lock c'
    rwa [hpc] at hold
  · rcases h.holds hd hmem hcounted with ho | ⟨-, hdrain⟩
    · exact .inl ho
    · rw [hpc] at hdrain
      have hcpu := h.cpu hd hmem
      simp only [drains, Bool.and_eq_true, decide_eq_true_eq] at hdrain
      omega

/-- The quiesce thread takes one more lock. -/
theorem quiesce_take (hpc : s.quiescePc = .lock t c) (hc : c < maxNcpus)
    (hfree : (s.tx.txCpu c).tcLock = false) :
    TxgInv maxNcpus txg { s with tx := s.tx.setLock c true, quiescePc := .lock t (c + 1) } := by
  have hlock := h.lock c
  have hstage := h.quiesce
  rw [hfree, Bool.toNat_false] at hlock
  rw [hpc] at hstage
  apply h.quiesce_lock
  case hother =>
    intro c' hcc
    rw [hpc]
    simp only [locks, decide_eq_decide]
    omega
  case hself => exact ⟨by omega, by simp [locks]⟩
  case hdrains => rw [hpc]; exact fun _ _ hd => hd
  case hstage => exact ⟨hstage.1, hstage.2.1, hstage.2.2.1, hc⟩

/-- The quiesce thread drops one more lock. -/
theorem quiesce_drop (hpc : s.quiescePc = .unlock t c) (hc : c < maxNcpus) :
    TxgInv maxNcpus txg { s with tx := s.tx.setLock c false, quiescePc := .unlock t (c + 1) } := by
  have hlock := h.lock c
  have hbit := Bool.toNat_le (s.tx.txCpu c).tcLock
  have hstage := h.quiesce
  rw [hpc] at hstage hlock
  simp only [locks, le_refl, hc, decide_true, Bool.and_self, Bool.toNat_true] at hlock
  apply h.quiesce_lock
  case hother =>
    intro c' hcc
    rw [hpc]
    have hle : c + 1 ≤ c' ↔ c ≤ c' := by omega
    simp only [locks, hle]
  case hself => exact ⟨by omega, by simp [locks]⟩
  case hdrains => rw [hpc]; exact fun _ _ hd => hd
  case hstage => exact hstage

/-- The quiesce thread passes a CPU at which no thread holds the group. -/
theorem quiesce_pass (hpc : s.quiescePc = .drain t c)
    (hzero : (s.tx.txCpu c).tcCount (txgSlot t) = 0) :
    TxgInv maxNcpus txg { s with quiescePc := .drain t (c + 1) } := by
  have hstage := h.quiesce
  rw [hpc] at hstage
  apply h.quiesce_move
  case hlocks => rw [hpc]; exact fun _ => rfl
  case hdrains =>
    intro hd hmem hcounted _ hdrain
    rw [hpc] at hdrain
    simp only [drains, Bool.and_eq_true, decide_eq_true_eq] at hdrain ⊢
    obtain ⟨rfl, hle⟩ := hdrain
    have hne : hd.thCpu ≠ c := by
      rintro rfl
      exact h.count_ne_zero hmem hcounted hzero
    exact ⟨rfl, by omega⟩
  case hstage => exact hstage

/-- **The quiesce thread** keeps the invariant. -/
theorem quiesceStep (hstep : s.quiesceStep maxNcpus = some s') : TxgInv maxNcpus txg s' := by
  have hstage := h.quiesce
  rw [TxgSystem.quiesceStep] at hstep
  split at hstep
  next hpc =>
    rw [hpc] at hstage
    split_ifs at hstep with hwait hexit
    · cases hstep
      exact h
    · cases hstep
      exact h.quiesce_move (by rw [hpc]; exact fun _ => rfl)
        (by rw [hpc]; exact fun _ _ _ _ hd => hd)
        hstage
    · cases hstep
      apply h.quiesce_move
      · rw [hpc]
        exact fun _ => by simp [locks]
      · rw [hpc]
        exact fun _ _ _ _ hd => hd
      · simp only [Bool.and_eq_true, Bool.not_eq_true', Bool.or_eq_true, decide_eq_true_eq, not_and,
          not_or, not_not, Bool.not_eq_true] at hwait hexit
        have hquiesced := (hwait hexit).2
        have hopen : s.tx.txOpenTxg = txg + s.called.length := by
          have hpos := h.pos
          rcases hstage with ⟨-, ho⟩ | ⟨hq, ho⟩ <;> omega
        exact ⟨hopen, hopen, hquiesced, Nat.zero_le _⟩
  next t c hpc =>
    split_ifs at hstep with hc hlock
    · cases hstep
      exact h.quiesce_take hpc hc (Bool.not_eq_true _ ▸ hlock)
    · cases hstep
      exact h.quiesce_advance hpc hc
  next t c hpc =>
    rw [hpc] at hstage
    split_ifs at hstep with hc
    · cases hstep
      exact h.quiesce_drop hpc hc
    cases hstep
    apply h.quiesce_move
    · intro c'
      rw [hpc]
      simp only [locks, Bool.false_eq, Bool.and_eq_false_iff, decide_eq_false_iff_not]
      omega
    · intro hd _ _ _ hdrain
      rw [hpc] at hdrain
      simpa [drains] using hdrain
    · exact hstage
  next t c hpc =>
    split_ifs at hstep with hc hlock hcount
    · cases hstep
      exact h
    · cases hstep
      exact h.quiesce_pass hpc (not_not.mp hcount)
    · cases hstep
      exact h.quiesce_handoff hpc hc
  next => cases hstep

/-- A group waits for the sync thread: the quiesce thread is idle. -/
theorem quiesced (hne : s.tx.txQuiescedTxg ≠ 0) :
    s.tx.txQuiescedTxg = txg + s.called.length ∧ s.tx.txOpenTxg = txg + s.called.length + 1 ∧
      (s.quiescePc = .wait ∨ s.quiescePc = .exited) := by
  have hstage := h.quiesce
  cases hpc : s.quiescePc <;> rw [hpc] at hstage
  case wait =>
    obtain ⟨hq, ho⟩ := hstage.resolve_left fun h0 => hne h0.1
    exact ⟨hq, ho, .inl rfl⟩
  case exited =>
    obtain ⟨hq, ho⟩ := hstage.resolve_left fun h0 => hne h0.1
    exact ⟨hq, ho, .inr rfl⟩
  case lock => exact absurd hstage.2.2.1 hne
  case unlock => exact absurd hstage.2.2 hne
  case drain => exact absurd hstage.2.2 hne

/-- The sync thread takes the quiesced group. -/
theorem sync_take (hpc : s.called = s.returned) (hne : s.tx.txQuiescedTxg ≠ 0) :
    TxgInv maxNcpus txg { s with
      tx := { s.tx with txQuiescedTxg := 0, txSyncingTxg := s.tx.txQuiescedTxg }
      syncPc := .spaSync s.tx.txQuiescedTxg
      called := s.called ++ [s.tx.txQuiescedTxg] } := by
  obtain ⟨hnext, hopen, hidle⟩ := h.quiesced hne
  have hlen : (s.called ++ [s.tx.txQuiescedTxg]).length = s.called.length + 1 := by simp
  exact { h with
    called := by rw [hlen, List.range'_1_concat, ← h.called, hnext]
    quiesce := by
      rw [hlen]
      rcases hidle with hpc | hpc <;> rw [hpc] <;> exact .inl ⟨rfl, hopen⟩
    sync := ⟨by rw [hlen, hnext, Nat.add_assoc], by rw [hpc]⟩ }

/-- A step that changes neither the handles, the CPUs nor the places of the pipeline. -/
theorem of_same {tx : TxState} {pc : SyncPc} {returned : List ℕ}
    (hcpu : tx.txCpu = s.tx.txCpu) (hopen : tx.txOpenTxg = s.tx.txOpenTxg)
    (hquiesced : tx.txQuiescedTxg = s.tx.txQuiescedTxg)
    (hstage : pc.Stage (txg + s.called.length) s.called returned) :
    TxgInv maxNcpus txg { s with tx := tx, syncPc := pc, returned := returned } :=
  { h with
    lock := fun c => by rw [hcpu]; exact h.lock c
    count := fun c g => by rw [hcpu]; exact h.count c g
    loaded := fun hd hmem hph => by rw [hopen]; exact h.loaded hd hmem hph
    holds := fun hd hmem hc => by rw [hopen]; exact h.holds hd hmem hc
    quiesce := by rw [hopen, hquiesced]; exact h.quiesce
    sync := hstage }

theorem syncQuiesced (hpc : s.called = s.returned)
    (hstep : s.syncQuiesced = some s') : TxgInv maxNcpus txg s' := by
  rw [TxgSystem.syncQuiesced] at hstep
  by_cases hwait : (!s.tx.txExiting && s.tx.txQuiescedTxg = 0) = true
  · rw [if_pos hwait] at hstep
    cases hstep
    exact h.of_same rfl rfl rfl hpc
  rw [if_neg hwait] at hstep
  split_ifs at hstep with hexit hsuspend
  · cases hstep
    exact h.of_same rfl rfl rfl hpc
  cases hstep
  apply h.sync_take hpc
  intro h0
  simp only [Bool.not_eq_true] at hexit
  simp [hexit, h0] at hwait

/-- **The sync thread** keeps the invariant. -/
theorem syncStep (hstep : s.syncStep = some s') : TxgInv maxNcpus txg s' := by
  have hstage := h.sync
  rw [TxgSystem.syncStep] at hstep
  split at hstep
  next hpc =>
    rw [hpc] at hstage
    split_ifs at hstep with hwait
    · cases hstep
      exact h
    · exact h.syncQuiesced hstage hstep
  next hpc =>
    rw [hpc] at hstage
    exact h.syncQuiesced hstage hstep
  next t hpc =>
    rw [hpc] at hstage
    split_ifs at hstep
    cases hstep
    exact h.of_same rfl rfl rfl hstage.2
  next => cases hstep

/-- **One step** of any thread keeps the invariant. -/
theorem step (hstep : TxgStep maxNcpus s s') : TxgInv maxNcpus txg s' := by
  cases hstep with
  | enter hc hfree => exact h.enter hc hfree
  | load hs => exact h.load hs
  | hold hs => exact h.hold hs
  | releToQuiesce hs => exact h.releToQuiesce hs
  | releToSync hs _ => exact h.releToSync hs
  | quiesce hstep => exact h.quiesceStep hstep
  | sync hstep => exact h.syncStep hstep
  | waitSynced t => exact h.of_same rfl rfl rfl h.sync
  | waitOpen t => exact h.of_same rfl rfl rfl h.sync
  | suspend => exact h.of_same rfl rfl rfl h.sync
  | resume => exact h.of_same rfl rfl rfl h.sync
  | start hq hs =>
    have hstage := h.sync
    have hquiesce := h.quiesce
    rw [hs] at hstage
    rw [hq] at hquiesce
    have hmoved : TxgInv maxNcpus txg { s with quiescePc := .wait } :=
      h.quiesce_move (by rw [hq]; exact fun _ => rfl)
        (by rw [hq]; exact fun _ _ _ _ hd => hd) hquiesce
    exact hmoved.of_same rfl rfl rfl hstage
  | stop => exact h.of_same rfl rfl rfl h.sync
  | stopped _ _ => exact h.of_same rfl rfl rfl h.sync

/-- The open group is the next one to sync, or the one after it. -/
theorem opened : s.tx.txOpenTxg = txg + s.called.length ∨
    s.tx.txOpenTxg = txg + s.called.length + 1 := by
  have hstage := h.quiesce
  cases hpc : s.quiescePc <;> rw [hpc] at hstage
  case wait => exact hstage.imp And.right And.right
  case exited => exact hstage.imp And.right And.right
  case lock => exact .inl hstage.2.1
  case unlock => exact .inr hstage.2.1
  case drain => exact .inr hstage.2.1

/-- No thread holds a group that was passed to `spa_sync`. -/
theorem le_of_counted (hmem : hd ∈ s.handles) (hc : hd.counted) :
    txg + s.called.length ≤ hd.thTxg ∧ s.tx.txOpenTxg ≤ hd.thTxg + 1 ∧
      hd.thTxg ≤ s.tx.txOpenTxg := by
  have hopened := h.opened
  have hstage := h.quiesce
  rcases h.holds hd hmem hc with ho | ⟨ho, hdrain⟩
  · omega
  · cases hpc : s.quiescePc <;> rw [hpc] at hstage hdrain
    case unlock => exact ⟨by have := hstage.2.1; omega, by omega, by omega⟩
    case drain => exact ⟨by have := hstage.2.1; omega, by omega, by omega⟩
    all_goals exact absurd hdrain Bool.false_ne_true

/-- All groups but the last that was passed to `spa_sync` are synced. -/
theorem mem_returned (hle : txg ≤ t) (hlt : t + 1 < txg + s.called.length) : t ∈ s.returned := by
  have hmem : t ∈ s.called := by
    rw [h.called, List.mem_range'_1]
    omega
  have hstage := h.sync
  cases hpc : s.syncPc <;> rw [hpc] at hstage
  case spaSync u =>
    rw [hstage.2, List.mem_append, List.mem_singleton] at hmem
    exact hmem.resolve_right (by have := hstage.1; omega)
  all_goals exact hstage ▸ hmem

/-- One group at most is between the open one and the one that is synced. -/
theorem length_waiting : s.waiting.length ≤ 1 := by
  have hstage := h.quiesce
  rw [TxgSystem.waiting]
  cases hpc : s.quiescePc <;> rw [hpc] at hstage
  case lock => simp [quiescing, hstage.2.2.1]
  case unlock => simp [quiescing, hstage.2.2]
  case drain => simp [quiescing, hstage.2.2]
  all_goals
    simp only [quiescing, List.nil_append]
    split <;> simp

end

end TxgInv

/-- The invariant holds along every run. -/
theorem TxgReach.inv {maxNcpus txg : ℕ} (hpos : 0 < txg) {s : TxgSystem}
    (h : TxgReach maxNcpus txg s) : TxgInv maxNcpus txg s := by
  induction h with
  | init => exact .init maxNcpus hpos
  | step _ hstep ih => exact ih.step hstep

/-- **The pipeline**, in every interleaving.  The groups are passed to `spa_sync` one after the
other, from the first one on.  While `spa_sync` runs on a group, no thread holds it, the open group
is the next one or the one after it, and at most one group is being quiesced or waits, quiesced, to
be synced.  So a thread that gets a hold gets it on a group whose slot belongs to no group that is
still to be synced. -/
theorem txg_pipeline {maxNcpus txg : ℕ} (hpos : 0 < txg) {s : TxgSystem}
    (h : TxgReach maxNcpus txg s) :
    s.called = List.range' txg s.called.length ∧
    (∀ t, s.syncPc = .spaSync t → (∀ hd ∈ s.handles, hd.counted → hd.thTxg ≠ t) ∧
      (s.tx.txOpenTxg = t + 1 ∨ s.tx.txOpenTxg = t + 2) ∧ s.waiting.length ≤ 1) ∧
    ∀ hd ∈ s.handles, hd.counted ∨ hd.phase = .loaded → ∀ t, txg ≤ t → t ≠ hd.thTxg →
      t ≤ s.tx.txOpenTxg → txgSlot t = txgSlot hd.thTxg → t ∈ s.returned := by
  have hinv := h.inv hpos
  have hopened := hinv.opened
  refine ⟨hinv.called, fun t hpc => ?_, fun hd hmem hhold t hle hne hopen hslot => ?_⟩
  · have hstage := hinv.sync
    rw [hpc] at hstage
    have hnext := hstage.1
    refine ⟨fun hd hmem hc => ?_, by omega, hinv.length_waiting⟩
    have hheld := hinv.le_of_counted hmem hc
    omega
  · have hslot : t % 4 = hd.thTxg % 4 := congrArg Fin.val hslot
    have hheld : s.tx.txOpenTxg ≤ hd.thTxg + 1 ∧ hd.thTxg ≤ s.tx.txOpenTxg := by
      rcases hhold with hc | hph
      · exact (hinv.le_of_counted hmem hc).2
      · have ho := hinv.loaded hd hmem hph
        omega
    apply hinv.mem_returned hle
    omega

/-- One CPU: while group 4 is synced, a thread holds group 5. -/
theorem txgReach_hold : ∃ s, TxgReach 1 4 s ∧ s.syncPc = .spaSync 4 ∧
    s.handles = {⟨.held, 0, 5⟩} := by
  have hsync := ((TxgReach.init : TxgReach 1 4 _).step (.start rfl rfl)).step (.waitSynced 4)
  have hwait := hsync.step (.sync rfl)
  have hlock := (hwait.step (.quiesce rfl)).step (.quiesce rfl)
  have hunlock := (hlock.step (.quiesce rfl)).step (.quiesce rfl)
  have hdrain := (hunlock.step (.quiesce rfl)).step (.quiesce rfl)
  have hspa := (hdrain.step (.quiesce rfl)).step (.sync rfl)
  exact ⟨_, ((hspa.step (.enter Nat.zero_lt_one rfl)).step (.load rfl)).step (.hold rfl), rfl, rfl⟩

theorem txg_pipeline_hold : ∃ s, TxgReach 1 4 s ∧ s.syncPc = .spaSync 4 ∧
    ⟨.held, 0, 5⟩ ∈ s.handles ∧ s.called = List.range' 4 s.called.length ∧
      s.waiting.length ≤ 1 := by
  obtain ⟨s, hs, hpc, hhandles⟩ := txgReach_hold
  obtain ⟨hcalled, hsync, -⟩ := txg_pipeline (by decide) hs
  exact ⟨s, hs, hpc, hhandles ▸ mem_singleton_self _, hcalled, (hsync 4 hpc).2.2⟩

/-- The slot of the open group, or of the one before it, counts the holds on that group alone. -/
theorem txg_counts {maxNcpus txg : ℕ} (hpos : 0 < txg) {s : TxgSystem} (h : TxgReach maxNcpus txg s)
    (c t : ℕ) (hle : t ≤ s.tx.txOpenTxg) (hopen : s.tx.txOpenTxg ≤ t + 1) :
    (s.tx.txCpu c).tcCount (txgSlot t) =
      s.handles.countP fun hd => hd.counted ∧ hd.thCpu = c ∧ hd.thTxg = t := by
  have hinv := h.inv hpos
  rw [hinv.count, holders]
  refine countP_congr rfl fun hd hmem => ?_
  by_cases hc : hd.counted
  · have hheld := hinv.le_of_counted hmem hc
    have hslot : txgSlot hd.thTxg = txgSlot t ↔ hd.thTxg = t := by
      simp only [txgSlot, txgSize, Fin.mk.injEq]
      omega
    simp [TxgHandle.counts, hc, hslot]
  · simp [TxgHandle.counts, hc]

theorem txg_counts_hold : ∃ s, TxgReach 1 4 s ∧ (s.tx.txCpu 0).tcCount (txgSlot 5) = 1 := by
  obtain ⟨s, hs, -, hhandles⟩ := txgReach_hold
  have hheld := (hs.inv (by decide)).le_of_counted (hhandles ▸ mem_singleton_self _) rfl
  exact ⟨s, hs, by rw [txg_counts (by decide) hs 0 5 hheld.2.2 hheld.2.1, hhandles]; rfl⟩

end Polaris
