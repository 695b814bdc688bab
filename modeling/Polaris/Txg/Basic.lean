import Polaris.Macros

/-!
# Transaction groups

The pipeline of `txg.c`: a transaction group is open, then it is quiesced, then it is synced.
Any number of threads hold the open group; one thread quiesces groups and one syncs them.

A step is what a thread does between two operations on a mutex.  What runs under `tx_sync_lock`
is one step, for the lock is always dropped before the thread blocks on anything but
`tx_suspend`.  The per-CPU locks are kept from `txg_hold_open` to `txg_rele_to_quiesce`, so they
are part of the state.  A thread that waits for a condition variable may wake up at any time.

## Main definitions

* `TxState`, `TxgHandle`, `QuiescePc`, `SyncPc`, `TxgSystem`
* `TxgSystem.quiesceStep`, `TxgSystem.syncStep` : the two threads of the pipeline
* `TxgStep`, `TxgReach` : every interleaving
-/

namespace Polaris

/-- `tx_cpu_t`, with whether its lock is held. -/
structure TxCpu where
  tcLock : Bool
  tcCount : Fin txgSize → ℕ

/-- `tx_state_t`.  `tx_suspend` is the number of its readers. -/
structure TxState where
  txCpu : ℕ → TxCpu
  txSuspend : ℕ
  txOpenTxg : ℕ
  txQuiescedTxg : ℕ
  txSyncingTxg : ℕ
  txSyncedTxg : ℕ
  txSyncTxgWaiting : ℕ
  txQuiesceTxgWaiting : ℕ
  txExiting : Bool

/-- `txg_init` -/
def txgInit (txg : ℕ) : TxState where
  txCpu := fun _ => ⟨false, fun _ => 0⟩
  txSuspend := 0
  txOpenTxg := txg
  txQuiescedTxg := 0
  txSyncingTxg := 0
  txSyncedTxg := 0
  txSyncTxgWaiting := 0
  txQuiesceTxgWaiting := 0
  txExiting := false

/-- `mutex_enter` and `mutex_exit` of a per-CPU lock. -/
def TxState.setLock (tx : TxState) (c : ℕ) (b : Bool) : TxState :=
  { tx with txCpu := Function.update tx.txCpu c ⟨b, (tx.txCpu c).tcCount⟩ }

/-- An assignment to `tc_count[txg & TXG_MASK]`. -/
def TxState.setCount (tx : TxState) (c txg n : ℕ) : TxState :=
  { tx with
    txCpu := Function.update tx.txCpu c
      ⟨(tx.txCpu c).tcLock, Function.update (tx.txCpu c).tcCount (txgSlot txg) n⟩ }

/-- Where a thread is with its handle. -/
inductive HoldPhase where
  /-- `txg_hold_open` has the lock. -/
  | entered
  /-- `txg_hold_open` has read `tx_open_txg`. -/
  | loaded
  /-- `txg_hold_open` has counted the hold, and the lock is still held. -/
  | held
  /-- After `txg_rele_to_quiesce`. -/
  | released
  deriving DecidableEq

/-- `txg_handle_t` -/
structure TxgHandle where
  phase : HoldPhase
  thCpu : ℕ
  thTxg : ℕ
  deriving DecidableEq

/-- Where the quiesce thread is. -/
inductive QuiescePc where
  /-- At the loop that waits for someone to wait. -/
  | wait
  /-- It has taken the locks below `c`. -/
  | lock (txg c : ℕ)
  /-- It has advanced `tx_open_txg` and dropped the locks below `c`. -/
  | unlock (txg c : ℕ)
  /-- It has seen that no thread holds the group on the CPUs below `c`. -/
  | drain (txg c : ℕ)
  | exited
  deriving DecidableEq

/-- Where the sync thread is. -/
inductive SyncPc where
  /-- At the loop that waits for something to sync. -/
  | waitMore
  /-- At the loop that waits for the quiesce thread. -/
  | waitDone
  | spaSync (txg : ℕ)
  | exited
  deriving DecidableEq

/-- The threads and what they share.  `called` and `returned` are the groups that `spa_sync` was
called with and those for which it has returned. -/
structure TxgSystem where
  tx : TxState
  handles : Multiset TxgHandle
  quiescePc : QuiescePc
  syncPc : SyncPc
  called : List ℕ
  returned : List ℕ

/-- After `txg_init`; `txg_sync_start` has not been called. -/
def TxgSystem.init (txg : ℕ) : TxgSystem where
  tx := txgInit txg
  handles := 0
  quiescePc := .exited
  syncPc := .exited
  called := []
  returned := []

/-- `txg_quiesce_thread` with `txg_quiesce`; `none` while it cannot get a lock. -/
def TxgSystem.quiesceStep (maxNcpus : ℕ) (s : TxgSystem) : Option TxgSystem :=
  match s.quiescePc with
  | .wait =>
    if !s.tx.txExiting && (s.tx.txOpenTxg ≥ s.tx.txQuiesceTxgWaiting || s.tx.txQuiescedTxg ≠ 0) then
      some s
    else if s.tx.txExiting then some { s with quiescePc := .exited }
    else some { s with quiescePc := .lock s.tx.txOpenTxg 0 }
  | .lock txg c =>
    if c < maxNcpus then
      if (s.tx.txCpu c).tcLock then none
      else some { s with tx := s.tx.setLock c true, quiescePc := .lock txg (c + 1) }
    else some { s with
      tx := { s.tx with txOpenTxg := s.tx.txOpenTxg + 1 }
      quiescePc := .unlock txg 0 }
  | .unlock txg c =>
    if c < maxNcpus then
      some { s with tx := s.tx.setLock c false, quiescePc := .unlock txg (c + 1) }
    else some { s with quiescePc := .drain txg 0 }
  | .drain txg c =>
    if c < maxNcpus then
      if (s.tx.txCpu c).tcLock then none
      else if (s.tx.txCpu c).tcCount (txgSlot txg) ≠ 0 then some s
      else some { s with quiescePc := .drain txg (c + 1) }
    else some { s with tx := { s.tx with txQuiescedTxg := txg }, quiescePc := .wait }
  | .exited => none

/-- The sync thread from its second loop on. -/
def TxgSystem.syncQuiesced (s : TxgSystem) : Option TxgSystem :=
  if !s.tx.txExiting && s.tx.txQuiescedTxg = 0 then
    some { s with
      tx := { s.tx with
        txQuiesceTxgWaiting :=
          if s.tx.txQuiesceTxgWaiting < s.tx.txOpenTxg + 1 then s.tx.txOpenTxg + 1
          else s.tx.txQuiesceTxgWaiting }
      syncPc := .waitDone }
  else if s.tx.txExiting then some { s with syncPc := .exited }
  else if s.tx.txSuspend ≠ 0 then none
  else
    let txg := s.tx.txQuiescedTxg
    some { s with
      tx := { s.tx with txQuiescedTxg := 0, txSyncingTxg := txg }
      syncPc := .spaSync txg
      called := s.called ++ [txg] }

/-- `txg_sync_thread`; `none` while `tx_suspend` has readers. -/
def TxgSystem.syncStep (s : TxgSystem) : Option TxgSystem :=
  match s.syncPc with
  | .waitMore =>
    if !s.tx.txExiting && s.tx.txSyncedTxg ≥ s.tx.txSyncTxgWaiting && s.tx.txQuiescedTxg = 0 then
      some s
    else s.syncQuiesced
  | .waitDone => s.syncQuiesced
  | .spaSync txg =>
    if s.tx.txSuspend ≠ 0 then none
    else some { s with
      tx := { s.tx with txSyncedTxg := txg, txSyncingTxg := 0 }
      syncPc := .waitMore
      returned := s.returned ++ [txg] }
  | .exited => none

/-- One step of some thread. -/
inductive TxgStep (maxNcpus : ℕ) : TxgSystem → TxgSystem → Prop
  /-- `txg_hold_open` gets the lock of a CPU. -/
  | enter {s : TxgSystem} {c : ℕ} (hc : c < maxNcpus) (hfree : (s.tx.txCpu c).tcLock = false) :
      TxgStep maxNcpus s
        { s with tx := s.tx.setLock c true, handles := ⟨.entered, c, 0⟩ ::ₘ s.handles }
  /-- `txg_hold_open` reads `tx_open_txg`. -/
  | load {s : TxgSystem} {c t : ℕ} {rest : Multiset TxgHandle}
      (h : s.handles = ⟨.entered, c, t⟩ ::ₘ rest) :
      TxgStep maxNcpus s { s with handles := ⟨.loaded, c, s.tx.txOpenTxg⟩ ::ₘ rest }
  /-- `txg_hold_open` counts the hold. -/
  | hold {s : TxgSystem} {c txg : ℕ} {rest : Multiset TxgHandle}
      (h : s.handles = ⟨.loaded, c, txg⟩ ::ₘ rest) :
      TxgStep maxNcpus s { s with
        tx := s.tx.setCount c txg ((s.tx.txCpu c).tcCount (txgSlot txg) + 1)
        handles := ⟨.held, c, txg⟩ ::ₘ rest }
  | releToQuiesce {s : TxgSystem} {c txg : ℕ} {rest : Multiset TxgHandle}
      (h : s.handles = ⟨.held, c, txg⟩ ::ₘ rest) :
      TxgStep maxNcpus s
        { s with tx := s.tx.setLock c false, handles := ⟨.released, c, txg⟩ ::ₘ rest }
  | releToSync {s : TxgSystem} {c txg : ℕ} {rest : Multiset TxgHandle}
      (h : s.handles = ⟨.released, c, txg⟩ ::ₘ rest) (hfree : (s.tx.txCpu c).tcLock = false) :
      TxgStep maxNcpus s { s with
        tx := s.tx.setCount c txg ((s.tx.txCpu c).tcCount (txgSlot txg) - 1)
        handles := rest }
  | quiesce {s s' : TxgSystem} (h : s.quiesceStep maxNcpus = some s') : TxgStep maxNcpus s s'
  | sync {s s' : TxgSystem} (h : s.syncStep = some s') : TxgStep maxNcpus s s'
  /-- `txg_wait_synced` raises what the sync thread waits for. -/
  | waitSynced {s : TxgSystem} (txg : ℕ) :
      TxgStep maxNcpus s
        { s with tx := { s.tx with txSyncTxgWaiting := max s.tx.txSyncTxgWaiting txg } }
  /-- `txg_wait_open` and `txg_timelimit_thread` raise what the quiesce thread waits for. -/
  | waitOpen {s : TxgSystem} (txg : ℕ) :
      TxgStep maxNcpus s
        { s with tx := { s.tx with txQuiesceTxgWaiting := max s.tx.txQuiesceTxgWaiting txg } }
  | suspend {s : TxgSystem} :
      TxgStep maxNcpus s { s with tx := { s.tx with txSuspend := s.tx.txSuspend + 1 } }
  | resume {s : TxgSystem} :
      TxgStep maxNcpus s { s with tx := { s.tx with txSuspend := s.tx.txSuspend - 1 } }
  /-- `txg_sync_start` -/
  | start {s : TxgSystem} (hq : s.quiescePc = .exited) (hs : s.syncPc = .exited) :
      TxgStep maxNcpus s { s with quiescePc := .wait, syncPc := .waitMore }
  /-- `txg_sync_stop` tells the threads to exit. -/
  | stop {s : TxgSystem} : TxgStep maxNcpus s { s with tx := { s.tx with txExiting := true } }
  /-- `txg_sync_stop` returns when they have. -/
  | stopped {s : TxgSystem} (hq : s.quiescePc = .exited) (hs : s.syncPc = .exited) :
      TxgStep maxNcpus s { s with tx := { s.tx with txExiting := false } }

/-- What any interleaving reaches from a pool that is opened at `txg`. -/
inductive TxgReach (maxNcpus txg : ℕ) : TxgSystem → Prop
  | init : TxgReach maxNcpus txg (.init txg)
  | step {s s' : TxgSystem} (h : TxgReach maxNcpus txg s) (hstep : TxgStep maxNcpus s s') :
      TxgReach maxNcpus txg s'

end Polaris
