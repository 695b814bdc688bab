import Mathlib.Data.List.Basic
import Mathlib.Logic.Function.Basic
import Polaris.Macros

/-!
# Lists of block pointers

`bplist.c`: a list of block pointers that is kept in the blocks of an object.  Readers and writers
reach the blocks through one buffer that stays held between the calls.  Deferred pointers wait in a
queue until `bplist_sync`.  The bonus buffer with the counters is held.

`hold` gives the error with which `dmu_buf_hold` fails at an offset, 0 if it does not.  A list has
fewer than `2 ^ 57` entries, so that the offsets of its blocks fit in 64 bits.

## Main definitions

* `bplistIterate`, `bplistEnqueue`, `bplistSync`, `bplistVacate`, `bplistSpace`
* `BplistOp.apply` — what the calls are for.
-/

namespace Polaris

open Function List

/-- `blkptr_t`. -/
structure BlkPtr where
  blkDva : Fin 3 → ℕ × ℕ
  blkProp : ℕ
  blkPad : Fin 3 → ℕ
  blkBirth : ℕ
  blkFill : ℕ
  blkCksum : Fin 4 → ℕ

/-- What the sizes depend on besides the pointer: `spa_deflate`, the ratios of the devices and the
types of `dmu_ot` that are metadata. -/
structure BpSizes where
  spaDeflate : Bool
  vdevDeflateRatio : ℕ → ℕ
  otMetadata : ℕ → Bool

namespace BlkPtr

/-- `BP_GET_PSIZE`. -/
def psize (bp : BlkPtr) : ℕ := (bf64Decode bp.blkProp 16 16 + 1) <<< 9

/-- `BP_GET_LSIZE`. -/
def lsize (bp : BlkPtr) : ℕ := if bp.blkBirth = 0 then 0 else (bf64Decode bp.blkProp 0 16 + 1) <<< 9

/-- `BP_GET_UCSIZE`. -/
def ucsize (z : BpSizes) (bp : BlkPtr) : ℕ :=
  if 0 < bf64Decode bp.blkProp 56 5 ∨ z.otMetadata (bf64Decode bp.blkProp 48 8) then bp.psize
  else bp.lsize

/-- `DVA_GET_ASIZE`. -/
def asize (bp : BlkPtr) (i : Fin 3) : ℕ := bf64Decode (bp.blkDva i).1 0 24 <<< 9

/-- `bp_get_dasize`.  The sum over the devices is an `int`. -/
def dasize (z : BpSizes) (bp : BlkPtr) : ℕ :=
  if z.spaDeflate then
    let sz := ((finRange 3).map fun i =>
      (bp.asize i >>> 9) * z.vdevDeflateRatio (bf64Decode (bp.blkDva i).1 32 32)).sum
    ((BitVec.ofNat 32 sz).signExtend 64).toNat
  else ((finRange 3).map bp.asize).sum

/-- A pointer as it is kept: without the fill count and the checksum. -/
def kept (bp : BlkPtr) : BlkPtr := { bp with blkFill := 0, blkCksum := fun _ => 0 }

end BlkPtr

/-- `bplist_t` and the object behind it.  A buffer is named by its `db_offset`, and `dbufs` has the
pointer at each index of a buffer. -/
structure Bplist where
  bplBpshift : ℕ
  bplHavecomp : Bool
  dbufs : ℕ × ℕ → BlkPtr
  bplCachedDbuf : Option ℕ
  bplEntries : ℕ
  bplBytes : ℕ
  bplComp : ℕ
  bplUncomp : ℕ
  bplQueue : List BlkPtr

/-- A list whose object has just been created. -/
def bplistCreate (bpshift : ℕ) (havecomp : Bool) (dbufs : ℕ × ℕ → BlkPtr) : Bplist :=
  ⟨bpshift, havecomp, dbufs, none, 0, 0, 0, 0, []⟩

/-- `ENOENT`. -/
def enoent : ℕ := 2

variable (z : BpSizes) (hold : ℕ → ℕ) (bpl : Bplist) (bp : BlkPtr)

/-- The offset of a block; `bpl_blockshift` is `bpl_bpshift + SPA_BLKPTRSHIFT`. -/
def Bplist.offset (blkid : ℕ) : ℕ := blkid <<< (bpl.bplBpshift + 7)

/-- `bplist_cache`, with the buffer that is held then. -/
def bplistCache (blkid : ℕ) : Bplist × Except ℕ ℕ :=
  if bpl.bplCachedDbuf = some (bpl.offset blkid) then (bpl, .ok (bpl.offset blkid))
  else if hold (bpl.offset blkid) ≠ 0 then
    ({ bpl with bplCachedDbuf := none }, .error (hold (bpl.offset blkid)))
  else ({ bpl with bplCachedDbuf := some (bpl.offset blkid) }, .ok (bpl.offset blkid))

/-- `bplist_iterate`, with the pointer and the next position. -/
def bplistIterate (itor : ℕ) : Bplist × Except ℕ (BlkPtr × ℕ) :=
  if bpl.bplEntries ≤ itor then (bpl, .error enoent)
  else
    match bplistCache hold bpl (itor >>> bpl.bplBpshift) with
    | (bpl, .error err) => (bpl, .error err)
    | (bpl, .ok db) => (bpl, .ok (bpl.dbufs (db, p2phase itor (1 <<< bpl.bplBpshift)), itor + 1))

/-- `bplist_enqueue`, with its error. -/
def bplistEnqueue : Bplist × ℕ :=
  match bplistCache hold bpl (bpl.bplEntries >>> bpl.bplBpshift) with
  | (bpl, .error err) => (bpl, err)
  | (bpl, .ok db) =>
    ({ bpl with
        dbufs := update bpl.dbufs (db, p2phase bpl.bplEntries (1 <<< bpl.bplBpshift)) bp.kept
        bplEntries := bpl.bplEntries + 1
        bplBytes := u64 (bpl.bplBytes + bp.dasize z)
        bplComp := if bpl.bplHavecomp then u64 (bpl.bplComp + bp.psize) else bpl.bplComp
        bplUncomp := if bpl.bplHavecomp then u64 (bpl.bplUncomp + bp.ucsize z)
          else bpl.bplUncomp }, 0)

/-- `bplist_enqueue_deferred`. -/
def bplistEnqueueDeferred : Bplist := { bpl with bplQueue := bp :: bpl.bplQueue }

/-- `bplist_sync`: a round takes the head off the queue.  If a read fails, it does not return. -/
def bplistSync : Bplist :=
  bpl.bplQueue.foldl (fun bpl bp =>
    (bplistEnqueue z (fun _ => 0) { bpl with bplQueue := bpl.bplQueue.tail } bp).1) bpl

/-- `bplist_vacate`; `dbufs` is what `dmu_free_range` leaves in the buffers. -/
def bplistVacate (dbufs : ℕ × ℕ → BlkPtr) : Bplist :=
  { bpl with
    dbufs := dbufs
    bplEntries := 0
    bplBytes := 0
    bplComp := if bpl.bplHavecomp then 0 else bpl.bplComp
    bplUncomp := if bpl.bplHavecomp then 0 else bpl.bplUncomp }

/-- The calls of `bplist_iterate` until one fails, with the pointers and the error they return. -/
def bplistIterateLoop : ℕ → ℕ → Bplist → Option (Bplist × List BlkPtr × ℕ)
  | 0, _, _ => none
  | fuel + 1, itor, bpl =>
    match bplistIterate hold bpl itor with
    | (bpl, .error err) => some (bpl, [], err)
    | (bpl, .ok (bp, itor)) =>
      (bplistIterateLoop fuel itor bpl).map fun (bpl, bps, err) => (bpl, bp :: bps, err)

/-- `bplist_space`, with its error and `*usedp`, `*compp` and `*uncompp`. -/
def bplistSpace (fuel : ℕ) : Option (Bplist × ℕ × ℕ × ℕ × ℕ) :=
  if bpl.bplHavecomp then some (bpl, 0, bpl.bplBytes, bpl.bplComp, bpl.bplUncomp)
  else (bplistIterateLoop hold fuel 0 bpl).map fun (bpl', bps, err) =>
    (bpl', if err = enoent then 0 else err, bpl.bplBytes,
      bps.foldl (fun comp bp => u64 (comp + bp.psize)) 0,
      bps.foldl (fun uncomp bp => u64 (uncomp + bp.ucsize z)) 0)

/-- The calls on a list.  `reopen` is `bplist_close` and `bplist_open`. -/
inductive BplistOp where
  | enqueue (hold : ℕ → ℕ) (bp : BlkPtr)
  | enqueueDeferred (bp : BlkPtr)
  | sync
  | vacate (dbufs : ℕ × ℕ → BlkPtr)
  | iterate (hold : ℕ → ℕ) (itor : ℕ)
  | reopen

/-- A call, with the error of `bplist_enqueue`. -/
def bplistStep (bpl : Bplist) : BplistOp → Bplist × ℕ
  | .enqueue hold bp => bplistEnqueue z hold bpl bp
  | .enqueueDeferred bp => (bplistEnqueueDeferred bpl bp, 0)
  | .sync => (bplistSync z bpl, 0)
  | .vacate dbufs => (bplistVacate bpl dbufs, 0)
  | .iterate hold itor => ((bplistIterate hold bpl itor).1, 0)
  | .reopen => ({ bpl with bplCachedDbuf := none }, 0)

/-- The pointers in a list, and those that are deferred. -/
structure Pointers where
  listed : List BlkPtr
  deferred : List BlkPtr

/-- What a call is for.  An enqueue with an error does nothing. -/
def BplistOp.apply (s : Pointers) (err : ℕ) : BplistOp → Pointers
  | .enqueue _ bp => { s with listed := if err = 0 then s.listed ++ [bp.kept] else s.listed }
  | .enqueueDeferred bp => { s with deferred := bp :: s.deferred }
  | .sync => ⟨s.listed ++ s.deferred.map BlkPtr.kept, []⟩
  | .vacate _ => { s with listed := [] }
  | .iterate .. | .reopen => s

/-- A run of calls: the list, and what the calls are for. -/
def bplistRun (ops : List BplistOp) (r : Bplist × Pointers) : Bplist × Pointers :=
  ops.foldl (fun (bpl, s) op =>
    let (bpl, err) := bplistStep z bpl op
    (bpl, op.apply s err)) r

/-- The `uint64_t` sum of a size over some pointers. -/
def sizeSum (size : BlkPtr → ℕ) (bps : List BlkPtr) : ℕ := u64 (bps.map size).sum

theorem sizeSum_append (size : BlkPtr → ℕ) (bps : List BlkPtr) :
    sizeSum size (bps ++ [bp]) = u64 (sizeSum size bps + size bp) := by
  simp [sizeSum, u64]

theorem foldl_sizeSum (size : BlkPtr → ℕ) (bps : List BlkPtr) :
    bps.foldl (fun sum bp => u64 (sum + size bp)) 0 = sizeSum size bps := by
  induction bps using reverseRecOn with
  | nil => rfl
  | append_singleton bps bp ih => rw [foldl_append, ih, foldl_cons, foldl_nil, sizeSum_append]

/-! ## The entries of a list -/

/-- Only the buffer that is held changes, and only a read that fails is an error. -/
theorem bplistCache_eq (blkid : ℕ) : ∃ c,
    bplistCache hold bpl blkid = ({ bpl with bplCachedDbuf := c }, .ok (bpl.offset blkid)) ∨
      hold (bpl.offset blkid) ≠ 0 ∧ bplistCache hold bpl blkid
        = ({ bpl with bplCachedDbuf := c }, .error (hold (bpl.offset blkid))) := by
  rw [bplistCache]
  split
  next => exact ⟨bpl.bplCachedDbuf, .inl rfl⟩
  next =>
    split
    next herr => exact ⟨none, .inr ⟨herr, rfl⟩⟩
    next => exact ⟨some (bpl.offset blkid), .inl rfl⟩

namespace Bplist

/-- The buffer of entry `i`, and its index there. -/
def slot (i : ℕ) : ℕ × ℕ :=
  (bpl.offset (i >>> bpl.bplBpshift), p2phase i (1 <<< bpl.bplBpshift))

theorem slot_injective : Injective bpl.slot := by
  intro i j h
  rw [slot, slot, offset, offset, p2phase_eq_mod, p2phase_eq_mod, Nat.shiftRight_eq_div_pow,
    Nat.shiftRight_eq_div_pow, Nat.shiftLeft_eq, Nat.shiftLeft_eq, Prod.mk.injEq] at h
  have hdiv := Nat.eq_of_mul_eq_mul_right (Nat.two_pow_pos _) h.1
  rw [← Nat.div_add_mod i, hdiv, h.2, Nat.div_add_mod]

/-- The entries. -/
def listing : List BlkPtr := (range bpl.bplEntries).map (bpl.dbufs ∘ bpl.slot)

theorem length_listing : bpl.listing.length = bpl.bplEntries := by
  rw [listing, length_map, length_range]

theorem iterate_eq (itor : ℕ) : ∃ c res,
    bplistIterate hold bpl itor = ({ bpl with bplCachedDbuf := c }, res) ∧
      (itor < bpl.bplEntries → (∀ offset, hold offset = 0) →
        res = .ok (bpl.dbufs (bpl.slot itor), itor + 1)) := by
  rw [bplistIterate]
  split
  next hge => exact ⟨bpl.bplCachedDbuf, _, rfl, fun hlt => absurd hge (not_le.mpr hlt)⟩
  next =>
    obtain ⟨c, heq | ⟨herr, heq⟩⟩ := bplistCache_eq hold bpl (itor >>> bpl.bplBpshift)
    · rw [heq]
      exact ⟨c, _, rfl, fun _ _ => rfl⟩
    · rw [heq]
      exact ⟨c, _, rfl, fun _ hreads => absurd (hreads _) herr⟩

/-- The list holds the pointers `s` and counts their sizes. -/
structure Refines (s : Pointers) : Prop where
  bytes : bpl.bplBytes = sizeSum (BlkPtr.dasize z) s.listed
  comp : bpl.bplHavecomp → bpl.bplComp = sizeSum BlkPtr.psize s.listed
  uncomp : bpl.bplHavecomp → bpl.bplUncomp = sizeSum (BlkPtr.ucsize z) s.listed
  entries : bpl.listing = s.listed
  queue : bpl.bplQueue = s.deferred

variable {z bpl} {s : Pointers}

theorem Refines.setCached (h : bpl.Refines z s) (c : Option ℕ) :
    Refines z { bpl with bplCachedDbuf := c } s :=
  ⟨h.bytes, h.comp, h.uncomp, h.entries, h.queue⟩

theorem Refines.enqueue (h : bpl.Refines z s) :
    (bplistEnqueue z hold bpl bp).1.Refines z
      ((BplistOp.enqueue hold bp).apply s (bplistEnqueue z hold bpl bp).2) := by
  obtain ⟨c, heq | ⟨herr, heq⟩⟩ := bplistCache_eq hold bpl (bpl.bplEntries >>> bpl.bplBpshift)
  · simp only [bplistEnqueue, heq, BplistOp.apply, if_true]
    refine ⟨?_, fun hcomp => ?_, fun hcomp => ?_, ?_, h.queue⟩
    · rw [sizeSum_append, ← h.bytes]
      rfl
    · rw [sizeSum_append, ← h.comp hcomp]
      exact if_pos hcomp
    · rw [sizeSum_append, ← h.uncomp hcomp]
      exact if_pos hcomp
    · -- the new entry has a place of its own
      change (range (bpl.bplEntries + 1)).map
        (update bpl.dbufs (bpl.slot bpl.bplEntries) bp.kept ∘ bpl.slot) = _
      rw [update_comp_eq_of_injective _ bpl.slot_injective, range_succ, map_append, map_singleton,
        update_self, ← h.entries]
      refine congrArg (· ++ [bp.kept]) (map_congr_left fun i hi => ?_)
      exact update_of_ne (mem_range.mp hi).ne _ _
  · simp only [bplistEnqueue, heq, BplistOp.apply, if_neg herr]
    exact h.setCached c

theorem bplistEnqueue_of_reads (hreads : ∀ offset, hold offset = 0) :
    (bplistEnqueue z hold bpl bp).2 = 0 := by
  obtain ⟨c, heq | ⟨herr, -⟩⟩ := bplistCache_eq hold bpl (bpl.bplEntries >>> bpl.bplBpshift)
  · rw [bplistEnqueue, heq]
  · exact absurd (hreads _) herr

/-- The induction is on the queue: a round moves its head to the entries. -/
theorem Refines.sync {l queue : List BlkPtr} (h : bpl.Refines z ⟨l, queue⟩) :
    (bplistSync z bpl).Refines z ⟨l ++ queue.map BlkPtr.kept, []⟩ := by
  rw [bplistSync, h.queue]
  induction queue generalizing bpl l with
  | nil =>
    rw [map_nil, append_nil]
    exact h
  | cons bp queue ih =>
    have htail : Refines z { bpl with bplQueue := bpl.bplQueue.tail } ⟨l, queue⟩ :=
      ⟨h.bytes, h.comp, h.uncomp, h.entries, congrArg tail h.queue⟩
    have hround := htail.enqueue (fun _ => 0) bp
    rw [bplistEnqueue_of_reads _ _ fun _ => rfl] at hround
    rw [foldl_cons, map_cons, append_cons]
    exact ih hround

theorem Refines.step (h : bpl.Refines z s) (op : BplistOp) :
    (bplistStep z bpl op).1.Refines z (op.apply s (bplistStep z bpl op).2) := by
  cases op with
  | enqueue hold bp => exact h.enqueue hold bp
  | enqueueDeferred bp => exact ⟨h.bytes, h.comp, h.uncomp, h.entries, congrArg (bp :: ·) h.queue⟩
  | sync => exact h.sync
  | vacate dbufs =>
    exact ⟨rfl, fun hcomp => if_pos hcomp, fun hcomp => if_pos hcomp, rfl, h.queue⟩
  | iterate hold itor =>
    obtain ⟨c, res, heq, -⟩ := iterate_eq hold bpl itor
    rw [bplistStep, heq]
    exact h.setCached c
  | reopen => exact h.setCached none

theorem Refines.run (h : bpl.Refines z s) (ops : List BplistOp) :
    (bplistRun z ops (bpl, s)).1.Refines z (bplistRun z ops (bpl, s)).2 := by
  induction ops generalizing bpl s with
  | nil => exact h
  | cons op ops ih => exact ih (h.step op)

/-- The calls return the rest of the entries. -/
theorem iterateLoop_eq {fuel itor : ℕ} (hreads : ∀ offset, hold offset = 0)
    (hfuel : bpl.bplEntries - itor < fuel) :
    ∃ bpl', bplistIterateLoop hold fuel itor bpl
      = some (bpl', bpl.listing.drop itor, enoent) := by
  induction fuel generalizing itor bpl with
  | zero => omega
  | succ fuel ih =>
    rw [bplistIterateLoop]
    by_cases hlt : itor < bpl.bplEntries
    · obtain ⟨c, res, heq, hres⟩ := iterate_eq hold bpl itor
      rw [heq, hres hlt hreads]
      have hrest : bpl.bplEntries - (itor + 1) < fuel := by omega
      obtain ⟨bpl', hbpl'⟩ := @ih { bpl with bplCachedDbuf := c } _ hrest
      refine ⟨bpl', ?_⟩
      rw [drop_eq_getElem_cons (length_listing bpl ▸ hlt)]
      simp only [hbpl', Option.map_some, listing, getElem_map, getElem_range]
      rfl
    · rw [bplistIterate, if_pos (not_lt.mp hlt),
        drop_eq_nil_of_le (length_listing bpl ▸ not_lt.mp hlt)]
      exact ⟨bpl, rfl⟩

end Bplist

end Polaris
