import Mathlib.Data.Finset.Basic
import Mathlib.Data.Finset.Lattice.Lemmas

/-!
# The life of space across transaction groups

An abstract model of what a metaslab accounts for.  Each byte is free, or it was
allocated in a transaction group that has not synced, or it is allocated on disk, or
it was freed in the syncing group and must not be used before that group is done.
Apart from that, a byte may be marked as freed in a group that has not synced.

`Ledger.sync` and `Ledger.done` move all bytes at once.  A block is *held* by the ledger
when its bytes are not free, so the ledger never hands them out.

## Main definitions

* `Phase`, `Byte`, `Ledger`
* `Ledger.allocate`, `Ledger.release`, `Ledger.defer`, `Ledger.sync`, `Ledger.done`
* `Ledger.Holds`
-/

namespace Polaris

open Finset

/-- Where a byte is in its life. -/
inductive Phase where
  | free
  | allocated (txg : ℕ)
  | synced
  | freed
  deriving DecidableEq

/-- A byte, and the transaction group in which it was freed. -/
structure Byte where
  phase : Phase
  dying : Option ℕ
  deriving DecidableEq

/-- Three transaction groups are in flight, from the syncing one on, and a byte is
freed no earlier than it was allocated. -/
structure Byte.Ok (syncing : ℕ) (b : Byte) : Prop where
  alloc : ∀ t, b.phase = .allocated t → syncing ≤ t ∧ t ≤ syncing + 2
  free : ∀ t, b.dying = some t → syncing ≤ t ∧ t ≤ syncing + 2 ∧
    (b.phase = .synced ∨ ∃ u, u ≤ t ∧ b.phase = .allocated u)

variable {p : Phase}

theorem Byte.ok_of_none {syncing : ℕ} (h : ∀ t, p ≠ .allocated t) :
    Byte.Ok syncing ⟨p, none⟩ := ⟨fun t ht => absurd ht (h t), by simp⟩

/-- What syncing group `s` does to a byte. -/
def Byte.sync (s : ℕ) (b : Byte) : Byte :=
  if b.dying = some s then ⟨.freed, none⟩
  else ⟨if b.phase = .allocated s then .synced else b.phase, b.dying⟩

theorem Byte.Ok.sync {s : ℕ} {b : Byte} (h : b.Ok s) : (b.sync s).Ok s := by
  rw [Byte.sync]
  split
  · exact Byte.ok_of_none (by simp)
  refine ⟨fun t ht => ?_, fun t ht => ?_⟩
  · simp only at ht
    split at ht
    · simp at ht
    · exact h.alloc t ht
  · obtain ⟨h1, h2, h3⟩ := h.free t ht
    refine ⟨h1, h2, ?_⟩
    split
    · exact Or.inl rfl
    · exact h3

/-- The accounts of a metaslab. -/
structure Ledger (α : Type) where
  all : Finset α
  syncing : ℕ
  byte : α → Byte
  ok : ∀ x, (byte x).Ok syncing
  outside : ∀ x, x ∉ all → byte x = ⟨.free, none⟩

namespace Ledger

variable {α : Type} (L : Ledger α)

/-! ## The accounts as sets -/

/-- The bytes in a phase. -/
def inPhase (p : Phase) : Finset α := L.all.filter fun x => (L.byte x).phase = p

/-- What may be handed out. -/
def avail : Finset α := L.inPhase .free

/-- What was allocated in group `t`, which has not synced. -/
def alloc (t : ℕ) : Finset α := L.inPhase (.allocated t)

/-- What is allocated on disk. -/
def disk : Finset α := L.inPhase .synced

/-- What the syncing group has freed on disk. -/
def freed : Finset α := L.inPhase .freed

/-- What was freed in group `t`, which has not synced. -/
def free (t : ℕ) : Finset α := L.all.filter fun x => (L.byte x).dying = some t

variable {L} {x : α} {t u : ℕ} {I J : Finset α}

theorem mem_inPhase : x ∈ L.inPhase p ↔ x ∈ L.all ∧ (L.byte x).phase = p := by
  simp [inPhase]

theorem mem_avail : x ∈ L.avail ↔ x ∈ L.all ∧ (L.byte x).phase = .free := mem_inPhase

theorem mem_alloc : x ∈ L.alloc t ↔ x ∈ L.all ∧ (L.byte x).phase = .allocated t := mem_inPhase

theorem mem_disk : x ∈ L.disk ↔ x ∈ L.all ∧ (L.byte x).phase = .synced := mem_inPhase

theorem mem_freed : x ∈ L.freed ↔ x ∈ L.all ∧ (L.byte x).phase = .freed := mem_inPhase

theorem mem_free : x ∈ L.free t ↔ x ∈ L.all ∧ (L.byte x).dying = some t := by simp [free]

theorem mem_all_of_phase (h : (L.byte x).phase ≠ .free) : x ∈ L.all := by
  by_contra hx
  rw [L.outside x hx] at h
  exact h rfl

theorem mem_all_of_dying (h : (L.byte x).dying = some t) : x ∈ L.all := by
  by_contra hx
  rw [L.outside x hx] at h
  exact absurd h (by simp)

theorem inPhase_disjoint {q : Phase} (h : p ≠ q) : Disjoint (L.inPhase p) (L.inPhase q) := by
  rw [disjoint_left]
  intro x hx hx'
  rw [mem_inPhase] at hx hx'
  exact h (hx.2.symm.trans hx'.2)

theorem alloc_eq_empty (ht : ¬ (L.syncing ≤ t ∧ t ≤ L.syncing + 2)) : L.alloc t = ∅ := by
  refine eq_empty_of_forall_notMem fun x hx => ?_
  exact ht ((L.ok x).alloc t (mem_alloc.mp hx).2)

theorem free_eq_empty (ht : ¬ (L.syncing ≤ t ∧ t ≤ L.syncing + 2)) : L.free t = ∅ := by
  refine eq_empty_of_forall_notMem fun x hx => ?_
  obtain ⟨h1, h2, -⟩ := (L.ok x).free t (mem_free.mp hx).2
  exact ht ⟨h1, h2⟩

/-- A byte that is marked as freed is on disk or allocated. -/
theorem phase_of_dying (h : (L.byte x).dying = some t) :
    (L.byte x).phase = .synced ∨ ∃ u, u ≤ t ∧ (L.byte x).phase = .allocated u :=
  ((L.ok x).free t h).2.2

theorem dying_ne (h : (L.byte x).phase = .free ∨ (L.byte x).phase = .freed) :
    (L.byte x).dying ≠ some t := by
  intro hd
  rcases phase_of_dying hd with h' | ⟨u, -, h'⟩ <;> simp [h'] at h

/-- What the syncing group frees was not allocated later. -/
theorem phase_of_syncing (h : (L.byte x).dying = some L.syncing) :
    (L.byte x).phase = .synced ∨ (L.byte x).phase = .allocated L.syncing := by
  refine (phase_of_dying h).imp_right ?_
  rintro ⟨u, hu, hp⟩
  rw [hp, le_antisymm hu ((L.ok x).alloc u hp).1]

theorem freed_disjoint_free : Disjoint L.freed (L.free t) := by
  rw [disjoint_left]
  exact fun x hx hx' => dying_ne (.inr (mem_freed.mp hx).2) (mem_free.mp hx').2

section Moves

variable [DecidableEq α]

/-- What is not available is in one of the accounts. -/
theorem avail_eq : L.avail = L.all \ (L.disk ∪ L.freed ∪ L.alloc L.syncing ∪
    L.alloc (L.syncing + 1) ∪ L.alloc (L.syncing + 2)) := by
  ext x
  have hok := (L.ok x).alloc
  simp only [mem_avail, mem_sdiff, mem_union, mem_disk, mem_freed, mem_alloc]
  cases hp : (L.byte x).phase with
  | allocated t =>
    obtain ⟨h1, h2⟩ := hok t hp
    have h3 : t = L.syncing ∨ t = L.syncing + 1 ∨ t = L.syncing + 2 := by omega
    simp only [reduceCtorEq, and_false, Phase.allocated.injEq, false_or, or_false, false_iff,
      not_and, not_not]
    tauto
  | free => simp
  | synced => simp
  | freed => simp

/-- What is freed in the syncing group is on disk or was allocated in that group. -/
theorem free_subset : L.free L.syncing ⊆ L.disk ∪ L.alloc L.syncing := by
  intro x hx
  rw [mem_free] at hx
  rw [mem_union, mem_disk, mem_alloc]
  exact (phase_of_syncing hx.2).imp (⟨hx.1, ·⟩) (⟨hx.1, ·⟩)

/-! ## Handing out space -/

/-- Allocate the bytes of `I` in group `t`. -/
def allocate (L : Ledger α) (t : ℕ) (I : Finset α) (ht : L.syncing ≤ t ∧ t ≤ L.syncing + 2)
    (hI : I ⊆ L.avail) : Ledger α where
  all := L.all
  syncing := L.syncing
  byte x := if x ∈ I then ⟨.allocated t, none⟩ else L.byte x
  ok x := by
    split
    · refine ⟨fun u hu => ?_, by simp⟩
      cases hu
      exact ht
    · exact L.ok x
  outside x hx := by
    rw [if_neg fun h => hx (mem_avail.mp (hI h)).1]
    exact L.outside x hx

section

variable {ht : L.syncing ≤ t ∧ t ≤ L.syncing + 2} {hI : I ⊆ L.avail}

theorem allocate_avail : (L.allocate t I ht hI).avail = L.avail \ I := by
  ext x
  by_cases hx : x ∈ I <;> simp [mem_avail, hx, allocate]

theorem allocate_alloc_self : (L.allocate t I ht hI).alloc t = L.alloc t ∪ I := by
  ext x
  by_cases hx : x ∈ I
  · simp [mem_alloc, hx, allocate, (mem_avail.mp (hI hx)).1]
  · simp [mem_alloc, hx, allocate]

/-- The other accounts do not change. -/
theorem allocate_inPhase (hp : p ≠ .free) (hp' : p ≠ .allocated t) :
    (L.allocate t I ht hI).inPhase p = L.inPhase p := by
  ext x
  by_cases hx : x ∈ I
  · simp [mem_inPhase, hx, allocate, (mem_avail.mp (hI hx)).2, hp.symm, hp'.symm]
  · simp [mem_inPhase, hx, allocate]

theorem allocate_free : (L.allocate t I ht hI).free u = L.free u := by
  ext x
  by_cases hx : x ∈ I
  · simp [mem_free, hx, allocate, dying_ne (.inl (mem_avail.mp (hI hx)).2)]
  · simp [mem_free, hx, allocate]

end

/-- Give back the bytes of `I`, which were allocated in group `t`. -/
def release (L : Ledger α) (t : ℕ) (I : Finset α) (_hI : I ⊆ L.alloc t) : Ledger α where
  all := L.all
  syncing := L.syncing
  byte x := if x ∈ I then ⟨.free, none⟩ else L.byte x
  ok x := by
    split
    · exact Byte.ok_of_none (by simp)
    · exact L.ok x
  outside x hx := by
    split
    · rfl
    · exact L.outside x hx

section

variable {hI : I ⊆ L.alloc t}

theorem release_avail : (L.release t I hI).avail = L.avail ∪ I := by
  ext x
  by_cases hx : x ∈ I
  · simp [mem_avail, hx, release, (mem_alloc.mp (hI hx)).1]
  · simp [mem_avail, hx, release]

theorem release_alloc_self : (L.release t I hI).alloc t = L.alloc t \ I := by
  ext x
  by_cases hx : x ∈ I <;> simp [mem_alloc, hx, release]

theorem release_inPhase (hp : p ≠ .free) (hp' : p ≠ .allocated t) :
    (L.release t I hI).inPhase p = L.inPhase p := by
  ext x
  by_cases hx : x ∈ I
  · simp [mem_inPhase, hx, release, (mem_alloc.mp (hI hx)).2, hp.symm, hp'.symm]
  · simp [mem_inPhase, hx, release]

theorem release_free (hlive : ∀ x ∈ I, (L.byte x).dying = none) :
    (L.release t I hI).free u = L.free u := by
  ext x
  by_cases hx : x ∈ I
  · simp [mem_free, hx, release, hlive x hx]
  · simp [mem_free, hx, release]

end

/-! ## Freeing space -/

/-- Mark the bytes of `I` as freed in group `t`. -/
def defer (L : Ledger α) (t : ℕ) (I : Finset α) (ht : L.syncing ≤ t ∧ t ≤ L.syncing + 2)
    (hI : ∀ x ∈ I, (L.byte x).phase = .synced ∨ ∃ u, u ≤ t ∧ (L.byte x).phase = .allocated u) :
    Ledger α where
  all := L.all
  syncing := L.syncing
  byte x := if x ∈ I then ⟨(L.byte x).phase, some t⟩ else L.byte x
  ok x := by
    split
    · rename_i hx
      refine ⟨(L.ok x).alloc, fun u hu => ?_⟩
      cases hu
      exact ⟨ht.1, ht.2, hI x hx⟩
    · exact L.ok x
  outside x hx := by
    have hnot : x ∉ I := by
      intro h
      have hfree := congrArg Byte.phase (L.outside x hx)
      rcases hI x h with h | ⟨u, -, h⟩ <;> rw [hfree] at h <;> simp at h
    rw [if_neg hnot]
    exact L.outside x hx

section

variable {ht : L.syncing ≤ t ∧ t ≤ L.syncing + 2}
  {hI : ∀ x ∈ I, (L.byte x).phase = .synced ∨ ∃ u, u ≤ t ∧ (L.byte x).phase = .allocated u}

theorem defer_inPhase : (L.defer t I ht hI).inPhase p = L.inPhase p := by
  ext x
  by_cases hx : x ∈ I <;> simp [mem_inPhase, hx, defer]

theorem defer_free_self (hall : I ⊆ L.all) : (L.defer t I ht hI).free t = L.free t ∪ I := by
  ext x
  by_cases hx : x ∈ I
  · simp [mem_free, hx, defer, hall hx]
  · simp [mem_free, hx, defer]

theorem defer_free (hu : u ≠ t) (hlive : ∀ x ∈ I, (L.byte x).dying = none) :
    (L.defer t I ht hI).free u = L.free u := by
  ext x
  by_cases hx : x ∈ I
  · simp [mem_free, hx, defer, hlive x hx, hu.symm]
  · simp [mem_free, hx, defer]

end

end Moves

/-! ## Syncing -/

/-- Write the syncing group to disk. -/
def sync (L : Ledger α) : Ledger α where
  all := L.all
  syncing := L.syncing
  byte x := (L.byte x).sync L.syncing
  ok x := (L.ok x).sync
  outside x hx := by
    rw [L.outside x hx]
    rfl

@[simp] theorem sync_all : L.sync.all = L.all := rfl

@[simp] theorem sync_syncing : L.sync.syncing = L.syncing := rfl

theorem sync_phase (x : α) : (L.sync.byte x).phase = if (L.byte x).dying
    = some L.syncing then .freed
    else if (L.byte x).phase = .allocated L.syncing then .synced else (L.byte x).phase := by
  simp only [sync, Byte.sync]
  split <;> rfl

theorem sync_dying (x : α) : (L.sync.byte x).dying =
    if (L.byte x).dying = some L.syncing then none else (L.byte x).dying := by
  simp only [sync, Byte.sync]
  split <;> rfl

/-- The other accounts do not change. -/
theorem sync_inPhase (hp : p ≠ .synced) (hp' : p ≠ .freed) (ha : p ≠ .allocated L.syncing) :
    L.sync.inPhase p = L.inPhase p := by
  ext x
  rw [mem_inPhase, mem_inPhase, sync_phase]
  refine and_congr_right fun _ => ?_
  by_cases hd : (L.byte x).dying = some L.syncing
  · rcases phase_of_syncing hd with h | h <;> simp [hd, h, hp.symm, hp'.symm, ha.symm]
  · rw [if_neg hd]
    split
    next h => simp [h, hp.symm, ha.symm]
    next => rfl

theorem sync_avail : L.sync.avail = L.avail := sync_inPhase (by simp) (by simp) (by simp)

theorem sync_alloc (ht : t ≠ L.syncing) : L.sync.alloc t = L.alloc t :=
  sync_inPhase (by simp) (by simp) (by simpa using ht)

theorem sync_disk [DecidableEq α] :
    L.sync.disk = (L.disk ∪ L.alloc L.syncing) \ L.free L.syncing := by
  ext x
  simp only [mem_disk, mem_alloc, mem_free, mem_sdiff, mem_union, sync_phase, sync_all]
  by_cases hd : (L.byte x).dying = some L.syncing
  · simp only [hd, if_true, reduceCtorEq, and_false, and_true, false_iff]
    tauto
  · by_cases hp : (L.byte x).phase = .allocated L.syncing <;> simp [hd, hp]

theorem sync_freed [DecidableEq α] : L.sync.freed = L.freed ∪ L.free L.syncing := by
  ext x
  simp only [mem_freed, mem_free, mem_union, sync_phase, sync_all]
  by_cases hd : (L.byte x).dying = some L.syncing
  · simp only [hd, if_true, and_true]
    tauto
  · by_cases hp : (L.byte x).phase = .allocated L.syncing <;> simp [hd, hp]

theorem sync_alloc_self : L.sync.alloc L.syncing = ∅ := by
  refine eq_empty_of_forall_notMem fun x hx => ?_
  rw [mem_alloc, sync_phase] at hx
  split_ifs at hx with hd hp
  · simp at hx
  · simp at hx
  · exact hp hx.2

theorem sync_free_self : L.sync.free L.syncing = ∅ := by
  refine eq_empty_of_forall_notMem fun x hx => ?_
  rw [mem_free, sync_dying] at hx
  split_ifs at hx with hd
  · simp at hx
  · exact hd hx.2

theorem sync_free (ht : t ≠ L.syncing) : L.sync.free t = L.free t := by
  ext x
  rw [mem_free, mem_free, sync_dying]
  refine and_congr_right fun _ => ?_
  by_cases hd : (L.byte x).dying = some L.syncing
  · simp [hd, ht.symm]
  · simp [hd]

/-- What the disk has, or waits for the syncing group to be done, does not change in a
sync if nothing was allocated in the group. -/
theorem sync_disk_union_freed [DecidableEq α] (h : L.alloc L.syncing = ∅) :
    L.sync.disk ∪ L.sync.freed = L.disk ∪ L.freed := by
  have hsub := L.free_subset
  rw [h, union_empty] at hsub
  rw [sync_disk, sync_freed, h, union_empty]
  ext x
  have := @hsub x
  simp only [mem_union, mem_sdiff]
  tauto

theorem free_disjoint_inPhase (hp : p ≠ .synced) (ha : p ≠ .allocated L.syncing) :
    Disjoint (L.free L.syncing) (L.inPhase p) := by
  classical
  refine Disjoint.mono_left free_subset ?_
  rw [disjoint_union_left]
  exact ⟨inPhase_disjoint hp.symm, inPhase_disjoint ha.symm⟩

/-- What is allocated once the syncing group is on disk, computed from what is
available. -/
theorem sync_disk_eq [DecidableEq α] : (((L.all \ L.avail) \ (L.freed ∪ L.free L.syncing)) \
    L.alloc (L.syncing + 1)) \ L.alloc (L.syncing + 2) =
    (L.disk ∪ L.alloc L.syncing) \ L.free L.syncing := by
  ext x
  have hok := (L.ok x).alloc
  simp only [mem_sdiff, mem_union, mem_avail, mem_disk, mem_freed, mem_alloc]
  cases hp : (L.byte x).phase with
  | allocated t =>
    obtain ⟨h1, h2⟩ := hok t hp
    have h3 : t = L.syncing ∨ t = L.syncing + 1 ∨ t = L.syncing + 2 := by omega
    rcases h3 with rfl | rfl | rfl <;> by_cases hx : x ∈ L.all <;> simp [hx]
  | free => simp
  | synced => simp
  | freed =>
    simp only [reduceCtorEq, and_false, and_true, or_false, not_false_eq_true, false_and, iff_false]
    tauto

/-- The syncing group is done: what it freed may be handed out. -/
def done (L : Ledger α) (hA : L.alloc L.syncing = ∅) (hF : L.free L.syncing = ∅) : Ledger α where
  all := L.all
  syncing := L.syncing + 1
  byte x := if (L.byte x).phase = .freed then ⟨.free, none⟩ else L.byte x
  ok x := by
    split
    · exact Byte.ok_of_none (by simp)
    refine ⟨fun t ht => ?_, fun t ht => ?_⟩
    · have hne : t ≠ L.syncing := by
        rintro rfl
        exact Finset.notMem_empty x (hA ▸ mem_alloc.mpr ⟨mem_all_of_phase (by simp [ht]), ht⟩)
      have := (L.ok x).alloc t ht
      omega
    · have hne : t ≠ L.syncing := by
        rintro rfl
        exact Finset.notMem_empty x (hF ▸ mem_free.mpr ⟨mem_all_of_dying ht, ht⟩)
      obtain ⟨h1, h2, h3⟩ := (L.ok x).free t ht
      exact ⟨by omega, by omega, h3⟩
  outside x hx := by
    split
    · rfl
    · exact L.outside x hx

section

variable {hA : L.alloc L.syncing = ∅} {hF : L.free L.syncing = ∅}

@[simp] theorem done_syncing : (L.done hA hF).syncing = L.syncing + 1 := rfl

theorem done_avail [DecidableEq α] : (L.done hA hF).avail = L.avail ∪ L.freed := by
  ext x
  by_cases hp : (L.byte x).phase = .freed <;> simp [mem_avail, mem_freed, done, hp]

theorem done_freed : (L.done hA hF).freed = ∅ := by
  ext x
  by_cases hp : (L.byte x).phase = .freed <;> simp [mem_freed, done, hp]

theorem done_inPhase (hp : p ≠ .free) (hp' : p ≠ .freed) :
    (L.done hA hF).inPhase p = L.inPhase p := by
  ext x
  by_cases hx : (L.byte x).phase = .freed
  · simp [mem_inPhase, done, hx, hp.symm, hp'.symm]
  · simp [mem_inPhase, done, hx]

theorem done_free : (L.done hA hF).free t = L.free t := by
  ext x
  by_cases hx : (L.byte x).phase = .freed
  · simp [mem_free, done, hx, dying_ne (.inr hx)]
  · simp [mem_free, done, hx]

end

/-! ## Blocks -/

section Opened

variable [DecidableEq α]

/-- The ledger of a metaslab whose disk has `D` allocated. -/
def opened (all D : Finset α) (syncing : ℕ) (hD : D ⊆ all) : Ledger α where
  all := all
  syncing := syncing
  byte x := if x ∈ D then ⟨.synced, none⟩ else ⟨.free, none⟩
  ok x := by
    split
    · exact Byte.ok_of_none (by simp)
    · exact Byte.ok_of_none (by simp)
  outside x hx := by rw [if_neg fun h => hx (hD h)]

instance : Inhabited (Ledger α) := ⟨opened ∅ ∅ 0 (Finset.empty_subset _)⟩

variable {all D : Finset α} {s : ℕ} {hD : D ⊆ all}

theorem opened_disk : (opened all D s hD).disk = D := by
  ext x
  by_cases hx : x ∈ D
  · simp [mem_disk, opened, hx, hD hx]
  · simp [mem_disk, opened, hx]

theorem opened_inPhase (hp : p ≠ .synced) (hp' : p ≠ .free) :
    (opened all D s hD).inPhase p = ∅ := by
  ext x
  by_cases hx : x ∈ D
  · simp [mem_inPhase, opened, hx, hp.symm]
  · simp [mem_inPhase, opened, hx, hp'.symm]

theorem opened_free : (opened all D s hD).free t = ∅ := by
  ext x
  by_cases hx : x ∈ D <;> simp [mem_free, opened, hx]

end Opened

/-- A block that was allocated in group `birth`.  It is live, or it was freed in a
group that is not done yet. -/
structure Holds (L : Ledger α) (I : Finset α) (birth : ℕ) (freedIn : Option ℕ) : Prop where
  inside : I ⊆ L.all
  phase : ∀ x ∈ I, (L.byte x).phase = .synced ∨ (∃ u, u ≤ birth ∧ (L.byte x).phase = .allocated u) ∨
    (L.byte x).phase = .freed ∧ freedIn = some L.syncing
  dying : ∀ x ∈ I, ∀ u, (L.byte x).dying = some u → freedIn = some u

namespace Holds

variable {birth : ℕ} {freedIn : Option ℕ}

/-- A block is not available. -/
theorem disjoint_avail (h : L.Holds I birth freedIn) : Disjoint I L.avail := by
  rw [disjoint_left]
  intro x hx hx'
  have hfree := (mem_avail.mp hx').2
  rcases h.phase x hx with hp | ⟨u, -, hp⟩ | ⟨hp, -⟩ <;> rw [hfree] at hp <;> simp at hp

/-- A block that is found on disk. -/
theorem opened [DecidableEq α] {all D : Finset α} {s : ℕ} {hD : D ⊆ all} (hI : I ⊆ D) :
    (opened all D s hD).Holds I birth none := by
  refine ⟨hI.trans hD, fun x hx => Or.inl ?_, fun x hx u hu => ?_⟩
  · simp [Ledger.opened, hI hx]
  · simp [Ledger.opened, hI hx] at hu

/-- Whatever leaves the bytes of a block as they are leaves the block as it is. -/
theorem congr {L' : Ledger α} (h : L.Holds I birth freedIn) (hall : L'.all = L.all)
    (hsyncing : L'.syncing = L.syncing) (hbyte : ∀ x ∈ I, L'.byte x = L.byte x) :
    L'.Holds I birth freedIn :=
  ⟨hall ▸ h.inside, fun x hx => by rw [hbyte x hx, hsyncing]; exact h.phase x hx,
    fun x hx => by rw [hbyte x hx]; exact h.dying x hx⟩

theorem allocate [DecidableEq α] (h : L.Holds I birth freedIn)
    {ht : L.syncing ≤ t ∧ t ≤ L.syncing + 2} {hJ : J ⊆ L.avail} :
      (L.allocate t J ht hJ).Holds I birth freedIn :=
  h.congr rfl rfl fun _ hx => if_neg fun hx' =>
    disjoint_left.mp h.disjoint_avail hx (hJ hx')

/-- The block that is handed out. -/
theorem allocated [DecidableEq α] {ht : L.syncing ≤ t ∧ t ≤ L.syncing + 2} {hI : I ⊆ L.avail} :
    (L.allocate t I ht hI).Holds I t none := by
  refine ⟨fun x hx => (mem_avail.mp (hI hx)).1, fun x hx => ?_, fun x hx u hu => ?_⟩
  · exact Or.inr (Or.inl ⟨t, le_rfl, by simp [Ledger.allocate, hx]⟩)
  · simp [Ledger.allocate, hx] at hu

theorem release [DecidableEq α] (h : L.Holds I birth freedIn) {hJ : J ⊆ L.alloc t}
    (hIJ : Disjoint I J) :
    (L.release t J hJ).Holds I birth freedIn :=
  h.congr rfl rfl fun _ hx => if_neg fun hx' => disjoint_left.mp hIJ hx hx'

/-- The bytes of a live block can be freed. -/
theorem deferrable (h : L.Holds I birth none) (ht : birth ≤ t) {x : α} (hx : x ∈ I) :
    (L.byte x).phase = .synced ∨ ∃ u, u ≤ t ∧ (L.byte x).phase = .allocated u := by
  rcases h.phase x hx with hp | ⟨u, hu, hp⟩ | ⟨-, hno⟩
  · exact Or.inl hp
  · exact Or.inr ⟨u, hu.trans ht, hp⟩
  · simp at hno

theorem not_dying (h : L.Holds I birth none) {x : α} (hx : x ∈ I) : (L.byte x).dying = none := by
  cases hd : (L.byte x).dying with
  | none => rfl
  | some u => exact absurd (h.dying x hx u hd) (by simp)

section

variable [DecidableEq α] {ht : L.syncing ≤ t ∧ t ≤ L.syncing + 2}
  {hJ : ∀ x ∈ J, (L.byte x).phase = .synced ∨ ∃ u, u ≤ t ∧ (L.byte x).phase = .allocated u}

theorem defer (h : L.Holds I birth freedIn) (hIJ : Disjoint I J) :
    (L.defer t J ht hJ).Holds I birth freedIn :=
  h.congr rfl rfl fun _ hx => if_neg fun hx' => disjoint_left.mp hIJ hx hx'

/-- The block that is freed. -/
theorem deferred (h : L.Holds J birth none) : (L.defer t J ht hJ).Holds J birth (some t) := by
  refine ⟨h.inside, fun x hx => ?_, fun x hx u hu => ?_⟩
  · have hp : ((L.defer t J ht hJ).byte x).phase = (L.byte x).phase := by simp [Ledger.defer, hx]
    rw [hp]
    exact (h.deferrable le_rfl hx).imp_right Or.inl
  · simpa [Ledger.defer, hx] using hu

end

/-- A block whose free was ignored. -/
theorem ignored (h : L.Holds I birth none) : L.Holds I birth (some t) := by
  refine ⟨h.inside, fun x hx => ?_, fun x hx u hu => absurd (h.dying x hx u hu) (by simp)⟩
  exact (h.deferrable le_rfl hx).imp_right Or.inl

theorem sync (h : L.Holds I birth freedIn) : L.sync.Holds I birth freedIn := by
  refine ⟨h.inside, fun x hx => ?_, fun x hx u hu => ?_⟩
  · rw [sync_phase]
    split_ifs with hd hp
    · exact Or.inr (Or.inr ⟨rfl, h.dying x hx _ hd⟩)
    · exact Or.inl rfl
    · exact h.phase x hx
  · rw [sync_dying] at hu
    split_ifs at hu with hd
    exact h.dying x hx u hu

section

variable (h : L.Holds I birth freedIn) {hA : L.alloc L.syncing = ∅} {hF : L.free L.syncing = ∅}

include h

theorem done_of_ne (hne : ∀ x ∈ I, (L.byte x).phase ≠ .freed) :
    (L.done hA hF).Holds I birth freedIn := by
  have hbyte : ∀ x ∈ I, (L.done hA hF).byte x = L.byte x := fun x hx => if_neg (hne x hx)
  refine ⟨h.inside, fun x hx => ?_, fun x hx => by rw [hbyte x hx]; exact h.dying x hx⟩
  rw [hbyte x hx]
  rcases h.phase x hx with hp | hp | ⟨hp, -⟩
  · exact Or.inl hp
  · exact Or.inr (Or.inl hp)
  · exact absurd hp (hne x hx)

/-- A block survives the end of the syncing group unless that group freed it. -/
theorem done (hlive : freedIn ≠ some L.syncing) : (L.done hA hF).Holds I birth freedIn := by
  refine h.done_of_ne fun x hx hp => ?_
  rcases h.phase x hx with hp' | ⟨u, -, hp'⟩ | ⟨-, hp'⟩
  · simp [hp] at hp'
  · simp [hp] at hp'
  · exact hlive hp'

/-- If nothing waits for the end of the group then all blocks survive it. -/
theorem skip (hfreed : L.freed = ∅) : (L.done hA hF).Holds I birth freedIn :=
  h.done_of_ne fun x hx hp => notMem_empty x (hfreed ▸ mem_freed.mpr ⟨h.inside hx, hp⟩)

end

end Holds

end Ledger

end Polaris
