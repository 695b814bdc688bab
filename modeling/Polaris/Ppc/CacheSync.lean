import Polaris.Lib.Memory

/-!
# Making written instructions visible

`sync_instruction_memory` of `os/ppc_subr.c`, as the cache operations it issues.  A cache block has
`2 ^ k` bytes; the sweep takes 32 for the smallest size there is.

## Main definitions

* `CacheOp`, `syncInstructionMemory`
* `Synced` — every block of a range is stored by the data cache and dropped by the instruction
  cache.
-/

namespace Polaris

open Mem
open BitVec hiding and_self

inductive CacheOp where
  | dcbst (a : BitVec 32)
  | ppcSync
  | icbi (a : BitVec 32)
  | isync
  deriving DecidableEq

/-- `for (a = sva, i = cnt; i != 0; a += MIN_CACHE_BLOCKSIZE, --i) op(a);`. -/
def cacheSweep (op : BitVec 32 → CacheOp) : ℕ → BitVec 32 → List CacheOp
  | 0, _ => []
  | i + 1, a => op a :: cacheSweep op i (off a 32)

/-- The number of blocks swept over; `MIN_CACHE_BLOCKSIZE_MASK` is 31. -/
def syncCount (addr len : BitVec 32) : BitVec 32 :=
  let sva := addr &&& 31#32
  let eva := (addr + len + 32#32 - 1#32) &&& 31#32
  (eva - sva) >>> 5

def syncInstructionMemory (addr len : BitVec 32) : List CacheOp :=
  let sva := addr &&& 31#32
  let cnt := (syncCount addr len).toNat
  cacheSweep .dcbst cnt sva ++ [.ppcSync] ++ cacheSweep .icbi cnt sva ++ [.ppcSync, .isync]

/-- Each block of `2 ^ k` bytes that meets the `len` bytes at `addr` is stored and invalidated. -/
def Synced (k : ℕ) (addr len : BitVec 32) (ops : List CacheOp) : Prop :=
  ∀ x : BitVec 32, (x - addr).toNat < len.toNat →
    (∃ a, CacheOp.dcbst a ∈ ops ∧ a.toNat / 2 ^ k = x.toNat / 2 ^ k) ∧
    (∃ a, CacheOp.icbi a ∈ ops ∧ a.toNat / 2 ^ k = x.toNat / 2 ^ k)

theorem mem_cacheSweep {op : BitVec 32 → CacheOp} {n : ℕ} {sva : BitVec 32} {c : CacheOp} :
    c ∈ cacheSweep op n sva ↔ ∃ i < n, c = op (off sva (32 * i)) := by
  induction n generalizing sva with
  | zero => simp [cacheSweep]
  | succ n ih =>
    rw [cacheSweep, List.mem_cons, ih, Nat.exists_lt_succ_left]
    simp only [off_off, Nat.mul_succ, Nat.add_comm 32, Nat.mul_zero, off_zero]

theorem toNat_and_31 (a : BitVec 32) : (a &&& 31#32).toNat = a.toNat % 32 := by
  rw [toNat_and]
  exact Nat.and_two_pow_sub_one_eq_mod a.toNat 5

/-- The masks keep the offsets within a block, not the blocks: nothing is swept, or all but the last
of the 32-byte blocks of the address space. -/
theorem toNat_syncCount (addr len : BitVec 32) :
    (syncCount addr len).toNat =
      if (addr.toNat + len.toNat + 31) % 32 < addr.toNat % 32 then 2 ^ 27 - 1 else 0 := by
  have heva : (addr + len + 32#32 - 1#32).toNat % 32 = (addr.toNat + len.toNat + 31) % 32 := by
    rw [toNat_sub, toNat_add, toNat_add, toNat_ofNat, toNat_ofNat]
    omega
  rw [syncCount, toNat_ushiftRight, toNat_sub, toNat_and_31, toNat_and_31, heva,
    Nat.shiftRight_eq_div_pow]
  split <;> omega

/-- The block of the `i`-th address of a sweep. -/
theorem off_sva_div {k : ℕ} (hk : 5 ≤ k) (addr : BitVec 32) {i : ℕ} (hi : i < 2 ^ 27) :
    (off (addr &&& 31#32) (32 * i)).toNat / 2 ^ k = i / 2 ^ (k - 5) := by
  rw [off, toNat_add, toNat_and_31, toNat_ofNat,
    show 2 ^ k = 32 * 2 ^ (k - 5) by rw [← Nat.pow_add 2 5, Nat.add_sub_cancel' hk],
    ← Nat.div_div_eq_div_mul]
  congr 1
  omega

/-- A sweep of all but the last 32 bytes meets the block of `x`. -/
theorem exists_swept_iff {k : ℕ} (hk : 5 ≤ k) (addr x : BitVec 32) :
    (∃ i < 2 ^ 27 - 1, (off (addr &&& 31#32) (32 * i)).toNat / 2 ^ k = x.toNat / 2 ^ k) ↔
      5 < k ∨ x.toNat < 2 ^ 32 - 32 := by
  have hx : x.toNat / 2 ^ k = x.toNat / 32 / 2 ^ (k - 5) := by
    rw [Nat.div_div_eq_div_mul, ← Nat.pow_add 2 5, Nat.add_sub_cancel' hk]
  rw [hx]
  constructor
  · rintro ⟨i, hi, heq⟩
    rw [off_sva_div hk addr (by omega)] at heq
    rcases Nat.eq_or_lt_of_le hk with rfl | hlarge
    · rw [Nat.sub_self, Nat.pow_zero, Nat.div_one, Nat.div_one] at heq
      omega
    · exact .inl hlarge
  · intro h
    by_cases hlast : x.toNat < 2 ^ 32 - 32
    · exact ⟨x.toNat / 32, by omega, off_sva_div hk addr (by omega)⟩
    -- the last 32 bytes share their block with the 32 bytes before
    refine ⟨2 ^ 27 - 2, by omega, ?_⟩
    rw [off_sva_div hk addr (by omega), show k - 5 = 1 + (k - 6) by omega, Nat.pow_add, Nat.pow_one,
      ← Nat.div_div_eq_div_mul, ← Nat.div_div_eq_div_mul]
    congr 1
    omega

theorem mem_syncInstructionMemory {addr len a : BitVec 32} {op : BitVec 32 → CacheOp}
    (hop : op = .dcbst ∨ op = .icbi) : op a ∈ syncInstructionMemory addr len ↔
      ∃ i < (syncCount addr len).toNat, a = off (addr &&& 31#32) (32 * i) := by
  rcases hop with rfl | rfl
  all_goals simp [syncInstructionMemory, mem_cacheSweep]

/-- **What `sync_instruction_memory` reaches.**  A range is synchronized exactly when it is empty,
or when the offset of its end within a block, rounded up, is below that of its start, and the last
32 bytes of the address space, which no sweep names, are not in it or share a larger block with
others. -/
theorem syncInstructionMemory_synced_iff {k : ℕ} (hk : 5 ≤ k) (addr len : BitVec 32) :
    Synced k addr len (syncInstructionMemory addr len) ↔
      len = 0#32 ∨ (addr.toNat + len.toNat + 31) % 32 < addr.toNat % 32 ∧
        (5 < k ∨ addr.toNat + len.toNat ≤ 2 ^ 32 - 32) := by
  have hswept : Synced k addr len (syncInstructionMemory addr len) ↔
      ∀ x : BitVec 32, (x - addr).toNat < len.toNat → ∃ i < (syncCount addr len).toNat,
        (off (addr &&& 31#32) (32 * i)).toNat / 2 ^ k = x.toNat / 2 ^ k := by
    simp only [Synced, mem_syncInstructionMemory, true_or, or_true, and_self]
    refine forall₂_congr fun x _ => ⟨?_, ?_⟩
    · rintro ⟨_, ⟨i, hi, rfl⟩, heq⟩
      exact ⟨i, hi, heq⟩
    · rintro ⟨i, hi, heq⟩
      exact ⟨_, ⟨i, hi, rfl⟩, heq⟩
  have hlen : len = 0#32 ↔ len.toNat = 0 := by rw [← toNat_inj]; rfl
  rw [hswept, toNat_syncCount, hlen]
  split
  next hphase =>
    simp only [exists_swept_iff hk, hphase, true_and]
    constructor
    · intro h
      by_contra hnot
      -- the first byte of the range among the last 32 of the address space
      have := h (BitVec.ofNat 32 (max addr.toNat (2 ^ 32 - 32)))
      rw [toNat_sub, toNat_ofNat] at this
      omega
    · intro h x hx
      rw [toNat_sub] at hx
      omega
  next hphase =>
    simp only [hphase, false_and, or_false, Nat.not_lt_zero, exists_false]
    constructor
    · intro h
      by_contra hne
      exact h addr (by rw [BitVec.sub_self]; exact Nat.pos_of_ne_zero hne)
    · intro h x hx
      omega

/-- One instruction at the start of a block of 32 bytes. -/
theorem not_synced_instruction :
    ¬ Synced 5 0x1000#32 4#32 (syncInstructionMemory 0x1000#32 4#32) := by
  intro h
  obtain ⟨⟨a, ha, _⟩, _⟩ := h 0x1000#32 (by decide)
  obtain ⟨i, hi, _⟩ := (mem_syncInstructionMemory (.inl rfl)).mp ha
  exact absurd hi (Nat.not_lt_zero i)

/-- Two bytes across a boundary: the whole address space is swept. -/
theorem synced_across_blocks : Synced 5 0x101f#32 2#32 (syncInstructionMemory 0x101f#32 2#32) :=
  (syncInstructionMemory_synced_iff (le_refl 5) _ _).mpr (.inr (by decide))

end Polaris
