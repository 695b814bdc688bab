import Mathlib.Algebra.Group.Nat.Defs
import Mathlib.Algebra.Ring.Int.Defs
import Mathlib.Order.Basic
import Mathlib.Tactic.Common

/-!
# Branches and scratch space of the DIF emulator

Two parts of `dtrace_dif_emulate` that compute with words as if they were numbers.  A compare leaves
condition codes behind in the manner of a processor, but never sets the overflow code.  Scratch
space is handed out by one comparison of a sum that can wrap around.

## Main definitions

* `difCmp`, `DifBranch.taken` — comparing and branching.
* `difScratch` — `allocs`, `alloca()` and `copyin()`.
* `ScratchRight` — scratch space as it should be handed out.
-/

namespace Polaris

/-! ## Branches -/

/-- The condition codes. -/
structure DifCc where
  ccN : Bool
  ccZ : Bool
  ccV : Bool
  ccC : Bool

/-- `DIF_OP_CMP`. -/
def difCmp (a b : BitVec 64) : DifCc where
  ccN := (a - b).slt 0#64
  ccZ := a - b = 0#64
  ccV := false
  ccC := a < b

inductive DifBranch
  | ba | be | bne | bg | bgu | bge | bgeu | bl | blu | ble | bleu
  deriving DecidableEq

/-- Whether the branch goes to its label. -/
def DifBranch.taken (cc : DifCc) : DifBranch → Bool
  | ba => true
  | be => cc.ccZ
  | bne => !cc.ccZ
  | bg => !(cc.ccZ || (cc.ccN ^^ cc.ccV))
  | bgu => !(cc.ccC || cc.ccZ)
  | bge => !(cc.ccN ^^ cc.ccV)
  | bgeu => !cc.ccC
  | bl => cc.ccN ^^ cc.ccV
  | blu => cc.ccC
  | ble => cc.ccZ || (cc.ccN ^^ cc.ccV)
  | bleu => cc.ccC || cc.ccZ

/-- What the branch is for, after a compare. -/
def DifBranch.Holds (a b : BitVec 64) : DifBranch → Prop
  | ba => True
  | be => a = b
  | bne => a ≠ b
  | bg => a.toInt > b.toInt
  | bgu => a.toNat > b.toNat
  | bge => a.toInt ≥ b.toInt
  | bgeu => a.toNat ≥ b.toNat
  | bl => a.toInt < b.toInt
  | blu => a.toNat < b.toNat
  | ble => a.toInt ≤ b.toInt
  | bleu => a.toNat ≤ b.toNat

/-- The difference is a signed word. -/
def DifferenceFits (a b : BitVec 64) : Prop :=
  -2 ^ 63 ≤ a.toInt - b.toInt ∧ a.toInt - b.toInt < 2 ^ 63

/-- The sign of the difference is that of the wrapped one only if it fits. -/
theorem ccN_difCmp (a b : BitVec 64) :
    (difCmp a b).ccN ↔ (a.toInt < b.toInt ↔ DifferenceFits a b) := by
  have ha := a.toInt_lt
  have ha' := a.le_toInt
  have hb := b.toInt_lt
  have hb' := b.le_toInt
  simp only [difCmp, BitVec.slt_iff_toInt_lt, BitVec.toInt_sub, BitVec.toInt_zero, DifferenceFits]
  rw [Int.bmod_def]
  omega

/-- Where the difference fits, the codes are the relations. -/
theorem difCmp_of_fits {a b : BitVec 64} (h : DifferenceFits a b) :
    difCmp a b = ⟨a.toInt < b.toInt, a = b, false, a.toNat < b.toNat⟩ := by
  have hn : (a - b).slt 0#64 = decide (a.toInt < b.toInt) := by
    rw [Bool.eq_iff_iff, decide_eq_true_iff]
    exact (ccN_difCmp a b).trans (iff_true_right h)
  have hz : a - b = 0#64 ↔ a = b := by rw [BitVec.sub_eq_iff_eq_add, BitVec.zero_add]
  simp only [difCmp, hn, hz, BitVec.lt_def]

theorem difBranch_right_iff (a b : BitVec 64) :
    (∀ br : DifBranch, br.taken (difCmp a b) ↔ br.Holds a b) ↔ DifferenceFits a b := by
  constructor
  · intro h
    have hn := ccN_difCmp a b
    have hl : (difCmp a b).ccN ↔ a.toInt < b.toInt := by
      simpa [DifBranch.taken, DifBranch.Holds, difCmp] using h .bl
    tauto
  · intro hfits br
    rw [difCmp_of_fits hfits]
    by_cases hab : a = b
    · subst hab
      cases br <;> simp [DifBranch.taken, DifBranch.Holds]
    · have hint : a.toInt ≠ b.toInt := fun h => hab (BitVec.toInt_inj.mp h)
      have hnat : a.toNat ≠ b.toNat := fun h => hab (BitVec.toNat_inj.mp h)
      cases br <;> simp [DifBranch.taken, DifBranch.Holds, hab] <;> omega

/-- The least signed word is less than 1, and the branch is not taken. -/
theorem difBranch_bl_min :
    DifBranch.bl.taken (difCmp 0x8000000000000000#64 1#64) = false ∧
      DifBranch.bl.Holds 0x8000000000000000#64 1#64 := by
  constructor
  · decide
  · exact (by decide : (0x8000000000000000#64).toInt < (1#64).toInt)

/-! ## Scratch space -/

inductive DataModel
  | ilp32 | lp64

/-- The number of addresses. -/
def DataModel.space : DataModel → ℕ
  | ilp32 => 2 ^ 32
  | lp64 => 2 ^ 64

/-- The scratch space of a probe firing. -/
structure ScratchArea (m : DataModel) where
  dtmsScratchBase : ℕ
  dtmsScratchSize : ℕ
  limit_lt : dtmsScratchBase + dtmsScratchSize < m.space

/-- The operations that hand out scratch space, with their registers. -/
inductive ScratchOp
  | allocs (size : BitVec 64)
  | alloca (size : BitVec 64)
  | copyin (src size : BitVec 64)

def ScratchOp.size : ScratchOp → ℕ
  | allocs size | alloca size | copyin _ size => size.toNat

/-- `dtms_scratch_ptr`, the register written and whether `CPU_DTRACE_NOSCRATCH` is set. -/
structure ScratchResult where
  ptr : ℕ
  rd : ℕ
  noscratch : Bool

/-- `P2ROUNDUP(ptr, 8)` before it wraps around. -/
def scratchAlign (ptr : ℕ) : ℕ := (ptr + 7) / 8 * 8

variable {m : DataModel}

def ScratchArea.limit (A : ScratchArea m) : ℕ := A.dtmsScratchBase + A.dtmsScratchSize

/-- `DIF_OP_ALLOCS`, `DIF_SUBR_ALLOCA` and `DIF_SUBR_COPYIN`.  The sum that makes up the size is one
of 64 bits, and is then narrowed to a `size_t`. -/
def difScratch (A : ScratchArea m) (ptr : ℕ) (op : ScratchOp) : ScratchResult :=
  let dest := scratchAlign ptr % m.space
  let size := ((dest + m.space - ptr) % m.space + op.size) % 2 ^ 64 % m.space
  if A.limit < (ptr + size) % m.space then ⟨ptr, 0, true⟩
  else ⟨(ptr + size) % m.space, dest, false⟩

/-- One operation with the pointer at `ptr` and the given blocks handed out. -/
def ScratchStepRight (A : ScratchArea m) (ptr : ℕ) (blocks : List (ℕ × ℕ)) (op : ScratchOp) :
    Prop :=
  let r := difScratch A ptr op
  (A.dtmsScratchBase ≤ r.ptr ∧ r.ptr ≤ A.limit ∧ ptr ≤ r.ptr) ∧
    (A.limit < scratchAlign ptr + op.size → r.noscratch ∧ r.ptr = ptr) ∧
    (r.noscratch = false → (A.dtmsScratchBase ≤ r.rd ∧ r.rd + op.size ≤ A.limit) ∧
      ∀ b ∈ blocks, b.1 + b.2 ≤ r.rd ∨ r.rd + op.size ≤ b.1)

/-- The blocks after one operation. -/
def scratchBlocks (A : ScratchArea m) (ptr : ℕ) (blocks : List (ℕ × ℕ)) (op : ScratchOp) :
    List (ℕ × ℕ) :=
  let r := difScratch A ptr op
  if r.noscratch then blocks else (r.rd, op.size) :: blocks

/-- Every operation of a firing is right. -/
def ScratchRight (A : ScratchArea m) (ptr : ℕ) (blocks : List (ℕ × ℕ)) : List ScratchOp → Prop
  | [] => True
  | op :: ops => ScratchStepRight A ptr blocks op ∧
    ScratchRight A (difScratch A ptr op).ptr (scratchBlocks A ptr blocks op) ops

/-- No end of a block wraps around to where the comparison lets it pass. -/
def ScratchNoWrap (A : ScratchArea m) (ptr : ℕ) : List ScratchOp → Prop
  | [] => True
  | op :: ops =>
    ((scratchAlign ptr + op.size) % m.space ≤ A.limit → scratchAlign ptr + op.size ≤ A.limit) ∧
      ScratchNoWrap A (difScratch A ptr op).ptr ops

theorem difScratch_eq (A : ScratchArea m) {ptr : ℕ} (hptr : ptr < m.space) (op : ScratchOp) :
    difScratch A ptr op =
      if A.limit < (scratchAlign ptr + op.size) % m.space then ⟨ptr, 0, true⟩
      else ⟨(scratchAlign ptr + op.size) % m.space, scratchAlign ptr % m.space, false⟩ := by
  have hend : (ptr + ((scratchAlign ptr % m.space + m.space - ptr) % m.space + op.size)
      % 2 ^ 64 % m.space) % m.space = (scratchAlign ptr + op.size) % m.space := by
    cases m <;> simp only [DataModel.space] at hptr ⊢ <;> omega
  simp only [difScratch, hend]

section Step

variable {A : ScratchArea m} {ptr : ℕ} {blocks : List (ℕ × ℕ)} {op : ScratchOp}

theorem le_scratchAlign (ptr : ℕ) : ptr ≤ scratchAlign ptr := by
  unfold scratchAlign
  omega

/-- A block that fits is handed out as asked for. -/
theorem difScratch_of_le (h : scratchAlign ptr + op.size ≤ A.limit) :
    difScratch A ptr op = ⟨scratchAlign ptr + op.size, scratchAlign ptr, false⟩ := by
  have hlim : A.limit < m.space := A.limit_lt
  have halign := le_scratchAlign ptr
  rw [difScratch_eq A (by omega), Nat.mod_eq_of_lt (by omega), Nat.mod_eq_of_lt (by omega),
    if_neg (by omega)]

theorem difScratch_of_lt (hptr : ptr ≤ A.limit)
    (h : A.limit < (scratchAlign ptr + op.size) % m.space) :
      difScratch A ptr op = ⟨ptr, 0, true⟩ := by
  rw [difScratch_eq A (hptr.trans_lt A.limit_lt), if_pos h]

theorem scratchStepRight_iff (hbase : A.dtmsScratchBase ≤ ptr) (hptr : ptr ≤ A.limit)
    (hblocks : ∀ b ∈ blocks, b.1 + b.2 ≤ ptr) :
    ScratchStepRight A ptr blocks op ↔
      ((scratchAlign ptr + op.size) % m.space ≤ A.limit →
        scratchAlign ptr + op.size ≤ A.limit) := by
  have halign := le_scratchAlign ptr
  constructor
  · intro hright hwrap
    by_contra hfit
    have hno := (hright.2.1 (not_le.mp hfit)).1
    rw [difScratch_eq A (hptr.trans_lt A.limit_lt), if_neg (not_lt.mpr hwrap)] at hno
    simp at hno
  · intro hwrap
    unfold ScratchStepRight
    rcases lt_or_ge A.limit ((scratchAlign ptr + op.size) % m.space) with h | h
    · simp [difScratch_of_lt hptr h, hbase, hptr]
    · have hfit := hwrap h
      simp only [difScratch_of_le hfit]
      refine ⟨by omega, by omega, fun _ => ⟨by omega, fun b hb => .inl ?_⟩⟩
      exact (hblocks b hb).trans halign

/-- A right step leaves all blocks below the pointer. -/
theorem scratchBlocks_le (hblocks : ∀ b ∈ blocks, b.1 + b.2 ≤ ptr)
    (hright : ScratchStepRight A ptr blocks op) :
    ∀ b ∈ scratchBlocks A ptr blocks op, b.1 + b.2 ≤ (difScratch A ptr op).ptr := by
  intro b hb
  rcases Nat.lt_or_ge A.limit (scratchAlign ptr + op.size) with h | h
  · obtain ⟨hno, hsame⟩ := hright.2.1 h
    rw [scratchBlocks, if_pos hno] at hb
    rw [hsame]
    exact hblocks b hb
  · simp only [scratchBlocks, difScratch_of_le h] at hb ⊢
    rcases List.mem_cons.mp hb with rfl | hb
    · exact le_rfl
    · have := hblocks b hb
      have := le_scratchAlign ptr
      omega

end Step

theorem scratchRight_iff_of_le {A : ScratchArea m} (ops : List ScratchOp) :
    ∀ {ptr : ℕ} {blocks : List (ℕ × ℕ)}, A.dtmsScratchBase ≤ ptr → ptr ≤ A.limit →
      (∀ b ∈ blocks, b.1 + b.2 ≤ ptr) →
      (ScratchRight A ptr blocks ops ↔ ScratchNoWrap A ptr ops) := by
  induction ops with
  | nil => exact fun _ _ _ => Iff.rfl
  | cons op ops ih =>
    intro ptr blocks hbase hptr hblocks
    rw [ScratchRight, ScratchNoWrap, ← scratchStepRight_iff hbase hptr hblocks]
    refine and_congr_right fun hright => ih hright.1.1 hright.1.2.1 ?_
    exact scratchBlocks_le hblocks hright

theorem scratchRight_iff (A : ScratchArea m) (ops : List ScratchOp) :
    ScratchRight A A.dtmsScratchBase [] ops ↔ ScratchNoWrap A A.dtmsScratchBase ops := by
  refine scratchRight_iff_of_le ops le_rfl (Nat.le_add_right _ _) ?_
  simp

/-- Asking for all but 8 bytes of the address space moves the pointer below the scratch space. -/
theorem scratchRight_alloca_max :
    ¬ScratchRight (⟨0x1000, 0x100, by decide⟩ : ScratchArea .lp64) 0x1000 []
      [.alloca 0xfffffffffffffff8#64] := by
  intro h
  exact absurd h.1.1.1 (by decide)

end Polaris
