import Mathlib.Algebra.GroupWithZero.Nat
import Mathlib.Algebra.Ring.Int.Defs
import Polaris.Lib.Memory

/-!
# Relocating kernel modules

`do_reloc` of `krtld/doreloc.c` with its table, over a memory of 32-bit addresses.  The flags come
from two headers, and `FLG_RE_BRTAK` and `FLG_RE_SIGN` are the same bit.

## Main definitions

* `RelocType`, `relocTable`, `doReloc`
* `AbiField`, `abiField` — what the ABI writes, and where.
* `Representable`, `predictedTaken` — what the range check and the hint bit are for.
-/

namespace Polaris

open Mem BitVec

/-! ## The table -/

/-- `R_PPC_*`. -/
inductive RelocType where
  | none | addr32 | addr24 | addr16 | addr16Lo | addr16Hi | addr16Ha
  | addr14 | addr14Brtaken | addr14Brntaken | rel24 | rel14 | rel14Brtaken | rel14Brntaken
  | got16 | got16Lo | got16Hi | got16Ha | pltrel24 | copy | globDat | jmpSlot | relative | local24pc
  | uaddr32 | uaddr16 | rel32 | plt32 | pltrel32 | plt16Lo | plt16Hi | plt16Ha
  | sdarel16 | sectoff | sectoffLo | sectoffHi | sectoffHa | addr30
  deriving DecidableEq

def flgReNotrel : BitVec 32 := 0x0#32
def flgReGotrel : BitVec 32 := 0x2#32
def flgReRelpc : BitVec 32 := 0x4#32
def flgRePcrel : BitVec 32 := 0x10#32
def flgRePltrel : BitVec 32 := 0x20#32
def flgReVerify : BitVec 32 := 0x40#32
def flgReUnalign : BitVec 32 := 0x80#32
def flgReHa : BitVec 32 := 0x100#32
def flgReSign : BitVec 32 := 0x200#32
def flgReBrtak : BitVec 32 := 0x200#32
def flgReBrntak : BitVec 32 := 0x400#32
def flgReSdarel : BitVec 32 := 0x800#32
def flgReSectrel : BitVec 32 := 0x1000#32

structure RelEntry where
  reFlags : BitVec 32
  reFsize : ℕ
  reBshift : ℕ
  reSigbits : ℕ
  reResshift : ℕ

/-- `reloc_table`. -/
def relocTable : RelocType → RelEntry
  | .none => ⟨0#32, 0, 0, 0, 0⟩
  | .addr32 => ⟨flgReNotrel, 4, 0, 0, 0⟩
  | .addr24 => ⟨flgReNotrel ||| flgReVerify, 4, 2, 24, 2⟩
  | .addr16 => ⟨flgReNotrel ||| flgReVerify, 2, 0, 0, 0⟩
  | .addr16Lo => ⟨flgReNotrel, 2, 0, 16, 0⟩
  | .addr16Hi => ⟨flgReNotrel, 2, 16, 16, 0⟩
  | .addr16Ha => ⟨flgReNotrel ||| flgReHa, 2, 16, 16, 0⟩
  | .addr14 => ⟨flgReNotrel ||| flgReVerify, 4, 2, 14, 2⟩
  | .addr14Brtaken => ⟨flgReNotrel ||| flgReVerify ||| flgReBrtak, 4, 2, 14, 2⟩
  | .addr14Brntaken => ⟨flgReNotrel ||| flgReVerify ||| flgReBrntak, 4, 2, 14, 2⟩
  | .rel24 => ⟨flgRePcrel ||| flgReVerify ||| flgReSign, 4, 2, 24, 2⟩
  | .rel14 => ⟨flgRePcrel ||| flgReVerify ||| flgReSign, 4, 2, 14, 2⟩
  | .rel14Brtaken => ⟨flgRePcrel ||| flgReVerify ||| flgReSign ||| flgReBrtak, 4, 2, 14, 2⟩
  | .rel14Brntaken => ⟨flgRePcrel ||| flgReVerify ||| flgReSign ||| flgReBrntak, 4, 2, 14, 2⟩
  | .got16 => ⟨flgReGotrel ||| flgReVerify ||| flgReSign, 2, 0, 0, 0⟩
  | .got16Lo => ⟨flgReGotrel, 2, 0, 16, 0⟩
  | .got16Hi => ⟨flgReGotrel, 2, 16, 16, 0⟩
  | .got16Ha => ⟨flgReGotrel ||| flgReHa, 2, 16, 16, 0⟩
  | .pltrel24 => ⟨flgRePltrel ||| flgRePcrel ||| flgReVerify ||| flgReSign, 4, 2, 24, 2⟩
  | .copy => ⟨0#32, 0, 0, 0, 0⟩
  | .globDat => ⟨flgReNotrel, 4, 0, 0, 0⟩
  | .jmpSlot => ⟨0#32, 0, 0, 0, 0⟩
  | .relative => ⟨flgReNotrel, 4, 0, 0, 0⟩
  | .local24pc => ⟨flgReRelpc ||| flgRePcrel ||| flgReVerify ||| flgReSign, 4, 2, 24, 2⟩
  | .uaddr32 => ⟨flgReNotrel ||| flgReUnalign, 4, 0, 0, 0⟩
  | .uaddr16 => ⟨flgReNotrel ||| flgReUnalign, 2, 0, 0, 0⟩
  | .rel32 => ⟨flgRePcrel, 4, 0, 0, 0⟩
  | .plt32 => ⟨flgRePltrel, 4, 0, 0, 0⟩
  | .pltrel32 => ⟨flgRePltrel ||| flgRePcrel, 4, 0, 0, 0⟩
  | .plt16Lo => ⟨flgRePltrel, 2, 0, 16, 0⟩
  | .plt16Hi => ⟨flgRePltrel, 2, 16, 16, 0⟩
  | .plt16Ha => ⟨flgRePltrel ||| flgReHa, 2, 16, 16, 0⟩
  | .sdarel16 => ⟨flgReSdarel ||| flgReVerify, 2, 0, 0, 0⟩
  | .sectoff => ⟨flgReSectrel ||| flgReVerify, 2, 0, 0, 0⟩
  | .sectoffLo => ⟨flgReSectrel, 2, 0, 16, 0⟩
  | .sectoffHi => ⟨flgReSectrel, 2, 16, 16, 0⟩
  | .sectoffHa => ⟨flgReSectrel ||| flgReHa, 2, 16, 16, 0⟩
  | .addr30 => ⟨flgRePcrel ||| flgReSign, 4, 2, 30, 2⟩

/-! ## `do_reloc` -/

/-- The message a failing `do_reloc` prints. -/
inductive RelocError where
  | unimpl | nonalign | unnobits | losebits | nofit
  deriving DecidableEq

/-- `S_MASK`. -/
def sMask (n : ℕ) : BitVec 32 := (1#32 <<< n) - 1#32

/-- `S_INRANGE`. -/
def sInrange (v : BitVec 32) (n : ℕ) : Bool :=
  (-(1#32 <<< n) - 1#32).slt v && v.slt (1#32 <<< n)

/-- The field of 1, 2 or 4 bytes at `a`, as a word. -/
def fieldWord (m : Mem 32) (a : BitVec 32) : ℕ → BitVec 32
  | 1 => (m a).setWidth 32
  | 2 => (m a ++ m (off a 1)).setWidth 32
  | 4 => m.load32 a
  | _ => 0#32

def storeField (m : Mem 32) (a uvalue : BitVec 32) : ℕ → Mem 32
  | 1 => m.store8 a (uvalue.setWidth 8)
  | 2 => (m.store8 a (uvalue.extractLsb' 8 8)).store8 (off a 1) (uvalue.extractLsb' 0 8)
  | 4 => m.store32 a uvalue
  | _ => m

/-- `for (i = field_size - 1; i > 0; i--) dest[i] = off[i];` into the bytes of a zero word. -/
def unalignLoad (m : Mem 32) (a : BitVec 32) : ℕ → BitVec 32
  | 0 => 0#32
  | i + 1 => unalignLoad m a i ||| (m (off a (i + 1))).setWidth 32 <<< (8 * (3 - (i + 1)))

/-- `for (i = field_size - 1; i > 0; i--) off[i] = src[i];`. -/
def unalignStore (uvalue a : BitVec 32) : ℕ → Mem 32 → Mem 32
  | 0, m => m
  | i + 1, m =>
    unalignStore uvalue a i (m.store8 (off a (i + 1)) (uvalue.extractLsb' (8 * (3 - (i + 1))) 8))

namespace RelEntry

variable (rep : RelEntry)

def has (flg : BitVec 32) : Bool := rep.reFlags &&& flg ≠ 0#32

/-- `basevalue` as it is read. -/
def base (m : Mem 32) (a : BitVec 32) : Except RelocError (BitVec 32) :=
  if rep.has flgReUnalign then .ok (unalignLoad m a (rep.reFsize - 1))
  else if rep.reFsize = 2 ∧ a &&& 1#32 ≠ 0#32 ∨ rep.reFsize = 4 ∧ a &&& 3#32 ≠ 0#32 then
    .error .nonalign
  else if rep.reFsize = 1 ∨ rep.reFsize = 2 ∨ rep.reFsize = 4 then .ok (fieldWord m a rep.reFsize)
  else .error .unnobits

/-- `uvalue` with `*value` added to what the field holds. -/
def sum (base value : BitVec 32) : BitVec 32 :=
  let held :=
    if sMask rep.reSigbits ≠ 0#32 then (base >>> rep.reResshift) &&& sMask rep.reSigbits else base
  (held <<< rep.reBshift) + value

/-- `uvalue` after its shift. -/
def shift (uvalue : BitVec 32) : BitVec 32 :=
  if rep.reBshift = 0 then uvalue
  else if rep.has flgReHa then
    uvalue.sshiftRight 16 + (if uvalue &&& 0x8000#32 ≠ 0#32 then 1#32 else 0#32)
  else uvalue.sshiftRight rep.reBshift

/-- `corevalue` after its shift. -/
def coreShift (corevalue : BitVec 32) : BitVec 32 :=
  if rep.reBshift = 0 then corevalue
  else if rep.has flgReHa then
    (corevalue >>> 16) + (if corevalue &&& 0x8000#32 ≠ 0#32 then 1#32 else 0#32)
  else corevalue >>> rep.reBshift

def fits (uvalue : BitVec 32) : Bool :=
  if rep.has flgReSign then sInrange uvalue (rep.reSigbits - 1)
  else sMask rep.reSigbits &&& uvalue = uvalue

/-- The field with `disp` in it. -/
def insert (base disp : BitVec 32) : BitVec 32 :=
  base &&& ~~~(sMask rep.reSigbits <<< rep.reResshift) |||
    (disp &&& sMask rep.reSigbits) <<< rep.reResshift

/-- Bit 10 of an instruction, counted from the left, with the hint. -/
def hint (disp uvalue : BitVec 32) : BitVec 32 :=
  if rep.has flgReBrtak then
    if (0#32).slt disp then uvalue ||| 0x00200000#32 else uvalue &&& ~~~0x00200000#32
  else if rep.has flgReBrntak then
    if disp.slt 0#32 then uvalue &&& ~~~0x00200000#32 else uvalue ||| 0x00200000#32
  else uvalue

def combine (base disp : BitVec 32) : BitVec 32 :=
  if sMask rep.reSigbits ≠ 0#32 then rep.hint disp (rep.insert base disp) else disp

def store (m : Mem 32) (a uvalue : BitVec 32) : Mem 32 :=
  if rep.has flgReUnalign then unalignStore uvalue a (rep.reFsize - 1) m
  else storeField m a uvalue rep.reFsize

end RelEntry

open RelEntry

/-- `do_reloc` at the address `a`: the memory and `*value` after it; one that fails writes nothing.
-/
def doReloc (m : Mem 32) (rtype : RelocType) (a value : BitVec 32) :
    Except RelocError (Mem 32 × BitVec 32) :=
  let rep := relocTable rtype
  if rep.reFsize = 0 then .error .unimpl
  else match rep.base m a with
    | .error e => .error e
    | .ok base =>
      let uvalue := rep.sum base value
      if rep.reBshift = 2 ∧ uvalue &&& 3#32 ≠ 0#32 then .error .losebits
      else
        let disp := rep.shift uvalue
        if rep.has flgReVerify ∧ sMask rep.reSigbits ≠ 0#32 ∧ ¬ rep.fits disp then .error .nofit
        else .ok (rep.store m a (rep.combine base disp), rep.coreShift value)

section Run

variable {m : Mem 32} {rtype : RelocType} {a value : BitVec 32}

/-- What a call that succeeds has passed, and what it returns. -/
theorem doReloc_ok_iff {r : Mem 32 × BitVec 32} : doReloc m rtype a value = .ok r ↔
    let rep := relocTable rtype
    rep.reFsize ≠ 0 ∧ ∃ base, rep.base m a = .ok base ∧
      (rep.reBshift = 2 → rep.sum base value &&& 3#32 = 0#32) ∧
      (rep.has flgReVerify → sMask rep.reSigbits ≠ 0#32 →
        rep.fits (rep.shift (rep.sum base value))) ∧
      r = (rep.store m a (rep.combine base (rep.shift (rep.sum base value))),
        rep.coreShift value) := by
  rw [doReloc]
  dsimp only
  split
  next h => simp [h]
  next hsize =>
    cases hbase : (relocTable rtype).base m a with
    | error e => simp
    | ok base =>
      simp only [ne_eq, hsize, not_false_eq_true, true_and, Except.ok.injEq, exists_eq_left']
      split
      next h => simp [h]
      next hbits =>
        split
        next h => simp [h]
        next hfit =>
          rw [Except.ok.injEq, eq_comm]
          refine ⟨fun h => ⟨fun h2 => ?_, fun hv hmask => ?_, h⟩, fun h => h.2.2⟩
          · exact not_not.mp (not_and.mp hbits h2)
          · exact not_not.mp fun hnot => hfit ⟨hv, hmask, hnot⟩

end Run

/-! ## What the ABI writes -/

/-- Bits of a field and the value that belongs there. -/
structure AbiField where
  low : ℕ
  width : ℕ
  value : BitVec 32 → BitVec 32

namespace AbiField

def word32 : AbiField := ⟨0, 32, id⟩
def half16 : AbiField := ⟨0, 16, id⟩
def half16Hi : AbiField := ⟨0, 16, fun v => v.sshiftRight 16⟩
def half16Ha : AbiField :=
  ⟨0, 16, fun v => v.sshiftRight 16 + if v &&& 0x8000#32 ≠ 0#32 then 1#32 else 0#32⟩
def low24 : AbiField := ⟨2, 24, fun v => v.sshiftRight 2⟩
def low14 : AbiField := ⟨2, 14, fun v => v.sshiftRight 2⟩
def word30 : AbiField := ⟨2, 30, fun v => v.sshiftRight 2⟩

/-- Bit `i` of a word `old` with `v` relocated in it: the field is written, and nothing else. -/
def bit (f : AbiField) (v old : BitVec 32) (i : ℕ) : Bool :=
  if f.low ≤ i ∧ i < f.low + f.width then (f.value v).getLsbD (i - f.low) else old.getLsbD i

end AbiField

/-- The field of the aligned types without a branch hint; some types have none. -/
def abiField : RelocType → Option AbiField
  | .none | .copy | .jmpSlot => some ⟨0, 0, id⟩
  | .addr32 | .globDat | .relative | .rel32 | .plt32 | .pltrel32 => some .word32
  | .addr24 | .rel24 | .pltrel24 | .local24pc => some .low24
  | .addr14 | .rel14 => some .low14
  | .addr30 => some .word30
  | .addr16 | .got16 | .sdarel16 | .sectoff => some .half16
  | .addr16Lo | .got16Lo | .plt16Lo | .sectoffLo => some .half16
  | .addr16Hi | .got16Hi | .plt16Hi | .sectoffHi => some .half16Hi
  | .addr16Ha | .got16Ha | .plt16Ha | .sectoffHa => some .half16Ha
  | .addr14Brtaken | .addr14Brntaken | .rel14Brtaken | .rel14Brntaken | .uaddr32 | .uaddr16 => none

/-- The types with `FLG_RE_SIGN` and significant bits: they get a branch hint. -/
def RelocType.hinted (rtype : RelocType) : Bool :=
  (relocTable rtype).has flgReSign && (relocTable rtype).reSigbits ≠ 0

variable {n i : ℕ} {rtype : RelocType} {a v w : BitVec 32}

theorem toNat_one_shiftLeft (hn : n < 32) : (1#32 <<< n).toNat = 2 ^ n := by
  have hpow : 2 ^ n < 2 ^ 32 := Nat.pow_lt_pow_right (by decide) hn
  rw [toNat_shiftLeft, toNat_ofNat, Nat.shiftLeft_eq]
  omega

theorem getLsbD_sMask (hn : n < 32) (i : ℕ) : (sMask n).getLsbD i = decide (i < n) := by
  have hmask : (sMask n).toNat = 2 ^ n - 1 := by
    rw [sMask, toNat_sub_of_le, toNat_one_shiftLeft hn]
    · rfl
    · rw [le_def, toNat_one_shiftLeft hn]
      exact Nat.two_pow_pos n
  rw [getLsbD, hmask, Nat.testBit_two_pow_sub_one]

theorem sMask_eq_zero_iff (hn : n < 32) : sMask n = 0#32 ↔ n = 0 := by
  refine ⟨fun h => ?_, fun h => by rw [h]; rfl⟩
  by_contra hne
  have hbit := getLsbD_sMask hn 0
  rw [h, decide_eq_true (Nat.pos_of_ne_zero hne)] at hbit
  exact absurd hbit (by decide)

namespace RelEntry

variable {rep : RelEntry}

/-- An aligned type reads its field, if the address is aligned. -/
theorem base_ok_iff (haligned : rep.has flgReUnalign = false)
    (hsize : rep.reFsize = 2 ∨ rep.reFsize = 4) {m : Mem 32} {base : BitVec 32} :
    rep.base m a = .ok base ↔ a.toNat % rep.reFsize = 0 ∧ fieldWord m a rep.reFsize = base := by
  have htwo : a &&& 1#32 = 0#32 ↔ a.toNat % 2 = 0 := by
    rw [← toNat_inj, toNat_and, ← Nat.and_one_is_mod]
    rfl
  have hfour : a &&& 3#32 = 0#32 ↔ a.toNat % 4 = 0 := by
    rw [← toNat_inj, toNat_and_three]
    rfl
  simp only [RelEntry.base, haligned, Bool.false_eq_true, if_false, ne_eq, htwo, hfour]
  rcases hsize with h | h <;> rw [h] <;> split <;> simp_all

theorem getLsbD_insert (hn : rep.reSigbits < 32) (base disp : BitVec 32) (hi : i < 32) :
    (rep.insert base disp).getLsbD i =
      if rep.reResshift ≤ i ∧ i < rep.reResshift + rep.reSigbits then
        disp.getLsbD (i - rep.reResshift) else base.getLsbD i := by
  rw [insert, getLsbD_or, getLsbD_and, getLsbD_not, getLsbD_shiftLeft,
    getLsbD_shiftLeft, getLsbD_and, getLsbD_sMask hn]
  by_cases hlow : i < rep.reResshift
  · simp [hi, hlow, Nat.not_le_of_lt hlow]
  · have hiff : i < rep.reResshift + rep.reSigbits ↔ i - rep.reResshift < rep.reSigbits := by omega
    by_cases hin : i - rep.reResshift < rep.reSigbits <;>
      simp [hi, hlow, hiff, hin, not_lt.mp hlow]

/-- The hint changes bit 21 only. -/
theorem getLsbD_hint_sign (hsign : rep.has flgReSign) (disp w : BitVec 32) (hi : i < 32) :
    (rep.hint disp w).getLsbD i = if i = 21 then (0#32).slt disp else w.getLsbD i := by
  have hbit : (0x00200000#32).getLsbD i = decide (i = 21) := by
    rw [show 0x00200000#32 = twoPow 32 21 from rfl, getLsbD_twoPow]
    by_cases h : i = 21 <;> simp [h, eq_comm]
  -- the two flags are one bit
  have hbrtak : rep.has flgReBrtak := hsign
  rw [hint, if_pos hbrtak]
  split
  next h => rw [getLsbD_or, hbit, h]; by_cases hi21 : i = 21 <;> simp [hi21]
  next h =>
    rw [getLsbD_and, getLsbD_not, hbit, Bool.eq_false_iff.mpr h]
    by_cases hi21 : i = 21 <;> simp [hi, hi21]

end RelEntry

/-- How the row of a type fits the field the ABI gives it. -/
structure AbiField.Row (f : AbiField) (rep : RelEntry) : Prop where
  aligned : rep.has flgReUnalign = false
  not_brntak : rep.has flgReBrntak = false
  size : rep.reFsize = 2 ∨ rep.reFsize = 4
  sigbits_lt : rep.reSigbits < 32
  low_eq : f.low = rep.reResshift
  width_eq : f.width = if rep.reSigbits = 0 then 8 * rep.reFsize else rep.reSigbits
  whole : rep.reSigbits = 0 → f.low = 0 ∧ rep.reBshift = 0
  value_eq : ∀ v, f.value v = rep.shift v

theorem abiField_row {f : AbiField} (hf : abiField rtype = some f)
    (hsize : (relocTable rtype).reFsize ≠ 0) : f.Row (relocTable rtype) := by
  cases rtype <;> cases hf <;>
    first
    | exact absurd rfl hsize
    | exact ⟨rfl, rfl, by decide, by decide, rfl, rfl, by decide, fun _ => rfl⟩

namespace AbiField.Row

variable {f : AbiField} {rep : RelEntry} (hrow : f.Row rep) {m : Mem 32} {a : BitVec 32}

include hrow

/-- Nothing is added to the value where the field is zero. -/
theorem sum_eq (hzero : ∀ i < f.width, (fieldWord m a rep.reFsize).getLsbD (f.low + i) = false)
    (value : BitVec 32) : rep.sum (fieldWord m a rep.reFsize) value = value := by
  have hheld : (if sMask rep.reSigbits ≠ 0#32 then
      (fieldWord m a rep.reFsize >>> rep.reResshift) &&& sMask rep.reSigbits
      else fieldWord m a rep.reFsize) = 0#32 := by
    simp only [ne_eq, sMask_eq_zero_iff hrow.sigbits_lt]
    refine eq_of_getLsbD_eq fun i hi => ?_
    rw [getLsbD_zero]
    by_cases hbits : rep.reSigbits = 0
    · rw [if_neg (not_not.mpr hbits)]
      by_cases hin : i < 8 * rep.reFsize
      · have := hzero i (by rwa [hrow.width_eq, if_pos hbits])
        rwa [(hrow.whole hbits).1, Nat.zero_add] at this
      · -- half a word has no bits above
        rcases hrow.size with h | h <;> rw [h] at hin ⊢
        · rw [fieldWord, getLsbD_setWidth, getLsbD_of_ge _ _ (by omega), Bool.and_false]
        · omega
    · rw [if_pos hbits, getLsbD_and, getLsbD_ushiftRight, getLsbD_sMask hrow.sigbits_lt]
      by_cases hin : i < rep.reSigbits
      · rw [← hrow.low_eq, hzero i (by rwa [hrow.width_eq, if_neg hbits]), Bool.false_and]
      · rw [decide_eq_false hin, Bool.and_false]
  rw [sum, hheld, zero_shiftLeft, BitVec.zero_add]

/-- What is stored, bit by bit. -/
theorem getLsbD_combine (value old : BitVec 32) (hi : i < 8 * rep.reFsize) :
    (rep.combine old (rep.shift value)).getLsbD i =
      if rep.has flgReSign ∧ rep.reSigbits ≠ 0 ∧ i = 21 then (0#32).slt (f.value value)
      else f.bit value old i := by
  have hi32 : i < 32 := by have := hrow.size; omega
  simp only [combine, ne_eq, sMask_eq_zero_iff hrow.sigbits_lt, AbiField.bit, hrow.low_eq,
    hrow.width_eq, hrow.value_eq]
  by_cases hbits : rep.reSigbits = 0
  · have hlow := hrow.low_eq.symm.trans (hrow.whole hbits).1
    simp [hbits, hlow, hi]
  rw [if_pos hbits, if_neg hbits]
  by_cases hsign : rep.has flgReSign
  · rw [getLsbD_hint_sign hsign _ _ hi32, getLsbD_insert hrow.sigbits_lt _ _ hi32]
    simp [hsign, hbits]
  · have hbrtak : ¬ rep.has flgReBrtak := hsign
    rw [hint, if_neg hbrtak, hrow.not_brntak, if_neg Bool.false_ne_true,
      getLsbD_insert hrow.sigbits_lt _ _ hi32]
    simp [hsign]

end AbiField.Row

/-- Where a branch with a 24-bit field goes. -/
def branchTarget (w a : BitVec 32) : BitVec 32 :=
  a + (w.extractLsb' 2 24 ++ 0#2).signExtend 32

/-- The field at `a` holds what the ABI asks for, and a branch relocated for its displacement
arrives. -/
def AbiWritten (rtype : RelocType) (f : AbiField) (m m' : Mem 32) (a value : BitVec 32) : Prop :=
  (∃ w, m' = storeField m a w (relocTable rtype).reFsize ∧ ∀ i < 8 * (relocTable rtype).reFsize,
    w.getLsbD i = f.bit value (fieldWord m a (relocTable rtype).reFsize) i) ∧
  (rtype = .rel24 → branchTarget (m'.load32 a) a = a + value)

theorem sInrange_iff (hn : n < 31) :
    sInrange v n ↔ -((2 ^ n : ℕ) : ℤ) ≤ v.toInt ∧ v.toInt < (2 ^ n : ℕ) := by
  have hpow : 2 ^ n < 2 ^ 31 := Nat.pow_lt_pow_right (by decide) hn
  have hto := toNat_one_shiftLeft (by omega : n < 32)
  have hone : (1#32 <<< n).toInt = (2 ^ n : ℕ) := by
    rw [toInt_eq_toNat_of_lt (by omega), hto]
  have hlow : (-(1#32 <<< n) - 1#32).toInt = -((2 ^ n : ℕ) : ℤ) - 1 := by
    rw [← not_eq_neg_add, toInt_eq_toNat_cond, toNat_not, hto]
    omega
  rw [sInrange, Bool.and_eq_true, slt_iff_toInt_lt, slt_iff_toInt_lt, hlow, hone]
  omega

/-- A displacement in words that is in range is the field's sign-extended contents. -/
theorem branchTarget_of_bits {value : BitVec 32} (hword : value &&& 3#32 = 0#32)
    (hrange : sInrange (value.sshiftRight 2) 23)
    (hbits : ∀ i < 24, w.getLsbD (2 + i) = (value.sshiftRight 2).getLsbD i) :
    branchTarget w a = a + value := by
  have hfield : w.extractLsb' 2 24 = (value.sshiftRight 2).setWidth 24 := by
    refine eq_of_getLsbD_eq fun i hi => ?_
    rw [getLsbD_extractLsb', getLsbD_setWidth, hbits i hi]
  have hmod := congrArg BitVec.toNat hword
  rw [toNat_and_three] at hmod
  have hdisp : (value.sshiftRight 2).toInt = value.toInt / 4 := by
    rw [toInt_sshiftRight, Int.shiftRight_eq_div_pow]
    rfl
  have hin := (sInrange_iff (by decide)).mp hrange
  rw [branchTarget, hfield]
  congr 1
  refine eq_of_toInt_eq ?_
  rw [toInt_signExtend_of_le (by decide), toInt_append, toInt_setWidth]
  have htoNat := toInt_eq_toNat_cond (value.sshiftRight 2)
  have hvalue := toInt_eq_toNat_cond value
  have hcases : (((value.sshiftRight 2).toNat : ℤ).bmod (2 ^ 24))
      = (value.sshiftRight 2).toInt := by
    rw [Int.bmod_def]
    omega
  rw [hcases, hdisp]
  change (2 : ℤ) ^ 2 * (value.toInt / 4) + 0 = value.toInt
  change value.toNat % 4 = 0 at hmod
  omega

section Abi

variable {m : Mem 32} {rtype : RelocType} {f : AbiField} {a value : BitVec 32}

theorem storeField_inj (hn : n = 4) {w' : BitVec 32}
    (h : storeField m a w n = storeField m a w' n) :
    w = w' := by
  subst hn
  have hload := congrArg (fun m : Mem 32 => m.load32 a) h
  simpa only [storeField, load32_store32 _ (by decide : 4 ≤ 2 ^ 32)] using hload

/-- A branch hint goes to a whole word. -/
theorem hinted_size (h : rtype.hinted) : (relocTable rtype).reFsize = 4 := by
  cases rtype <;> first | rfl | exact absurd h (by decide)

/-- The checks that `do_reloc` makes where the field holds zero: there is code for the type, the
address is aligned, a displacement in words has no other bits, and the value is in range. -/
def RelocType.Accepts (rtype : RelocType) (a value : BitVec 32) : Prop :=
  let rep := relocTable rtype
  rep.reFsize ≠ 0 ∧ a.toNat % rep.reFsize = 0 ∧ (rep.reBshift = 2 → value &&& 3#32 = 0#32) ∧
    (rep.has flgReVerify → sMask rep.reSigbits ≠ 0#32 → rep.fits (rep.shift value))

theorem exists_doReloc_ok_iff (hf : abiField rtype = some f)
    (hzero : ∀ i < f.width,
      (fieldWord m a (relocTable rtype).reFsize).getLsbD (f.low + i) = false) :
    (∃ r, doReloc m rtype a value = .ok r) ↔ rtype.Accepts a value := by
  simp only [doReloc_ok_iff, RelocType.Accepts]
  constructor
  · rintro ⟨r, hsize, base, hbase, hword, hfits, -⟩
    have hrow := abiField_row hf hsize
    obtain ⟨haligned, rfl⟩ := (base_ok_iff hrow.aligned hrow.size).mp hbase
    rw [hrow.sum_eq hzero] at hword hfits
    exact ⟨hsize, haligned, hword, hfits⟩
  · rintro ⟨hsize, haligned, hword, hfits⟩
    have hrow := abiField_row hf hsize
    rw [← hrow.sum_eq hzero value] at hword hfits
    exact ⟨_, hsize, _, (base_ok_iff hrow.aligned hrow.size).mpr ⟨haligned, rfl⟩, hword, hfits, rfl⟩

/-- **What `do_reloc` writes.**  Into a field that holds zero an aligned type without a branch hint
is relocated as the ABI says, exactly when the checks refuse it, the type is not one of those whose
`FLG_RE_SIGN` is taken for `FLG_RE_BRTAK`, or the hint happens to be the bit that belongs there. -/
theorem doReloc_abi_iff (hf : abiField rtype = some f)
    (hzero : ∀ i < f.width,
      (fieldWord m a (relocTable rtype).reFsize).getLsbD (f.low + i) = false) :
    (∀ m' v', doReloc m rtype a value = .ok (m', v') → AbiWritten rtype f m m' a value) ↔
      ¬ rtype.Accepts a value ∨ rtype.hinted = false ∨
        f.bit value (fieldWord m a (relocTable rtype).reFsize) 21 = (0#32).slt (f.value value) := by
  rw [← exists_doReloc_ok_iff hf hzero]
  cases hrun : doReloc m rtype a value with
  | error e => simp
  | ok r =>
    obtain ⟨hsize, base, hbase, hword, hfits, rfl⟩ := doReloc_ok_iff.mp hrun
    have hrow := abiField_row hf hsize
    obtain ⟨-, rfl⟩ := (base_ok_iff hrow.aligned hrow.size).mp hbase
    rw [hrow.sum_eq hzero] at hword hfits ⊢
    rw [store, hrow.aligned, if_neg Bool.false_ne_true]
    have hcombine {i : ℕ} (hi : i < 8 * (relocTable rtype).reFsize) :=
      hrow.getLsbD_combine value (fieldWord m a (relocTable rtype).reFsize) hi
    rw [or_iff_right (not_not.mpr ⟨_, rfl⟩)]
    constructor
    · intro h
      obtain ⟨⟨w, hstore, hbits⟩, -⟩ := h _ _ rfl
      refine Bool.eq_false_or_eq_true rtype.hinted |>.symm.imp id fun hhint => ?_
      have hflags := Bool.and_eq_true_iff.mp hhint
      have hi : 21 < 8 * (relocTable rtype).reFsize := by rw [hinted_size hhint]; decide
      rw [← hbits 21 hi, ← storeField_inj (hinted_size hhint) hstore,
        hcombine hi, if_pos ⟨hflags.1, of_decide_eq_true hflags.2, rfl⟩]
    · intro h m' v' heq
      cases heq
      have hbits {i : ℕ} (hi : i < 8 * (relocTable rtype).reFsize) :
          ((relocTable rtype).combine (fieldWord m a (relocTable rtype).reFsize)
            ((relocTable rtype).shift value)).getLsbD i =
          f.bit value (fieldWord m a (relocTable rtype).reFsize) i := by
        rw [hcombine hi]
        refine ite_eq_right_iff.mpr fun ⟨hsign, hsig, h21⟩ => ?_
        rw [h21, h.resolve_left (by simp [RelocType.hinted, hsign, hsig])]
      refine ⟨⟨_, rfl, fun i hi => hbits hi⟩, fun hrel => ?_⟩
      subst hrel
      cases hf
      rw [show (relocTable .rel24).reFsize = 4 from rfl, storeField, load32_store32 _ (by decide)]
      refine branchTarget_of_bits (hword rfl) (hfits rfl (by decide)) fun i hi => ?_
      refine (hbits (show 2 + i < 32 by omega)).trans ?_
      rw [AbiField.bit, if_pos ⟨Nat.le_add_right 2 i, Nat.add_lt_add_left hi 2⟩]
      exact congrArg _ (Nat.add_sub_cancel_left 2 i)

end Abi

/-- A branch four bytes forward, relocated in a word of zeros, goes elsewhere. -/
theorem not_abiWritten_rel24 : ¬ ∀ m' v', doReloc (fun _ => 0#8) .rel24 0x1000#32 4#32
    = .ok (m', v') →
    AbiWritten .rel24 .low24 (fun _ => 0#8) m' 0x1000#32 4#32 := by
  intro h
  have htarget := (h _ _ rfl).2 rfl
  exact absurd htarget (by decide)

/-- A branch so far forward that the hint is a bit of the displacement. -/
theorem abiWritten_rel24 : ∃ m' v', doReloc (fun _ => 0#8) .rel24 0x1000#32 0x200000#32
    = .ok (m', v') ∧
    AbiWritten .rel24 .low24 (fun _ => 0#8) m' 0x1000#32 0x200000#32 :=
  ⟨_, _, rfl, (doReloc_abi_iff rfl (by decide)).mpr (.inr (.inr (by decide))) _ _ rfl⟩

/-! ## Values that do not fit -/

/-- The number of bits of a field, and whether it is signed. -/
def RelocType.width (rtype : RelocType) : ℕ :=
  if (relocTable rtype).reSigbits = 0 then 8 * (relocTable rtype).reFsize
  else (relocTable rtype).reSigbits

/-- The types whose row is given `FLG_RE_SIGN`. -/
def RelocType.signed : RelocType → Bool
  | .rel24 | .rel14 | .rel14Brtaken | .rel14Brntaken | .got16 | .pltrel24 | .local24pc | .addr30 =>
    true
  | _ => false

/-- `v` is a number of the field's width. -/
def Representable (rtype : RelocType) (v : BitVec 32) : Prop :=
  -((2 ^ (rtype.width - 1) : ℕ) : ℤ) ≤ v.toInt ∧
    (v.toInt < (2 ^ (rtype.width - 1) : ℕ) ∨ rtype.signed = false ∧ v.toInt < (2 ^ rtype.width : ℕ))

/-- The value that is to go to the field: the sum of what the field holds and the value given,
shifted. -/
def relocated (m : Mem 32) (rtype : RelocType) (a value : BitVec 32) : BitVec 32 :=
  (relocTable rtype).shift
    ((relocTable rtype).sum (fieldWord m a (relocTable rtype).reFsize) value)

section Range

variable {m : Mem 32} {rtype : RelocType} {a value : BitVec 32}

/-- A value equal to some of its low bits. -/
theorem toInt_of_and_sMask (hn : n < 31) (h : sMask n &&& v = v) :
    0 ≤ v.toInt ∧ v.toInt < (2 ^ n : ℕ) := by
  have hlt : v.toNat < 2 ^ n := by
    refine Nat.lt_pow_two_of_testBit _ fun i hi => ?_
    have hbit := congrArg (·.getLsbD i) h
    simp only [getLsbD_and, getLsbD_sMask (by omega : n < 32), decide_eq_false (not_lt.mpr hi),
      Bool.false_and] at hbit
    exact hbit.symm
  have hpow : 2 ^ n < 2 ^ 31 := Nat.pow_lt_pow_right (by decide) hn
  rw [toInt_eq_toNat_of_lt (by omega)]
  omega

/-- The rows that are verified. -/
theorem verify_row (hv : (relocTable rtype).has flgReVerify) :
    (relocTable rtype).has flgReUnalign = false ∧
      ((relocTable rtype).reSigbits = 0 ∧ (relocTable rtype).reFsize = 2 ∧
          (relocTable rtype).reBshift = 0 ∨
        (relocTable rtype).reFsize = 4 ∧ ((relocTable rtype).reSigbits = 14 ∨
          (relocTable rtype).reSigbits = 24)) ∧
      (rtype.signed → (relocTable rtype).has flgReSign) := by
  cases rtype <;> first | exact absurd hv (by decide) | decide

/-- The check keeps a value within its field. -/
theorem representable_of_fits (hv : (relocTable rtype).has flgReVerify)
    (hbits : (relocTable rtype).reSigbits ≠ 0) (h : (relocTable rtype).fits v) :
    Representable rtype v := by
  obtain ⟨-, hrow, hsigned⟩ := verify_row hv
  have hn : (relocTable rtype).reSigbits < 31 := by omega
  rw [Representable, RelocType.width, if_neg hbits]
  rw [fits] at h
  split at h
  · obtain ⟨hlow, hhigh⟩ := (sInrange_iff (by omega)).mp h
    exact ⟨hlow, .inl hhigh⟩
  next hsign =>
    obtain ⟨hlow, hhigh⟩ := toInt_of_and_sMask hn (of_decide_eq_true h)
    have := Nat.two_pow_pos ((relocTable rtype).reSigbits - 1)
    exact ⟨by omega, .inr ⟨Bool.eq_false_iff.mpr fun hs => hsign (hsigned hs), hhigh⟩⟩

/-- **What the range check is worth.**  A verified type refuses a value that does not fit its field
exactly when its row has significant bits; the rows of the 16-bit fields have none, and are checked
for the alignment of their address only. -/
theorem doReloc_verify_iff (hv : (relocTable rtype).has flgReVerify) :
    ((∃ r, doReloc m rtype a value = .ok r) → Representable rtype (relocated m rtype a value)) ↔
      (relocTable rtype).reSigbits ≠ 0 ∨ a.toNat % 2 = 1 ∨
        Representable rtype (relocated m rtype a value) := by
  obtain ⟨hunalign, hrow, -⟩ := verify_row hv
  have hn : (relocTable rtype).reSigbits < 32 := by omega
  have hbase {b : BitVec 32} : (relocTable rtype).base m a = .ok b ↔ _ :=
    base_ok_iff hunalign (by omega)
  constructor
  · intro h
    refine or_iff_not_imp_left.mpr fun hbits => or_iff_not_imp_left.mpr fun hodd => h ?_
    -- nothing but the alignment is looked at
    have hzero := not_not.mp hbits
    obtain ⟨-, h2, h0⟩ := hrow.resolve_right (by omega)
    have heven : a.toNat % (relocTable rtype).reFsize = 0 := by rw [h2]; omega
    refine ⟨_,
      doReloc_ok_iff.mpr ⟨by omega, _, hbase.mpr ⟨heven, rfl⟩, by omega, fun _ hmask => ?_, rfl⟩⟩
    exact absurd ((sMask_eq_zero_iff hn).mpr hzero) hmask
  · rintro h ⟨r, hok⟩
    obtain ⟨-, base, hb, -, hfits, -⟩ := doReloc_ok_iff.mp hok
    obtain ⟨heven, rfl⟩ := hbase.mp hb
    rcases h with hbits | hodd | hrep
    · exact representable_of_fits hv hbits (hfits hv ((sMask_eq_zero_iff hn).not.mpr hbits))
    · rcases hrow with ⟨-, h2, -⟩ | ⟨h4, -⟩
      · rw [h2] at heven
        omega
      · rw [h4] at heven
        omega
    · exact hrep

end Range

/-- A half word takes the low bits of 0x12345. -/
theorem not_representable_addr16 :
    ¬ ((∃ r, doReloc (fun _ => 0#8) .addr16 0x1000#32 0x12345#32 = .ok r) →
    Representable .addr16 (relocated (fun _ => 0#8) .addr16 0x1000#32 0x12345#32)) := by
  intro h
  exact absurd (h ⟨_, rfl⟩) (by rw [Representable]; decide)

theorem representable_rel24 :
    Representable .rel24 (relocated (fun _ => 0#8) .rel24 0x1000#32 8#32) :=
  (doReloc_verify_iff rfl).mpr (.inl (by decide)) ⟨_, rfl⟩

/-! ## Branch hints -/

/-- A conditional branch is predicted taken if it goes backwards, and the hint bit reverses this. -/
def predictedTaken (w : BitVec 32) : Bool :=
  w.getLsbD 15 != w.getLsbD 21

/-- The types with a hint. -/
def RelocType.predicts : RelocType → Option Bool
  | .addr14Brtaken | .rel14Brtaken => some true
  | .addr14Brntaken | .rel14Brntaken => some false
  | _ => Option.none

/-- The rows of the types with a hint. -/
theorem predicts_row {taken : Bool} (hp : rtype.predicts = some taken) :
    (relocTable rtype).has flgReUnalign = false ∧ (relocTable rtype).reFsize = 4 ∧
      (relocTable rtype).reSigbits = 14 ∧ (relocTable rtype).reResshift = 2 ∧
      (relocTable rtype).has flgReVerify ∧
      ((relocTable rtype).has flgReSign ↔ rtype ≠ .addr14Brntaken) := by
  cases rtype <;> cases hp <;> decide

section Hint

variable {rep : RelEntry} {base disp : BitVec 32}

section

variable (hbits : rep.reSigbits = 14) (hshift : rep.reResshift = 2)

include hbits hshift

theorem getLsbD_insert_14 :
    (rep.insert base disp).getLsbD 15 = decide (disp.toNat / 2 ^ 13 % 2 = 1) := by
  rw [getLsbD_insert (by omega) _ _ (by decide), hbits, hshift, if_pos (by decide),
    getLsbD, Nat.testBit_eq_decide_div_mod_eq]

/-- Under `FLG_RE_SIGN` every branch but one to itself is predicted taken. -/
theorem predictedTaken_hint (hsign : rep.has flgReSign) (hfits : rep.fits disp) :
    predictedTaken (rep.hint disp (rep.insert base disp)) = decide (disp ≠ 0#32) := by
  rw [fits, if_pos hsign, hbits, sInrange_iff (by decide)] at hfits
  have hint := toInt_eq_toNat_cond disp
  have hzero : disp ≠ 0#32 ↔ disp.toNat ≠ 0 := by rw [ne_eq, ← toNat_inj]; rfl
  rw [predictedTaken, getLsbD_hint_sign hsign _ _ (by decide), if_neg (by decide),
    getLsbD_hint_sign hsign _ _ (by decide), if_pos rfl, getLsbD_insert_14 hbits hshift,
    slt_eq_decide, toInt_zero, Bool.eq_iff_iff]
  simp only [bne_iff_ne, ne_eq, decide_eq_decide, decide_eq_true_eq, hzero]
  omega

/-- Without it the hint for a branch not to be taken is always set. -/
theorem predictedTaken_hint_unsigned (hsign : ¬ rep.has flgReSign) (hbrntak : rep.has flgReBrntak)
    (hfits : rep.fits disp) :
    predictedTaken (rep.hint disp (rep.insert base disp)) = decide (disp.toNat < 2 ^ 13) := by
  have hbrtak : ¬ rep.has flgReBrtak := hsign
  rw [fits, if_neg hsign, hbits, decide_eq_true_eq] at hfits
  have hrange := toInt_of_and_sMask (by decide) hfits
  have hint := toInt_eq_toNat_cond disp
  have hpos : ¬ disp.slt 0#32 := by
    rw [slt_iff_toInt_lt, toInt_zero]
    omega
  rw [RelEntry.hint, if_neg hbrtak, if_pos hbrntak, if_neg hpos, predictedTaken, getLsbD_or,
    getLsbD_or, getLsbD_insert_14 hbits hshift, Bool.eq_iff_iff]
  simp
  omega

end

end Hint

/-- **What is predicted.**  A branch to be taken is predicted so unless its displacement is zero.
One not to be taken is predicted so if its displacement is zero where the type is relative, and if
it is at least `2 ^ 13` words where it is absolute. -/
theorem doReloc_predict_iff {taken : Bool} {m m' : Mem 32} {value v' : BitVec 32}
    (hp : rtype.predicts = some taken) (hok : doReloc m rtype a value = .ok (m', v')) :
    predictedTaken (m'.load32 a) = taken ↔
      if taken then relocated m rtype a value ≠ 0#32
      else if rtype = .addr14Brntaken then 2 ^ 13 ≤ (relocated m rtype a value).toNat
      else relocated m rtype a value = 0#32 := by
  obtain ⟨haligned, hsize, hbits, hshift, hverify, hsign⟩ := predicts_row hp
  have hmask : sMask (relocTable rtype).reSigbits ≠ 0#32 := by rw [hbits]; decide
  obtain ⟨-, base, hb, -, hfits, hr⟩ := doReloc_ok_iff.mp hok
  obtain ⟨-, rfl⟩ := (base_ok_iff haligned (.inr hsize)).mp hb
  cases hr
  specialize hfits hverify hmask
  rw [store, haligned, if_neg Bool.false_ne_true, combine, if_pos hmask, hsize,
    storeField, load32_store32 _ (by decide)]
  rw [hsize] at hfits
  rw [relocated, hsize]
  by_cases hun : rtype = .addr14Brntaken
  · subst hun
    cases hp
    rw [predictedTaken_hint_unsigned hbits hshift (by decide) (by decide) hfits]
    simp
  · rw [predictedTaken_hint hbits hshift (hsign.mpr hun) hfits]
    cases taken <;> simp [hun]

/-- A forward `beq` that is not to be taken is predicted taken. -/
theorem predicted_rel14Brntaken :
    ∃ m' v', doReloc (store32 (fun _ => 0#8) 0x1000#32 0x41820000#32) .rel14Brntaken
      0x1000#32 8#32 = .ok (m', v') ∧ predictedTaken (m'.load32 0x1000#32) = true :=
  ⟨_, _, rfl, by decide⟩

theorem predicted_rel14Brtaken :
    ∃ m' v', doReloc (store32 (fun _ => 0#8) 0x1000#32 0x41820000#32) .rel14Brtaken 0x1000#32 8#32 =
      .ok (m', v') ∧ predictedTaken (m'.load32 0x1000#32) = true :=
  have hok := rfl
  ⟨_, _, hok, (doReloc_predict_iff rfl hok).mpr (by decide)⟩

/-! ## Unaligned addresses -/

/-- What `R_PPC_ADDR32` and `R_PPC_ADDR16` do to a field of `n` bytes. -/
def addrWritten (m : Mem 32) (a value : BitVec 32) (n : ℕ) : Mem 32 :=
  storeField m a (fieldWord m a n + value) n

section Unaligned

variable (m : Mem 32) (a value : BitVec 32)

/-- A row without significant bits and shift adds. -/
theorem RelEntry.combine_plain {rep : RelEntry} (hbits : rep.reSigbits = 0)
    (hshift : rep.reBshift = 0)
    (base : BitVec 32) : (rep.combine base (rep.shift (rep.sum base value)), rep.coreShift value) =
      (base + value, value) := by
  have hmask : ¬ sMask rep.reSigbits ≠ 0#32 := by rw [hbits]; decide
  rw [combine, shift, sum, coreShift, if_neg hmask, if_neg hmask,
    if_pos hshift, if_pos hshift, hshift, shiftLeft_zero]

/-- What a call with such a row does once it has its base value. -/
theorem doReloc_plain {base : BitVec 32} (hsize : (relocTable rtype).reFsize ≠ 0)
    (hbase : (relocTable rtype).base m a = .ok base) (hbits : (relocTable rtype).reSigbits = 0)
    (hshift : (relocTable rtype).reBshift = 0) :
    doReloc m rtype a value = .ok ((relocTable rtype).store m a (base + value), value) := by
  obtain ⟨hcombine, hcore⟩ := Prod.mk.inj (combine_plain value hbits hshift base)
  refine doReloc_ok_iff.mpr ⟨hsize, base, hbase,
    by omega, fun _ hmask => ?_, by rw [hcombine, hcore]⟩
  exact absurd (by rw [hbits]; rfl) hmask

/-- All of a word but its first byte is read. -/
theorem setWidth_unalignLoad : (unalignLoad m a 3).setWidth 24 = (m.load32 a).setWidth 24 := by
  simp only [unalignLoad, load32, zero_or]
  refine eq_of_getLsbD_eq fun i hi => ?_
  simp only [getLsbD_setWidth, getLsbD_or, getLsbD_shiftLeft, getLsbD_append]
  grind

/-- So the lower bytes of the sum are right. -/
theorem extractLsb'_unalignLoad {s : ℕ} (hs : s ≤ 16) :
    (unalignLoad m a 3 + value).extractLsb' s 8 = (m.load32 a + value).extractLsb' s 8 := by
  have hsum : (unalignLoad m a 3 + value).setWidth 24 = (m.load32 a + value).setWidth 24 := by
    rw [setWidth_add _ _ (by decide), setWidth_unalignLoad, ← setWidth_add _ _ (by decide)]
  refine eq_of_getLsbD_eq fun i hi => ?_
  have hbit := congrArg (·.getLsbD (s + i)) hsum
  simp only [getLsbD_setWidth, decide_eq_true (by omega : s + i < 24), Bool.true_and] at hbit
  rw [getLsbD_extractLsb', getLsbD_extractLsb', hbit]

/-- All of a word but its first byte is written. -/
theorem unalignStore_eq_iff {u : BitVec 32} (h : ∀ s ≤ 16, u.extractLsb' s 8 = w.extractLsb' s 8) :
    unalignStore u a 3 m = m.store32 a w ↔ w.extractLsb' 24 8 = m a := by
  have h01 := off_ne (by decide) a (i := 0) (j := 1) (by decide)
  have h02 := off_ne (by decide) a (i := 0) (j := 2) (by decide)
  have h03 := off_ne (by decide) a (i := 0) (j := 3) (by decide)
  have h12 := off_ne (by decide) a (i := 1) (j := 2) (by decide)
  have h13 := off_ne (by decide) a (i := 1) (j := 3) (by decide)
  have h23 := off_ne (by decide) a (i := 2) (j := 3) (by decide)
  rw [off_zero] at h01 h02 h03
  simp only [unalignStore, store32, off_zero, Nat.reduceAdd, Nat.reduceSub, Nat.reduceMul,
    h 16 (by decide), h 8 (by decide), h 0 (by decide)]
  constructor
  · intro heq
    have hbyte := congrFun heq a
    simp only [store8, h01, h02, h03, if_false, if_true] at hbyte
    exact hbyte.symm
  · intro hbyte
    funext x
    simp only [store8]
    grind

/-- Where the second byte of a half word goes, and what is added to it. -/
theorem extractLsb'_unaligned_half :
    (unalignLoad m a 1 + value).extractLsb' 16 8 = m (off a 1) + value.extractLsb' 16 8 ∧
      (fieldWord m a 2 + value).extractLsb' 0 8 = m (off a 1) + value.extractLsb' 0 8 := by
  have hload : (unalignLoad m a 1).toNat = (m (off a 1)).toNat * 2 ^ 16 := by
    rw [unalignLoad, unalignLoad, zero_or, toNat_shiftLeft, toNat_setWidth,
      Nat.shiftLeft_eq, Nat.zero_add]
    omega
  have hfield : (fieldWord m a 2).toNat = (m a).toNat * 2 ^ 8 + (m (off a 1)).toNat := by
    rw [fieldWord, toNat_setWidth, toNat_append,
      ← Nat.shiftLeft_add_eq_or_of_lt (m (off a 1)).isLt, Nat.shiftLeft_eq]
    omega
  constructor <;>
    refine eq_of_toNat_eq ?_ <;>
    simp only [extractLsb'_toNat, toNat_add, hload, hfield, Nat.shiftRight_eq_div_pow] <;>
    omega

theorem unalignStore_half_eq_iff :
    unalignStore (unalignLoad m a 1 + value) a 1 m = storeField m a (fieldWord m a 2 + value) 2 ↔
      (fieldWord m a 2 + value).extractLsb' 8 8 = m a ∧
        value.extractLsb' 16 8 = value.extractLsb' 0 8 := by
  have hne := off_ne (by decide) a (i := 0) (j := 1) (by decide)
  obtain ⟨hstored, hright⟩ := extractLsb'_unaligned_half m a value
  rw [off_zero] at hne
  simp only [unalignStore, storeField, Nat.reduceAdd, Nat.reduceSub, Nat.reduceMul, hstored, hright]
  constructor
  · intro heq
    have hfirst := congrFun heq a
    have hsecond := congrFun heq (off a 1)
    simp only [store8, hne, if_false, if_true, BitVec.add_right_inj] at hfirst hsecond
    exact ⟨hfirst.symm, hsecond⟩
  · rintro ⟨hfirst, hsecond⟩
    funext x
    simp only [store8]
    grind

/-- **Unaligned relocations.**  `R_PPC_UADDR32` does what `R_PPC_ADDR32` does exactly when the first
byte, which is neither read nor written, need not change; `R_PPC_UADDR16` writes its second byte
only, and adds the third byte of the value to it in place of the last. -/
theorem doReloc_unaligned_iff :
    (a.toNat % 4 = 0 → doReloc m .addr32 a value = .ok (addrWritten m a value 4, value)) ∧
    (a.toNat % 2 = 0 → doReloc m .addr16 a value = .ok (addrWritten m a value 2, value)) ∧
    (doReloc m .uaddr32 a value = .ok (addrWritten m a value 4, value) ↔
      (fieldWord m a 4 + value).extractLsb' 24 8 = m a) ∧
    (doReloc m .uaddr16 a value = .ok (addrWritten m a value 2, value) ↔
      (fieldWord m a 2 + value).extractLsb' 8 8 = m a ∧
        value.extractLsb' 16 8 = value.extractLsb' 0 8) := by
  refine ⟨fun h => ?_, fun h => ?_, ?_, ?_⟩
  · exact doReloc_plain m a value (by decide)
      ((base_ok_iff rfl (by decide)).mpr ⟨h, rfl⟩) rfl rfl
  · exact doReloc_plain m a value (by decide)
      ((base_ok_iff rfl (by decide)).mpr ⟨h, rfl⟩) rfl rfl
  · rw [doReloc_plain m a value (by decide) rfl rfl rfl, Except.ok.injEq, Prod.mk.injEq,
      and_iff_left rfl]
    exact unalignStore_eq_iff m a fun s hs => extractLsb'_unalignLoad m a value hs
  · rw [doReloc_plain m a value (by decide) rfl rfl rfl, Except.ok.injEq, Prod.mk.injEq,
      and_iff_left rfl]
    exact unalignStore_half_eq_iff m a value

end Unaligned

/-- An address whose first byte is not zero. -/
theorem doReloc_uaddr32_ne : doReloc (fun _ => 0#8) .uaddr32 0x1001#32 0x12345678#32 ≠
    .ok (addrWritten (fun _ => 0#8) 0x1001#32 0x12345678#32 4, 0x12345678#32) := by
  intro h
  have hbyte := congrArg (Except.map fun r => r.1 0x1001#32) h
  exact absurd hbyte (by decide)

end Polaris
