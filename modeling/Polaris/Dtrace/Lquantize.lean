import Polaris.Dtrace.Aggregators
import Mathlib.Order.Basic

/-!
# The buckets of `lquantize()`

Where `dtrace_aggregate_lquantize` counts a value, against where it belongs.  The function narrows
the value to 32 bits and takes its difference to the base in 32 bits as well.

## Main definitions

* `LquantizeBucket` — the bucket a value belongs to.
* `LquantizeRight` — the function counts the value there and writes nothing else.
* `LquantizeInRange` — when it does.
-/

namespace Polaris

/-- Bucket `i` is that of the value `v`. -/
def LquantizeBucket (arg : BitVec 64) (v : ℤ) (i : ℕ) : Prop :=
  let base := (dtraceLquantizeBase arg).toInt
  let step := dtraceLquantizeStep arg
  let levels := dtraceLquantizeLevels arg
  (i = 0 ∧ v < base) ∨
    (∃ k < levels, i = k + 1 ∧ base + k * step ≤ v ∧ v < base + (k + 1) * step) ∨
    (i = levels + 1 ∧ base + levels * step ≤ v)

/-- The increment goes to the value's bucket and nowhere else, whatever is in the record. -/
def LquantizeRight (arg : BitVec 64) (agg : DtraceAggregation) (nval : BitVec 64) : Prop :=
  ∃ i, LquantizeBucket arg nval.toInt i ∧
    ∀ (lquanta : AggWords) (incr : BitVec 64), (lquanta.length + 1) * 8 = agg.dtrdSize →
      dtraceAggregateLquantize (agg.dtagInitial :: lquanta) nval incr =
        some (agg.dtagInitial :: lquanta.modify i (· + incr))

/-- The value is 32 bits wide and its difference to the base, if positive, is as well; or what is
left of it happens to fall into the right one of the two outer buckets. -/
def LquantizeInRange (arg nval : BitVec 64) : Prop :=
  let v := nval.toInt
  let val := (nval.setWidth 32).toInt
  let base := (dtraceLquantizeBase arg).toInt
  let step := dtraceLquantizeStep arg
  (val = v ∧ v - base < 2 ^ 31) ∨
    (v < -2 ^ 31 ∧ (val < base ∨ (2 ^ 32 - 2 * step < val - base ∧ val - base ≤ 2 ^ 32 - step))) ∨
    (2 ^ 31 ≤ v ∧ base + dtraceLquantizeLevels arg * step ≤ val ∧ val - base < 2 ^ 31)

/-- The bucket as a number. -/
def lquantizeIndex (arg : BitVec 64) (v : ℤ) : ℤ :=
  let level := (v - (dtraceLquantizeBase arg).toInt) / dtraceLquantizeStep arg
  if v < (dtraceLquantizeBase arg).toInt then 0
  else if level < dtraceLquantizeLevels arg then level + 1
  else dtraceLquantizeLevels arg + 1

/-- Narrowing a value takes a multiple of `2 ^ 32` away. -/
theorem toInt_setWidth_spec (nval : BitVec 64) :
    ∃ j : ℤ, nval.toInt = (nval.setWidth 32).toInt + j * 2 ^ 32 := by
  refine ⟨(nval.toInt - (nval.setWidth 32).toInt) / 2 ^ 32, ?_⟩
  rw [BitVec.toInt_setWidth, Int.bmod_def, BitVec.toInt_eq_toNat_cond]
  omega

section

variable {arg : BitVec 64} (hstep : dtraceLquantizeStep arg ≠ 0)
  (hlevels : dtraceLquantizeLevels arg ≠ 0) (nval : BitVec 64)

include hstep

/-- The levels below a value are counted by a division. -/
theorem lquantize_le_iff (v k : ℤ) :
    (dtraceLquantizeBase arg).toInt + k * dtraceLquantizeStep arg ≤ v ↔
    k ≤ (v - (dtraceLquantizeBase arg).toInt) / dtraceLquantizeStep arg := by
  rw [Int.le_ediv_iff_mul_le (by omega)]
  omega

theorem lquantizeBucket_iff {v : ℤ} {i : ℕ} : LquantizeBucket arg v i ↔
    i = lquantizeIndex arg v := by
  have hle := lquantize_le_iff hstep v
  have hlt (k : ℤ) := (not_congr (hle k)).trans Int.not_le
  have hneg := hle 0
  simp only [Int.not_le] at hlt
  simp only [LquantizeBucket, lquantizeIndex, hle, hlt]
  generalize (v - (dtraceLquantizeBase arg).toInt) / (dtraceLquantizeStep arg : ℤ) = level at *
  constructor
  · rintro (h | ⟨k, h⟩ | h) <;> split_ifs <;> omega
  · intro h
    split_ifs at h
    · exact .inl (by omega)
    · exact .inr (.inl ⟨level.toNat, by omega⟩)
    · exact .inr (.inr (by omega))

theorem lquantizeIndex_bounds (v : ℤ) :
    0 ≤ lquantizeIndex arg v ∧ lquantizeIndex arg v ≤ dtraceLquantizeLevels arg + 1 := by
  have := lquantize_le_iff hstep v 0
  rw [lquantizeIndex]
  split_ifs <;> omega

omit hstep in
include hlevels in
/-- A difference of more than 31 bits comes out negative. -/
theorem lquantizeSlot_eq : lquantizeSlot arg nval =
    if (nval.setWidth 32).toInt - (dtraceLquantizeBase arg).toInt < 2 ^ 31 then
      lquantizeIndex arg (nval.setWidth 32).toInt
    else 1 - (2 ^ 32 - ((nval.setWidth 32).toInt - (dtraceLquantizeBase arg).toInt))
      / dtraceLquantizeStep arg := by
  have hval := (nval.setWidth 32).toInt_lt
  have hbase' := (dtraceLquantizeBase arg).le_toInt
  simp only [lquantizeSlot, lquantizeIndex, lquantizeLevel, BitVec.slt_iff_toInt_lt,
    BitVec.toInt_sub]
  generalize (nval.setWidth 32).toInt = val at *
  generalize (dtraceLquantizeBase arg).toInt = base at *
  by_cases hlt : val < base
  · rw [if_pos hlt, if_pos (by omega), if_pos hlt]
  rw [if_neg hlt, if_neg hlt]
  by_cases hd : val - base < 2 ^ 31
  · have hdiff : (val - base).bmod (2 ^ 32) = val - base := by
      rw [Int.bmod_def]
      omega
    rw [hdiff, if_pos hd, Int.tdiv_eq_ediv_of_nonneg (by omega)]
  · have hdiff : (val - base).bmod (2 ^ 32) = -(2 ^ 32 - (val - base)) := by
      rw [Int.bmod_def]
      omega
    have hneg : 0 ≤ (2 ^ 32 - (val - base)) / (dtraceLquantizeStep arg : ℤ) :=
      Int.ediv_nonneg (by omega) (by omega)
    rw [hdiff, if_neg hd, Int.neg_tdiv, Int.tdiv_eq_ediv_of_nonneg (by omega), if_pos (by omega)]
    omega

include hlevels in
theorem lquantizeSlot_eq_iff :
    lquantizeSlot arg nval = lquantizeIndex arg nval.toInt ↔ LquantizeInRange arg nval := by
  obtain ⟨j, hj⟩ := toInt_setWidth_spec nval
  have hval := (nval.setWidth 32).toInt_lt
  have hval' := (nval.setWidth 32).le_toInt
  have hbase := (dtraceLquantizeBase arg).toInt_lt
  have hbase' := (dtraceLquantizeBase arg).le_toInt
  have hs : dtraceLquantizeStep arg < 2 ^ 16 := (arg.extractLsb' 48 16).isLt
  have hl : dtraceLquantizeLevels arg < 2 ^ 16 := (arg.extractLsb' 32 16).isLt
  have hmul : dtraceLquantizeLevels arg * dtraceLquantizeStep arg ≤ 65535 * 65535 :=
    Nat.mul_le_mul (by omega) (by omega)
  have hv := lquantize_le_iff hstep nval.toInt
  have hv' := lquantize_le_iff hstep (nval.setWidth 32).toInt
  have hwrap (k : ℤ) := Int.le_ediv_iff_mul_le (a := k) (c := (dtraceLquantizeStep arg : ℤ))
    (b := 2 ^ 32 - ((nval.setWidth 32).toInt - (dtraceLquantizeBase arg).toInt)) (by omega)
  have hsame (h : (nval.setWidth 32).toInt = nval.toInt) :
      ((nval.setWidth 32).toInt - (dtraceLquantizeBase arg).toInt) / (dtraceLquantizeStep arg : ℤ)
        = (nval.toInt - (dtraceLquantizeBase arg).toInt) / dtraceLquantizeStep arg := by rw [h]
  have := hv 0
  have := hv (dtraceLquantizeLevels arg)
  have := hv' 0
  have := hv' (dtraceLquantizeLevels arg)
  have := hwrap 0
  have := hwrap 1
  have := hwrap 2
  simp only [lquantizeSlot_eq hlevels, lquantizeIndex, LquantizeInRange]
  split_ifs <;> omega

end

theorem lquantizeRight_iff {arg : BitVec 64} {agg : DtraceAggregation}
    (hcreate : dtraceEcbAggregationCreate (.lquantize arg) = some agg) (nval : BitVec 64) :
    LquantizeRight arg agg nval ↔ LquantizeInRange arg nval := by
  rw [dtraceEcbAggregationCreate] at hcreate
  split at hcreate
  · cases hcreate
  rename_i h
  cases hcreate
  have hstep : dtraceLquantizeStep arg ≠ 0 := fun h' => h (.inl h')
  have hlevels : dtraceLquantizeLevels arg ≠ 0 := fun h' => h (.inr h')
  have hindex := lquantizeIndex_bounds hstep nval.toInt
  rw [← lquantizeSlot_eq_iff hstep hlevels]
  simp only [LquantizeRight, lquantizeBucket_iff hstep, dtraceAggregateLquantize]
  constructor
  · rintro ⟨i, hi, hright⟩
    have hone := hright (List.replicate (dtraceLquantizeLevels arg + 2) 0#64) 1#64 (by simp; omega)
    split at hone
    · have hword := congrArg (·[i]?) (List.cons.inj (Option.some.inj hone)).2
      have hlt : i < dtraceLquantizeLevels arg + 2 := by omega
      have hslot : (lquantizeSlot arg nval).toNat = i := by
        simpa [List.getElem_modify, hlt] using hword
      omega
    · cases hone
  · intro hslot
    refine ⟨(lquantizeSlot arg nval).toNat, by omega, fun lquanta incr hlen => if_pos ?_⟩
    omega

/-- With the least base, 0 is counted far below the record. -/
theorem lquantizeRight_zero_base_min :
    ¬LquantizeRight 0x0001000180000000#64
      ⟨.lquantize 0x0001000180000000#64, 0x0001000180000000#64, 32⟩ 0#64 := by
  rintro ⟨i, -, hright⟩
  have hnone : dtraceAggregateLquantize [0x0001000180000000#64, 0, 0, 0] 0#64 1#64
    = none := by decide
  have hsome := hright [0, 0, 0] 1#64 rfl
  rw [hnone] at hsome
  cases hsome

theorem lquantizeRight_iff_unit :
    dtraceEcbAggregationCreate (.lquantize 0x0001000100000000#64)
      = some ⟨.lquantize 0x0001000100000000#64, 0x0001000100000000#64, 32⟩ ∧
    (LquantizeRight 0x0001000100000000#64
      ⟨.lquantize 0x0001000100000000#64, 0x0001000100000000#64, 32⟩ 7#64 ↔
        LquantizeInRange 0x0001000100000000#64 7#64) :=
  ⟨by decide, lquantizeRight_iff (by decide) 7#64⟩

end Polaris
