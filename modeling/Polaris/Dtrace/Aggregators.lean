import Mathlib.Algebra.Group.Nat.Defs
import Mathlib.Algebra.Ring.Int.Defs
import Mathlib.Tactic.Common

/-!
# The aggregating functions of DTrace

The functions of `dtrace.c` that fold one value into the words of an aggregation record, the initial
values and sizes `dtrace_ecb_aggregation_create` gives the records, and the functions of libdtrace's
`dt_aggregate.c` that merge the records of one key from several buffers.

Arithmetic is that of the machine: it wraps, also where the source's types are signed.

## Main definitions

* `DtraceAggKind`, `DtraceAggregation`, `dtraceEcbAggregationCreate`
* `DtraceAggKind.aggregate` — `dtag_aggregate`, in the kernel.
* `DtraceAggKind.merge` — `dtahe_aggregate`, in the library.
-/

namespace Polaris

/-- The words of an aggregation's value. -/
abbrev AggWords := List (BitVec 64)

/-- The kinds of `dtad_kind`; `lquantize` with its `dtad_arg`. -/
inductive DtraceAggKind
  | min
  | max
  | count
  | quantize
  | lquantize (arg : BitVec 64)
  | avg
  | sum
  deriving DecidableEq, Repr

/-! ## In the kernel -/

def dtraceAggregateMin (oval : AggWords) (nval : BitVec 64) : AggWords :=
  oval.modify 0 fun old => if nval < old then nval else old

def dtraceAggregateMax (oval : AggWords) (nval : BitVec 64) : AggWords :=
  oval.modify 0 fun old => if nval > old then nval else old

def dtraceQuantizeNbuckets : ℕ := 127

def dtraceQuantizeZerobucket : ℕ := 63

def dtraceQuantizeBucketval (buck : ℕ) : ℤ :=
  if buck < dtraceQuantizeZerobucket then -(2 ^ (dtraceQuantizeZerobucket - 1 - buck))
  else if buck = dtraceQuantizeZerobucket then 0
  else 2 ^ (buck - dtraceQuantizeZerobucket - 1)

/-- The bucket of a value: the loops of `dtrace_aggregate_quantize`. -/
def quantizeBucket (val : ℤ) : Option ℕ :=
  let mid := dtraceQuantizeZerobucket
  if val < 0 then
    (List.range mid).find? fun i => val ≤ dtraceQuantizeBucketval i
  else
    match (List.range' (mid + 1) (dtraceQuantizeNbuckets - (mid + 1))).find? fun i =>
        val < dtraceQuantizeBucketval i with
    | some i => some (i - 1)
    | none => some (dtraceQuantizeNbuckets - 1)

def dtraceAggregateQuantize (quanta : AggWords) (nval incr : BitVec 64) : AggWords :=
  match quantizeBucket nval.toInt with
  | some i => quanta.modify i (· + incr)
  | none => quanta

def dtraceLquantizeStep (x : BitVec 64) : ℕ := (x.extractLsb' 48 16).toNat

def dtraceLquantizeLevels (x : BitVec 64) : ℕ := (x.extractLsb' 32 16).toNat

def dtraceLquantizeBase (x : BitVec 64) : BitVec 32 := x.extractLsb' 0 32

/-- `level = (val - base) / step`, in 32 bits. -/
def lquantizeLevel (arg nval : BitVec 64) : ℤ :=
  (nval.setWidth 32 - dtraceLquantizeBase arg).toInt.tdiv (dtraceLquantizeStep arg)

/-- Which of the `lquanta` a value goes to. -/
def lquantizeSlot (arg nval : BitVec 64) : ℤ :=
  if (nval.setWidth 32).slt (dtraceLquantizeBase arg) then 0
  else if lquantizeLevel arg nval < dtraceLquantizeLevels arg then lquantizeLevel arg nval + 1
  else dtraceLquantizeLevels arg + 1

/-- `none` if the function writes outside its buckets. -/
def dtraceAggregateLquantize (data : AggWords) (nval incr : BitVec 64) : Option AggWords :=
  match data with
  | [] => none
  | arg :: lquanta =>
    let slot := lquantizeSlot arg nval
    if 0 ≤ slot ∧ slot.toNat < lquanta.length then
      some (arg :: lquanta.modify slot.toNat (· + incr))
    else none

def dtraceAggregateAvg (data : AggWords) (nval : BitVec 64) : AggWords :=
  (data.modify 0 (· + 1#64)).modify 1 (· + nval)

def dtraceAggregateCount (oval : AggWords) : AggWords :=
  oval.modify 0 (· + 1#64)

def dtraceAggregateSum (oval : AggWords) (nval : BitVec 64) : AggWords :=
  oval.modify 0 (· + nval)

/-- `dtag_aggregate` for each kind, on the value and its argument. -/
def DtraceAggKind.aggregate (kind : DtraceAggKind) (data : AggWords) (nval arg : BitVec 64) :
    Option AggWords :=
  match kind with
  | .min => some (dtraceAggregateMin data nval)
  | .max => some (dtraceAggregateMax data nval)
  | .count => some (dtraceAggregateCount data)
  | .quantize => some (dtraceAggregateQuantize data nval arg)
  | .lquantize _ => dtraceAggregateLquantize data nval arg
  | .avg => some (dtraceAggregateAvg data nval)
  | .sum => some (dtraceAggregateSum data nval)

/-- What `dtrace_aggregation` says about a record's value. -/
structure DtraceAggregation where
  kind : DtraceAggKind
  dtagInitial : BitVec 64
  /-- `dtrd_size` of the aggregation's own record, in bytes. -/
  dtrdSize : ℕ
  deriving DecidableEq, Repr

/-- The part of `dtrace_ecb_aggregation_create` that depends on the kind. -/
def dtraceEcbAggregationCreate : DtraceAggKind → Option DtraceAggregation
  | .min => some ⟨.min, BitVec.allOnes 64, 8⟩
  | .max => some ⟨.max, 0#64, 8⟩
  | .count => some ⟨.count, 0#64, 8⟩
  | .quantize => some ⟨.quantize, 0#64, dtraceQuantizeNbuckets * 8⟩
  | .lquantize arg =>
    if dtraceLquantizeStep arg = 0 ∨ dtraceLquantizeLevels arg = 0 then none
    else some ⟨.lquantize arg, arg, dtraceLquantizeLevels arg * 8 + 3 * 8⟩
  | .avg => some ⟨.avg, 0#64, 2 * 8⟩
  | .sum => some ⟨.sum, 0#64, 8⟩

/-- The value of a new record: zeroed, then `dtag_initial` in its first word. -/
def DtraceAggregation.newValue (agg : DtraceAggregation) : AggWords :=
  agg.dtagInitial :: List.replicate (agg.dtrdSize / 8 - 1) 0#64

/-! ## In the library -/

def dtAggregateCount (existing new : AggWords) : AggWords :=
  List.zipWith (· + ·) existing new

def dtAggregateMin (existing new : AggWords) : AggWords :=
  existing.modify 0 fun old => if (new.headD 0#64).slt old then new.headD 0#64 else old

def dtAggregateMax (existing new : AggWords) : AggWords :=
  existing.modify 0 fun old => if old.slt (new.headD 0#64) then new.headD 0#64 else old

def dtAggregateLquantize (existing new : AggWords) : AggWords :=
  match existing with
  | [] => []
  | arg :: existing =>
    let n := dtraceLquantizeLevels arg + 2
    arg :: (List.zipWith (· + ·) (existing.take n) (new.tail.take n) ++ existing.drop n)

/-- `dtahe_aggregate` for each kind. -/
def DtraceAggKind.merge (kind : DtraceAggKind) (existing new : AggWords) : AggWords :=
  match kind with
  | .min => dtAggregateMin existing new
  | .max => dtAggregateMax existing new
  | .lquantize _ => dtAggregateLquantize existing new
  | .count | .sum | .avg | .quantize => dtAggregateCount existing new

end Polaris
