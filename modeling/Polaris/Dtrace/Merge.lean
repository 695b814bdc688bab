import Mathlib.Data.List.Perm.Basic
import Polaris.Lib.Sharded
import Polaris.Dtrace.Aggregators

/-!
# Aggregating on several CPUs

The values of one key are spread over CPUs and over the switches of each CPU's buffers.  Each part
is folded in the kernel, and the library merges the records as it reads the buffers.  Compared with
one aggregation of all values this is right for the kinds that add words up, and for `min` and `max`
only as long as the signs allow: the kernel compares unsigned and the library signed.

## Main definitions

* `DtraceAggregation.record` — the record of one buffer.
* `DtraceAggregation.snapAll` — what the library makes of the records.
* `DtraceAggKind.MergeRight` — when it is the record of all values.
-/

namespace Polaris

open List BitVec Option DtraceAggKind

/-- A value to aggregate, with the argument of the aggregating function. -/
abbrev AggCall := BitVec 64 × BitVec 64

namespace DtraceAggregation

/-- The kernel's aggregating function on one value after the other. -/
def run (agg : DtraceAggregation) (data : AggWords) (calls : List AggCall) : Option AggWords :=
  calls.foldlM (fun data call => agg.kind.aggregate data call.1 call.2) data

/-- The record a buffer holds for the key; there is none before the first value. -/
def record (agg : DtraceAggregation) (calls : List AggCall) : Option (Option AggWords) :=
  if calls = [] then some none else (agg.run agg.newValue calls).map some

/-- `dt_aggregate_snap_cpu` on the key's record: it is copied if it is the first one. -/
def snap (agg : DtraceAggregation) (existing new : Option AggWords) : Option AggWords :=
  match existing, new with
  | existing, none => existing
  | none, some new => some new
  | some existing, some new => some (agg.kind.merge existing new)

/-- The records of all buffers, in the order they are read. -/
def snapAll (agg : DtraceAggregation) (parts : List (List AggCall)) : Option (Option AggWords) :=
  parts.foldlM (fun existing part => (agg.record part).map (agg.snap existing)) none

end DtraceAggregation

/-- When the merged records are the record of all values. -/
def DtraceAggKind.MergeRight (kind : DtraceAggKind) (parts : List (List AggCall)) : Prop :=
  match kind with
  | .min => PartsAgree BitVec.msb (parts.map (List.map Prod.fst))
  | .max => PartsAgree (fun v => !BitVec.msb v) (parts.map (List.map Prod.fst))
  | .lquantize arg => ∀ part ∈ parts, ∀ call ∈ part, 0 ≤ lquantizeSlot arg call.1
  | .count | .sum | .avg | .quantize => True

/-! ## The kinds that add words up -/

/-- Adds to one word. -/
def addAt (data : AggWords) (inc : ℕ × BitVec 64) : AggWords :=
  data.modify inc.1 (· + inc.2)

@[simp] theorem length_addAt (data : AggWords) (inc : ℕ × BitVec 64) :
    (addAt data inc).length = data.length := by
  simp [addAt]

theorem addAt_right_comm (data : AggWords) (p q : ℕ × BitVec 64) :
    addAt (addAt data p) q = addAt (addAt data q) p := by
  apply ext_getElem?
  intro i
  simp only [addAt, getElem?_modify]
  by_cases hp : p.1 = i <;> by_cases hq : q.1 = i <;> simp [hp, hq, Function.comp_def]
  congr 1
  funext x
  rw [BitVec.add_assoc, BitVec.add_comm p.2, BitVec.add_assoc]

instance : RightCommutative addAt := ⟨addAt_right_comm⟩

theorem length_foldl_addAt (incs : List (ℕ × BitVec 64)) (data : AggWords) :
    (incs.foldl addAt data).length = data.length := by
  induction incs generalizing data with
  | nil => rfl
  | cons inc incs ih => rw [foldl_cons, ih, length_addAt]

theorem zipWith_addAt (e n : AggWords) (inc : ℕ × BitVec 64) :
    zipWith (· + ·) e (addAt n inc) = addAt (zipWith (· + ·) e n) inc := by
  apply ext_getElem
  · simp
  · intro i hi hi'
    simp only [addAt, getElem_zipWith, getElem_modify]
    split
    · exact (BitVec.add_assoc _ _ _).symm
    · rfl

theorem zipWith_foldl_addAt (incs : List (ℕ × BitVec 64)) (e n : AggWords) :
    zipWith (· + ·) e (incs.foldl addAt n) = incs.foldl addAt (zipWith (· + ·) e n) := by
  induction incs generalizing n with
  | nil => rfl
  | cons inc incs ih => rw [foldl_cons, ih, zipWith_addAt, foldl_cons]

theorem zipWith_replicate_zero (e : AggWords) :
    zipWith (· + ·) e (replicate e.length 0#64) = e := by
  apply ext_getElem
  · simp
  · intro i hi hi'
    simp

namespace DtraceAggKind

/-- The kinds whose records are sums. -/
def Additive (kind : DtraceAggKind) : Prop :=
  kind ≠ .min ∧ kind ≠ .max

/-- The words of a record in front of its sums. -/
def header : DtraceAggKind → AggWords
  | .lquantize arg => [arg]
  | _ => []

/-- How many sums a record holds. -/
def width : DtraceAggKind → ℕ
  | .lquantize arg => dtraceLquantizeLevels arg + 2
  | .quantize => dtraceQuantizeNbuckets
  | .avg => 2
  | _ => 1

/-- The sums a call adds to. -/
def increments (kind : DtraceAggKind) (call : AggCall) : List (ℕ × BitVec 64) :=
  match kind with
  | .count => [(0, 1#64)]
  | .sum => [(0, call.1)]
  | .avg => [(0, 1#64), (1, call.1)]
  | .quantize => (quantizeBucket call.1.toInt).toList.map fun i => (i, call.2)
  | .lquantize arg => [((lquantizeSlot arg call.1).toNat, call.2)]
  | .min | .max => []

/-- The call writes inside the buckets. -/
def InBuckets (kind : DtraceAggKind) (call : AggCall) : Prop :=
  match kind with
  | .lquantize arg => 0 ≤ lquantizeSlot arg call.1
  | _ => True

instance (kind : DtraceAggKind) (call : AggCall) : Decidable (kind.InBuckets call) :=
  match kind with
  | .lquantize arg => inferInstanceAs (Decidable (0 ≤ lquantizeSlot arg call.1))
  | .count | .sum | .avg | .quantize | .min | .max => .isTrue trivial

/-- The sums of the calls. -/
def sums (kind : DtraceAggKind) (calls : List AggCall) : AggWords :=
  (calls.flatMap kind.increments).foldl addAt (replicate kind.width 0#64)

end DtraceAggKind

theorem lquantizeSlot_le (arg nval : BitVec 64) :
    lquantizeSlot arg nval ≤ dtraceLquantizeLevels arg + 1 := by
  rw [lquantizeSlot]
  split_ifs <;> omega

theorem length_sums (kind : DtraceAggKind) (calls : List AggCall) :
    (kind.sums calls).length = kind.width := by
  rw [sums, length_foldl_addAt, length_replicate]

section Additive

variable {kind : DtraceAggKind} {agg : DtraceAggregation}
  (hcreate : dtraceEcbAggregationCreate kind = some agg) (hadd : kind.Additive)

include hcreate in
theorem dtraceEcbAggregationCreate_kind : agg.kind = kind := by
  cases kind
  case lquantize arg =>
    rw [dtraceEcbAggregationCreate] at hcreate
    split at hcreate
    · cases hcreate
    · cases hcreate
      rfl
  all_goals
    cases hcreate
    rfl

include hcreate hadd in
theorem newValue_additive : agg.newValue = kind.header ++ List.replicate kind.width 0#64 := by
  cases kind
  case min => exact absurd rfl hadd.1
  case max => exact absurd rfl hadd.2
  case lquantize arg =>
    rw [dtraceEcbAggregationCreate] at hcreate
    split at hcreate
    · cases hcreate
    cases hcreate
    have hsize : (dtraceLquantizeLevels arg * 8 + 3 * 8) / 8 - 1
        = dtraceLquantizeLevels arg + 2 := by
      omega
    simp only [DtraceAggregation.newValue, hsize]
    rfl
  all_goals
    cases hcreate
    rfl

include hadd in
theorem aggregate_additive {data : AggWords} (hlen : data.length = kind.width) (call : AggCall) :
    kind.aggregate (kind.header ++ data) call.1 call.2 = if kind.InBuckets call then
      some (kind.header ++ (kind.increments call).foldl addAt data) else none := by
  cases kind
  case min => exact absurd rfl hadd.1
  case max => exact absurd rfl hadd.2
  case lquantize arg =>
    have hle := lquantizeSlot_le arg call.1
    have hwidth : data.length = dtraceLquantizeLevels arg + 2 := hlen
    have hroom (h : 0 ≤ lquantizeSlot arg call.1) :
        (lquantizeSlot arg call.1).toNat < data.length := by omega
    exact if_congr (and_iff_left_of_imp hroom) rfl rfl
  case quantize =>
    simp only [aggregate, header, nil_append, dtraceAggregateQuantize, increments]
    refine Eq.trans ?_ (if_pos trivial).symm
    cases quantizeBucket call.1.toInt <;> rfl
  all_goals exact (if_pos trivial).symm

include hadd in
theorem merge_additive {e n : AggWords} (he : e.length = kind.width) (hn : n.length = kind.width) :
    kind.merge (kind.header ++ e) (kind.header ++ n)
      = kind.header ++ zipWith (· + ·) e n := by
  cases kind
  case min => exact absurd rfl hadd.1
  case max => exact absurd rfl hadd.2
  case lquantize arg =>
    have he : e.length = dtraceLquantizeLevels arg + 2 := he
    have hn : n.length = dtraceLquantizeLevels arg + 2 := hn
    simp only [DtraceAggKind.merge, DtraceAggKind.header, singleton_append,
      dtAggregateLquantize, tail_cons]
    rw [← he, take_length, drop_length, append_nil, he, ← hn, take_length]
  all_goals rfl

omit hcreate hadd in
theorem sums_append (calls calls' : List AggCall) :
    List.zipWith (· + ·) (kind.sums calls) (kind.sums calls') = kind.sums (calls ++ calls') := by
  have hzero : List.replicate kind.width 0#64
      = List.replicate (kind.sums calls).length 0#64 := by
    rw [length_sums]
  rw [sums, sums, sums, flatMap_append,
    foldl_append, ← sums, zipWith_foldl_addAt, hzero, zipWith_replicate_zero]

theorem sums_perm {calls calls' : List AggCall} (h : calls.Perm calls') :
    kind.sums calls = kind.sums calls' :=
  (h.flatMap_right kind.increments).foldl_eq _

/-- What the record of the calls should be. -/
def DtraceAggKind.sumRecord (kind : DtraceAggKind) (calls : List AggCall) : Option AggWords :=
  if calls = [] then none else some (kind.header ++ kind.sums calls)

theorem sumRecord_perm {calls calls' : List AggCall} (h : calls.Perm calls') :
    kind.sumRecord calls = kind.sumRecord calls' := by
  rw [sumRecord, sumRecord, sums_perm h]
  by_cases hnil : calls = []
  · have hnil' : calls' = [] := (hnil ▸ h).nil_eq.symm
    rw [if_pos hnil, if_pos hnil']
  · rw [if_neg hnil, if_neg fun hnil' => hnil (hnil' ▸ h).eq_nil]

include hcreate hadd

theorem run_additive (calls : List AggCall) (data : AggWords) (hlen : data.length = kind.width) :
    agg.run (kind.header ++ data) calls = if calls.all (kind.InBuckets ·) then
      some (kind.header ++ (calls.flatMap kind.increments).foldl addAt data) else none := by
  induction calls generalizing data with
  | nil => rfl
  | cons call calls ih =>
    have hstep : agg.run (kind.header ++ data) (call :: calls)
        = (kind.aggregate (kind.header ++ data) call.1 call.2).bind fun d => agg.run d calls := by
      rw [← dtraceEcbAggregationCreate_kind hcreate]
      exact foldlM_cons
    rw [hstep, aggregate_additive hadd hlen, flatMap_cons, foldl_append]
    by_cases hcall : kind.InBuckets call
    · rw [if_pos hcall, bind_some, ih _ (by rw [length_foldl_addAt, hlen])]
      simp [hcall]
    · rw [if_neg hcall, bind_none, if_neg (by simp [hcall])]

theorem record_additive (calls : List AggCall) :
    agg.record calls =
      if calls.all (kind.InBuckets ·) then some (kind.sumRecord calls) else none := by
  rw [DtraceAggregation.record, sumRecord, newValue_additive hcreate hadd,
    run_additive hcreate hadd _ _ length_replicate]
  by_cases hnil : calls = []
  · simp [hnil]
  · rw [if_neg hnil, if_neg hnil]
    split <;> rfl

theorem snap_additive (calls calls' : List AggCall) :
    agg.snap (kind.sumRecord calls) (kind.sumRecord calls') = kind.sumRecord (calls ++ calls') := by
  rw [sumRecord, sumRecord, sumRecord]
  by_cases hnil' : calls' = []
  · rw [if_pos hnil', hnil', append_nil]
    rfl
  by_cases hnil : calls = []
  · rw [if_pos hnil, if_neg hnil', hnil, nil_append, if_neg hnil']
    rfl
  · rw [if_neg hnil, if_neg hnil', if_neg (by simp [hnil])]
    simp only [DtraceAggregation.snap]
    rw [dtraceEcbAggregationCreate_kind hcreate,
      merge_additive hadd (length_sums _ _) (length_sums _ _), sums_append]

theorem snapAll_additive (parts : List (List AggCall)) (seen : List AggCall) :
    parts.foldlM (fun existing part => (agg.record part).map (agg.snap existing))
        (kind.sumRecord seen) = if parts.flatten.all (kind.InBuckets ·) then
      some (kind.sumRecord (seen ++ parts.flatten)) else none := by
  induction parts generalizing seen with
  | nil =>
    rw [flatten_nil, append_nil]
    rfl
  | cons part parts ih =>
    rw [foldlM_cons, record_additive hcreate hadd, flatten_cons, all_append]
    by_cases hpart : part.all (kind.InBuckets ·)
    · rw [if_pos hpart, map_some, snap_additive hcreate hadd]
      change foldlM _ _ _ = _
      rw [ih, List.append_assoc, hpart, Bool.true_and]
    · rw [if_neg hpart, if_neg (by simp [hpart])]
      rfl

/-- Records of sums merge to the record of all values, unless a value is counted outside the
buckets. -/
theorem merge_iff_additive {parts : List (List AggCall)} {calls : List AggCall}
    (hperm : calls.Perm parts.flatten) :
    (∃ r, agg.snapAll parts = some r ∧ agg.record calls = some r) ↔
      ∀ part ∈ parts, ∀ call ∈ part, kind.InBuckets call := by
  have hsnap : agg.snapAll parts = _ := snapAll_additive hcreate hadd parts []
  have hall : parts.flatten.all (kind.InBuckets ·) ↔
      ∀ part ∈ parts, ∀ call ∈ part, kind.InBuckets call := by
    simp
  rw [hsnap, record_additive hcreate hadd, hperm.all_eq, sumRecord_perm hperm, ← hall]
  constructor
  · rintro ⟨r, hr, -⟩
    by_contra hbad
    rw [if_neg hbad] at hr
    cases hr
  · intro h
    rw [if_pos h, if_pos h]
    exact ⟨_, rfl, rfl⟩

end Additive

/-! ## Minimum and maximum -/

/-- A kind whose records are the value with the least key, and are merged by another key. -/
structure KeptBy (kind : DtraceAggKind) (agg : DtraceAggregation) (upper : BitVec 64 → Bool)
    (key key' : BitVec 64 → ℤ) (top : BitVec 64) : Prop where
  kind_eq : agg.kind = kind
  aggregate : ∀ old nval arg, kind.aggregate [old] nval arg = some [keepLeast key old nval]
  merge : ∀ old new, kind.merge [old] [new] = [keepLeast key' old new]
  newValue : agg.newValue = [top]
  le_top : ∀ v, key v ≤ key top
  injective : Function.Injective key
  swapped : HalvesSwapped upper key key'

section Kept

variable {kind : DtraceAggKind} {agg : DtraceAggregation} {upper : BitVec 64 → Bool}
  {key key' : BitVec 64 → ℤ} {top : BitVec 64}

/-- The values of the parts that are not empty, least first. -/
def partMins (key : BitVec 64 → ℤ) (top : BitVec 64) (parts : List (List AggCall)) :
    List (BitVec 64) :=
  (parts.filter fun part => !part.isEmpty).map fun part =>
    (part.map Prod.fst).foldl (keepLeast key) top

namespace KeptBy

variable (h : KeptBy kind agg upper key key' top)

include h

theorem run (calls : List AggCall) (old : BitVec 64) :
    agg.run [old] calls = some [(calls.map Prod.fst).foldl (keepLeast key) old] := by
  induction calls generalizing old with
  | nil => rfl
  | cons call calls ih =>
    have hstep : agg.run [old] (call :: calls)
        = (kind.aggregate [old] call.1 call.2).bind fun d => agg.run d calls := by
      rw [← h.kind_eq]
      exact foldlM_cons
    rw [hstep, h.aggregate, bind_some, ih]
    rfl

theorem record {calls : List AggCall} (hne : calls ≠ []) :
    agg.record calls = some (some [(calls.map Prod.fst).foldl (keepLeast key) top]) := by
  rw [DtraceAggregation.record, if_neg hne, h.newValue, h.run]
  rfl

theorem snapAll_some (parts : List (List AggCall)) (old : BitVec 64) :
    parts.foldlM (fun existing part => (agg.record part).map (agg.snap existing)) (some [old])
      = some (some [(partMins key top parts).foldl (keepLeast key') old]) := by
  induction parts generalizing old with
  | nil => rfl
  | cons part parts ih =>
    rw [foldlM_cons]
    by_cases hnil : part = []
    · subst hnil
      exact ih old
    rw [h.record hnil, map_some]
    have hmerge : agg.snap (some [old]) (some [(part.map Prod.fst).foldl (keepLeast key) top])
        = some [keepLeast key' old ((part.map Prod.fst).foldl (keepLeast key) top)] := by
      rw [← h.merge, ← h.kind_eq]
      rfl
    rw [hmerge]
    change foldlM _ _ _ = _
    rw [ih, partMins, partMins, filter_cons_of_pos (by simpa using hnil), map_cons,
      foldl_cons]

/-- The library keeps the least of the parts' values under its own key. -/
theorem snapAll (parts : List (List AggCall)) :
    (partMins key top parts = [] ∧ agg.snapAll parts = some none) ∨
      ∃ v, LeastBy key' (partMins key top parts) v ∧ agg.snapAll parts = some (some [v]) := by
  induction parts with
  | nil => exact .inl ⟨rfl, rfl⟩
  | cons part parts ih =>
    by_cases hnil : part = []
    · subst hnil
      exact ih
    right
    have hsnap := h.snapAll_some parts ((part.map Prod.fst).foldl (keepLeast key) top)
    refine ⟨(partMins key top parts).foldl (keepLeast key')
      ((part.map Prod.fst).foldl (keepLeast key) top), ?_, ?_⟩
    · rw [partMins, filter_cons_of_pos (by simpa using hnil), map_cons]
      exact leastBy_foldl_keepLeast key' _ _
    · rw [DtraceAggregation.snapAll, foldlM_cons, h.record hnil]
      exact hsnap

theorem leastBy_part {part : List AggCall} (hne : part ≠ []) :
    LeastBy key (part.map Prod.fst) ((part.map Prod.fst).foldl (keepLeast key) top) :=
  leastBy_foldl_keepLeast_top h.injective h.le_top (by simpa using hne)

theorem mem_partMins (parts : List (List AggCall)) (m : BitVec 64) :
    m ∈ partMins key top parts ↔ ∃ part ∈ parts.map (map Prod.fst), LeastBy key part m := by
  simp only [partMins, List.mem_map, mem_filter, Bool.not_eq_true', isEmpty_eq_false_iff]
  constructor
  · rintro ⟨part, ⟨hpart, hne⟩, rfl⟩
    exact ⟨_, ⟨part, hpart, rfl⟩, h.leastBy_part hne⟩
  · rintro ⟨_, ⟨part, hpart, rfl⟩, hleast⟩
    have hne : part ≠ [] := by
      rintro rfl
      cases hleast.1
    exact ⟨part, ⟨hpart, hne⟩, (h.leastBy_part hne).unique h.injective hleast⟩

theorem merge_iff {parts : List (List AggCall)} {calls : List AggCall}
    (hperm : calls.Perm parts.flatten) :
    (∃ r, agg.snapAll parts = some r ∧ agg.record calls = some r) ↔
      PartsAgree upper (parts.map (map Prod.fst)) := by
  have hvalues : (calls.map Prod.fst).Perm (parts.map (map Prod.fst)).flatten := by
    rw [← map_flatten]
    exact hperm.map Prod.fst
  rcases h.snapAll parts with ⟨hnil, hsnap⟩ | ⟨v, hv, hsnap⟩
  · -- no part has a value: there is no record, and nothing to compare
    have hempty : ∀ part ∈ parts, part = [] := by
      simpa [partMins] using hnil
    have hcalls : calls = [] := by
      rw [flatten_eq_nil_iff.mpr hempty] at hperm
      exact hperm.eq_nil
    constructor
    · intro _
      right
      intro part hpart v hv
      obtain ⟨part', hpart', rfl⟩ := mem_map.mp hpart
      rw [hempty part' hpart'] at hv
      cases hv
    · intro _
      refine ⟨none, hsnap, ?_⟩
      rw [hcalls]
      rfl
  · obtain ⟨part, hpart, hvpart⟩ := (h.mem_partMins parts v).mp hv.1
    have hmem : v ∈ calls.map Prod.fst :=
      hvalues.mem_iff.mpr (mem_flatten.mpr ⟨part, hpart, hvpart.1⟩)
    have hne : calls ≠ [] := by
      rintro rfl
      cases hmem
    have hleast := (h.leastBy_part hne).perm hvalues
    have hparts : ∀ part ∈ parts.map (map Prod.fst), part ≠ [] →
        ∃ m, LeastBy key part m := by
      intro part hpart hne
      obtain ⟨part, hpart, rfl⟩ := mem_map.mp hpart
      exact ⟨_, h.leastBy_part (by simpa using hne)⟩
    rw [← leastBy_parts_iff h.swapped h.injective (h.mem_partMins parts) hparts hv hleast,
      hsnap, h.record hne]
    simp [eq_comm]

end KeptBy

/-- Signed and unsigned comparison of words. -/
theorem swapped_msb :
    HalvesSwapped BitVec.msb (fun v : BitVec 64 => (v.toNat : ℤ)) BitVec.toInt := by
  constructor
  · intro v w hmsb
    simp only [toInt_eq_msb_cond, hmsb]
    split <;> omega
  · intro v w hv hw
    rw [msb_eq_decide, decide_eq_false_iff_not] at hv
    rw [msb_eq_decide, decide_eq_true_eq] at hw
    simp only [BitVec.toInt]
    constructor
    · omega
    · rw [if_neg (by omega), if_pos (by omega)]
      omega

theorem HalvesSwapped.neg {upper : BitVec 64 → Bool} {key key' : BitVec 64 → ℤ}
    (h : HalvesSwapped upper key key') :
    HalvesSwapped (fun v => !upper v) (fun v => -key v) fun v => -key' v := by
  constructor
  · intro v w hupper
    have := h.alike w v (by simpa using hupper.symm)
    omega
  · intro v w hv hw
    have := h.first w v (by simpa using hw) (by simpa using hv)
    omega

theorem keptBy_min : KeptBy .min ⟨.min, allOnes 64, 8⟩ BitVec.msb
    (fun v => v.toNat) BitVec.toInt (allOnes 64) where
  kind_eq := rfl
  aggregate old nval arg := by
    simp [DtraceAggKind.aggregate, dtraceAggregateMin, keepLeast, lt_def]
  merge old new := by
    simp [DtraceAggKind.merge, dtAggregateMin, keepLeast, slt_iff_toInt_lt]
  newValue := rfl
  le_top v := by
    have := v.isLt
    simp only [toNat_allOnes]
    omega
  injective v w hvw := eq_of_toNat_eq (Int.ofNat.inj hvw)
  swapped := swapped_msb

theorem keptBy_max : KeptBy .max ⟨.max, 0#64, 8⟩ (fun v => !BitVec.msb v)
    (fun v => -v.toNat) (fun v => -v.toInt) 0#64 where
  kind_eq := rfl
  aggregate old nval arg := by
    simp [DtraceAggKind.aggregate, dtraceAggregateMax, keepLeast, lt_def]
  merge old new := by
    simp [DtraceAggKind.merge, dtAggregateMax, keepLeast, slt_iff_toInt_lt]
  newValue := rfl
  le_top v := by simp
  injective v w hvw := eq_of_toNat_eq (Int.ofNat.inj (Int.neg_inj.mp hvw))
  swapped := swapped_msb.neg

end Kept

/-! ## All kinds -/

/-- However the values are spread, and in whatever order they are aggregated otherwise: the merged
record is the record of all values exactly when `MergeRight` holds. -/
theorem dtraceAggregation_merge_iff {kind : DtraceAggKind} {agg : DtraceAggregation}
    (hcreate : dtraceEcbAggregationCreate kind = some agg) {parts : List (List AggCall)}
    {calls : List AggCall} (hperm : calls.Perm parts.flatten) :
    (∃ r, agg.snapAll parts = some r ∧ agg.record calls = some r) ↔ kind.MergeRight parts := by
  cases kind
  case min =>
    cases hcreate
    exact keptBy_min.merge_iff hperm
  case max =>
    cases hcreate
    exact keptBy_max.merge_iff hperm
  all_goals
    rw [merge_iff_additive hcreate ⟨nofun, nofun⟩ hperm]
    simp [DtraceAggKind.InBuckets, DtraceAggKind.MergeRight]

/-- The smallest of 5 on one CPU and -1 on another is 5 in the kernel, which compares unsigned, and
-1 in the library. -/
theorem dtraceAggregation_min_signs :
    dtraceEcbAggregationCreate .min = some ⟨.min, BitVec.allOnes 64, 8⟩ ∧
    DtraceAggregation.record ⟨.min, BitVec.allOnes 64, 8⟩ [(5#64, 0#64), (-1#64, 0#64)]
      = some (some [5#64]) ∧
    DtraceAggregation.snapAll ⟨.min, BitVec.allOnes 64, 8⟩ [[(5#64, 0#64)], [(-1#64, 0#64)]]
      = some (some [-1#64]) := by
  decide

theorem dtraceAggregation_merge_iff_avg :
    ∃ r, DtraceAggregation.snapAll ⟨.avg, 0#64, 16⟩ [[(5#64, 0#64)], [], [(-1#64, 0#64)]] = some r ∧
      DtraceAggregation.record ⟨.avg, 0#64, 16⟩ [(-1#64, 0#64), (5#64, 0#64)] = some r := by
  have hcreate : dtraceEcbAggregationCreate .avg = some ⟨.avg, 0#64, 16⟩ := rfl
  have hperm : Perm [(-1#64, 0#64), (5#64, 0#64)]
      [[(5#64, 0#64)], [], [(-1#64, 0#64)]].flatten := Perm.swap _ _ _
  exact (dtraceAggregation_merge_iff hcreate hperm).mpr trivial

end Polaris
