import Polaris.Raidz.Field

/-!
# Parity brings lost columns back

Byte `k` of the columns of a stripe is a code word: the bytes `k` of the data columns, with zeros
where a column is too short, their sum and their polynomial.  Generating parity computes the last
two, and the reconstruction of a column solves for its byte.

## Main definitions

* `RaidzMap.Fits` — the lengths of the columns of a stripe.
* `RaidzMap.byteAt` — byte `k` of the data columns.
* `RaidzMap.Restored` — some columns have their old contents, the others were not touched.
-/

namespace Polaris

open Gf256 RaidzMap
open BitVec hiding not_or

variable {i c x k : ℕ}

namespace RaidzMap

/-! ## Columns -/

variable (rm : RaidzMap)

@[simp] theorem rmCols_setData (c : ℕ) (d : ℕ → BitVec 8) :
    (rm.setData c d).rmCols = rm.rmCols := rfl

@[simp] theorem rmFirstdatacol_setData (c : ℕ) (d : ℕ → BitVec 8) :
    (rm.setData c d).rmFirstdatacol = rm.rmFirstdatacol := rfl

@[simp] theorem data_setData_self (c : ℕ) (d : ℕ → BitVec 8) : (rm.setData c d).data c = d := by
  simp [data, setData]

theorem rmCol_setData_of_ne (h : i ≠ c) (d : ℕ → BitVec 8) :
    (rm.setData c d).rmCol i = rm.rmCol i := by
  simp [setData, h]

@[simp] theorem data_setData_of_ne (h : i ≠ c) (d : ℕ → BitVec 8) :
    (rm.setData c d).data i = rm.data i := by
  rw [data, rmCol_setData_of_ne rm h, data]

@[simp] theorem size_setData (c i : ℕ) (d : ℕ → BitVec 8) :
    (rm.setData c d).size i = rm.size i := by
  rcases eq_or_ne i c with rfl | h
  · simp [size, setData]
  · rw [size, rmCol_setData_of_ne rm h, size]

@[simp] theorem count_setData (c i : ℕ) (d : ℕ → BitVec 8) :
    (rm.setData c d).count i = rm.count i := by
  rw [count, size_setData, count]

@[simp] theorem setData_setData (c : ℕ) (d d' : ℕ → BitVec 8) :
    (rm.setData c d).setData c d' = rm.setData c d' := by
  simp [setData]

theorem setData_comm {c' : ℕ} (h : c ≠ c') (d d' : ℕ → BitVec 8) :
    (rm.setData c d).setData c' d' = (rm.setData c' d').setData c d := by
  simp [setData, h, h.symm, Function.update_comm h]

theorem size_setSize (c i size : ℕ) :
    (rm.setSize c size).size i = if i = c then size else rm.size i := by
  rcases eq_or_ne i c with rfl | h
  · simp [RaidzMap.size, setSize]
  · simp [RaidzMap.size, setSize, h]

@[simp] theorem data_setSize (c i size : ℕ) : (rm.setSize c size).data i = rm.data i := by
  rcases eq_or_ne i c with rfl | h
  · simp [data, setSize]
  · simp [data, setSize, h]

/-- The number of data columns. -/
def dataCount : ℕ := rm.rmCols - rm.rmFirstdatacol

/-- Byte `k` of the data columns, zero where the column is shorter. -/
def byteAt (k i : ℕ) : BitVec 8 :=
  if k < rm.size (rm.rmFirstdatacol + i) then rm.data (rm.rmFirstdatacol + i) k else 0#8

/-- The lengths of the columns of a stripe: whole words, the parity columns at least as long as the
data columns. -/
structure Fits : Prop where
  parity : vdevRaidzP < rm.rmFirstdatacol
  cols : rm.rmFirstdatacol < rm.rmCols
  words : ∀ c < rm.rmCols, 8 ∣ rm.size c
  paritySize : ∀ c < rm.rmFirstdatacol, rm.size c = rm.size vdevRaidzP
  dataSize : ∀ i < rm.dataCount, rm.size (rm.rmFirstdatacol + i) ≤ rm.size vdevRaidzP

@[simp] theorem byteAt_setData_parity (hc : c < rm.rmFirstdatacol) (d : ℕ → BitVec 8) :
    (rm.setData c d).byteAt = rm.byteAt := by
  funext k i
  rw [byteAt, byteAt, size_setData, rmFirstdatacol_setData, data_setData_of_ne rm (by omega)]

@[simp] theorem setData_data (c : ℕ) : rm.setData c (rm.data c) = rm := by
  simp [setData, data]

/-- New contents for both parity columns replace the old ones. -/
theorem setParity_setParity (p q p' q' : ℕ → BitVec 8) :
    (((rm.setData vdevRaidzQ q).setData vdevRaidzP p).setData vdevRaidzQ q').setData vdevRaidzP p'
      = (rm.setData vdevRaidzQ q').setData vdevRaidzP p' := by
  rw [setData_comm _ (by decide : vdevRaidzP ≠ vdevRaidzQ), setData_setData, setData_setData]

variable {rm}

theorem Fits.lt_count_iff (h : rm.Fits) (hc : c < rm.rmCols) (k : ℕ) :
    k / 8 < rm.count c ↔ k < rm.size c := by
  obtain ⟨w, hw⟩ := h.words c hc
  rw [count, hw]
  omega

theorem lt_cols_of_lt_dataCount (hi : i < rm.dataCount) : rm.rmFirstdatacol + i < rm.rmCols := by
  rw [dataCount] at hi
  omega

end RaidzMap

/-! ## Generating parity -/

section Generate

variable {rm : RaidzMap} (h : rm.Fits)

include h

/-- One column more in the first parity column. -/
theorem raidzParityP_spec (hfirst : rm.size rm.rmFirstdatacol = rm.size vdevRaidzP)
    (hi : i < rm.dataCount) (p : ℕ → BitVec 8) :
    ∃ p', raidzParityP (rm.setData vdevRaidzP p) (rm.rmFirstdatacol + i)
      = rm.setData vdevRaidzP p' ∧
      ∀ k < rm.size vdevRaidzP, p' k = (if i = 0 then 0#8 else p k) ^^^ rm.byteAt k i := by
  have hne : rm.rmFirstdatacol + i ≠ vdevRaidzP := by
    have := h.parity
    omega
  rw [raidzParityP]
  simp only [rmFirstdatacol_setData, count_setData,
    data_setData_self, data_setData_of_ne rm hne, setData_setData]
  split
  next h0 =>
    refine ⟨_, rfl, fun k hk => ?_⟩
    obtain rfl : i = 0 := by omega
    rw [if_pos rfl, wordLoop_zero_apply, byteOf_load64_div,
      if_pos ((h.lt_count_iff (lt_cols_of_lt_dataCount hi) k).mpr (by rwa [Nat.add_zero, hfirst])),
      byteAt, if_pos (by rwa [Nat.add_zero, hfirst]), BitVec.zero_xor]
  next h0 =>
    refine ⟨_, rfl, fun k hk => ?_⟩
    rw [if_neg (by omega), wordLoop_zero_apply, byteOf_xor, byteOf_load64_div, byteOf_load64_div,
      byteAt]
    simp only [h.lt_count_iff (lt_cols_of_lt_dataCount hi)]
    split
    · rfl
    · rw [xor_zero]

/-- `vdev_raidz_generate_parity_p` puts the sum of the data columns into the first column. -/
theorem vdevRaidzGenerateParityP_spec
    (hfirst : rm.size rm.rmFirstdatacol = rm.size vdevRaidzP) :
    ∃ p, vdevRaidzGenerateParityP rm = rm.setData vdevRaidzP p ∧
      ∀ k < rm.size vdevRaidzP, p k = sum (rm.byteAt k) rm.dataCount := by
  have hloop := foldl_range'_induction raidzParityP
    (fun i rm' => ∃ p, rm' = rm.setData vdevRaidzP p ∧
      (i ≠ 0 → ∀ k < rm.size vdevRaidzP, p k = sum (rm.byteAt k) i))
    rm.rmFirstdatacol rm.dataCount (a := rm) ⟨_, (rm.setData_data _).symm,
      fun h0 => (h0 rfl).elim⟩ ?_
  · obtain ⟨p, hp, hsum⟩ := hloop
    have hcols := h.cols
    exact ⟨p, hp, hsum (by rw [dataCount]; omega)⟩
  · rintro i hi _ ⟨p, rfl, hsum⟩
    obtain ⟨p', hp', hk'⟩ := raidzParityP_spec h hfirst hi p
    refine ⟨p', hp', fun _ k hk => ?_⟩
    rw [hk' k hk, sum]
    split
    next h0 => rw [h0]; rfl
    next h0 => rw [hsum h0 k hk]

/-- One column more in both parity columns. -/
theorem raidzParityPq_spec (hq : vdevRaidzQ < rm.rmFirstdatacol) (hi : i < rm.dataCount)
    (p q : ℕ → BitVec 8) :
    ∃ p' q', raidzParityPq (rm.count vdevRaidzP)
          ((rm.setData vdevRaidzQ q).setData vdevRaidzP p) (rm.rmFirstdatacol + i)
        = (rm.setData vdevRaidzQ q').setData vdevRaidzP p' ∧
      ∀ k < rm.size vdevRaidzP, p' k = (if i = 0 then 0#8 else p k) ^^^ rm.byteAt k i ∧
        q' k = (if i = 0 then 0#8 else double (q k)) ^^^ rm.byteAt k i := by
  have hcol := lt_cols_of_lt_dataCount hi
  have hle : rm.count (rm.rmFirstdatacol + i) ≤ rm.count vdevRaidzP :=
    Nat.div_le_div_right (h.dataSize i hi)
  have hP : rm.rmFirstdatacol + i ≠ vdevRaidzP := by
    simp only [vdevRaidzQ, vdevRaidzP] at hq ⊢
    omega
  have hQ : rm.rmFirstdatacol + i ≠ vdevRaidzQ := by omega
  have hPQ : vdevRaidzQ ≠ vdevRaidzP := by decide
  have hkP (k : ℕ) (hk : k < rm.size vdevRaidzP) : k / 8 < rm.count vdevRaidzP :=
    (h.lt_count_iff (h.parity.trans h.cols) k).mpr hk
  have hkC := h.lt_count_iff hcol
  rw [raidzParityPq]
  simp only [rmFirstdatacol_setData, count_setData,
    data_setData_self, data_setData_of_ne _ hP, data_setData_of_ne _ hQ,
    data_setData_of_ne _ hPQ, setParity_setParity]
  split
  next h0 =>
    obtain rfl : i = 0 := by omega
    have hcopy (m : ℕ → BitVec 8) (k : ℕ) (hk : k < rm.size vdevRaidzP) :
        wordLoop (fun _ _ => 0#64) (rm.count (rm.rmFirstdatacol + 0))
            (rm.count vdevRaidzP - rm.count (rm.rmFirstdatacol + 0))
            (wordLoop (fun i _ => load64 (rm.data (rm.rmFirstdatacol + 0)) i) 0
              (rm.count (rm.rmFirstdatacol + 0)) m) k
          = rm.byteAt k 0 := by
      rw [wordLoop_two_apply _ _ hle, if_pos (hkP k hk), byteAt, apply_ite (byteOf · _),
        byteOf_load64_div, byteOf_zero]
      exact if_congr (hkC k) rfl rfl
    exact ⟨_, _, rfl, fun k hk => by rw [hcopy _ k hk, hcopy _ k hk]; simp⟩
  next h0 =>
    refine ⟨_, _, rfl, fun k hk => ⟨?_, ?_⟩⟩
    · rw [if_neg (by omega), wordLoop_zero_apply, byteOf_xor, byteOf_load64_div, byteOf_load64_div,
        byteAt]
      simp only [hkC]
      split
      · rfl
      · rw [xor_zero]
    · rw [if_neg (by omega), wordLoop_two_apply _ _ hle, if_pos (hkP k hk), byteAt,
        apply_ite (byteOf · _), byteOf_xor, byteOf_raidzMul2Word _ (Nat.mod_lt _ (by omega)),
        byteOf_load64_div, byteOf_load64_div]
      simp only [hkC]
      split
      · rfl
      · rw [xor_zero]

/-- `vdev_raidz_generate_parity_pq` puts the sum and the polynomial of the data columns into the
first two columns. -/
theorem vdevRaidzGenerateParityPq_spec (hq : vdevRaidzQ < rm.rmFirstdatacol) :
    ∃ p q, vdevRaidzGenerateParityPq rm = (rm.setData vdevRaidzQ q).setData vdevRaidzP p ∧
      ∀ k < rm.size vdevRaidzP, p k = sum (rm.byteAt k) rm.dataCount ∧
        q k = horner (rm.byteAt k) rm.dataCount := by
  have hself : rm = (rm.setData vdevRaidzQ (rm.data vdevRaidzQ)).setData vdevRaidzP
      (rm.data vdevRaidzP) := by
    rw [setData_data, setData_data]
  have hloop := foldl_range'_induction (raidzParityPq (rm.count vdevRaidzP))
    (fun i rm' => ∃ p q, rm' = (rm.setData vdevRaidzQ q).setData vdevRaidzP p ∧
      (i ≠ 0 → ∀ k < rm.size vdevRaidzP, p k = sum (rm.byteAt k) i ∧ q k = horner (rm.byteAt k) i))
    rm.rmFirstdatacol rm.dataCount (a := rm) ⟨_, _, hself, fun h0 => (h0 rfl).elim⟩ ?_
  · obtain ⟨p, q, hpq, hsum⟩ := hloop
    have hcols := h.cols
    exact ⟨p, q, hpq, hsum (by rw [dataCount]; omega)⟩
  · rintro i hi _ ⟨p, q, rfl, hsum⟩
    obtain ⟨p', q', hpq', hk'⟩ := raidzParityPq_spec h hq hi p q
    refine ⟨p', q', hpq', fun _ k hk => ?_⟩
    rw [(hk' k hk).1, (hk' k hk).2, sum, horner]
    split
    next h0 => rw [h0]; exact ⟨rfl, by rw [horner]; rfl⟩
    next h0 => rw [(hsum h0 k hk).1, (hsum h0 k hk).2]; exact ⟨rfl, rfl⟩

end Generate

/-! ## Reconstructing one column -/

section One

variable {rm : RaidzMap} (h : rm.Fits) {j : ℕ} (hj : j < rm.dataCount)

include h hj

/-- The words of column `first + i` that reach into column `first + j`. -/
theorem RaidzMap.Fits.lt_min_count_iff (hi : i < rm.dataCount)
    (hk : k < rm.size (rm.rmFirstdatacol + j)) :
    k / 8 < min (rm.count (rm.rmFirstdatacol + i)) (rm.count (rm.rmFirstdatacol + j)) ↔
      k < rm.size (rm.rmFirstdatacol + i) := by
  have hx := (h.lt_count_iff (lt_cols_of_lt_dataCount hj) k).mpr hk
  rw [lt_min_iff, h.lt_count_iff (lt_cols_of_lt_dataCount hi)]
  exact and_iff_left hx

/-- `vdev_raidz_reconstruct_p` sets a data column to what the first parity column has beyond the
other data columns. -/
theorem vdevRaidzReconstructP_spec :
    ∃ d, vdevRaidzReconstructP rm (rm.rmFirstdatacol + j) = rm.setData (rm.rmFirstdatacol + j) d ∧
      ∀ k < rm.size (rm.rmFirstdatacol + j),
        d k = rm.data vdevRaidzP k ^^^ sum (erase (rm.byteAt k) j) rm.dataCount := by
  have hloop := foldl_range'_induction (raidzReconstructP (rm.rmFirstdatacol + j))
    (fun i rm' => ∃ d, rm' = rm.setData (rm.rmFirstdatacol + j) d ∧
      ∀ k < rm.size (rm.rmFirstdatacol + j),
        d k = rm.data vdevRaidzP k ^^^ sum (erase (rm.byteAt k) j) i)
    rm.rmFirstdatacol rm.dataCount (a := rm.setData (rm.rmFirstdatacol + j)
      (wordLoop (fun i _ => load64 (rm.data vdevRaidzP) i) 0 (rm.count (rm.rmFirstdatacol + j))
        (rm.data (rm.rmFirstdatacol + j)))) ?_ ?_
  · exact hloop
  · refine ⟨_, rfl, fun k hk => ?_⟩
    rw [wordLoop_zero_apply,
      if_pos ((h.lt_count_iff (lt_cols_of_lt_dataCount hj) k).mpr hk), byteOf_load64_div,
      sum, xor_zero]
  · rintro i hi _ ⟨d, rfl, hd⟩
    rw [raidzReconstructP]
    split
    next hij =>
      obtain rfl : i = j := by omega
      refine ⟨d, rfl, fun k hk => ?_⟩
      rw [hd k hk, sum, erase_self, xor_zero]
    next hij =>
      simp only [count_setData, data_setData_self,
        data_setData_of_ne rm hij, setData_setData]
      refine ⟨_, rfl, fun k hk => ?_⟩
      rw [wordLoop_zero_apply, byteOf_xor, byteOf_load64_div, byteOf_load64_div, hd k hk, sum,
        erase_of_ne _ (by omega), byteAt, ← xor_assoc]
      simp only [h.lt_min_count_iff hj hi hk]
      split
      · rfl
      · rw [xor_zero]

/-- One round of `vdev_raidz_reconstruct_q`. -/
theorem raidzReconstructQ_spec (hi : i < rm.dataCount) (d : ℕ → BitVec 8) :
    ∃ d', raidzReconstructQ (rm.rmFirstdatacol + j) (rm.setData (rm.rmFirstdatacol + j) d)
          (rm.rmFirstdatacol + i) = rm.setData (rm.rmFirstdatacol + j) d' ∧
      ∀ k < rm.size (rm.rmFirstdatacol + j),
        d' k = (if i = 0 then 0#8 else double (d k)) ^^^ erase (rm.byteAt k) j i := by
  set x := rm.rmFirstdatacol + j with hx
  set c := rm.rmFirstdatacol + i
  have hkX (k : ℕ) (hk : k < rm.size x) : k / 8 < rm.count x :=
    (h.lt_count_iff (lt_cols_of_lt_dataCount hj) k).mpr hk
  -- the byte that the round takes from column `c`
  have hbyte (k : ℕ) (hk : k < rm.size x) :
      (if k / 8 < min (if c = x then 0 else rm.count c) (rm.count x)
        then (rm.setData x d).data c k else 0#8) = erase (rm.byteAt k) j i := by
    rcases eq_or_ne c x with hcx | hcx
    · obtain rfl : i = j := by omega
      rw [if_pos hcx, Nat.zero_min, if_neg (Nat.not_lt_zero _), erase_self]
    · rw [if_neg hcx, erase_of_ne _ (by omega), byteAt, data_setData_of_ne rm hcx]
      exact if_congr (h.lt_min_count_iff hj hi hk) rfl rfl
  have hle : min (if c = x then 0 else rm.count c) (rm.count x) ≤ rm.count x := min_le_right _ _
  rw [raidzReconstructQ]
  simp only [rmFirstdatacol_setData, count_setData, data_setData_self,
    setData_setData]
  generalize min (if c = x then 0 else rm.count c) (rm.count x) = n at hbyte hle ⊢
  split
  next h0 =>
    refine ⟨_, rfl, fun k hk => ?_⟩
    rw [if_pos (by omega), wordLoop_two_apply _ _ hle, if_pos (hkX k hk), apply_ite (byteOf · _),
      byteOf_load64_div, byteOf_zero, hbyte k hk, BitVec.zero_xor]
  next h0 =>
    refine ⟨_, rfl, fun k hk => ?_⟩
    rw [if_neg (by omega), wordLoop_two_apply _ _ hle, if_pos (hkX k hk), apply_ite (byteOf · _),
      byteOf_xor, byteOf_raidzMul2Word _ (Nat.mod_lt _ (by omega)), byteOf_load64_div,
      byteOf_load64_div, ← hbyte k hk]
    split
    · rfl
    · rw [xor_zero]

/-- `vdev_raidz_reconstruct_q` sets a data column to what the second parity column has beyond the
other data columns, divided by the column's factor. -/
theorem vdevRaidzReconstructQ_spec (hq : vdevRaidzQ < rm.rmFirstdatacol) :
    ∃ d, vdevRaidzReconstructQ rm (rm.rmFirstdatacol + j) = rm.setData (rm.rmFirstdatacol + j) d ∧
      ∀ k < rm.size (rm.rmFirstdatacol + j),
        d k = scale (255 - (rm.dataCount - 1 - j))
          (horner (erase (rm.byteAt k) j) rm.dataCount ^^^ rm.data vdevRaidzQ k) := by
  have hloop := foldl_range'_induction (raidzReconstructQ (rm.rmFirstdatacol + j))
    (fun i rm' => ∃ d, rm' = rm.setData (rm.rmFirstdatacol + j) d ∧
      (i ≠ 0 → ∀ k < rm.size (rm.rmFirstdatacol + j), d k = horner (erase (rm.byteAt k) j) i))
    rm.rmFirstdatacol rm.dataCount (a := rm) ⟨_, (rm.setData_data _).symm,
      fun h0 => (h0 rfl).elim⟩ ?_
  · obtain ⟨d, hfold, hd⟩ := hloop
    have hexp : rm.rmCols - 1 - (rm.rmFirstdatacol + j) = rm.dataCount - 1 - j := by
      rw [dataCount]
      omega
    have hfold' : rm.dataCols.foldl (raidzReconstructQ (rm.rmFirstdatacol + j)) rm
        = rm.setData (rm.rmFirstdatacol + j) d := hfold
    simp only [vdevRaidzReconstructQ, hfold', rmCols_setData, count_setData,
      data_setData_self, setData_setData, hexp,
      data_setData_of_ne rm (by omega : vdevRaidzQ ≠ rm.rmFirstdatacol + j)]
    refine ⟨_, rfl, fun k hk => ?_⟩
    rw [wordLoop_zero_apply,
      if_pos ((h.lt_count_iff (lt_cols_of_lt_dataCount hj) k).mpr hk),
      byteOf_mapBytes _ _ (Nat.mod_lt _ (by omega)), vdevRaidzExp2_eq _ (by omega), byteOf_xor,
      byteOf_load64_div, byteOf_load64_div, hd (by omega) k hk]
  · rintro i hi _ ⟨d, rfl, hd⟩
    obtain ⟨d', hd', hk'⟩ := raidzReconstructQ_spec h hj hi d
    refine ⟨d', hd', fun _ k hk => ?_⟩
    rw [hk' k hk, horner]
    split
    next h0 => rw [h0, horner]; rfl
    next h0 => rw [hd h0 k hk]

end One

/-! ## Reconstructing two columns -/

section Two

variable {rm : RaidzMap}

/-- The exponents of `vdev_raidz_reconstruct_pq` divide by the factor whose logarithm `tmp` makes up
for. -/
theorem scale_log2_exp2 {e tmp : ℕ} (he : e ≤ 255) (htmp : tmp ≤ 255) (v : BitVec 8) :
    vdevRaidzExp2 v (vdevRaidzLog2 (vdevRaidzExp2 (vdevRaidzPow2 e) tmp))
      = scale tmp (scale e v) := by
  have hne : scale tmp (scale e 1#8) ≠ 0#8 := by
    rw [scale_scale]
    exact scale_one_ne_zero _
  rw [vdevRaidzExp2_eq v (vdevRaidzLog2_lt _).le, vdevRaidzExp2_eq _ htmp, vdevRaidzPow2_eq he,
    scale_scale tmp e v]
  exact scale_congr (by rw [scale_vdevRaidzLog2 hne, scale_scale]) v

variable (h : rm.Fits) (hq : vdevRaidzQ < rm.rmFirstdatacol) {j j' : ℕ} (hjj : j < j')
  (hj' : j' < rm.dataCount)

include h hq hjj hj'

/-- Parity as though columns `x` and `y` were full of zeros. -/
theorem raidzParityWithout_spec (fresh : ℕ → ℕ → BitVec 8) (hk : k < rm.size vdevRaidzP) :
    let pxy := raidzParityWithout rm fresh (rm.rmFirstdatacol + j) (rm.rmFirstdatacol + j')
    pxy.data vdevRaidzP k = sum (erase (erase (rm.byteAt k) j) j') rm.dataCount ∧
      pxy.data vdevRaidzQ k = horner (erase (erase (rm.byteAt k) j) j') rm.dataCount := by
  set rm' :=
    ((((rm.setData vdevRaidzP (fresh vdevRaidzP)).setData vdevRaidzQ (fresh vdevRaidzQ)).setSize
    (rm.rmFirstdatacol + j) 0).setSize (rm.rmFirstdatacol + j') 0) with hrm'
  have hsize (c : ℕ) : rm'.size c = if c = rm.rmFirstdatacol + j' then 0
      else if c = rm.rmFirstdatacol + j then 0 else rm.size c := by
    rw [hrm', size_setSize, size_setSize, size_setData,
      size_setData]
  have hparity (c : ℕ) (hc : c < rm.rmFirstdatacol) : rm'.size c = rm.size c := by
    rw [hsize, if_neg (by omega), if_neg (by omega)]
  have hP : rm'.size vdevRaidzP = rm.size vdevRaidzP := hparity _ h.parity
  have hfits : rm'.Fits := by
    refine ⟨h.parity, h.cols, fun c hc => ?_, fun c hc => ?_, fun i hi => ?_⟩
    · rw [hsize]
      split <;> [exact dvd_zero 8; split <;> [exact dvd_zero 8; exact h.words c hc]]
    · rw [hP, hparity c hc, h.paritySize c hc]
    · rw [hP, hsize]
      split <;> [exact Nat.zero_le _; split <;> [exact Nat.zero_le _; exact h.dataSize i hi]]
  have hbyte : rm'.byteAt k = erase (erase (rm.byteAt k) j) j' := by
    funext i
    have hfirst : rm'.rmFirstdatacol = rm.rmFirstdatacol := rfl
    rw [byteAt, hfirst]
    rcases eq_or_ne i j' with rfl | hij'
    · rw [hsize, if_pos rfl, if_neg (Nat.not_lt_zero k), erase_self]
    have hne' : rm.rmFirstdatacol + i ≠ rm.rmFirstdatacol + j' := by omega
    rw [erase_of_ne _ hij', hsize, if_neg hne']
    rcases eq_or_ne i j with rfl | hij
    · rw [if_pos rfl, if_neg (Nat.not_lt_zero k), erase_self]
    · have hne : rm.rmFirstdatacol + i ≠ rm.rmFirstdatacol + j := by omega
      rw [if_neg hne, erase_of_ne _ hij, byteAt, hrm', data_setSize,
        data_setSize, data_setData_of_ne _ (by omega),
        data_setData_of_ne _ (by have := h.parity; omega)]
  obtain ⟨p, q, hpq, hval⟩ := vdevRaidzGenerateParityPq_spec hfits hq
  have hk' := hval k (hP.symm ▸ hk)
  rw [hbyte] at hk'
  have hfold : raidzParityWithout rm fresh (rm.rmFirstdatacol + j) (rm.rmFirstdatacol + j')
      = (rm'.setData vdevRaidzQ q).setData vdevRaidzP p := hpq
  dsimp only
  rw [hfold, data_setData_self,
    data_setData_of_ne _ (by decide : vdevRaidzQ ≠ vdevRaidzP), data_setData_self]
  exact hk'

/-- `vdev_raidz_reconstruct_pq` sets two data columns from what the parity columns have beyond the
others: the first for all its bytes, the second for those that the first reaches. -/
theorem vdevRaidzReconstructPq_spec (fresh : ℕ → ℕ → BitVec 8) :
    let l := vdevRaidzLog2 (scale (255 + j - j') 1#8 ^^^ 1#8)
    let p := fun k => rm.data vdevRaidzP k
      ^^^ sum (erase (erase (rm.byteAt k) j) j') rm.dataCount
    let q := fun k => rm.data vdevRaidzQ k
      ^^^ horner (erase (erase (rm.byteAt k) j) j') rm.dataCount
    let xd := fun k => scale (255 - l) (scale (255 + j - j') (p k))
      ^^^ scale (255 - l) (scale (255 - (rm.dataCount - 1 - j)) (q k))
    ∃ dx dy, vdevRaidzReconstructPq rm fresh (rm.rmFirstdatacol + j) (rm.rmFirstdatacol + j')
        = (rm.setData (rm.rmFirstdatacol + j) dx).setData (rm.rmFirstdatacol + j') dy ∧
      (∀ k < rm.size (rm.rmFirstdatacol + j), dx k = xd k) ∧
      ∀ k < min (rm.size (rm.rmFirstdatacol + j)) (rm.size (rm.rmFirstdatacol + j')),
        dy k = p k ^^^ xd k := by
  have hsub : 255 + (rm.rmFirstdatacol + j) - (rm.rmFirstdatacol + j') = 255 + j - j' := by omega
  have hexp : rm.rmCols - 1 - (rm.rmFirstdatacol + j) = rm.dataCount - 1 - j := by
    rw [dataCount]
    omega
  have hP (k : ℕ) (hk : k < rm.size (rm.rmFirstdatacol + j)) : k < rm.size vdevRaidzP :=
    hk.trans_le (h.dataSize j (hjj.trans hj'))
  intro l p q xd
  have hl : vdevRaidzLog2 (vdevRaidzPow2 (255 + j - j') ^^^ 1#8) = l := by
    rw [vdevRaidzPow2_eq (by omega : 255 + j - j' ≤ 255)]
  rw [vdevRaidzReconstructPq]
  dsimp only
  rw [hsub, hexp, hl]
  have hpq (k : ℕ) (hk : k < rm.size (rm.rmFirstdatacol + j)) :=
    raidzParityWithout_spec h hq hjj hj' fresh (hP k hk)
  -- the two terms of the first column
  have hxd (k : ℕ) (hk : k < rm.size (rm.rmFirstdatacol + j)) :
      vdevRaidzExp2 (rm.data vdevRaidzP k ^^^ (raidzParityWithout rm fresh (rm.rmFirstdatacol + j)
            (rm.rmFirstdatacol + j')).data vdevRaidzP k)
          (vdevRaidzLog2 (vdevRaidzExp2 (vdevRaidzPow2 (255 + j - j')) (255 - l))) ^^^
        vdevRaidzExp2 (rm.data vdevRaidzQ k ^^^ (raidzParityWithout rm fresh (rm.rmFirstdatacol + j)
            (rm.rmFirstdatacol + j')).data vdevRaidzQ k)
          (vdevRaidzLog2 (vdevRaidzExp2 (vdevRaidzPow2 (255 - (rm.dataCount - 1 - j))) (255 - l)))
        = xd k := by
    rw [(hpq k hk).1, (hpq k hk).2, scale_log2_exp2 (by omega) (by omega),
      scale_log2_exp2 (by omega) (by omega)]
  refine ⟨_, _, rfl, fun k hk => ?_, fun k hk => ?_⟩
  · rw [byteLoop_apply, if_pos hk]
    exact hxd k hk
  · have hkx := hk.trans_le (min_le_left _ _)
    rw [byteLoop_apply, if_pos hk, hxd k hkx, (hpq k hkx).1]

end Two

/-! ## Lost columns come back -/

/-- The first parity column holds the sum of the data columns. -/
def RaidzMap.HasP (rm : RaidzMap) : Prop :=
  ∀ k < rm.size vdevRaidzP, rm.data vdevRaidzP k = sum (rm.byteAt k) rm.dataCount

/-- The second parity column holds the polynomial of the data columns. -/
def RaidzMap.HasQ (rm : RaidzMap) : Prop :=
  ∀ k < rm.size vdevRaidzP, rm.data vdevRaidzQ k = horner (rm.byteAt k) rm.dataCount

namespace RaidzMap

/-- Two maps with columns of the same lengths. -/
structure SameShape (rm rm' : RaidzMap) : Prop where
  cols : rm'.rmCols = rm.rmCols
  first : rm'.rmFirstdatacol = rm.rmFirstdatacol
  size : ∀ c, rm'.size c = rm.size c

/-- Column `c` holds the same bytes in both maps. -/
def Agree (rm rm' : RaidzMap) (c : ℕ) : Prop := ∀ k < rm.size c, rm'.data c k = rm.data c k

variable {rm rm' : RaidzMap}

theorem SameShape.refl (rm : RaidzMap) : rm.SameShape rm := ⟨rfl, rfl, fun _ => rfl⟩

theorem SameShape.setData (h : rm.SameShape rm') (c : ℕ) (d : ℕ → BitVec 8) :
    rm.SameShape (rm'.setData c d) :=
  ⟨h.cols, h.first, fun i => by rw [size_setData, h.size]⟩

theorem SameShape.dataCount (h : rm.SameShape rm') : rm'.dataCount = rm.dataCount := by
  rw [RaidzMap.dataCount, RaidzMap.dataCount, h.cols, h.first]

theorem SameShape.fits (h : rm.SameShape rm') (hf : rm.Fits) : rm'.Fits := by
  constructor
  · rw [h.first]
    exact hf.parity
  · rw [h.first, h.cols]
    exact hf.cols
  · simpa only [h.cols, h.size] using hf.words
  · simpa only [h.first, h.size] using hf.paritySize
  · simpa only [h.first, h.size, h.dataCount] using hf.dataSize

theorem Agree.byteAt (h : rm.SameShape rm') (ha : rm.Agree rm' (rm.rmFirstdatacol + i)) (k : ℕ) :
    rm'.byteAt k i = rm.byteAt k i := by
  rw [RaidzMap.byteAt, RaidzMap.byteAt, h.first, h.size]
  split
  next hk => exact ha k hk
  next => rfl

theorem byteAt_of_lt {j : ℕ} (hk : k < rm.size (rm.rmFirstdatacol + j)) :
    rm.byteAt k j = rm.data (rm.rmFirstdatacol + j) k :=
  if_pos hk

end RaidzMap

section Restore

variable {rm rm' : RaidzMap} (h : rm.Fits) (hs : rm.SameShape rm') {j : ℕ} (hj : j < rm.dataCount)

include h hs hj

/-- A data column comes back from the first parity column when that and the other data columns are
right. -/
theorem vdevRaidzReconstructP_agree (hP : rm.HasP) (haP : rm.Agree rm' vdevRaidzP)
    (ha : ∀ i < rm.dataCount, i ≠ j → rm.Agree rm' (rm.rmFirstdatacol + i)) :
    rm.Agree (vdevRaidzReconstructP rm' (rm.rmFirstdatacol + j)) (rm.rmFirstdatacol + j) := by
  intro k hk
  obtain ⟨d, hd, hval⟩ := vdevRaidzReconstructP_spec (hs.fits h) (hs.dataCount.symm ▸ hj)
  rw [hs.first] at hd hval
  have hkP := hk.trans_le (h.dataSize j hj)
  have hsum : sum (erase (rm'.byteAt k) j) rm.dataCount
    = sum (erase (rm.byteAt k) j) rm.dataCount :=
    sum_congr fun i hi => erase_congr fun hij => (ha i hi hij).byteAt hs k
  rw [hd, data_setData_self, hval k (by rwa [hs.size]), hs.dataCount, haP k hkP, hP k hkP,
    hsum, sum_solve hj, byteAt_of_lt hk]

/-- A data column comes back from the second parity column when that and the other data columns are
right. -/
theorem vdevRaidzReconstructQ_agree (hQ : rm.HasQ) (hq : vdevRaidzQ < rm.rmFirstdatacol)
    (hn : rm.dataCount - 1 - j ≤ 255) (haQ : rm.Agree rm' vdevRaidzQ)
    (ha : ∀ i < rm.dataCount, i ≠ j → rm.Agree rm' (rm.rmFirstdatacol + i)) :
    rm.Agree (vdevRaidzReconstructQ rm' (rm.rmFirstdatacol + j)) (rm.rmFirstdatacol + j) := by
  intro k hk
  obtain ⟨d, hd, hval⟩ := vdevRaidzReconstructQ_spec (hs.fits h) (hs.dataCount.symm ▸ hj)
    (hs.first.symm ▸ hq)
  rw [hs.first] at hd hval
  have hkP := hk.trans_le (h.dataSize j hj)
  have hhorner : horner (erase (rm'.byteAt k) j) rm.dataCount
      = horner (erase (rm.byteAt k) j) rm.dataCount :=
    horner_congr fun i hi => erase_congr fun hij => (ha i hi hij).byteAt hs k
  rw [hd, data_setData_self, hval k (by rwa [hs.size]), hs.dataCount,
    haQ k (by rwa [h.paritySize _ hq]), hQ k hkP, hhorner, horner_solve hj hn,
    byteAt_of_lt hk]

end Restore

section RestoreTwo

variable {rm rm' : RaidzMap} (h : rm.Fits) (hs : rm.SameShape rm')
  (hq : vdevRaidzQ < rm.rmFirstdatacol) {j j' : ℕ} (hjj : j < j') (hj' : j' < rm.dataCount)
  (haP : rm.Agree rm' vdevRaidzP) (haQ : rm.Agree rm' vdevRaidzQ)
  (ha : ∀ i < rm.dataCount, i ≠ j → i ≠ j' → rm.Agree rm' (rm.rmFirstdatacol + i))

include h hs hq hjj hj' haP haQ ha

/-- Two data columns come back from both parity columns when those and the other data columns are
right and the first of the two is at least as long as the second. -/
theorem vdevRaidzReconstructPq_agree (hP : rm.HasP) (hQ : rm.HasQ) (hn : rm.dataCount ≤ 255)
    (hsize : rm.size (rm.rmFirstdatacol + j') ≤ rm.size (rm.rmFirstdatacol + j))
    (fresh : ℕ → ℕ → BitVec 8) :
    let rm'' := vdevRaidzReconstructPq rm' fresh (rm.rmFirstdatacol + j) (rm.rmFirstdatacol + j')
    rm.Agree rm'' (rm.rmFirstdatacol + j) ∧ rm.Agree rm'' (rm.rmFirstdatacol + j') := by
  have hne : rm.rmFirstdatacol + j ≠ rm.rmFirstdatacol + j' := by omega
  obtain ⟨dx, dy, hd, hdx, hdy⟩ := vdevRaidzReconstructPq_spec (hs.fits h) (hs.first.symm ▸ hq) hjj
    (hs.dataCount.symm ▸ hj') fresh
  simp only [hs.first, hs.size, hs.dataCount] at hd hdx hdy
  have hbyte (k i : ℕ) (hi : i < rm.dataCount) :
      erase (erase (rm'.byteAt k) j) j' i = erase (erase (rm.byteAt k) j) j' i :=
    erase_congr fun hij' => erase_congr fun hij => (ha i hi hij hij').byteAt hs k
  -- the parity columns are those of the right columns
  have hp {k : ℕ} (hk : k < rm.size (rm.rmFirstdatacol + j)) :
      rm'.data vdevRaidzP k = sum (rm.byteAt k) rm.dataCount := by
    have hkP := hk.trans_le (h.dataSize j (hjj.trans hj'))
    rw [haP k hkP, hP k hkP]
  have hq {k : ℕ} (hk : k < rm.size (rm.rmFirstdatacol + j)) :
      rm'.data vdevRaidzQ k = horner (rm.byteAt k) rm.dataCount := by
    have hkP := hk.trans_le (h.dataSize j (hjj.trans hj'))
    rw [haQ k (by rwa [h.paritySize _ hq]), hQ k hkP]
  -- the logarithm exists because the columns are less than a period apart
  have hl : scale (vdevRaidzLog2 (scale (255 + j - j') 1#8 ^^^ 1#8)) 1#8
      = scale (255 + j - j') 1#8 ^^^ 1#8 := by
    refine scale_vdevRaidzLog2 fun h0 => ?_
    exact scale_one_ne (by omega : 0 < 255 + j - j') (by omega) (BitVec.xor_eq_zero_iff.mp h0)
  have hlog := vdevRaidzLog2_lt (scale (255 + j - j') 1#8 ^^^ 1#8)
  have hsolve (k : ℕ) := two_solve (d := rm.byteAt k) hjj hj' hn hl (Nat.sub_add_cancel hlog.le)
  dsimp only
  rw [hd]
  constructor
  · intro k hk
    rw [data_setData_of_ne _ hne, data_setData_self, hdx k hk, sum_congr (hbyte k),
      horner_congr (hbyte k), hp hk, hq hk, hsolve k, byteAt_of_lt hk]
  · intro k hk
    have hkx := hk.trans_le hsize
    rw [data_setData_self, hdy k (lt_min hkx hk), sum_congr (hbyte k),
      horner_congr (hbyte k), hp hkx,
      hq hkx, hsolve k, sum_two_solve hjj hj', xor_cancel_right, byteAt_of_lt hk]

end RestoreTwo

/-! ## Overwritten columns -/

/-- The columns in `lost` have the bytes they have in `rm`, the others are those of `rm`. -/
structure RaidzMap.Restored (rm rm' : RaidzMap) (lost : Set ℕ) : Prop where
  shape : rm.SameShape rm'
  back : ∀ c ∈ lost, rm.Agree rm' c
  kept : ∀ c ∉ lost, rm'.rmCol c = rm.rmCol c

theorem RaidzMap.agree_setData_of_ne {rm : RaidzMap} (h : c ≠ x) (d : ℕ → BitVec 8) :
    rm.Agree (rm.setData x d) c := by
  intro k _
  rw [data_setData_of_ne _ h]

/-- A column that is written over and then back. -/
theorem restored_of_setData {rm rm' : RaidzMap} {junk d : ℕ → BitVec 8}
    (hd : rm' = (rm.setData x junk).setData x d) (hback : rm.Agree rm' x) :
      rm.Restored rm' {x} := by
  refine ⟨hd ▸ ((SameShape.refl rm).setData x junk).setData x d, fun c hc => hc ▸ hback,
    fun c hc => ?_⟩
  rw [hd, rmCol_setData_of_ne _ hc, rmCol_setData_of_ne _ hc]

section Overwrite

variable {rm : RaidzMap} (h : rm.Fits)

include h

theorem vdevRaidzReconstructP_restores (hP : rm.HasP) (hx : rm.rmFirstdatacol ≤ x)
    (hxc : x < rm.rmCols)
    (junk : ℕ → BitVec 8) : rm.Restored (vdevRaidzReconstructP (rm.setData x junk) x) {x} := by
  obtain ⟨j, rfl⟩ := Nat.exists_eq_add_of_le hx
  have hj : j < rm.dataCount := by rw [dataCount]; omega
  have hs := (SameShape.refl rm).setData (rm.rmFirstdatacol + j) junk
  have hpar := h.parity
  have hback := vdevRaidzReconstructP_agree h hs hj hP
    (agree_setData_of_ne (by omega) junk)
    (fun i _ hij => agree_setData_of_ne (by omega) junk)
  obtain ⟨d, hd, -⟩ := vdevRaidzReconstructP_spec (hs.fits h) hj
  rw [rmFirstdatacol_setData] at hd
  exact restored_of_setData hd hback

theorem vdevRaidzReconstructQ_restores (hQ : rm.HasQ) (hq : vdevRaidzQ < rm.rmFirstdatacol)
    (hn : rm.dataCount ≤ 255) (hx : rm.rmFirstdatacol ≤ x) (hxc : x < rm.rmCols)
    (junk : ℕ → BitVec 8) :
    rm.Restored (vdevRaidzReconstructQ (rm.setData x junk) x) {x} := by
  obtain ⟨j, rfl⟩ := Nat.exists_eq_add_of_le hx
  have hj : j < rm.dataCount := by rw [dataCount]; omega
  have hs := (SameShape.refl rm).setData (rm.rmFirstdatacol + j) junk
  have hback := vdevRaidzReconstructQ_agree h hs hj hQ hq (by omega)
    (agree_setData_of_ne (by omega) junk)
    (fun i _ hij => agree_setData_of_ne (by omega) junk)
  obtain ⟨d, hd, -⟩ := vdevRaidzReconstructQ_spec (hs.fits h) hj hq
  rw [rmFirstdatacol_setData] at hd
  exact restored_of_setData hd hback

theorem vdevRaidzReconstructPq_restores (hP : rm.HasP) (hQ : rm.HasQ)
    (hq : vdevRaidzQ < rm.rmFirstdatacol) (hn : rm.dataCount ≤ 255) {y : ℕ}
    (hx : rm.rmFirstdatacol ≤ x)
    (hxy : x < y) (hyc : y < rm.rmCols) (hsize : rm.size y ≤ rm.size x) (junk junk' : ℕ → BitVec 8)
    (fresh : ℕ → ℕ → BitVec 8) :
    rm.Restored (vdevRaidzReconstructPq ((rm.setData x junk).setData y junk') fresh x y)
      {x, y} := by
  obtain ⟨j, rfl⟩ := Nat.exists_eq_add_of_le hx
  obtain ⟨j', rfl⟩ := Nat.exists_eq_add_of_le (hx.trans hxy.le)
  have hjj : j < j' := by omega
  have hj' : j' < rm.dataCount := by rw [dataCount]; omega
  have hs := ((SameShape.refl rm).setData (rm.rmFirstdatacol + j) junk).setData
    (rm.rmFirstdatacol + j') junk'
  have hagree {c : ℕ} (hcx : c ≠ rm.rmFirstdatacol + j) (hcy : c ≠ rm.rmFirstdatacol + j') :
      rm.Agree ((rm.setData (rm.rmFirstdatacol + j) junk).setData (rm.rmFirstdatacol + j') junk')
        c := by
    intro k _
    rw [data_setData_of_ne _ hcy, data_setData_of_ne _ hcx]
  have hpar : vdevRaidzP < rm.rmFirstdatacol := h.parity
  obtain ⟨hbackx, hbacky⟩ := vdevRaidzReconstructPq_agree h hs hq hjj hj'
    (hagree (by omega) (by omega)) (hagree (by omega) (by omega))
    (fun i _ hij hij' => hagree (by omega) (by omega)) hP hQ hn hsize fresh
  obtain ⟨dx, dy, hd, -, -⟩ := vdevRaidzReconstructPq_spec (hs.fits h) hq hjj hj' fresh
  simp only [rmFirstdatacol_setData] at hd
  refine ⟨hd ▸ (hs.setData _ dx).setData _ dy, ?_, fun c hc => ?_⟩
  · rintro c (rfl | rfl)
    · exact hbackx
    · exact hbacky
  · simp only [Set.mem_insert_iff, Set.mem_singleton_iff, not_or] at hc
    rw [hd, rmCol_setData_of_ne _ hc.2, rmCol_setData_of_ne _ hc.1,
      rmCol_setData_of_ne _ hc.2, rmCol_setData_of_ne _ hc.1]

end Overwrite

section Generated

variable {rm : RaidzMap} (h : rm.Fits)

include h

/-- Parity generation leaves a stripe whose first parity column is right. -/
theorem vdevRaidzGenerateParityP_hasP (hfirst : rm.size rm.rmFirstdatacol = rm.size vdevRaidzP) :
    ∃ p, vdevRaidzGenerateParityP rm = rm.setData vdevRaidzP p ∧
      (rm.setData vdevRaidzP p).HasP := by
  obtain ⟨p, hp, hval⟩ := vdevRaidzGenerateParityP_spec h hfirst
  refine ⟨p, hp, fun k hk => ?_⟩
  rw [size_setData] at hk
  rw [data_setData_self, byteAt_setData_parity _ h.parity, hval k hk]
  rfl

/-- Parity generation leaves a stripe whose parity columns are right. -/
theorem vdevRaidzGenerateParityPq_hasPq (hq : vdevRaidzQ < rm.rmFirstdatacol) :
    ∃ p q, vdevRaidzGenerateParityPq rm = (rm.setData vdevRaidzQ q).setData vdevRaidzP p ∧
      ((rm.setData vdevRaidzQ q).setData vdevRaidzP p).HasP ∧
      ((rm.setData vdevRaidzQ q).setData vdevRaidzP p).HasQ := by
  obtain ⟨p, q, hpq, hval⟩ := vdevRaidzGenerateParityPq_spec h hq
  have hbyte : ((rm.setData vdevRaidzQ q).setData vdevRaidzP p).byteAt = rm.byteAt := by
    rw [byteAt_setData_parity (rm.setData vdevRaidzQ q) h.parity,
      byteAt_setData_parity _ hq]
  refine ⟨p, q, hpq, fun k hk => ?_, fun k hk => ?_⟩
  · rw [size_setData, size_setData] at hk
    rw [data_setData_self, hbyte, (hval k hk).1]
    rfl
  · rw [size_setData, size_setData] at hk
    rw [data_setData_of_ne _ (by decide), data_setData_self, hbyte, (hval k hk).2]
    rfl

/-- **Reconstruction brings overwritten columns back.**  One column comes back from either parity
column, two from both if the first of them is at least as long as the second, whatever they were
overwritten with. -/
theorem vdevRaidzReconstruct_restores (hfirst : rm.size rm.rmFirstdatacol = rm.size vdevRaidzP)
    (hn : rm.dataCount ≤ 255) :
    (∀ x junk, rm.rmFirstdatacol ≤ x → x < rm.rmCols →
      let rm' := vdevRaidzGenerateParityP rm
      rm'.Restored (vdevRaidzReconstructP (rm'.setData x junk) x) {x}) ∧
    (vdevRaidzQ < rm.rmFirstdatacol →
      let rm' := vdevRaidzGenerateParityPq rm
      (∀ x junk, rm.rmFirstdatacol ≤ x → x < rm.rmCols →
        rm'.Restored (vdevRaidzReconstructP (rm'.setData x junk) x) {x} ∧
        rm'.Restored (vdevRaidzReconstructQ (rm'.setData x junk) x) {x}) ∧
      ∀ x y junk junk' fresh, rm.rmFirstdatacol ≤ x → x < y → y < rm.rmCols →
        rm.size y ≤ rm.size x →
        rm'.Restored (vdevRaidzReconstructPq ((rm'.setData x junk).setData y junk') fresh x y)
          {x, y}) := by
  constructor
  · intro x junk hx hxc
    obtain ⟨p, hp, hP⟩ := vdevRaidzGenerateParityP_hasP h hfirst
    rw [hp]
    exact vdevRaidzReconstructP_restores
      (((SameShape.refl rm).setData vdevRaidzP p).fits h) hP hx hxc junk
  · intro hq
    obtain ⟨p, q, hpq, hP, hQ⟩ := vdevRaidzGenerateParityPq_hasPq h hq
    have hf := (((SameShape.refl rm).setData vdevRaidzQ q).setData vdevRaidzP p).fits h
    rw [hpq]
    refine ⟨fun x junk hx hxc => ⟨vdevRaidzReconstructP_restores hf hP hx hxc junk,
      vdevRaidzReconstructQ_restores hf hQ hq hn hx hxc junk⟩, ?_⟩
    intro x y junk junk' fresh hx hxy hyc hsize
    refine vdevRaidzReconstructPq_restores hf hP hQ hq hn hx hxy hyc ?_ junk junk' fresh
    simpa only [size_setData] using hsize

end Generated

/-- Two parity columns and three data columns of two, one and two words; the last one holds ones. -/
def unevenMap : RaidzMap where
  rmCols := 5
  rmBigcols := 0
  rmAsize := 0
  rmMissingdata := 0
  rmMissingparity := 0
  rmFirstdatacol := 2
  rmCol c :=
    { rcDevidx := c
      rcOffset := 0
      rcSize := if c = 3 then 8 else 16
      rcBuf := .own
      rcData := fun _ => if c = 4 then 1#8 else 0#8
      rcError := none
      rcTried := true
      rcSkipped := false }

theorem fits_unevenMap : unevenMap.Fits where
  parity := by decide
  cols := by decide
  words := by decide
  paritySize := by decide
  dataSize := by decide

theorem vdevRaidzReconstruct_restores_unevenMap :
    let rm' := vdevRaidzGenerateParityPq unevenMap
    rm'.Restored (vdevRaidzReconstructPq ((rm'.setData 2 fun _ => 7#8).setData 3 fun _ => 9#8)
      (fun _ _ => 0#8) 2 3) {2, 3} :=
  ((vdevRaidzReconstruct_restores fits_unevenMap (by decide) (by decide)).2 (by decide)).2 2 3 _ _ _
    (by decide) (by decide) (by decide) (by decide)

/-- When the first of two lost columns is the shorter one, the end of the other one stays lost. -/
theorem vdevRaidzReconstructPq_unevenMap :
    unevenMap.Fits ∧ unevenMap.size 2 = unevenMap.size vdevRaidzP ∧ unevenMap.dataCount ≤ 255 ∧
      let rm' := vdevRaidzGenerateParityPq unevenMap
      ¬ rm'.Restored (vdevRaidzReconstructPq ((rm'.setData 3 fun _ => 0#8).setData 4 fun _ => 0#8)
        (fun _ _ => 0#8) 3 4) {3, 4} := by
  refine ⟨fits_unevenMap, by decide, by decide, fun hres => ?_⟩
  have hbyte := hres.back 4 (by simp) 8 (by decide)
  exact absurd hbyte (by decide)

end Polaris
