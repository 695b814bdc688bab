import Mathlib.Data.BitVec
import Polaris.Checksum.Basic
import Polaris.Lib.RunningSum

/-!
# What the Fletcher checksums detect

The accumulators are running sums in the ring of 64-bit words.  `fletcher_4` reads words of
half that width, so that the equation for three changed words has no room to wrap; `fletcher_2`
reads words of the full width, and two changes can cancel in the ring.

## Main results

* `fletcher4_detects` : three changed words are detected
* `fletcher2Native_eq_iff` : exactly when two changed words are not
-/

namespace Polaris

open Finset RunningSum

/-! ## The accumulators as running sums -/

/-- A loop over the first `n` numbers, one number more. -/
theorem foldl_range_succ {σ : Type} (f : σ → ℕ → σ) (s : σ) (n : ℕ) :
    (List.range (n + 1)).foldl f s = f ((List.range n).foldl f s) n := by
  rw [List.range_succ, List.foldl_append]
  rfl

/-- The first three words of `fletcher_4` from zero give the sum with weights that vanish at two
places. -/
theorem fletcher4_sum (swap : BitVec 32 → BitVec 32) (ip : ℕ → BitVec 32) (size : ℕ)
    (q r : BitVec 64) :
    let zc := fletcher4 swap ip size ⟨0, 0, 0, 0⟩
    let n : BitVec 64 := ((size / 4 : ℕ) : BitVec 64)
    ∑ i ∈ range (size / 4), ((i : BitVec 64) - q) * (i - r) * (swap (ip i)).setWidth 64 =
      (n - q) * (n - r) * zc.zcWord0 - (1 + (n - q) + (n - r)) * zc.zcWord1 + 2 * zc.zcWord2 := by
  let s (n : ℕ) : ZioCksum := (List.range n).foldl (fun s i => s.add (swap (ip i))) ⟨0, 0, 0, 0⟩
  have hs (n : ℕ) : s (n + 1) = (s n).add (swap (ip n)) := foldl_range_succ ..
  refine triple_sum (a := fun n => (s n).zcWord0) (b := fun n => (s n).zcWord1)
    (c := fun n => (s n).zcWord2) ⟨rfl, ?_⟩ ⟨rfl, ?_⟩ ⟨rfl, ?_⟩ _ q r
  all_goals
    intro n
    simp only [tail, hs]
    rfl

/-- One lane of `fletcher_2`. -/
def lane (x : ℕ → BitVec 64) (l : ℕ) : ℕ → BitVec 64 :=
  fun k => x (2 * k + l)

variable {x y : ℕ → BitVec 64} {size n l p i : ℕ}

/-- The two lanes of `fletcher_2` are summed apart. -/
theorem fletcher2Native_sums (x : ℕ → BitVec 64) (h : 16 ∣ size) :
    fletcher2Native x size =
      ⟨∑ k ∈ range (size / 16), lane x 0 k, ∑ k ∈ range (size / 16), lane x 1 k,
        ∑ k ∈ range (size / 16), (((size / 16 : ℕ) : BitVec 64) - k) * lane x 0 k,
        ∑ k ∈ range (size / 16), (((size / 16 : ℕ) : BitVec 64) - k) * lane x 1 k⟩ := by
  let s (n : ℕ) : Fletcher2 := (List.range n).foldl
    (fun s i => s.add (id (x (2 * i))) (id (x (2 * i + 1)))) ⟨0, 0, 0, 0⟩
  have hs (n : ℕ) : s (n + 1) = (s n).add (x (2 * n)) (x (2 * n + 1)) := foldl_range_succ ..
  have ha : Sums (lane x 0) fun n => (s n).a0 := ⟨rfl, fun n => by rw [hs]; rfl⟩
  have ha' : Sums (lane x 1) fun n => (s n).a1 := ⟨rfl, fun n => by rw [hs]; rfl⟩
  have hb : Sums (tail fun n => (s n).a0) fun n => (s n).b0 :=
    ⟨rfl, fun n => by simp only [tail, hs]; rfl⟩
  have hb' : Sums (tail fun n => (s n).a1) fun n => (s n).b1 :=
    ⟨rfl, fun n => by simp only [tail, hs]; rfl⟩
  rw [← ha.first, ← ha'.first, ← ha.second hb, ← ha'.second hb', fletcher2Native, fletcher2,
    show (size / 8 + 1) / 2 = size / 16 by omega]

/-- How a weighted sum of a lane differs. -/
def laneDiff (x y : ℕ → BitVec 64) (l n : ℕ) (w : ℕ → BitVec 64) : BitVec 64 :=
  ∑ k ∈ range n, w k * lane y l k - ∑ k ∈ range n, w k * lane x l k

/-- The checksums of `fletcher_2` agree when the sums of both lanes do. -/
theorem fletcher2Native_eq_iff_sums (h : 16 ∣ size) :
    fletcher2Native x size = fletcher2Native y size ↔ ∀ l, l < 2 →
      laneDiff x y l (size / 16) (fun _ => 1) = 0 ∧
        laneDiff x y l (size / 16) (fun k => ((size / 16 : ℕ) : BitVec 64) - k) = 0 := by
  rw [fletcher2Native_sums x h, fletcher2Native_sums y h, ZioCksum.mk.injEq]
  simp only [laneDiff, one_mul, sub_eq_zero]
  constructor
  · rintro ⟨h0, h1, h2, h3⟩ l hl
    obtain rfl | rfl : l = 0 ∨ l = 1 := by omega
    · exact ⟨h0.symm, h2.symm⟩
    · exact ⟨h1.symm, h3.symm⟩
  · intro hl
    obtain ⟨h0, h2⟩ := hl 0 (by decide)
    obtain ⟨h1, h3⟩ := hl 1 (by decide)
    exact ⟨h0.symm, h1.symm, h2.symm, h3.symm⟩

/-! ## `fletcher_2` -/

/-- A sum of a lane in which no word differs. -/
theorem lane_sum_eq (w : ℕ → BitVec 64) (h : ∀ k, k < n → lane x l k = lane y l k) :
    laneDiff x y l n w = 0 := by
  rw [laneDiff, sub_eq_zero]
  apply sum_congr rfl
  intro k hk
  rw [h k (mem_range.mp hk)]

/-- The differences at two words of one lane that leave both sums of the lane as they were. -/
def Cancel (d e : BitVec 64) (distance : ℕ) : Prop :=
  d + e = 0 ∧ (distance : BitVec 64) * d = 0

/-- A lane that differs in two words. -/
theorem lane_sums_eq_iff {q : ℕ} (hpq : p < q) (hq : q < n)
    (h : ∀ k, k < n → k ≠ p → k ≠ q → lane x l k = lane y l k) :
    (laneDiff x y l n (fun _ => 1) = 0 ∧ laneDiff x y l n (fun k => (n : BitVec 64) - k) = 0) ↔
      Cancel (lane y l p - lane x l p) (lane y l q - lane x l q) (q - p) := by
  have hdiff (w : ℕ → BitVec 64) : laneDiff x y l n w
    = _ := sum_sub_eq_pair (hpq.trans hq) hq hpq.ne w h
  rw [hdiff, hdiff, one_mul, one_mul, Cancel, Nat.cast_sub hpq.le]
  apply and_congr_right
  intro hsum
  rw [eq_neg_of_add_eq_zero_right hsum]
  constructor
  · intro h0
    rw [← h0]
    ring
  · intro h0
    rw [← h0]
    ring

/-- A lane that differs in one word has another sum. -/
theorem lane_sum_ne (hp : p < n) (h : ∀ k, k < n → k ≠ p → lane x l k = lane y l k)
    (hne : lane x l p ≠ lane y l p) :
    laneDiff x y l n (fun _ => 1) ≠ 0 := by
  rw [laneDiff, sum_sub_eq_single hp (fun _ => 1) fun k hk hkp => .inr (h k hk hkp), one_mul]
  exact sub_ne_zero.mpr hne.symm

/-- The words in which two buffers differ. -/
def changed {w : ℕ} (x y : ℕ → BitVec w) (n : ℕ) : Finset ℕ :=
  (range n).filter fun i => x i ≠ y i

theorem mem_changed {w : ℕ} {x y : ℕ → BitVec w} : i ∈ changed x y n ↔ i < n ∧ x i ≠ y i := by
  rw [changed, mem_filter, mem_range]

theorem lane_eq_of_notMem {k : ℕ} (hl : l < 2) (hk : k < size / 16)
    (h : 2 * k + l ∉ changed x y (size / 8)) : lane x l k = lane y l k := by
  by_contra hne
  exact h (mem_changed.mpr ⟨by omega, hne⟩)

theorem lane_half (x : ℕ → BitVec 64) (i : ℕ) : lane x (i % 2) (i / 2) = x i := by
  rw [lane, Nat.div_add_mod]

/-- A change that is alone in its lane is detected. -/
theorem fletcher2Native_ne_of_alone (hsize : 16 ∣ size) (hi : i ∈ changed x y (size / 8))
    (halone : ∀ j ∈ changed x y (size / 8), j ≠ i → j % 2 ≠ i % 2) :
    fletcher2Native x size ≠ fletcher2Native y size := by
  obtain ⟨hlt, hne⟩ := mem_changed.mp hi
  intro heq
  have hsum := ((fletcher2Native_eq_iff_sums hsize).mp heq (i % 2) (by omega)).1
  apply lane_sum_ne (by omega : i / 2 < size / 16) _ _ hsum
  · intro k hk hki
    apply lane_eq_of_notMem (by omega) hk
    intro hmem
    exact halone _ hmem (by omega) (by omega)
  · rw [lane_half, lane_half]
    exact hne

/-- A change of two words of one lane. -/
theorem fletcher2Native_eq_iff_cancel {j : ℕ} (hsize : 16 ∣ size) (hij : i < j)
    (hlane : i % 2 = j % 2) (hS : changed x y (size / 8) = {i, j}) :
    fletcher2Native x size = fletcher2Native y size ↔
      Cancel (y i - x i) (y j - x j) ((j - i) / 2) := by
  have hj : j < size / 8 := (mem_changed.mp (hS ▸ mem_insert_of_mem (mem_singleton_self j))).1
  have hsame (l k : ℕ) (hl : l < 2) (hk : k < size / 16) (hi' : 2 * k + l ≠ i)
    (hj' : 2 * k + l ≠ j) :
      lane x l k = lane y l k := by
    apply lane_eq_of_notMem hl hk
    rw [hS, mem_insert, mem_singleton]
    exact not_or.mpr ⟨hi', hj'⟩
  have hiff := lane_sums_eq_iff (x := x) (y := y) (l := i % 2) (by omega : i / 2 < j / 2)
    (by omega : j / 2 < size / 16) fun k hk hki hkj => hsame _ k (by omega) hk (by omega) (by omega)
  rw [lane_half, lane_half, hlane, lane_half, lane_half, ← hlane,
    show j / 2 - i / 2 = (j - i) / 2 by omega] at hiff
  rw [fletcher2Native_eq_iff_sums hsize, ← hiff]
  constructor
  · intro h
    exact h (i % 2) (by omega)
  · intro h l hl
    by_cases hli : l = i % 2
    · rw [hli]
      exact h
    · exact ⟨lane_sum_eq _ fun k hk => hsame l k hl hk (by omega) (by omega),
        lane_sum_eq _ fun k hk => hsame l k hl hk (by omega) (by omega)⟩

/-- **`fletcher_2_native` on a change of at most two words.**  The change goes undetected exactly
when the words are two of one lane, their differences cancel, and so does either of them times
the number of pairs of words from one to the other. -/
theorem fletcher2Native_eq_iff (x y : ℕ → BitVec 64) {size : ℕ} (hsize : 16 ∣ size)
    (hne : ∃ i, i < size / 8 ∧ x i ≠ y i) (htwo : (changed x y (size / 8)).card ≤ 2) :
    fletcher2Native x size = fletcher2Native y size ↔
      ∃ i j, i < j ∧ i % 2 = j % 2 ∧ changed x y (size / 8) = {i, j} ∧
        Cancel (y i - x i) (y j - x j) ((j - i) / 2) := by
  constructor
  · intro heq
    obtain ⟨i, hi⟩ := hne
    have hmem := mem_changed.mpr hi
    have hpos := card_pos.mpr ⟨i, hmem⟩
    obtain hone | htwo : (changed x y (size / 8)).card = 1 ∨ (changed x y (size / 8)).card = 2 := by
      omega
    · obtain ⟨p, hp⟩ := card_eq_one.mp hone
      refine absurd heq (fletcher2Native_ne_of_alone hsize hmem fun j hj hji => ?_)
      rw [hp, mem_singleton] at hj hmem
      exact absurd (hj.trans hmem.symm) hji
    obtain ⟨p, q, hpq, hS⟩ := card_eq_two.mp htwo
    by_cases hlane : p % 2 = q % 2
    · rcases Nat.lt_or_gt_of_ne hpq with hlt | hlt
      · exact ⟨p, q, hlt, hlane, hS, (fletcher2Native_eq_iff_cancel hsize hlt hlane hS).mp heq⟩
      · rw [pair_comm] at hS
        exact ⟨q, p, hlt, hlane.symm, hS,
          (fletcher2Native_eq_iff_cancel hsize hlt hlane.symm hS).mp heq⟩
    · refine absurd heq (fletcher2Native_ne_of_alone hsize (i := p) ?_ fun j hj hjp => ?_)
      · rw [hS]
        exact mem_insert_self p {q}
      · rw [hS, mem_insert, mem_singleton] at hj
        rw [hj.resolve_left hjp]
        exact Ne.symm hlane
  · rintro ⟨i, j, hij, hlane, hS, hcancel⟩
    exact (fletcher2Native_eq_iff_cancel hsize hij hlane hS).mpr hcancel

/-- A buffer of zeros with the top bit of the given words set. -/
def topBits (l : List ℕ) : ℕ → BitVec 64 :=
  fun i => if i ∈ l then 1#64 <<< 63 else 0

/-- Two top bits, two pairs of words apart, are lost. -/
theorem fletcher2Native_topBits :
    16 ∣ 48 ∧ 48 ≤ spaMaxblocksize ∧ changed (topBits []) (topBits [0, 4]) (48 / 8) = {0, 4} ∧
      fletcher2Native (topBits []) 48 = fletcher2Native (topBits [0, 4]) 48 := by
  decide

/-- One pair of words apart, they are not. -/
theorem fletcher2Native_eq_iff_topBits :
    fletcher2Native (topBits []) 48 ≠ fletcher2Native (topBits [0, 2]) 48 := by
  intro heq
  obtain ⟨i, j, hij, -, hS, -, hcancel⟩ :=
    (fletcher2Native_eq_iff (topBits []) (topBits [0, 2])
      (by decide) ⟨0, by decide⟩ (by decide)).mp heq
  have hpair : changed (topBits []) (topBits [0, 2]) (48 / 8) = {0, 2} := by decide
  rw [hpair] at hS
  have hi : i ∈ ({0, 2} : Finset ℕ) := hS ▸ mem_insert_self i {j}
  have hj : j ∈ ({0, 2} : Finset ℕ) := hS ▸ mem_insert_of_mem (mem_singleton_self j)
  simp only [mem_insert, mem_singleton] at hi hj
  obtain ⟨rfl, rfl⟩ : i = 0 ∧ j = 2 := by omega
  revert hcancel
  decide

/-! ## `fletcher_4` -/

/-- A place of a small set, and two more that cover the rest of it. -/
theorem exists_two_others {S : Finset ℕ} (hS : S.card ≤ 3) (hp : p ∈ S) (hn : ∀ i ∈ S, i < n) :
    ∃ q r, q ≠ p ∧ r ≠ p ∧ q ≤ n ∧ r ≤ n ∧ ∀ i ∈ S, i ≠ p → i = q ∨ i = r := by
  have hlt {i : ℕ} (hi : i ∈ S.erase p) : i ≠ p ∧ i ≤ n :=
    ⟨ne_of_mem_erase hi, (hn i (mem_of_mem_erase hi)).le⟩
  have hcard := card_erase_of_mem hp
  obtain h0 | h1 | h2 : (S.erase p).card = 0 ∨ (S.erase p).card = 1 ∨
    (S.erase p).card = 2 := by omega
  · have hpn := hn p hp
    refine ⟨n, n, hpn.ne', hpn.ne', le_rfl, le_rfl, fun i hi hip => ?_⟩
    exact absurd (mem_erase.mpr ⟨hip, hi⟩) (card_eq_zero.mp h0 ▸ notMem_empty i)
  · obtain ⟨q, hq⟩ := card_eq_one.mp h1
    have hmem : q ∈ S.erase p := hq ▸ mem_singleton_self q
    refine ⟨q, q, (hlt hmem).1, (hlt hmem).1, (hlt hmem).2, (hlt hmem).2, fun i hi hip => .inl ?_⟩
    exact mem_singleton.mp (hq ▸ mem_erase.mpr ⟨hip, hi⟩)
  · obtain ⟨q, r, -, hqr⟩ := card_eq_two.mp h2
    have hq : q ∈ S.erase p := hqr ▸ mem_insert_self q {r}
    have hr : r ∈ S.erase p := hqr ▸ mem_insert_of_mem (mem_singleton_self r)
    refine ⟨q, r, (hlt hq).1, (hlt hr).1, (hlt hq).2, (hlt hr).2, fun i hi hip => ?_⟩
    have hi : i ∈ ({q, r} : Finset ℕ) := hqr ▸ mem_erase.mpr ⟨hip, hi⟩
    rwa [mem_insert, mem_singleton] at hi

/-- An integer that fits in a word and is zero as a word is zero. -/
theorem eq_zero_of_intCast {z : ℤ} (h : (z : BitVec 64) = 0) (hz : |z| < 2 ^ 63) : z = 0 := by
  have hmod : z.bmod (2 ^ 64) = 0 := by
    rw [← BitVec.toInt_intCast, h]
    rfl
  rw [abs_lt] at hz
  rwa [Int.bmod_eq_of_le (by omega) (by omega)] at hmod

theorem setWidth_eq_natCast (x : BitVec 32) : x.setWidth 64 = ((x.toNat : ℕ) : BitVec 64) := by
  apply BitVec.eq_of_toNat_eq
  rw [BitVec.toNat_setWidth]
  exact (BitVec.toNat_ofNat _ _).symm

/-- The equation for one of three changed words has no room to wrap. -/
theorem eq_of_weighted {q r : ℕ} {u v : BitVec 32} (hp : p ≤ 2 ^ 15) (hq : q ≤ 2 ^ 15)
    (hr : r ≤ 2 ^ 15) (hqp : q ≠ p) (hrp : r ≠ p)
    (h : ((p : BitVec 64) - q) * ((p : BitVec 64) - r) * (v.setWidth 64 - u.setWidth 64) = 0) :
    u = v := by
  have hcast : ((((p : ℤ) - q) * ((p : ℤ) - r) * ((v.toNat : ℤ) - u.toNat) : ℤ) :
      BitVec 64) = 0 := by
    push_cast
    rw [← setWidth_eq_natCast, ← setWidth_eq_natCast]
    exact h
  have h1 : |(p : ℤ) - q| ≤ 2 ^ 15 := abs_le.mpr ⟨by omega, by omega⟩
  have h2 : |(p : ℤ) - r| ≤ 2 ^ 15 := abs_le.mpr ⟨by omega, by omega⟩
  have h3 : |(v.toNat : ℤ) - u.toNat| ≤ 2 ^ 32 := abs_le.mpr ⟨by omega, by omega⟩
  have hsmall : |((p : ℤ) - q) * ((p : ℤ) - r) * ((v.toNat : ℤ) - u.toNat)| < 2 ^ 63 := by
    rw [abs_mul, abs_mul]
    calc _ ≤ (2 ^ 15 * 2 ^ 15 * 2 ^ 32 : ℤ) := by gcongr
      _ < 2 ^ 63 := by norm_num
  rcases mul_eq_zero.mp (eq_zero_of_intCast hcast hsmall) with h0 | h0
  · rcases mul_eq_zero.mp h0 with h0 | h0 <;> omega
  · apply BitVec.eq_of_toNat_eq
    omega

/-- Three changed words are detected, however the words are swapped. -/
theorem fletcher4_ne {swap : BitVec 32 → BitVec 32} (hswap : Function.Injective swap)
    {x y : ℕ → BitVec 32} (hmax : size ≤ spaMaxblocksize) (hne : ∃ i, i < size / 4 ∧ x i ≠ y i)
    (hthree : (changed x y (size / 4)).card ≤ 3) :
    fletcher4 swap x size ⟨0, 0, 0, 0⟩ ≠ fletcher4 swap y size ⟨0, 0, 0, 0⟩ := by
  intro heq
  obtain ⟨p, hp, hpne⟩ := hne
  have hn : size / 4 ≤ 2 ^ 15 := by
    have : spaMaxblocksize = 2 ^ 17 := rfl
    omega
  obtain ⟨q, r, hqp, hrp, hq, hr, hothers⟩ :=
    exists_two_others hthree (mem_changed.mpr ⟨hp, hpne⟩) fun i hi => (mem_changed.mp hi).1
  have hzero (i : ℕ) (hi : i < size / 4) (hip : i ≠ p) :
      ((i : BitVec 64) - q) * ((i : BitVec 64) - r) = 0 ∨
        (swap (x i)).setWidth 64 = (swap (y i)).setWidth 64 := by
    by_cases hxy : x i = y i
    · exact .inr (by rw [hxy])
    · rcases hothers i (mem_changed.mpr ⟨hi, hxy⟩) hip with rfl | rfl
      · exact .inl (by rw [sub_self, zero_mul])
      · exact .inl (by rw [sub_self, mul_zero])
  have hsum := sum_sub_eq_single (x := fun i => (swap (x i)).setWidth 64)
    (y := fun i => (swap (y i)).setWidth 64) hp
    (fun i => ((i : BitVec 64) - q) * ((i : BitVec 64) - r)) hzero
  rw [fletcher4_sum, fletcher4_sum, heq, sub_self] at hsum
  exact hpne (hswap (eq_of_weighted (by omega) (by omega) (by omega) hqp hrp hsum.symm))

/-- Bit `i` of a swapped word is the same bit of the byte at the other end. -/
theorem getLsbD_bswap32 (x : BitVec 32) (hi : i < 32) :
    (bswap32 x).getLsbD i = x.getLsbD (8 * (3 - i / 8) + i % 8) := by
  simp only [bswap32, bswap16, bswap8]
  interval_cases i <;> simp

theorem bswap32_injective : Function.Injective (bswap32 : BitVec 32 → BitVec 32) := by
  intro x y h
  apply BitVec.eq_of_getLsbD_eq
  intro i hi
  have hbit := congrArg (fun z : BitVec 32 => z.getLsbD (8 * (3 - i / 8) + i % 8)) h
  simp only [getLsbD_bswap32 _ (by omega : 8 * (3 - i / 8) + i % 8 < 32)] at hbit
  rwa [show 8 * (3 - (8 * (3 - i / 8) + i % 8) / 8) + (8 * (3 - i / 8) + i % 8) % 8 = i by omega]
    at hbit

/-- **`fletcher_4` detects a change of at most three words** of a block. -/
theorem fletcher4_detects (x y : ℕ → BitVec 32) {size : ℕ} (hmax : size ≤ spaMaxblocksize)
    (hne : ∃ i, i < size / 4 ∧ x i ≠ y i) (hthree : (changed x y (size / 4)).card ≤ 3) :
    fletcher4Native x size ≠ fletcher4Native y size ∧
      fletcher4Byteswap x size ≠ fletcher4Byteswap y size :=
  ⟨fletcher4_ne Function.injective_id hmax hne hthree,
    fletcher4_ne bswap32_injective hmax hne hthree⟩

theorem fletcher4_detects_three :
    fletcher4Native (fun _ => 0) 32 ≠ fletcher4Native (fun i => if i < 3 then 5 else 0) 32 ∧
      fletcher4Byteswap (fun _ => 0) 32 ≠ fletcher4Byteswap (fun i => if i < 3 then 5 else 0) 32 :=
  fletcher4_detects _ _ (by decide) ⟨1, by decide⟩ (by decide)

end Polaris
