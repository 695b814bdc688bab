import Mathlib.Algebra.GroupWithZero.Nat
import Mathlib.Order.Interval.Finset.Nat

/-!
# Sets of numbers as lists of segments

A segment is a pair `(a, b)` that stands for the numbers `a ≤ x < b`.  A list of
segments is `Separated` when its segments are not empty and each ends strictly
before the next one starts, so that no two of them touch.  `cover` is the set
that a list stands for.

Because separated segments do not touch, they are the maximal runs of the set:
a range lies in the set exactly when it lies in one segment (`subset_cover_iff`),
and the ends of the segments of a set made of whole blocks are multiples of the
block size (`Separated.dvd`).

The runs of a set are counted by their last elements (`ends`).

## Main definitions

* `Separated`, `cover`, `Blockwise`, `ends`
-/

namespace Polaris

open List

/-- The segments are not empty, in ascending order, and no two of them touch. -/
def Separated (l : List (ℕ × ℕ)) : Prop :=
  (∀ s ∈ l, s.1 < s.2) ∧ l.Pairwise fun s s' => s.2 < s'.1

/-- The numbers that lie in some segment. -/
def cover : List (ℕ × ℕ) → Finset ℕ
  | [] => ∅
  | s :: l => Finset.Ico s.1 s.2 ∪ cover l

/-- The set consists of whole blocks of `m` numbers. -/
def Blockwise (m : ℕ) (A : Finset ℕ) : Prop :=
  ∀ x y, x / m = y / m → x ∈ A → y ∈ A

theorem mem_cover {l : List (ℕ × ℕ)} {x : ℕ} : x ∈ cover l ↔ ∃ s ∈ l, s.1 ≤ x ∧ x < s.2 := by
  induction l with
  | nil => simp [cover]
  | cons s l ih => simp [cover, ih]

@[simp] theorem cover_nil : cover [] = ∅ := rfl

@[simp] theorem cover_cons (s : ℕ × ℕ) (l : List (ℕ × ℕ)) :
    cover (s :: l) = Finset.Ico s.1 s.2 ∪ cover l := rfl

@[simp] theorem cover_append (l₁ l₂ : List (ℕ × ℕ)) : cover (l₁ ++ l₂) = cover l₁ ∪ cover l₂ := by
  induction l₁ with
  | nil => simp
  | cons s l ih => simp [ih, Finset.union_assoc]

theorem cover_perm {l l' : List (ℕ × ℕ)} (h : l.Perm l') : cover l = cover l' := by
  ext x
  simp only [mem_cover, h.mem_iff]

theorem separated_nil : Separated [] := ⟨by simp, List.Pairwise.nil⟩

variable {s : ℕ × ℕ} {l₁ l₂ : List (ℕ × ℕ)} {a b : ℕ}

/-- A segment put between the ones below it and the ones above it. -/
theorem separated_insert :
    Separated (l₁ ++ s :: l₂) ↔ Separated (l₁ ++ l₂) ∧ s.1 < s.2 ∧ (∀ x ∈ l₁, x.2 < s.1) ∧
      ∀ y ∈ l₂, s.2 < y.1 := by
  simp only [Separated, pairwise_append, pairwise_cons, mem_append, mem_cons]
  constructor
  · rintro ⟨hne, h₁, ⟨hs, h₂⟩, h⟩
    exact ⟨⟨fun x hx => hne x (by tauto), h₁, h₂, fun x hx y hy => h x hx y (Or.inr hy)⟩,
      hne s (by tauto), fun x hx => h x hx s (Or.inl rfl), hs⟩
  · rintro ⟨⟨hne, h₁, h₂, h⟩, hs, hb, ha⟩
    refine ⟨?_, h₁, ⟨ha, h₂⟩, ?_⟩
    · rintro x (hx | rfl | hx)
      · exact hne x (Or.inl hx)
      · exact hs
      · exact hne x (Or.inr hx)
    · rintro x hx y (rfl | hy)
      · exact hb x hx
      · exact h x hx y hy

namespace Separated

variable {l : List (ℕ × ℕ)}

theorem tail (h : Separated (s :: l)) : Separated l :=
  ⟨fun x hx => h.1 x (by simp [hx]), (pairwise_cons.mp h.2).2⟩

/-- What is below the first segment is below all of them. -/
theorem lt_of_head (h : Separated (s :: l)) {n : ℕ} (hn : n < s.1) : ∀ y ∈ s :: l, n < y.1 := by
  intro y hy
  have hs := h.1 s (by simp)
  rcases mem_cons.mp hy with rfl | hy
  · exact hn
  · have := (pairwise_cons.mp h.2).1 y hy
    omega

/-- What is above the last segment is above all of them. -/
theorem lt_of_last (h : Separated (l ++ [s])) {n : ℕ} (hn : s.2 < n) : ∀ x ∈ l ++ [s], x.2 < n := by
  intro x hx
  have hs := h.1 s (by simp)
  rcases mem_append.mp hx with hx | hx
  · have := (pairwise_append.mp h.2).2.2 x hx s (by simp)
    omega
  · rw [mem_singleton.mp hx]
    exact hn

theorem left (h : Separated (l₁ ++ l₂)) : Separated l₁ :=
  ⟨fun s hs => h.1 s (by simp [hs]), (pairwise_append.mp h.2).1⟩

theorem right (h : Separated (l₁ ++ l₂)) : Separated l₂ :=
  ⟨fun s hs => h.1 s (by simp [hs]), (pairwise_append.mp h.2).2.1⟩

/-- Of two segments, one lies strictly below the other. -/
theorem trichotomy (h : Separated l) {s' : ℕ × ℕ} (hs : s ∈ l) (hs' : s' ∈ l) :
    s = s' ∨ s.2 < s'.1 ∨ s'.2 < s.1 := by
  have hsym : l.Pairwise fun s s' => s.2 < s'.1 ∨ s'.2 < s.1 := h.2.imp Or.inl
  have : Std.Symm fun s s' : ℕ × ℕ => s.2 < s'.1 ∨ s'.2 < s.1 := ⟨fun _ _ h => h.symm⟩
  by_cases he : s = s'
  · exact Or.inl he
  · exact Or.inr (hsym.forall hs hs' he)

/-- In any order, the segments are pairwise disjoint. -/
theorem pairwise_disjoint (h : Separated l) {l' : List (ℕ × ℕ)} (hp : l'.Perm l) :
    l'.Pairwise fun s s' => Disjoint (Finset.Ico s.1 s.2) (Finset.Ico s'.1 s'.2) := by
  refine (hp.pairwise_iff fun h => Disjoint.symm h).mpr (h.2.imp fun {s s'} hlt => ?_)
  rw [Finset.disjoint_left]
  intro x hx hx'
  rw [Finset.mem_Ico] at hx hx'
  omega

/-- The size of the set is the total length. -/
theorem card_cover (h : Separated l) : (cover l).card = (l.map fun s => s.2 - s.1).sum := by
  induction l with
  | nil => rfl
  | cons s l ih =>
    have hdis : Disjoint (Finset.Ico s.1 s.2) (cover l) := by
      rw [Finset.disjoint_left]
      intro x hx hx'
      rw [Finset.mem_Ico] at hx
      obtain ⟨s', hs', h1, -⟩ := mem_cover.mp hx'
      have := (pairwise_cons.mp h.2).1 s' hs'
      omega
    rw [cover_cons, Finset.card_union_of_disjoint hdis, ih h.tail, Nat.card_Ico]
    rfl

/-- A number next to a segment is not in the set. -/
theorem end_notMem (h : Separated l) (hs : s ∈ l) : s.2 ∉ cover l := by
  intro hm
  obtain ⟨s', hs', h1, h2⟩ := mem_cover.mp hm
  have hne := h.1 s hs
  rcases h.trichotomy hs hs' with rfl | hlt | hlt
  · omega
  · omega
  · omega

theorem pred_notMem (h : Separated l) (hs : s ∈ l) (h0 : 0 < s.1) : s.1 - 1 ∉ cover l := by
  intro hm
  obtain ⟨s', hs', h1, h2⟩ := mem_cover.mp hm
  have hne := h.1 s hs
  rcases h.trichotomy hs hs' with rfl | hlt | hlt
  · omega
  · omega
  · omega

/-- A range lies in the set exactly when one segment contains it. -/
theorem subset_cover_iff (h : Separated l) (hab : a < b) :
    Finset.Ico a b ⊆ cover l ↔ ∃ s ∈ l, s.1 ≤ a ∧ b ≤ s.2 := by
  constructor
  · intro hsub
    obtain ⟨s, hs, h1, h2⟩ := mem_cover.mp (hsub (Finset.mem_Ico.mpr ⟨le_rfl, hab⟩))
    refine ⟨s, hs, h1, ?_⟩
    by_contra hlt
    exact h.end_notMem hs (hsub (Finset.mem_Ico.mpr ⟨by omega, by omega⟩))
  · rintro ⟨s, hs, h1, h2⟩ x hx
    rw [Finset.mem_Ico] at hx
    exact mem_cover.mpr ⟨s, hs, by omega, by omega⟩

/-- The ends of the segments of a set of whole blocks are at block boundaries. -/
theorem dvd (h : Separated l) {m : ℕ} (hm : Blockwise m (cover l)) (hs : s ∈ l) :
    m ∣ s.1 ∧ m ∣ s.2 := by
  have hne := h.1 s hs
  -- within a block, the quotient does not change from one number to the next
  have hstep : ∀ n, ¬ m ∣ n + 1 → (n + 1) / m = n / m := fun n hn => Nat.succ_div_of_not_dvd hn
  constructor
  · by_contra hd
    have h0 : s.1 ≠ 0 := fun e => hd (e ▸ Nat.dvd_zero m)
    obtain ⟨n, hn⟩ : ∃ n, s.1 = n + 1 := ⟨s.1 - 1, by omega⟩
    have hmem : s.1 ∈ cover l := mem_cover.mpr ⟨s, hs, le_rfl, hne⟩
    have hpred := hm s.1 (s.1 - 1) (by rw [hn] at hd ⊢; exact hstep n hd) hmem
    exact h.pred_notMem hs (by omega) hpred
  · by_contra hd
    obtain ⟨n, hn⟩ : ∃ n, s.2 = n + 1 := ⟨s.2 - 1, by omega⟩
    have hmem : n ∈ cover l := mem_cover.mpr ⟨s, hs, by omega, by omega⟩
    have hend := hm n s.2 (by rw [hn] at hd ⊢; exact (hstep n hd).symm) hmem
    exact h.end_notMem hs hend

end Separated

namespace Blockwise

variable {m : ℕ} {A B : Finset ℕ}

theorem empty : Blockwise m ∅ := by simp [Blockwise]

theorem union (hA : Blockwise m A) (hB : Blockwise m B) : Blockwise m (A ∪ B) := by
  intro x y hxy hx
  rw [Finset.mem_union] at hx ⊢
  exact hx.imp (hA x y hxy) (hB x y hxy)

theorem sdiff (hA : Blockwise m A) (hB : Blockwise m B) : Blockwise m (A \ B) := by
  intro x y hxy hx
  rw [Finset.mem_sdiff] at hx ⊢
  exact ⟨hA x y hxy hx.1, fun hy => hx.2 (hB y x hxy.symm hy)⟩

theorem Ico (hm : 0 < m) (ha : m ∣ a) (hb : m ∣ b) : Blockwise m (Finset.Ico a b) := by
  intro x y hxy hx
  obtain ⟨i, rfl⟩ := ha
  obtain ⟨j, rfl⟩ := hb
  rw [Finset.mem_Ico] at hx ⊢
  rw [mul_comm m i, mul_comm m j, ← Nat.le_div_iff_mul_le hm, ← Nat.div_lt_iff_lt_mul hm] at hx ⊢
  rwa [← hxy]

end Blockwise

/-- The last elements of the maximal runs of a set. -/
def ends (A : Finset ℕ) : Finset ℕ := A.filter fun x => x + 1 ∉ A

theorem mem_ends {A : Finset ℕ} {x : ℕ} : x ∈ ends A ↔ x ∈ A ∧ x + 1 ∉ A := Finset.mem_filter

theorem ends_union_subset (A B : Finset ℕ) : ends (A ∪ B) ⊆ ends A ∪ ends B := by
  intro x hx
  simp only [mem_ends, Finset.mem_union, not_or] at hx ⊢
  tauto

theorem card_ends_Ico_le (a b : ℕ) : (ends (Finset.Ico a b)).card ≤ 1 := by
  rw [Finset.card_le_one]
  intro x hx y hy
  simp only [mem_ends, Finset.mem_Ico] at hx hy
  omega

/-- Within a range there are no more runs than segments. -/
theorem card_ends_cover_le (l : List (ℕ × ℕ)) (a b : ℕ) :
    (ends (cover l ∩ Finset.Ico a b)).card ≤ l.length := by
  induction l with
  | nil => simp [ends]
  | cons s l ih =>
    have hcap : Finset.Ico s.1 s.2 ∩ Finset.Ico a b = Finset.Ico (max s.1 a) (min s.2 b) :=
      Finset.Ico_inter_Ico ..
    have hone := card_ends_Ico_le (max s.1 a) (min s.2 b)
    rw [← hcap] at hone
    rw [cover_cons, Finset.union_inter_distrib_right]
    calc (ends (Finset.Ico s.1 s.2 ∩ Finset.Ico a b ∪ cover l ∩ Finset.Ico a b)).card
        ≤ _ := Finset.card_le_card (ends_union_subset ..)
      _ ≤ _ := Finset.card_union_le ..
      _ ≤ l.length + 1 := by omega

/-- Taking out a whole run leaves fewer runs. -/
theorem card_ends_sdiff_lt {A : Finset ℕ} (hab : a < b) (hsub : Finset.Ico a b ⊆ A)
    (ha : ∀ x ∈ A, x + 1 ≠ a) (hb : b ∉ A) : (ends (A \ Finset.Ico a b)).card < (ends A).card := by
  have hmem : b - 1 ∈ Finset.Ico a b := Finset.mem_Ico.mpr ⟨by omega, by omega⟩
  have hend : b - 1 + 1 = b := by omega
  refine Finset.card_lt_card (Finset.ssubset_iff_subset_ne.mpr ⟨fun x hx => ?_, fun he => ?_⟩)
  · simp only [mem_ends, Finset.mem_sdiff, Finset.mem_Ico] at hx ⊢
    obtain ⟨⟨hxA, hx1⟩, hx2⟩ := hx
    have hxa := ha x hxA
    refine ⟨hxA, fun hA => hx2 ⟨hA, by omega⟩⟩
  · have hin : b - 1 ∈ ends A := mem_ends.mpr ⟨hsub hmem, by rw [hend]; exact hb⟩
    rw [← he, mem_ends, Finset.mem_sdiff] at hin
    exact hin.1.2 hmem

end Polaris
