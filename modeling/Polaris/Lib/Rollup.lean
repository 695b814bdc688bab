import Mathlib.Algebra.BigOperators.Group.Finset.Piecewise
import Mathlib.Algebra.Order.Ring.Int
import Mathlib.Data.Fintype.Basic
import Mathlib.Tactic.Ring

/-!
# Totals kept over a forest

A forest is given by the parent of each of its finitely many nodes.  Every node keeps a running
total: what was charged to the node itself plus what each of its children accounts for.  What a
child accounts for need not be its own total, so a charge to a node changes what its parent
is owed by another amount than the charge.

An update settles one node at a time, from the charged node up to the root.  Between two nodes
the equations hold everywhere except at the next node, which is still owed a known amount:
`Owed par total own share p δ` is that state, and `Balanced` the one where nothing is owed.

## Main results

* `Owed.settle` — paying what a node is owed leaves only its parent owed.
* `Balanced.charge`, `Balanced.revalue` — a direct charge, or a new share, as a debt.
* `Balanced.detach`, `Balanced.attach` — moving a subtree, as a debt of either parent.
* `Above` — a node is on the path from another one to the root.
-/

namespace Polaris

open Function Option Finset

namespace Rollup

variable {ι : Type*}

variable {par par' : ι → Option ι} {d i p : ι} {n : ℕ}

section Path

/-- `d` is `i` itself or one of its ancestors. -/
def Above (par : ι → Option ι) (d i : ι) : Prop :=
  Relation.ReflTransGen (fun c p => par c = some p) i d

theorem Above.refl (par : ι → Option ι) (i : ι) : Above par i i :=
  Relation.ReflTransGen.refl

theorem Above.up (hp : par i = some p) (h : Above par d p) : Above par d i :=
  Relation.ReflTransGen.head hp h

/-- A node other than `i` that is above `i` is above the parent of `i`. -/
theorem above_iff : Above par d i ↔ d = i ∨ ∃ p, par i = some p ∧ Above par d p := by
  constructor
  · intro h
    rcases Relation.ReflTransGen.cases_head h with h | ⟨p, hp, h⟩
    · exact Or.inl h.symm
    · exact Or.inr ⟨p, hp, h⟩
  · rintro (rfl | ⟨p, hp, h⟩)
    · exact Above.refl par d
    · exact Above.up hp h

/-- The path from a node to its root has `n` nodes. -/
inductive Depth (par : ι → Option ι) : ι → ℕ → Prop
  | root {i : ι} (h : par i = none) : Depth par i 1
  | up {i p : ι} {n : ℕ} (h : par i = some p) (hp : Depth par p n) : Depth par i (n + 1)

/-- Every path upwards ends. -/
def Rooted (par : ι → Option ι) : Prop :=
  ∀ i, ∃ n, Depth par i n

theorem Depth.unique {m : ℕ} (hm : Depth par i m) (hn : Depth par i n) : m = n := by
  induction hm generalizing n with
  | root h =>
    cases hn with
    | root _ => rfl
    | up h' _ => rw [h] at h'; cases h'
  | up h _ ih =>
    cases hn with
    | root h' => rw [h] at h'; cases h'
    | up h' hp' =>
      rw [h] at h'
      cases h'
      rw [ih hp']

/-- An ancestor is nearer to the root. -/
theorem Depth.above (h : Depth par i n) (hd : Above par d i) : ∃ m ≤ n, Depth par d m := by
  induction h with
  | root h =>
    rcases above_iff.mp hd with rfl | ⟨p, hp, _⟩
    · exact ⟨1, le_refl 1, .root h⟩
    · rw [h] at hp; cases hp
  | @up i p n h hp ih =>
    rcases above_iff.mp hd with rfl | ⟨q, hq, hd⟩
    · exact ⟨n + 1, le_refl _, .up h hp⟩
    · rw [h] at hq
      cases hq
      obtain ⟨m, hm, hdm⟩ := ih hd
      exact ⟨m, by omega, hdm⟩

/-- Where every path ends, no node is above its own parent. -/
theorem Rooted.not_above_parent (h : Rooted par) (hp : par i = some p) : ¬ Above par i p := by
  intro hi
  obtain ⟨n, hn⟩ := h p
  obtain ⟨m, hm, hdm⟩ := hn.above hi
  have := hdm.unique (Depth.up hp hn)
  omega

theorem Rooted.parent_ne (h : Rooted par) : par i ≠ some i := by
  intro hp
  exact h.not_above_parent hp (Above.refl par i)

/-- A path that avoids `d` does not depend on the parent of `d`. -/
theorem Depth.congr (h : Depth par i n) (heq : ∀ j, j ≠ d → par' j = par j) (hd : ¬ Above par d i) :
    Depth par' i n := by
  induction h with
  | @root i h =>
    apply Depth.root
    rw [heq i (by rintro rfl; exact hd (Above.refl par i)), h]
  | @up i p n h _ ih =>
    have hi : par' i = some p := by
      rw [heq i (by rintro rfl; exact hd (Above.refl par i)), h]
    exact Depth.up hi (ih fun hp => hd (Above.up h hp))

/-- Hanging `d` under a node that is not below `d` keeps every path finite. -/
theorem Rooted.move {q : ι} (h : Rooted par)
    (heq : ∀ j, j ≠ d → par' j = par j) (hd : par' d = some q) (hq : ¬ Above par d q) :
    Rooted par' := by
  obtain ⟨m, hm⟩ := h q
  have hmq : Depth par' d (m + 1) := Depth.up hd (hm.congr heq hq)
  intro i
  obtain ⟨n, hn⟩ := h i
  clear hm
  induction hn with
  | @root i h =>
    by_cases hi : i = d
    · exact ⟨m + 1, hi ▸ hmq⟩
    · exact ⟨1, Depth.root (by rw [heq i hi, h])⟩
  | @up i p n h _ ih =>
    by_cases hi : i = d
    · exact ⟨m + 1, hi ▸ hmq⟩
    · obtain ⟨k, hk⟩ := ih
      exact ⟨k + 1, Depth.up (by rw [heq i hi, h]) hk⟩

end Path

section Totals

variable [Fintype ι] [DecidableEq ι] {total own share : ι → ℤ}

/-- The nodes whose parent is `p`. -/
def children (par : ι → Option ι) (p : ι) : Finset ι :=
  Finset.univ.filter fun c => par c = some p

@[simp]
theorem mem_children {c : ι} : c ∈ children par p ↔ par c = some p := by
  simp [children]

/-- Every total is right, except that the node `p`, if there is one, is still owed `δ`. -/
def Owed (par : ι → Option ι) (total own share : ι → ℤ) (p : Option ι) (δ : ℤ) : Prop :=
  ∀ i, total i + (if p = some i then δ else 0) = own i + ∑ c ∈ children par i, share c

/-- Every total is what was charged to the node plus the shares of its children. -/
def Balanced (par : ι → Option ι) (total own share : ι → ℤ) : Prop :=
  ∀ i, total i = own i + ∑ c ∈ children par i, share c

theorem owed_none {δ : ℤ} : Owed par total own share none δ ↔ Balanced par total own share := by
  simp [Owed, Balanced]

theorem Balanced.owed_zero (h : Balanced par total own share) (p : Option ι) :
    Owed par total own share p 0 := by
  intro i
  rw [ite_self, add_zero, h i]

/-- Changing one share changes the sum over the children of one node. -/
theorem sum_children_update (i j : ι) (ε : ℤ) :
    ∑ c ∈ children par j, update share i (share i + ε) c
      = (∑ c ∈ children par j, share c) + if par i = some j then ε else 0 := by
  by_cases h : par i = some j
  · have hi : i ∈ children par j := mem_children.mpr h
    rw [if_pos h, sum_update_of_mem hi, ← add_sum_erase _ _ hi, sdiff_singleton_eq_erase]
    ring
  · have hi : i ∉ children par j := fun hi => h (mem_children.mp hi)
    rw [if_neg h, sum_update_of_notMem hi, add_zero]

/-- **Paying a node what it is owed leaves only its parent owed**, by the change of the node's
share. -/
theorem Owed.settle {δ ε : ℤ} (h : Owed par total own share (some i) δ) (hi : par i ≠ some i) :
    Owed par (update total i (total i + δ)) own
      (update share i (share i + ε)) (par i) ε := by
  intro j
  have hj := h j
  rw [sum_children_update]
  by_cases hji : j = i
  · subst hji
    rw [if_pos rfl] at hj
    rw [update_self, if_neg hi]
    omega
  · rw [if_neg fun hs => hji (some.inj hs).symm] at hj
    rw [update_of_ne hji]
    omega

/-- A direct charge is a debt until the node's total takes it in. -/
theorem Balanced.charge (h : Balanced par total own share) (i : ι) (δ : ℤ) :
    Owed par total (update own i (own i + δ)) share (some i) δ := by
  intro j
  have hj := h j
  by_cases hji : j = i
  · subst hji
    rw [if_pos rfl, update_self]
    omega
  · rw [if_neg fun hs => hji (some.inj hs).symm, update_of_ne hji]
    omega

/-- A new share of a node is a debt of its parent. -/
theorem Balanced.revalue (h : Balanced par total own share) (i : ι) (ε : ℤ) :
    Owed par total own (update share i (share i + ε)) (par i) ε := by
  intro j
  rw [sum_children_update, h j]
  omega

/-- Giving `d` another parent moves its share from one sum to the other. -/
theorem sum_children_reparent (share : ι → ℤ) (heq : ∀ j, j ≠ d → par' j = par j) (j : ι) :
    (∑ c ∈ children par' j, share c) + (if par d = some j then share d else 0)
      = (∑ c ∈ children par j, share c) + if par' d = some j then share d else 0 := by
  have hsum (p : ι → Option ι) : ∑ c ∈ children p j, share c
      = (∑ c ∈ (children p j).erase d, share c) + if p d = some j then share d else 0 := by
    by_cases hp : p d = some j
    · rw [if_pos hp, sum_erase_add _ _ (mem_children.mpr hp)]
    · rw [if_neg hp, add_zero, erase_eq_of_notMem fun hd => hp (mem_children.mp hd)]
  have herase : (children par' j).erase d = (children par j).erase d := by
    ext c
    rw [mem_erase, mem_erase, mem_children, mem_children]
    exact and_congr_right fun hc => by rw [heq c hc]
  rw [hsum par', hsum par, herase]
  ring

/-- Taking `d` away from its parent leaves that parent owed minus the share of `d`. -/
theorem Balanced.detach (h : Balanced par total own share)
    (heq : ∀ j, j ≠ d → par' j = par j) (hd : par' d = none) :
    Owed par' total own share (par d) (-share d) := by
  intro j
  have hj := h j
  have hsum := sum_children_reparent share heq j
  rw [hd, if_neg (some_ne_none j).symm] at hsum
  by_cases hp : par d = some j
  · rw [if_pos hp] at hsum ⊢
    omega
  · rw [if_neg hp] at hsum ⊢
    omega

/-- Hanging a root `d` under a node leaves that node owed the share of `d`. -/
theorem Balanced.attach (h : Balanced par total own share) {q : ι} (hd : par d = none)
    (heq : ∀ j, j ≠ d → par' j = par j) (hq : par' d = some q) :
    Owed par' total own share (some q) (share d) := by
  intro j
  have hj := h j
  have hsum := sum_children_reparent share heq j
  rw [hd, hq, if_neg (some_ne_none j).symm] at hsum
  omega

end Totals

end Rollup

end Polaris
