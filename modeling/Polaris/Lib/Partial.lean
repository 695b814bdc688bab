import Mathlib.Logic.Basic

/-!
# Partial computations

A computation that may fail is a value of type `Option`.  These are the rules for a run
of several of them: what a step returns, and what a run that returns has checked.
-/

namespace Polaris

/-- One step of a run: the first action returned `a`. -/
theorem bind_of_some {β γ : Type} {x : Option β} {f : β → Option γ} {a : β} {r : Option γ}
    (h : x = some a) (hr : f a = r) : (x >>= f) = r := by
  rw [h]
  exact hr

theorem guard_eq_some {p : Prop} [Decidable p] (h : p) : (guard p : Option Unit) = some () :=
  if_pos h

theorem guard_eq_none {p : Prop} [Decidable p] (h : ¬p) : (guard p : Option Unit) = none :=
  if_neg h

theorem guard_bind_eq_some {p : Prop} [Decidable p] {β : Type} {f : Unit → Option β} {b : β} :
    (guard p : Option Unit).bind f = some b ↔ p ∧ f () = some b := by
  by_cases h : p
  · rw [guard_eq_some h]
    exact (and_iff_right h).symm
  · rw [guard_eq_none h]
    simp [h]

end Polaris
