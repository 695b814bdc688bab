import Mathlib.Data.Int.Notation
import Mathlib.Tactic.Common

/-!
# Least elements of parts, compared in another order

A list is cut into parts.  The least element of each part is kept under one key, and the least of
those is then chosen under another.  When both keys order the two halves of the type alike, but put
them the other way round, this finds the least element of the whole list under the first key exactly
in the cases of `leastBy_parts_iff`.

## Main definitions

* `keepLeast` — one step of the search for a least element.
* `LeastBy` — an element of a list whose key is least.
-/

namespace Polaris

open List

variable {α : Type*}

/-- The one with the smaller key; the first if they are equal. -/
def keepLeast (key : α → ℤ) (old new : α) : α :=
  if key new < key old then new else old

/-- An element of `l` with the least key. -/
def LeastBy (key : α → ℤ) (l : List α) (a : α) : Prop :=
  a ∈ l ∧ ∀ b ∈ l, key a ≤ key b

variable {l : List α} {a b : α} {key : α → ℤ}

theorem LeastBy.unique (hinj : Function.Injective key) (ha : LeastBy key l a)
    (hb : LeastBy key l b) :
    a = b := by
  apply hinj
  exact Int.le_antisymm (ha.2 b hb.1) (hb.2 a ha.1)

theorem LeastBy.perm {l' : List α} (h : l.Perm l') (ha : LeastBy key l a) : LeastBy key l' a :=
  ⟨h.mem_iff.mp ha.1, fun b hb => ha.2 b (h.mem_iff.mpr hb)⟩

theorem leastBy_foldl_keepLeast (key : α → ℤ) (l : List α) (a : α) :
    LeastBy key (a :: l) (l.foldl (keepLeast key) a) := by
  induction l generalizing a with
  | nil =>
    constructor
    · exact mem_singleton_self a
    · intro b hb
      rw [mem_singleton.mp hb]
      exact Int.le_refl _
  | cons b l ih =>
    rw [foldl_cons]
    obtain ⟨hmem, hle⟩ := ih (keepLeast key a b)
    have hkept : key (keepLeast key a b) ≤ key a ∧ key (keepLeast key a b) ≤ key b := by
      rw [keepLeast]
      split <;> omega
    have hmin := hle _ mem_cons_self
    constructor
    · rcases mem_cons.mp hmem with heq | hl
      · rw [heq, keepLeast]
        split
        · exact mem_cons_of_mem _ mem_cons_self
        · exact mem_cons_self
      · exact mem_cons_of_mem _ (mem_cons_of_mem _ hl)
    · intro c hc
      rcases mem_cons.mp hc with rfl | hc
      · omega
      · rcases mem_cons.mp hc with rfl | hc
        · omega
        · exact hle c (mem_cons_of_mem _ hc)

/-- A search that starts from an element with the largest key finds the least one of a list that is
not empty. -/
theorem leastBy_foldl_keepLeast_top (hinj : Function.Injective key) {top : α}
    (htop : ∀ a, key a ≤ key top) (hl : l ≠ []) : LeastBy key l (l.foldl (keepLeast key) top) := by
  obtain ⟨hmem, hle⟩ := leastBy_foldl_keepLeast key l top
  constructor
  · rcases mem_cons.mp hmem with heq | hmem
    · obtain ⟨x, hx⟩ := exists_mem_of_ne_nil l hl
      have hxtop : key x = key top := by
        have := hle x (mem_cons_of_mem _ hx)
        rw [heq] at this
        exact Int.le_antisymm (htop x) this
      rw [heq, ← hinj hxtop]
      exact hx
    · exact hmem
  · intro b hb
    exact hle b (mem_cons_of_mem _ hb)

/-! ## Two keys -/

/-- Two keys that order each half of the type alike, the first with the lower half in front and the
second with the upper one. -/
structure HalvesSwapped (upper : α → Bool) (key key' : α → ℤ) : Prop where
  alike : ∀ a b, upper a = upper b → (key a < key b ↔ key' a < key' b)
  first : ∀ a b, upper a = false → upper b = true → key a < key b ∧ key' b < key' a

/-- Every part that is not empty reaches into the lower half, or nothing does. -/
def PartsAgree (upper : α → Bool) (parts : List (List α)) : Prop :=
  (∀ part ∈ parts, part ≠ [] → ∃ a ∈ part, upper a = false) ∨
    ∀ part ∈ parts, ∀ a ∈ part, upper a = true

variable {upper : α → Bool} {key key' : α → ℤ} (hswap : HalvesSwapped upper key key')

include hswap

theorem LeastBy.lower (ha : LeastBy key l a) (hb : b ∈ l) (hlower : upper b = false) :
    upper a = false := by
  by_contra hne
  have hlt := (hswap.first b a hlower (by simpa using hne)).1
  have := ha.2 b hb
  omega

theorem leastBy_parts_iff (hinj : Function.Injective key) {parts : List (List α)} {mins : List α}
    (hmins : ∀ m, m ∈ mins ↔ ∃ part ∈ parts, LeastBy key part m)
    (hleast : ∀ part ∈ parts, part ≠ [] → ∃ m, LeastBy key part m) (ha : LeastBy key' mins a)
    (hb : LeastBy key parts.flatten b) : a = b ↔ PartsAgree upper parts := by
  have hmem {m} (hm : m ∈ mins) : m ∈ parts.flatten := by
    obtain ⟨part, hpart, hleast⟩ := (hmins m).mp hm
    exact mem_flatten.mpr ⟨part, hpart, hleast.1⟩
  have hbmin : b ∈ mins := by
    obtain ⟨part, hpart, hbpart⟩ := mem_flatten.mp hb.1
    exact (hmins b).mpr ⟨part, hpart, hbpart, fun c hc =>
      hb.2 c (mem_flatten.mpr ⟨part, hpart, hc⟩)⟩
  constructor
  · rintro rfl
    by_contra hnot
    obtain ⟨hlow, hup⟩ := not_or.mp hnot
    simp only [not_forall, not_exists, not_and] at hlow hup
    obtain ⟨part, hpart, hne, hupper⟩ := hlow
    obtain ⟨part', hpart', v, hv, hlower⟩ := hup
    -- the part in the upper half has a minimum there, which the second key prefers
    obtain ⟨m, hm⟩ := hleast part hpart hne
    have hmupper : upper m = true := by simpa using hupper m hm.1
    have halower : upper a = false :=
      hb.lower hswap (mem_flatten.mpr ⟨part', hpart', hv⟩) (by simpa using hlower)
    have hlt := (hswap.first a m halower hmupper).2
    have := ha.2 m ((hmins m).mpr ⟨part, hpart, hm⟩)
    omega
  · intro hagree
    have hhalf : upper a = upper b := by
      rcases hagree with hlow | hup
      · have hminlow {m} (hm : m ∈ mins) : upper m = false := by
          obtain ⟨part, hpart, hleast⟩ := (hmins m).mp hm
          obtain ⟨v, hv, hlower⟩ := hlow part hpart (ne_nil_of_mem hleast.1)
          exact hleast.lower hswap hv hlower
        rw [hminlow ha.1, hminlow hbmin]
      · have hall {m} (hm : m ∈ mins) : upper m = true := by
          obtain ⟨part, hpart, hm⟩ := mem_flatten.mp (hmem hm)
          exact hup part hpart m hm
        rw [hall ha.1, hall hbmin]
    apply hinj
    have hle := hb.2 a (hmem ha.1)
    have hge := ha.2 b hbmin
    have := hswap.alike b a hhalf.symm
    omega

end Polaris
