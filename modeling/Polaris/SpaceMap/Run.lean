import Polaris.SpaceMap.Refine

/-!
# Runs of space maps

A family of space maps, and the calls of `space_map_add`, `space_map_remove`,
`space_map_excise`, `space_map_union` and `space_map_vacate` on them, in any order.
Each map is paired with the set of byte offsets that it should stand for, and
`SpaceCall.sets` says what a call does to these sets.

## Main definitions

* `SpaceCall`, `SpaceCall.run`, `SpaceCall.sets`, `SpaceCall.Legal`
* `SpaceRun`
* `SpaceMap.Holds`
-/

namespace Polaris

open BinTree AvlTree Function Finset

/-- A call on a family of space maps. -/
inductive SpaceCall (ι : Type) where
  | add (i : ι) (start size : ℕ)
  | remove (i : ι) (start size : ℕ)
  | excise (i : ι) (start size : ℕ)
  | union (d s : ι)
  | vacate (i : ι)
  | vacateAdd (i j : ι)
  | vacateRemove (i j : ι)

namespace SpaceCall

variable {ι : Type} [DecidableEq ι]

/-- Run a call. -/
def run (M : ι → SpaceMap) : SpaceCall ι → Option (ι → SpaceMap)
  | add i start size => (spaceMapAdd (M i) start size).map (update M i)
  | remove i start size => (spaceMapRemove (M i) start size).map (update M i)
  | excise i start size => (spaceMapExcise (M i) start size).map (update M i)
  | union d s => (spaceMapUnion (M d) (M s)).map (update M d)
  | vacate i => (spaceMapVacate (M i) none (M i)).map fun r => update M i r.1
  | vacateAdd i j => (spaceMapVacate (M i) (some spaceMapAdd) (M j)).map fun r =>
    update (update M i r.1) j r.2
  | vacateRemove i j => (spaceMapVacate (M i) (some spaceMapRemove) (M j)).map fun r =>
    update (update M i r.1) j r.2

/-- What a call does to the sets. -/
def sets (A : ι → Finset ℕ) : SpaceCall ι → ι → Finset ℕ
  | add i start size => update A i (A i ∪ Ico start (start + size))
  | remove i start size => update A i (A i \ Ico start (start + size))
  | excise i start size => update A i (A i \ Ico start (start + size))
  | union d s => update A d (A d ∪ A s)
  | vacate i => update A i ∅
  | vacateAdd i j => update (update A i ∅) j (A j ∪ A i)
  | vacateRemove i j => update (update A i ∅) j (A j \ A i)

/-- The contract of a call: its ranges are aligned and lie inside the map, and they
are disjoint from the set where they are added and contained in it where they are
removed.  The ranges of a union or of a vacated map are its segments. -/
def Legal (M : ι → SpaceMap) (A : ι → Finset ℕ) : SpaceCall ι → Prop
  | add i start size =>
    (M i).Range start size ∧ Disjoint (A i) (Ico start (start + size))
  | remove i start size => (M i).Range start size ∧ Ico start (start + size) ⊆ A i
  | excise i start size => (M i).Range start size
  | union d s => d ≠ s ∧ A s ⊆ Ico (M d).smStart ((M d).smStart + (M d).smSize) ∧
      Blockwise (2 ^ (M d).smShift) (A s)
  | vacate _ => True
  | vacateAdd i j => i ≠ j ∧ A i ⊆ Ico (M j).smStart ((M j).smStart + (M j).smSize) ∧
      Blockwise (2 ^ (M j).smShift) (A i) ∧ Disjoint (A j) (A i)
  | vacateRemove i j => i ≠ j ∧ A i ⊆ A j ∧ Blockwise (2 ^ (M j).smShift) (A i)

end SpaceCall

/-- The maps that a program reaches, each with the set it should stand for. -/
inductive SpaceRun {ι : Type} [DecidableEq ι] : (ι → SpaceMap) → (ι → Finset ℕ) → Prop
  | create {start size shift : ι → ℕ} : (∀ i, start i + size i < 2 ^ 64) →
      SpaceRun (fun i => spaceMapCreate (start i) (size i) (shift i)) fun _ => ∅
  | call {M M' : ι → SpaceMap} {A : ι → Finset ℕ} {op : SpaceCall ι} :
      SpaceRun M A → op.Legal M A → op.run M = some M' → SpaceRun M' (op.sets A)

/-- The tree of the map holds the set as segments that are not empty and do not
touch, and `sm_space` is their total length. -/
def SpaceMap.Holds (sm : SpaceMap) (A : Finset ℕ) : Prop :=
  ∃ s : BinTree Addr, sm.smRoot.Valid s ∧ Separated (segs sm.smRoot s.inorder) ∧
    cover (segs sm.smRoot s.inorder) = A ∧
    sm.smSpace = ((segs sm.smRoot s.inorder).map fun s => s.2 - s.1).sum

theorem SpaceMap.Rep.holds {sm : SpaceMap} {A : Finset ℕ} (h : sm.Rep A) : sm.Holds A := by
  obtain ⟨s, htree, rfl⟩ := h.tree
  exact ⟨s, htree.valid, htree.separated, rfl, by rw [h.space, htree.separated.card_cover]⟩

section

variable {ι : Type} [DecidableEq ι] {M : ι → SpaceMap} {A : ι → Finset ℕ}

/-- Changing one map and its set. -/
theorem rep_update (h : ∀ i, (M i).Rep (A i)) {i : ι} {sm : SpaceMap} {B : Finset ℕ}
    (hi : sm.Rep B) : ∀ j, (update M i sm j).Rep (update A i B j) := by
  intro j
  by_cases hj : j = i
  · subst hj
    simpa using hi
  · simpa [hj] using h j

/-- **One call.**  A legal call returns, and its result stands for the new sets. -/
theorem SpaceCall.step (h : ∀ i, (M i).Rep (A i)) {op : SpaceCall ι} (hop : op.Legal M A) :
    ∃ M', op.run M = some M' ∧ ∀ i, (M' i).Rep (op.sets A i) := by
  cases op with
  | add i start size =>
    obtain ⟨sm', hrun, hrep, -⟩ := spaceMapAdd_spec (h i) hop.1 hop.2
    exact ⟨_, by rw [SpaceCall.run, hrun]; rfl, rep_update h hrep⟩
  | remove i start size =>
    obtain ⟨sm', hrun, hrep, -⟩ := spaceMapRemove_spec (h i) hop.1 hop.2
    exact ⟨_, by rw [SpaceCall.run, hrun]; rfl, rep_update h hrep⟩
  | excise i start size =>
    obtain ⟨sm', hrun, hrep, -⟩ := spaceMapExcise_spec (h i) hop
    exact ⟨_, by rw [SpaceCall.run, hrun]; rfl, rep_update h hrep⟩
  | union d s =>
    obtain ⟨sm', hrun, hrep, -⟩ := spaceMapUnion_spec (h d) (h s) hop.2.1 hop.2.2
    exact ⟨_, by rw [SpaceCall.run, hrun]; rfl, rep_update h hrep⟩
  | vacate i =>
    obtain ⟨sm', hrun, hrep, -⟩ := spaceMapVacate_none (h i) (M i)
    exact ⟨_, by rw [SpaceCall.run, hrun]; rfl, rep_update h hrep⟩
  | vacateAdd i j =>
    obtain ⟨-, hin, hblocks, hdis⟩ := hop
    obtain ⟨sm', mdest', hrun, hrep, -, hrep', -⟩ :=
      spaceMapVacate_update segmentwise_union (adds_spaceMapAdd _) (h i) (h j) hin hblocks hdis
    exact ⟨_, by rw [SpaceCall.run, hrun]; rfl, rep_update (rep_update h hrep) hrep'⟩
  | vacateRemove i j =>
    obtain ⟨-, hsub, hblocks⟩ := hop
    obtain ⟨sm', mdest', hrun, hrep, -, hrep', -⟩ :=
      spaceMapVacate_update segmentwise_sdiff (updates_spaceMapRemove _) (h i) (h j)
        (hsub.trans (h j).inside) hblocks hsub
    exact ⟨_, by rw [SpaceCall.run, hrun]; rfl, rep_update (rep_update h hrep) hrep'⟩

theorem SpaceRun.rep (h : SpaceRun M A) : ∀ i, (M i).Rep (A i) := by
  induction h with
  | create hbound => exact fun i => spaceMapCreate_rep (hbound i)
  | call _ hop hrun ih =>
    obtain ⟨M', hrun', hrep⟩ := SpaceCall.step ih hop
    rw [hrun, Option.some.injEq] at hrun'
    exact hrun' ▸ hrep

/-- **Every run of space maps.**  After any legal calls each map holds its set in
maximal segments, with the right total, and `space_map_contains` decides whether
a range lies in the set.  Any further legal call returns, and changes the sets as
`SpaceCall.sets` says. -/
theorem space_map_run_refines (h : SpaceRun M A) :
    (∀ i, (M i).Holds (A i)) ∧
    (∀ i start size, 0 < size → start + size < 2 ^ 64 → 2 ^ (M i).smShift ∣ start →
      2 ^ (M i).smShift ∣ size →
      spaceMapContains (M i) start size =
        some (decide (Finset.Ico start (start + size) ⊆ A i))) ∧
    ∀ op : SpaceCall ι, op.Legal M A →
      ∃ M', op.run M = some M' ∧ ∀ i, (M' i).Holds (op.sets A i) := by
  have hrep := h.rep
  refine ⟨fun i => (hrep i).holds, fun i start size hpos hfit hstart hsize =>
    spaceMapContains_spec (hrep i) hpos hfit hstart hsize, fun op hop => ?_⟩
  obtain ⟨M', hrun, hrep'⟩ := SpaceCall.step hrep hop
  exact ⟨M', hrun, fun i => (hrep' i).holds⟩

end

/-- One map of sixteen units, after some calls. -/
def smallMap (ops : List (SpaceCall Unit)) : Unit → SpaceMap :=
  (ops.foldlM (fun M (op : SpaceCall Unit) => op.run M) fun _ => spaceMapCreate 0 16 0).getD
    fun _ => spaceMapCreate 0 16 0

/-- A range is added, its middle is removed, and another range joins the first part. -/
theorem spaceRun_smallMap :
    SpaceRun (smallMap [.add () 4 6, .remove () 6 2, .add () 2 2]) fun _ => {2, 3, 4, 5, 8, 9} := by
  have h₀ : SpaceRun (smallMap []) fun _ => ∅ :=
    SpaceRun.create (by decide)
  have h₁ := @SpaceRun.call _ _ _ _ _ (.add () 4 6) h₀
    ⟨⟨by decide, by decide, by decide, by decide, by decide⟩, by decide⟩ rfl
  have h₂ := @SpaceRun.call _ _ _ _ _ (.remove () 6 2) h₁
    ⟨⟨by decide, by decide, by decide, by decide, by decide⟩, by decide⟩ rfl
  have h₃ := @SpaceRun.call _ _ _
    (smallMap [.add () 4 6, .remove () 6 2, .add () 2 2]) _ (.add () 2 2) h₂
    ⟨⟨by decide, by decide, by decide, by decide, by decide⟩, by decide⟩ rfl
  convert h₃ using 1
  funext i
  cases i
  decide

theorem space_map_run_smallMap :
    (smallMap [.add () 4 6, .remove () 6 2, .add () 2 2] ()).Holds {2, 3, 4, 5, 8, 9} ∧
    spaceMapContains (smallMap [.add () 4 6, .remove () 6 2, .add () 2 2] ()) 2 4 = some true ∧
    spaceMapContains (smallMap [.add () 4 6, .remove () 6 2, .add () 2 2] ()) 4 4 = some false := by
  obtain ⟨hholds, hcontains, -⟩ := space_map_run_refines spaceRun_smallMap
  refine ⟨hholds (), ?_, ?_⟩
  · rw [hcontains () 2 4 (by decide) (by decide) (by decide) (by decide)]
    decide
  · rw [hcontains () 4 4 (by decide) (by decide) (by decide) (by decide)]
    decide

end Polaris
