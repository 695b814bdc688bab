import Polaris.Avl.Remove
import Polaris.Lib.Segments
import Polaris.SpaceMap.Basic

/-!
# Trees of segments

The comparison of a space map is not an order: two segments that overlap compare
equal.  It is one on the segments of a tree, because these are separated, and a
search with any range sees the tree split into the segments below the range,
those that meet it, and those above.

`SegTree` is the invariant of the tree of a space map.  The lemmas below say what
each access of `space_map.c` to the tree does to the list of its segments.

## Main definitions

* `SpaceSeg.range`, `segs`
* `SegTree`
-/

namespace Polaris

open BinTree AvlTree Function List

/-- The segment as a pair of ends. -/
def SpaceSeg.range (ss : SpaceSeg) : ℕ × ℕ := (ss.ssStart, ss.ssEnd)

/-- The segments at some nodes. -/
def segs (t : AvlTree SpaceSeg) (l : List Addr) : List (ℕ × ℕ) := l.map fun p => (t.data p).range

variable (t : AvlTree SpaceSeg)

@[simp] theorem segs_nil : segs t [] = [] := rfl

@[simp] theorem segs_cons (p : Addr) (l : List Addr) :
    segs t (p :: l) = (t.data p).range :: segs t l := rfl

@[simp] theorem segs_append (l₁ l₂ : List Addr) :
    segs t (l₁ ++ l₂) = segs t l₁ ++ segs t l₂ := map_append

theorem segs_congr {t t' : AvlTree SpaceSeg} {l : List Addr} (h : ∀ p ∈ l, t'.data p = t.data p) :
    segs t' l = segs t l := by
  refine map_congr_left fun p hp => ?_
  rw [h p hp]

theorem segs_release (p : Addr) (l : List Addr) : segs (t.release p) l = segs t l := rfl

theorem mem_segs_of_mem {t : AvlTree SpaceSeg} {l : List Addr} {p : Addr} (h : p ∈ l) :
    (t.data p).range ∈ segs t l := mem_map.mpr ⟨p, h, rfl⟩

/-! ## The comparison -/

/-- What the three answers of the comparison say about a segment that is not
empty. -/
theorem spaceMapSegCompare_cases (v ss : SpaceSeg) (hss : ss.ssStart < ss.ssEnd) :
    (spaceMapSegCompare v ss = -1 ∧ v.ssStart < ss.ssStart ∧ v.ssEnd ≤ ss.ssStart) ∨
    (spaceMapSegCompare v ss = 0 ∧ v.ssStart < ss.ssEnd ∧
      (ss.ssStart ≤ v.ssStart ∨ ss.ssStart < v.ssEnd)) ∨
    (spaceMapSegCompare v ss = 1 ∧ ss.ssEnd ≤ v.ssStart) := by
  simp only [spaceMapSegCompare]
  split_ifs <;> omega

/-- Along two separated segments the comparison does not rise. -/
theorem spaceMapSegCompare_fall {v ss ss' : SpaceSeg} (hss : ss.ssStart < ss.ssEnd)
    (hss' : ss'.ssStart < ss'.ssEnd) (hlt : ss.ssEnd < ss'.ssStart) :
    spaceMapSegCompare v ss' ≤ spaceMapSegCompare v ss := by
  have h := spaceMapSegCompare_cases v ss hss
  have h' := spaceMapSegCompare_cases v ss' hss'
  omega

/-! ## The tree of a space map -/

/-- A tree of separated segments, in a heap that is free from `heap` on. -/
structure SegTree (t : AvlTree SpaceSeg) (heap : ℕ) (s : BinTree Addr) : Prop where
  compar : t.avlCompar = spaceMapSegCompare
  valid : t.Valid s
  separated : Separated (segs t s.inorder)
  heap_pos : 0 < heap
  heap_even : 2 ∣ heap
  free : ∀ a, heap ≤ a → t.cells a = none

namespace SegTree

variable {t : AvlTree SpaceSeg} {heap : ℕ} {s : BinTree Addr} {p : ℕ}

theorem create : SegTree (avlCreate spaceMapSegCompare (fun _ => none) fun _ => ⟨0, 0⟩) 2 nil where
  compar := rfl
  valid := ⟨⟨rfl, ⟨false, trivial⟩, nodup_nil, by simp⟩, trivial, rfl⟩
  separated := separated_nil
  heap_pos := by decide
  heap_even := by decide
  free := fun _ _ => rfl

section

variable (h : SegTree t heap s)

include h

theorem fuel : s.inorder.length < t.avlNumnodes + 1 := by
  rw [h.valid.numnodes]
  omega

theorem ne_zero (hp : p ∈ s.inorder) : p ≠ 0 := (h.valid.linked.mem hp).1

theorem isSome (hp : p ∈ s.inorder) : (t.cells p).isSome := (h.valid.linked.mem hp).2

theorem object (hp : p ∈ s.inorder) : t.object p = some (t.data p) :=
  h.valid.linked.object hp

theorem nonempty (hp : p ∈ s.inorder) : (t.data p).ssStart < (t.data p).ssEnd :=
  h.separated.1 _ (mem_segs_of_mem hp)

theorem lt_heap (hp : p ∈ s.inorder) : p < heap := by
  by_contra hge
  have hsome := h.isSome hp
  rw [h.free p (not_lt.mp hge)] at hsome
  exact absurd hsome (by simp)

/-- The stack variable is at an odd address, so it is none of the nodes. -/
theorem stackTmp_notMem : stackTmp ∉ s.inorder := fun hm =>
  absurd (h.valid.linked.even _ hm) (by decide)

/-- **Searching for a range.**  The search returns a segment that meets the range,
or the slot between the segments below it and the segments above it. -/
theorem find (v : SpaceSeg) :
    (∃ p ∈ s.inorder, v.ssStart < (t.data p).ssEnd ∧
      ((t.data p).ssStart ≤ v.ssStart ∨ (t.data p).ssStart < v.ssEnd) ∧
      avlFind (t.avlNumnodes + 1) t v = some (p, 0)) ∨
    ∃ k, s = plug k nil ∧ avlFind (t.avlNumnodes + 1) t v = some (0, indexOf k) ∧
      (∀ p ∈ before k, (t.data p).ssEnd ≤ v.ssStart) ∧
      (∀ p ∈ after k, v.ssStart < (t.data p).ssStart ∧ v.ssEnd ≤ (t.data p).ssStart) := by
  have hcases : ∀ p ∈ s.inorder, _ := fun p hp => spaceMapSegCompare_cases v (t.data p)
    (h.nonempty hp)
  have hsign : ∀ p ∈ s.inorder, t.avlCompar v (t.data p) ∈ [-1, 0, 1] := by
    intro p hp
    rw [h.compar]
    rcases hcases p hp with ⟨e, -⟩ | ⟨e, -⟩ | ⟨e, -⟩ <;> rw [e] <;> decide
  have hfall : s.inorder.Pairwise fun p p' =>
      t.avlCompar v (t.data p') ≤ t.avlCompar v (t.data p) := by
    rw [h.compar]
    refine List.Pairwise.imp_of_mem ?_ (pairwise_map.mp h.separated.2)
    intro p q hp hq hlt
    exact spaceMapSegCompare_fall (h.nonempty hp) (h.nonempty hq) hlt
  rcases avlFind_spec hsign hfall h.fuel h.valid.linked with
    ⟨p, hp, h0, hrun⟩ | ⟨k, hk, hrun, hb, ha⟩
  · rw [h.compar] at h0
    have hp' := hcases p hp
    exact Or.inl ⟨p, hp, by omega, by omega, hrun⟩
  rw [h.compar] at hb ha
  have hmem : ∀ p, p ∈ before k ∨ p ∈ after k → p ∈ s.inorder := by
    intro p hp
    rw [hk, inorder_plug]
    simpa using hp
  refine Or.inr ⟨k, hk, hrun, fun p hp => ?_, fun p hp => ?_⟩
  · have hone := hb p hp
    have hp' := hcases p (hmem p (Or.inl hp))
    omega
  · have hone := ha p hp
    have hp' := hcases p (hmem p (Or.inr hp))
    omega

/-- The neighbours of a slot. -/
theorem nearest {k : Path Addr} (hk : s = plug k nil) :
    avlNearest (t.avlNumnodes + 1) t (indexOf k) avlBefore = some ((before k).getLastD 0) ∧
      avlNearest (t.avlNumnodes + 1) t (indexOf k) avlAfter = some ((after k).headD 0) := by
  subst hk
  obtain ⟨c, hat, -⟩ := h.valid.linked.at_slot
  have hnear := fun d => avlNearest_spec hat h.valid.linked.even d h.fuel.le
  constructor
  · rw [avlBefore, hnear false]
    simp [near, getLastD_eq_getLast?, ← head?_reverse]
  · rw [avlAfter, hnear true]
    rfl

/-! ## Changing the tree -/

/-- Changing a segment in place. -/
theorem modify {l₁ l₂ : List Addr} (hl : s.inorder = l₁ ++ p :: l₂) (f : SpaceSeg → SpaceSeg)
    (hsep : Separated (segs t l₁ ++ (f (t.data p)).range :: segs t l₂)) :
    t.modifyObject p f = some (t.setData p (f (t.data p))) ∧
      SegTree (t.setData p (f (t.data p))) heap s ∧
      segs (t.setData p (f (t.data p))) l₁ = segs t l₁ ∧
      segs (t.setData p (f (t.data p))) l₂ = segs t l₂ := by
  obtain ⟨cell, hcell⟩ := Option.isSome_iff_exists.mp (h.isSome (p := p) (by simp [hl]))
  have hn := h.valid.linked.nodup
  rw [hl, nodup_middle, nodup_cons, mem_append, not_or] at hn
  have hsegs : ∀ l, p ∉ l → segs (t.setData p (f (t.data p))) l = segs t l := fun l hpl =>
    segs_congr fun q hq => update_of_ne (ne_of_mem_of_not_mem hq hpl) ..
  have hp : (t.setData p (f (t.data p))).data p = f (t.data p) := update_self ..
  refine ⟨by simp [modifyObject, hcell], ⟨h.compar, h.valid.congr rfl rfl fun _ _ => rfl, ?_,
    h.heap_pos, h.heap_even, h.free⟩, hsegs _ hn.1.1, hsegs _ hn.1.2⟩
  rw [hl, segs_append, segs_cons, hsegs _ hn.1.1, hsegs _ hn.1.2, hp]
  exact hsep

/-- Freeing what is not in the tree. -/
theorem release (hp : p ∉ s.inorder) : SegTree (t.release p) heap s := by
  have hcells : ∀ a ∈ s.inorder, (t.release p).cells a = t.cells a := fun a ha =>
    release_of_ne (ne_of_mem_of_not_mem ha hp)
  refine ⟨h.compar, h.valid.congr rfl rfl hcells, h.separated, h.heap_pos, h.heap_even,
    fun a ha => ?_⟩
  by_cases he : a = p
  · subst he
    exact update_self ..
  · rw [release_of_ne he]
    exact h.free a ha

/-- Taking a segment out of the tree.  Its memory stays. -/
theorem remove {l₁ l₂ : List Addr} (hl : s.inorder = l₁ ++ p :: l₂) :
    ∃ t' s', avlRemove (t.avlNumnodes + 1) stackTmp t p = some t' ∧ SegTree t' heap s' ∧
      s'.inorder = l₁ ++ l₂ ∧ p ∉ s'.inorder ∧ t'.data = t.data ∧
        t'.object p = some (t.data p) := by
  obtain ⟨t', s', hrun, hvalid, hord, hcompar, hdata, hcells, halloc⟩ :=
    avlRemove_spec h.valid hl h.stackTmp_notMem (by decide) h.fuel.le
  have hp : p ∈ s.inorder := by simp [hl]
  have hpt : p ≠ stackTmp := fun e => h.stackTmp_notMem (e ▸ hp)
  have hnd := h.valid.linked.nodup
  rw [hl, nodup_middle, nodup_cons] at hnd
  refine ⟨t', s', hrun, ⟨hcompar.trans h.compar, hvalid, ?_, h.heap_pos, h.heap_even,
    fun a ha => ?_⟩,
    hord, hord ▸ hnd.1, hdata, ?_⟩
  · rw [hord, segs_congr (t := t) fun q _ => by rw [hdata]]
    have hsep := h.separated
    rw [hl, segs_append, segs_cons, separated_insert] at hsep
    rw [segs_append]
    exact hsep.1
  · have hpos := h.heap_pos
    have hev := h.heap_even
    have hat : a ≠ stackTmp := by
      rintro rfl
      rw [stackTmp] at ha
      have : heap = 1 := le_antisymm ha hpos
      rw [this] at hev
      exact absurd hev (by decide)
    rw [hcells a (fun hm => absurd (h.lt_heap hm) (not_lt.mpr ha)) hat]
    exact h.free a ha
  · obtain ⟨cell, hcell⟩ := Option.isSome_iff_exists.mp (halloc p hpt (h.isSome hp))
    simp [AvlTree.object, hcell, hdata]

end

/-- The heap with a new segment that is not yet in the tree. -/
def withSeg (t : AvlTree SpaceSeg) (heap : ℕ) (v : SpaceSeg) : AvlTree SpaceSeg :=
  (t.put heap ⟨0, 0, 0, false, 0⟩).setData heap v

theorem alloc (h : SegTree t heap s) (v : SpaceSeg) :
    SegTree (withSeg t heap v) (heap + 2) s ∧ heap ∉ s.inorder ∧
      ∀ l, heap ∉ l → segs (withSeg t heap v) l = segs t l := by
  have hnot : heap ∉ s.inorder := fun hm => lt_irrefl _ (h.lt_heap hm)
  have hsegs : ∀ l, heap ∉ l → segs (withSeg t heap v) l = segs t l := fun l hl =>
    segs_congr fun q hq => update_of_ne (ne_of_mem_of_not_mem hq hl) ..
  have hcells : ∀ a, a ≠ heap → (withSeg t heap v).cells a = t.cells a := fun a ha =>
    update_of_ne ha ..
  refine ⟨⟨h.compar, h.valid.congr rfl rfl fun a ha => hcells a (ne_of_mem_of_not_mem ha hnot), ?_,
    Nat.succ_pos _, ?_, fun a ha => ?_⟩, hnot, hsegs⟩
  · rw [hsegs _ hnot]
    exact h.separated
  · have := h.heap_even
    omega
  · have hlt : heap < a := by omega
    rw [hcells a hlt.ne']
    exact h.free a hlt.le

theorem insert_aux {t' : AvlTree SpaceSeg} {heap' : ℕ} {s' : BinTree Addr} {L : List (ℕ × ℕ)}
    (h : SegTree t heap' s) (hlt : p < heap') (hvalid : t'.Valid s')
    (hwithin : Within (fun a => a = p ∨ a ∈ s.inorder)
    { t with avlNumnodes := t.avlNumnodes + 1 } t')
    (hsegs : segs t s'.inorder = L) (hsep : Separated L) :
    SegTree t' heap' s' ∧ segs t' s'.inorder = L := by
  have hdata : t'.data = t.data := hwithin.data
  have hL : segs t' s'.inorder = L := by
    rw [← hsegs]
    exact segs_congr fun q _ => by rw [hdata]
  refine ⟨⟨hwithin.compar.trans h.compar, hvalid, hL ▸ hsep, h.heap_pos, h.heap_even,
    fun a ha => ?_⟩, hL⟩
  rw [hwithin.cells a ?_]
  · exact h.free a ha
  · rintro (rfl | hm)
    · omega
    · exact absurd (h.lt_heap hm) (not_lt.mpr ha)

/-- Linking a new segment into a slot. -/
theorem insert (h : SegTree t heap s) {k : Path Addr} (hk : s = plug k nil) (v : SpaceSeg)
    (hsep : Separated (segs t (before k) ++ v.range :: segs t (after k))) :
    ∃ t' s', avlInsert (t.avlNumnodes + 1) (withSeg t heap v) heap (indexOf k) = some t' ∧
      SegTree t' (heap + 2) s' ∧
      segs t' s'.inorder = segs t (before k) ++ v.range :: segs t (after k) := by
  subst hk
  obtain ⟨h₁, hnot, hsegs⟩ := h.alloc v
  have hsome : ((withSeg t heap v).cells heap).isSome := by simp [withSeg]
  obtain ⟨t', s', hrun, hvalid, hord, hwithin⟩ :=
    avlInsert_spec h₁.valid hnot h.heap_pos.ne' h.heap_even hsome h₁.fuel
  have hnot' : heap ∉ before k ∧ heap ∉ after k := by
    rw [inorder_plug] at hnot
    simpa using hnot
  refine ⟨t', s', hrun, h₁.insert_aux (by omega) hvalid hwithin ?_ hsep⟩
  rw [hord, segs_append, segs_cons, hsegs _ hnot'.1, hsegs _ hnot'.2]
  simp [withSeg]

/-- Linking a new segment behind another one. -/
theorem insertHere (h : SegTree t heap s) {l₁ l₂ : List Addr} (hl : s.inorder = l₁ ++ p :: l₂)
    {new : ℕ} (hnew : new ∉ s.inorder) (h0 : new ≠ 0) (he : 2 ∣ new) (hlt : new < heap)
    (hsome : (t.cells new).isSome)
    (hsep : Separated (segs t l₁ ++ (t.data p).range :: (t.data new).range :: segs t l₂)) :
    ∃ t' s', avlInsertHere (t.avlNumnodes + 1) t new p avlAfter = some t' ∧ SegTree t' heap s' ∧
      segs t' s'.inorder = segs t l₁ ++ (t.data p).range :: (t.data new).range :: segs t l₂ := by
  obtain ⟨t', s', hrun, hvalid, hord, hwithin⟩ :=
    avlInsertHere_spec h.valid hl hnew h0 he hsome h.fuel avlAfter
  have hord' : s'.inorder = l₁ ++ p :: new :: l₂ := hord
  refine ⟨t', s', hrun, h.insert_aux hlt hvalid hwithin ?_ hsep⟩
  rw [hord', segs_append, segs_cons, segs_cons]

end SegTree

end Polaris
