import Polaris.SpaceMap.SegTree
import Polaris.Avl.Destroy

/-!
# What the operations on a space map do

`SpaceMap.Rep sm A` says that the map `sm` stands for the set `A` of byte offsets:
its tree holds the maximal runs of `A`, `sm_space` is the size of `A`, and `A`
consists of whole units inside the map.

There is one theorem for each operation.  It says that the operation returns when
its range is aligned, lies inside the map and is disjoint from the set (or
contained in it), and which set the result stands for.

## Main definitions

* `SpaceMap.Rep`, `SpaceMap.Same`, `SpaceMap.Range`
-/

namespace Polaris

open BinTree AvlTree Function Finset

/-- The map `sm` stands for the set `A`. -/
structure SpaceMap.Rep (sm : SpaceMap) (A : Finset ℕ) : Prop where
  bound : sm.smStart + sm.smSize < 2 ^ 64
  tree : ∃ s, SegTree sm.smRoot sm.heap s ∧ cover (segs sm.smRoot s.inorder) = A
  inside : A ⊆ Ico sm.smStart (sm.smStart + sm.smSize)
  blocks : Blockwise (2 ^ sm.smShift) A
  space : sm.smSpace = A.card

/-- Everything but the set is the same. -/
structure SpaceMap.Same (sm sm' : SpaceMap) : Prop where
  start : sm'.smStart = sm.smStart
  size : sm'.smSize = sm.smSize
  shift : sm'.smShift = sm.smShift
  loaded : sm'.smLoaded = sm.smLoaded
  loading : sm'.smLoading = sm.smLoading
  ops : sm'.smOps = sm.smOps
  ppd : sm'.smPpd = sm.smPpd

theorem SpaceMap.Same.refl (sm : SpaceMap) : sm.Same sm := ⟨rfl, rfl, rfl, rfl, rfl, rfl, rfl⟩

variable {sm mdest : SpaceMap} {A B : Finset ℕ} {start size fin heap : ℕ} {s : BinTree Addr}
  {l : List (ℕ × ℕ)} {t : AvlTree SpaceSeg}

theorem SpaceMap.Same.trans {sm' sm'' : SpaceMap} (h : sm.Same sm') (h' : sm'.Same sm'') :
    sm.Same sm'' :=
  ⟨h'.start.trans h.start, h'.size.trans h.size, h'.shift.trans h.shift, h'.loaded.trans h.loaded,
    h'.loading.trans h.loading, h'.ops.trans h.ops, h'.ppd.trans h.ppd⟩

/-- A range `a ≤ x < a + n` of whole units in a map from `start` on. -/
structure RangeIn (start size shift a n : ℕ) : Prop where
  pos : 0 < n
  lower : start ≤ a
  upper : a + n ≤ start + size
  alignStart : 2 ^ shift ∣ a
  alignSize : 2 ^ shift ∣ n

/-- A range that an operation may be called with. -/
abbrev SpaceMap.Range (sm : SpaceMap) (start size : ℕ) : Prop :=
  RangeIn sm.smStart sm.smSize sm.smShift start size

theorem SpaceMap.Range.of_same {sm' : SpaceMap} (h : sm.Range start size) (hs : sm.Same sm') :
    sm'.Range start size := by
  rw [SpaceMap.Range, hs.start, hs.size, hs.shift]
  exact h

theorem SpaceMap.Range.blockwise (h : sm.Range start size) :
    Blockwise (2 ^ sm.smShift) (Ico start (start + size)) :=
  Blockwise.Ico (Nat.two_pow_pos _) h.alignStart (Nat.dvd_add h.alignStart h.alignSize)

theorem SpaceMap.Range.subset (h : sm.Range start size) :
    Ico start (start + size) ⊆ Ico sm.smStart (sm.smStart + sm.smSize) :=
  Ico_subset_Ico h.lower h.upper

theorem SpaceMap.Rep.u64_end (h : sm.Rep A) (hr : sm.Range start size) :
    u64 (start + size) = start + size :=
  u64_of_lt (hr.upper.trans_lt h.bound)

/-! ## Adding a range -/

namespace SegTree

variable (h : SegTree t heap s) {l : List Addr} (hl : ∀ p ∈ l, p ∈ s.inorder)
  (hsep : Separated (segs t l))

include h hl hsep

/-- The test for a segment that ends where the range starts. -/
theorem mergeBefore (hle : ∀ p ∈ l, (t.data p).ssEnd ≤ start) :
    ∃ b, (if l.getLastD 0 ≠ 0 then (t.object (l.getLastD 0)).map fun ss =>
        decide (ss.ssEnd = start) else some false) = some b ∧
      (b = true → ∃ l' p, l = l' ++ [p] ∧ l.getLastD 0 = p ∧ (t.data p).ssEnd = start) ∧
      (b = false → ∀ x ∈ segs t l, x.2 < start) := by
  rcases List.eq_nil_or_concat l with rfl | ⟨l', p, rfl⟩
  · exact ⟨false, by simp, by simp, by simp⟩
  rw [List.concat_eq_append] at hl hsep hle ⊢
  have hp : p ∈ s.inorder := hl p (by simp)
  have hlast : (l' ++ [p]).getLastD 0 = p := by simp
  rw [hlast, if_pos (h.ne_zero hp), h.object hp]
  refine ⟨decide ((t.data p).ssEnd = start), rfl, fun hb => ⟨l', p, rfl, rfl, by simpa using hb⟩,
    fun hb => ?_⟩
  have hne : (t.data p).ssEnd ≠ start := by simpa using hb
  have hlt := lt_of_le_of_ne (hle p (by simp)) hne
  rw [segs_append] at hsep ⊢
  exact hsep.lt_of_last hlt

/-- The test for a segment that starts where the range ends. -/
theorem mergeAfter (hle : ∀ p ∈ l, fin ≤ (t.data p).ssStart) :
    ∃ b, (if l.headD 0 ≠ 0 then (t.object (l.headD 0)).map fun ss =>
        decide (ss.ssStart = fin) else some false) = some b ∧
      (b = true → ∃ p l', l = p :: l' ∧ l.headD 0 = p ∧ (t.data p).ssStart = fin) ∧
      (b = false → ∀ y ∈ segs t l, fin < y.1) := by
  cases l with
  | nil => exact ⟨false, by simp, by simp, by simp⟩
  | cons p l =>
    have hp : p ∈ s.inorder := hl p (by simp)
    rw [List.headD_cons, if_pos (h.ne_zero hp), h.object hp]
    refine ⟨decide ((t.data p).ssStart = fin), rfl,
      fun hb => ⟨p, l, rfl, rfl, by simpa using hb⟩, fun hb => ?_⟩
    have hne : (t.data p).ssStart ≠ fin := by simpa using hb
    exact hsep.lt_of_head (lt_of_le_of_ne (hle p (by simp)) hne.symm)

end SegTree

/-- Joining a range with the segments it touches. -/
theorem spaceMapJoin_spec (h : SegTree sm.smRoot sm.heap s) {k : Path Addr} (hk : s = plug k nil)
    (hlt : start < fin) {mb ma : Bool}
    (hmb : mb = true → ∃ l p, before k = l ++ [p] ∧ (before k).getLastD 0 = p ∧
      (sm.smRoot.data p).ssEnd = start)
    (hnb : mb = false → ∀ x ∈ segs sm.smRoot (before k), x.2 < start)
    (hma : ma = true → ∃ q l, after k = q :: l ∧ (after k).headD 0 = q ∧
      (sm.smRoot.data q).ssStart = fin) (hna : ma = false →
      ∀ y ∈ segs sm.smRoot (after k), fin < y.1) :
    ∃ t' heap' s', spaceMapJoin sm start fin (indexOf k) ((before k).getLastD 0)
        ((after k).headD 0) mb ma = some { sm with smRoot := t', heap := heap' } ∧
      SegTree t' heap' s' ∧
      cover (segs t' s'.inorder) = cover (segs sm.smRoot s.inorder) ∪ Ico start fin := by
  have hin : s.inorder = before k ++ after k := by simp [hk, inorder_plug]
  have hsep := h.separated
  cases mb with
  | false =>
    have hnb := hnb rfl
    cases ma with
    | false =>
      rw [hin, segs_append] at hsep
      obtain ⟨t', s', hrun, htree, hsegs⟩ := h.insert hk ⟨start, fin⟩
        (separated_insert.mpr ⟨hsep, hlt, hnb, hna rfl⟩)
      refine ⟨t', sm.heap + 2, s', bind_of_some hrun rfl, htree, ?_⟩
      rw [hsegs, hin]
      ext x
      simp [SpaceSeg.range]
      tauto
    | true =>
      obtain ⟨q, l, hl, hq, hstart⟩ := hma rfl
      rw [hl] at hin
      have hne := h.nonempty (p := q) (by simp [hin])
      rw [hin, segs_append, segs_cons, separated_insert] at hsep
      obtain ⟨hrun, htree, hs₁, hs₂⟩ := h.modify hin (fun ss => { ss with ssStart := start })
        (separated_insert.mpr ⟨hsep.1, by simp [SpaceSeg.range]; omega, hnb, hsep.2.2.2⟩)
      refine ⟨_, sm.heap, s, ?_, htree, ?_⟩
      · rw [hq]
        exact bind_of_some hrun rfl
      · rw [hin, segs_append, segs_cons, hs₁, hs₂]
        ext x
        simp [SpaceSeg.range]
        grind
  | true =>
    obtain ⟨l, p, hl, hp, hend⟩ := hmb rfl
    rw [hl] at hin
    cases ma with
    | false =>
      have hin' : s.inorder = l ++ p :: after k := by simp [hin]
      have hne := h.nonempty (p := p) (by simp [hin])
      rw [hin', segs_append, segs_cons, separated_insert] at hsep
      obtain ⟨hrun, htree, hs₁, hs₂⟩ := h.modify hin' (fun ss => { ss with ssEnd := fin })
        (separated_insert.mpr ⟨hsep.1, by simp [SpaceSeg.range]; omega, hsep.2.2.1, hna rfl⟩)
      refine ⟨_, sm.heap, s, ?_, htree, ?_⟩
      · rw [hp]
        exact bind_of_some hrun rfl
      · rw [hin', segs_append, segs_cons, hs₁, hs₂]
        ext x
        simp [SpaceSeg.range]
        grind
    | true =>
      obtain ⟨q, l', hl', hq, hstart⟩ := hma rfl
      rw [hl'] at hin
      have hin' : s.inorder = l ++ p :: q :: l' := by simp [hin]
      have hnp := h.nonempty (p := p) (by simp [hin])
      have hnq := h.nonempty (p := q) (by simp [hin])
      rw [hin', segs_append, segs_cons, segs_cons, separated_insert, separated_insert] at hsep
      obtain ⟨⟨hsep, -, -, hqa⟩, -, hpb, -⟩ := hsep
      obtain ⟨t₁, s₁, hrun₁, htree₁, hord₁, hnot, hdata₁, hobj₁⟩ := h.remove hin'
      have hsegs₁ : ∀ l, segs t₁ l = segs sm.smRoot l := fun l =>
        segs_congr fun r _ => by rw [hdata₁]
      obtain ⟨hrun₂, htree₂, hs₁, hs₂⟩ := htree₁.modify hord₁
        (fun ss => { ss with ssStart := (sm.smRoot.data p).ssStart }) (by
          rw [hsegs₁, hsegs₁, hdata₁]
          refine separated_insert.mpr ⟨hsep, ?_, hpb, hqa⟩
          simp only [SpaceSeg.range]
          omega)
      refine ⟨_, sm.heap, s₁, ?_, htree₂.release hnot, ?_⟩
      · rw [hp, hq]
        exact bind_of_some hrun₁ (bind_of_some hobj₁ (bind_of_some hrun₂ rfl))
      · rw [segs_release, hord₁, hin', segs_append, segs_cons, hs₁, hs₂, hsegs₁, hsegs₁]
        ext x
        simp [SpaceSeg.range, hdata₁]
        grind

/-- **`space_map_add`.** -/
theorem spaceMapAdd_spec (h : sm.Rep A) (hr : sm.Range start size)
    (hd : Disjoint A (Ico start (start + size))) :
    ∃ sm', spaceMapAdd sm start size = some sm' ∧
      sm'.Rep (A ∪ Ico start (start + size)) ∧ sm.Same sm' := by
  obtain ⟨s, htree, hcover⟩ := h.tree
  have hbound := h.bound
  have hupper := hr.upper
  have hpos := hr.pos
  have hfin := h.u64_end hr
  have hsub : A ∪ Ico start (start + size) ⊆
      Ico sm.smStart (sm.smStart + sm.smSize) := union_subset h.inside hr.subset
  have hcard : (A ∪ Ico start (start + size)).card = sm.smSpace + size := by
    rw [card_union_of_disjoint hd, ← h.space, Nat.card_Ico, Nat.add_sub_cancel_left]
  have hroom : sm.smSpace + size ≤ sm.smSize := by
    have := card_le_card hsub
    rw [hcard, Nat.card_Ico] at this
    omega
  have hspace : u64 (sm.smSpace + size) = sm.smSpace + size := u64_of_lt (by omega)
  -- no segment meets the range, so the search reports a slot
  have hno : ∀ p ∈ s.inorder, ∀ x, start ≤ x → x < start + size →
      (sm.smRoot.data p).ssStart ≤ x → (sm.smRoot.data p).ssEnd ≤ x := by
    intro p hp x h1 h2 h3
    by_contra hlt
    refine disjoint_left.mp hd ?_ (mem_Ico.mpr ⟨h1, h2⟩)
    rw [← hcover]
    exact mem_cover.mpr ⟨_, mem_segs_of_mem hp, h3, not_le.mp hlt⟩
  obtain ⟨k, hk, hfind, hb, ha⟩ : ∃ k, s = plug k nil ∧
      avlFind sm.fuel sm.smRoot ⟨start, start + size⟩ = some (0, indexOf k) ∧
      (∀ p ∈ before k, (sm.smRoot.data p).ssEnd ≤ start) ∧
      (∀ p ∈ after k, start < (sm.smRoot.data p).ssStart ∧
        start + size ≤ (sm.smRoot.data p).ssStart) := by
    rcases htree.find ⟨start, start + size⟩ with ⟨p, hp, h1, h2, -⟩ | hslot
    · have hne := htree.nonempty hp
      have hx := hno p hp (max start (sm.smRoot.data p).ssStart) (by omega)
      simp only at h1 h2
      omega
    · exact hslot
  have hin : s.inorder = before k ++ after k := by simp [hk, inorder_plug]
  have hsep := htree.separated
  rw [hin, segs_append] at hsep
  obtain ⟨mb, hmb, hmb1, hmb0⟩ := htree.mergeBefore (l := before k)
    (by simp [hin]; tauto) hsep.left hb
  obtain ⟨ma, hma, hma1, hma0⟩ := htree.mergeAfter (l := after k) (by simp [hin]; tauto) hsep.right
    fun p hp => (ha p hp).2
  obtain ⟨t', heap', s', hjoin, htree', hcover'⟩ :=
    spaceMapJoin_spec htree hk (by omega : start < start + size) hmb1 hmb0 hma1 hma0
  rw [hcover] at hcover'
  obtain ⟨hnb, hna⟩ := htree.nearest hk
  refine ⟨{ sm with smRoot := t', heap := heap', smSpace := sm.smSpace + size }, ?_,
    ⟨hbound, ⟨s', htree', hcover'⟩, hsub, h.blocks.union hr.blockwise, hcard.symm⟩,
    ⟨rfl, rfl, rfl, rfl, rfl, rfl, rfl⟩⟩
  have hend : start + size ≤ u64 (sm.smStart + sm.smSize) := by rw [u64_of_lt hbound]; exact hupper
  simp only [spaceMapAdd, hfin, hspace]
  refine bind_of_some (guard_eq_some hpos.ne') (bind_of_some (guard_eq_some hr.lower) ?_)
  refine bind_of_some (guard_eq_some hend) (bind_of_some (guard_eq_some hroom) ?_)
  refine bind_of_some (guard_eq_some ((p2phase_eq_zero_iff ..).mpr hr.alignStart)) ?_
  refine bind_of_some (guard_eq_some ((p2phase_eq_zero_iff ..).mpr hr.alignSize)) ?_
  refine bind_of_some hfind (bind_of_some (guard_eq_some rfl) ?_)
  refine bind_of_some hnb (bind_of_some hna (bind_of_some hmb (bind_of_some hma ?_)))
  exact bind_of_some hjoin (by simp only [hspace]; rfl)

/-! ## Removing a range -/

/-- The other segments of a separated list stay clear of one of them. -/
theorem Separated.cover_sides {l₁ l₂ : List (ℕ × ℕ)} {a b : ℕ}
    (h : Separated (l₁ ++ (a, b) :: l₂)) :
    (∀ x ∈ cover l₁, x < a) ∧ ∀ x ∈ cover l₂, b < x := by
  obtain ⟨-, -, hb, ha⟩ := separated_insert.mp h
  constructor
  · intro x hx
    obtain ⟨s, hs, -, h2⟩ := mem_cover.mp hx
    have := hb s hs
    omega
  · intro x hx
    obtain ⟨s, hs, h1, -⟩ := mem_cover.mp hx
    have := ha s hs
    omega

/-- Taking a range out of the segment that contains it. -/
theorem spaceMapCut_spec (h : SegTree sm.smRoot sm.heap s) {p : Addr} (hp : p ∈ s.inorder)
    (hlt : start < fin) (hstart : (sm.smRoot.data p).ssStart ≤ start)
    (hend : fin ≤ (sm.smRoot.data p).ssEnd) :
    ∃ t' heap' s', spaceMapCut sm start fin p (decide ((sm.smRoot.data p).ssStart ≠ start))
        (decide ((sm.smRoot.data p).ssEnd ≠ fin)) = some { sm with smRoot := t', heap := heap' } ∧
      SegTree t' heap' s' ∧
      cover (segs t' s'.inorder) = cover (segs sm.smRoot s.inorder) \ Ico start fin := by
  obtain ⟨l₁, l₂, hl⟩ := List.append_of_mem hp
  have hsep := h.separated
  rw [hl, segs_append, segs_cons] at hsep
  obtain ⟨hbelow, habove⟩ := hsep.cover_sides
  obtain ⟨hsep, -, hb, ha⟩ := separated_insert.mp hsep
  simp only [SpaceSeg.range] at hb ha
  by_cases hL : (sm.smRoot.data p).ssStart = start
  · by_cases hR : (sm.smRoot.data p).ssEnd = fin
    · -- the whole segment goes
      obtain ⟨t₁, s₁, hrun₁, htree₁, hord₁, hnot, hdata₁, -⟩ := h.remove hl
      refine ⟨_, sm.heap, s₁, ?_, htree₁.release hnot, ?_⟩
      · simp only [spaceMapCut, hL, hR, ne_eq, not_true_eq_false, decide_false, Bool.and_self,
          Bool.false_eq_true, if_false]
        exact bind_of_some hrun₁ rfl
      · rw [segs_release, hord₁, hl, segs_congr (t := sm.smRoot) fun q _ => by rw [hdata₁]]
        ext x
        simp [SpaceSeg.range]
        grind
    · obtain ⟨hrun, htree, hs₁, hs₂⟩ := h.modify hl (fun ss => { ss with ssStart := fin })
        (separated_insert.mpr ⟨hsep, by simp [SpaceSeg.range]; omega,
          fun y hy => by have := hb y hy; simp [SpaceSeg.range]; omega, ha⟩)
      refine ⟨_, sm.heap, s, ?_, htree, ?_⟩
      · simp only [spaceMapCut, hL, hR, ne_eq, not_true_eq_false, decide_false, Bool.false_and,
          Bool.false_eq_true, if_false, not_false_eq_true, decide_true, if_true]
        exact bind_of_some hrun rfl
      · rw [hl, segs_append, segs_cons, hs₁, hs₂]
        ext x
        simp [SpaceSeg.range]
        grind
  by_cases hR : (sm.smRoot.data p).ssEnd = fin
  · obtain ⟨hrun, htree, hs₁, hs₂⟩ := h.modify hl (fun ss => { ss with ssEnd := start })
      (separated_insert.mpr ⟨hsep, by simp [SpaceSeg.range]; omega, hb,
        fun y hy => by have := ha y hy; simp [SpaceSeg.range]; omega⟩)
    refine ⟨_, sm.heap, s, ?_, htree, ?_⟩
    · simp only [spaceMapCut, hL, hR, ne_eq, not_true_eq_false, decide_false, Bool.and_false,
        Bool.false_eq_true, if_false, not_false_eq_true, decide_true, if_true]
      exact bind_of_some hrun rfl
    · rw [hl, segs_append, segs_cons, hs₁, hs₂]
      ext x
      simp [SpaceSeg.range]
      grind
  -- both ends stay, and the right one becomes a segment of its own
  obtain ⟨h₁, hnot, hsegs₁⟩ := h.alloc ⟨fin, (sm.smRoot.data p).ssEnd⟩
  have hpn : p ≠ sm.heap := ne_of_mem_of_not_mem hp hnot
  have hn₁ : sm.heap ∉ l₁ ∧ sm.heap ∉ l₂ := by
    rw [hl] at hnot
    simp only [List.mem_append, List.mem_cons, not_or] at hnot
    exact ⟨hnot.1, hnot.2.2⟩
  set t₁ := SegTree.withSeg sm.smRoot sm.heap ⟨fin, (sm.smRoot.data p).ssEnd⟩ with ht₁
  have hdp : t₁.data p = sm.smRoot.data p := update_of_ne hpn ..
  have hdn : t₁.data sm.heap = ⟨fin, (sm.smRoot.data p).ssEnd⟩ := update_self ..
  obtain ⟨hrun, htree, hs₁, hs₂⟩ := h₁.modify hl (fun ss => { ss with ssEnd := start }) (by
    rw [hsegs₁ _ hn₁.1, hsegs₁ _ hn₁.2, hdp]
    exact separated_insert.mpr ⟨hsep, by simp [SpaceSeg.range]; omega, hb,
      fun y hy => by have := ha y hy; simp [SpaceSeg.range]; omega⟩)
  set t₂ := t₁.setData p { t₁.data p with ssEnd := start } with ht₂
  have hd₂p : t₂.data p = { sm.smRoot.data p with ssEnd := start } := by
    rw [ht₂, setData_data, update_self, hdp]
  have hd₂n : t₂.data sm.heap = ⟨fin, (sm.smRoot.data p).ssEnd⟩ := by
    rw [ht₂, setData_data, update_of_ne hpn.symm, hdn]
  have hsome : (t₂.cells sm.heap).isSome := by simp [ht₂, ht₁, SegTree.withSeg]
  obtain ⟨t', s', hrun', htree', hsegs'⟩ := htree.insertHere hl hnot h.heap_pos.ne' h.heap_even
    (by omega) hsome (by
      rw [hs₁, hs₂, hsegs₁ _ hn₁.1, hsegs₁ _ hn₁.2, hd₂p, hd₂n]
      refine separated_insert.mpr ⟨separated_insert.mpr ⟨hsep, ?_, ?_, ha⟩, ?_, hb, ?_⟩
      · simp only [SpaceSeg.range]; omega
      · intro y hy; have := hb y hy; simp only [SpaceSeg.range]; omega
      · simp only [SpaceSeg.range]; omega
      · intro y hy
        simp only [SpaceSeg.range, List.mem_cons] at hy ⊢
        rcases hy with rfl | hy
        · exact hlt
        · have := ha y hy; omega)
  refine ⟨t', sm.heap + 2, s', ?_, htree', ?_⟩
  · simp only [spaceMapCut, hL, hR, ne_eq, not_false_eq_true, decide_true, Bool.and_self, if_true]
    exact bind_of_some (h.object hp) (bind_of_some hrun (bind_of_some hrun' rfl))
  · rw [hsegs', hs₁, hs₂, hsegs₁ _ hn₁.1, hsegs₁ _ hn₁.2, hd₂p, hd₂n, hl]
    ext x
    simp [SpaceSeg.range]
    grind

/-- The search for a range decides whether the range lies in the set: then the
segment it returns contains the range. -/
theorem SegTree.find_range (h : SegTree t heap s) (hlt : start < fin) :
    (∃ p ∈ s.inorder, avlFind (t.avlNumnodes + 1) t ⟨start, fin⟩ = some (p, 0) ∧
      (Ico start fin ⊆ cover (segs t s.inorder) ↔
        (t.data p).ssStart ≤ start ∧ fin ≤ (t.data p).ssEnd)) ∨
    ∃ index, avlFind (t.avlNumnodes + 1) t ⟨start, fin⟩ = some (0, index) ∧
      ¬ Ico start fin ⊆ cover (segs t s.inorder) := by
  rcases h.find ⟨start, fin⟩ with ⟨p, hp, h1, h2, hrun⟩ | ⟨k, hk, hrun, hb, ha⟩
  · refine Or.inl ⟨p, hp, hrun, ?_⟩
    rw [h.separated.subset_cover_iff hlt]
    constructor
    · rintro ⟨s', hs', h3, h4⟩
      have hmem := mem_segs_of_mem (t := t) hp
      simp only at h1 h2
      rcases h.separated.trichotomy hmem hs' with rfl | hlt' | hlt'
      · exact ⟨h3, h4⟩
      · simp only [SpaceSeg.range] at hlt'; omega
      · simp only [SpaceSeg.range] at hlt'; omega
    · rintro ⟨h3, h4⟩
      exact ⟨_, mem_segs_of_mem hp, h3, h4⟩
  · refine Or.inr ⟨_, hrun, ?_⟩
    rw [h.separated.subset_cover_iff hlt]
    rintro ⟨s', hs', h3, h4⟩
    obtain ⟨p, hp, rfl⟩ := List.mem_map.mp hs'
    rw [hk, inorder_plug, inorder_nil, List.append_nil, List.mem_append] at hp
    simp only [SpaceSeg.range] at h3 h4
    rcases hp with hp | hp
    · have := hb p hp; simp only at this; omega
    · have := ha p hp; simp only at this; omega

/-- **`space_map_remove`.** -/
theorem spaceMapRemove_spec (h : sm.Rep A) (hr : sm.Range start size)
    (hsub : Ico start (start + size) ⊆ A) :
    ∃ sm', spaceMapRemove sm start size = some sm' ∧
      sm'.Rep (A \ Ico start (start + size)) ∧ sm.Same sm' := by
  obtain ⟨s, htree, hcover⟩ := h.tree
  have hbound := h.bound
  have hpos := hr.pos
  have hfin := h.u64_end hr
  have hlt : start < start + size := by omega
  obtain ⟨p, hp, hfind, hstart, hend⟩ : ∃ p ∈ s.inorder,
      avlFind sm.fuel sm.smRoot ⟨start, start + size⟩ = some (p, 0) ∧
      (sm.smRoot.data p).ssStart ≤ start ∧ start + size ≤ (sm.smRoot.data p).ssEnd := by
    rcases htree.find_range hlt with ⟨p, hp, hfind, hiff⟩ | ⟨_, -, hno⟩
    · exact ⟨p, hp, hfind, hiff.mp (hcover ▸ hsub)⟩
    · exact absurd (hcover ▸ hsub) hno
  obtain ⟨t', heap', s', hcut, htree', hcover'⟩ := spaceMapCut_spec htree hp hlt hstart hend
  rw [hcover] at hcover'
  have hcard : (A \ Ico start (start + size)).card = sm.smSpace - size := by
    rw [card_sdiff_of_subset hsub, ← h.space, Nat.card_Ico, Nat.add_sub_cancel_left]
  have hle : size ≤ sm.smSpace ∧ sm.smSpace ≤ sm.smSize := by
    have h1 := card_le_card hsub
    have h2 := card_le_card h.inside
    rw [Nat.card_Ico] at h1 h2
    rw [h.space]
    omega
  have hspace : u64Sub sm.smSpace size = sm.smSpace - size := u64Sub_of_le hle.1 (by omega)
  refine ⟨{ sm with smRoot := t', heap := heap', smSpace := sm.smSpace - size }, ?_,
    ⟨hbound, ⟨s', htree', hcover'⟩, sdiff_subset.trans h.inside,
      h.blocks.sdiff hr.blockwise, hcard.symm⟩, ⟨rfl, rfl, rfl, rfl, rfl, rfl, rfl⟩⟩
  simp only [spaceMapRemove, hfin, hspace]
  refine bind_of_some (guard_eq_some hpos.ne') ?_
  refine bind_of_some (guard_eq_some ((p2phase_eq_zero_iff ..).mpr hr.alignStart)) ?_
  refine bind_of_some (guard_eq_some ((p2phase_eq_zero_iff ..).mpr hr.alignSize)) ?_
  refine bind_of_some hfind (bind_of_some (guard_eq_some (htree.ne_zero hp)) ?_)
  refine bind_of_some (htree.object hp) (bind_of_some (guard_eq_some hstart) ?_)
  refine bind_of_some (guard_eq_some hend) (bind_of_some (guard_eq_some (by omega)) ?_)
  exact bind_of_some hcut (by simp only [hspace]; rfl)

/-- **`space_map_contains`.** -/
theorem spaceMapContains_spec (h : sm.Rep A) (hpos : 0 < size) (hfit : start + size < 2 ^ 64)
    (hstart : 2 ^ sm.smShift ∣ start) (hsize : 2 ^ sm.smShift ∣ size) :
    spaceMapContains sm start size = some (decide (Ico start (start + size) ⊆ A)) := by
  obtain ⟨s, htree, rfl⟩ := h.tree
  have hlt : start < start + size := by omega
  simp only [spaceMapContains, u64_of_lt hfit]
  refine bind_of_some (guard_eq_some hpos.ne') ?_
  refine bind_of_some (guard_eq_some ((p2phase_eq_zero_iff ..).mpr hstart)) ?_
  refine bind_of_some (guard_eq_some ((p2phase_eq_zero_iff ..).mpr hsize)) ?_
  rcases htree.find_range hlt with ⟨p, hp, hfind, hiff⟩ | ⟨_, hfind, hno⟩
  · refine bind_of_some hfind ?_
    simp only [ne_eq, htree.ne_zero hp, not_false_eq_true, if_true, htree.object hp,
      Option.map_some, ge_iff_le, decide_eq_decide.mpr hiff.symm]
  · refine bind_of_some hfind ?_
    simp [hno]

/-! ## Excising a range -/

/-- The segment that a round of `space_map_excise` picks. -/
theorem SegTree.excise_pick (h : SegTree t heap s) (start fin : ℕ) :
    ∃ found index ss, avlFind (t.avlNumnodes + 1) t ⟨start, start⟩ = some (found, index) ∧
      (if found = 0 then avlNearest (t.avlNumnodes + 1) t index avlAfter else some found)
        = some ss ∧
      (ss = 0 → Disjoint (cover (segs t s.inorder)) (Ico start fin)) ∧
      (ss ≠ 0 → ss ∈ s.inorder ∧ start < (t.data ss).ssEnd ∧
        (fin ≤ (t.data ss).ssStart → Disjoint (cover (segs t s.inorder)) (Ico start fin))) := by
  rcases h.find ⟨start, start⟩ with ⟨p, hp, h1, h2, hrun⟩ | ⟨k, hk, hrun, hb, ha⟩
  · refine ⟨p, 0, p, hrun, if_neg (h.ne_zero hp), fun e => absurd e (h.ne_zero hp),
      fun _ => ⟨hp, h1, fun hfin => ?_⟩⟩
    simp only at h2
    rw [Ico_eq_empty (by omega)]
    exact disjoint_empty_right _
  have hin : s.inorder = before k ++ after k := by simp [hk, inorder_plug]
  -- a segment is below the range, or it starts no earlier than the first one above
  have hdis : (∀ p ∈ after k, fin ≤ (t.data p).ssStart) →
      Disjoint (cover (segs t s.inorder)) (Ico start fin) := by
    intro hall
    rw [disjoint_left]
    intro x hx hx'
    rw [mem_Ico] at hx'
    obtain ⟨r, hr, h1, h2⟩ := mem_cover.mp hx
    obtain ⟨p, hp, rfl⟩ := List.mem_map.mp hr
    simp only [SpaceSeg.range] at h1 h2
    rw [hin, List.mem_append] at hp
    rcases hp with hp | hp
    · have := hb p hp; simp only at this; omega
    · have := hall p hp; omega
  refine ⟨0, indexOf k, (after k).headD 0, hrun, (if_pos rfl).trans (h.nearest hk).2, ?_, ?_⟩
  · intro h0
    refine hdis fun p hp => ?_
    cases haf : after k with
    | nil => simp [haf] at hp
    | cons q l =>
      rw [haf, List.headD_cons] at h0
      exact absurd h0 (h.ne_zero (by simp [hin, haf]))
  · intro h0
    cases haf : after k with
    | nil => simp [haf] at h0
    | cons q l =>
      rw [List.headD_cons]
      have hq : q ∈ s.inorder := by simp [hin, haf]
      have hlt := (ha q (by simp [haf])).1
      have hne := h.nonempty hq
      refine ⟨hq, hlt.trans hne, fun hfin => hdis ?_⟩
      have hsep := h.separated
      rw [hin, haf, segs_append] at hsep
      intro p hp
      rw [haf] at hp
      rcases List.mem_cons.mp hp with rfl | hp
      · exact hfin
      · have := (List.pairwise_cons.mp hsep.right.2).1 _ (mem_segs_of_mem hp)
        simp only [SpaceSeg.range] at this
        omega

/-- **The loop of `space_map_excise`.**  Every round takes a whole run out of what
the range has in common with the set. -/
theorem spaceMapExciseLoop_spec {n : ℕ} (h : sm.Rep A) (hr : sm.Range start size)
    (hfin : fin = start + size) (hn : (ends (A ∩ Ico start fin)).card < n) :
    ∃ sm', spaceMapExciseLoop n sm start fin = some sm' ∧ sm'.Rep (A \ Ico start fin) ∧
      sm.Same sm' := by
  induction n generalizing sm A with
  | zero => omega
  | succ n ih =>
    obtain ⟨s, htree, hcover⟩ := h.tree
    have hbound := h.bound
    have hpos := hr.pos
    have hlow := hr.lower
    have hup := hr.upper
    obtain ⟨found, index, ss, hfind, hss, h0, h1⟩ := htree.excise_pick start fin
    rw [hcover] at h0 h1
    have hdone : Disjoint A (Ico start fin) → sm.Rep (A \ Ico start fin) := by
      intro hd
      rw [sdiff_eq_self_of_disjoint hd]
      exact h
    by_cases hz : ss = 0
    · refine ⟨sm, ?_, hdone (h0 hz), SpaceMap.Same.refl sm⟩
      refine bind_of_some hfind (bind_of_some hss ?_)
      rw [if_pos hz]
      rfl
    obtain ⟨hmem, hmeet, hstop⟩ := h1 hz
    by_cases hge : fin ≤ (sm.smRoot.data ss).ssStart
    · refine ⟨sm, ?_, hdone (hstop hge), SpaceMap.Same.refl sm⟩
      refine bind_of_some hfind (bind_of_some hss ?_)
      rw [if_neg hz]
      refine bind_of_some (htree.object hmem) ?_
      rw [if_pos hge]
      rfl
    -- a segment that meets the range
    set a := max (sm.smRoot.data ss).ssStart start with hadef
    set b := min (sm.smRoot.data ss).ssEnd fin with hbdef
    have hne := htree.nonempty hmem
    have hseg := mem_segs_of_mem (t := sm.smRoot) hmem
    have hblocks := h.blocks
    rw [← hcover] at hblocks
    obtain ⟨hd1, hd2⟩ := htree.separated.dvd hblocks hseg
    simp only [SpaceSeg.range] at hd1 hd2
    have hda : 2 ^ sm.smShift ∣ a := max_rec' _ hd1 hr.alignStart
    have hdb : 2 ^ sm.smShift ∣ b :=
      min_rec' _ hd2 (hfin ▸ Nat.dvd_add hr.alignStart hr.alignSize)
    have hab : a < b := by omega
    have hsubA : Ico a b ⊆ A := by
      rw [← hcover, htree.separated.subset_cover_iff hab]
      exact ⟨_, hseg, by simp only [SpaceSeg.range]; omega, by simp only [SpaceSeg.range]; omega⟩
    have hsize : u64Sub b a = b - a := u64Sub_of_le hab.le (by omega)
    have hadd : a + (b - a) = b := by omega
    have hrange : sm.Range a (b - a) :=
      ⟨by omega, by omega, by omega, hda, Nat.dvd_sub hdb hda⟩
    obtain ⟨sm₁, hrun₁, hrep₁, hsame₁⟩ := spaceMapRemove_spec h hrange (hadd.symm ▸ hsubA)
    rw [hadd] at hrep₁
    have hrest : (A \ Ico a b) ∩ Ico start fin =
        (A ∩ Ico start fin) \ Ico a b := by
      ext x
      simp only [mem_inter, mem_sdiff]
      tauto
    have hfewer : (ends ((A ∩ Ico start fin) \ Ico a b)).card <
        (ends (A ∩ Ico start fin)).card := by
      refine card_ends_sdiff_lt hab ?_ ?_ ?_
      · exact subset_inter hsubA (Ico_subset_Ico (by omega) (by omega))
      · intro x hx he
        rw [mem_inter, mem_Ico, ← hcover] at hx
        have hpred := htree.separated.pred_notMem hseg
        simp only [SpaceSeg.range] at hpred
        have hxs : x = (sm.smRoot.data ss).ssStart - 1 := by omega
        exact hpred (by omega) (hxs ▸ hx.1)
      · intro hbm
        rw [mem_inter, mem_Ico, ← hcover] at hbm
        have hbs : b = (sm.smRoot.data ss).range.2 := by simp only [SpaceSeg.range]; omega
        exact htree.separated.end_notMem hseg (hbs ▸ hbm.1)
    obtain ⟨sm', hrun', hrep', hsame'⟩ := ih hrep₁ (hr.of_same hsame₁) (by rw [hrest]; omega)
    refine ⟨sm', ?_, ?_, hsame₁.trans hsame'⟩
    · refine bind_of_some hfind (bind_of_some hss ?_)
      rw [if_neg hz]
      refine bind_of_some (htree.object hmem) ?_
      simp only [if_neg hge, ← hadef, ← hbdef, hsize]
      exact bind_of_some hrun₁ hrun'
    · have hset : (A \ Ico a b) \ Ico start fin = A \ Ico start fin := by
        rw [Finset.sdiff_sdiff_left', ← sdiff_union_distrib]
        congr 1
        exact union_eq_right.mpr (Ico_subset_Ico (by omega) (by omega))
      rw [hset] at hrep'
      exact hrep'

/-- **`space_map_excise`.** -/
theorem spaceMapExcise_spec (h : sm.Rep A) (hr : sm.Range start size) :
    ∃ sm', spaceMapExcise sm start size = some sm' ∧
      sm'.Rep (A \ Ico start (start + size)) ∧ sm.Same sm' := by
  obtain ⟨s, htree, hcover⟩ := h.tree
  rw [spaceMapExcise, h.u64_end hr]
  refine spaceMapExciseLoop_spec h hr rfl ?_
  have hle := card_ends_cover_le (segs sm.smRoot s.inorder) start (start + size)
  have hlen : (segs sm.smRoot s.inorder).length = s.inorder.length := List.length_map ..
  have hfuel := htree.fuel
  rw [hcover, hlen] at hle
  exact hle.trans_lt hfuel

/-! ## Whole maps -/

/-- The segments of a set that fits into the map are ranges of the map. -/
theorem Separated.range (h : Separated l) (hin : cover l ⊆ Ico sm.smStart (sm.smStart + sm.smSize))
    (hblocks : Blockwise (2 ^ sm.smShift) (cover l)) {s : ℕ × ℕ} (hs : s ∈ l) :
    sm.Range s.1 (s.2 - s.1) := by
  have hne := h.1 s hs
  obtain ⟨hd1, hd2⟩ := h.dvd hblocks hs
  have hlow := mem_Ico.mp (hin (mem_cover.mpr ⟨s, hs, le_rfl, hne⟩))
  have hup := mem_Ico.mp (hin (mem_cover.mpr ⟨s, hs, Nat.le_sub_one_of_lt hne, by omega⟩))
  exact ⟨by omega, hlow.1, by omega, hd1, Nat.dvd_sub hd2 hd1⟩

/-- The length of a segment, as the loops over segments compute it. -/
theorem SpaceMap.Rep.u64Sub (h : sm.Rep A) {a b : ℕ} (hr : sm.Range a (b - a)) :
    u64Sub b a = b - a := by
  have hbound := h.bound
  have hpos := hr.pos
  have hupper := hr.upper
  exact u64Sub_of_le (by omega) (by omega)

/-- The rule for a loop over segments: `I` is what holds of the set and of the
segments still to come, and `f` is what one round does to the set. -/
theorem foldlM_rep {body : SpaceMap → ℕ × ℕ → Option SpaceMap} {sm₀ : SpaceMap}
    {I : Finset ℕ → List (ℕ × ℕ) → Prop} {f : Finset ℕ → ℕ × ℕ → Finset ℕ}
    (hstep : ∀ {sm A s l}, sm.Rep A → sm₀.Same sm → I A (s :: l) →
      ∃ sm', body sm s = some sm' ∧ sm'.Rep (f A s) ∧ sm.Same sm' ∧ I (f A s) l) (h : sm.Rep A)
    (hs : sm₀.Same sm) (hI : I A l) :
    ∃ sm', l.foldlM body sm = some sm' ∧ sm'.Rep (l.foldl f A) ∧ sm₀.Same sm' := by
  induction l generalizing sm A with
  | nil => exact ⟨sm, rfl, h, hs⟩
  | cons s l ih =>
    obtain ⟨sm₁, hrun₁, hrep₁, hsame₁, hI₁⟩ := hstep h hs hI
    obtain ⟨sm₂, hrun₂, hrep₂, hsame₂⟩ := ih hrep₁ (hs.trans hsame₁) hI₁
    exact ⟨sm₂, by rw [List.foldlM_cons]; exact bind_of_some hrun₁ hrun₂, hrep₂, hsame₂⟩

/-- An update of a set by segments, one after the other: `pre A R` says when the
set `A` may be updated by `R`, and `op A R` is the result. -/
structure Segmentwise (pre : Finset ℕ → Finset ℕ → Prop) (op : Finset ℕ → Finset ℕ → Finset ℕ) :
    Prop where
  part : ∀ {A R S}, pre A S → R ⊆ S → pre A R
  rest : ∀ {A R S}, pre A S → Disjoint R S → pre (op A R) S
  empty : ∀ A, op A ∅ = A
  union : ∀ A R S, op (op A R) S = op A (R ∪ S)

theorem segmentwise_union : Segmentwise Disjoint (· ∪ ·) :=
  ⟨fun h hs => h.mono_right hs, fun h hd => disjoint_union_left.mpr ⟨h, hd⟩,
    union_empty, union_assoc⟩

theorem segmentwise_sdiff : Segmentwise (fun A R => R ⊆ A) (· \ ·) :=
  ⟨fun h hs => hs.trans h, fun h hd => subset_sdiff.mpr ⟨h, hd.symm⟩,
    fun _ => sdiff_empty, fun _ _ _ => sdiff_sdiff_left⟩

theorem Segmentwise.foldl_eq {pre : Finset ℕ → Finset ℕ → Prop} {op} (hop : Segmentwise pre op)
    (l : List (ℕ × ℕ)) (A : Finset ℕ) :
    l.foldl (fun A s => op A (Ico s.1 s.2)) A = op A (cover l) := by
  induction l generalizing A with
  | nil => exact (hop.empty A).symm
  | cons s l ih => rw [List.foldl_cons, ih, cover_cons, hop.union]

/-- A callback that adds its range to a map. -/
def Adds (sm : SpaceMap) (func : SpaceMapFunc) : Prop :=
  ∀ {sm₁ : SpaceMap} {A : Finset ℕ} {start size : ℕ}, sm.Same sm₁ → sm₁.Rep A →
    sm₁.Range start size → Disjoint A (Ico start (start + size)) →
    ∃ sm', func sm₁ start size = some sm' ∧ sm'.Rep (A ∪ Ico start (start + size)) ∧
      sm₁.Same sm'

theorem adds_spaceMapAdd (sm : SpaceMap) : Adds sm spaceMapAdd :=
  fun _ hrep hr hd => spaceMapAdd_spec hrep hr hd

/-- Excising and adding segments one after the other. -/
theorem foldlM_union (h : sm.Rep A) (hr : ∀ s ∈ l, sm.Range s.1 (s.2 - s.1)) :
    ∃ sm', l.foldlM (fun sm s => spaceMapExcise sm s.1 (u64Sub s.2 s.1) >>= fun sm =>
        spaceMapAdd sm s.1 (u64Sub s.2 s.1)) sm = some sm' ∧
      sm'.Rep (A ∪ cover l) ∧ sm.Same sm' := by
  rw [← segmentwise_union.foldl_eq]
  refine foldlM_rep (I := fun _ l => ∀ s ∈ l, sm.Range s.1 (s.2 - s.1)) ?_ h
    (SpaceMap.Same.refl sm) hr
  intro sm₁ A s l hrep hsame hr
  have hrange := (hr s (by simp)).of_same hsame
  have hpos := hrange.pos
  have hadd : s.1 + (s.2 - s.1) = s.2 := by omega
  obtain ⟨sm₂, hrun₂, hrep₂, hsame₂⟩ := spaceMapExcise_spec hrep hrange
  obtain ⟨sm₃, hrun₃, hrep₃, hsame₃⟩ := spaceMapAdd_spec hrep₂ (hrange.of_same hsame₂)
    sdiff_disjoint
  rw [hadd, sdiff_union_self_eq_union] at hrep₃
  rw [hrep.u64Sub hrange]
  exact ⟨sm₃, bind_of_some hrun₂ hrun₃, hrep₃, hsame₂.trans hsame₃,
    fun s' hs' => hr s' (by simp [hs'])⟩

/-- **`space_map_union`.** -/
theorem spaceMapUnion_spec {smd sms : SpaceMap} (hd : smd.Rep A) (hs : sms.Rep B)
    (hin : B ⊆ Ico smd.smStart (smd.smStart + smd.smSize))
    (hblocks : Blockwise (2 ^ smd.smShift) B) :
    ∃ smd', spaceMapUnion smd sms = some smd' ∧ smd'.Rep (A ∪ B) ∧ smd.Same smd' := by
  obtain ⟨s, htree, rfl⟩ := hs.tree
  obtain ⟨smd', hrun, hrep, hsame⟩ := foldlM_union hd fun r hr =>
    htree.separated.range hin hblocks hr
  refine ⟨smd', ?_, hrep, hsame⟩
  rw [segs, List.foldlM_map] at hrun
  rw [← hrun, spaceMapUnion]
  exact avlForeach_spec htree.valid.linked htree.fuel htree.fuel _ _

/-- `space_map_walk` is a loop over the segments in ascending order. -/
theorem spaceMapWalk_eq (h : SegTree sm.smRoot sm.heap s) (func : SpaceMapFunc) (mdest : SpaceMap) :
    spaceMapWalk sm func mdest = (segs sm.smRoot s.inorder).foldlM
      (fun mdest s => func mdest s.1 (u64Sub s.2 s.1)) mdest := by
  rw [segs, List.foldlM_map, spaceMapWalk]
  exact avlForeach_spec h.valid.linked h.fuel h.fuel _ _

/-- The tree of a map whose segments have all been freed. -/
theorem SegTree.of_torn {t' : AvlTree SpaceSeg} {l : List Addr} (h : SegTree t heap s)
    (ht : Torn t t' l) : SegTree t' heap nil where
  compar := ht.compar.trans h.compar
  valid := ⟨⟨ht.root, ⟨false, trivial⟩, List.nodup_nil, by simp⟩, trivial, ht.numnodes⟩
  separated := separated_nil
  heap_pos := h.heap_pos
  heap_even := h.heap_even
  free := fun a ha => by
    by_cases hm : a ∈ l
    · exact ht.freed a hm
    · rw [ht.kept a hm, h.free a ha]

/-- `space_map_vacate` empties the map, and it is a loop over the segments. -/
theorem spaceMapVacate_eq (h : sm.Rep A) :
    ∃ (sm' : SpaceMap) (l l' : List (ℕ × ℕ)), sm'.Rep ∅ ∧ sm.Same sm' ∧ l.Perm l' ∧
      Separated l' ∧ cover l' = A ∧
      (∀ mdest, spaceMapVacate sm none mdest = some (sm', mdest)) ∧
      ∀ (func : SpaceMapFunc) (mdest : SpaceMap), spaceMapVacate sm (some func) mdest =
        (l.foldlM (fun mdest s => func mdest s.1 (u64Sub s.2 s.1)) mdest).map fun m =>
          (sm', m) := by
  obtain ⟨s, htree, hcover⟩ := h.tree
  obtain ⟨t', htorn, hloop⟩ := avlDestroyLoop_spec htree.valid htree.fuel htree.fuel
  have hperm : (segs sm.smRoot s.postorder).Perm (segs sm.smRoot s.inorder) :=
    (postorder_perm_inorder s).map _
  refine ⟨{ sm with smRoot := t', smSpace := 0 }, segs sm.smRoot s.postorder, _,
    ⟨h.bound, ⟨nil, htree.of_torn htorn, rfl⟩, by simp, Blockwise.empty, rfl⟩,
    ⟨rfl, rfl, rfl, rfl, rfl, rfl, rfl⟩, hperm, htree.separated, hcover, ?_, ?_⟩
  · intro mdest
    have hnone : s.postorder.foldlM (fun m _ => (some m : Option SpaceMap)) mdest = some mdest := by
      induction s.postorder with
      | nil => rfl
      | cons p l ih => simpa using ih
    simp only [spaceMapVacate, SpaceMap.fuel]
    rw [hloop, hnone]
    rfl
  · intro func mdest
    simp only [spaceMapVacate, SpaceMap.fuel]
    rw [hloop, segs, List.foldlM_map]
    simp only [SpaceSeg.range]
    cases List.foldlM (fun m p => func m (sm.smRoot.data p).ssStart
      (u64Sub (sm.smRoot.data p).ssEnd (sm.smRoot.data p).ssStart)) mdest s.postorder <;> rfl

/-- A callback that updates the set of a map by its range. -/
def Updates (sm : SpaceMap) (func : SpaceMapFunc) (pre : Finset ℕ → Finset ℕ → Prop)
    (op : Finset ℕ → Finset ℕ → Finset ℕ) : Prop :=
  ∀ {sm₁ : SpaceMap} {A : Finset ℕ} {start size : ℕ}, sm.Same sm₁ → sm₁.Rep A →
    sm₁.Range start size → pre A (Ico start (start + size)) →
    ∃ sm', func sm₁ start size = some sm' ∧ sm'.Rep (op A (Ico start (start + size))) ∧
      sm₁.Same sm'

theorem updates_spaceMapRemove (sm : SpaceMap) :
    Updates sm spaceMapRemove (fun A R => R ⊆ A) (· \ ·) :=
  fun _ hrep hr hd => spaceMapRemove_spec hrep hr hd

section Update

variable {func : SpaceMapFunc} {pre : Finset ℕ → Finset ℕ → Prop}
  {op : Finset ℕ → Finset ℕ → Finset ℕ} (hop : Segmentwise pre op)

include hop

/-- Calling the callback on segments one after the other. -/
theorem foldlM_update (hfunc : Updates sm func pre op) (h : sm.Rep A)
    (hr : ∀ s ∈ l, sm.Range s.1 (s.2 - s.1))
    (hl : l.Pairwise fun s s' => Disjoint (Ico s.1 s.2) (Ico s'.1 s'.2)) (hd : pre A (cover l)) :
    ∃ sm', l.foldlM (fun sm s => func sm s.1 (u64Sub s.2 s.1)) sm = some sm' ∧
      sm'.Rep (op A (cover l)) ∧ sm.Same sm' := by
  rw [← hop.foldl_eq]
  refine foldlM_rep (I := fun A l => (∀ s ∈ l, sm.Range s.1 (s.2 - s.1)) ∧
    (l.Pairwise fun s s' => Disjoint (Ico s.1 s.2) (Ico s'.1 s'.2)) ∧
    ∀ s ∈ l, pre A (Ico s.1 s.2)) ?_ h (SpaceMap.Same.refl sm) ⟨hr, hl, fun s hs => ?_⟩
  · rintro sm₁ A s l hrep hsame ⟨hr, hl, hd⟩
    have hrange := hr s (by simp)
    have hpos := hrange.pos
    have hadd : s.1 + (s.2 - s.1) = s.2 := by omega
    obtain ⟨sm', hrun, hrep', hsame'⟩ := hfunc hsame hrep (hrange.of_same hsame)
      (by rw [hadd]; exact hd s (by simp))
    rw [hadd] at hrep'
    rw [← hrep.u64Sub (hrange.of_same hsame)] at hrun
    rw [List.pairwise_cons] at hl
    refine ⟨sm', hrun, hrep', hsame', fun s' hs' => hr s' (by simp [hs']), hl.2, fun s' hs' => ?_⟩
    exact hop.rest (hd s' (by simp [hs'])) (hl.1 s' hs')
  · exact hop.part hd fun x hx => mem_cover.mpr ⟨s, hs, mem_Ico.mp hx⟩

section

variable (hfunc : Updates mdest func pre op) (h : sm.Rep A) (hd : mdest.Rep B)
  (hin : A ⊆ Ico mdest.smStart (mdest.smStart + mdest.smSize))
  (hblocks : Blockwise (2 ^ mdest.smShift) A) (hpre : pre B A)

include hfunc h hd hin hblocks hpre

/-- **`space_map_walk`** over another map. -/
theorem spaceMapWalk_update :
    ∃ mdest', spaceMapWalk sm func mdest = some mdest' ∧ mdest'.Rep (op B A) ∧
      mdest.Same mdest' := by
  obtain ⟨s, htree, rfl⟩ := h.tree
  rw [spaceMapWalk_eq htree]
  exact foldlM_update hop hfunc hd (fun s hs => htree.separated.range hin hblocks hs)
    (htree.separated.pairwise_disjoint (List.Perm.refl _)) hpre

/-- **`space_map_vacate`** into another map, or out of it. -/
theorem spaceMapVacate_update :
    ∃ sm' mdest', spaceMapVacate sm (some func) mdest = some (sm', mdest') ∧ sm'.Rep ∅ ∧
      sm.Same sm' ∧ mdest'.Rep (op B A) ∧ mdest.Same mdest' := by
  obtain ⟨sm', l, l', hrep, hsame, hperm, hsep, rfl, -, hloop⟩ := spaceMapVacate_eq h
  obtain ⟨mdest', hrun, hrep', hsame'⟩ := foldlM_update hop hfunc hd
    (fun s hs => hsep.range hin hblocks (hperm.mem_iff.mp hs)) (hsep.pairwise_disjoint hperm)
    (by rw [cover_perm hperm]; exact hpre)
  rw [cover_perm hperm] at hrep'
  exact ⟨sm', mdest', by rw [hloop, hrun]; rfl, hrep, hsame, hrep', hsame'⟩

end

end Update

/-- **`space_map_vacate`** into nothing. -/
theorem spaceMapVacate_none (h : sm.Rep A) (mdest : SpaceMap) :
    ∃ sm', spaceMapVacate sm none mdest = some (sm', mdest) ∧ sm'.Rep ∅ ∧ sm.Same sm' := by
  obtain ⟨sm', l, l', hrep, hsame, -, -, -, hnone, -⟩ := spaceMapVacate_eq h
  exact ⟨sm', hnone mdest, hrep, hsame⟩

theorem spaceMapCreate_rep {shift : ℕ} (h : start + size < 2 ^ 64) :
    (spaceMapCreate start size shift).Rep ∅ where
  bound := h
  tree := ⟨nil, SegTree.create, rfl⟩
  inside := by simp
  blocks := Blockwise.empty
  space := rfl

end Polaris
