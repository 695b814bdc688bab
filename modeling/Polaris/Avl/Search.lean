import Polaris.Avl.Layout
import Mathlib.Data.List.Pairwise

/-!
# Queries on a linked tree

`avlDescend` and `avlClimb` are the two halves of `avl_walk`; their lemmas say
which node of the ghost tree they stop at.  `avlFind_spec` is about the descent
of `avl_find` and needs nothing of the comparison but that its sign falls along
the in-order sequence, so it serves comparisons that are no order on all values.

An insertion index names an empty slot, which is a path `k` with
`s = plug k nil`: everything before the slot is `before k` and everything after
it is `after k`.

## Main definitions

* `indexOf` — the index of an empty slot.
* `ComparOn` — a comparison that orders the values of a set.
* `Ascending` — the in-order sequence of a tree is strictly ascending.
* `GreatestBelow`, `LeastAbove` — the neighbours of a value.
-/

namespace Polaris

open BinTree AvlTree

variable {α : Type}

/-! ## Indices -/

theorem avlMkindex_eq {p : ℕ} (hp : 2 ∣ p) (c : Bool) : avlMkindex p c = p + c.toNat := by
  obtain ⟨n, rfl⟩ := hp
  cases c
  · simp [avlMkindex]
  · have h := Nat.two_pow_add_eq_or_of_lt (i := 1) (b := 1) (by norm_num) n
    simpa [avlMkindex] using h.symm

@[simp] theorem avlIndex2node_avlMkindex {p : ℕ} (hp : 2 ∣ p) (c : Bool) :
    avlIndex2node (avlMkindex p c) = p := by
  rw [avlMkindex_eq hp, avlIndex2node]
  have h := c.toNat_lt
  have hmod : (p + c.toNat) % 2 = c.toNat := by omega
  rw [hmod, Nat.add_sub_cancel]

@[simp] theorem avlIndex2child_avlMkindex {p : ℕ} (hp : 2 ∣ p) (c : Bool) :
    avlIndex2child (avlMkindex p c) = c := by
  rw [avlMkindex_eq hp, avlIndex2child]
  cases c
  · have : p % 2 = 0 := by omega
    simp [this]
  · have : (p + 1) % 2 = 1 := by omega
    simp [this]

/-- The index of the empty slot at the hole of a path. -/
def indexOf (k : Path Addr) : ℕ := avlMkindex (parentOf 0 k) (sideOf false k)

variable {t : AvlTree α} {s : BinTree Addr} {fuel : ℕ} {k : Path Addr} {v x y : α} {c d : Bool}
  {p q : Addr}

/-- The node above a hole is aligned with the others. -/
theorem even_parentOf (h : ∀ p ∈ (plug k s).inorder, 2 ∣ p) : 2 ∣ parentOf 0 k := by
  cases k with
  | nil => exact dvd_zero 2
  | cons f k => exact h f.a ((mem_inorder_plug _ _ _).mpr (Or.inr (by simp)))

/-! ## Walking -/

/-- Descending on side `d` ends at the node with no child there; its path turns to
side `d` at every frame. -/
theorem avlDescend_spec (h : Lay t.cells q c s) (hs : s ≠ nil) (hf : s.inorder.length ≤ fuel) :
    ∃ k p b y, s = plug k (join d nil p b y) ∧ (∀ f ∈ k, f.side = d) ∧
      avlDescend fuel t s.rootAddr d = some p := by
  induction s using join_induction d generalizing q c fuel with
  | nil => exact absurd rfl hs
  | join x a b y ihx _ =>
    rw [length_inorder_join] at hf
    obtain _ | fuel := fuel
    · omega
    obtain ⟨-, ha, hx, -⟩ := (lay_join ..).mp h
    by_cases hn : x = nil
    · subst hn
      refine ⟨[], a, b, y, rfl, by simp, ?_⟩
      simp [avlDescend, avlChild_same ha]
    obtain ⟨k, p, b', y', hk, hside, hrun⟩ := ihx hx hn (by omega : x.inorder.length ≤ fuel)
    refine ⟨k ++ [⟨d, a, b, y⟩], p, b', y', ?_, ?_, ?_⟩
    · rw [plug_append, ← hk]; rfl
    · intro f hfm
      rcases List.mem_append.mp hfm with hfm | hfm
      · exact hside f hfm
      · rw [List.mem_singleton.mp hfm]
    · have hne := lay_rootAddr_ne hx hn
      simpa [avlDescend, avlChild_same ha, hne] using hrun

/-- The trailing loop of `avl_first` and `avl_last` stops where a descent does. -/
theorem avlEnd_eq (h : Lay t.cells q c s) (hs : s ≠ nil) (hf : s.inorder.length < fuel)
    (prev : Addr) :
    avlEnd fuel t d s.rootAddr prev = avlDescend fuel t s.rootAddr d := by
  induction s using join_induction d generalizing q c fuel prev with
  | nil => exact absurd rfl hs
  | join x a b y ihx _ =>
    rw [length_inorder_join] at hf
    obtain _ | fuel := fuel
    · omega
    obtain ⟨ha0, ha, hx, -⟩ := (lay_join ..).mp h
    by_cases hn : x = nil
    · subst hn
      obtain _ | fuel := fuel
      · omega
      simp [avlEnd, avlDescend, avlChild_same ha, ha0]
    · have hne := lay_rootAddr_ne hx hn
      have ih := ihx hx hn (by omega : x.inorder.length < fuel) a
      simp [avlEnd, avlDescend, avlChild_same ha, ha0, hne, ih]

/-- The node at which a descent on side `d` ends is the first one in the other
direction. -/
theorem toward_spine {b : ℤ} {y : BinTree Addr} (h : ∀ f ∈ k, f.side = d) :
    (plug k (join d nil p b y)).toward (!d) = p :: (y.toward (!d) ++ near (!d) k) := by
  rw [toward_plug, Bool.not_not, near_eq_nil h]
  simp

/-- Climbing from a node stops at the nearest node on side `!right`. -/
theorem avlClimb_spec {n : AvlNode} {right : Bool} (hp : t.cells p = some n)
    (hq : n.avlParent = parentOf 0 k) (hc : n.avlChildIndex = sideOf c k)
    (h : LayPath t.cells 0 c k p)
    (hf : k.length < fuel) : avlClimb fuel t p right = some ((near (!right) k).headD 0) := by
  induction k generalizing p n fuel with
  | nil =>
    obtain _ | fuel := fuel
    · simp at hf
    simp [avlClimb, avlXchild, avlXparent, hp, hq]
  | cons f k ih =>
    obtain _ | fuel := fuel
    · simp at hf
    obtain ⟨h0, hcell, -, hk⟩ := h
    rw [parentOf_cons] at hq
    rw [sideOf_cons] at hc
    by_cases hside : f.side = right
    · rw [near_cons_not (by simp [hside])]
      simp [avlClimb, avlXchild, avlXparent, hp, hq, hc, h0, hside]
    have hside' : f.side = !right := by
      cases hfs : f.side <;> cases right <;> simp_all
    rw [near_cons_same hside', ← ih (n := _) hcell (by simp) (by simp) hk
      (by simp at hf; omega : k.length < fuel)]
    simp [avlClimb, avlXchild, avlXparent, hp, hq, hc, h0, hside]

/-- `avl_walk` goes to the nearest node on side `d`, below the node or above it. -/
theorem avlWalk_spec {x y : BinTree Addr} {b : ℤ} (h : At t c k (join d x p b y))
    (hf : (plug k (join d x p b y)).inorder.length ≤ fuel) :
    avlWalk fuel t p d = some ((x.toward d ++ near d k).headD 0) := by
  obtain ⟨hp0, hp, hx, -⟩ := (lay_join ..).mp h.tree
  rw [length_inorder_plug, length_inorder_join] at hf
  by_cases hn : x = nil
  · subst hn
    have hk := length_le_labels k
    have hpath := h.path
    rw [rootAddr_join] at hpath
    have hclimb : avlClimb fuel t p (!d) = some ((near (!!d) k).headD 0) :=
      avlClimb_spec hp (by simp) (by simp) hpath (by omega)
    simpa [avlWalk, hp0, avlChild_same hp] using hclimb
  · have hne := lay_rootAddr_ne hx hn
    obtain ⟨k', p', b', y', hk', hside, hrun⟩ :=
      avlDescend_spec (d := !d) hx hn (by omega : x.inorder.length ≤ fuel)
    have hfirst := toward_spine (p := p') (b := b') (y := y') hside
    rw [← hk', Bool.not_not] at hfirst
    simp [avlWalk, hp0, avlChild_same hp, hne, hrun, hfirst]

/-- The slot of an index has its neighbours at the heads of the two sides. -/
theorem avlNearest_spec (h : At t c k nil) (heven : ∀ p ∈ (plug k nil).inorder, 2 ∣ p) (d : Bool)
    (hf : (plug k nil).inorder.length ≤ fuel) :
    avlNearest fuel t (indexOf k) d = some ((near d k).headD 0) := by
  have hev := even_parentOf heven
  simp only [avlNearest, indexOf, avlIndex2node_avlMkindex hev, avlIndex2child_avlMkindex hev]
  cases k with
  | nil => simp
  | cons f k =>
    have h0 : f.a ≠ 0 := h.path.1
    rw [parentOf_cons, sideOf_cons, if_neg h0]
    by_cases hd : f.side = d
    · have hw := avlWalk_spec (d := d) (x := nil) (p := f.a) (b := f.b) (y := f.sib)
        (by rw [← hd]; exact h.up) (by rw [← hd]; exact hf : _ ≤ fuel)
      rw [near_cons_same hd]
      simpa [hd] using hw
    · have hd' : f.side = !d := by cases hfs : f.side <;> cases d <;> simp_all
      rw [near_cons_not hd']
      simp [hd']

/-- The neighbours of a node in the in-order sequence are what `avl_walk` returns. -/
theorem avlWalk_neighbour (h : Linked t s) {l₁ l₂ : List Addr} (hl : s.inorder = l₁ ++ p :: l₂)
    (hf : s.inorder.length ≤ fuel) :
    avlWalk fuel t p avlAfter = some (l₂.headD 0) ∧
      avlWalk fuel t p avlBefore = some (l₁.getLastD 0) := by
  obtain ⟨c, k, l, b, r, rfl, hat, rfl, rfl⟩ := h.focus_node hl
  have ha := avlWalk_spec (d := true) (x := r) (y := l) (p := p) (b := b) hat hf
  have hb := avlWalk_spec (d := false) (x := l) (y := r) (p := p) (b := b) hat hf
  constructor
  · simpa [toward, near, avlAfter] using ha
  · rw [avlBefore, hb]
    simp [toward, near, List.getLastD_eq_getLast?, ← List.head?_reverse]

/-- `avl_first` returns the head of the in-order sequence. -/
theorem avlFirst_spec (h : Linked t s) (hf : s.inorder.length < fuel) :
    avlFirst fuel t = some (s.inorder.headD 0) := by
  obtain ⟨c, hlay⟩ := h.lay
  rw [avlFirst, h.root]
  by_cases hs : s = nil
  · subst hs
    obtain _ | fuel := fuel
    · omega
    simp [avlEnd]
  · obtain ⟨k, p, b, y, rfl, hside, hrun⟩ := avlDescend_spec (d := false) hlay hs hf.le
    have hfirst := toward_spine (p := p) (b := b) (y := y) hside
    rw [Bool.not_false] at hfirst
    rw [avlEnd_eq hlay hs hf, hrun]
    have hin : (plug k (join false nil p b y)).inorder
      = p :: (y.toward true ++ near true k) := hfirst
    rw [hin, List.headD_cons]

/-- The traversal visits the rest of the in-order sequence. -/
theorem avlForeach_suffix {β : Type} (h : Linked t s) {l₁ l₂ : List Addr}
    (hl : s.inorder = l₁ ++ l₂)
    {n : ℕ} (hn : l₂.length < n) (hf : s.inorder.length ≤ fuel) (body : β → α → Option β) (st : β) :
    avlForeach body n fuel t (l₂.headD 0) st =
      l₂.foldlM (fun st p => body st (t.data p)) st := by
  induction l₂ generalizing l₁ n st with
  | nil =>
    obtain _ | n := n
    · simp at hn
    simp [avlForeach]
  | cons p l₂ ih =>
    obtain _ | n := n
    · simp at hn
    have hp : p ∈ s.inorder := by simp [hl]
    have hnext := (avlWalk_neighbour h hl hf).1
    rw [List.headD_cons, avlForeach, if_neg (h.mem hp).1, h.object hp, List.foldlM_cons]
    simp only [Option.bind_eq_bind, Option.bind_some, hnext]
    congr 1
    funext st'
    exact ih (by simp [hl] : s.inorder = (l₁ ++ [p]) ++ l₂) (by simp at hn; omega) st'

/-- **The traversal of a tree** is a fold over its in-order sequence. -/
theorem avlForeach_spec {β : Type} (h : Linked t s) {n : ℕ} (hn : s.inorder.length < n)
    (hf : s.inorder.length < fuel) (body : β → α → Option β) (st : β) :
    (avlFirst fuel t >>= fun p => avlForeach body n fuel t p st) =
      s.inorder.foldlM (fun st p => body st (t.data p)) st := by
  rw [avlFirst_spec h hf]
  exact avlForeach_suffix h (List.nil_append _).symm hn hf.le body st

/-! ## Searching -/

section

variable (hsign : ∀ p ∈ s.inorder, t.avlCompar v (t.data p) ∈ [-1, 0, 1])
  (hfall : s.inorder.Pairwise fun p p' => t.avlCompar v (t.data p') ≤ t.avlCompar v (t.data p))
  (hf : s.inorder.length < fuel)

include hsign hfall hf

/-- What `avl_find` returns: a node that compares equal, or the empty slot that
separates the nodes below the value from those above. -/
theorem avlFindLoop_spec (hat : At t c k s) (hb : ∀ p ∈ before k, t.avlCompar v (t.data p) = 1)
    (ha : ∀ p ∈ after k, t.avlCompar v (t.data p) = -1) :
    (∃ p ∈ s.inorder, t.avlCompar v (t.data p) = 0 ∧
      avlFindLoop fuel t v s.rootAddr (parentOf 0 k) (sideOf false k) = some (p, 0)) ∨
    ∃ k', plug k s = plug k' nil ∧
      avlFindLoop fuel t v s.rootAddr (parentOf 0 k) (sideOf false k) = some (0, indexOf k') ∧
      (∀ p ∈ before k', t.avlCompar v (t.data p) = 1) ∧
      (∀ p ∈ after k', t.avlCompar v (t.data p) = -1) := by
  obtain _ | fuel := fuel
  · omega
  induction s generalizing k fuel with
  | nil => exact Or.inr ⟨k, rfl, by simp [avlFindLoop, indexOf], hb, ha⟩
  | node l p b r ihl ihr =>
    obtain ⟨h0, hp, hl, hr⟩ := hat.tree
    have hp' : t.cells p = some (cell false l.rootAddr r.rootAddr (parentOf 0 k) (sideOf c k) b) :=
      hp
    rw [inorder_node, List.pairwise_append, List.pairwise_cons] at hfall
    obtain ⟨hfl, ⟨hpr, hfr⟩, hlr⟩ := hfall
    simp only [inorder_node, List.length_append, List.length_cons] at hf
    have htri (a : Addr) (h : a ∈ (node l p b r).inorder) : t.avlCompar v (t.data a) = -1 ∨
        t.avlCompar v (t.data a) = 0 ∨ t.avlCompar v (t.data a) = 1 := by
      simpa using hsign a h
    rcases htri p (by simp) with hd | hd | hd
    · -- the value is below `p`, and so below everything to the right of `p`
      have hat' : At t c (⟨false, p, b, r⟩ :: k) l := At.down hat
      obtain _ | fuel := fuel
      · omega
      have hstep : avlFindLoop (fuel + 1 + 1) t v p (parentOf 0 k) (sideOf false k) =
          avlFindLoop (fuel + 1) t v l.rootAddr p false := by
        have hc := avlChild_same hp'
        rw [avlFindLoop]
        simp [h0, hd, avlBalance2child, hc]
      have ih := ihl (fun a h => hsign a (by simp [h])) hfl hat' (by simpa [before] using hb)
        (by
          intro a h
          simp only [after, Bool.false_eq_true, if_false, List.cons_append, List.mem_cons,
            List.mem_append] at h
          rcases h with rfl | h | h
          · exact hd
          · have h1 := hpr a h
            have h2 := htri a (by simp [h])
            omega
          · exact ha a h) fuel (by omega)
      rw [rootAddr_node, hstep]
      refine ih.imp_left ?_
      rintro ⟨a, hm, h⟩
      exact ⟨a, by simp [hm], h⟩
    · refine Or.inl ⟨p, by simp, hd, ?_⟩
      simp [avlFindLoop, h0, hd]
    · have hat' : At t c (⟨true, p, b, l⟩ :: k) r := At.down hat
      obtain _ | fuel := fuel
      · omega
      have hstep : avlFindLoop (fuel + 1 + 1) t v p (parentOf 0 k) (sideOf false k) =
          avlFindLoop (fuel + 1) t v r.rootAddr p true := by
        have hc := avlChild_not hp'
        rw [Bool.not_false] at hc
        rw [avlFindLoop]
        simp [h0, hd, avlBalance2child, hc]
      have ih := ihr (fun a h => hsign a (by simp [h])) hfr hat'
        (by
          intro a h
          simp only [before, if_true, List.mem_append, List.mem_singleton] at h
          rcases h with h | h | rfl
          · exact hb a h
          · have h1 := hlr a h p (by simp)
            have h2 := htri a (by simp [h])
            omega
          · exact hd) (by simpa [after] using ha) fuel (by omega)
      rw [rootAddr_node, hstep]
      refine ih.imp_left ?_
      rintro ⟨a, hm, h⟩
      exact ⟨a, by simp [hm], h⟩

/-- `avl_find` on a whole tree, for a value whose comparison with the nodes falls
along the in-order sequence. -/
theorem avlFind_spec (h : Linked t s) :
    (∃ p ∈ s.inorder, t.avlCompar v (t.data p) = 0 ∧ avlFind fuel t v = some (p, 0)) ∨
    ∃ k, s = plug k nil ∧ avlFind fuel t v = some (0, indexOf k) ∧
      (∀ p ∈ before k, t.avlCompar v (t.data p) = 1) ∧
      (∀ p ∈ after k, t.avlCompar v (t.data p) = -1) := by
  obtain ⟨c, hat⟩ := h.focus (k := [])
  rw [avlFind, h.root]
  exact avlFindLoop_spec hsign hfall hf hat (by simp) (by simp)

end

/-! ## Ordered trees -/

/-- A comparison that answers `-1`, `0` or `1` and orders the values of `U`. -/
structure ComparOn (cmp : α → α → ℤ) (U : α → Prop) : Prop where
  sign : ∀ x y, U x → U y → cmp x y ∈ [-1, 0, 1]
  swap : ∀ x y, U x → U y → cmp y x = -cmp x y
  trans : ∀ x y z, U x → U y → U z → cmp x y ≤ 0 → cmp y z ≤ 0 → cmp x z ≤ 0

namespace ComparOn

variable {cmp : α → α → ℤ} {U : α → Prop}

theorem trichotomy (h : ComparOn cmp U) (hx : U x) (hy : U y) :
    cmp x y = -1 ∨ cmp x y = 0 ∨ cmp x y = 1 := by
  simpa using h.sign x y hx hy

/-- Not above twice, and once strictly below, is strictly below. -/
theorem lt_of_le_le (h : ComparOn cmp U) {z : α} (hx : U x) (hy : U y) (hz : U z) (h1 : cmp x y ≤ 0)
    (h2 : cmp y z ≤ 0) (hlt : cmp x y = -1 ∨ cmp y z = -1) : cmp x z = -1 := by
  have hle := h.trans x y z hx hy hz h1 h2
  have htri := h.trichotomy hx hz
  have hne : cmp x z ≠ 0 := by
    intro h0
    have hzx : cmp z x = 0 := by rw [h.swap x z hx hz, h0]; rfl
    have hyx := h.trans y z x hy hz hx h2 (by omega)
    have hzy := h.trans z x y hz hx hy (by omega) h1
    have hxy := h.swap x y hx hy
    have hyz := h.swap y z hy hz
    omega
  omega

/-- Along an ascending pair the comparison with a fixed value does not rise. -/
theorem fall (h : ComparOn cmp U) (hv : U v) (hx : U x) (hy : U y) (hxy : cmp x y = -1) :
    cmp v y ≤ cmp v x := by
  rcases h.trichotomy hv hx with h1 | h1 | h1
  · rw [h.lt_of_le_le hv hx hy (by omega) (by omega) (.inl h1), h1]
  · rw [h.lt_of_le_le hv hx hy (by omega) (by omega) (.inr hxy), h1]; norm_num
  · have := h.trichotomy hv hy
    omega

end ComparOn

/-- The in-order sequence of the objects is strictly ascending. -/
def Ascending (t : AvlTree α) (s : BinTree Addr) : Prop :=
  s.inorder.Pairwise fun p q => t.avlCompar (t.data p) (t.data q) = -1

/-- `b` is the greatest node below `v`, or `NULL` when there is none. -/
def GreatestBelow (t : AvlTree α) (s : BinTree Addr) (v : α) (b : Addr) : Prop :=
  (b = 0 ∧ ∀ p ∈ s.inorder, t.avlCompar v (t.data p) ≠ 1) ∨
  (b ∈ s.inorder ∧ t.avlCompar v (t.data b) = 1 ∧ ∀ p ∈ s.inorder, t.avlCompar v (t.data p) = 1 →
      p = b ∨ t.avlCompar (t.data p) (t.data b) = -1)

/-- `a` is the least node above `v`, or `NULL` when there is none. -/
def LeastAbove (t : AvlTree α) (s : BinTree Addr) (v : α) (a : Addr) : Prop :=
  (a = 0 ∧ ∀ p ∈ s.inorder, t.avlCompar v (t.data p) ≠ -1) ∨
  (a ∈ s.inorder ∧ t.avlCompar v (t.data a) = -1 ∧ ∀ p ∈ s.inorder, t.avlCompar v (t.data p) = -1 →
      p = a ∨ t.avlCompar (t.data a) (t.data p) = -1)

theorem mem_of_slot (hs : s = plug k nil) (hp : p ∈ s.inorder) : p ∈ before k ∨ p ∈ after k := by
  rw [hs, inorder_plug, inorder_nil, List.append_nil, List.mem_append] at hp
  exact hp

section

variable (hs : s = plug k nil) (ho : Ascending t s)
  (hb : ∀ p ∈ before k, t.avlCompar v (t.data p) = 1)
  (ha : ∀ p ∈ after k, t.avlCompar v (t.data p) = -1)

include hs ho hb ha

/-- The last node before a slot is the greatest one below the value. -/
theorem greatestBelow_slot : GreatestBelow t s v ((near false k).headD 0) := by
  rcases List.eq_nil_or_concat (before k) with hnil | ⟨l, b, hl⟩
  · left
    refine ⟨by simp [near, hnil], fun p hp => ?_⟩
    rcases mem_of_slot hs hp with h | h
    · simp [hnil] at h
    · rw [ha p h]; norm_num
  right
  have hhead : (near false k).headD 0 = b := by simp [near, hl]
  rw [hhead]
  have hord : s.inorder = l ++ b :: after k := by simp [hs, inorder_plug, hl]
  refine ⟨by simp [hord], hb b (by simp [hl]), fun p hp hpv => ?_⟩
  rcases mem_of_slot hs hp with h | h
  · rw [hl, List.concat_eq_append, List.mem_append, List.mem_singleton] at h
    rcases h with h | h
    · right
      rw [Ascending, hord, List.pairwise_append] at ho
      exact ho.2.2 p h b (by simp)
    · exact Or.inl h
  · rw [ha p h] at hpv; norm_num at hpv

/-- The first node after a slot is the least one above the value. -/
theorem leastAbove_slot : LeastAbove t s v ((near true k).headD 0) := by
  cases haf : after k with
  | nil =>
    left
    refine ⟨by simp [near, haf], fun p hp => ?_⟩
    rcases mem_of_slot hs hp with h | h
    · rw [hb p h]; norm_num
    · simp [haf] at h
  | cons a l =>
    right
    have hhead : (near true k).headD 0 = a := by simp [near, haf]
    rw [hhead]
    have hord : s.inorder = before k ++ a :: l := by simp [hs, inorder_plug, haf]
    refine ⟨by simp [hord], ha a (by simp [haf]), fun p hp hpv => ?_⟩
    rcases mem_of_slot hs hp with h | h
    · rw [hb p h] at hpv; norm_num at hpv
    rw [haf, List.mem_cons] at h
    rcases h with h | h
    · exact Or.inl h
    · right
      rw [Ascending, hord, List.pairwise_append, List.pairwise_cons] at ho
      exact ho.2.1.1 p h

end

section

variable {U : α → Prop} (ho : Ascending t s) (hc : ComparOn t.avlCompar U)
  (hU : ∀ p ∈ s.inorder, U (t.data p)) (hv : U v)

include ho hc hU hv

/-- An ordered tree is a search tree for every value of the ordered set. -/
theorem Ascending.fall :
    s.inorder.Pairwise fun p p' => t.avlCompar v (t.data p') ≤ t.avlCompar v (t.data p) := by
  refine List.Pairwise.imp_of_mem ?_ ho
  intro p q hp hq hpq
  exact hc.fall hv (hU p hp) (hU q hq) hpq

/-- At most one node of an ordered tree compares equal to a value. -/
theorem Ascending.eq_unique (hp : p ∈ s.inorder) (hq : q ∈ s.inorder)
    (hpv : t.avlCompar v (t.data p) = 0) (hqv : t.avlCompar v (t.data q) = 0) : p = q := by
  by_contra hne
  have hUp := hU p hp
  have hUq := hU q hq
  have hpq : t.avlCompar (t.data p) (t.data q) ≤ 0 :=
    hc.trans _ v _ hUp hv hUq (by rw [hc.swap _ _ hv hUp, hpv]; simp) (by omega)
  have hqp : t.avlCompar (t.data q) (t.data p) ≤ 0 :=
    hc.trans _ v _ hUq hv hUp (by rw [hc.swap _ _ hv hUq, hqv]; simp) (by omega)
  have hswap := hc.swap _ _ hUp hUq
  have hsym : s.inorder.Pairwise fun p q =>
      t.avlCompar (t.data p) (t.data q) = -1 ∨ t.avlCompar (t.data q) (t.data p) = -1 :=
    ho.imp Or.inl
  have : Std.Symm fun p q =>
      t.avlCompar (t.data p) (t.data q) = -1 ∨ t.avlCompar (t.data q) (t.data p) = -1 :=
    ⟨fun _ _ h => h.symm⟩
  have hor := hsym.forall hp hq hne
  omega

end

/-- **The queries of an ordered, linked tree.**  `avl_find` returns the one node
that compares equal.  When there is none it returns an index whose two
neighbours are the greatest node below the value and the least one above it.
`avl_walk` returns the neighbours of a node in the in-order sequence. -/
theorem avl_queries_correct {t : AvlTree α} {s : BinTree Addr} {U : α → Prop}
    (h : Linked t s) (ho : Ascending t s) (hc : ComparOn t.avlCompar U)
    (hU : ∀ p ∈ s.inorder, U (t.data p)) {v : α} (hv : U v) {fuel : ℕ}
    (hf : s.inorder.length < fuel) :
    (∀ p ∈ s.inorder, t.avlCompar v (t.data p) = 0 → avlFind fuel t v = some (p, 0) ∧
        ∀ q ∈ s.inorder, t.avlCompar v (t.data q) = 0 → q = p) ∧
    ((∀ p ∈ s.inorder, t.avlCompar v (t.data p) ≠ 0) →
      ∃ index b a, avlFind fuel t v = some (0, index) ∧
        avlNearest fuel t index avlBefore = some b ∧ GreatestBelow t s v b ∧
        avlNearest fuel t index avlAfter = some a ∧ LeastAbove t s v a) ∧
    (∀ p l₁ l₂, s.inorder = l₁ ++ p :: l₂ → avlWalk fuel t p avlBefore = some (l₁.getLastD 0) ∧
      avlWalk fuel t p avlAfter = some (l₂.headD 0)) := by
  have hsign : ∀ p ∈ s.inorder, t.avlCompar v (t.data p) ∈ [-1, 0, 1] :=
    fun p hp => hc.sign v _ hv (hU p hp)
  have hfind := avlFind_spec hsign (ho.fall hc hU hv) hf h
  refine ⟨fun p hp hpv => ?_, fun hno => ?_, fun p l₁ l₂ hl => ?_⟩
  · have huniq : ∀ q ∈ s.inorder, t.avlCompar v (t.data q) = 0 → q = p :=
      fun q hq hqv => ho.eq_unique hc hU hv hq hp hqv hpv
    rcases hfind with ⟨q, hq, hqv, hrun⟩ | ⟨k, hs, -, hb, ha⟩
    · rw [huniq q hq hqv] at hrun
      exact ⟨hrun, huniq⟩
    -- an empty slot leaves no node equal to the value
    rcases mem_of_slot hs hp with hp | hp
    · rw [hb p hp] at hpv; norm_num at hpv
    · rw [ha p hp] at hpv; norm_num at hpv
  · rcases hfind with ⟨q, hq, hqv, -⟩ | ⟨k, hs, hrun, hb, ha⟩
    · exact absurd hqv (hno q hq)
    subst hs
    obtain ⟨c, hat⟩ := h.focus
    exact ⟨indexOf k, _, _, hrun, avlNearest_spec hat h.even avlBefore hf.le,
      greatestBelow_slot rfl ho hb ha, avlNearest_spec hat h.even avlAfter hf.le,
      leastAbove_slot rfl ho hb ha⟩
  · have hw := avlWalk_neighbour h hl (by omega : s.inorder.length ≤ fuel)
    exact ⟨hw.2, hw.1⟩

/-- The comparison of numbers, as a comparison function. -/
def natCompar (x y : ℕ) : ℤ := if x < y then -1 else if x = y then 0 else 1

theorem comparOn_natCompar : ComparOn natCompar fun _ => True where
  sign := by
    intro x y _ _
    simp only [natCompar]
    split_ifs <;> simp
  swap := by
    intro x y _ _
    simp only [natCompar]
    split_ifs <;> first | rfl | omega
  trans := by
    intro x y z _ _ _
    simp only [natCompar]
    split_ifs <;> omega

/-- A tree of two nodes over the natural numbers, for evaluating the queries. -/
def pairTree : AvlTree ℕ where
  avlRoot := 8
  avlCompar := natCompar
  avlNumnodes := 2
  cells := fun p =>
    if p = 8 then some ⟨0, 16, 0, false, 1⟩ else if p = 16 then some ⟨0, 0, 8, true, 0⟩ else none
  data := fun p => p

theorem linked_pairTree : Linked pairTree (node nil 8 1 (node nil 16 0 nil)) where
  root := rfl
  lay := ⟨false, by simp [Lay, pairTree]⟩
  nodup := by decide
  even := by decide

theorem avl_queries_pairTree :
    (∀ p ∈ [8, 16], pairTree.avlCompar 16 (pairTree.data p) = 0 →
      avlFind 3 pairTree 16 = some (p, 0) ∧
        ∀ q ∈ [8, 16], pairTree.avlCompar 16 (pairTree.data q) = 0 → q = p) ∧
    avlFind 3 pairTree 16 = some (16, 0) :=
  ⟨(avl_queries_correct linked_pairTree (by unfold Ascending; decide) comparOn_natCompar
    (fun _ _ => trivial) (v := 16) trivial (by decide)).1, by decide⟩

end Polaris
