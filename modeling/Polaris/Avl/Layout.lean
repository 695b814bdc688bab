import Polaris.Lib.BinTree
import Polaris.Lib.Partial
import Polaris.Avl.Basic

/-!
# A tree laid out in memory

`Lay m q c s` says that the memory `m` holds the tree `s` of addresses: every
node has its cell, with the addresses of its two children, of its parent, its
index in that parent and its balance.  `q` and `c` are the parent and the index
of the root.  `LayPath` says the same of a tree with a hole, and `lay_plug` joins
the two.

`At t c k s` is the state the climbing loops work in: the tree `plug k s` is laid
out and the focus is on the subtree `s`.  The lemmas of this file give one
statement for each primitive write: what is laid out afterwards, and that
nothing outside the nodes it names has changed (`Within`).

## Main definitions

* `cell` — a node seen from one side.
* `Lay`, `LayPath`, `At` — the representation predicates.
* `Linked`, `AvlTree.Valid` — a whole tree; a whole tree with its balances and its count.
* `Within` — what an update leaves alone.
-/

namespace Polaris

open BinTree AvlTree

variable {α : Type}

/-- The node with child `x` on side `d` and child `y` on the other. -/
def cell (d : Bool) (x y q : Addr) (c : Bool) (b : ℤ) : AvlNode :=
  if d then ⟨y, x, q, c, b⟩ else ⟨x, y, q, c, b⟩

section Cells

variable (d : Bool) (x y q p : Addr) (c : Bool) (b : ℤ)

@[simp] theorem cell_avlChild_same : (cell d x y q c b).avlChild d = x := by cases d <;> rfl
@[simp] theorem cell_avlChild_not : (cell d x y q c b).avlChild (!d) = y := by cases d <;> rfl
@[simp] theorem cell_avlParent : (cell d x y q c b).avlParent = q := by cases d <;> rfl
@[simp] theorem cell_avlChildIndex : (cell d x y q c b).avlChildIndex = c := by cases d <;> rfl
@[simp] theorem cell_avlBalance : (cell d x y q c b).avlBalance = b := by cases d <;> rfl

end Cells

/-! ## The primitives on a known cell -/

namespace AvlTree

section

variable (t : AvlTree α) (p : Addr) (n : AvlNode)

include t p

@[simp] theorem put_cells :
    (t.put p n).cells = Function.update t.cells p (some n) := rfl
@[simp] theorem put_avlRoot : (t.put p n).avlRoot = t.avlRoot := rfl
@[simp] theorem put_avlNumnodes : (t.put p n).avlNumnodes = t.avlNumnodes := rfl
@[simp] theorem put_data : (t.put p n).data = t.data := rfl
@[simp] theorem put_avlCompar : (t.put p n).avlCompar = t.avlCompar := rfl

theorem put_cells_self : (t.put p n).cells p = some n := by
  simp

@[simp] theorem setData_cells (x : α) : (t.setData p x).cells = t.cells :=
  rfl

@[simp] theorem setData_data (x : α) : (t.setData p x).data = Function.update t.data p x := rfl

theorem put_put (n' : AvlNode) : (t.put p n).put p n' = t.put p n' := by simp [put]

end

variable {t : AvlTree α} {n : Addr} {d : Bool} {x y q p : Addr} {c : Bool} {b : ℤ}

section

variable (h : t.cells n = some (cell d x y q c b))

include h

theorem avlChild_same : t.avlChild n d = some x := by
  simp [avlChild, h]
theorem avlChild_not : t.avlChild n (!d) = some y := by
  simp [avlChild, h]
theorem avlXparent_eq : t.avlXparent n = some q := by
  simp [avlXparent, h]
theorem avlXchild_eq : t.avlXchild n = some c := by
  simp [avlXchild, h]
theorem avlXbalance_eq : t.avlXbalance n = some b := by
  simp [avlXbalance, h]

theorem setAvlChild_same (p : Addr) : t.setAvlChild n d p = some (t.put n (cell d p y q c b)) := by
  cases d <;> simp [setAvlChild, modify, h, AvlNode.setAvlChild, cell]
theorem setAvlChild_not (p : Addr) :
    t.setAvlChild n (!d) p = some (t.put n (cell d x p q c b)) := by
  cases d <;> simp [setAvlChild, modify, h, AvlNode.setAvlChild, cell]
theorem avlSetparent_eq (p : Addr) : t.avlSetparent n p = some (t.put n (cell d x y p c b)) := by
  cases d <;> simp [avlSetparent, modify, h, cell]
theorem avlSetchild_eq (e : Bool) : t.avlSetchild n e = some (t.put n (cell d x y q e b)) := by
  cases d <;> simp [avlSetchild, modify, h, cell]
theorem avlSetbalance_eq (e : ℤ) : t.avlSetbalance n e = some (t.put n (cell d x y q c e)) := by
  cases d <;> simp [avlSetbalance, modify, h, cell]

end

/-! A run of writes to one node folds into a single cell. -/

variable (t n d x y q c b)

@[simp] theorem setAvlChild_put_same (p : Addr) :
    (t.put n (cell d x y q c b)).setAvlChild n d p = some (t.put n (cell d p y q c b)) := by
  rw [setAvlChild_same (put_cells_self t n _), put_put]
@[simp] theorem setAvlChild_put_not (p : Addr) :
    (t.put n (cell d x y q c b)).setAvlChild n (!d) p = some (t.put n (cell d x p q c b)) := by
  rw [setAvlChild_not (put_cells_self t n _), put_put]
@[simp] theorem avlSetparent_put (p : Addr) :
    (t.put n (cell d x y q c b)).avlSetparent n p = some (t.put n (cell d x y p c b)) := by
  rw [avlSetparent_eq (put_cells_self t n _), put_put]
@[simp] theorem avlSetchild_put (e : Bool) :
    (t.put n (cell d x y q c b)).avlSetchild n e = some (t.put n (cell d x y q e b)) := by
  rw [avlSetchild_eq (put_cells_self t n _), put_put]
@[simp] theorem avlSetbalance_put (e : ℤ) :
    (t.put n (cell d x y q c b)).avlSetbalance n e = some (t.put n (cell d x y q c e)) := by
  rw [avlSetbalance_eq (put_cells_self t n _), put_put]

end AvlTree

/-! ## Trees in memory -/

/-- The address of the root, `NULL` for the empty tree. -/
def BinTree.rootAddr : BinTree Addr → Addr
  | nil => 0
  | node _ p _ _ => p

@[simp] theorem rootAddr_nil : (nil : BinTree Addr).rootAddr = 0 := rfl
@[simp] theorem rootAddr_node (l r : BinTree Addr) (p : Addr) (b : ℤ) :
    (node l p b r).rootAddr = p := rfl
@[simp] theorem rootAddr_join (d : Bool) (x y : BinTree Addr) (p : Addr) (b : ℤ) :
    (join d x p b y).rootAddr = p := by cases d <;> rfl

/-- The memory holds the tree, whose root is child `c` of `q`. -/
def Lay (m : Addr → Option AvlNode) : Addr → Bool → BinTree Addr → Prop
  | _, _, nil => True
  | q, c, node l p b r =>
    p ≠ 0 ∧ m p = some ⟨l.rootAddr, r.rootAddr, q, c, b⟩ ∧ Lay m p false l ∧ Lay m p true r

/-- The parent of what fills the hole. -/
def parentOf (q : Addr) : Path Addr → Addr
  | [] => q
  | f :: _ => f.a

/-- The index, in its parent, of what fills the hole. -/
def sideOf (c : Bool) : Path Addr → Bool
  | [] => c
  | f :: _ => f.side

/-- The root of the whole tree, when `x` is the root of what fills the hole. -/
def topOf : Path Addr → Addr → Addr
  | [], x => x
  | f :: k, _ => topOf k f.a

/-- The memory holds the tree with a hole, filled by a subtree with root `x`. -/
def LayPath (m : Addr → Option AvlNode) (q : Addr) (c : Bool) : Path Addr → Addr → Prop
  | [], _ => True
  | f :: k, x =>
    f.a ≠ 0 ∧ m f.a = some (cell f.side x f.sib.rootAddr (parentOf q k) (sideOf c k) f.b) ∧
      Lay m f.a (!f.side) f.sib ∧ LayPath m q c k f.a

variable {t : AvlTree α} {s : BinTree Addr} {c : Bool} {k : Path Addr} {q x p : Addr}
  {f : Frame Addr}

section Layouts

variable {m m' : Addr → Option AvlNode}

@[simp] theorem lay_nil : Lay m q c nil := trivial

@[simp] theorem parentOf_nil : parentOf q [] = q := rfl
@[simp] theorem parentOf_cons (f : Frame Addr) (k : Path Addr) : parentOf q (f :: k) = f.a := rfl
@[simp] theorem sideOf_nil : sideOf c [] = c := rfl
@[simp] theorem sideOf_cons (f : Frame Addr) (k : Path Addr) : sideOf c (f :: k) = f.side := rfl
@[simp] theorem topOf_nil (x : Addr) : topOf [] x = x := rfl
@[simp] theorem topOf_cons (f : Frame Addr) (k : Path Addr) (x : Addr) :
    topOf (f :: k) x = topOf k f.a := rfl

theorem lay_join (d : Bool) (x y : BinTree Addr) (p : Addr) (b : ℤ) :
    Lay m q c (join d x p b y) ↔
      p ≠ 0 ∧ m p = some (cell d x.rootAddr y.rootAddr q c b) ∧ Lay m p d x ∧ Lay m p (!d) y := by
  cases d <;> (simp [join, Lay, cell]; try tauto)

theorem lay_rootAddr_ne (h : Lay m q c s) (hs : s ≠ nil) : s.rootAddr ≠ 0 := by
  cases s with
  | nil => exact absurd rfl hs
  | node l p b r => exact h.1

/-- Every node of a laid-out tree has an address and a cell. -/
theorem lay_mem (h : Lay m q c s) : ∀ p ∈ s.inorder, p ≠ 0 ∧ (m p).isSome := by
  induction s generalizing q c with
  | nil => simp
  | node l a b r ihl ihr =>
    obtain ⟨h0, ha, hl, hr⟩ := h
    intro p hp
    rw [inorder_node, List.mem_append, List.mem_cons] at hp
    rcases hp with hp | rfl | hp
    · exact ihl hl p hp
    · exact ⟨h0, by simp [ha]⟩
    · exact ihr hr p hp

/-- A layout reads only the cells of its own nodes. -/
theorem Lay.congr (h : Lay m q c s) (hm : ∀ p ∈ s.inorder, m' p = m p) : Lay m' q c s := by
  induction s generalizing q c with
  | nil => trivial
  | node l p b r ihl ihr =>
    obtain ⟨h0, hp, hl, hr⟩ := h
    refine ⟨h0, ?_, ihl hl ?_, ihr hr ?_⟩
    · rw [hm p (by simp), hp]
    · intro a ha; exact hm a (by simp [ha])
    · intro a ha; exact hm a (by simp [ha])

theorem LayPath.congr (h : LayPath m q c k x) (hm : ∀ p ∈ labels k, m' p = m p) :
    LayPath m' q c k x := by
  induction k generalizing x with
  | nil => trivial
  | cons f k ih =>
    obtain ⟨h0, hf, hs, hk⟩ := h
    refine ⟨h0, ?_, hs.congr ?_, ih hk ?_⟩
    · rw [hm f.a (by simp), hf]
    · intro a ha; exact hm a (by simp [ha])
    · intro a ha; exact hm a (by simp [ha])

theorem lay_plug (k : Path Addr) (s : BinTree Addr) :
    Lay m q c (plug k s) ↔
      LayPath m q c k s.rootAddr ∧ Lay m (parentOf q k) (sideOf c k) s := by
  induction k generalizing s with
  | nil => simp [LayPath]
  | cons f k ih =>
    rw [plug_cons, ih, Frame.fill, lay_join, rootAddr_join]
    simp only [LayPath, parentOf_cons, sideOf_cons]
    tauto

theorem rootAddr_plug (k : Path Addr) (s : BinTree Addr) :
    (plug k s).rootAddr = topOf k s.rootAddr := by
  induction k generalizing s with
  | nil => rfl
  | cons f k ih => rw [plug_cons, ih, Frame.fill, rootAddr_join, topOf_cons]

theorem parentOf_append (q : Addr) (k₁ k₂ : Path Addr) :
    parentOf q (k₁ ++ k₂) = parentOf (parentOf q k₂) k₁ := by
  cases k₁ <;> rfl

theorem sideOf_append (c : Bool) (k₁ k₂ : Path Addr) :
    sideOf c (k₁ ++ k₂) = sideOf (sideOf c k₂) k₁ := by
  cases k₁ <;> rfl

theorem layPath_append (k₁ k₂ : Path Addr) (x : Addr) :
    LayPath m q c (k₁ ++ k₂) x ↔
      LayPath m (parentOf q k₂) (sideOf c k₂) k₁ x ∧ LayPath m q c k₂ (topOf k₁ x) := by
  induction k₁ generalizing x with
  | nil => simp [LayPath]
  | cons f k ih =>
    rw [List.cons_append, LayPath, LayPath, ih, parentOf_append, sideOf_append, topOf_cons]
    tauto

theorem topOf_append (k₁ k₂ : Path Addr) (x : Addr) :
    topOf (k₁ ++ k₂) x = topOf k₂ (topOf k₁ x) := by
  induction k₁ generalizing x with
  | nil => rfl
  | cons f k ih => rw [List.cons_append, topOf_cons, ih, topOf_cons]

end Layouts

/-! ## Focused trees -/

/-- The tree `plug k s` is laid out, with the focus on `s`. -/
structure At (t : AvlTree α) (c : Bool) (k : Path Addr) (s : BinTree Addr) : Prop where
  root : t.avlRoot = topOf k s.rootAddr
  path : LayPath t.cells 0 c k s.rootAddr
  tree : Lay t.cells (parentOf 0 k) (sideOf c k) s

/-- The tree `s` is laid out and is the whole of `t`.  Nodes are aligned, so that
the low bit of an address can hold a child index. -/
structure Linked (t : AvlTree α) (s : BinTree Addr) : Prop where
  root : t.avlRoot = s.rootAddr
  lay : ∃ c, Lay t.cells 0 c s
  nodup : s.inorder.Nodup
  even : ∀ p ∈ s.inorder, 2 ∣ p

/-- A linked tree whose balances and whose count are right. -/
structure AvlTree.Valid (t : AvlTree α) (s : BinTree Addr) : Prop where
  linked : Linked t s
  balanced : s.Balanced
  numnodes : t.avlNumnodes = s.inorder.length

/-- Only the root, the count and the cells of the nodes matter. -/
theorem AvlTree.Valid.congr {t' : AvlTree α} (h : t.Valid s) (hroot : t'.avlRoot = t.avlRoot)
    (hnum : t'.avlNumnodes = t.avlNumnodes) (hcells : ∀ p ∈ s.inorder, t'.cells p = t.cells p) :
    t'.Valid s := by
  obtain ⟨c, hlay⟩ := h.linked.lay
  exact ⟨⟨hroot.trans h.linked.root, ⟨c, hlay.congr hcells⟩, h.linked.nodup, h.linked.even⟩,
    h.balanced, hnum.trans h.numnodes⟩

theorem at_iff : At t c k s ↔ t.avlRoot = (plug k s).rootAddr ∧ Lay t.cells 0 c (plug k s) := by
  rw [lay_plug, rootAddr_plug]
  constructor
  · rintro ⟨h1, h2, h3⟩
    exact ⟨h1, h2, h3⟩
  · rintro ⟨h1, h2, h3⟩
    exact ⟨h1, h2, h3⟩

/-- A linked tree with the focus at any hole. -/
theorem Linked.focus (h : Linked t (plug k s)) : ∃ c, At t c k s := by
  obtain ⟨c, hlay⟩ := h.lay
  exact ⟨c, at_iff.mpr ⟨h.root, hlay⟩⟩

/-- A linked tree with the focus on a node. -/
theorem Linked.focus_node {l₁ l₂ : List Addr} (h : Linked t s) (hl : s.inorder = l₁ ++ p :: l₂) :
    ∃ c k l b r, s = plug k (node l p b r) ∧ At t c k (node l p b r) ∧ l₁ = before k ++ l.inorder ∧
      l₂ = r.inorder ++ after k := by
  obtain ⟨k, l, b, r, rfl⟩ := exists_plug_of_mem (t := s) (p := p) (by simp [hl])
  obtain ⟨c, hat⟩ := h.focus
  exact ⟨c, k, l, b, r, rfl, hat, split_inorder_plug h.nodup hl⟩

theorem Linked.mem (h : Linked t s) (hp : p ∈ s.inorder) : p ≠ 0 ∧ (t.cells p).isSome := by
  obtain ⟨c, hlay⟩ := h.lay
  exact lay_mem hlay p hp

theorem Linked.object (h : Linked t s) (hp : p ∈ s.inorder) : t.object p = some (t.data p) := by
  obtain ⟨n, hn⟩ := Option.isSome_iff_exists.mp (h.mem hp).2
  simp [AvlTree.object, hn]

/-- Moving the focus up one level. -/
theorem At.up (h : At t c (f :: k) s) : At t c k (f.fill s) :=
  at_iff.mpr (at_iff (k := f :: k).mp h)

/-- Moving the focus down one level. -/
theorem At.down (h : At t c k (f.fill s)) : At t c (f :: k) s :=
  at_iff.mpr (at_iff (k := k).mp h)

theorem put_alloc {a : Addr} {n : AvlNode} (ha : (t.cells a).isSome) :
    ((t.put p n).cells a).isSome := by
  by_cases h : a = p
  · simp [h]
  · simpa [h] using ha

theorem release_of_ne {a : Addr} (h : a ≠ p) : (t.release p).cells a = t.cells a :=
  Function.update_of_ne h ..

/-- An update that keeps the comparison, the objects and the count, and every
cell outside `S`.  It frees no cell. -/
structure Within (S : Addr → Prop) (t t' : AvlTree α) : Prop where
  compar : t'.avlCompar = t.avlCompar
  data : t'.data = t.data
  numnodes : t'.avlNumnodes = t.avlNumnodes
  cells : ∀ p, ¬ S p → t'.cells p = t.cells p
  alloc : ∀ p, (t.cells p).isSome → (t'.cells p).isSome

variable {S S' : Addr → Prop} {t' : AvlTree α}

namespace Within

variable {t'' : AvlTree α}

theorem refl (t : AvlTree α) : Within S t t :=
  ⟨rfl, rfl, rfl, fun _ _ => rfl, fun _ => id⟩

theorem trans (h : Within S t t') (h' : Within S t' t'') : Within S t t'' where
  compar := h'.compar.trans h.compar
  data := h'.data.trans h.data
  numnodes := h'.numnodes.trans h.numnodes
  cells := fun p hp => (h'.cells p hp).trans (h.cells p hp)
  alloc := fun p hp => h'.alloc p (h.alloc p hp)

theorem mono (h : Within S t t') (hS : ∀ p, S p → S' p) : Within S' t t' where
  compar := h.compar
  data := h.data
  numnodes := h.numnodes
  cells := fun p hp => h.cells p fun hs => hp (hS p hs)
  alloc := h.alloc

theorem put (hp : S p) (n : AvlNode) : Within S t (t.put p n) where
  compar := rfl
  data := rfl
  numnodes := rfl
  cells := fun a ha => by
    have : a ≠ p := by rintro rfl; exact ha hp
    simp [this]
  alloc := fun _ => put_alloc

end Within

/-! ## Updates of a laid-out tree -/

/-- The frame rules: a layout is kept by updates of other cells. -/
theorem Lay.frame (h : Lay t.cells q c s) (hw : Within S t t') (hS : ∀ p ∈ s.inorder, ¬ S p) :
    Lay t'.cells q c s :=
  h.congr fun p hp => hw.cells p (hS p hp)

theorem LayPath.frame (h : LayPath t.cells q c k x) (hw : Within S t t')
    (hS : ∀ p ∈ labels k, ¬ S p) : LayPath t'.cells q c k x :=
  h.congr fun p hp => hw.cells p (hS p hp)

theorem Lay.put (h : Lay t.cells q c s) (hp : p ∉ s.inorder) (n : AvlNode) :
    Lay (t.put p n).cells q c s :=
  h.frame (Within.put rfl n) fun _ ha e => hp (e ▸ ha)

theorem LayPath.put (h : LayPath t.cells q c k x) (hp : p ∉ labels k) (n : AvlNode) :
    LayPath (t.put p n).cells q c k x :=
  h.frame (Within.put rfl n) fun _ ha e => hp (e ▸ ha)

/-- A new parent and a new index in the root cell move the whole subtree. -/
theorem Lay.put_root {l r : BinTree Addr} {b : ℤ} (h : Lay t.cells q c (node l p b r))
    (hs : (node l p b r).inorder.Nodup) (q' : Addr) (c' : Bool) :
    Lay (t.put p (cell false l.rootAddr r.rootAddr q' c' b)).cells q' c' (node l p b r) := by
  obtain ⟨h0, hp, hl, hr⟩ := h
  rw [inorder_node, List.nodup_append, List.nodup_cons] at hs
  obtain ⟨-, ⟨hpr, -⟩, hdis⟩ := hs
  exact ⟨h0, by simp [cell], hl.put (fun hpl => hdis p hpl p (by simp) rfl) _, hr.put hpr _⟩

/-- Relinking a subtree gives it a new parent and a new index there. -/
theorem relink_spec (h : Lay t.cells q c s) (hs : s.inorder.Nodup) (q' : Addr) (c' : Bool) :
    ∃ t', t.relink s.rootAddr q' c' = some t' ∧ Lay t'.cells q' c' s ∧
      t'.avlRoot = t.avlRoot ∧ Within (· ∈ s.inorder) t t' := by
  cases s with
  | nil => exact ⟨t, rfl, trivial, rfl, Within.refl t⟩
  | node l p b r =>
    have hc : t.cells p = some (cell false l.rootAddr r.rootAddr q c b) := h.2.1
    refine ⟨_, ?_, h.put_root hs q' c', rfl, Within.put (by simp) _⟩
    simp [relink, h.1, avlSetparent_eq hc]

/-- `AVL_SETPARENT` on the root of a subtree. -/
theorem avlSetparent_spec (h : Lay t.cells q c s) (hs : s.inorder.Nodup) (hne : s ≠ nil)
    (q' : Addr) :
    ∃ t', t.avlSetparent s.rootAddr q' = some t' ∧ Lay t'.cells q' c s ∧
      t'.avlRoot = t.avlRoot ∧ Within (· ∈ s.inorder) t t' := by
  cases s with
  | nil => exact absurd rfl hne
  | node l p b r =>
    have hc : t.cells p = some (cell false l.rootAddr r.rootAddr q c b) := h.2.1
    exact ⟨_, avlSetparent_eq hc q', h.put_root hs q' c, rfl, Within.put (by simp) _⟩

/-- Filling a hole with a subtree that has another root. -/
theorem LayPath.put_hole (h : LayPath t.cells q c (f :: k) x) (hk : (labels (f :: k)).Nodup)
    (x' : Addr) :
    LayPath (t.put f.a (cell f.side x' f.sib.rootAddr (parentOf q k) (sideOf c k) f.b)).cells
      q c (f :: k) x' := by
  obtain ⟨h0, hf, hs, hk'⟩ := h
  rw [nodup_labels_cons] at hk
  obtain ⟨hfs, hfk, -⟩ := hk
  exact ⟨h0, by simp, hs.put hfs _, hk'.put hfk _⟩

/-- `AVL_SETPARENT` on the topmost node of a path that is not empty. -/
theorem avlSetparent_topOf (h : LayPath t.cells q c k x) (hk : (labels k).Nodup) (hne : k ≠ [])
    (q' : Addr) :
    ∃ t', t.avlSetparent (topOf k x) q' = some t' ∧ LayPath t'.cells q' c k x ∧
      t'.avlRoot = t.avlRoot ∧ Within (· ∈ labels k) t t' := by
  induction k generalizing x with
  | nil => exact absurd rfl hne
  | cons f k ih =>
    obtain ⟨h0, hf, hs, hk'⟩ := h
    rw [nodup_labels_cons] at hk
    obtain ⟨hfs, hfk, hsk, -, hkn⟩ := hk
    cases k with
    | nil =>
      exact ⟨_, avlSetparent_eq hf q', ⟨h0, by simp, hs.put hfs _, trivial⟩, rfl,
        Within.put (by simp) _⟩
    | cons g k =>
      obtain ⟨t', hrun, hpath, hroot, hwithin⟩ := ih hk' hkn (by simp)
      refine ⟨t', hrun, ⟨h0, ?_, hs.congr fun a ha => hwithin.cells a (hsk a ha), hpath⟩, hroot,
        hwithin.mono fun a ha => by simp at ha ⊢; tauto⟩
      rw [hwithin.cells f.a hfk, hf]
      rfl

/-- Writing the child pointer above a hole puts another root there. -/
theorem setAvlChild_hole (h : LayPath t.cells q c k x) (hk : (labels k).Nodup) (hne : k ≠ [])
    (x' : Addr) :
    ∃ t', t.setAvlChild (parentOf q k) (sideOf c k) x' = some t' ∧ LayPath t'.cells q c k x' ∧
      t'.avlRoot = t.avlRoot ∧ Within (· ∈ labels k) t t' := by
  cases k with
  | nil => exact absurd rfl hne
  | cons f k =>
    exact ⟨_, setAvlChild_same h.2.1 x', h.put_hole hk x', rfl, Within.put (by simp) _⟩

/-- Writing the slot above a hole, which may be `avl_root`. -/
theorem setSlot_spec (h : LayPath t.cells 0 c k x) (hk : (labels k).Nodup)
    (hr : t.avlRoot = topOf k x) (x' : Addr) :
    ∃ t', t.setSlot (parentOf 0 k) (sideOf c k) x' = some t' ∧ LayPath t'.cells 0 c k x' ∧
      t'.avlRoot = topOf k x' ∧ Within (· ∈ labels k) t t' := by
  cases k with
  | nil =>
    exact ⟨{ t with avlRoot := x' }, rfl, trivial, rfl, ⟨rfl, rfl, rfl, fun _ _ => rfl,
      fun _ => id⟩⟩
  | cons f k =>
    obtain ⟨t', hrun, hpath, hroot, hwithin⟩ := setAvlChild_hole h hk (by simp) x'
    refine ⟨t', ?_, hpath, hroot.trans hr, hwithin⟩
    simp only [setSlot, parentOf_cons, ne_eq, h.1, not_false_eq_true, if_true]
    exact hrun

/-- A subtree that was rewritten is put into the slot above it. -/
theorem At.replant {s' : BinTree Addr} (h : At t c k s) (hk : (labels k).Nodup) (hw : Within S t t')
    (hS : ∀ p ∈ labels k, ¬ S p)
    (hr : t'.avlRoot = t.avlRoot) (hs' : Lay t'.cells (parentOf 0 k) (sideOf c k) s')
    (hdis : ∀ p ∈ s'.inorder, p ∉ labels k) :
    ∃ t'', t'.setSlot (parentOf 0 k) (sideOf c k) s'.rootAddr = some t'' ∧ At t'' c k s' ∧
      Within (fun p => S p ∨ p ∈ labels k) t t'' := by
  obtain ⟨t'', hrun, hpath, hroot, hwithin⟩ :=
    setSlot_spec (h.path.frame hw hS) hk (hr.trans h.root) s'.rootAddr
  exact ⟨t'', hrun, ⟨hroot, hpath, hs'.frame hwithin hdis⟩,
    (hw.mono fun _ => .inl).trans (hwithin.mono fun _ => .inr)⟩

end Polaris
