import Mathlib.Data.List.Nodup
import Mathlib.Data.List.Perm.Basic
import Mathlib.Tactic.Linarith

/-!
# Binary trees with stored balances, and trees with a hole

A `BinTree α` carries a label and an integer balance at every node.  The balance is
data: `Balanced` says when every stored balance is the difference of the two
heights and lies in `{-1, 0, 1}`.

Sides are booleans, `false` for the left one.  `BinTree.join d x a b y` is the node
whose child on side `d` is `x`, so that a statement about one side is a statement
about both.

A `Path α` is a tree with a hole, innermost frame first, and `plug` fills the
hole.  Algorithms that climb by parent links are recursions on a path.

## Main definitions

* `BinTree`, `BinTree.join`, `BinTree.inorder`, `BinTree.postorder`, `BinTree.height`,
  `BinTree.Balanced`.
* `Frame`, `Path`, `plug` — one-hole contexts.
* `before`, `after`, `near` — the labels on either side of the hole.
* `Fits` — the balances of a path are right for a hole of a given height.
-/

namespace Polaris

universe u

/-- A binary tree whose nodes carry a label and a stored balance. -/
inductive BinTree (α : Type u) where
  | nil
  | node (l : BinTree α) (a : α) (b : ℤ) (r : BinTree α)
  deriving DecidableEq

variable (d : Bool) (t x y : BinTree α) (a : α) (b : ℤ)

namespace BinTree

variable {α : Type u}

/-- The labels from left to right. -/
def inorder : BinTree α → List α
  | nil => []
  | node l a _ r => l.inorder ++ a :: r.inorder

/-- The labels with every node after its subtrees. -/
def postorder : BinTree α → List α
  | nil => []
  | node l a _ r => l.postorder ++ r.postorder ++ [a]

/-- The number of nodes on a longest branch. -/
def height : BinTree α → ℤ
  | nil => 0
  | node l _ _ r => max l.height r.height + 1

/-- Every stored balance is the height of the right subtree less that of the
left, and the two heights differ by at most one. -/
def Balanced : BinTree α → Prop
  | nil => True
  | node l _ b r => b = r.height - l.height ∧ -1 ≤ b ∧ b ≤ 1 ∧ l.Balanced ∧ r.Balanced

instance decidableBalanced : (t : BinTree α) → Decidable t.Balanced
  | nil => isTrue trivial
  | node l _ b r =>
    have := decidableBalanced l
    have := decidableBalanced r
    inferInstanceAs (Decidable (b = r.height - l.height ∧ -1 ≤ b ∧ b ≤ 1 ∧ l.Balanced ∧ r.Balanced))

/-- The stored balance of the root, zero for the empty tree. -/
def bal : BinTree α → ℤ
  | nil => 0
  | node _ _ b _ => b

/-- The node with `x` on side `d` and `y` on the other. -/
def join (d : Bool) (x : BinTree α) (a : α) (b : ℤ) (y : BinTree α) : BinTree α :=
  if d then node y a b x else node x a b y

/-- The labels in the direction `d`: ascending for `true`, descending for `false`. -/
def toward (d : Bool) (t : BinTree α) : List α :=
  if d then t.inorder else t.inorder.reverse

variable (l r : BinTree α)

@[simp] theorem inorder_nil : (nil : BinTree α).inorder = [] := rfl
@[simp] theorem inorder_node (a : α) (b : ℤ) :
    (node l a b r).inorder = l.inorder ++ a :: r.inorder := rfl
@[simp] theorem postorder_nil : (nil : BinTree α).postorder = [] := rfl
@[simp] theorem postorder_node (a : α) (b : ℤ) :
    (node l a b r).postorder = l.postorder ++ r.postorder ++ [a] := rfl
@[simp] theorem height_nil : (nil : BinTree α).height = 0 := rfl
@[simp] theorem height_node (a : α) (b : ℤ) :
    (node l a b r).height = max l.height r.height + 1 := rfl
@[simp] theorem balanced_nil : (nil : BinTree α).Balanced := trivial
@[simp] theorem toward_nil : (nil : BinTree α).toward d = [] := by cases d <;> rfl

/-- The two ways to look at one node. -/
theorem join_not : join (!d) x a b y = join d y a b x := by
  cases d <;> rfl

/-- Every tree but the empty one is a node seen from side `d`. -/
theorem eq_nil_or_join : t = nil ∨ ∃ x a b y, t = join d x a b y := by
  cases t with
  | nil => exact Or.inl rfl
  | node l a b r =>
    cases d
    · exact Or.inr ⟨l, a, b, r, rfl⟩
    · exact Or.inr ⟨r, a, b, l, rfl⟩

/-- Induction over a tree as seen from side `d`. -/
theorem join_induction {P : BinTree α → Prop} (nil : P nil)
    (join : ∀ x a b y, P x → P y → P (join d x a b y)) (t : BinTree α) : P t := by
  induction t with
  | nil => exact nil
  | node l a b r ihl ihr =>
    cases d
    · exact join l a b r ihl ihr
    · exact join r a b l ihr ihl

@[simp] theorem length_inorder_join :
    (join d x a b y).inorder.length = x.inorder.length + y.inorder.length + 1 := by
  cases d <;> simp [join] <;> omega

@[simp] theorem height_join : (join d x a b y).height = max x.height y.height + 1 := by
  cases d <;> simp [join, max_comm]

@[simp] theorem bal_join : (join d x a b y).bal = b := by
  cases d <;> rfl

theorem height_nonneg (t : BinTree α) : 0 ≤ t.height := by
  cases t with
  | nil => exact le_refl 0
  | node l a b r =>
    have hl := height_nonneg l
    simp only [height_node]
    omega

theorem height_pos_of_ne_nil {t : BinTree α} (h : t ≠ nil) : 1 ≤ t.height := by
  cases t with
  | nil => exact absurd rfl h
  | node l a b r =>
    have hl := height_nonneg l
    simp only [height_node]
    omega

theorem eq_nil_of_height_le_zero {t : BinTree α} (h : t.height ≤ 0) : t = nil := by
  by_contra hne
  have := height_pos_of_ne_nil hne
  omega

/-- Membership in a node, seen from either side. -/
@[simp] theorem mem_inorder_join (d : Bool) (x y : BinTree α) (a p : α) (b : ℤ) :
    p ∈ (join d x a b y).inorder ↔ p = a ∨ p ∈ x.inorder ∨ p ∈ y.inorder := by
  cases d <;> simp [join] <;> tauto

/-- Pairwise distinct labels of a node, seen from either side. -/
theorem nodup_inorder_join :
    (join d x a b y).inorder.Nodup ↔
      a ∉ x.inorder ∧ a ∉ y.inorder ∧ (∀ p ∈ x.inorder, p ∉ y.inorder) ∧
        x.inorder.Nodup ∧ y.inorder.Nodup := by
  cases d <;> simp [join, List.nodup_append, List.nodup_cons] <;> grind

@[simp] theorem toward_join_not :
    (join d x a b y).toward (!d) = x.toward (!d) ++ a :: y.toward (!d) := by
  cases d <;> simp [join, toward]

theorem postorder_perm_inorder : t.postorder.Perm t.inorder := by
  induction t with
  | nil => exact List.Perm.refl _
  | node l a b r ihl ihr =>
    simp only [postorder_node, inorder_node, List.append_assoc]
    exact (ihl.append ((ihr.append_right [a]).trans List.perm_append_comm))

@[simp] theorem length_postorder : t.postorder.length = t.inorder.length :=
  (postorder_perm_inorder t).length_eq

/-- Which way a side leans: `-1` for the left one and `1` for the right one. -/
def lean (d : Bool) : ℤ := if d then 1 else -1

@[simp] theorem lean_not : lean (!d) = -lean d := by cases d <;> rfl

theorem lean_eq : lean d = 1 ∨ lean d = -1 := by cases d <;> simp [lean]

/-- The two values of a balance, which make it linear. -/
theorem lean_mul (z : ℤ) : lean d = 1 ∧ lean d * z = z ∨ lean d = -1 ∧ lean d * z = -z := by
  cases d <;> simp [lean]

/-- The balance condition of a node, seen from side `d`. -/
theorem balanced_join :
    (join d x a b y).Balanced ↔
      b = lean d * (x.height - y.height) ∧ -1 ≤ b ∧ b ≤ 1 ∧ x.Balanced ∧ y.Balanced := by
  cases d <;> simp only [join, lean] <;> constructor <;> rintro ⟨h1, h2, h3, h4, h5⟩ <;>
    refine ⟨?_, h2, h3, ?_, ?_⟩ <;> first | assumption | (simp at h1 ⊢; omega)

end BinTree

/-! ## Trees with a hole -/

/-- One level above a hole: the hole hangs on side `side` of the node labelled
`a`, and `sib` on the other. -/
structure Frame (α : Type u) where
  side : Bool
  a : α
  b : ℤ
  sib : BinTree α
  deriving DecidableEq

/-- A tree with a hole, innermost frame first. -/
abbrev Path (α : Type u) := List (Frame α)

section Paths

variable {α : Type u}

open BinTree

/-- Fill the hole of one frame. -/
def Frame.fill (f : Frame α) (t : BinTree α) : BinTree α := join f.side t f.a f.b f.sib

/-- Fill the hole of a path. -/
def plug : Path α → BinTree α → BinTree α
  | [], t => t
  | f :: k, t => plug k (f.fill t)

/-- The labels to the left of the hole. -/
def before : Path α → List α
  | [] => []
  | f :: k => before k ++ (if f.side then f.sib.inorder ++ [f.a] else [])

/-- The labels to the right of the hole. -/
def after : Path α → List α
  | [] => []
  | f :: k => (if f.side then [] else f.a :: f.sib.inorder) ++ after k

/-- The labels on side `d` of the hole, nearest first. -/
def near (d : Bool) (k : Path α) : List α := if d then after k else (before k).reverse

/-- All labels of a path. -/
def labels (k : Path α) : List α := before k ++ after k

variable (f : Frame α) (k : Path α)

@[simp] theorem plug_nil : plug [] t = t := rfl
@[simp] theorem plug_cons (t : BinTree α) : plug (f :: k) t = plug k (f.fill t) := rfl
@[simp] theorem before_nil : before ([] : Path α) = [] := rfl
@[simp] theorem after_nil : after ([] : Path α) = [] := rfl
@[simp] theorem near_nil : near d ([] : Path α) = [] := by cases d <;> rfl

variable (k₁ k₂ : Path α)

theorem plug_append (t : BinTree α) : plug (k₁ ++ k₂) t = plug k₂ (plug k₁ t) := by
  induction k₁ generalizing t with
  | nil => rfl
  | cons f k ih => simp only [List.cons_append, plug_cons, ih]

theorem near_cons_same {d : Bool} {f : Frame α} (h : f.side = d) (k : Path α) :
    near d (f :: k) = near d k := by
  cases d <;> simp [near, before, after, h]

theorem near_cons_not {d : Bool} {f : Frame α} (h : f.side = !d) (k : Path α) :
    near d (f :: k) = f.a :: f.sib.toward d ++ near d k := by
  cases d <;> simp_all [near, before, after, toward]

theorem before_append : before (k₁ ++ k₂) = before k₂ ++ before k₁ := by
  induction k₁ with
  | nil => simp
  | cons f k ih => simp only [List.cons_append, before, ih, List.append_assoc]

theorem after_append : after (k₁ ++ k₂) = after k₁ ++ after k₂ := by
  induction k₁ with
  | nil => simp
  | cons f k ih => simp only [List.cons_append, after, ih, List.append_assoc]

/-- The hole of a path splits its labels into those before and those after. -/
theorem inorder_plug (t : BinTree α) : (plug k t).inorder = before k ++ t.inorder ++ after k := by
  induction k generalizing t with
  | nil => simp
  | cons f k ih =>
    rw [plug_cons, ih]
    obtain ⟨side, a, b, sib⟩ := f
    cases side <;> simp [Frame.fill, join, before, after]

theorem toward_plug (t : BinTree α) :
    (plug k t).toward d = (near (!d) k).reverse ++ t.toward d ++ near d k := by
  cases d <;> simp [toward, near, inorder_plug]

/-- A path that always turns to side `d` has nothing beyond its hole there. -/
theorem near_eq_nil {d : Bool} {k : Path α} (h : ∀ f ∈ k, f.side = d) : near d k = [] := by
  induction k with
  | nil => exact near_nil d
  | cons f k ih =>
    rw [near_cons_same (h f (by simp)), ih fun g hg => h g (by simp [hg])]

theorem mem_inorder_plug (t : BinTree α) (p : α) :
    p ∈ (plug k t).inorder ↔ p ∈ t.inorder ∨ p ∈ labels k := by
  simp only [inorder_plug, List.mem_append, labels]; tauto

theorem nodup_inorder_plug (t : BinTree α) :
    (plug k t).inorder.Nodup ↔
      t.inorder.Nodup ∧ (labels k).Nodup ∧ ∀ p ∈ t.inorder, p ∉ labels k := by
  simp only [inorder_plug, labels, List.nodup_append, List.mem_append]
  grind

/-- A node with one child, and that child in its place. -/
theorem inorder_plug_join_nil_perm (d : Bool) (x : BinTree α) (a : α) (b : ℤ) :
    (plug k (join d x a b nil)).inorder.Perm (a :: (plug k x).inorder) := by
  have hjoin : (join d x a b nil).inorder.Perm (a :: x.inorder) := by
    cases d with
    | false => simp [join]
    | true => simp [join]
  rw [inorder_plug, inorder_plug]
  refine (((hjoin.append_left _).append_right _).trans ?_)
  simp

theorem height_plug_congr {s s' : BinTree α} (h : s.height = s'.height) :
    (plug k s).height = (plug k s').height := by
  induction k generalizing s s' with
  | nil => exact h
  | cons f k ih => exact ih (by rw [Frame.fill, Frame.fill, height_join, height_join, h])

theorem length_inorder_plug (t : BinTree α) :
    (plug k t).inorder.length = t.inorder.length + (labels k).length := by
  simp only [inorder_plug, labels, List.length_append]; omega

@[simp] theorem labels_nil : labels ([] : Path α) = [] := rfl

@[simp] theorem mem_labels_cons (p : α) :
    p ∈ labels (f :: k) ↔ p = f.a ∨ p ∈ f.sib.inorder ∨ p ∈ labels k := by
  obtain ⟨side, a, b, sib⟩ := f
  cases side <;> simp [labels, before, after] <;> tauto

theorem nodup_labels_cons :
    (labels (f :: k)).Nodup ↔
      f.a ∉ f.sib.inorder ∧ f.a ∉ labels k ∧ (∀ p ∈ f.sib.inorder, p ∉ labels k) ∧
        f.sib.inorder.Nodup ∧ (labels k).Nodup := by
  obtain ⟨side, a, b, sib⟩ := f
  cases side <;>
    simp [labels, before, after, List.nodup_append, List.nodup_cons] <;> grind

theorem length_labels : (labels k).length = (before k).length + (after k).length := by
  simp [labels]

theorem length_le_labels : k.length ≤ (labels k).length := by
  induction k with
  | nil => simp
  | cons f k ih =>
    rw [length_labels] at ih ⊢
    obtain ⟨side, a, b, sib⟩ := f
    cases side <;> simp [before, after] <;> omega

/-- Every label of a tree is the root of a subtree at some hole. -/
theorem exists_plug_of_mem {t : BinTree α} {p : α} (h : p ∈ t.inorder) :
    ∃ k l b r, t = plug k (node l p b r) := by
  induction t with
  | nil => simp at h
  | node l a b r ihl ihr =>
    rw [inorder_node, List.mem_append, List.mem_cons] at h
    rcases h with h | h | h
    · obtain ⟨k, l', b', r', rfl⟩ := ihl h
      exact ⟨k ++ [⟨false, a, b, r⟩], l', b', r', by simp [plug_append, Frame.fill, join]⟩
    · subst h
      exact ⟨[], l, b, r, rfl⟩
    · obtain ⟨k, l', b', r', rfl⟩ := ihr h
      exact ⟨k ++ [⟨true, a, b, l⟩], l', b', r', by simp [plug_append, Frame.fill, join]⟩

/-- With distinct labels there is one way to split the sequence at a label. -/
theorem split_inorder_plug {k : Path α} {l r : BinTree α} {p : α} {b : ℤ} {l₁ l₂ : List α}
    (hn : (plug k (node l p b r)).inorder.Nodup)
    (h : (plug k (node l p b r)).inorder = l₁ ++ p :: l₂) :
    l₁ = before k ++ l.inorder ∧ l₂ = r.inorder ++ after k := by
  rw [inorder_plug, inorder_node] at h hn
  have heq : (before k ++ l.inorder) ++ p :: (r.inorder ++ after k) = l₁ ++ p :: l₂ := by
    simpa using h
  have hn' : ((before k ++ l.inorder) ++ p :: (r.inorder ++ after k)).Nodup := by
    simpa using hn
  rw [List.nodup_middle, List.nodup_cons, List.mem_append, not_or] at hn'
  have hsplit := (List.append_cons_inj_of_notMem hn'.1.1 hn'.1.2).mp heq
  exact ⟨hsplit.1.symm, hsplit.2.2.symm⟩

/-- What a post-order walk visits after the hole. -/
def postRest : Path α → List α
  | [] => []
  | f :: k => (if f.side then [] else f.sib.postorder) ++ f.a :: postRest k

theorem postRest_append : postRest (k₁ ++ k₂) = postRest k₁ ++ postRest k₂ := by
  induction k₁ with
  | nil => rfl
  | cons f k ih => simp [postRest, ih]

theorem postorder_plug_left {k : Path α} (h : ∀ f ∈ k, f.side = false) (t : BinTree α) :
    (plug k t).postorder = t.postorder ++ postRest k := by
  induction k generalizing t with
  | nil => simp [postRest]
  | cons f k ih =>
    have hf : f.side = false := h f (by simp)
    rw [plug_cons, ih fun g hg => h g (by simp [hg])]
    simp [Frame.fill, postRest, hf, join]

theorem labels_cons_perm : (labels (f :: k)).Perm (f.sib.inorder ++ f.a :: labels k) := by
  obtain ⟨side, a, b, sib⟩ := f
  cases side with
  | false =>
    simp only [labels, before, after, Bool.false_eq_true, if_false, List.append_nil,
      List.cons_append]
    refine List.perm_middle.trans (List.Perm.trans ?_ List.perm_middle.symm)
    exact (List.perm_append_comm_assoc ..).cons _
  | true =>
    simp only [labels, before, after, if_true, List.append_assoc]
    refine (List.perm_append_comm_assoc ..).trans (List.Perm.append_left _ ?_)
    exact List.perm_middle

/-- When everything to the left of the hole is gone, the walk has the labels of
the path to visit. -/
theorem postRest_perm_labels {k : Path α} (h : ∀ f ∈ k, f.side = true → f.sib = nil) :
    (postRest k).Perm (labels k) := by
  induction k with
  | nil => rfl
  | cons f k ih =>
    have ih := ih fun g hg => h g (by simp [hg])
    refine List.Perm.trans ?_ (labels_cons_perm f k).symm
    cases hf : f.side with
    | true =>
      have hs := h f (by simp) hf
      simpa [postRest, hf, hs] using ih
    | false =>
      have hp := postorder_perm_inorder f.sib
      simpa [postRest, hf] using hp.append (ih.cons f.a)

/-- A post-order walk visits a subtree without interruption. -/
theorem postorder_plug (t : BinTree α) : ∃ u v, (plug k t).postorder = u ++ t.postorder ++ v := by
  induction k generalizing t with
  | nil => exact ⟨[], [], by simp⟩
  | cons f k ih =>
    obtain ⟨u, v, h⟩ := ih (f.fill t)
    rw [plug_cons, h]
    cases hf : f.side with
    | false => exact ⟨u, f.sib.postorder ++ f.a :: v, by simp [Frame.fill, hf, join]⟩
    | true => exact ⟨u ++ f.sib.postorder, f.a :: v, by simp [Frame.fill, hf, join]⟩

/-- The stored balances of a path are right for a hole of height `h`. -/
def Fits : Path α → ℤ → Prop
  | [], _ => True
  | f :: k, h =>
    (f.b = lean f.side * (h - f.sib.height) ∧ -1 ≤ f.b ∧ f.b ≤ 1 ∧ f.sib.Balanced) ∧
      Fits k (max h f.sib.height + 1)

theorem Fits.sib {k : Path α} {h : ℤ} (hk : Fits k h) : ∀ f ∈ k, f.sib.Balanced := by
  induction k generalizing h with
  | nil => simp
  | cons f k ih => exact List.forall_mem_cons.mpr ⟨hk.1.2.2.2, ih hk.2⟩

theorem balanced_plug (t : BinTree α) : (plug k t).Balanced ↔ t.Balanced ∧ Fits k t.height := by
  induction k generalizing t with
  | nil => simp [Fits]
  | cons f k ih =>
    rw [plug_cons, ih, Frame.fill, balanced_join, height_join, Fits]
    tauto

end Paths

/-! ## Rotations -/

namespace BinTree

variable {α : Type u}

/-- The single rotation at `a`, whose child `c` on side `d` is too tall and does
not lean the other way. -/
def rotateOne (d : Bool) (cl : BinTree α) (c : α) (cb : ℤ) (cr : BinTree α) (a : α)
    (y : BinTree α) :
    BinTree α :=
  join d cl c (cb - lean d) (join d cr a (-(cb - lean d)) y)

/-- The double rotation at `a`, whose child `c` on side `d` leans the other way,
towards its own child `g`. -/
def rotateTwo (d : Bool) (cl : BinTree α) (c : α) (gl : BinTree α) (g : α) (gb : ℤ) (gr : BinTree α)
    (a : α) (y : BinTree α) : BinTree α :=
  join d (join d cl c (if gb = -lean d then lean d else 0) gl) g 0
    (join d gr a (if gb = lean d then -lean d else 0) y)

theorem inorder_rotateOne (cl cr y : BinTree α) (c a : α) (cb b : ℤ) :
    (rotateOne d cl c cb cr a y).inorder = (join d (join d cl c cb cr) a b y).inorder := by
  cases d <;> simp [rotateOne, join]

theorem inorder_rotateTwo (cl gl gr y : BinTree α) (c g a : α) (cb gb b : ℤ) :
    (rotateTwo d cl c gl g gb gr a y).inorder =
      (join d (join d cl c cb (join d gl g gb gr)) a b y).inorder := by
  cases d <;> simp [rotateTwo, join]

/-- A single rotation restores the balance.  The height drops by one exactly when
the tall child leaned outwards. -/
theorem balanced_rotateOne {d : Bool} {cl cr y : BinTree α} {c a : α} {cb : ℤ}
    (hx : (join d cl c cb cr).Balanced) (hy : y.Balanced)
    (hh : (join d cl c cb cr).height = y.height + 2) (hcb : cb ≠ -lean d) :
    (rotateOne d cl c cb cr a y).Balanced ∧
      (rotateOne d cl c cb cr a y).height = y.height + 2 + (if cb = 0 then 1 else 0) := by
  rw [balanced_join] at hx
  obtain ⟨hb, hb1, hb2, hcl, hcr⟩ := hx
  rw [height_join] at hh
  rw [rotateOne, balanced_join, balanced_join]
  simp only [height_join]
  rcases lean_eq d with hd | hd <;> rw [hd] at hb hcb ⊢
  all_goals
    refine ⟨⟨?_, ?_, ?_, hcl, ?_, ?_, ?_, hcr, hy⟩, ?_⟩
    all_goals (try split) <;> omega

/-- A double rotation restores the balance and lowers the height by one. -/
theorem balanced_rotateTwo {d : Bool} {cl gl gr y : BinTree α} {c g a : α} {gb : ℤ}
    (hx : (join d cl c (-lean d) (join d gl g gb gr)).Balanced) (hy : y.Balanced)
    (hh : (join d cl c (-lean d) (join d gl g gb gr)).height = y.height + 2) :
    (rotateTwo d cl c gl g gb gr a y).Balanced ∧
      (rotateTwo d cl c gl g gb gr a y).height = y.height + 2 := by
  rw [balanced_join, balanced_join, height_join] at hx
  obtain ⟨hb, -, -, hcl, hg, hg1, hg2, hgl, hgr⟩ := hx
  rw [height_join, height_join] at hh
  rw [rotateTwo, balanced_join, balanced_join, balanced_join]
  simp only [height_join]
  rcases lean_eq d with hd | hd <;> simp only [hd] at hb hg ⊢
  all_goals
    refine ⟨⟨?_, by omega, by omega, ⟨?_, ?_, ?_, hcl, hgl⟩, ⟨?_, ?_, ?_, hgr, hy⟩⟩, ?_⟩
    all_goals (try split) <;> omega

end BinTree

end Polaris
