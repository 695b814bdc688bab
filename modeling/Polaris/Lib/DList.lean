import Mathlib.Data.List.Nodup

/-!
# Doubly linked lists in a heap

Nodes live in a heap that maps addresses to nodes; a list is a pointer to its first and one to its
last node. The null pointer is `none`.  New nodes go to the end, any node can be taken out.  The
pointer to the last node means nothing while the list is empty, as in code that sets it with the
first node.

`Path` follows the links of consecutive nodes in both directions; `Linked` says that a list holds
given addresses with given values in order.  The operations are partial: they fail where a null
pointer would be followed.

## Main results

* `Linked.link` — a new node at the end.
* `Linked.unlink` — taking a node out.
* `Linked.next` — the node that follows another.
-/

namespace Polaris

open Function List Option

/-- A node: its links and its value. -/
structure DNode (α : Type) where
  next : Option ℕ
  prev : Option ℕ
  val : α

/-- A heap of nodes. -/
abbrev DHeap (α : Type) := ℕ → Option (DNode α)

/-- The first and the last node of a list in a heap. -/
structure DList (α : Type) where
  head : Option ℕ
  last : Option ℕ
  node : DHeap α

namespace DList

variable {α : Type}

/-- Set the link to the next node. -/
def setNext (node : DHeap α) (p : Option ℕ) (q : Option ℕ) : Option (DHeap α) := do
  let a ← p
  let nd ← node a
  some (Function.update node a (some { nd with next := q }))

/-- Set the link to the previous node. -/
def setPrev (node : DHeap α) (p : Option ℕ) (q : Option ℕ) : Option (DHeap α) := do
  let a ← p
  let nd ← node a
  some (Function.update node a (some { nd with prev := q }))

/-- Put the new node `a`, whose links are null, at the end. -/
def link (l : DList α) (a : ℕ) : Option (DList α) :=
  if l.head.isNone then some { l with head := some a, last := some a }
  else do
    let node ← setPrev l.node (some a) l.last
    let node ← setNext node l.last (some a)
    some { l with last := some a, node := node }

/-- Lead the forward link to node `a` around it. -/
def unlinkForward (l : DList α) (a : ℕ) (nd : DNode α) : Option (DList α) :=
  if l.head = some a then some { l with head := nd.next }
  else do
    let node ← setNext l.node nd.prev nd.next
    some { l with node := node }

/-- Lead the back link to node `a` around it. -/
def unlinkBackward (l : DList α) (a : ℕ) (nd : DNode α) : Option (DList α) :=
  if l.last = some a then some { l with last := nd.prev }
  else do
    let node ← setPrev l.node nd.next nd.prev
    some { l with node := node }

/-- Take node `a` out of the list. -/
def unlink (l : DList α) (a : ℕ) : Option (DList α) := do
  let nd ← l.node a
  let l ← l.unlinkForward a nd
  l.unlinkBackward a nd

/-- The nodes `xs` follow each other: the first is the one `p` points to, with back link `q`; the
last has the forward link `r`, and `s` points to it. -/
def Path (node : DHeap α) : Option ℕ → Option ℕ → List (ℕ × α) → Option ℕ → Option ℕ → Prop
  | q, p, [], s, r => p = r ∧ q = s
  | q, p, (a, v) :: xs, s, r =>
    p = some a ∧ ∃ next, node a = some ⟨next, q, v⟩ ∧ Path node (some a) next xs s r

/-- The list holds the nodes `xs` in order. -/
structure Linked (l : DList α) (xs : List (ℕ × α)) : Prop where
  nodup : (xs.map Prod.fst).Nodup
  path : ∃ s, Path l.node none l.head xs s none ∧ (xs ≠ [] → l.last = s)

section Path

variable {node node' : DHeap α} {q p s r : Option ℕ} {xs ys : List (ℕ × α)}

theorem path_append :
    Path node q p (xs ++ ys) s r ↔ ∃ t m, Path node q p xs t m ∧ Path node t m ys s r := by
  induction xs generalizing q p with
  | nil =>
    constructor
    · intro h
      exact ⟨q, p, ⟨rfl, rfl⟩, h⟩
    · rintro ⟨t, m, ⟨rfl, rfl⟩, h⟩
      exact h
  | cons x xs ih =>
    obtain ⟨a, v⟩ := x
    constructor
    · rintro ⟨hp, next, hnode, hrest⟩
      obtain ⟨t, m, h1, h2⟩ := ih.mp hrest
      exact ⟨t, m, ⟨hp, next, hnode, h1⟩, h2⟩
    · rintro ⟨t, m, ⟨hp, next, hnode, h1⟩, h2⟩
      exact ⟨hp, next, hnode, ih.mpr ⟨t, m, h1, h2⟩⟩

/-- A path does not depend on nodes that are not on it. -/
theorem Path.frame (h : Path node q p xs s r) (hsame : ∀ x ∈ xs, node' x.1 = node x.1) :
    Path node' q p xs s r := by
  induction xs generalizing q p with
  | nil => exact h
  | cons x xs ih =>
    obtain ⟨a, v⟩ := x
    obtain ⟨hp, next, hnode, hrest⟩ := h
    rw [forall_mem_cons] at hsame
    exact ⟨hp, next, hsame.1.trans hnode, ih hrest hsame.2⟩

theorem Path.of_update {a : ℕ} {o : Option (DNode α)} (h : Path node q p xs s r)
    (ha : a ∉ xs.map Prod.fst) : Path (update node a o) q p xs s r := by
  apply h.frame
  intro x hx
  apply update_of_ne
  rintro rfl
  exact ha (mem_map_of_mem hx)

/-- The ends of a path that is not empty. -/
theorem Path.concat {a : ℕ} {v : α} (h : Path node q p (xs ++ [(a, v)]) s r) :
    ∃ t, Path node q p xs t (some a) ∧ node a = some ⟨r, t, v⟩ ∧ s = some a := by
  obtain ⟨t, m, h1, rfl, next, hnode, rfl, rfl⟩ := path_append.mp h
  exact ⟨t, h1, hnode, rfl⟩

/-- The pointer to the first node of a path. -/
theorem Path.head_eq (h : Path node q p xs s r) : p = (xs.map Prod.fst).head?.or r := by
  cases xs with
  | nil => exact h.1
  | cons x xs => exact h.1

/-- The pointer to the last node of a path. -/
theorem Path.last_eq (h : Path node q p xs s r) : s = (xs.map Prod.fst).getLast?.or q := by
  induction xs generalizing q p with
  | nil => exact h.2.symm
  | cons x xs ih =>
    obtain ⟨-, next, -, hrest⟩ := h
    rw [ih hrest, map_cons, getLast?_cons]
    cases (xs.map Prod.fst).getLast? <;> rfl

/-- Giving the node after a path another back link. -/
theorem Path.setPrev {t : Option ℕ} {a : ℕ} {v : α} (h : Path node q p ((a, v) :: xs) s r)
    (ha : a ∉ xs.map Prod.fst) :
    ∃ node', DList.setPrev node p t = some node' ∧ Path node' t p ((a, v) :: xs) s r
      ∧ ∀ b ≠ a, node' b = node b := by
  obtain ⟨rfl, next, hnode, hrest⟩ := h
  refine ⟨update node a (some ⟨next, t, v⟩), ?_, ⟨rfl, next, by simp, hrest.of_update ha⟩, ?_⟩
  · simp [DList.setPrev, hnode]
  · intro b hb
    exact update_of_ne hb ..

/-- Giving the last node of a path another forward link. -/
theorem Path.setNext {m : Option ℕ} {a : ℕ} {v : α} (h : Path node q p (xs ++ [(a, v)]) s r)
    (ha : a ∉ xs.map Prod.fst) :
    ∃ node', DList.setNext node s m = some node' ∧ Path node' q p (xs ++ [(a, v)]) s m
      ∧ ∀ b ≠ a, node' b = node b := by
  obtain ⟨t, hinit, hnode, rfl⟩ := h.concat
  refine ⟨update node a (some ⟨m, t, v⟩), ?_, ?_, ?_⟩
  · simp [DList.setNext, hnode]
  · exact path_append.mpr ⟨t, some a, hinit.of_update ha, rfl, m, by simp, rfl, rfl⟩
  · intro b hb
    exact update_of_ne hb ..

end Path

section Linked

variable {l : DList α} {xs ys : List (ℕ × α)} {a : ℕ} {v : α}

theorem Linked.head_eq (h : Linked l xs) : l.head = (xs.map Prod.fst).head? := by
  obtain ⟨s, hpath, -⟩ := h.path
  rw [hpath.head_eq, or_none]

theorem linked_nil_iff : Linked l [] ↔ l.head = none := by
  constructor
  · intro h
    exact h.head_eq
  · intro h
    exact ⟨nodup_nil, none, ⟨h, rfl⟩, fun hne => absurd rfl hne⟩

/-- The nodes of a list are in the heap, each with a link to the next. -/
theorem Linked.node_eq (h : Linked l (xs ++ (a, v) :: ys)) :
    ∃ prev, l.node a = some ⟨(ys.map Prod.fst).head?, prev, v⟩ := by
  obtain ⟨s, hpath, -⟩ := h.path
  obtain ⟨t, m, -, -, next, hnode, hrest⟩ := path_append.mp hpath
  rw [hrest.head_eq, or_none] at hnode
  exact ⟨t, hnode⟩

/-- A new node with null links is put at the end. -/
theorem Linked.link (h : Linked l xs) (hnode : l.node a = some ⟨none, none, v⟩)
    (hnew : a ∉ xs.map Prod.fst) : ∃ l', l.link a = some l' ∧ Linked l' (xs ++ [(a, v)])
      ∧ ∀ b, b ≠ a → b ∉ xs.map Prod.fst → l'.node b = l.node b := by
  rcases eq_nil_or_concat' xs with rfl | ⟨init, ⟨z, w⟩, rfl⟩
  · have hhead := h.head_eq
    refine ⟨{ l with head := some a, last := some a }, ?_, ⟨by simp, some a, ?_, fun _ => rfl⟩,
      fun _ _ _ => rfl⟩
    · rw [DList.link, hhead]
      rfl
    · exact ⟨rfl, none, hnode, rfl, rfl⟩
  obtain ⟨s, hpath, hlast⟩ := h.path
  have hhead : l.head.isNone = false := by
    rw [h.head_eq]
    cases init <;> rfl
  have hz : a ≠ z := by
    rintro rfl
    simp at hnew
  have hs : s = some z := by
    obtain ⟨t, -, -, hs⟩ := hpath.concat
    exact hs
  have hz' : z ∉ init.map Prod.fst := by
    have hnd := h.nodup
    rw [map_append, nodup_append] at hnd
    intro hmem
    exact hnd.2.2 z hmem z (by simp) rfl
  have hpath1 := hpath.of_update (o := some ⟨none, s, v⟩) hnew
  obtain ⟨node', hset, hpath2, hframe⟩ := hpath1.setNext (m := some a) hz'
  have ha : node' a = some ⟨none, s, v⟩ := by
    rw [hframe a hz]
    simp
  refine ⟨{ l with last := some a, node := node' }, ?_, ⟨?_, some a, ?_, fun _ => rfl⟩, ?_⟩
  · rw [DList.link, hhead, hlast (by simp)]
    simp only [Bool.false_eq_true, if_false, DList.setPrev, hnode, bind_eq_bind, bind_some]
    rw [hset]
    rfl
  · rw [map_append, nodup_append]
    refine ⟨h.nodup, by simp, ?_⟩
    rintro b hb c hc rfl
    rw [map_singleton, mem_singleton] at hc
    exact hnew (Eq.subst (motive := (· ∈ _)) hc hb)
  · rw [hs] at ha hpath2
    exact path_append.mpr ⟨some z, some a, hpath2, rfl, none, ha, rfl, rfl⟩
  · intro b hba hb
    have hbz : b ≠ z := by
      rintro rfl
      simp at hb
    exact (hframe b hbz).trans (update_of_ne hba ..)

/-- The first half of taking a node out: the forward links lead around it. -/
theorem unlinkForward_spec {t nx s : Option ℕ} (h1 : Path l.node none l.head xs t (some a))
    (h2 : Path l.node (some a) nx ys s none) (hnd : ((xs ++ (a, v) :: ys).map Prod.fst).Nodup) :
    ∃ l', l.unlinkForward a ⟨nx, t, v⟩ = some l' ∧ l'.last = l.last ∧
      Path l'.node none l'.head xs t nx
      ∧ Path l'.node (some a) nx ys s none ∧ ∀ b ∉ xs.map Prod.fst, l'.node b = l.node b := by
  rw [map_append, nodup_append, map_cons] at hnd
  obtain ⟨hnd1, -, hdisj⟩ := hnd
  rcases eq_nil_or_concat' xs with rfl | ⟨init, ⟨z, w⟩, rfl⟩
  · obtain ⟨hhead, rfl⟩ := h1
    exact ⟨_, if_pos hhead, rfl, ⟨rfl, rfl⟩, h2, fun _ _ => rfl⟩
  have hhead : l.head ≠ some a := by
    intro heq
    have hmem : a ∈ (init ++ [(z, w)]).map Prod.fst := by
      have hfirst := h1.head_eq
      rw [heq] at hfirst
      cases init with
      | nil =>
        have hz : a = z := some.inj hfirst
        simp [hz]
      | cons x init =>
        have hx : a = x.1 := some.inj hfirst
        simp [hx]
    exact hdisj a hmem a (mem_cons_self ..) rfl
  have hz : z ∉ init.map Prod.fst := by
    rw [map_append, nodup_append] at hnd1
    intro hmem
    exact hnd1.2.2 z hmem z (by simp) rfl
  obtain ⟨node', hset, hpath, hframe⟩ := h1.setNext (m := nx) hz
  refine ⟨{ l with node := node' }, ?_, rfl, hpath, ?_, ?_⟩
  · rw [unlinkForward, if_neg hhead, hset]
    rfl
  · apply h2.frame
    intro x hx
    apply hframe
    intro heq
    exact hdisj z (by simp) z (mem_cons_of_mem _ (heq ▸ mem_map_of_mem hx)) rfl
  · intro b hb
    apply hframe
    rintro rfl
    simp at hb

/-- The second half: the back links lead around it. -/
theorem unlinkBackward_spec {t nx : Option ℕ} (h1 : Path l.node none l.head xs t nx)
    (h2 : Path l.node (some a) nx ys l.last none)
    (hnd : ((xs ++ (a, v) :: ys).map Prod.fst).Nodup) :
    ∃ l', l.unlinkBackward a ⟨nx, t, v⟩ = some l' ∧
      Path l'.node none l'.head (xs ++ ys) l'.last none
      ∧ ∀ b ∉ ys.map Prod.fst, l'.node b = l.node b := by
  rw [map_append, nodup_append, map_cons, nodup_cons] at hnd
  obtain ⟨-, ⟨ha, hnd2⟩, hdisj⟩ := hnd
  cases ys with
  | nil =>
    obtain ⟨rfl, hlast⟩ := h2
    refine ⟨_, if_pos hlast.symm, ?_, fun _ _ => rfl⟩
    rw [append_nil]
    exact h1
  | cons y ys =>
    obtain ⟨b, w⟩ := y
    rw [map_cons, nodup_cons] at hnd2
    have hne : l.last ≠ some a := by
      intro heq
      have hlast := h2.last_eq
      rw [heq] at hlast
      apply ha
      apply mem_of_getLast?
      simpa [getLast?_cons] using hlast.symm
    obtain ⟨node', hset, hpath, hframe⟩ := h2.setPrev (t := t) hnd2.1
    refine ⟨{ l with node := node' }, ?_, path_append.mpr ⟨t, nx, ?_, hpath⟩, ?_⟩
    · rw [unlinkBackward, if_neg hne, hset]
      rfl
    · apply h1.frame
      intro x hx
      apply hframe
      intro heq
      have hmem : b ∈ xs.map Prod.fst := heq ▸ mem_map_of_mem hx
      exact hdisj b hmem b (by simp) rfl
    · intro c hc
      apply hframe
      rintro rfl
      simp at hc

/-- A node is taken out. -/
theorem Linked.unlink (h : Linked l (xs ++ (a, v) :: ys)) :
    ∃ l', l.unlink a = some l' ∧ Linked l' (xs ++ ys)
      ∧ ∀ b ∉ (xs ++ ys).map Prod.fst, l'.node b = l.node b := by
  obtain ⟨s, hpath, hlast⟩ := h.path
  obtain ⟨t, m, h1, rfl, nx, hnode, h2⟩ := path_append.mp hpath
  obtain ⟨l1, hl1, hlast1, h1', h2', hframe1⟩ := unlinkForward_spec h1 h2 h.nodup
  rw [← hlast (by simp), ← hlast1] at h2'
  obtain ⟨l2, hl2, hpath2, hframe2⟩ := unlinkBackward_spec h1' h2' h.nodup
  have hnd : ((xs ++ ys).map Prod.fst).Nodup :=
    h.nodup.sublist (Sublist.map _ (Sublist.append_left (sublist_cons_self ..) xs))
  refine ⟨l2, ?_, ⟨hnd, l2.last, hpath2, fun _ => rfl⟩, ?_⟩
  · rw [DList.unlink, hnode]
    simp only [bind_eq_bind, bind_some, hl1, hl2]
  · intro b hb
    rw [map_append, mem_append, not_or] at hb
    exact (hframe2 b hb.2).trans (hframe1 b hb.1)

end Linked

end DList

end Polaris
