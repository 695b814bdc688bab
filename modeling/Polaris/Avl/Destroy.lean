import Polaris.Avl.Search

/-!
# Tearing a tree down

`avl_destroy_nodes` walks a tree in post-order and is called once for each node.
The caller frees the node before the next call, so the walk resumes from a cookie
that names the parent of the freed node and the side it was on.

Between two calls the tree is a path without its hole: the freed node is gone,
and so is everything to the left of it (`Resume`).  `avlDestroyNodes_resume` is
the step lemma, and `avlDestroyLoop_resume` the loop: it hands out `postRest`,
which for the whole tree is its post-order sequence.

A freed cell is `none` in the memory, and every access to it faults.  That the
loop returns says that no freed node is read or written again.

## Main definitions

* `cookieOf`
* `Resume`
-/

namespace Polaris

open BinTree AvlTree

variable {α : Type}

/-- The cookie that is left after the node at the hole of `k`. -/
def cookieOf : Path Addr → ℕ
  | [] => childbit
  | f :: k => indexOf (f :: k)

/-- The tree between two calls, when the node `x` at the hole of `k` has been
freed. -/
structure Resume (t : AvlTree α) (c : Bool) (k : Path Addr) (x : Addr) : Prop where
  root : t.avlRoot = topOf k x
  ne_zero : x ≠ 0
  path : LayPath t.cells 0 c k x
  nodup : (postRest k).Nodup
  even : ∀ p ∈ postRest k, 2 ∣ p
  clean : ∀ f ∈ k, f.side = true → f.sib = nil
  balanced : ∀ f ∈ k, f.sib.Balanced
  numnodes : t.avlNumnodes = (postRest k).length + 1

/-- Nothing is left on the left of the hole. -/
def PathClean (k : Path Addr) : Prop := ∀ f ∈ k, (f.side = true → f.sib = nil) ∧ f.sib.Balanced

variable {t : AvlTree α} {c : Bool} {k : Path Addr} {x : Addr} {fuel n : ℕ} {s : BinTree Addr}
  {l : List Addr}

theorem avlDestroyDone_spec {d : Bool} {y z : Addr} {b : ℤ}
    (hx : t.cells x = some (cell d y z (parentOf 0 k) (sideOf c k) b))
    (hk : LayPath t.cells 0 c k x) :
    avlDestroyDone t x (parentOf 0 k) = some (x, cookieOf k, t) := by
  cases k with
  | nil => rfl
  | cons f k =>
    have h0 : f.a ≠ 0 := hk.1
    simp [avlDestroyDone, h0, avlXchild_eq hx, cookieOf, indexOf, avlMkindex]

/-- From a node without a left child the walk goes on with that node, or with the
leaf on its right. -/
theorem avlCheckRight_spec {p : Addr} {b : ℤ} {y : BinTree Addr} (h : At t c k (node nil p b y))
    (hbal : (node nil p b y).Balanced) :
    ∃ x k', avlCheckRight t p (parentOf 0 k) = some (x, cookieOf k', t) ∧
      At t c k' (node nil x 0 nil) ∧ x :: postRest k' = y.postorder ++ p :: postRest k ∧
      (k' = k ∨ k' = ⟨true, p, b, nil⟩ :: k) := by
  obtain ⟨hb, hb1, hb2, -, hy⟩ := hbal
  have hp : t.cells p = some (cell false 0 y.rootAddr (parentOf 0 k) (sideOf c k) b) := h.tree.2.1
  have hright := avlChild_not hp
  rw [Bool.not_false] at hright
  cases y with
  | nil =>
    have hb0 : b = 0 := by simpa using hb
    subst hb0
    refine ⟨p, k, ?_, h, rfl, Or.inl rfl⟩
    simpa [avlCheckRight, hright] using avlDestroyDone_spec hp h.path
  | node l g b' r =>
    -- the balance allows one level on the right, so it is a leaf
    rw [height_node] at hb
    have hl : l = nil := eq_nil_of_height_le_zero (by simp at hb; omega)
    have hr : r = nil := eq_nil_of_height_le_zero (by simp at hb; omega)
    subst hl hr
    have hb' : b' = 0 := by simpa using hy.1
    subst hb'
    have hat : At t c (⟨true, p, b, nil⟩ :: k) (node nil g 0 nil) := At.down h
    have hg0 : g ≠ 0 := hat.tree.1
    have hg : t.cells g = some (cell false 0 0 p true 0) := hat.tree.2.1
    refine ⟨g, ⟨true, p, b, nil⟩ :: k, ?_, hat, rfl, Or.inr rfl⟩
    have hdone := avlDestroyDone_spec (k := ⟨true, p, b, nil⟩ :: k) hg hat.path
    rw [parentOf_cons] at hdone
    simp [avlCheckRight, hright, hg0, hdone]

/-- The descent of `avl_destroy_nodes` ends where `avl_descend` does, and the parent
it carries is the stored one. -/
theorem avlDescendWith_eq {q : Addr} (h : Lay t.cells q c s) (hs : s ≠ nil)
    (hf : s.inorder.length ≤ fuel) :
    avlDescendWith fuel t s.rootAddr q =
      (avlDescend fuel t s.rootAddr false >>= fun p => t.avlXparent p >>= fun q =>
        pure (p, q)) := by
  induction s generalizing q c fuel with
  | nil => exact absurd rfl hs
  | node l a b r ihl _ =>
    simp only [inorder_node, List.length_append, List.length_cons] at hf
    obtain _ | fuel := fuel
    · omega
    obtain ⟨-, ha, hl, -⟩ := h
    have ha' : t.cells a = some (cell false l.rootAddr r.rootAddr q c b) := ha
    by_cases hn : l = nil
    · subst hn
      simp [avlDescendWith, avlDescend, avlChild_same ha', avlXparent_eq ha']
    · have hne := lay_rootAddr_ne hl hn
      have ih := ihl hl hn (by omega : l.inorder.length ≤ fuel)
      simp [avlDescendWith, avlDescend, avlChild_same ha', hne, ih]

/-- A walk that enters a subtree descends to its first node in post-order. -/
theorem enter_spec (h : At t c k s) (hs : s ≠ nil) (hbal : s.Balanced) (hclean : PathClean k)
    (hf : s.inorder.length ≤ fuel) :
    ∃ p q x k', avlDescend fuel t s.rootAddr false = some p ∧ t.avlXparent p = some q ∧ p ≠ 0 ∧
      avlCheckRight t p q = some (x, cookieOf k', t) ∧ At t c k' (node nil x 0 nil) ∧
      x :: postRest k' = s.postorder ++ postRest k ∧ PathClean k' := by
  obtain ⟨kx, p, b, y, rfl, hside, hrun⟩ := avlDescend_spec (d := false) h.tree hs hf
  have hat : At t c (kx ++ k) (node nil p b y) := by
    have := at_iff.mp h
    rw [← plug_append] at this
    exact at_iff.mpr this
  have hp : t.cells p = some (cell false 0 y.rootAddr (parentOf 0 (kx ++ k))
    (sideOf c (kx ++ k)) b) :=
    hat.tree.2.1
  have hsub := (balanced_plug kx (node nil p b y)).mp hbal
  obtain ⟨x, k', hcheck, hat', hpost, hk'⟩ := avlCheckRight_spec hat hsub.1
  have hclean' : PathClean (kx ++ k) := List.forall_mem_append.mpr
    ⟨fun f hf => ⟨fun hft => by simp [hside f hf] at hft, hsub.2.sib f hf⟩, hclean⟩
  refine ⟨p, _, x, k', hrun, avlXparent_eq hp, hat.tree.1, hcheck, hat', ?_, ?_⟩
  · rw [hpost, postRest_append, postorder_plug_left hside]
    simp [join]
  · rcases hk' with rfl | rfl
    · exact hclean'
    · exact List.forall_mem_cons.mpr ⟨⟨fun _ => rfl, trivial⟩, hclean'⟩

/-- A node that is handed out leaves the tree ready for the next call. -/
theorem Resume.of_done (hroot : t.avlRoot = topOf k x) (h0 : x ≠ 0)
    (hpath : LayPath t.cells 0 c k x)
    (hl : x :: postRest k = l) (hn : l.Nodup) (he : ∀ p ∈ l, 2 ∣ p) (hclean : PathClean k)
    (hnum : t.avlNumnodes = l.length) : Resume (t.release x) c k x := by
  subst hl
  rw [List.nodup_cons] at hn
  have hside f (hf : f ∈ k) := (hclean f hf).1
  have hx : x ∉ labels k := fun hm => hn.1 ((postRest_perm_labels hside).mem_iff.mpr hm)
  exact ⟨hroot, h0, hpath.congr fun a ha => release_of_ne fun e => hx (e ▸ ha), hn.2,
    fun p hp => he p (by simp [hp]), hside, fun f hf => (hclean f hf).2, hnum⟩

/-- **One call.**  It hands out the next node of the post-order walk. -/
theorem avlDestroyNodes_resume {f : Frame Addr} (h : Resume t c (f :: k) x)
    (hf : (postRest (f :: k)).length ≤ fuel) :
    ∃ x' k' t', avlDestroyNodes fuel t (cookieOf (f :: k)) = some (x', cookieOf k', t') ∧
      x' ≠ 0 ∧ x' :: postRest k' = postRest (f :: k) ∧ Resume (t'.release x') c k' x' ∧
      t'.data = t.data ∧ t'.avlCompar = t.avlCompar ∧
      ∀ a, a ∉ postRest (f :: k) → t'.cells a = t.cells a := by
  obtain ⟨hroot, -, ⟨hf0, hcell, hsib, hk⟩, hn, he, hclean, hbal, hnum⟩ := h
  have hperm := postRest_perm_labels hclean
  have hfmem : f.a ∈ postRest (f :: k) := by simp [postRest]
  obtain ⟨hfs, hfk, -⟩ := (nodup_labels_cons ..).mp (hperm.nodup_iff.mp hn)
  have heven : 2 ∣ parentOf 0 (f :: k) := he f.a hfmem
  have hnode := avlIndex2node_avlMkindex heven (sideOf false (f :: k))
  have hchild := avlIndex2child_avlMkindex heven (sideOf false (f :: k))
  -- the child pointer is cleared
  set t₁ : AvlTree α := { t.put f.a (cell f.side 0 f.sib.rootAddr (parentOf 0 k) (sideOf c k) f.b)
    with avlNumnodes := t.avlNumnodes - 1 } with ht₁
  have hf₁ : t₁.cells f.a = some (cell f.side 0 f.sib.rootAddr (parentOf 0 k)
      (sideOf c k) f.b) := by
    simp [ht₁]
  have hcells₁ : ∀ a, a ∉ postRest (f :: k) → t₁.cells a = t.cells a := by
    intro a ha
    have : a ≠ f.a := fun e => ha (e ▸ hfmem)
    simp [ht₁, this]
  have hk₁ : LayPath t₁.cells 0 c k f.a := hk.put hfk _
  have hsib₁ : Lay t₁.cells f.a (!f.side) f.sib := hsib.put hfs _
  have hnum₁ : t₁.avlNumnodes = (postRest (f :: k)).length := by simp [ht₁, hnum]
  have hcleank : PathClean k := fun g hg =>
    ⟨hclean g (List.mem_cons_of_mem f hg), hbal g (List.mem_cons_of_mem f hg)⟩
  have hrun : ∀ c1, t₁.avlChild f.a true = some c1 → avlDestroyNodes fuel t (cookieOf (f :: k)) =
      (if f.side = true ∨ c1 = 0 then t₁.avlXparent f.a >>= fun up => avlDestroyDone t₁ f.a up
        else avlDescendWith fuel t₁ c1 f.a >>= fun np => avlCheckRight t₁ np.1 np.2) := by
    intro c1 hc1
    have hset := setAvlChild_same hcell 0
    have hnode' : indexOf (f :: k) - indexOf (f :: k) % 2 = f.a := hnode
    have hne : indexOf (f :: k) ≠ 0 := by
      intro e
      rw [e] at hnode'
      exact hf0 hnode'.symm
    have hchild' : (indexOf (f :: k) % 2 == 1) = f.side := hchild
    simp only [avlDestroyNodes, cookieOf, hne, if_false, hnode', hchild', hf0]
    exact bind_of_some hset (bind_of_some hc1 rfl)
  by_cases hs : f.side = true ∨ f.sib = nil
  · have hl : f.a :: postRest k = postRest (f :: k) := by
      rcases hs with hs | hs <;> simp [postRest, hs]
    obtain ⟨c1, hc1, hif⟩ : ∃ c1, t₁.avlChild f.a true = some c1 ∧ (f.side = true ∨ c1 = 0) := by
      cases hside : f.side with
      | true =>
        rw [hside] at hf₁
        exact ⟨0, avlChild_same hf₁, Or.inl rfl⟩
      | false =>
        rw [hside] at hf₁ hs
        have hnil : f.sib = nil := by simpa using hs
        refine ⟨f.sib.rootAddr, avlChild_not hf₁, Or.inr (by rw [hnil]; rfl)⟩
    refine ⟨f.a, k, t₁, ?_, hf0, hl, Resume.of_done hroot hf0 hk₁ hl hn he hcleank hnum₁, rfl, rfl,
      hcells₁⟩
    rw [hrun c1 hc1, if_pos hif]
    exact bind_of_some (avlXparent_eq hf₁) (avlDestroyDone_spec hf₁ hk₁)
  -- the right sibling is next
  simp only [not_or, Bool.not_eq_true] at hs
  obtain ⟨hside, hsnil⟩ := hs
  rw [hside, Bool.not_false] at hsib₁
  rw [hside] at hf₁
  have hat : At t₁ c (⟨true, f.a, f.b, nil⟩ :: k) f.sib := by
    refine ⟨hroot, ⟨hf0, ?_, trivial, hk₁⟩, hsib₁⟩
    rw [hf₁]
    rfl
  have hpost : postRest (f :: k) = f.sib.postorder ++ postRest (⟨true, f.a, f.b, nil⟩ :: k) := by
    simp [postRest, hside]
  have hlen : f.sib.inorder.length ≤ fuel := by
    rw [hpost, List.length_append, length_postorder] at hf
    omega
  obtain ⟨p, q, x', k', hdesc, hq, -, hcheck, hat', hl, hclean'⟩ :=
    enter_spec hat hsnil (hbal f (by simp))
      (List.forall_mem_cons.mpr ⟨⟨fun _ => rfl, trivial⟩, hcleank⟩) hlen
  rw [← hpost] at hl
  refine ⟨x', k', t₁, ?_, hat'.tree.1, hl,
    Resume.of_done hat'.root hat'.tree.1 hat'.path hl hn he hclean' hnum₁, rfl, rfl, hcells₁⟩
  have hright := avlChild_not hf₁
  rw [Bool.not_false] at hright
  have hroot0 := lay_rootAddr_ne hsib₁ hsnil
  rw [hrun _ hright, if_neg (by simp [hside, hroot0]), avlDescendWith_eq hsib₁ hsnil hlen, hdesc]
  simp [hq, hcheck]

/-- The tree `t'` is what is left of `t` when the nodes of `l` have been freed. -/
structure Torn (t t' : AvlTree α) (l : List Addr) : Prop where
  root : t'.avlRoot = 0
  numnodes : t'.avlNumnodes = 0
  compar : t'.avlCompar = t.avlCompar
  data : t'.data = t.data
  kept : ∀ a, a ∉ l → t'.cells a = t.cells a
  freed : ∀ a ∈ l, t'.cells a = none

theorem Torn.cons {t₁ t' : AvlTree α} (h : Torn (t₁.release x) t' l) (hx : x ∉ l)
    (hcompar : t₁.avlCompar = t.avlCompar) (hdata : t₁.data = t.data)
    (hcells : ∀ a, a ∉ x :: l → t₁.cells a = t.cells a) : Torn t t' (x :: l) := by
  refine ⟨h.root, h.numnodes, h.compar.trans hcompar, h.data.trans hdata, fun a ha => ?_,
    fun a ha => ?_⟩
  · have ha' := ha
    rw [List.mem_cons, not_or] at ha
    rw [h.kept a ha.2, release_of_ne ha.1, hcells a ha']
  · rcases List.mem_cons.mp ha with rfl | ha
    · rw [h.kept _ hx]
      exact Function.update_self ..
    · exact h.freed a ha

/-- One round of the destruction loop, before rounds that fold over `l`. -/
theorem avlDestroyLoop_cons {β : Type} {body : β → Addr → α → Option β} {t₁ t' : AvlTree α}
    {cookie cookie' : ℕ} (h : avlDestroyNodes fuel t cookie = some (x, cookie', t₁)) (hx : x ≠ 0)
    (hdata : t₁.data = t.data)
    (hloop : ∀ s, avlDestroyLoop body n fuel (t₁.release x) cookie' s =
      (l.foldlM (fun s p => body s p (t.data p)) s).map fun s => (s, t')) (s : β) :
    avlDestroyLoop body (n + 1) fuel t cookie s =
      ((x :: l).foldlM (fun s p => body s p (t.data p)) s).map fun s => (s, t') := by
  rw [avlDestroyLoop, List.foldlM_cons]
  refine bind_of_some h ?_
  simp only [hx, if_false, hdata]
  cases body s x (t.data x) with
  | none => rfl
  | some s' => exact hloop s'

/-- **The loop, from any point of the walk.**  The body sees the rest of the
post-order sequence. -/
theorem avlDestroyLoop_resume (h : Resume t c k x) (hn : (postRest k).length < n)
    (hf : (postRest k).length ≤ fuel) :
    ∃ t', Torn t t' (postRest k) ∧ ∀ {β : Type} (body : β → Addr → α → Option β) (s : β),
      avlDestroyLoop body n fuel t (cookieOf k) s =
        ((postRest k).foldlM (fun s p => body s p (t.data p)) s).map fun s => (s, t') := by
  induction n generalizing t k x with
  | zero => omega
  | succ n ih =>
    cases k with
    | nil =>
      have hroot : t.avlRoot ≠ 0 := by
        rw [h.root]
        exact h.ne_zero
      refine ⟨{ t with avlRoot := 0, avlNumnodes := 0 },
        ⟨rfl, rfl, rfl, rfl, fun _ _ => rfl, by simp [postRest]⟩, fun body s => ?_⟩
      simp [avlDestroyLoop, avlDestroyNodes, cookieOf, childbit, hroot, postRest]
    | cons f k =>
      obtain ⟨x', k', t₁, hrun, hx', hl, hres, hdata, hcompar, hcells⟩ :=
        avlDestroyNodes_resume h hf
      have hnd := h.nodup
      rw [← hl] at hn hf hcells hnd ⊢
      simp only [List.length_cons] at hn hf
      obtain ⟨t', htorn, hloop⟩ := ih hres (by omega) (by omega)
      refine ⟨t', htorn.cons (List.nodup_cons.mp hnd).1 hcompar hdata hcells, fun body s => ?_⟩
      refine avlDestroyLoop_cons hrun hx' hdata (fun s => ?_) s
      have hd : (t₁.release x').data = t.data := hdata
      rw [hloop body s, hd]

/-- **Destroying a tree.**  The loop hands out the nodes in post-order and leaves
an empty tree. -/
theorem avlDestroyLoop_spec (h : t.Valid s) (hn : s.inorder.length < n)
    (hf : s.inorder.length < fuel) :
    ∃ t', Torn t t' s.postorder ∧ ∀ {β : Type} (body : β → Addr → α → Option β) (st : β),
      avlDestroyLoop body n fuel t 0 st =
        (s.postorder.foldlM (fun st p => body st p (t.data p)) st).map fun st => (st, t') := by
  obtain _ | n := n
  · omega
  by_cases hs : s = nil
  · subst hs
    obtain _ | fuel := fuel
    · omega
    have hroot : t.avlRoot = 0 := h.linked.root
    refine ⟨t, ⟨hroot, h.numnodes, rfl, rfl, fun _ _ => rfl, by simp⟩, fun body st => ?_⟩
    simp [avlDestroyLoop, avlDestroyNodes, avlFirst, avlEnd, hroot]
  obtain ⟨c, hat⟩ := h.linked.focus (k := [])
  obtain ⟨p, q, x, k, hdesc, hq, hp0, hcheck, hat', hl, hclean⟩ :=
    enter_spec hat hs h.balanced (List.forall_mem_nil _) hf.le
  rw [show postRest ([] : Path Addr) = [] from rfl, List.append_nil] at hl
  have hperm := postorder_perm_inorder s
  have hnd := hperm.nodup_iff.mpr h.linked.nodup
  have hres : Resume (t.release x) c k x :=
    Resume.of_done hat'.root hat'.tree.1 hat'.path hl hnd
      (fun a ha => h.linked.even a (hperm.mem_iff.mp ha)) hclean
      (by rw [h.numnodes, hperm.length_eq])
  rw [← hperm.length_eq, ← hl] at hn hf
  simp only [List.length_cons] at hn hf
  have hfirst : avlDestroyNodes fuel t 0 = some (x, cookieOf k, t) := by
    have hend : avlFirst fuel t = some p := by
      rw [avlFirst, h.linked.root,
        avlEnd_eq hat.tree hs (by rw [← hperm.length_eq, ← hl]; simp [hf]), hdesc]
    simp [avlDestroyNodes, hend, hp0, hq, hcheck]
  obtain ⟨t', htorn, hloop⟩ :=
    avlDestroyLoop_resume hres (n := n) (by omega) (by omega : _ ≤ fuel)
  rw [← hl] at hnd ⊢
  refine ⟨t', htorn.cons (List.nodup_cons.mp hnd).1 rfl rfl fun _ _ => rfl, fun body st => ?_⟩
  exact avlDestroyLoop_cons hfirst hat'.tree.1 rfl (fun s => hloop body s) st

/-- Recording what the loop hands out gives back the sequence. -/
theorem foldlM_record (l out : List Addr) :
    l.foldlM (fun out p => some (out ++ [p])) out = some (out ++ l) := by
  induction l generalizing out with
  | nil => simp
  | cons p l ih => simpa using ih (out ++ [p])

/-- **`while ((node = avl_destroy_nodes(tree, &cookie)) != NULL) free(node);`**
The loop returns, so it touches no node that it has freed.  It hands out every
node once, and a node after everything below it, and the count ends at zero. -/
theorem avl_destroy_nodes_all {t : AvlTree α} {s : BinTree Addr} (h : t.Valid s) {fuel : ℕ}
    (hf : s.inorder.length < fuel) :
    ∃ out t', avlDestroyLoop (fun out p _ => some (out ++ [p])) fuel fuel t 0 [] = some (out, t') ∧
      out.Nodup ∧ (∀ p, p ∈ out ↔ p ∈ s.inorder) ∧
      (∀ k l p b r, s = plug k (node l p b r) → ∃ u v, out = u ++ p :: v ∧
        ∀ q, q ∈ l.inorder ∨ q ∈ r.inorder → q ∈ u) ∧
      (∀ p ∈ out, t'.cells p = none) ∧ t'.avlRoot = 0 ∧ t'.avlNumnodes = 0 := by
  obtain ⟨t', htorn, hloop⟩ := avlDestroyLoop_spec h hf hf
  have hperm := postorder_perm_inorder s
  refine ⟨s.postorder, t', ?_, hperm.nodup_iff.mpr h.linked.nodup, fun p => hperm.mem_iff, ?_,
    htorn.freed, htorn.root, htorn.numnodes⟩
  · rw [hloop, foldlM_record]
    rfl
  · rintro k l p b r rfl
    obtain ⟨u, v, hpost⟩ := postorder_plug k (node l p b r)
    refine ⟨u ++ l.postorder ++ r.postorder, v, by simp [hpost], fun q hq => ?_⟩
    rw [← (postorder_perm_inorder l).mem_iff, ← (postorder_perm_inorder r).mem_iff] at hq
    simp only [List.mem_append]
    tauto

theorem valid_pairTree : pairTree.Valid (node nil 8 1 (node nil 16 0 nil)) where
  linked := linked_pairTree
  balanced := by decide
  numnodes := rfl

theorem avl_destroy_nodes_pairTree :
    ∃ out t', avlDestroyLoop (fun out p _ => some (out ++ [p])) 3 3 pairTree 0 [] = some (out, t') ∧
      out.Nodup ∧ (∀ p, p ∈ out ↔ p ∈ [8, 16]) ∧ t'.avlNumnodes = 0 := by
  obtain ⟨out, t', hrun, hn, hmem, -, -, -, hnum⟩ :=
    avl_destroy_nodes_all valid_pairTree (by decide : _ < 3)
  exact ⟨out, t', hrun, hn, hmem, hnum⟩

end Polaris
