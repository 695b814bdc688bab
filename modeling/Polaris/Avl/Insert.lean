import Polaris.Avl.Search
import Polaris.Avl.Rotation

/-!
# Insertion

`avlInsertUp_spec` is the invariant of the loop of `avl_insert`: the subtree in
focus has grown by one level, the path above it still has the balances of the
old height, and the subtree is not balanced unless it is the new leaf.  From it
`avlInsert_spec` says that a node inserted at an empty slot takes that place in
the in-order sequence, whatever the comparison.
-/

namespace Polaris

open BinTree AvlTree

variable {α : Type}

variable {t : AvlTree α} {k : Path Addr} {fuel : ℕ} {c : Bool} {s : BinTree Addr} {p : Addr}

/-- Setting the balance of the node above the focus. -/
theorem At.setBalance {f : Frame Addr} (h : At t c (f :: k) s)
    (hn : (plug (f :: k) s).inorder.Nodup) (b : ℤ) :
    ∃ t', t.avlSetbalance f.a b = some t' ∧ At t' c k (join f.side s f.a b f.sib) ∧
      Within (· ∈ (plug (f :: k) s).inorder) t t' := by
  obtain ⟨hroot, ⟨h0, hf, hsib, hk⟩, htree⟩ := h
  rw [nodup_inorder_plug, nodup_labels_cons] at hn
  obtain ⟨-, ⟨hfs, hfk, -⟩, hsk⟩ := hn
  refine ⟨_, avlSetbalance_eq hf b, ⟨by simpa using hroot, ?_, ?_⟩, Within.put ?_ _⟩
  · rw [rootAddr_join]
    exact hk.put hfk _
  · rw [lay_join]
    exact ⟨h0, by simp, htree.put (fun hp => hsk f.a hp (by simp)) _, hsib.put hfs _⟩
  · rw [mem_inorder_plug]; exact Or.inr (by simp)

theorem inorder_fill_balance (f : Frame Addr) (k : Path Addr) (s : BinTree Addr) (b : ℤ) :
    (plug k (join f.side s f.a b f.sib)).inorder = (plug (f :: k) s).inorder := by
  rw [plug_cons, inorder_plug, inorder_plug, Frame.fill]
  cases f.side <;> rfl

/-- The loop of `avl_insert`. -/
theorem avlInsertUp_spec {h : ℤ} (hat : At t c k s) (hn : (plug k s).inorder.Nodup)
    (hs : s.Balanced)
    (hfit : Fits k h) (hh : s.height = h + 1) (hbal : s.bal ≠ 0 ∨ h = 0) (hf : k.length < fuel) :
    ∃ t' s', avlInsertUp fuel t (parentOf 0 k) (sideOf c k) = some t' ∧ At t' c [] s' ∧
      s'.Balanced ∧ s'.inorder = (plug k s).inorder ∧ Within (· ∈ (plug k s).inorder) t t' := by
  induction k generalizing t s h fuel with
  | nil =>
    obtain _ | fuel := fuel
    · simp at hf
    exact ⟨t, s, by simp [avlInsertUp], hat, hs, rfl, Within.refl t⟩
  | cons f k ih =>
    obtain _ | fuel := fuel
    · simp at hf
    have h0 : f.a ≠ 0 := hat.path.1
    have hcell := hat.path.2.1
    obtain ⟨⟨hb, hb1, hb2, hsib⟩, hfit'⟩ := hfit
    -- the balance before and after, as linear facts
    have hlean := lean_mul f.side (h - f.sib.height)
    have hlean' := lean_mul f.side (s.height - f.sib.height)
    have hadd : avlChild2balance f.side = lean f.side := rfl
    have hcode : avlInsertUp (fuel + 1) t f.a f.side = _ :=
      (if_neg h0).trans (bind_of_some (avlXbalance_eq hcell) rfl)
    rw [hadd] at hcode
    by_cases hnew : f.b + lean f.side = 0
    · -- equal balance: the height above is as it was
      obtain ⟨t', hrun, hat', hwithin⟩ := hat.setBalance hn 0
      have hheight : (join f.side s f.a 0 f.sib).height = max h f.sib.height + 1 := by
        rw [height_join]
        omega
      refine ⟨t', plug k (join f.side s f.a 0 f.sib), ?_, at_iff.mpr (at_iff (k := k).mp hat'),
        ?_, inorder_fill_balance .., hwithin⟩
      · simp [hcode, hnew, hrun]
      · rw [balanced_plug, hheight, balanced_join]
        exact ⟨⟨by omega, by norm_num, by norm_num, hs, hsib⟩, hfit'⟩
    by_cases hold : f.b = 0
    · -- the subtree has grown, and leans towards the new node
      obtain ⟨t₁, hrun₁, hat₁, hwithin₁⟩ := hat.setBalance hn (lean f.side)
      have hord := inorder_fill_balance f k s (lean f.side)
      have hcell₁ := ((lay_join ..).mp hat₁.tree).2.1
      have hsibh : f.sib.height = h := by omega
      obtain ⟨t', s', hrun, hat', hbal', hord', hwithin'⟩ :=
        ih (s := join f.side s f.a (lean f.side) f.sib) (h := h + 1) hat₁ (hord ▸ hn)
          ((balanced_join ..).mpr ⟨by omega, by omega, by omega, hs, hsib⟩)
          (by rw [hsibh, max_self] at hfit'; exact hfit')
          (by rw [height_join]; omega)
          (by rw [bal_join]; omega)
          (by simp at hf; omega : k.length < fuel)
      refine ⟨t', s', ?_, hat', hbal', hord'.trans hord, hwithin₁.trans (hord ▸ hwithin')⟩
      rw [hold, zero_add] at hnew
      simp [hcode, hold, hnew, hrun₁, avlXparent_eq hcell₁, avlXchild_eq hcell₁, hrun]
    · -- both old and new balance lean the same way: rotate
      have htall : s.height = f.sib.height + 2 := by omega
      have hsnn := height_nonneg f.sib
      have hsbal : s.bal ≠ 0 := by omega
      obtain ⟨t', s', hrun, hat', hbal', hord', hheight', hwithin'⟩ :=
        avlRotation_spec hat.up hn hs hsib htall
      rw [if_neg hsbal, add_zero] at hheight'
      refine ⟨t', plug k s', ?_, at_iff.mpr (at_iff (k := k).mp hat'), ?_, ?_, hwithin'⟩
      · rw [parentOf_cons, sideOf_cons, hcode, show f.b + lean f.side = 2 * lean f.side by omega]
        exact (if_neg (by omega)).trans ((if_pos hold).trans (bind_of_some hrun rfl))
      · rw [balanced_plug, hheight']
        rw [show max h f.sib.height + 1 = f.sib.height + 2 by omega] at hfit'
        exact ⟨hbal', hfit'⟩
      · rw [inorder_plug, hord', ← inorder_plug]; rfl

/-- A focused tree seen as a whole. -/
theorem At.linked (h : At t c [] s) (hn : s.inorder.Nodup) (he : ∀ p ∈ s.inorder, 2 ∣ p) :
    Linked t s :=
  ⟨h.root, ⟨c, (at_iff (k := []).mp h).2⟩, hn, he⟩

/-- An empty slot in focus.  The index kept by the root is free, and an empty tree
takes the one that `avl_find` reports. -/
theorem Linked.at_slot (h : Linked t (plug k nil)) :
    ∃ c, At t c k nil ∧ sideOf c k = sideOf false k := by
  cases k with
  | nil => exact ⟨false, ⟨h.root, trivial, trivial⟩, rfl⟩
  | cons f k =>
    obtain ⟨c, hat⟩ := h.focus
    exact ⟨c, hat, rfl⟩

/-- The part of `avl_insert` before the loop links the new leaf into the slot. -/
theorem avlInsert_eq (hp : (t.cells p).isSome) (he : 2 ∣ parentOf 0 k) :
    avlInsert fuel t p (indexOf k) =
      (({ t with avlNumnodes := t.avlNumnodes + 1 } : AvlTree α).put p
        (cell false 0 0 (parentOf 0 k) (sideOf false k) 0)).setSlot (parentOf 0 k)
          (sideOf false k) p >>= fun t =>
        avlInsertUp fuel t (parentOf 0 k) (sideOf false k) := by
  obtain ⟨n, hn⟩ := Option.isSome_iff_exists.mp hp
  have hcell : ({ t with avlNumnodes := t.avlNumnodes + 1 } : AvlTree α).cells p =
      some (cell false n.avlChild0 n.avlChild1 n.avlParent n.avlChildIndex n.avlBalance) := hn
  simp only [avlInsert, indexOf, avlIndex2node_avlMkindex he, avlIndex2child_avlMkindex he]
  refine bind_of_some (setAvlChild_same hcell 0) ?_
  refine bind_of_some (setAvlChild_put_not ..) (bind_of_some (avlSetchild_put ..) ?_)
  exact bind_of_some (avlSetbalance_put ..) (bind_of_some (avlSetparent_put ..) rfl)

/-- **Insertion at an empty slot.**  The new node takes the place of the slot in
the in-order sequence, and the tree stays balanced. -/
theorem avlInsert_spec (h : t.Valid (plug k nil)) (hp : p ∉ (plug k nil).inorder) (h0 : p ≠ 0)
    (he : 2 ∣ p) (hcell : (t.cells p).isSome) (hf : (plug k nil).inorder.length < fuel) :
    ∃ t' s, avlInsert fuel t p (indexOf k) = some t' ∧ t'.Valid s ∧
      s.inorder = before k ++ p :: after k ∧
      Within (fun a => a = p ∨ a ∈ (plug k nil).inorder)
        { t with avlNumnodes := t.avlNumnodes + 1 } t' := by
  obtain ⟨c, hat, hside⟩ := h.linked.at_slot
  have hev := even_parentOf h.linked.even
  have hn := h.linked.nodup
  rw [nodup_inorder_plug] at hn
  have hpk : p ∉ labels k := fun hm => hp ((mem_inorder_plug _ _ _).mpr (Or.inr hm))
  set t₀ : AvlTree α := { t with avlNumnodes := t.avlNumnodes + 1 } with ht₀
  set t₁ := t₀.put p (cell false 0 0 (parentOf 0 k) (sideOf false k) 0) with ht₁
  have hat₀ : At t₀ c k nil := ⟨hat.root, hat.path, hat.tree⟩
  have hleaf : Lay t₁.cells (parentOf 0 k) (sideOf c k) (node nil p 0 nil) :=
    ⟨h0, by simp [ht₁, cell, hside], trivial, trivial⟩
  have hwithin₁ := Within.put (S := (· = p)) (t := t₀) rfl (cell false 0 0 (parentOf 0 k)
    (sideOf false k) 0)
  obtain ⟨t₂, hrun₂, hat₂, hwithin₂⟩ := hat₀.replant hn.2.1 hwithin₁ (fun a ha e =>
    hpk (e ▸ ha)) rfl hleaf
    (by simpa using hpk)
  have hord : (plug k (node nil p 0 nil)).inorder = before k ++ p :: after k := by
    simp [inorder_plug]
  have hmem : ∀ a ∈ (plug k (node nil p 0 nil)).inorder, a = p ∨ a ∈ (plug k nil).inorder := by
    intro a ha
    simpa [mem_inorder_plug] using ha
  have hnew : (plug k (node nil p 0 nil)).inorder.Nodup := by
    rw [nodup_inorder_plug]
    exact ⟨by simp, hn.2.1, by simpa using hpk⟩
  have hfit := (balanced_plug k nil).mp h.balanced
  obtain ⟨t', s, hrun, hat', hbal, hord', hwithin⟩ :=
    avlInsertUp_spec (h := 0) hat₂ hnew
      ⟨rfl, by norm_num, by norm_num, trivial, trivial⟩ hfit.2 rfl (Or.inr rfl)
      (by have := length_le_labels k; rw [length_inorder_plug] at hf; omega : k.length < fuel)
  have hwithin' : Within (fun a => a = p ∨ a ∈ (plug k nil).inorder) t₀ t' :=
    (hwithin₂.mono fun a ha => ha.imp_right fun ha =>
      (mem_inorder_plug _ _ _).mpr (Or.inr ha)).trans
      (hwithin.mono hmem)
  refine ⟨t', s, ?_, ⟨hat'.linked (hord' ▸ hnew) ?_, hbal, ?_⟩, hord'.trans hord, hwithin'⟩
  · rw [avlInsert_eq hcell hev, ← ht₀, ← ht₁, ← hside]
    exact bind_of_some hrun₂ hrun
  · intro a ha
    rw [hord'] at ha
    rcases hmem a ha with rfl | ha
    · exact he
    · exact h.linked.even a ha
  · rw [hwithin'.numnodes, hord', hord]
    have := h.numnodes
    simp only [inorder_plug, inorder_nil, List.append_nil, List.length_append] at this
    simp only [ht₀, this, List.length_append, List.length_cons]
    omega

/-- The slot next to a node on side `d`, as `avl_insert_here` finds it. -/
theorem avlInsertHere_slot {d : Bool} {x y : BinTree Addr} {here : Addr} {b : ℤ}
    (h : At t c k (join d x here b y)) (hf : x.inorder.length ≤ fuel) (p : Addr) :
    ∃ k', plug k (join d x here b y) = plug k' nil ∧ near (!d) k' = here :: (y.toward (!d) ++
        near (!d) k) ∧ avlInsertHere fuel t p here d = avlInsert fuel t p (indexOf k') := by
  obtain ⟨-, hcell, hx, -⟩ := (lay_join ..).mp h.tree
  by_cases hn : x = nil
  · subst hn
    refine ⟨⟨d, here, b, y⟩ :: k, rfl, ?_, ?_⟩
    · rw [near_cons_not (by simp)]; rfl
    · simp [avlInsertHere, avlChild_same hcell, indexOf]
  have hne := lay_rootAddr_ne hx hn
  obtain ⟨k', p', b', y', hx', hside, hrun⟩ := avlDescend_spec (d := !d) hx hn hf
  refine ⟨(⟨!d, p', b', y'⟩ :: k') ++ ⟨d, here, b, y⟩ :: k, ?_, ?_, ?_⟩
  · rw [plug_append, plug_cons, plug_cons]
    simp only [Frame.fill]
    rw [← hx']
  · have hspine : ∀ f ∈ (⟨!d, p', b', y'⟩ :: k' : Path Addr), f.side = !d :=
      List.forall_mem_cons.mpr ⟨rfl, hside⟩
    have happ : ∀ k₁ k₂ : Path Addr, near (!d) (k₁ ++ k₂) = near (!d) k₁ ++ near (!d) k₂ := by
      intro k₁ k₂
      cases d <;> simp [near, before_append, after_append]
    rw [happ, near_eq_nil hspine, List.nil_append, near_cons_not (by simp)]
    rfl
  · simp [avlInsertHere, avlChild_same hcell, hne, hrun, indexOf]

/-- **Insertion beside a node.** -/
theorem avlInsertHere_spec {here : Addr} (h : t.Valid s) {l₁ l₂ : List Addr}
    (hl : s.inorder = l₁ ++ here :: l₂) (hp : p ∉ s.inorder) (h0 : p ≠ 0) (he : 2 ∣ p)
    (hcell : (t.cells p).isSome) (hf : s.inorder.length < fuel) (d : Bool) :
    ∃ t' s', avlInsertHere fuel t p here d = some t' ∧ t'.Valid s' ∧
      s'.inorder = (if d then l₁ ++ here :: p :: l₂ else l₁ ++ p :: here :: l₂) ∧
      Within (fun a => a = p ∨ a ∈ s.inorder) { t with avlNumnodes := t.avlNumnodes + 1 } t' := by
  obtain ⟨c, k, l, b, r, rfl, hat, rfl, rfl⟩ := h.linked.focus_node hl
  have hlen : l.inorder.length ≤ fuel ∧ r.inorder.length ≤ fuel := by
    rw [hl] at hf
    simp only [List.length_append, List.length_cons] at hf
    omega
  -- both sides find an empty slot, and `near` tells what is next to it
  obtain ⟨k', hk', hnear, hrun⟩ : ∃ k', plug k (node l here b r) = plug k' nil ∧
      (if d then before k' = before k ++ l.inorder ++ [here]
        else after k' = here :: (r.inorder ++ after k)) ∧
      avlInsertHere fuel t p here d = avlInsert fuel t p (indexOf k') := by
    cases d with
    | false =>
      obtain ⟨k', h1, h2, h3⟩ :=
        avlInsertHere_slot (d := false) (x := l) (y := r) (b := b) hat hlen.1 p
      exact ⟨k', h1, by simpa [near, toward] using h2, h3⟩
    | true =>
      obtain ⟨k', h1, h2, h3⟩ :=
        avlInsertHere_slot (d := true) (x := r) (y := l) (b := b) hat hlen.2 p
      refine ⟨k', h1, ?_, h3⟩
      have h2' := congrArg List.reverse h2
      simpa [near, toward] using h2'
  rw [hk'] at h hp hf
  obtain ⟨t', s', hrun', hvalid, hord, hwithin⟩ := avlInsert_spec h hp h0 he hcell hf
  refine ⟨t', s', hrun.trans hrun', hvalid, ?_, hk' ▸ hwithin⟩
  have hsplit : before k' ++ after k'
      = (before k ++ l.inorder) ++ here :: (r.inorder ++ after k) := by
    rw [← hl, hk', inorder_plug]; simp
  cases d with
  | false =>
    simp only [Bool.false_eq_true, if_false] at hnear ⊢
    rw [hnear] at hsplit
    rw [hord, List.append_cancel_right hsplit, hnear]
  | true =>
    simp only [if_true] at hnear ⊢
    rw [hnear] at hsplit
    have hafter : after k' = r.inorder ++ after k := by simpa using hsplit
    rw [hord, hnear, hafter]
    simp

end Polaris
