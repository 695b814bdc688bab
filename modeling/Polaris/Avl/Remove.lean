import Polaris.Avl.Insert

/-!
# Removal

`avl_remove` first makes the node a partial leaf, by letting a neighbour take its
place (`avlSwap`), then unlinks it and climbs (`avlUnlink`, `avlRemoveUp`).

In the swap the neighbour is copied to a stack variable, and the tree is laid
out through that variable until the unlinking.  `avlSwap_spec` gives the tree in
that moment: the neighbour stands in the place of the node and the stack variable
in the place of the neighbour.

`avlRemoveUp_spec` is the invariant of the loop: the subtree in focus has lost a
level, and the path above it still has the balances of the old height.
-/

namespace Polaris

open BinTree AvlTree

variable {α : Type}

/-! ## Unlinking and climbing -/

variable {t : AvlTree α} {k kx : Path Addr} {c d : Bool} {p tmp n : Addr} {b bn : ℤ}
  {s x y : BinTree Addr} {fuel : ℕ}

section

variable {f : Frame Addr} {h : ℤ} (hat : At t c (f :: k) s) (hn : (plug (f :: k) s).inorder.Nodup)
  (hs : s.Balanced) (hfit : Fits (f :: k) (h + 1)) (hh : s.height = h)

include hat hn hs hfit hh

/-- One round of the loop of `avl_remove`.  Either the subtree has its old height
again and the loop stops, or it has lost a level and the loop goes on above. -/
theorem avlRemoveUp_step (fuel : ℕ) :
    ∃ t' s', At t' c k s' ∧ s'.Balanced ∧
      (plug k s').inorder = (plug (f :: k) s).inorder ∧
      Within (· ∈ (plug (f :: k) s).inorder) t t' ∧
      ((avlRemoveUp (fuel + 1) t f.a f.side = some t' ∧ Fits k s'.height) ∨
        (avlRemoveUp (fuel + 1) t f.a f.side =
            (if parentOf 0 k ≠ 0 then avlRemoveUp fuel t' (parentOf 0 k) (sideOf c k)
              else some t') ∧ Fits k (s'.height + 1))) := by
  have hcell := hat.path.2.1
  obtain ⟨⟨hb, hb1, hb2, hsib⟩, hfit'⟩ := hfit
  have hlean := lean_mul f.side (h + 1 - f.sib.height)
  have hlean' := lean_mul f.side (s.height - f.sib.height)
  have hcode : avlRemoveUp (fuel + 1) t f.a f.side = _ := bind_of_some (avlXbalance_eq hcell)
    (bind_of_some (avlXparent_eq hcell) (bind_of_some (avlXchild_eq hcell) rfl))
  rw [show avlChild2balance f.side = lean f.side from rfl] at hcode
  by_cases hold : f.b = 0
  · -- the sibling is as tall as the subtree was: the height stays
    obtain ⟨t', hrun, hat', hwithin⟩ := hat.setBalance hn (-lean f.side)
    refine ⟨t', _, hat', ?_, inorder_fill_balance .., hwithin, Or.inl ⟨?_, ?_⟩⟩
    · exact (balanced_join ..).mpr ⟨by omega, by omega, by omega, hs, hsib⟩
    · simp [hcode, hold, hrun]
    · rw [height_join, show max s.height f.sib.height = max (h + 1) f.sib.height by omega]
      exact hfit'
  by_cases hnew : f.b - lean f.side = 0
  · -- the subtree was the taller one: now both are equal and a level is lost
    obtain ⟨t', hrun, hat', hwithin⟩ := hat.setBalance hn 0
    refine ⟨t', _, hat', ?_, inorder_fill_balance .., hwithin, Or.inr ⟨?_, ?_⟩⟩
    · exact (balanced_join ..).mpr ⟨by omega, by norm_num, by norm_num, hs, hsib⟩
    · simp [hcode, hold, hnew, hrun]
    · rw [height_join, show max s.height f.sib.height + 1 = max (h + 1) f.sib.height by omega]
      exact hfit'
  -- the sibling is two levels taller: rotate towards the subtree
  have htall : f.sib.height = s.height + 2 := by omega
  have hjoin : f.fill s = join (!f.side) f.sib f.a f.b s := (join_not ..).symm
  have hup := hat.up
  have hn' := hn
  rw [plug_cons] at hn'
  rw [hjoin] at hup hn'
  obtain ⟨t', s', hrun, hat', hbal', hord', hheight', hwithin'⟩ :=
    avlRotation_spec hup hn' hsib hs htall
  rw [show 2 * lean (!f.side) = f.b - lean f.side by rw [lean_not]; omega] at hrun
  rw [show max (h + 1) f.sib.height + 1 = s.height + 3 by omega] at hfit'
  refine ⟨t', s', hat', hbal', ?_, ?_, ?_⟩
  · rw [plug_cons, hjoin, inorder_plug, hord', ← inorder_plug]
  · rw [plug_cons, hjoin]; exact hwithin'
  · by_cases hsb : f.sib.bal = 0
    · rw [if_pos hsb] at hheight'
      refine .inl ⟨by simp [hcode, hold, hnew, hrun, hsb], ?_⟩
      rw [hheight', show s.height + 2 + 1 = s.height + 3 by omega]
      exact hfit'
    · rw [if_neg hsb] at hheight'
      refine .inr ⟨by simp [hcode, hold, hnew, hrun, hsb], ?_⟩
      rw [hheight', show s.height + 2 + 0 + 1 = s.height + 3 by omega]
      exact hfit'

/-- The loop of `avl_remove`. -/
theorem avlRemoveUp_spec (hf : k.length < fuel) :
    ∃ t' s', avlRemoveUp fuel t f.a f.side = some t' ∧ At t' c [] s' ∧ s'.Balanced ∧
      s'.inorder = (plug (f :: k) s).inorder ∧
      Within (· ∈ (plug (f :: k) s).inorder) t t' := by
  induction fuel generalizing t k f s h with
  | zero => simp at hf
  | succ fuel ih =>
    obtain ⟨t', s', hat', hbal, hord, hwithin, hrun⟩ :=
      avlRemoveUp_step hat hn hs hfit hh fuel
    rcases hrun with ⟨hrun, hfit'⟩ | ⟨hrun, hfit'⟩
    · exact ⟨t', plug k s', hrun, at_iff.mpr (at_iff (k := k).mp hat'),
        (balanced_plug _ _).mpr ⟨hbal, hfit'⟩, hord, hwithin⟩
    cases k with
    | nil => exact ⟨t', s', by simpa using hrun, hat', hbal, hord, hwithin⟩
    | cons g k =>
      obtain ⟨t'', s'', hrun', hat'', hbal', hord', hwithin'⟩ :=
        ih hat' (hord ▸ hn) hbal hfit' rfl (by simpa using hf)
      refine ⟨t'', s'', ?_, hat'', hbal', hord'.trans hord, hwithin.trans (hord ▸ hwithin')⟩
      rw [hrun, parentOf_cons, if_pos hat'.path.1, sideOf_cons, hrun']

end

section

variable {x q : Addr} (h : t.cells p = some (cell d x 0 q c b))

include h

/-- A cell with one child finds it, whatever side it is on. -/
theorem avlChild_only : ∃ c1, t.avlChild p true = some c1 ∧ t.avlChild p (decide (c1 ≠ 0))
    = some x := by
  cases d with
  | false => exact ⟨0, avlChild_not h, avlChild_same h⟩
  | true =>
    refine ⟨x, avlChild_same h, ?_⟩
    by_cases hx : x = 0 <;> simp [avlChild, h, cell, AvlNode.avlChild, hx]

theorem avlChild_first : ∃ c0, t.avlChild p false = some c0 ∧
    (if c0 ≠ 0 then pure c0 else t.avlChild p true) = some x := by
  cases d with
  | false =>
    refine ⟨x, avlChild_same h, ?_⟩
    by_cases hx : x = 0 <;> simp [avlChild, h, cell, AvlNode.avlChild, hx]
  | true => exact ⟨0, avlChild_not h, avlChild_same h⟩

end

/-- Taking out a node with nothing on side `!d`. -/
theorem avlUnlink_spec (hat : At t c k (join d x p b nil))
    (hn : (plug k (join d x p b nil)).inorder.Nodup) (hbal : (plug k (join d x p b nil)).Balanced)
    (hf : k.length ≤ fuel) :
    ∃ t' s, avlUnlink fuel t p = some t' ∧ At t' c [] s ∧ s.Balanced ∧
      s.inorder = (plug k x).inorder ∧
      Within (· ∈ (plug k (join d x p b nil)).inorder)
        { t with avlNumnodes := t.avlNumnodes - 1 } t' := by
  rw [nodup_inorder_plug, nodup_inorder_join] at hn
  obtain ⟨⟨-, -, -, hxn, -⟩, hkn, hk⟩ := hn
  simp only [mem_inorder_join, inorder_nil, List.not_mem_nil, or_false] at hk
  rw [balanced_plug, balanced_join, height_join, height_nil, max_eq_left (height_nonneg x)] at hbal
  obtain ⟨⟨-, -, -, hxb, -⟩, hfit⟩ := hbal
  set t₀ : AvlTree α := { t with avlNumnodes := t.avlNumnodes - 1 } with ht₀
  have hat₀ : At t₀ c k (join d x p b nil) := ⟨hat.root, hat.path, hat.tree⟩
  obtain ⟨-, hp₀, hx₀, -⟩ := (lay_join ..).mp hat₀.tree
  obtain ⟨t₁, hrun₁, hx₁, hroot₁, hwithin₁⟩ := relink_spec hx₀ hxn (parentOf 0 k) (sideOf c k)
  obtain ⟨t₂, hrun₂, hat₂, hwithin₂⟩ := hat₀.replant hkn hwithin₁
    (fun a ha hax => hk a (.inr hax) ha) hroot₁ hx₁ fun a ha => hk a (.inr ha)
  have hnx : (plug k x).inorder.Nodup := by
    rw [nodup_inorder_plug]
    exact ⟨hxn, hkn, fun a ha => hk a (Or.inr ha)⟩
  have hsubset : ∀ a ∈ (plug k x).inorder, a ∈ (plug k (join d x p b nil)).inorder := by
    intro a ha
    rw [mem_inorder_plug] at ha ⊢
    exact ha.imp_left fun hm => by simp [hm]
  have hwithin : Within (· ∈ (plug k (join d x p b nil)).inorder) t₀ t₂ :=
    hwithin₂.mono fun a ha => (mem_inorder_plug _ _ _).mpr (ha.imp_left fun ha => by simp [ha])
  have hunlink : avlUnlink fuel t p =
      (if parentOf 0 k = 0 then some t₂ else avlRemoveUp fuel t₂ (parentOf 0 k) (sideOf c k)) := by
    obtain ⟨c0, hc0, hnode⟩ := avlChild_first hp₀
    simp only [avlUnlink, ← ht₀]
    refine bind_of_some (avlXparent_eq hp₀) (bind_of_some (avlXchild_eq hp₀)
      (bind_of_some hc0 (bind_of_some hnode ?_)))
    exact bind_of_some hrun₁ (bind_of_some hrun₂ rfl)
  cases k with
  | nil =>
    refine ⟨t₂, x, ?_, hat₂, hxb, rfl, hwithin⟩
    rw [hunlink]
    simp
  | cons f k =>
    obtain ⟨t', s, hrun, hat', hbal', hord', hwithin'⟩ :=
      avlRemoveUp_spec hat₂ hnx hxb hfit rfl hf
    refine ⟨t', s, ?_, hat', hbal', hord', hwithin.trans (hwithin'.mono hsubset)⟩
    rw [hunlink, parentOf_cons, if_neg hat₂.path.1, sideOf_cons, hrun]

/-! ## The swap with a neighbour -/

/-- The memory between the two halves of the swap: `n` stands in its new place,
`tmp` holds a copy of its old cell, and the path `kx` still leads to `n`. -/
structure Swapped (t : AvlTree α) (c : Bool) (k : Path Addr) (d : Bool) (kx : Path Addr)
    (x : BinTree Addr) (n tmp : Addr) (bn b : ℤ) (y : BinTree Addr) : Prop where
  root : t.avlRoot = topOf k n
  path : LayPath t.cells 0 c k n
  spine : LayPath t.cells n d kx n
  here : t.cells n = some (cell d (topOf kx tmp) y.rootAddr (parentOf 0 k) (sideOf c k) b)
  copy : t.cells tmp = some (cell d x.rootAddr 0 (parentOf n kx) (sideOf d kx) bn)
  below : Lay t.cells n d x
  other : Lay t.cells n (!d) y

theorem topOf_mem_labels (hk : k ≠ []) (x : Addr) : topOf k x ∈ labels k := by
  induction k generalizing x with
  | nil => exact absurd rfl hk
  | cons f k ih =>
    cases k with
    | nil => simp
    | cons g k =>
      rw [topOf_cons, mem_labels_cons]
      exact Or.inr (Or.inr (ih (by simp) f.a))

theorem topOf_congr (hk : k ≠ []) (x y : Addr) : topOf k x = topOf k y := by
  cases k with
  | nil => exact absurd rfl hk
  | cons f k => rfl

/-- The first half of the swap. -/
theorem avlSwapUp_spec {del : Addr} (hat : At t c k (join d (plug kx (join d x n bn nil)) del b y))
    (hn : (plug k (join d (plug kx (join d x n bn nil)) del b y)).inorder.Nodup)
    (htmp : tmp ∉ (plug k (join d (plug kx (join d x n bn nil)) del b y)).inorder) (hy : y ≠ nil) :
    ∃ t', avlSwapUp tmp t del n d = some t' ∧ Swapped t' c k d kx x n tmp bn b y ∧
      Within (fun a => a = tmp ∨
        a ∈ (plug k (join d (plug kx (join d x n bn nil)) del b y)).inorder)
        t t' := by
  obtain ⟨hroot, hpath, htree⟩ := hat
  rw [rootAddr_join] at hroot hpath
  rw [lay_join, lay_plug, lay_join, rootAddr_plug, rootAddr_join] at htree
  obtain ⟨-, hdel, ⟨hkx, -, hnc, hx, -⟩, hyl⟩ := htree
  simp only [mem_inorder_plug, mem_inorder_join, inorder_nil, List.not_mem_nil, or_false, not_or]
    at htmp
  obtain ⟨⟨htd, ⟨⟨htn, htx⟩, htkx⟩, hty⟩, htk⟩ := htmp
  rw [nodup_inorder_plug, nodup_inorder_join, nodup_inorder_plug, nodup_inorder_join] at hn
  simp only [mem_inorder_plug, mem_inorder_join, inorder_nil, List.not_mem_nil, or_false, not_or]
    at hn
  obtain ⟨⟨⟨⟨hdn, hdx⟩, hdkx⟩, hdy, hxy, ⟨⟨hnx, -, -, hxn, -⟩, hkxn, hxkx⟩, hyn⟩, hkn, hk⟩ := hn
  have hnk : n ∉ labels k := hk n (by simp)
  have hny : n ∉ y.inorder := hxy n (by simp)
  have hnkx : n ∉ labels kx := hxkx n (by simp)
  generalize hq : parentOf 0 k = q at *
  generalize hw : sideOf c k = w at *
  -- the two copies, and the link to `tmp` when `n` is a child of `del`
  set t₁ := t.put tmp (cell d x.rootAddr 0 (parentOf del kx) (sideOf d kx) bn) with ht₁
  have hdel₁ : t₁.cells del = some (cell d (topOf kx n) y.rootAddr q w b) := by
    simp [ht₁, Ne.symm htd, hdel]
  set t₂ := t₁.put n (cell d (topOf kx n) y.rootAddr q w b) with ht₂
  set t₃ := t₁.put n (cell d (topOf kx tmp) y.rootAddr q w b) with ht₃
  have hrun₃ : (if topOf kx n = n then t₂.setAvlChild n d tmp else pure t₂) = some t₃ := by
    by_cases he : kx = []
    · subst he
      have htop : topOf [] n = n := rfl
      rw [if_pos htop, ht₂, setAvlChild_put_same]
      rfl
    · have htop : topOf kx n ≠ n := fun e => hnkx (e ▸ topOf_mem_labels he n)
      rw [if_neg htop, ht₂, ht₃, topOf_congr he n tmp]
      rfl
  have hn₂ : t₂.cells n = some (cell d (topOf kx n) y.rootAddr q w b) := by simp [ht₂]
  have hn₃ : t₃.cells n = some (cell d (topOf kx tmp) y.rootAddr q w b) := by simp [ht₃]
  obtain ⟨t₄, hrun₄, hpath₄, hroot₄, hwithin₄⟩ :=
    setSlot_spec (t := t₃) ((hpath.put htk _).put hnk _) hkn hroot n
  have hn₄ : t₄.cells n = some (cell d (topOf kx tmp) y.rootAddr q w b) := by
    rw [hwithin₄.cells n hnk, hn₃]
  have htmp₄ : t₄.cells tmp = some (cell d x.rootAddr 0 (parentOf del kx) (sideOf d kx) bn) := by
    rw [hwithin₄.cells tmp htk]; simp [ht₃, ht₁, htn]
  have hkx₄ : LayPath t₄.cells del d kx n :=
    ((hkx.put htkx _).put hnkx _).frame hwithin₄ fun a ha => hk a (by simp [ha])
  -- the taller side moves under `n`
  obtain ⟨t₅, hrun₅, hkx₅, htmp₅, hroot₅, hwithin₅⟩ :
      ∃ t₅, t₄.avlSetparent (topOf kx tmp) n = some t₅ ∧ LayPath t₅.cells n d kx n ∧
        t₅.cells tmp = some (cell d x.rootAddr 0 (parentOf n kx) (sideOf d kx) bn) ∧
        t₅.avlRoot = t₄.avlRoot ∧ Within (fun a => a = tmp ∨ a ∈ labels kx) t₄ t₅ := by
    by_cases he : kx = []
    · subst he
      exact ⟨_, avlSetparent_eq htmp₄ n, trivial, by simp, rfl, Within.put (Or.inl rfl) _⟩
    obtain ⟨t₅, h1, h2, h3, h4⟩ := avlSetparent_topOf hkx₄ hkxn he n
    refine ⟨t₅, by rw [topOf_congr he tmp n]; exact h1, h2, ?_, h3, h4.mono fun a => Or.inr⟩
    rw [h4.cells tmp htkx, htmp₄]
    cases kx with
    | nil => exact absurd rfl he
    | cons f kx => rfl
  have hn₅ : t₅.cells n = some (cell d (topOf kx tmp) y.rootAddr q w b) := by
    rw [hwithin₅.cells n (by tauto), hn₄]
  have hy₅ : Lay t₅.cells del (!d) y :=
    (((hyl.put hty _).put hny _).frame hwithin₄ fun a ha => hk a (by simp [ha])).frame hwithin₅ (by
      rintro a ha (rfl | hm)
      exacts [hty ha, hxy a (by simp [hm]) ha])
  -- and so does the other side
  obtain ⟨t₆, hrun₆, hy₆, hroot₆, hwithin₆⟩ := avlSetparent_spec hy₅ hyn hy n
  refine ⟨t₆, ?_, ⟨?_, ?_, ?_, ?_, ?_, ?_, hy₆⟩, ?_⟩
  · rw [hq, hw] at hrun₄
    refine bind_of_some hnc (bind_of_some hdel₁ ?_)
    refine bind_of_some (avlChild_same hn₂) (bind_of_some hrun₃ ?_)
    refine bind_of_some (avlXparent_eq hn₃) (bind_of_some (avlXchild_eq hn₃) ?_)
    refine bind_of_some hrun₄ ?_
    refine bind_of_some (avlChild_same hn₄) (bind_of_some hrun₅ ?_)
    exact bind_of_some (avlChild_not hn₅) hrun₆
  · rw [hroot₆, hroot₅, hroot₄]
  · refine (hpath₄.frame hwithin₅ ?_).frame hwithin₆ fun a ha hm => hk a (by simp [hm]) ha
    rintro a ha (rfl | hm)
    exacts [htk ha, hk a (by simp [hm]) ha]
  · exact hkx₅.frame hwithin₆ fun a ha => hxy a (by simp [ha])
  · rw [hwithin₆.cells n hny, hn₅, hq, hw]
  · rw [hwithin₆.cells tmp hty, htmp₅]
  · refine ((((hx.put htx _).put hnx _).frame hwithin₄ fun a ha => hk a (by simp [ha])).frame
      hwithin₅ ?_).frame hwithin₆ fun a ha => hxy a (by simp [ha])
    rintro a ha (rfl | hm)
    exacts [htx ha, hxkx a (by simp [ha]) hm]
  · have hmem : ∀ a, a ∈ labels k ∨ a ∈ labels kx ∨ a ∈ y.inorder ∨ a = n →
        a ∈ (plug k (join d (plug kx (join d x n bn nil)) del b y)).inorder := by
      intro a ha
      simp only [mem_inorder_plug, mem_inorder_join]
      tauto
    refine Within.trans ?_ (hwithin₆.mono fun a ha => Or.inr (hmem a (by tauto)))
    refine Within.trans ?_ (hwithin₅.mono fun a ha => ha.imp_right fun ha => hmem a (by tauto))
    refine Within.trans ?_ (hwithin₄.mono fun a ha => Or.inr (hmem a (by tauto)))
    exact (Within.put (Or.inl rfl) _).trans (Within.put (Or.inr (hmem n (by tauto))) _)

/-- The second half of the swap. -/
theorem avlSwapDown_spec (h : Swapped t c k d kx x n tmp bn b y) (h0 : n ≠ 0) (htmp : tmp ≠ 0)
    (hn : (plug (kx ++ ⟨d, n, b, y⟩ :: k) (join d x tmp bn nil)).inorder.Nodup) :
    ∃ t', avlSwapDown tmp t = some t' ∧ At t' c (kx ++ ⟨d, n, b, y⟩ :: k) (join d x tmp bn nil) ∧
      Within (· ∈ (plug (kx ++ ⟨d, n, b, y⟩ :: k) (join d x tmp bn nil)).inorder) t t' := by
  obtain ⟨hroot, hpath, hkx, hhere, hcopy, hx, hy⟩ := h
  rw [nodup_inorder_plug, nodup_inorder_join] at hn
  obtain ⟨⟨htx, -, -, hxn, -⟩, hkn, hk⟩ := hn
  simp only [mem_inorder_join] at hk
  have htk : tmp ∉ labels (kx ++ ⟨d, n, b, y⟩ :: k) := hk tmp (by simp)
  -- the path is already whole, except for the root at its hole
  obtain ⟨z, hz⟩ : ∃ z, LayPath t.cells 0 c (kx ++ ⟨d, n, b, y⟩ :: k) z := by
    by_cases he : kx = []
    · subst he
      exact ⟨tmp, h0, hhere, hy, hpath⟩
    · refine ⟨n, (layPath_append ..).mpr ⟨hkx, h0, ?_, hy, hpath⟩⟩
      rw [topOf_congr he n tmp]
      exact hhere
  obtain ⟨t₁, hrun₁, hpath₁, hroot₁, hwithin₁⟩ := setAvlChild_hole hz hkn (by simp) tmp
  rw [parentOf_append, sideOf_append, parentOf_cons, sideOf_cons] at hrun₁
  have hcopy₁ : t₁.cells tmp = some (cell d x.rootAddr 0 (parentOf n kx) (sideOf d kx) bn) := by
    rw [hwithin₁.cells tmp htk, hcopy]
  have hx₁ : Lay t₁.cells n d x := hx.frame hwithin₁ fun a ha => hk a (by simp [ha])
  obtain ⟨t₂, hrun₂, hx₂, hroot₂, hwithin₂⟩ :
      ∃ t₂, (if x.rootAddr ≠ 0 then t₁.avlSetparent x.rootAddr tmp else pure t₁) = some t₂ ∧
        Lay t₂.cells tmp d x ∧ t₂.avlRoot = t₁.avlRoot ∧ Within (· ∈ x.inorder) t₁ t₂ := by
    by_cases he : x = nil
    · subst he
      exact ⟨t₁, rfl, trivial, rfl, Within.refl t₁⟩
    · rw [if_pos (lay_rootAddr_ne hx₁ he)]
      exact avlSetparent_spec hx₁ hxn he tmp
  obtain ⟨c1, hc1, hc⟩ := avlChild_only hcopy₁
  refine ⟨t₂, ?_, ⟨?_, ?_, ?_⟩, ?_⟩
  · refine bind_of_some (avlXparent_eq hcopy) (bind_of_some (avlXchild_eq hcopy) ?_)
    exact bind_of_some hrun₁ (bind_of_some hc1 (bind_of_some hc hrun₂))
  · rw [hroot₂, hroot₁, hroot, rootAddr_join, topOf_append, topOf_cons]
  · rw [rootAddr_join]
    exact hpath₁.frame hwithin₂ fun a ha hm => hk a (by simp [hm]) ha
  · rw [lay_join, parentOf_append, sideOf_append, parentOf_cons, sideOf_cons]
    exact ⟨htmp, by rw [hwithin₂.cells tmp htx, hcopy₁]; rfl, hx₂, trivial⟩
  · refine (hwithin₁.mono fun a ha => ?_).trans (hwithin₂.mono fun a ha => ?_)
    · exact (mem_inorder_plug ..).mpr (Or.inr ha)
    · exact (mem_inorder_plug ..).mpr (Or.inl ((mem_inorder_join ..).mpr (by simp [ha])))

/-- Two nodes change places in the in-order sequence when one is the last before
the other. -/
theorem inorder_swapped (hside : ∀ f ∈ kx, f.side = !d) {l r : BinTree Addr}
    (hlr : node l p b r = join d (plug kx (join d x n bn nil)) p b y) :
    (plug (kx ++ ⟨d, n, b, y⟩ :: k) x).inorder
      = before k ++ l.inorder ++ (r.inorder ++ after k) := by
  have hnear := near_eq_nil hside
  rw [plug_append, plug_cons, Frame.fill, inorder_plug]
  cases d with
  | false =>
    have hafter : after kx = [] := hnear
    obtain ⟨rfl, -, -, rfl⟩ : l = plug kx (join false x n bn nil) ∧ p = p ∧ b = b ∧ r = y := by
      simpa [join] using hlr
    simp [join, inorder_plug, hafter]
  | true =>
    have hbefore : before kx = [] := by simpa [near] using hnear
    obtain ⟨rfl, -, -, rfl⟩ : l = y ∧ p = p ∧ b = b ∧ r = plug kx (join true x n bn nil) := by
      simpa [join] using hlr
    simp [join, inorder_plug, hbefore]

section

variable (h : t.Valid s) {l₁ l₂ : List Addr} (hl : s.inorder = l₁ ++ p :: l₂)
  (htmp : tmp ∉ s.inorder) (ht0 : tmp ≠ 0) (hf : s.inorder.length ≤ fuel)

include h hl htmp ht0 hf

/-- **The swap.**  Afterwards the node to unlink, which is the stack variable or
the node itself, has at most one child, and without it the tree has the in-order
sequence that is asked for. -/
theorem avlSwap_spec :
    ∃ del t' c k d x b, avlSwap fuel tmp t p = some (del, t') ∧ At t' c k (join d x del b nil) ∧
      (del = tmp ∨ del = p) ∧ (plug k (join d x del b nil)).Balanced ∧
      (plug k x).inorder = l₁ ++ l₂ ∧ Within (fun a => a = tmp ∨ a ∈ s.inorder) t t' := by
  obtain ⟨c, k, l, b, r, rfl, hat, rfl, rfl⟩ := h.linked.focus_node hl
  have hp : t.cells p = some (cell false l.rootAddr r.rootAddr (parentOf 0 k) (sideOf c k) b) :=
    hat.tree.2.1
  have hc0 := avlChild_same hp
  have hc1 := avlChild_not hp
  rw [Bool.not_false] at hc1
  have hone : l = nil ∨ r = nil → avlSwap fuel tmp t p = some (p, t) := by
    intro hnil
    refine bind_of_some hc0 (bind_of_some hc1 (if_neg ?_))
    rintro ⟨h0, h1⟩
    rcases hnil with rfl | rfl
    · exact h0 rfl
    · exact h1 rfl
  by_cases hr : r = nil
  · subst hr
    exact ⟨p, t, c, k, false, l, b, hone (Or.inr rfl), hat, Or.inr rfl, h.balanced,
      by simp [inorder_plug], Within.refl t⟩
  by_cases hln : l = nil
  · subst hln
    exact ⟨p, t, c, k, true, r, b, hone (Or.inl rfl), hat, Or.inr rfl, h.balanced,
      by simp [inorder_plug], Within.refl t⟩
  -- two children: the neighbour is on the taller side
  set d := avlBalance2child b
  obtain ⟨x₀, y, hlr, hx₀, hy⟩ : ∃ x₀ y, node l p b r = join d x₀ p b y ∧ x₀ ≠ nil ∧ y ≠ nil := by
    cases d with
    | false => exact ⟨l, r, rfl, hln, hr⟩
    | true => exact ⟨r, l, rfl, hr, hln⟩
  have hat' := hat
  rw [hlr] at hat'
  obtain ⟨-, hpd, hxl, -⟩ := (lay_join ..).mp hat'.tree
  have hxf : x₀.inorder.length ≤ fuel := by
    rw [hlr, length_inorder_plug, length_inorder_join] at hf
    omega
  obtain ⟨kx, n, bn, x, rfl, hside, hdesc⟩ := avlDescend_spec (d := !d) hxl hx₀ hxf
  have hjoin : join (!d) nil n bn x = join d x n bn nil := join_not ..
  rw [hjoin] at hlr hat' hdesc
  have hn := h.linked.nodup
  have hbal := h.balanced
  have hord := inorder_swapped (k := k) hside hlr
  have hn0 : n ≠ 0 := (h.linked.mem (by rw [hlr]; simp [mem_inorder_plug])).1
  have hsub :
      (plug (kx ++ ⟨d, n, b, y⟩ :: k) x).inorder.Sublist (plug k (node l p b r)).inorder := by
    rw [hord, hl]
    exact (List.append_sublist_append_left _).mpr (List.sublist_cons_self p _)
  have hn' : (plug (kx ++ ⟨d, n, b, y⟩ :: k) (join d x tmp bn nil)).inorder.Nodup := by
    rw [(inorder_plug_join_nil_perm ..).nodup_iff, List.nodup_cons]
    exact ⟨fun hm => htmp (hsub.subset hm), hsub.nodup hn⟩
  have hbal' : (plug (kx ++ ⟨d, n, b, y⟩ :: k) (join d x tmp bn nil)).Balanced := by
    have hh : (join d x tmp bn nil).height = (join d x n bn nil).height := by simp
    rw [hlr, balanced_plug, balanced_join, height_join, balanced_plug] at hbal
    rw [plug_append, plug_cons, Frame.fill, balanced_plug, balanced_join, height_join,
      balanced_plug, height_plug_congr kx hh, hh]
    simp only [balanced_join] at hbal ⊢
    exact hbal
  rw [hlr] at hn htmp hsub
  obtain ⟨t₁, hrun₁, hswap, hwithin₁⟩ := avlSwapUp_spec hat' hn htmp hy
  obtain ⟨t₂, hrun₂, hat₂, hwithin₂⟩ := avlSwapDown_spec hswap hn0 ht0 hn'
  refine ⟨tmp, t₂, c, _, d, x, bn, ?_, hat₂, Or.inl rfl, hbal', hord, ?_⟩
  · have hne : l.rootAddr ≠ 0 ∧ r.rootAddr ≠ 0 :=
      ⟨lay_rootAddr_ne hat.tree.2.2.1 hln, lay_rootAddr_ne hat.tree.2.2.2 hr⟩
    refine bind_of_some hc0 (bind_of_some hc1 ?_)
    rw [if_pos hne]
    refine bind_of_some (avlXbalance_eq hp) (bind_of_some (avlChild_same hpd) ?_)
    rw [hjoin]
    exact bind_of_some hdesc (bind_of_some hrun₁ (bind_of_some hrun₂ rfl))
  · rw [hlr]
    refine hwithin₁.trans (hwithin₂.mono fun a ha => ?_)
    rw [(inorder_plug_join_nil_perm ..).mem_iff, List.mem_cons] at ha
    exact ha.imp_right fun ha => hsub.subset ha

/-- **Removal.**  The node leaves the in-order sequence and the tree stays
balanced.  Only the nodes of the tree and the stack variable are written. -/
theorem avlRemove_spec :
    ∃ t' s', avlRemove fuel tmp t p = some t' ∧ t'.Valid s' ∧ s'.inorder = l₁ ++ l₂ ∧
      t'.avlCompar = t.avlCompar ∧ t'.data = t.data ∧
      (∀ a, a ∉ s.inorder → a ≠ tmp → t'.cells a = t.cells a) ∧
      (∀ a, a ≠ tmp → (t.cells a).isSome → (t'.cells a).isSome) := by
  obtain ⟨del, t₁, c, k, d, x, b, hrun₁, hat, hdel, hbal, hord, hwithin₁⟩ :=
    avlSwap_spec h hl htmp ht0 hf
  have hn := h.linked.nodup
  rw [hl] at hn
  have hsub : (l₁ ++ l₂).Sublist s.inorder := by
    rw [hl]
    exact (List.append_sublist_append_left _).mpr (List.sublist_cons_self p _)
  have hn' : (l₁ ++ l₂).Nodup := hsub.nodup h.linked.nodup
  have hdelx : del ∉ l₁ ++ l₂ := by
    rcases hdel with rfl | rfl
    · exact fun hm => htmp (hsub.subset hm)
    · simpa using (List.nodup_middle.mp hn).notMem
  have hperm := inorder_plug_join_nil_perm k d x del b
  rw [hord] at hperm
  have hnk : (plug k (join d x del b nil)).inorder.Nodup := by
    rw [hperm.nodup_iff, List.nodup_cons]
    exact ⟨hdelx, hn'⟩
  have hkf : k.length ≤ fuel := by
    have hk := length_le_labels k
    have hlen := hsub.length_le
    rw [← hord, length_inorder_plug] at hlen
    omega
  obtain ⟨t₂, s', hrun₂, hat₂, hbal₂, hord₂, hwithin₂⟩ := avlUnlink_spec hat hnk hbal hkf
  rw [hord] at hord₂
  have htmp' : tmp ∉ s'.inorder := fun hm => htmp (hsub.subset (hord₂ ▸ hm))
  have hmem : ∀ a ∈ (plug k (join d x del b nil)).inorder, a = tmp ∨ a ∈ s.inorder := by
    intro a ha
    rcases List.mem_cons.mp (hperm.mem_iff.mp ha) with rfl | ha
    · exact hdel.imp_right fun e => by simp [hl, e]
    · exact .inr (hsub.subset ha)
  refine ⟨t₂.release tmp, s', ?_, ⟨⟨hat₂.root, ⟨c, ?_⟩, hord₂ ▸ hn', ?_⟩, hbal₂, ?_⟩, hord₂,
    ?_, ?_, ?_, ?_⟩
  · exact bind_of_some hrun₁ (bind_of_some hrun₂ rfl)
  · exact hat₂.tree.congr fun a ha => release_of_ne fun e => htmp' (e ▸ ha)
  · exact fun a ha => h.linked.even a (hsub.subset (hord₂ ▸ ha))
  · have hnum : t₂.avlNumnodes = t₁.avlNumnodes - 1 := hwithin₂.numnodes
    rw [hord₂]
    change t₂.avlNumnodes = _
    rw [hnum, hwithin₁.numnodes, h.numnodes, hl]
    simp
  · exact hwithin₂.compar.trans hwithin₁.compar
  · exact hwithin₂.data.trans hwithin₁.data
  · intro a ha hat'
    rw [release_of_ne hat', hwithin₂.cells a fun hm => ?_]
    · exact hwithin₁.cells a (by tauto)
    · exact (hmem a hm).elim hat' ha
  · intro a ha hsome
    rw [release_of_ne ha]
    exact hwithin₂.alloc a (hwithin₁.alloc a hsome)

end

end Polaris
