import Polaris.Avl.Layout

/-!
# The rotation in memory

`avl_rotation` rewires three to five nodes in the middle of a tree.  The two
lemmas here say which tree is laid out afterwards; that the new tree is balanced
is a fact about trees and stands in `Polaris.Lib.BinTree`.
-/

namespace Polaris

open BinTree AvlTree

variable {α : Type}

/-- The balance `avl_rotation` is called with names the tall side. -/
theorem rotation_left (d : Bool) : (!decide (2 * lean d < 0)) = d := by cases d <;> rfl

theorem rotation_heavy (d : Bool) : (2 * lean d) >>> (1 : ℕ) = lean d := by cases d <;> rfl

variable {t : AvlTree α} {c0 d : Bool} {k : Path Addr} {y : BinTree Addr} {a : Addr} {b : ℤ}

/-- The single rotation. -/
theorem avlRotation_one {cl cr : BinTree Addr} {c : Addr} {cb : ℤ}
    (h : At t c0 k (join d (join d cl c cb cr) a b y))
    (hn : (plug k (join d (join d cl c cb cr) a b y)).inorder.Nodup) (hcb : cb ≠ -lean d) :
    ∃ t', avlRotation t a (2 * lean d) = some (decide (cb - lean d = 0), t') ∧
      At t' c0 k (rotateOne d cl c cb cr a y) ∧
      Within (· ∈ (plug k (join d (join d cl c cb cr) a b y)).inorder) t t' := by
  have htree := h.tree
  simp only [lay_join, rootAddr_join] at htree
  obtain ⟨ha0, ha, ⟨hc0, hc, hcl, hcr⟩, hy⟩ := htree
  rw [nodup_inorder_plug, nodup_inorder_join, nodup_inorder_join] at hn
  simp only [mem_inorder_join, not_or] at hn
  obtain ⟨⟨⟨hac, hacl, hacr⟩, hay, hxy, ⟨hccl, hccr, hclcr, -, hcrn⟩, -⟩, hkn, hk⟩ := hn
  have hca : c ≠ a := Ne.symm hac
  generalize hq : parentOf 0 k = q at ha
  generalize hw : sideOf c0 k = w at ha
  -- node's left child becomes `cr`
  set t₁ := t.put a (cell d cr.rootAddr y.rootAddr q w b) with ht₁
  obtain ⟨t₂, hrun₂, hcr₂, hroot₂, hwithin₂⟩ := relink_spec (t := t₁) (hcr.put hacr _) hcrn a d
  have hc₂ : t₂.cells c = some (cell d cl.rootAddr cr.rootAddr a d cb) := by
    rw [hwithin₂.cells c hccr]; simp [ht₁, hca, hc]
  have ha₂ : t₂.cells a = some (cell d cr.rootAddr y.rootAddr q w b) := by
    rw [hwithin₂.cells a hacr]; simp [ht₁]
  -- node becomes the right child of child
  set u₁ := t₂.put c (cell d cl.rootAddr a a d cb) with hu₁
  set u₂ := u₁.put a (cell d cr.rootAddr y.rootAddr c (!d) (-(cb - lean d))) with hu₂
  set t₃ := u₂.put c (cell d cl.rootAddr a q w (cb - lean d)) with ht₃
  have hwithin₃ : Within (fun p => p = a ∨ p = c ∨ p ∈ cr.inorder) t t₃ :=
    (Within.put (.inl rfl) _).trans ((hwithin₂.mono fun _ hp => .inr (.inr hp)).trans
      ((Within.put (.inr (.inl rfl)) _).trans ((Within.put (.inl rfl) _).trans
        (Within.put (.inr (.inl rfl)) _))))
  have hlay₃ : Lay t₃.cells q w (rotateOne d cl c cb cr a y) := by
    rw [rotateOne, lay_join, lay_join, rootAddr_join]
    refine ⟨hc0, by simp [ht₃], hcl.frame hwithin₃ ?_, ha0, by simp [ht₃, hu₂, hac],
      ((hcr₂.put hccr _).put hacr _).put hccr _, hy.frame hwithin₃ ?_⟩
    · rintro p hp (rfl | rfl | hpr)
      exacts [hacl hp, hccl hp, hclcr p hp hpr]
    · rintro p hp (rfl | rfl | hpr)
      exacts [hay hp, hxy _ (.inl rfl) hp, hxy p (.inr (.inr hpr)) hp]
  rw [← hq, ← hw] at hlay₃
  obtain ⟨t₄, hrun₄, hat₄, hwithin₄⟩ := h.replant hkn hwithin₃ (fun p hp hS => hk p (by tauto) hp)
    (by simp [ht₃, hu₂, hu₁, hroot₂, ht₁]) hlay₃
    fun p hp => hk p (by simpa [inorder_rotateOne d cl cr y c a cb b] using hp)
  refine ⟨t₄, ?_, hat₄, hwithin₄.mono fun p hp => ?_⟩
  · -- the run of the code
    have ha₃ : u₁.cells a = some (cell d cr.rootAddr y.rootAddr q w b) := by simp [hu₁, hac, ha₂]
    have hc₃ : u₂.cells c = some (cell d cl.rootAddr a a d cb) := by simp [hu₂, hu₁, hca]
    rw [hq, hw, rotateOne, rootAddr_join] at hrun₄
    simp only [avlRotation, rotation_left, rotation_heavy]
    refine bind_of_some (avlXparent_eq ha) (bind_of_some (avlChild_same ha)
      (bind_of_some (avlXchild_eq ha) (bind_of_some (avlXbalance_eq hc) ?_)))
    rw [if_pos hcb, ← sub_eq_add_neg]
    refine bind_of_some (avlChild_not hc) (bind_of_some (setAvlChild_same ha _)
      (bind_of_some hrun₂ (bind_of_some (setAvlChild_not hc₂ a)
      (bind_of_some (avlSetbalance_eq ha₃ _) ?_))))
    refine bind_of_some (avlSetchild_put ..) (bind_of_some (avlSetparent_put ..)
      (bind_of_some (avlSetbalance_eq hc₃ _) ?_))
    exact bind_of_some (avlSetchild_put ..) (bind_of_some (avlSetparent_put ..)
      (bind_of_some hrun₄ rfl))
  · simp only [mem_inorder_plug, mem_inorder_join]
    tauto

/-- The double rotation. -/
theorem avlRotation_two {cl gl gr : BinTree Addr} {c g : Addr} {gb : ℤ}
    (h : At t c0 k (join d (join d cl c (-lean d) (join d gl g gb gr)) a b y))
    (hn : (plug k (join d (join d cl c (-lean d) (join d gl g gb gr)) a b y)).inorder.Nodup) :
    ∃ t', avlRotation t a (2 * lean d) = some (true, t') ∧
      At t' c0 k (rotateTwo d cl c gl g gb gr a y) ∧
      Within (· ∈ (plug k (join d (join d cl c (-lean d) (join d gl g gb gr)) a b y)).inorder)
        t t' := by
  have htree := h.tree
  simp only [lay_join, rootAddr_join] at htree
  obtain ⟨ha0, ha, ⟨hc0, hc, hcl, hg0, hg, hgl, hgr⟩, hy⟩ := htree
  rw [nodup_inorder_plug, nodup_inorder_join, nodup_inorder_join, nodup_inorder_join] at hn
  simp only [mem_inorder_join, not_or] at hn
  obtain ⟨⟨⟨hac, hacl, hag, hagl, hagr⟩, hay, hxy, ⟨hccl, ⟨hcg, hcgl, hcgr⟩, hclg, -, hggl, hggr,
    hglgr, hgln, hgrn⟩, -⟩, hkn, hk⟩ := hn
  generalize hq : parentOf 0 k = q at ha
  generalize hw : sideOf c0 k = w at ha
  have hca : c ≠ a := Ne.symm hac
  have hga : g ≠ a := Ne.symm hag
  have hgc : g ≠ c := Ne.symm hcg
  -- `gr` moves under node
  set t₁ := t.put a (cell d gr.rootAddr y.rootAddr q w b) with ht₁
  obtain ⟨t₂, hrun₂, hgr₂, hroot₂, hwithin₂⟩ := relink_spec (t := t₁) (hgr.put hagr _) hgrn a d
  have hc₂ : t₂.cells c = some (cell d cl.rootAddr g a d (-lean d)) := by
    rw [hwithin₂.cells c hcgr]; simp [ht₁, hca, hc]
  -- `gl` moves under child
  set t₃ := t₂.put c (cell d cl.rootAddr gl.rootAddr a d (-lean d)) with ht₃
  have hgl₃ : Lay t₃.cells g d gl :=
    ((hgl.put hagl _).frame hwithin₂ hglgr).put hcgl _
  obtain ⟨t₄, hrun₄, hgl₄, hroot₄, hwithin₄⟩ := relink_spec hgl₃ hgln c (!d)
  have hc₄ : t₄.cells c = some (cell d cl.rootAddr gl.rootAddr a d (-lean d)) := by
    rw [hwithin₄.cells c hcgl]; simp [ht₃]
  have ha₄ : t₄.cells a = some (cell d gr.rootAddr y.rootAddr q w b) := by
    rw [hwithin₄.cells a hagl]
    simp only [ht₃, put_cells, Function.update_of_ne hac]
    rw [hwithin₂.cells a hagr]
    simp [ht₁]
  have hg₄ : t₄.cells g = some (cell d gl.rootAddr gr.rootAddr c (!d) gb) := by
    rw [hwithin₄.cells g hggl]
    simp only [ht₃, put_cells, Function.update_of_ne hgc]
    rw [hwithin₂.cells g hggr]
    simp [ht₁, hga, hg]
  -- child and node become the children of gchild
  generalize hb₁ : (if gb = -lean d then lean d else 0) = b₁
  generalize hb₂ : (if gb = lean d then -lean d else 0) = b₂
  set u₁ := t₄.put g (cell d c gr.rootAddr c (!d) gb) with hu₁
  set u₂ := u₁.put c (cell d cl.rootAddr gl.rootAddr g d b₁) with hu₂
  set u₃ := u₂.put g (cell d c a c (!d) gb) with hu₃
  set u₄ := u₃.put a (cell d gr.rootAddr y.rootAddr g (!d) b₂) with hu₄
  set t₅ := u₄.put g (cell d c a q w 0) with ht₅
  have hwithin₅ : Within (fun p => p = a ∨ p = c ∨ p = g ∨ p ∈ gl.inorder ∨ p ∈ gr.inorder) t t₅ :=
    (Within.put (by simp) _).trans ((hwithin₂.mono fun p hp => by simp [hp]).trans
      ((Within.put (by simp) _).trans ((hwithin₄.mono fun p hp => by simp [hp]).trans
      ((Within.put (by simp) _).trans ((Within.put (by simp) _).trans
      ((Within.put (by simp) _).trans
      ((Within.put (by simp) _).trans (Within.put (by simp) _))))))))
  have hlay₅ : Lay t₅.cells q w (rotateTwo d cl c gl g gb gr a y) := by
    rw [rotateTwo, hb₁, hb₂, lay_join, lay_join, lay_join, rootAddr_join, rootAddr_join]
    refine ⟨hg0, by simp [ht₅], ⟨hc0,
      by simp [ht₅, hu₄, hu₃, hu₂, hcg, hca], hcl.frame hwithin₅ ?_, ?_⟩, ha0,
      by simp [ht₅, hu₄, hag], ?_, hy.frame hwithin₅ ?_⟩
    · intro p hp hS
      have hpg := hclg p hp
      rcases hS with rfl | rfl | hS
      exacts [hacl hp, hccl hp, hS.elim hpg.1 fun hS => hS.elim hpg.2.1 hpg.2.2]
    · exact ((((hgl₄.put hggl _).put hcgl _).put hggl _).put hagl _).put hggl _
    · exact (((((((hgr₂.put hcgr _).frame hwithin₄ fun p hp hpl =>
        hglgr p hpl hp).put hggr _).put hcgr
        _).put hggr _).put hagr _).put hggr _)
    · rintro p hp (rfl | rfl | rfl | hpl | hpr)
      exacts [hay hp, hxy _ (by simp) hp, hxy _ (by simp) hp, hxy p (by simp [hpl]) hp,
        hxy p (by simp [hpr]) hp]
  rw [← hq, ← hw] at hlay₅
  obtain ⟨t₆, hrun₆, hat₆, hwithin₆⟩ := h.replant hkn hwithin₅ (fun p hp hS => hk p (by tauto) hp)
    (by simp [ht₅, hu₄, hu₃, hu₂, hu₁, hroot₄, ht₃, hroot₂, ht₁]) hlay₅
    fun p hp => hk p (by simpa [inorder_rotateTwo d cl gl gr y c g a (-lean d) gb b] using hp)
  refine ⟨t₆, ?_, hat₆, hwithin₆.mono fun p hp => ?_⟩
  · -- the run of the code
    have hcu : u₁.cells c = some (cell d cl.rootAddr gl.rootAddr a d (-lean d)) := by
      simp [hu₁, hcg, hc₄]
    have hgu : u₂.cells g = some (cell d c gr.rootAddr c (!d) gb) := by simp [hu₂, hu₁, hgc]
    have hau : u₃.cells a = some (cell d gr.rootAddr y.rootAddr q w b) := by
      simp [hu₃, hu₂, hu₁, hag, hac, ha₄]
    have hgu' : u₄.cells g = some (cell d c a c (!d) gb) := by simp [hu₄, hu₃, hga]
    rw [hq, hw, rotateTwo, rootAddr_join] at hrun₆
    simp only [avlRotation, rotation_left, rotation_heavy]
    refine bind_of_some (avlXparent_eq ha) (bind_of_some (avlChild_same ha)
      (bind_of_some (avlXchild_eq ha) (bind_of_some (avlXbalance_eq hc) ?_)))
    rw [if_neg (not_not.mpr rfl)]
    refine bind_of_some (avlChild_not hc) (bind_of_some (avlChild_same hg)
      (bind_of_some (avlChild_not hg) (bind_of_some (setAvlChild_same ha _)
      (bind_of_some hrun₂ ?_))))
    refine bind_of_some (setAvlChild_not hc₂ _) (bind_of_some hrun₄
      (bind_of_some (avlXbalance_eq hg₄) ?_))
    rw [hb₁, hb₂]
    refine bind_of_some (setAvlChild_same hg₄ c) (bind_of_some (avlSetbalance_eq hcu b₁)
      (bind_of_some (avlSetparent_put ..) (bind_of_some (avlSetchild_put ..) ?_)))
    refine bind_of_some (setAvlChild_not hgu a) (bind_of_some (avlSetbalance_eq hau b₂)
      (bind_of_some (avlSetparent_put ..) (bind_of_some (avlSetchild_put ..) ?_)))
    exact bind_of_some (avlSetbalance_eq hgu' 0) (bind_of_some (avlSetparent_put ..)
      (bind_of_some (avlSetchild_put ..) (bind_of_some hrun₆ rfl)))
  · simp only [mem_inorder_plug, mem_inorder_join]
    tauto

/-- **What a rotation does.**  It keeps the in-order sequence and restores the
balance.  The height of the subtree drops by one unless the tall child was
balanced, and the returned flag says which. -/
theorem avlRotation_spec {x : BinTree Addr} (h : At t c0 k (join d x a b y))
    (hn : (plug k (join d x a b y)).inorder.Nodup) (hx : x.Balanced) (hy : y.Balanced)
    (hh : x.height = y.height + 2) :
    ∃ t' s, avlRotation t a (2 * lean d) = some (decide (x.bal ≠ 0), t') ∧ At t' c0 k s ∧
      s.Balanced ∧ s.inorder = (join d x a b y).inorder ∧
      s.height = y.height + 2 + (if x.bal = 0 then 1 else 0) ∧
      Within (· ∈ (plug k (join d x a b y)).inorder) t t' := by
  have hynn := height_nonneg y
  rcases eq_nil_or_join d x with rfl | ⟨cl, c, cb, cr, rfl⟩
  · simp at hh; omega
  by_cases hcb : cb = -lean d
  · subst hcb
    rcases eq_nil_or_join d cr with rfl | ⟨gl, g, gb, gr, rfl⟩
    · -- a child that leans towards `cr` has something there
      exfalso
      rw [balanced_join] at hx
      have hcl := height_nonneg cl
      rw [height_join] at hh
      simp only [height_nil] at hx hh
      rcases lean_eq d with hd | hd <;> rw [hd] at hx <;> omega
    · obtain ⟨t', hrun, hat, hwithin⟩ := avlRotation_two h hn
      obtain ⟨hbal, hheight⟩ := balanced_rotateTwo (a := a) hx hy hh
      have hne : -lean d ≠ 0 := by rcases lean_eq d with hd | hd <;> rw [hd] <;> norm_num
      refine ⟨t', _, ?_, hat, hbal, inorder_rotateTwo .., ?_, hwithin⟩
      · rw [hrun, bal_join]; simp [hne]
      · rw [hheight, bal_join, if_neg hne, add_zero]
  · obtain ⟨t', hrun, hat, hwithin⟩ := avlRotation_one h hn hcb
    obtain ⟨hbal, hheight⟩ := balanced_rotateOne (a := a) hx hy hh hcb
    refine ⟨t', _, ?_, hat, hbal, inorder_rotateOne .., ?_, hwithin⟩
    · have hflag : cb - lean d = 0 ↔ cb ≠ 0 := by
        rw [balanced_join] at hx
        rcases lean_eq d with hd | hd <;> rw [hd] at hcb ⊢ <;> omega
      simp only [hrun, bal_join, hflag]
    · rw [hheight, bal_join]

end Polaris
