import Polaris.Avl.Remove
import Mathlib.Data.Finset.Card

/-!
# Runs of a tree

A tree is created empty and then changed by `avl_add`, `avl_insert`,
`avl_insert_here` and `avl_remove`, in any order.  Between two calls the rest of
the program may allocate and write whatever is not in the tree.

`Legal` is the contract of each call.  `AvlInv.call` is the step lemma: a legal
call returns, and it keeps the invariant.  `avl_run_invariant` takes it along
every run.

## Main definitions

* `AvlCall`, `AvlCall.run`, `AvlCall.nodes`
* `AvlCall.Legal`
* `AvlRun`
* `AvlInv`
-/

namespace Polaris

open BinTree AvlTree List

variable {α : Type}

/-- A call that changes a tree. -/
inductive AvlCall where
  | add (p : Addr)
  | insert (p : Addr) (index : ℕ)
  | insertHere (p here : Addr) (direction : Bool)
  | remove (p tmp : Addr)

/-- Run a call. -/
def AvlCall.run (fuel : ℕ) (t : AvlTree α) : AvlCall → Option (AvlTree α)
  | add p => avlAdd fuel t p
  | insert p index => avlInsert fuel t p index
  | insertHere p here direction => avlInsertHere fuel t p here direction
  | remove p tmp => avlRemove fuel tmp t p

/-- The nodes that are in the tree after a call. -/
def AvlCall.nodes (S : Finset Addr) : AvlCall → Finset Addr
  | add p | insert p _ | insertHere p _ _ => Insert.insert p S
  | remove p _ => S.erase p

/-- An object that can be linked into the tree: it is allocated, aligned and not
in the tree, and the comparison is defined on it. -/
structure Fresh (U : α → Prop) (t : AvlTree α) (S : Finset Addr) (p : Addr) : Prop where
  notMem : p ∉ S
  ne_zero : p ≠ 0
  even : 2 ∣ p
  alloc : (t.cells p).isSome
  ordered : U (t.data p)

/-- The object `p` is ordered immediately after (`direction = true`) or before the
node `here`. -/
def Beside (t : AvlTree α) (S : Finset Addr) (p here : Addr) (direction : Bool) : Prop :=
  if direction then
    t.avlCompar (t.data here) (t.data p) = -1 ∧
      ∀ q ∈ S, t.avlCompar (t.data here) (t.data q) = -1 →
        t.avlCompar (t.data p) (t.data q) = -1
  else
    t.avlCompar (t.data p) (t.data here) = -1 ∧
      ∀ q ∈ S, t.avlCompar (t.data q) (t.data here) = -1 →
        t.avlCompar (t.data q) (t.data p) = -1

/-- The contract of a call. -/
def AvlCall.Legal (U : α → Prop) (fuel : ℕ) (t : AvlTree α) (S : Finset Addr) : AvlCall → Prop
  | add p => Fresh U t S p ∧ ∀ q ∈ S, t.avlCompar (t.data p) (t.data q) ≠ 0
  -- the index comes from a search that failed
  | insert p index => Fresh U t S p ∧ avlFind fuel t (t.data p) = some (0, index)
  | insertHere p here direction => Fresh U t S p ∧ here ∈ S ∧ Beside t S p here direction
  -- the stack variable is none of the nodes
  | remove p tmp => p ∈ S ∧ tmp ∉ S ∧ tmp ≠ 0

/-- The trees that a program reaches, each with the nodes inserted and not yet
removed. -/
inductive AvlRun (cmp : α → α → ℤ) (U : α → Prop) : AvlTree α → Finset Addr → Prop
  | create (cells : Addr → Option AvlNode) (data : Addr → α) :
      AvlRun cmp U (avlCreate cmp cells data) ∅
  | call {t t' : AvlTree α} {S : Finset Addr} {op : AvlCall} {fuel : ℕ} :
      AvlRun cmp U t S → op.Legal U fuel t S → S.card < fuel → op.run fuel t = some t' →
        AvlRun cmp U t' (op.nodes S)
  | other {t : AvlTree α} {S : Finset Addr} {cells : Addr → Option AvlNode} {data : Addr → α} :
      AvlRun cmp U t S → (∀ p ∈ S, cells p = t.cells p ∧ data p = t.data p) →
        AvlRun cmp U { t with cells := cells, data := data } S

/-- The invariant: `t` holds the balanced search tree `s`, whose nodes are `S`. -/
structure AvlInv (cmp : α → α → ℤ) (U : α → Prop) (t : AvlTree α) (S : Finset Addr)
    (s : BinTree Addr) : Prop where
  compar : t.avlCompar = cmp
  valid : t.Valid s
  ascending : Ascending t s
  nodes : s.inorder.toFinset = S
  ordered : ∀ p ∈ S, U (t.data p)

namespace AvlInv

variable {cmp : α → α → ℤ} {U : α → Prop} {t t' : AvlTree α} {S : Finset Addr}
  {s s' : BinTree Addr} {p : Addr}

theorem mem_iff (h : AvlInv cmp U t S s) : p ∈ S ↔ p ∈ s.inorder := by
  rw [← h.nodes, mem_toFinset]

theorem card (h : AvlInv cmp U t S s) : S.card = s.inorder.length := by
  rw [← h.nodes, toFinset_card_of_nodup h.valid.linked.nodup]

theorem create (cmp : α → α → ℤ) (U : α → Prop) (cells : Addr → Option AvlNode)
    (data : Addr → α) : AvlInv cmp U (avlCreate cmp cells data) ∅ nil where
  compar := rfl
  valid := ⟨⟨rfl, ⟨false, trivial⟩, nodup_nil, by simp⟩, trivial, rfl⟩
  ascending := List.Pairwise.nil
  nodes := rfl
  ordered := by simp

/-- What the tree does not hold may change. -/
theorem other (h : AvlInv cmp U t S s) {cells : Addr → Option AvlNode} {data : Addr → α}
    (hkeep : ∀ p ∈ S, cells p = t.cells p ∧ data p = t.data p) :
    AvlInv cmp U { t with cells := cells, data := data } S s := by
  have hin : ∀ p ∈ s.inorder, cells p = t.cells p ∧ data p = t.data p :=
    fun p hp => hkeep p (h.mem_iff.mpr hp)
  refine ⟨h.compar, h.valid.congr rfl rfl fun a ha => (hin a ha).1, ?_, h.nodes, ?_⟩
  · refine List.Pairwise.imp_of_mem ?_ h.ascending
    intro a b ha hb hab
    change t.avlCompar (data a) (data b) = -1
    rw [(hin a ha).2, (hin b hb).2, hab]
  · intro a ha
    change U (data a)
    rw [(hkeep a ha).2]
    exact h.ordered a ha

/-- A node that is linked between the nodes below it and the nodes above it. -/
theorem link (h : AvlInv cmp U t S s) (hp : U (t.data p)) {l₁ l₂ : List Addr}
    (hl : s.inorder = l₁ ++ l₂) (hb : ∀ q ∈ l₁, cmp (t.data q) (t.data p) = -1)
    (ha : ∀ q ∈ l₂, cmp (t.data p) (t.data q) = -1) (hvalid : t'.Valid s')
    (hl' : s'.inorder = l₁ ++ p :: l₂) (hcmp : t'.avlCompar = t.avlCompar)
    (hdata : t'.data = t.data) : AvlInv cmp U t' (insert p S) s' := by
  refine ⟨hcmp.trans h.compar, hvalid, ?_, ?_, ?_⟩
  · have hs := h.ascending
    rw [Ascending, hl, pairwise_append] at hs
    rw [Ascending, hl', hcmp, hdata, pairwise_append, pairwise_cons]
    rw [← h.compar] at ha hb
    refine ⟨hs.1, ⟨ha, hs.2.1⟩, fun a h1 b h2 => ?_⟩
    rcases mem_cons.mp h2 with rfl | h2
    · exact hb a h1
    · exact hs.2.2 a h1 b h2
  · ext a
    rw [Finset.mem_insert, h.mem_iff, mem_toFinset, hl, hl']
    simp only [mem_append, mem_cons]
    tauto
  · intro a hm
    rw [hdata]
    rcases Finset.mem_insert.mp hm with rfl | hm
    · exact hp
    · exact h.ordered a hm

section

variable (hc : ComparOn cmp U) (h : AvlInv cmp U t S s)

include hc h

variable {fuel : ℕ}

/-- An object linked at the slot that its own search reports. -/
theorem link_slot (hp : Fresh U t S p)
    {k : Path Addr} (hk : s = plug k nil) (hb : ∀ q ∈ before k, cmp (t.data p) (t.data q) = 1)
    (ha : ∀ q ∈ after k, cmp (t.data p) (t.data q) = -1) (hf : S.card < fuel) :
    ∃ t' s', avlInsert fuel t p (indexOf k) = some t' ∧ AvlInv cmp U t' (insert p S) s' := by
  subst hk
  rw [h.card] at hf
  have hnot : p ∉ (plug k nil).inorder := fun hm => hp.notMem (h.mem_iff.mpr hm)
  obtain ⟨t', s', hrun, hvalid, hord, hwithin⟩ :=
    avlInsert_spec h.valid hnot hp.ne_zero hp.even hp.alloc hf
  have hl : (plug k nil).inorder = before k ++ after k := by simp [inorder_plug]
  refine ⟨t', s', hrun, h.link hp.ordered hl (fun q hq => ?_) ha hvalid hord hwithin.compar
    hwithin.data⟩
  have hUq := h.ordered q (h.mem_iff.mpr (by simp [hl, hq]))
  rw [hc.swap _ _ hp.ordered hUq, hb q hq]

/-- The search for an object, with the two answers that it can give. -/
theorem find {v : α} (hv : U v) (hf : S.card < fuel) :
    (∃ q ∈ S, cmp v (t.data q) = 0 ∧ avlFind fuel t v = some (q, 0)) ∨
    ∃ k, s = plug k nil ∧ avlFind fuel t v = some (0, indexOf k) ∧
      (∀ q ∈ before k, cmp v (t.data q) = 1) ∧ (∀ q ∈ after k, cmp v (t.data q) = -1) := by
  have hU : ∀ q ∈ s.inorder, U (t.data q) := fun q hq => h.ordered q (h.mem_iff.mpr hq)
  have hc' : ComparOn t.avlCompar U := h.compar ▸ hc
  rw [h.card] at hf
  have hfind := avlFind_spec (fun q hq => hc'.sign v _ hv (hU q hq)) (h.ascending.fall hc' hU hv) hf
    h.valid.linked
  rw [h.compar] at hfind
  refine hfind.imp_left ?_
  rintro ⟨q, hq, hfound⟩
  exact ⟨q, h.mem_iff.mpr hq, hfound⟩

theorem add (hp : Fresh U t S p)
    (hne : ∀ q ∈ S, cmp (t.data p) (t.data q) ≠ 0) (hf : S.card < fuel) :
    ∃ t' s', avlAdd fuel t p = some t' ∧ AvlInv cmp U t' (insert p S) s' := by
  rcases h.find hc hp.ordered hf with ⟨q, hq, h0, -⟩ | ⟨k, hk, hfind, hb, ha⟩
  · exact absurd h0 (hne q hq)
  · obtain ⟨t', s', hrun, hinv⟩ := h.link_slot hc hp hk hb ha hf
    exact ⟨t', s', by simp [avlAdd, hfind, hrun], hinv⟩

theorem insertAt (hp : Fresh U t S p) {index : ℕ}
    (hfind : avlFind fuel t (t.data p) = some (0, index)) (hf : S.card < fuel) :
    ∃ t' s', avlInsert fuel t p index = some t' ∧ AvlInv cmp U t' (insert p S) s' := by
  rcases h.find hc hp.ordered hf with ⟨q, hq, -, hfind'⟩ | ⟨k, hk, hfind', hb, ha⟩
  · rw [hfind, Option.some.injEq, Prod.mk.injEq] at hfind'
    exact absurd hfind'.1.symm (h.valid.linked.mem (h.mem_iff.mp hq)).1
  · rw [hfind, Option.some.injEq, Prod.mk.injEq] at hfind'
    rw [hfind'.2]
    exact h.link_slot hc hp hk hb ha hf

theorem insertHere (hp : Fresh U t S p)
    {here : Addr} (hhere : here ∈ S) {d : Bool} (hbeside : Beside t S p here d)
    (hf : S.card < fuel) :
    ∃ t' s', avlInsertHere fuel t p here d = some t' ∧ AvlInv cmp U t' (insert p S) s' := by
  have hUh := h.ordered here hhere
  rw [Beside, h.compar] at hbeside
  rw [h.card] at hf
  obtain ⟨l₁, l₂, hl⟩ := append_of_mem (h.mem_iff.mp hhere)
  have hnot : p ∉ s.inorder := fun hm => hp.notMem (h.mem_iff.mpr hm)
  have hasc := h.ascending
  rw [Ascending, h.compar, hl, pairwise_append, pairwise_cons] at hasc
  obtain ⟨-, ⟨habove, -⟩, hbelow⟩ := hasc
  have hmem : ∀ q, q ∈ l₁ ∨ q ∈ l₂ → q ∈ S := fun q hq => h.mem_iff.mpr (by simp [hl]; tauto)
  obtain ⟨t', s', hrun, hvalid, hord, hwithin⟩ :=
    avlInsertHere_spec h.valid hl hnot hp.ne_zero hp.even hp.alloc hf d
  refine ⟨t', s', hrun, ?_⟩
  cases d with
  | false =>
    obtain ⟨hlt, hnext⟩ := hbeside
    refine h.link hp.ordered hl (fun q hq => ?_) (fun q hq => ?_) hvalid hord hwithin.compar
      hwithin.data
    · exact hnext q (hmem q (Or.inl hq)) (hbelow q hq here (by simp))
    · rcases mem_cons.mp hq with rfl | hq
      · exact hlt
      · have hUq := h.ordered q (hmem q (Or.inr hq))
        exact hc.lt_of_le_le hp.ordered hUh hUq (by omega)
          (by rw [habove q hq]; norm_num) (.inl hlt)
  | true =>
    obtain ⟨hlt, hnext⟩ := hbeside
    have hl' : s.inorder = (l₁ ++ [here]) ++ l₂ := by simp [hl]
    have hord' : s'.inorder = (l₁ ++ [here]) ++ p :: l₂ := by simpa using hord
    refine h.link hp.ordered hl' (fun q hq => ?_) (fun q hq => ?_) hvalid hord' hwithin.compar
      hwithin.data
    · rcases mem_append.mp hq with hq | hq
      · have hUq := h.ordered q (hmem q (Or.inl hq))
        have hqh := hbelow q hq here (by simp)
        exact hc.lt_of_le_le hUq hUh hp.ordered (by omega) (by omega) (.inl hqh)
      · rw [mem_singleton.mp hq]
        exact hlt
    · exact hnext q (hmem q (Or.inr hq)) (habove q hq)

end

theorem remove (h : AvlInv cmp U t S s) (hp : p ∈ S) {tmp : Addr} (htmp : tmp ∉ S)
    (ht0 : tmp ≠ 0) {fuel : ℕ} (hf : S.card < fuel) :
    ∃ t' s', avlRemove fuel tmp t p = some t' ∧ AvlInv cmp U t' (S.erase p) s' := by
  obtain ⟨l₁, l₂, hl⟩ := append_of_mem (h.mem_iff.mp hp)
  rw [h.card] at hf
  obtain ⟨t', s', hrun, hvalid, hord, hcmp, hdata, -, -⟩ :=
    avlRemove_spec h.valid hl (fun hm => htmp (h.mem_iff.mpr hm)) ht0 hf.le
  have hn := h.valid.linked.nodup
  rw [hl] at hn
  have hpl : p ∉ l₁ ++ l₂ := (nodup_middle.mp hn).notMem
  refine ⟨t', s', hrun, hcmp.trans h.compar, hvalid, ?_, ?_, ?_⟩
  · have hasc := h.ascending
    rw [Ascending, hl] at hasc
    rw [Ascending, hord, hcmp, hdata]
    exact hasc.sublist (by simp)
  · ext a
    rw [Finset.mem_erase, h.mem_iff, mem_toFinset, hord, hl]
    simp only [mem_append, mem_cons] at hpl ⊢
    constructor
    · intro ha
      exact ⟨fun e => hpl (e ▸ ha), by tauto⟩
    · tauto
  · intro a ha
    rw [hdata]
    exact h.ordered a (Finset.mem_of_mem_erase ha)

/-- **One call.**  A legal call returns, and the invariant holds of its result. -/
theorem call (hc : ComparOn cmp U) (h : AvlInv cmp U t S s) {op : AvlCall} {fuel : ℕ}
    (hop : op.Legal U fuel t S) (hf : S.card < fuel) :
    ∃ t' s', op.run fuel t = some t' ∧ AvlInv cmp U t' (op.nodes S) s' := by
  cases op with
  | add p =>
    refine h.add hc hop.1 ?_ hf
    rw [← h.compar]
    exact hop.2
  | insert p index => exact h.insertAt hc hop.1 hop.2 hf
  | insertHere p here d => exact h.insertHere hc hop.1 hop.2.1 hop.2.2 hf
  | remove p tmp => exact h.remove hop.1 hop.2.1 hop.2.2 hf

end AvlInv

/-- The invariant along a run. -/
theorem AvlRun.inv {cmp : α → α → ℤ} {U : α → Prop} (hc : ComparOn cmp U) {t : AvlTree α}
    {S : Finset Addr} (h : AvlRun cmp U t S) : ∃ s, AvlInv cmp U t S s := by
  induction h with
  | create cells data => exact ⟨nil, AvlInv.create cmp U cells data⟩
  | call _ hop hf hrun ih =>
    obtain ⟨s, hinv⟩ := ih
    obtain ⟨t', s', hrun', hinv'⟩ := hinv.call hc hop hf
    rw [hrun, Option.some.injEq] at hrun'
    exact ⟨s', hrun' ▸ hinv'⟩
  | other _ hkeep ih =>
    obtain ⟨s, hinv⟩ := ih
    exact ⟨s, hinv.other hkeep⟩

/-- **Every run of an AVL tree.**  After any calls, the in-order sequence is
strictly ascending and has exactly the nodes inserted and not yet removed, the
balances are the differences of the heights and lie within one, the parents and
the child indices name the slots that hold the nodes, and the count is right.
No call faults or fails to return. -/
theorem avl_run_invariant {cmp : α → α → ℤ} {U : α → Prop} (hc : ComparOn cmp U)
    {t : AvlTree α} {S : Finset Addr} (h : AvlRun cmp U t S) :
    (∃ s : BinTree Addr, s.inorder.toFinset = S ∧ Ascending t s ∧ s.Balanced ∧ Linked t s ∧
      t.avlNumnodes = S.card) ∧
    ∀ (op : AvlCall) (fuel : ℕ), op.Legal U fuel t S → S.card < fuel →
      ∃ t', op.run fuel t = some t' := by
  obtain ⟨s, hinv⟩ := h.inv hc
  constructor
  · refine ⟨s, hinv.nodes, hinv.ascending, hinv.valid.balanced, hinv.valid.linked, ?_⟩
    rw [hinv.card, hinv.valid.numnodes]
  · intro op fuel hop hf
    obtain ⟨t', s', hrun, -⟩ := hinv.call hc hop hf
    exact ⟨t', hrun⟩

/-- A memory with room for three nodes. -/
def threeCells (p : Addr) : Option AvlNode :=
  if p = 2 ∨ p = 4 ∨ p = 6 then some ⟨0, 0, 0, false, 0⟩ else none

/-- The tree in that memory after some calls. -/
def smallTree (ops : List AvlCall) : AvlTree ℕ :=
  (ops.foldlM (fun t (op : AvlCall) => op.run 9 t) (avlCreate natCompar threeCells id)).getD
    (avlCreate natCompar threeCells id)

/-- The node `4`, then `2` before it and `6`; then `4`, which has two children, goes. -/
theorem avlRun_smallTree :
    AvlRun natCompar (fun _ => True)
      (smallTree [.add 4, .insertHere 2 4 false, .add 6, .remove 4 9]) {2, 6} := by
  have h₀ : AvlRun natCompar (fun _ => True) (smallTree []) ∅ := AvlRun.create threeCells id
  have h₁ : AvlRun natCompar (fun _ => True) (smallTree [.add 4]) {4} :=
    @AvlRun.call _ _ _ _ _ _ (.add 4) 9 h₀
      ⟨⟨by decide, by decide, by decide, by decide, trivial⟩, by decide⟩ (by decide) rfl
  have h₂ : AvlRun natCompar (fun _ => True) (smallTree [.add 4, .insertHere 2 4 false]) {2, 4} :=
    @AvlRun.call _ _ _ _ _ _ (.insertHere 2 4 false) 9 h₁
      ⟨⟨by decide, by decide, by decide, by decide, trivial⟩, by decide, by unfold Beside; decide⟩
      (by decide) rfl
  have h₃ : AvlRun natCompar (fun _ => True)
      (smallTree [.add 4, .insertHere 2 4 false, .add 6]) {6, 2, 4} :=
    @AvlRun.call _ _ _ _ _ _ (.add 6) 9 h₂
      ⟨⟨by decide, by decide, by decide, by decide, trivial⟩, by decide⟩ (by decide) rfl
  have h₄ := @AvlRun.call _ _ _ _ _ _ (.remove 4 9) 9 h₃
    ⟨by decide, by decide, by decide⟩ (by decide) rfl
  have hset : AvlCall.nodes {6, 2, 4} (.remove 4 9) = {2, 6} := by decide
  rw [hset] at h₄
  exact h₄

theorem avl_run_smallTree :
    ∃ s : BinTree Addr, s.inorder.toFinset = {2, 6} ∧ s.Balanced ∧
      Linked (smallTree [.add 4, .insertHere 2 4 false, .add 6, .remove 4 9]) s := by
  obtain ⟨⟨s, hs, -, hbal, hlink, -⟩, -⟩ := avl_run_invariant comparOn_natCompar avlRun_smallTree
  exact ⟨s, hs, hbal, hlink⟩

end Polaris
