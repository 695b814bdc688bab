import Polaris.RangeLock.Basic

/-!
# The tree of range locks

The nodes of the tree are disjoint.  What the tree says about readers is a function, the count at
each byte of the file: adding a reader adds one to it over a range and cuts nodes at the ends of the
range, and dropping it subtracts one.  Both walks over the tree are described by a relation with one
case for each thing that can happen to a node, from which everything else follows by induction.

## Main definitions

* `Rl.Has`, `RlSorted` — the bytes of a node; disjoint nodes in order.
* `readersAt` — the count of readers at a byte.
* `ReaderAdd`, `ReaderDrop` — what happens to the nodes when a reader comes or goes.
-/

namespace Polaris

open List

/-! ## Nodes and counts -/

/-- The byte `x` is in the range of the node. -/
def Rl.Has (rl : Rl) (x : ℕ) : Prop :=
  rl.rOff ≤ x ∧ x < rl.rOff + rl.rLen

instance (rl : Rl) (x : ℕ) : Decidable (rl.Has x) :=
  inferInstanceAs (Decidable (_ ∧ _))

/-- A node of the tree has a range that does not wrap around; one that its owner put there stands
for one reader, and readers wait only for one that keeps them out. -/
structure Rl.Ok (rl : Rl) : Prop where
  pos : 0 < rl.rLen
  fits : rl.rOff + rl.rLen < 2 ^ 64
  alone : rl.rOwner ≠ none → rl.rCnt = 1
  counted : 0 < rl.rCnt
  granted : rl.rType ≠ .append
  marked : rl.rReadWanted = true → rl.excludes = true

variable {rl e next : Rl} {x g off len cnt : ℕ} {tree : List Rl}

theorem Rl.Ok.rEnd_eq (h : rl.Ok) : rl.rEnd = rl.rOff + rl.rLen :=
  u64_of_lt h.fits

/-- The nodes are fine, disjoint and in order. -/
structure RlSorted (tree : List Rl) : Prop where
  ok : ∀ rl ∈ tree, rl.Ok
  order : tree.Pairwise fun a b => a.rOff + a.rLen ≤ b.rOff

/-- How many readers the tree counts at byte `x`. -/
def readersAt (tree : List Rl) (x : ℕ) : ℕ :=
  (tree.map fun rl => if rl.rType = .reader ∧ rl.Has x then rl.rCnt else 0).sum

theorem readersAt_cons (rl : Rl) (tree : List Rl) (x : ℕ) :
    readersAt (rl :: tree) x
      = (if rl.rType = .reader ∧ rl.Has x then rl.rCnt else 0) + readersAt tree x :=
  sum_cons

theorem readersAt_append (a b : List Rl) (x : ℕ) :
    readersAt (a ++ b) x = readersAt a x + readersAt b x := by
  rw [readersAt, map_append, sum_append]
  rfl

theorem readersAt_eq_zero (h : ∀ rl ∈ tree, rl.rType = .reader → ¬ rl.Has x) :
    readersAt tree x = 0 := by
  induction tree with
  | nil => rfl
  | cons rl tree ih =>
    rw [readersAt_cons, ih fun e he => h e (mem_cons_of_mem _ he),
      if_neg fun hx => h rl mem_cons_self hx.1 hx.2]

theorem exists_of_readersAt_pos (h : 0 < readersAt tree x) :
    ∃ rl ∈ tree, rl.rType = .reader ∧ rl.Has x := by
  by_contra hnone
  push Not at hnone
  rw [readersAt_eq_zero hnone] at h
  exact Nat.lt_irrefl 0 h

namespace RlSorted

variable {rl : Rl} {tree : List Rl}

theorem tail (h : RlSorted (rl :: tree)) : RlSorted tree :=
  ⟨fun e he => h.ok e (mem_cons_of_mem _ he), h.order.of_cons⟩

theorem head_le (h : RlSorted (rl :: tree)) (he : e ∈ tree) : rl.rOff + rl.rLen ≤ e.rOff :=
  rel_of_pairwise_cons h.order he

theorem cons (hrl : rl.Ok) (h : RlSorted tree) (hle : ∀ e ∈ tree, rl.rOff + rl.rLen ≤ e.rOff) :
    RlSorted (rl :: tree) :=
  ⟨fun e he => (mem_cons.mp he).elim (fun heq => heq ▸ hrl) (h.ok e),
    pairwise_cons.mpr ⟨hle, h.order⟩⟩

/-- A byte is in one node at most. -/
theorem eq_of_has (h : RlSorted tree) {a b : Rl} (ha : a ∈ tree) (hb : b ∈ tree) (hax : a.Has x)
    (hbx : b.Has x) : a = b := by
  induction tree with
  | nil => exact absurd ha not_mem_nil
  | cons rl tree ih =>
    obtain ⟨ha1, ha2⟩ := hax
    obtain ⟨hb1, hb2⟩ := hbx
    rcases mem_cons.mp ha with rfl | ha'
    · rcases mem_cons.mp hb with rfl | hb'
      · rfl
      · have := h.head_le hb'
        omega
    · rcases mem_cons.mp hb with rfl | hb'
      · have := h.head_le ha'
        omega
      · exact ih h.tail ha' hb'

/-- The count at a byte is the count of the node it is in. -/
theorem readersAt_eq (h : RlSorted tree) {a : Rl} (ha : a ∈ tree) (hx : a.Has x) :
    readersAt tree x = if a.rType = .reader then a.rCnt else 0 := by
  induction tree with
  | nil => exact absurd ha not_mem_nil
  | cons rl tree ih =>
    have hhead {e : Rl} (he : e ∈ tree) := h.head_le he
    obtain ⟨hx1, hx2⟩ := hx
    rw [readersAt_cons]
    rcases mem_cons.mp ha with rfl | ha'
    · rw [readersAt_eq_zero fun e he _ hex => by
        have := hhead he
        have := hex.1
        omega]
      by_cases htype : a.rType = .reader
      · rw [if_pos ⟨htype, hx1, hx2⟩, if_pos htype, Nat.add_zero]
      · rw [if_neg fun hc => htype hc.1, if_neg htype]
    · have := hhead ha'
      rw [ih h.tail ha', if_neg fun hc => by have := hc.2.2; omega, Nat.zero_add]

end RlSorted

/-! ## Adding a reader -/

/-- A proxy for the range of `len` bytes from `off` on, for `cnt` readers. -/
structure Rl.IsProxy (rl : Rl) (off len cnt : ℕ) : Prop where
  off : rl.rOff = off
  len : rl.rLen = len
  cnt : rl.rCnt = cnt
  reader : rl.rType = .reader
  unowned : rl.rOwner = none
  marked : rl.rReadWanted = true → rl.excludes = true

/-- The `r_cnt`s when the owner of a node loses its place in the tree. -/
def clearOwner (cnt : ℕ → ℕ) (rl : Rl) : ℕ → ℕ :=
  fun g => if rl.rOwner = some g then 0 else cnt g

theorem clearOwner_of_ne {cnt : ℕ → ℕ} (h : rl.rOwner ≠ some g) : clearOwner cnt rl g = cnt g :=
  if_neg h

theorem clearOwner_self {cnt : ℕ → ℕ} (h : rl.rOwner = some g) : clearOwner cnt rl g = 0 :=
  if_pos h

/-- No two nodes have the same owner. -/
def RlOwners (tree : List Rl) : Prop :=
  tree.Pairwise fun a b => ∀ g, a.rOwner = some g → b.rOwner ≠ some g

/-- What becomes of nodes when a reader of `[p, q)` is added.  Nodes before the range stay, one that
reaches into it is cut at `p`, gaps are filled with proxies, nodes in the range become proxies with
a larger count, and the last one may be cut at `q`. -/
inductive ReaderAdd (q : ℕ) : ℕ → List Rl → (ℕ → ℕ) → List Rl → (ℕ → ℕ) → Prop
  | skip {p : ℕ} {next : Rl} {rest out : List Rl} {cnt cnt' : ℕ → ℕ}
      (hend : next.rOff + next.rLen ≤ p) (hrest : ReaderAdd q p rest cnt out cnt') :
      ReaderAdd q p (next :: rest) cnt (next :: out) cnt'
  | cut {p : ℕ} {next front rear : Rl} {rest out : List Rl} {cnt cnt' : ℕ → ℕ}
      (htype : next.rType = .reader) (hoff : next.rOff < p) (hend : p < next.rOff + next.rLen)
      (hfront : front.IsProxy next.rOff (p - next.rOff) next.rCnt)
      (hrear : rear.IsProxy p (next.rOff + next.rLen - p) next.rCnt)
      (hrest : ReaderAdd q p (rear :: rest) (clearOwner cnt next) out cnt') :
      ReaderAdd q p (next :: rest) cnt (front :: out) cnt'
  | done {rest : List Rl} {cnt : ℕ → ℕ} (hle : ∀ e ∈ rest, q ≤ e.rOff) :
      ReaderAdd q q rest cnt rest cnt
  | gap {p r : ℕ} {proxy : Rl} {rest out : List Rl} {cnt cnt' : ℕ → ℕ} (hpr : p < r) (hrq : r ≤ q)
      (hle : ∀ e ∈ rest, r ≤ e.rOff) (hproxy : proxy.IsProxy p (r - p) 1)
      (hrest : ReaderAdd q r rest cnt out cnt') : ReaderAdd q p rest cnt (proxy :: out) cnt'
  | node {p : ℕ} {next proxy : Rl} {rest out : List Rl} {cnt cnt' : ℕ → ℕ}
      (htype : next.rType = .reader) (hoff : next.rOff = p) (hend : p + next.rLen ≤ q)
      (hproxy : proxy.IsProxy p next.rLen (next.rCnt + 1))
      (hrest : ReaderAdd q (p + next.rLen) rest (clearOwner cnt next) out cnt') :
      ReaderAdd q p (next :: rest) cnt (proxy :: out) cnt'
  | split {p : ℕ} {next front rear : Rl} {rest : List Rl} {cnt : ℕ → ℕ}
      (htype : next.rType = .reader) (hoff : next.rOff = p) (hpq : p < q) (hend : q < p + next.rLen)
      (hfront : front.IsProxy p (q - p) (next.rCnt + 1))
      (hrear : rear.IsProxy q (p + next.rLen - q) next.rCnt) :
      ReaderAdd q p (next :: rest) cnt (front :: rear :: rest) (clearOwner cnt next)

/-- A proxy for a piece of a node or of a gap. -/
structure Rl.Piece (e' : Rl) (tree : List Rl) : Prop where
  unowned : e'.rOwner = none
  reader : e'.rType = .reader
  place : (∃ e ∈ tree, e.rType = .reader ∧ e.rOff ≤ e'.rOff ∧ e'.rOff + e'.rLen ≤ e.rOff + e.rLen) ∨
    ∀ e ∈ tree, ∀ x, e'.Has x → ¬ e.Has x

theorem Rl.IsProxy.ok (h : rl.IsProxy off len cnt) (hpos : 0 < len) (hfits : off + len < 2 ^ 64)
    (hcnt : 0 < cnt) : rl.Ok where
  pos := h.len ▸ hpos
  fits := by rw [h.off, h.len]; exact hfits
  alone := fun hne => absurd h.unowned hne
  counted := h.cnt ▸ hcnt
  granted := by simp [h.reader]
  marked := h.marked

theorem Rl.IsProxy.end_eq (h : rl.IsProxy off len cnt) : rl.rOff + rl.rLen = off + len := by
  rw [h.off, h.len]

theorem readersAt_cons_reader (h : rl.rType = .reader) (tree : List Rl) (x : ℕ) :
    readersAt (rl :: tree) x
      = (if rl.rOff ≤ x ∧ x < rl.rOff + rl.rLen then rl.rCnt else 0) + readersAt tree x := by
  rw [readersAt_cons]
  congr 1
  exact if_congr (and_iff_right h) rfl rfl

theorem Rl.IsProxy.readersAt_cons (h : rl.IsProxy off len cnt) (tree : List Rl) (x : ℕ) :
    readersAt (rl :: tree) x
      = (if off ≤ x ∧ x < off + len then cnt else 0) + readersAt tree x := by
  rw [readersAt_cons_reader h.reader, h.off, h.len, h.cnt]

/-- A proxy in the range of a node. -/
theorem Rl.IsProxy.piece (h : rl.IsProxy off len cnt) (hmem : next ∈ tree)
    (htype : next.rType = .reader) (hoff : next.rOff ≤ off)
    (hend : off + len ≤ next.rOff + next.rLen) :
    rl.Piece tree :=
  ⟨h.unowned, h.reader, .inl ⟨next, hmem, htype,
    by rw [h.off]; exact hoff, by rw [h.end_eq]; exact hend⟩⟩

theorem Rl.Piece.cons {e' : Rl} {rest : List Rl} (h : e'.Piece rest)
    (hfree : ∀ x, e'.Has x → ¬ next.Has x) : e'.Piece (next :: rest) := by
  refine ⟨h.unowned, h.reader, h.place.imp (fun ⟨e, he, hin⟩ => ⟨e, mem_cons_of_mem _ he, hin⟩) ?_⟩
  intro hrest
  exact forall_mem_cons.mpr ⟨hfree, hrest⟩

namespace ReaderAdd

variable {p q : ℕ} {rest out : List Rl} {cnt cnt' : ℕ → ℕ}

theorem le (h : ReaderAdd q p rest cnt out cnt') : p ≤ q := by
  induction h with
  | skip _ _ ih => exact ih
  | cut _ _ _ _ _ _ ih => exact ih
  | done => exact le_rfl
  | gap hpr _ _ _ _ ih => omega
  | node _ _ _ _ _ ih => omega
  | split _ _ hpq _ => omega

/-- A cut node is two nodes. -/
theorem sorted_cut {front rear : Rl} {a b : ℕ} (hs : RlSorted (next :: rest)) (hoff : next.rOff < p)
    (hend : p < next.rOff + next.rLen) (hfront : front.IsProxy next.rOff (p - next.rOff) a)
    (ha : 0 < a) (hrear : rear.IsProxy p (next.rOff + next.rLen - p) b) (hb : 0 < b) :
    front.Ok ∧ RlSorted (rear :: rest) ∧ ∀ e ∈ rear :: rest, p ≤ e.rOff := by
  have hfits := (hs.ok next mem_cons_self).fits
  have hle : ∀ e ∈ rest, next.rOff + next.rLen ≤ e.rOff := fun e he => hs.head_le he
  refine ⟨hfront.ok (by omega) (by omega) ha, hs.tail.cons (hrear.ok (by omega) (by omega) hb)
    fun e he => ?_, fun e he => ?_⟩
  · have := hle e he
    rw [hrear.end_eq]
    omega
  · rcases mem_cons.mp he with rfl | he
    · rw [hrear.off]
    · have := hle e he
      omega

/-- The nodes stay disjoint and in order, and none comes before those there were. -/
theorem sorted (h : ReaderAdd q p rest cnt out cnt') (hq : q < 2 ^ 64) (hs : RlSorted rest) :
    RlSorted out ∧ ∀ b ≤ p, (∀ e ∈ rest, b ≤ e.rOff) → ∀ e ∈ out, b ≤ e.rOff := by
  induction h with
  | @skip p next rest out cnt cnt' hend hrest ih =>
    obtain ⟨hout, hbound⟩ := ih hs.tail
    refine ⟨hout.cons (hs.ok next mem_cons_self)
      (hbound _ hend fun e he => hs.head_le he), fun b hb hle => ?_⟩
    rw [forall_mem_cons] at hle ⊢
    exact ⟨hle.1, hbound b hb hle.2⟩
  | @cut p next front rear rest out cnt cnt' htype hoff hend hfront hrear hrest ih =>
    have hcnt := (hs.ok next mem_cons_self).counted
    obtain ⟨hok, hcut, hle⟩ := sorted_cut hs hoff hend hfront hcnt hrear hcnt
    obtain ⟨hout, hbound⟩ := ih hcut
    refine ⟨hout.cons hok ?_, fun b hb hb' => ?_⟩
    · rw [hfront.end_eq, Nat.add_sub_cancel' hoff.le]
      exact hbound p le_rfl hle
    · rw [forall_mem_cons] at hb' ⊢
      rw [hfront.off]
      refine ⟨hb'.1, hbound b hb ?_⟩
      rw [forall_mem_cons, hrear.off]
      exact ⟨hb, hb'.2⟩
  | done hle => exact ⟨hs, fun b _ hb => hb⟩
  | @gap p r proxy rest out cnt cnt' hpr hrq hle hproxy hrest ih =>
    obtain ⟨hout, hbound⟩ := ih hs
    refine ⟨hout.cons (hproxy.ok (by omega) (by omega) Nat.one_pos) ?_, fun b hb hb' => ?_⟩
    · rw [hproxy.end_eq, Nat.add_sub_cancel' hpr.le]
      exact hbound r le_rfl hle
    · rw [forall_mem_cons, hproxy.off]
      exact ⟨hb, hbound b (by omega) hb'⟩
  | @node p next proxy rest out cnt cnt' htype hoff hend hproxy hrest ih =>
    have hok := hs.ok next mem_cons_self
    obtain ⟨hout, hbound⟩ := ih hs.tail
    refine ⟨hout.cons (hproxy.ok hok.pos (by have := hok.fits; omega) (Nat.succ_pos _)) ?_,
      fun b hb hb' => ?_⟩
    · rw [hproxy.end_eq]
      exact hbound _ le_rfl fun e he => hoff ▸ hs.head_le he
    · rw [forall_mem_cons] at hb' ⊢
      rw [hproxy.off]
      exact ⟨hb, hbound b (by omega) hb'.2⟩
  | @split p next front rear rest cnt htype hoff hpq hend hfront hrear =>
    subst hoff
    have hcnt := (hs.ok next mem_cons_self).counted
    obtain ⟨hok, hcut, hle⟩ := sorted_cut hs hpq hend hfront (Nat.succ_pos _) hrear hcnt
    refine ⟨hcut.cons hok ?_, fun b hb hb' => ?_⟩
    · rw [hfront.end_eq, Nat.add_sub_cancel' hpq.le]
      exact hle
    · rw [forall_mem_cons, hfront.off]
      exact ⟨hb, fun e he => (hb.trans hpq.le).trans (hle e he)⟩

/-- One reader more over the range. -/
theorem readersAt_eq (h : ReaderAdd q p rest cnt out cnt') (x : ℕ) :
    readersAt out x = readersAt rest x + if p ≤ x ∧ x < q then 1 else 0 := by
  have hle := h.le
  induction h with
  | skip hend hrest ih => rw [readersAt_cons, readersAt_cons, ih hle, Nat.add_assoc]
  | cut htype hoff hend hfront hrear hrest ih =>
    rw [hfront.readersAt_cons, ih hle, hrear.readersAt_cons, readersAt_cons_reader htype]
    split_ifs <;> omega
  | done hle =>
    rw [if_neg (by omega), Nat.add_zero]
  | gap hpr hrq hle hproxy hrest ih =>
    rw [hproxy.readersAt_cons, ih hrq]
    split_ifs <;> omega
  | node htype hoff hend hproxy hrest ih =>
    rw [hproxy.readersAt_cons, ih hend, readersAt_cons_reader htype]
    split_ifs <;> omega
  | split htype hoff hpq hend hfront hrear =>
    rw [hfront.readersAt_cons, hrear.readersAt_cons, readersAt_cons_reader htype]
    split_ifs <;> omega

section

variable (h : ReaderAdd q p rest cnt out cnt')

include h

/-- Where the nodes come from: a node off the range that was there, or a proxy that does not
straddle an end of the range. -/
theorem mem_out (hq : q < 2 ^ 64) (hs : RlSorted rest) (he : e ∈ out) :
    (e ∈ rest ∨ e.Piece rest) ∧
      (p ≤ e.rOff ∧ e.rOff + e.rLen ≤ q ∧ e.rOwner = none ∨ e.rOff + e.rLen ≤ p ∨ q ≤ e.rOff) := by
  induction h with
  | @skip p next rest out cnt cnt' hend hrest ih =>
    rcases mem_cons.mp he with rfl | he
    · exact ⟨.inl mem_cons_self, .inr (.inl hend)⟩
    obtain ⟨hmem, hplace⟩ := ih hs.tail he
    have hbound := (hrest.sorted hq hs.tail).2 _ hend (fun e he => hs.head_le he) e he
    refine ⟨hmem.imp (mem_cons_of_mem _) fun hp => hp.cons fun x hx hx' => ?_, hplace⟩
    have := hx.1
    have := hx'.2
    omega
  | @cut p next front rear rest out cnt cnt' htype hoff hend hfront hrear hrest ih =>
    have hcnt := (hs.ok next mem_cons_self).counted
    obtain ⟨hok, hcut, hle⟩ := sorted_cut hs hoff hend hfront hcnt hrear hcnt
    rcases mem_cons.mp he with rfl | he
    · refine ⟨.inr (hfront.piece mem_cons_self htype le_rfl (by omega)), .inr (.inl ?_)⟩
      rw [hfront.end_eq]
      omega
    obtain ⟨hmem, hplace⟩ := ih hcut he
    refine ⟨?_, hplace⟩
    rcases hmem with hmem | hpiece
    · rcases mem_cons.mp hmem with rfl | hmem
      · exact .inr (hrear.piece mem_cons_self htype hoff.le (by omega))
      · exact .inl (mem_cons_of_mem _ hmem)
    have hbound := (hrest.sorted hq hcut).2 p le_rfl hle e he
    refine .inr ⟨hpiece.unowned, hpiece.reader, ?_⟩
    rcases hpiece.place with ⟨e', he', htype', hin⟩ | hfree
    · rcases mem_cons.mp he' with rfl | he'
      · rw [hrear.end_eq, hrear.off] at hin
        exact .inl ⟨next, mem_cons_self, htype, by omega, by omega⟩
      · exact .inl ⟨e', mem_cons_of_mem _ he', htype', hin⟩
    refine .inr fun e' he' x hx hx' => ?_
    rcases mem_cons.mp he' with rfl | he'
    · refine hfree rear mem_cons_self x hx ?_
      have := hx.1
      have := hx'.2
      rw [Rl.Has, hrear.end_eq, hrear.off]
      omega
    · exact hfree e' (mem_cons_of_mem _ he') x hx hx'
  | done hle => exact ⟨.inl he, .inr (.inr (hle e he))⟩
  | @gap p r proxy rest out cnt cnt' hpr hrq hle hproxy hrest ih =>
    rcases mem_cons.mp he with rfl | he
    · refine ⟨.inr ⟨hproxy.unowned, hproxy.reader, .inr fun e' he' x hx hx' => ?_⟩, .inl ?_⟩
      · have := hle e' he'
        have := hx.2
        have := hx'.1
        rw [hproxy.end_eq] at *
        omega
      · rw [hproxy.end_eq, hproxy.off]
        exact ⟨le_rfl, by omega, hproxy.unowned⟩
    · obtain ⟨hmem, hplace⟩ := ih hs he
      obtain ⟨hout, hbound⟩ := hrest.sorted hq hs
      have := hbound r le_rfl hle e he
      have := (hout.ok e he).pos
      exact ⟨hmem, hplace.imp (And.imp_left hpr.le.trans) (Or.imp_left (by omega))⟩
  | @node p next proxy rest out cnt cnt' htype hoff hend hproxy hrest ih =>
    have hok := hs.ok next mem_cons_self
    rcases mem_cons.mp he with rfl | he
    · refine ⟨.inr (hproxy.piece mem_cons_self htype (by omega) (by omega)), .inl ?_⟩
      rw [hproxy.end_eq, hproxy.off]
      exact ⟨le_rfl, hend, hproxy.unowned⟩
    obtain ⟨hmem, hplace⟩ := ih hs.tail he
    obtain ⟨hout, hbound⟩ := hrest.sorted hq hs.tail
    have := hbound _ le_rfl (fun e he => hoff ▸ hs.head_le he) e he
    have := (hout.ok e he).pos
    refine ⟨hmem.imp (mem_cons_of_mem _) fun hp => hp.cons fun x hx hx' => ?_,
      hplace.imp (And.imp_left (Nat.le_add_right p _).trans) (Or.imp_left (by omega))⟩
    have := hx.1
    have := hx'.2
    omega
  | @split p next front rear rest cnt htype hoff hpq hend hfront hrear =>
    rcases mem_cons.mp he with rfl | he
    · refine ⟨.inr (hfront.piece mem_cons_self htype (by omega) (by omega)), .inl ?_⟩
      rw [hfront.end_eq, hfront.off]
      exact ⟨le_rfl, by omega, hfront.unowned⟩
    · rcases mem_cons.mp he with rfl | he
      · refine ⟨.inr (hrear.piece mem_cons_self htype (by omega) (by omega)), .inr (.inr ?_)⟩
        rw [hrear.off]
      · have := hs.head_le he
        exact ⟨.inl (mem_cons_of_mem _ he), .inr (.inr (by omega))⟩

/-- The owner of a node keeps it and its count, or it is a reader that loses both. -/
theorem owner (hq : q < 2 ^ 64) (hs : RlSorted rest) (hown : RlOwners rest) (g : ℕ) :
    (cnt' g = cnt g ∧ ∀ e ∈ rest, e.rOwner = some g → e ∈ out) ∨
      cnt' g = 0 ∧ (∃ e ∈ rest, e.rType = .reader ∧ e.rOwner = some g) ∧
        ∀ e ∈ out, e.rOwner ≠ some g := by
  induction h with
  | skip _ _ ih =>
    obtain ⟨hhead, htail⟩ := pairwise_cons.mp hown
    have := ih hs.tail htail
    grind
  | @cut p next front rear rest out cnt cnt' htype hoff hend hfront hrear hrest ih =>
    obtain ⟨hhead, htail⟩ := pairwise_cons.mp hown
    have hcnt := (hs.ok next mem_cons_self).counted
    obtain ⟨-, hcut, -⟩ := sorted_cut hs hoff hend hfront hcnt hrear hcnt
    have hmem {e : Rl} (he : e ∈ out) : e ∈ rear :: rest ∨ e.rOwner = none :=
      (hrest.mem_out hq hcut he).1.imp_right Rl.Piece.unowned
    have := hfront.unowned
    have := hrear.unowned
    have := ih hcut (pairwise_cons.mpr ⟨fun _ _ g' hg' => by simp [hrear.unowned] at hg', htail⟩)
    grind [clearOwner]
  | done => exact .inl ⟨rfl, fun e he _ => he⟩
  | gap _ _ _ hproxy _ ih =>
    have := hproxy.unowned
    have := ih hs hown
    grind
  | @node p next proxy rest out cnt cnt' htype hoff hend hproxy hrest ih =>
    obtain ⟨hhead, htail⟩ := pairwise_cons.mp hown
    have hmem {e : Rl} (he : e ∈ out) : e ∈ rest ∨ e.rOwner = none :=
      (hrest.mem_out hq hs.tail he).1.imp_right Rl.Piece.unowned
    have := hproxy.unowned
    have := ih hs.tail htail
    grind [clearOwner]
  | split htype _ _ _ hfront hrear =>
    obtain ⟨hhead, htail⟩ := pairwise_cons.mp hown
    have := hfront.unowned
    have := hrear.unowned
    grind [clearOwner]

end

end ReaderAdd

end Polaris
