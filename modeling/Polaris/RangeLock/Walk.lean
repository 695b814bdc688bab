import Polaris.RangeLock.Tree
import Mathlib.Data.List.TakeWhile

/-!
# Walks over the tree of range locks

What the critical sections do to the tree: a reader that finds no writer in its way is added, a
writer that finds nothing in its way is put into the tree, and the proxies of a reader that goes
lose one count.

## Main definitions

* `ReaderDrop` — what happens to the nodes when a reader goes.
-/

namespace Polaris

open Function List Option

/-! ## Places in the tree -/

theorem rlBefore_append_rlAfter (tree : List Rl) (off : ℕ) :
    rlBefore tree off ++ rlAfter tree off = tree :=
  takeWhile_append_dropWhile

variable {e rl next : Rl} {rest tree : List Rl} {off len p : ℕ}

theorem lt_of_mem_rlBefore (he : e ∈ rlBefore tree off) : e.rOff < off := by
  have := mem_takeWhile_imp he
  simpa using this

/-- Two parts of a tree. -/
theorem RlSorted.append {a b : List Rl} (h : RlSorted (a ++ b)) :
    RlSorted a ∧ RlSorted b ∧ ∀ e ∈ a, ∀ e' ∈ b, e.rOff + e.rLen ≤ e'.rOff := by
  obtain ⟨ha, hb, hab⟩ := pairwise_append.mp h.order
  exact ⟨⟨fun e he => h.ok e (mem_append_left _ he), ha⟩,
    ⟨fun e he => h.ok e (mem_append_right _ he), hb⟩, hab⟩

theorem RlSorted.of_append {a b : List Rl} (ha : RlSorted a) (hb : RlSorted b)
    (hab : ∀ e ∈ a, ∀ e' ∈ b, e.rOff + e.rLen ≤ e'.rOff) : RlSorted (a ++ b) :=
  ⟨fun e he => (mem_append.mp he).elim (ha.ok e) (hb.ok e),
    pairwise_append.mpr ⟨ha.order, hb.order, hab⟩⟩

/-- The node at an offset is the first one from there on. -/
theorem rlFind_eq_some (h : rlFind tree off = some e) :
    e.rOff = off ∧ ∃ rest, rlAfter tree off = e :: rest := by
  rw [rlFind, filter_eq_some_iff] at h
  obtain ⟨hhead, hoff⟩ := h
  exact ⟨by simpa using hoff, head?_eq_some_iff.mp hhead⟩

theorem mem_of_mem_rlBefore (he : e ∈ rlBefore tree off) :
    e ∈ tree := (takeWhile_sublist _).subset he

theorem mem_of_mem_rlAfter (he : e ∈ rlAfter tree off) : e ∈ tree := (dropWhile_sublist _).subset he

/-- The nodes do not begin before the first of them. -/
theorem RlSorted.le_off (hs : RlSorted (next :: rest)) (hle : p ≤ next.rOff)
    (he : e ∈ next :: rest) :
    p ≤ e.rOff := by
  rcases mem_cons.mp he with rfl | he
  · exact hle
  · have := hs.head_le he
    omega

section Places

variable {tree : List Rl} (hs : RlSorted tree) {off : ℕ}

include hs

theorem RlSorted.parts (off : ℕ) :
    RlSorted (rlBefore tree off) ∧ RlSorted (rlAfter tree off) ∧
      ∀ e ∈ rlBefore tree off, ∀ e' ∈ rlAfter tree off, e.rOff + e.rLen ≤ e'.rOff := by
  rw [← rlBefore_append_rlAfter tree off] at hs
  exact hs.append

theorem le_of_mem_rlAfter (he : e ∈ rlAfter tree off) : off ≤ e.rOff := by
  induction tree with
  | nil => exact absurd he not_mem_nil
  | cons rl tree ih =>
    rw [rlAfter, dropWhile_cons] at he
    split at he
    next => exact ih hs.tail he
    next hge =>
      exact hs.le_off (by simpa using hge) he

theorem rlFind_eq_none (h : rlFind tree off = none) (he : e ∈ rlAfter tree off) : off < e.rOff := by
  have hsorted := (hs.parts off).2.1
  cases hafter : rlAfter tree off with
  | nil => simp [hafter] at he
  | cons first rest =>
    rw [hafter] at he hsorted
    rw [rlFind, hafter, head?_cons, filter_eq_none_iff] at h
    have hne : first.rOff ≠ off := by simpa using h first rfl
    have hfirst : off ≤ first.rOff := le_of_mem_rlAfter hs (by rw [hafter]; exact mem_cons_self)
    exact hsorted.le_off (by omega : off + 1 ≤ first.rOff) he

/-- The nodes before the place of a node that is found end there. -/
theorem end_le_of_rlFind (h : rlFind tree off = some e) {e' : Rl} (he' : e' ∈ rlBefore tree off) :
    e'.rOff + e'.rLen ≤ off := by
  obtain ⟨rfl, rest, hafter⟩ := rlFind_eq_some h
  exact (hs.parts e.rOff).2.2 e' he' e (by rw [hafter]; exact mem_cons_self)

/-- The nodes before the last one end before it. -/
theorem end_le_of_last {init : List Rl} {l : Rl} (h : rlBefore tree off = init ++ [l])
    (he : e ∈ init) :
    e.rOff + e.rLen < off := by
  have hsorted := (hs.parts off).1
  rw [h] at hsorted
  have hle := hsorted.append.2.2 e he l (mem_singleton_self l)
  have hlt : l.rOff < off := lt_of_mem_rlBefore (by rw [h]; simp)
  omega

end Places

/-! ## Putting a node into the tree -/

/-- The nodes leave the range free. -/
def RangeFree (tree : List Rl) (off len : ℕ) : Prop :=
  ∀ e ∈ tree, e.rOff + e.rLen ≤ off ∨ off + len ≤ e.rOff

/-- A node in its place in a free range. -/
theorem RlSorted.insert (hs : RlSorted tree) {new : Rl} (hok : new.Ok)
    (hfree : RangeFree tree new.rOff new.rLen) :
    RlSorted (rlBefore tree new.rOff ++ new :: rlAfter tree new.rOff) := by
  obtain ⟨hbefore, hafter, hparts⟩ := hs.parts new.rOff
  refine hbefore.of_append (hafter.cons hok fun e he => ?_) fun e he e' he' => ?_
  · have hpos := hok.pos
    have hepos := (hafter.ok e he).pos
    have := le_of_mem_rlAfter hs he
    have := hfree e (mem_of_mem_rlAfter he)
    omega
  · rcases mem_cons.mp he' with rfl | he'
    · have := lt_of_mem_rlBefore he
      have := hok.pos
      have := hfree e (mem_of_mem_rlBefore he)
      omega
    · exact hparts e he e' he'

theorem readersAt_insert (tree : List Rl) (new : Rl) (off x : ℕ) :
    readersAt (rlBefore tree off ++ new :: rlAfter tree off) x = readersAt (new :: tree) x := by
  conv_rhs => rw [← rlBefore_append_rlAfter tree off]
  rw [readersAt_append, readersAt_cons, readersAt_cons, readersAt_append]
  omega

theorem mem_insert {new : Rl} :
    e ∈ rlBefore tree off ++ new :: rlAfter tree off ↔ e = new ∨ e ∈ tree := by
  conv_rhs => rw [← rlBefore_append_rlAfter tree off]
  simp only [mem_append, mem_cons]
  tauto

/-! ## Nodes in the way -/

section Conflict

variable {tree : List Rl} (hs : RlSorted tree) {off len : ℕ} (hfits : off + len < 2 ^ 64)

include hs hfits

/-- A writer with nothing in its way. -/
theorem rangeFree_of_writerConflict (h : writerConflict tree off len = none) :
    RangeFree tree off len := by
  rw [writerConflict] at h
  cases hfind : rlFind tree off with
  | some rl => simp [hfind] at h
  | none =>
    simp only [hfind, u64_of_lt hfits] at h
    split at h
    next => simp at h
    next hhead =>
      intro e he
      rw [← rlBefore_append_rlAfter tree off, mem_append] at he
      obtain ⟨hbefore, hafter, -⟩ := hs.parts off
      rcases he with he | he
      · obtain ⟨init, l, hinit⟩ : ∃ init l, rlBefore tree off = init ++ [l] :=
          ⟨_, _, (dropLast_concat_getLast (ne_nil_of_mem he)).symm⟩
        rw [hinit, getLast?_concat, filter_eq_none_iff] at h
        have hl : l.rEnd ≤ off := by simpa using h l rfl
        rw [(hbefore.ok l (by rw [hinit]; simp)).rEnd_eq] at hl
        rw [hinit, mem_append, mem_singleton] at he
        rcases he with he | rfl
        · have := end_le_of_last hs hinit he
          omega
        · exact .inl hl
      · cases hcons : rlAfter tree off with
        | nil => simp [hcons] at he
        | cons first rest =>
          rw [hcons, head?_cons, filter_eq_none_iff] at hhead
          have hfirst : off + len ≤ first.rOff := by simpa using hhead first rfl
          rw [hcons] at he hafter
          exact .inr (hafter.le_off hfirst he)

omit hfits in
theorem reader_of_excludes (he : e ∈ tree) (h : e.excludes = false) : e.rType = .reader := by
  have hgranted := (hs.ok e he).granted
  simp only [Rl.excludes, decide_eq_false_iff_not, not_or] at h
  cases htype : e.rType with
  | reader => rfl
  | writer => exact absurd htype h.1
  | append => exact absurd htype hgranted

omit hfits in
theorem not_excludes_of_readerScan {last : ℕ} (h : readerScan last tree = none) (he : e ∈ tree)
    (hlt : e.rOff < last) : e.excludes = false := by
  induction tree with
  | nil => exact absurd he not_mem_nil
  | cons next rest ih =>
    have hok := hs.ok next mem_cons_self
    rw [readerScan] at h
    have hrest : e ∈ rest → next.rOff + next.rLen < last := fun he => by
      have := hs.head_le he
      omega
    split at h
    next hle =>
      rcases mem_cons.mp he with rfl | he
      · omega
      · have := hrest he
        omega
    next =>
      split at h
      next => simp at h
      next hexcl =>
        rcases mem_cons.mp he with rfl | he
        · simpa using hexcl
        · have := hrest he
          rw [if_neg (by rw [hok.rEnd_eq]; omega)] at h
          exact ih hs.tail h he

/-- A reader with no writer in its way. -/
theorem not_excludes_of_readerConflict (h : readerConflict tree off len = none) (he : e ∈ tree)
    (hoff : off < e.rOff + e.rLen) (hlt : e.rOff < off + len) : e.excludes = false := by
  obtain ⟨hbefore, hafter, hparts⟩ := hs.parts off
  simp only [readerConflict, u64_of_lt hfits] at h
  rw [← rlBefore_append_rlAfter tree off, mem_append] at he
  -- the node at the offset or before it lets readers in, and so do those after it
  have hprev {prev : Rl} (hprev : readerPrev tree off = some prev) (hprevMem : prev ∈ tree)
      (hover : off < prev.rOff + prev.rLen) :
      prev.excludes = false ∧ (off + len < prev.rOff + prev.rLen ∨
        readerScan (off + len) (if (rlFind tree off).isSome then (rlAfter tree off).tail
          else rlAfter tree off) = none) := by
    have hend := (hs.ok prev hprevMem).rEnd_eq
    rw [hprev, filter_some, if_pos (by simpa [hend] using hover)] at h
    dsimp only at h
    rw [hend] at h
    split at h
    next => simp at h
    next hexcl =>
      refine ⟨by simpa using hexcl, ?_⟩
      split at h
      next hlast => exact .inl hlast
      next => exact .inr h
  cases hfind : rlFind tree off with
  | some rl =>
    obtain ⟨hrl, rest, hcons⟩ := rlFind_eq_some hfind
    have hrlMem : rl ∈ tree := mem_of_mem_rlAfter (by rw [hcons]; exact mem_cons_self)
    have hpos := (hs.ok rl hrlMem).pos
    obtain ⟨htype, hrest⟩ := hprev (by rw [readerPrev, hfind]; rfl) hrlMem (by omega)
    rw [hfind, hcons, isSome_some, if_pos rfl, tail_cons] at hrest
    rw [hcons] at hafter he
    rcases he with he | he
    · have := end_le_of_rlFind hs hfind he
      omega
    · rcases mem_cons.mp he with rfl | he
      · exact htype
      · have := hafter.head_le he
        exact not_excludes_of_readerScan hafter.tail (hrest.resolve_left (by omega)) he hlt
  | none =>
    rw [hfind, isSome_none] at h hprev
    simp only [Bool.false_eq_true, if_false] at h hprev
    rcases he with he | he
    · -- only the last node before the offset can reach into the range
      obtain ⟨init, l, hinit⟩ : ∃ init l, rlBefore tree off = init ++ [l] :=
        ⟨_, _, (dropLast_concat_getLast (ne_nil_of_mem he)).symm⟩
      have hlMem : l ∈ tree := mem_of_mem_rlBefore (by rw [hinit]; simp)
      rw [hinit, mem_append, mem_singleton] at he
      rcases he with he | rfl
      · have := end_le_of_last hs hinit he
        omega
      · exact (hprev (by rw [readerPrev, hfind, hinit, getLast?_concat]; rfl) hlMem hoff).1
    · cases hp : readerPrev tree off with
      | none =>
        rw [hp] at h
        exact not_excludes_of_readerScan hafter h he hlt
      | some prev =>
        have hprevMem : prev ∈ rlBefore tree off := by
          rw [readerPrev, hfind, none_or] at hp
          exact mem_of_getLast? hp
        by_cases hover : off < prev.rOff + prev.rLen
        · have := hparts prev hprevMem e he
          have hrest := (hprev hp (mem_of_mem_rlBefore hprevMem) hover).2
          exact not_excludes_of_readerScan hafter (hrest.resolve_left (by omega)) he hlt
        · rw [hp, filter_some, if_neg (by
            rw [(hbefore.ok prev hprevMem).rEnd_eq]
            simpa using hover)] at h
          exact not_excludes_of_readerScan hafter h he hlt

end Conflict

theorem mem_of_readerPrev (h : readerPrev tree off = some rl) : rl ∈ tree := by
  rcases Option.or_eq_some_iff.mp h with h | ⟨-, h⟩
  · obtain ⟨-, rest, hcons⟩ := rlFind_eq_some h
    exact mem_of_mem_rlAfter (hcons ▸ mem_cons_self)
  · exact mem_of_mem_rlBefore (mem_of_getLast? h)

theorem excludes_of_readerScan {last : ℕ} (h : readerScan last rest = some rl) :
    rl ∈ rest ∧ rl.excludes = true := by
  induction rest with
  | nil => cases h
  | cons next rest ih =>
    rw [readerScan] at h
    split_ifs at h with _ hexcl
    · cases h
      exact ⟨mem_cons_self, hexcl⟩
    · exact ⟨mem_cons_of_mem _ (ih h).1, (ih h).2⟩

/-- The node a reader waits for keeps readers out. -/
theorem excludes_of_readerConflict (h : readerConflict tree off len = some rl) :
    rl ∈ tree ∧ rl.excludes = true := by
  have hnext : (if (rlFind tree off).isSome then (rlAfter tree off).tail else rlAfter tree off)
      ⊆ tree := by
    split
    · exact fun _ h => mem_of_mem_rlAfter (mem_of_mem_tail h)
    · exact fun _ h => mem_of_mem_rlAfter h
  simp only [readerConflict] at h
  generalize (if (rlFind tree off).isSome then (rlAfter tree off).tail else rlAfter tree off)
    = next at h hnext
  have hscan (h : readerScan (u64 (off + len)) next = some rl) : rl ∈ tree ∧ rl.excludes = true :=
    (excludes_of_readerScan h).imp_left fun hmem => hnext hmem
  split at h
  next prev hprev =>
    split_ifs at h with hexcl
    · cases h
      exact ⟨mem_of_readerPrev (filter_eq_some_iff.mp hprev).1, hexcl⟩
    · exact hscan h
  next => exact hscan h

/-! ## Adding a reader -/

variable (cnt : ℕ → ℕ)

theorem zfsRangeProxify_spec (htype : rl.rType = .reader) (hok : rl.Ok) :
    ∃ proxy, zfsRangeProxify cnt rl = (proxy, clearOwner cnt rl) ∧
      proxy.IsProxy rl.rOff rl.rLen rl.rCnt := by
  rw [zfsRangeProxify]
  cases hown : rl.rOwner with
  | none =>
    refine ⟨rl, Prod.ext rfl (funext fun g => ?_), rfl, rfl, rfl, htype, hown, hok.marked⟩
    exact (clearOwner_of_ne (by simp [hown])).symm
  | some h =>
    refine ⟨_, Prod.ext rfl (funext fun g => ?_), rfl, rfl, (hok.alone (by simp [hown])).symm, rfl,
      rfl, fun h => absurd h Bool.false_ne_true⟩
    dsimp only
    by_cases hg : g = h
    · subst hg
      rw [clearOwner_self hown]
      exact update_self ..
    · rw [clearOwner_of_ne (by rw [hown]; exact fun heq => hg (some.inj heq).symm)]
      exact update_of_ne hg ..

theorem Rl.IsProxy.bump {cnt : ℕ} (h : rl.IsProxy off len cnt) :
    rl.bump.IsProxy off len (cnt + 1) :=
  ⟨h.off, h.len, congrArg (· + 1) h.cnt, h.reader, h.unowned, h.marked⟩

theorem zfsRangeNewProxy_isProxy (off len : ℕ) : (zfsRangeNewProxy off len).IsProxy off len 1 :=
  ⟨rfl, rfl, rfl, rfl, rfl, fun h => absurd h Bool.false_ne_true⟩

theorem zfsRangeSplit_spec (p : ℕ) (htype : rl.rType = .reader) (hok : rl.Ok) :
    ∃ front rear, zfsRangeSplit cnt rl p = (front, rear, clearOwner cnt rl) ∧
      front.IsProxy rl.rOff (p - rl.rOff) rl.rCnt ∧
      rear.IsProxy p (rl.rOff + rl.rLen - p) rl.rCnt := by
  obtain ⟨proxy, hrun, hproxy⟩ := zfsRangeProxify_spec cnt htype hok
  rw [zfsRangeSplit, hrun, ← hok.rEnd_eq]
  exact ⟨_, _, rfl, ⟨hproxy.off, rfl, hproxy.cnt, hproxy.reader, hproxy.unowned, hproxy.marked⟩,
    rfl, rfl, rfl, rfl, rfl, fun h => absurd h Bool.false_ne_true⟩

/-- The gap before a node is filled first. -/
theorem addReaderLoop_gap {last : ℕ} (prev : Option Rl) (cnt : ℕ → ℕ) (rest : List Rl)
    (hlt : next.rOff < last) :
    addReaderLoop last prev cnt (next :: rest)
      = (addReaderLoop last none cnt (next :: rest)).map fun r =>
        (readerGap prev next ++ r.1, r.2) := by
  rw [addReaderLoop, addReaderLoop, if_neg (not_le.mpr hlt), if_neg (not_le.mpr hlt)]
  split
  next => rfl
  next =>
    split
    next => rfl
    next => simp [readerGap, comp_def]

/-- The part of a range that lies past the last node. -/
theorem ReaderAdd.last {q : ℕ} {cnt : ℕ → ℕ} (hpq : p < q) (hle : ∀ e ∈ rest, q ≤ e.rOff) :
    ReaderAdd q p rest cnt (zfsRangeNewProxy p (q - p) :: rest) cnt :=
  .gap hpq le_rfl hle (zfsRangeNewProxy_isProxy _ _) (.done hle)

/-- A node of the range, when the loop is right about the nodes after it. -/
theorem addReaderLoop_node {last : ℕ} (hs : RlSorted (next :: rest))
    (hlt : next.rOff < last) (htype : next.rType = .reader)
    (hrest : ∀ (prev : Rl) (cnt : ℕ → ℕ), prev.rEnd < last → (∀ e ∈ rest, prev.rEnd ≤ e.rOff) →
      ∃ out cnt', addReaderLoop last (some prev) cnt rest = some (out, cnt') ∧
        ReaderAdd last prev.rEnd rest cnt out cnt') :
    ∃ out cnt', addReaderLoop last none cnt (next :: rest) = some (out, cnt') ∧
      ReaderAdd last next.rOff (next :: rest) cnt out cnt' := by
  have hok := hs.ok next mem_cons_self
  have hafter : ∀ e ∈ rest, next.rOff + next.rLen ≤ e.rOff := fun e he => hs.head_le he
  obtain ⟨proxy, hproxify, hproxy⟩ := zfsRangeProxify_spec cnt htype hok
  rw [addReaderLoop, if_neg (not_le.mpr hlt), hok.rEnd_eq, hproxify]
  split
  next heq =>
    refine ⟨_, _, rfl, .node htype rfl heq.ge hproxy.bump ?_⟩
    rw [← heq] at hafter ⊢
    exact .done hafter
  next hne =>
    split
    next hend =>
      obtain ⟨front, rear, hsplit, hfront, hrear⟩ := zfsRangeSplit_spec cnt last htype hok
      rw [hsplit]
      exact ⟨_, _, rfl, .split htype rfl hlt hend hfront.bump hrear⟩
    next hend =>
      have hprev : proxy.bump.rEnd = next.rOff + next.rLen := by
        rw [← hok.rEnd_eq, Rl.rEnd, Rl.rEnd, hproxy.bump.off, hproxy.bump.len]
      obtain ⟨out, cnt', hrun, hadd⟩ := hrest proxy.bump (clearOwner cnt next) (by omega)
        (by rwa [hprev])
      rw [hprev] at hadd
      dsimp only
      rw [hrun]
      exact ⟨_, _, rfl, .node htype rfl (by omega) hproxy.bump hadd⟩

/-- The loop after its first round. -/
theorem addReaderLoop_prev {last : ℕ} (hs : RlSorted rest)
    (hreader : ∀ e ∈ rest, e.rOff < last → e.rType = .reader) (prev : Rl) (cnt : ℕ → ℕ)
    (hlt : prev.rEnd < last) (hle : ∀ e ∈ rest, prev.rEnd ≤ e.rOff) :
    ∃ out cnt', addReaderLoop last (some prev) cnt rest = some (out, cnt') ∧
      ReaderAdd last prev.rEnd rest cnt out cnt' := by
  induction rest generalizing prev cnt with
  | nil => exact ⟨_, _, rfl, .last hlt fun e he => absurd he not_mem_nil⟩
  | cons next rest ih =>
    by_cases hnext : last ≤ next.rOff
    · exact ⟨_, _,
        by rw [addReaderLoop, if_pos hnext]; rfl, .last hlt fun e he => hs.le_off hnext he⟩
    have hnextLt := not_le.mp hnext
    obtain ⟨out, cnt', hrun, hadd⟩ := addReaderLoop_node cnt hs hnextLt
      (hreader next mem_cons_self hnextLt)
      (ih hs.tail fun e he => hreader e (mem_cons_of_mem _ he))
    rw [addReaderLoop_gap _ _ _ hnextLt, hrun]
    refine ⟨_, _, rfl, ?_⟩
    rw [readerGap]
    split
    next hgap =>
      exact .gap hgap (by omega) (fun e he => hs.le_off le_rfl he)
        (zfsRangeNewProxy_isProxy _ _) hadd
    next hgap =>
      rwa [Nat.le_antisymm (hle next mem_cons_self) (not_lt.mp hgap)]

/-- Nodes before the range are passed over. -/
theorem ReaderAdd.skips {q : ℕ} {pre out : List Rl} {cnt cnt' : ℕ → ℕ}
    (h : ReaderAdd q p rest cnt out cnt') (hpre : ∀ e ∈ pre, e.rOff + e.rLen ≤ p) :
    ReaderAdd q p (pre ++ rest) cnt (pre ++ out) cnt' := by
  induction pre with
  | nil => exact h
  | cons e pre ih =>
    exact .skip (hpre e mem_cons_self) (ih fun e he => hpre e (mem_cons_of_mem _ he))

section AddReader

variable {tree : List Rl} (hs : RlSorted tree) {off : ℕ}

include hs

/-- Either no node reaches over `off`, or it is the last one before `off` and it is cut there. -/
theorem splitPrev_spec (cnt : ℕ → ℕ) (hreader : ∀ e ∈ tree, e.Has off → e.rType = .reader) :
    (splitPrev tree cnt off (readerPrev tree off) = (rlBefore tree off, rlAfter tree off, cnt) ∧
      ∀ e ∈ rlBefore tree off, e.rOff + e.rLen ≤ off) ∨
    ∃ init l front rear, rlBefore tree off = init ++ [l] ∧
      splitPrev tree cnt off (readerPrev tree off)
        = (init ++ [front], rear :: rlAfter tree off, clearOwner cnt l) ∧
      l.rType = .reader ∧ off < l.rOff + l.rLen ∧
      front.IsProxy l.rOff (off - l.rOff) l.rCnt ∧
      rear.IsProxy off (l.rOff + l.rLen - off) l.rCnt := by
  cases hfind : rlFind tree off with
  | some rl =>
    obtain ⟨hrl, -⟩ := rlFind_eq_some hfind
    left
    refine ⟨?_, fun e he => end_le_of_rlFind hs hfind he⟩
    rw [readerPrev, hfind, some_or, splitPrev, if_pos (.inr hrl)]
  | none =>
    rcases eq_nil_or_concat' (rlBefore tree off) with hnil | ⟨init, l, hinit⟩
    · left
      rw [readerPrev, hfind, hnil, getLast?_nil, none_or, splitPrev, hnil]
      exact ⟨rfl, fun e he => absurd he not_mem_nil⟩
    have hlBefore : l ∈ rlBefore tree off := by rw [hinit]; simp
    have hlMem : l ∈ tree := mem_of_mem_rlBefore hlBefore
    have hok := hs.ok l hlMem
    have hlt := lt_of_mem_rlBefore hlBefore
    rw [readerPrev, hfind, none_or, hinit, getLast?_concat, splitPrev, hok.rEnd_eq]
    dsimp only
    by_cases hend : l.rOff + l.rLen ≤ off
    · left
      rw [if_pos (.inl hend), hinit]
      refine ⟨rfl, fun e he => ?_⟩
      rw [mem_append, mem_singleton] at he
      rcases he with he | rfl
      · exact (end_le_of_last hs hinit he).le
      · exact hend
    · right
      have htype := hreader l hlMem ⟨hlt.le, not_le.mp hend⟩
      obtain ⟨front, rear, hsplit, hfront, hrear⟩ := zfsRangeSplit_spec cnt off htype hok
      refine ⟨init, l, front, rear, rfl, ?_, htype, not_le.mp hend, hfront, hrear⟩
      rw [if_neg (by omega), hsplit, hinit, dropLast_concat]

omit hs in
/-- The loop started at the first node that the range meets, with the gap before it. -/
theorem addReader_from {after : List Rl} (cnt : ℕ → ℕ) {last : ℕ} (hs : RlSorted (next :: after))
    (hoff : off ≤ next.rOff) (hlt : next.rOff < last)
    (hreader : ∀ e ∈ next :: after, e.rOff < last → e.rType = .reader) :
    ∃ out cnt', addReaderLoop last none cnt (next :: after) = some (out, cnt') ∧
      ReaderAdd last off (next :: after) cnt
        ((if off < next.rOff then [zfsRangeNewProxy off (next.rOff - off)] else []) ++ out)
        cnt' := by
  obtain ⟨out, cnt', hrun, hadd⟩ := addReaderLoop_node cnt hs hlt
    (hreader next mem_cons_self hlt)
    (addReaderLoop_prev hs.tail fun e he => hreader e (mem_cons_of_mem _ he))
  refine ⟨out, cnt', hrun, ?_⟩
  split
  next hgap =>
    exact .gap hgap hlt.le (fun e he => hs.le_off le_rfl he) (zfsRangeNewProxy_isProxy _ _) hadd
  next hgap => rwa [Nat.le_antisymm hoff (not_lt.mp hgap)]

/-- Adding a reader. -/
theorem zfsRangeAddReader_spec (cnt : ℕ → ℕ) {h : ℕ} (hlen : 0 < len) (hfits : off + len < 2 ^ 64)
    (hreader : ∀ e ∈ tree, off < e.rOff + e.rLen → e.rOff < off + len → e.rType = .reader) :
    ∃ tree' cnt', zfsRangeAddReader tree cnt h off len (readerPrev tree off) = some (tree', cnt') ∧
      ((RangeFree tree off len ∧ cnt' = cnt ∧
        tree' = rlBefore tree off ++ newRl h off len .reader :: rlAfter tree off) ∨
      ReaderAdd (off + len) off tree (update cnt h 0) tree' cnt') := by
  obtain ⟨hbefore, hafter, hparts⟩ := hs.parts off
  have hafterOff {e : Rl} (he : e ∈ rlAfter tree off) : off ≤ e.rOff := le_of_mem_rlAfter hs he
  have hafterReader : ∀ e ∈ rlAfter tree off, e.rOff < off + len → e.rType = .reader :=
    fun e he hlt => hreader e (mem_of_mem_rlAfter he)
      (by have := hafterOff he; have := (hafter.ok e he).pos; omega) hlt
  rw [zfsRangeAddReader, u64_of_lt hfits]
  obtain ⟨hsplit, hends⟩ | ⟨init, l, front, rear, hinit, hsplit, htype, hend, hfront, hrear⟩ :=
    splitPrev_spec hs cnt fun e he hhas => hreader e he hhas.2 (by have := hhas.1; omega)
  · rw [hsplit]
    dsimp only
    cases hcons : rlAfter tree off with
    | nil =>
      refine ⟨_, _, rfl, .inl ⟨fun e he => .inl (hends e ?_), rfl, rfl⟩⟩
      rwa [← rlBefore_append_rlAfter tree off, hcons, append_nil] at he
    | cons next rest =>
      rw [hcons] at hafter hafterReader
      have hoff : off ≤ next.rOff := hafterOff (by rw [hcons]; exact mem_cons_self)
      dsimp only
      by_cases hnext : off + len ≤ next.rOff
      · rw [if_pos hnext]
        refine ⟨_, _, rfl, .inl ⟨fun e he => ?_, rfl, rfl⟩⟩
        rw [← rlBefore_append_rlAfter tree off, hcons, mem_append] at he
        rcases he with he | he
        · exact .inl (hends e he)
        · exact .inr (hafter.le_off hnext he)
      · rw [if_neg hnext]
        obtain ⟨out, cnt', hrun, hadd⟩ := addReader_from (update cnt h 0) hafter hoff
          (not_le.mp hnext) hafterReader
        rw [hrun]
        refine ⟨_, _, rfl, .inr ?_⟩
        have hskip := hadd.skips hends
        rwa [← hcons, rlBefore_append_rlAfter, ← append_assoc] at hskip
  · have hlBefore : l ∈ rlBefore tree off := by rw [hinit]; simp
    have hlOff := lt_of_mem_rlBefore hlBefore
    have hcnt := (hs.ok l (mem_of_mem_rlBefore hlBefore)).counted
    have htree : tree = init ++ l :: rlAfter tree off := by
      conv_lhs => rw [← rlBefore_append_rlAfter tree off, hinit]
      rw [append_assoc]
      rfl
    have hlast : RlSorted (l :: rlAfter tree off) := by
      rw [htree] at hs
      exact hs.append.2.1
    obtain ⟨-, hcut, -⟩ := ReaderAdd.sorted_cut hlast hlOff hend hfront hcnt hrear hcnt
    rw [hsplit]
    dsimp only
    rw [hrear.off, if_neg (by omega), if_neg (Nat.lt_irrefl off)]
    obtain ⟨out, cnt', hrun, hadd⟩ := addReader_from (update (clearOwner cnt l) h 0) hcut
      hrear.off.ge (by rw [hrear.off]; omega : _ < off + len) (fun e he hlt => by
        rcases mem_cons.mp he with rfl | he
        · exact hrear.reader
        · exact hafterReader e he hlt)
    rw [hrear.off, if_neg (Nat.lt_irrefl off)] at hadd
    rw [hrun]
    refine ⟨_, _, rfl, .inr ?_⟩
    have hcomm : update (clearOwner cnt l) h 0 = clearOwner (update cnt h 0) l := by
      funext g
      simp only [update_apply, clearOwner]
      split_ifs <;> rfl
    rw [hcomm] at hadd
    have hskip := (ReaderAdd.cut htype hlOff hend hfront hrear hadd).skips
      fun e he => (end_le_of_last hs hinit he).le
    rw [← htree] at hskip
    rwa [append_nil, append_assoc]

end AddReader

/-! ## Dropping a reader -/

/-- `rl->r_cnt--`. -/
def Rl.drop (rl : Rl) : Rl :=
  { rl with rCnt := rl.rCnt - 1 }

/-- What becomes of nodes when a reader of `[p, q)` goes: those before and after the range stay, and
those that make up the range lose one count, the last of which takes them out of the tree. -/
inductive ReaderDrop (q : ℕ) : ℕ → List Rl → List Rl → Prop
  | skip {p : ℕ} {next : Rl} {rest out : List Rl} (hend : next.rOff + next.rLen ≤ p)
      (hrest : ReaderDrop q p rest out) : ReaderDrop q p (next :: rest) (next :: out)
  | done {rest : List Rl} (hle : ∀ e ∈ rest, q ≤ e.rOff) : ReaderDrop q q rest rest
  | node {p : ℕ} {next : Rl} {rest out : List Rl} (htype : next.rType = .reader)
      (hoff : next.rOff = p) (hend : p + next.rLen ≤ q)
      (hrest : ReaderDrop q (p + next.rLen) rest out) :
      ReaderDrop q p (next :: rest) (if next.rCnt - 1 = 0 then out else next.drop :: out)

namespace ReaderDrop

variable {p q : ℕ} {rest out : List Rl}

section

variable (h : ReaderDrop q p rest out)

include h

theorem le : p ≤ q := by
  induction h with
  | skip _ _ ih => exact ih
  | done => exact le_rfl
  | node _ _ hend _ ih => omega

/-- Where the nodes come from. -/
theorem mem_out (hs : RlSorted rest) (he : e ∈ out) :
    e ∈ rest ∨ e.rOwner = none ∧ ∃ e' ∈ rest, e = e'.drop ∧ e'.rType = .reader ∧ 0 < e.rCnt := by
  induction h with
  | skip _ _ ih =>
    rcases mem_cons.mp he with rfl | he
    · exact .inl mem_cons_self
    · exact (ih hs.tail he).imp (mem_cons_of_mem _)
        fun ⟨hown, e', he', hdrop⟩ => ⟨hown, e', mem_cons_of_mem _ he', hdrop⟩
  | done => exact .inl he
  | @node p next rest out htype hoff hend hrest ih =>
    have hrec (he : e ∈ out) : e ∈ next :: rest ∨ e.rOwner = none ∧
        ∃ e' ∈ next :: rest, e = e'.drop ∧ e'.rType = .reader ∧ 0 < e.rCnt :=
      (ih hs.tail he).imp (mem_cons_of_mem next)
        fun ⟨hown, e', he', hdrop⟩ => ⟨hown, e', mem_cons_of_mem _ he', hdrop⟩
    split at he
    next => exact hrec he
    next hcnt =>
      rcases mem_cons.mp he with rfl | he
      · refine .inr ⟨?_, next, mem_cons_self, rfl, htype, Nat.pos_of_ne_zero hcnt⟩
        by_contra hown
        have := (hs.ok next mem_cons_self).alone hown
        omega
      · exact hrec he

/-- A node that goes or changes lies in the range. -/
theorem kept (he : e ∈ rest) : e ∈ out ∨ e.rType = .reader ∧ p ≤ e.rOff ∧ e.rOff + e.rLen ≤ q := by
  induction h with
  | skip _ _ ih =>
    rcases mem_cons.mp he with rfl | he
    · exact .inl mem_cons_self
    · exact (ih he).imp (mem_cons_of_mem _) id
  | done => exact .inl he
  | @node p next rest out htype hoff hend hrest ih =>
    rcases mem_cons.mp he with rfl | he
    · exact .inr ⟨htype, by omega, by omega⟩
    · refine (ih he).imp (fun hmem => ?_) fun ⟨ht, hp, hq⟩ => ⟨ht, by omega, hq⟩
      split
      next => exact hmem
      next => exact mem_cons_of_mem _ hmem

theorem sorted (hs : RlSorted rest) :
    RlSorted out ∧ ∀ b, (∀ e ∈ rest, b ≤ e.rOff) → ∀ e ∈ out, b ≤ e.rOff := by
  have hbound : ∀ {p rest out}, ReaderDrop q p rest out → RlSorted rest → ∀ b,
      (∀ e ∈ rest, b ≤ e.rOff) → ∀ e ∈ out, b ≤ e.rOff := by
    intro p rest out h hs b hb e he
    rcases h.mem_out hs he with he | ⟨-, e', he', rfl, -⟩
    · exact hb e he
    · exact hb e' he'
  refine ⟨?_, hbound h hs⟩
  induction h with
  | @skip p next rest out hend hrest ih =>
    exact (ih hs.tail).cons (hs.ok next mem_cons_self)
      (hbound hrest hs.tail _ fun e he => hs.head_le he)
  | done => exact hs
  | @node p next rest out htype hoff hend hrest ih =>
    split
    next => exact ih hs.tail
    next hcnt =>
      have hok := hs.ok next mem_cons_self
      refine (ih hs.tail).cons ⟨hok.pos, hok.fits, fun hown => ?_, Nat.pos_of_ne_zero hcnt,
        hok.granted, hok.marked⟩ (hbound hrest hs.tail _ fun e he => hs.head_le he)
      have := hok.alone hown
      omega

/-- One reader less over the range. -/
theorem readersAt_eq (hs : RlSorted rest) (x : ℕ) :
    readersAt out x + (if p ≤ x ∧ x < q then 1 else 0) = readersAt rest x := by
  have hle := h.le
  induction h with
  | skip hend hrest ih => rw [readersAt_cons, readersAt_cons, ← ih hs.tail hle, Nat.add_assoc]
  | done hle => rw [if_neg (by omega), Nat.add_zero]
  | @node p next rest out htype hoff hend hrest ih =>
    have hcnt := (hs.ok next mem_cons_self).counted
    rw [readersAt_cons_reader htype, ← ih hs.tail hend]
    have hdrop : readersAt (next.drop :: out) x
        = (if next.rOff ≤ x ∧ x < next.rOff + next.rLen then next.rCnt - 1 else 0)
          + readersAt out x :=
      @readersAt_cons_reader next.drop htype out x
    split
    next h0 => split_ifs <;> omega
    next h0 =>
      rw [hdrop]
      split_ifs <;> omega

end

theorem skips {pre : List Rl} (h : ReaderDrop q p rest out)
    (hpre : ∀ e ∈ pre, e.rOff + e.rLen ≤ p) : ReaderDrop q p (pre ++ rest) (pre ++ out) := by
  induction pre with
  | nil => exact h
  | cons e pre ih =>
    exact .skip (hpre e mem_cons_self) (ih fun e he => hpre e (mem_cons_of_mem _ he))

end ReaderDrop

/-- The walk over the proxies of a range, when nodes cover it and none straddles its end. -/
theorem unlockReaderLoop_spec (hs : RlSorted rest) (hlen : len < 2 ^ 64)
    (hle : ∀ e ∈ rest, p ≤ e.rOff) (hcover : ∀ x, p ≤ x → x < p + len → 0 < readersAt rest x)
    (hcut : ∀ e ∈ rest, e.rOff + e.rLen ≤ p + len ∨ p + len ≤ e.rOff) :
    ∃ out, unlockReaderLoop len rest = some out ∧ ReaderDrop (p + len) p rest out := by
  induction rest generalizing len p with
  | nil =>
    rcases Nat.eq_zero_or_pos len with rfl | hpos
    · exact ⟨[], rfl, .done fun e he => absurd he not_mem_nil⟩
    · exact absurd (hcover p le_rfl (by omega)) (Nat.lt_irrefl 0)
  | cons rl rest ih =>
    rcases Nat.eq_zero_or_pos len with rfl | hpos
    · exact ⟨rl :: rest, rfl, .done hle⟩
    -- the first node begins where the range does
    obtain ⟨e, he, htype, hep, hep'⟩ := exists_of_readersAt_pos (hcover p le_rfl (by omega))
    have hok := hs.ok rl mem_cons_self
    have hrlOff := hle rl mem_cons_self
    have hrlPos := hok.pos
    have herl : e = rl := by
      rcases mem_cons.mp he with rfl | he
      · rfl
      · have := hs.head_le he
        omega
    subst herl
    have hoff : e.rOff = p := by omega
    have hend : e.rOff + e.rLen ≤ p + len := (hcut e mem_cons_self).resolve_right (by omega)
    have hsub : u64Sub len e.rLen = len - e.rLen := u64Sub_of_le (by omega) hlen
    obtain ⟨out, hrun, hdrop⟩ := ih (p := p + e.rLen) hs.tail
      (by omega : len - e.rLen < 2 ^ 64)
      (fun e' he' => hoff ▸ hs.head_le he') (fun x hx hx' => by
        have := hcover x (by omega) (by omega)
        rwa [readersAt_cons_reader htype, if_neg (by omega), Nat.zero_add] at this)
      (fun e' he' => by
        have := hcut e' (mem_cons_of_mem _ he')
        omega)
    rw [show p + e.rLen + (len - e.rLen) = p + len by omega] at hdrop
    rw [unlockReaderLoop, if_neg hpos.ne', hsub, hrun]
    exact ⟨_, rfl, .node htype hoff (by omega) hdrop⟩

end Polaris
