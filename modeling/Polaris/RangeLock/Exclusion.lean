import Polaris.RangeLock.Walk
import Mathlib.Data.Set.Card

/-!
# Range locks exclude each other

The counts of the tree are the numbers of callers that hold a byte for reading, no node straddles an
end of a range that is held, and every writer has its own node.  Every critical section keeps this,
so no byte that a writer holds is held by anybody else.

## Main definitions

* `holdersAt` — the callers that hold a byte for reading.
* `RangeInv` — the invariant.
-/

namespace Polaris

open Function List Option

/-- The byte `x` is in the range. -/
def HeldRange.Has (r : HeldRange) (x : ℕ) : Prop :=
  r.off ≤ x ∧ x < r.off + r.len

instance (r : HeldRange) (x : ℕ) : Decidable (r.Has x) :=
  inferInstanceAs (Decidable (_ ∧ _))

/-- The callers that hold the byte `x` for reading. -/
def holdersAt (held : ℕ → Option HeldRange) (x : ℕ) : Set ℕ :=
  {h | ∃ r, held h = some r ∧ r.writer = false ∧ r.Has x}

/-- What ties the tree to the locks that are held. -/
structure RangeInv (s : RangeState) : Prop where
  sorted : RlSorted s.tree
  finite : {h | s.held h ≠ none}.Finite
  /-- The counts are right. -/
  counts : ∀ x, readersAt s.tree x = (holdersAt s.held x).ncard
  ranges : ∀ h r, s.held h = some r → 0 < r.len ∧ r.off + r.len < 2 ^ 64
  /-- No node straddles an end of a range. -/
  cut : ∀ h r, s.held h = some r → r.writer = false → ∀ e ∈ s.tree, e.rType = .reader →
    r.off ≤ e.rOff ∧ e.rOff + e.rLen ≤ r.off + r.len ∨ e.rOff + e.rLen ≤ r.off ∨
      r.off + r.len ≤ e.rOff
  /-- A node of an owner is the range it holds. -/
  owned : ∀ e ∈ s.tree, ∀ g, e.rOwner = some g →
    s.held g = some ⟨e.rOff, e.rLen, e.rType = .writer⟩ ∧ s.cnt g = 1
  writerOwned : ∀ e ∈ s.tree, e.rType = .writer → e.rOwner ≠ none
  /-- A writer, or a reader that is not represented by proxies, is in the tree. -/
  inTree : ∀ g r, s.held g = some r → r.writer = true ∨ s.cnt g = 1 →
    ∃ e ∈ s.tree, e.rOwner = some g
  idle : ∀ g req, s.waiting g = some req → s.held g = none ∧ s.cnt g = 1

/-! ## Holders -/

variable {h g x off len : ℕ} {r : HeldRange} {tree : List Rl} {e : Rl}

section Holders

variable {held : ℕ → Option HeldRange} {h : ℕ} {r : HeldRange}

theorem finite_holdersAt (hfin : {h | held h ≠ none}.Finite) (x : ℕ) : (holdersAt held x).Finite :=
  hfin.subset fun g ⟨r, hr, _⟩ => by simp [hr]

theorem finite_update (hfin : {h | held h ≠ none}.Finite) (v : Option HeldRange) :
    {g | update held h v g ≠ none}.Finite :=
  (hfin.insert h).subset fun g hg => by
    by_cases hgh : g = h
    · exact .inl hgh
    · exact .inr (by simpa [update_of_ne hgh] using hg)

theorem held_of_update {r' : HeldRange} (hg : update held h (some r) g = some r') :
    g = h ∧ r' = r ∨ g ≠ h ∧ held g = some r' := by
  by_cases hgh : g = h
  · subst hgh
    rw [update_self] at hg
    exact .inl ⟨rfl, (some.inj hg).symm⟩
  · rw [update_of_ne hgh] at hg
    exact .inr ⟨hgh, hg⟩

theorem eq_of_update_none {α : Type} {f : ℕ → Option α} {v : α} (hg : update f h none g = some v) :
    g ≠ h ∧ f g = some v := by
  have hgh : g ≠ h := fun heq => by simp [heq] at hg
  rw [update_of_ne hgh] at hg
  exact ⟨hgh, hg⟩

theorem ne_of_held (hh : held h = none) (hg : held g = some r) : g ≠ h := fun heq => by
  rw [heq, hh] at hg
  cases hg

/-- A caller that takes a lock is one holder more where it reads. -/
theorem ncard_holdersAt_update (hfin : {h | held h ≠ none}.Finite) (hh : held h = none) (x : ℕ) :
    (holdersAt (update held h (some r)) x).ncard
      = (holdersAt held x).ncard + if r.writer = false ∧ r.Has x then 1 else 0 := by
  have hnot : h ∉ holdersAt held x := fun ⟨r', hr', _⟩ => by simp [hh] at hr'
  have hother {g : ℕ} (hg : g ≠ h) :
      g ∈ holdersAt (update held h (some r)) x ↔ g ∈ holdersAt held x := by
    simp only [holdersAt, Set.mem_ofPred_eq, update_of_ne hg]
  have hself : h ∈ holdersAt (update held h (some r)) x ↔ r.writer = false ∧ r.Has x := by
    simp [holdersAt, update_self]
  split
  next hx =>
    have hset : holdersAt (update held h (some r)) x = insert h (holdersAt held x) := by
      ext g
      by_cases hg : g = h
      · subst hg
        simp [hself, hx]
      · rw [hother hg]
        simp [hg]
    rw [hset, Set.ncard_insert_of_notMem hnot (finite_holdersAt hfin x)]
  next hx =>
    have hset : holdersAt (update held h (some r)) x = holdersAt held x := by
      ext g
      by_cases hg : g = h
      · subst hg
        exact iff_of_false (fun hm => hx (hself.mp hm)) hnot
      · exact hother hg
    rw [hset, Nat.add_zero]

/-- A caller that gives up a lock is one holder less where it reads. -/
theorem ncard_holdersAt_release (hfin : {h | held h ≠ none}.Finite) (hr : held h = some r) (x : ℕ) :
    (holdersAt held x).ncard
      = (holdersAt (update held h none) x).ncard
        + if r.writer = false ∧ r.Has x then 1 else 0 := by
  rw [← ncard_holdersAt_update (finite_update hfin none) (update_self h none held),
    update_idem, ← hr, update_eq_self]

end Holders

/-! ## What the invariant says -/

namespace RangeInv

variable {s : RangeState} (inv : RangeInv s)

include inv

/-- No two nodes have the same owner. -/
theorem owners : RlOwners s.tree := by
  refine inv.sorted.order.imp_of_mem fun {a b} ha hb hab g hga hgb => ?_
  have hheld := (inv.owned a ha g hga).1
  rw [(inv.owned b hb g hgb).1] at hheld
  have hoff : b.rOff = a.rOff := by injection hheld with h; injection h
  have := (inv.sorted.ok a ha).pos
  omega

/-- A byte that is held for reading is counted. -/
theorem readersAt_pos (hr : s.held h = some r) (hw : r.writer = false) (hx : r.Has x) :
    0 < readersAt s.tree x := by
  rw [inv.counts, Set.ncard_pos (finite_holdersAt inv.finite x)]
  exact ⟨h, r, hr, hw, hx⟩

/-- Somebody holds the bytes of a node. -/
theorem exists_held (he : e ∈ s.tree) (hx : e.Has x) : ∃ h r, s.held h = some r ∧ r.Has x := by
  cases htype : e.rType with
  | append => exact absurd htype (inv.sorted.ok e he).granted
  | writer =>
    obtain ⟨g, hg⟩ := Option.ne_none_iff_exists'.mp (inv.writerOwned e he htype)
    exact ⟨g, _, (inv.owned e he g hg).1, hx⟩
  | reader =>
    have hcount := inv.counts x
    rw [inv.sorted.readersAt_eq he hx, if_pos htype] at hcount
    obtain ⟨h, r, hr, -, hrx⟩ :=
      Set.nonempty_of_ncard_ne_zero (hcount ▸ (inv.sorted.ok e he).counted.ne')
    exact ⟨h, r, hr, hrx⟩

/-- The node of a writer, or of a reader that is not represented by proxies, is its range. -/
theorem own_node (hr : s.held h = some r) (hin : r.writer = true ∨ s.cnt h = 1) :
    ∃ e ∈ s.tree, e.rOwner = some h ∧ decide (e.rType = .writer) = r.writer ∧ e.rOff = r.off ∧
      e.rLen = r.len := by
  obtain ⟨e, he, hown⟩ := inv.inTree h r hr hin
  have hheld := (inv.owned e he h hown).1
  rw [hr, some.injEq] at hheld
  subst hheld
  exact ⟨e, he, hown, rfl, rfl, rfl⟩

/-- A byte that a writer holds is held by nobody else. -/
theorem exclusive {r' : HeldRange} (hr : s.held h = some r) (hw : r.writer = true)
    (hr' : s.held g = some r') (hne : g ≠ h) (hx : r.Has x) : ¬ r'.Has x := by
  intro hx'
  obtain ⟨e, he, hown, htype, hoff, hlen⟩ := inv.own_node hr (.inl hw)
  have hex : e.Has x := by rw [Rl.Has, hoff, hlen]; exact hx
  cases hw' : r'.writer with
  | false =>
    have hpos := inv.readersAt_pos hr' hw' hx'
    rw [inv.sorted.readersAt_eq he hex,
      if_neg (by simp [of_decide_eq_true (htype.trans hw)])] at hpos
    exact Nat.lt_irrefl 0 hpos
  | true =>
    obtain ⟨e', he', hown', -, hoff', hlen'⟩ := inv.own_node hr' (.inl hw')
    have hex' : e'.Has x := by rw [Rl.Has, hoff', hlen']; exact hx'
    rw [inv.sorted.eq_of_has he' he hex' hex, hown] at hown'
    exact hne (some.inj hown').symm

/-- The nodes leave a range free only if nobody holds any of it. -/
theorem not_has_of_free (hfree : RangeFree s.tree off len) (hr : s.held h = some r) (hoff : off ≤ x)
    (hlt : x < off + len) : ¬ r.Has x := by
  intro hx
  have hnode : ∃ e ∈ s.tree, e.Has x := by
    cases hw : r.writer with
    | false =>
      obtain ⟨e, he, -, hex⟩ := exists_of_readersAt_pos (inv.readersAt_pos hr hw hx)
      exact ⟨e, he, hex⟩
    | true =>
      obtain ⟨e, he, -, -, hoff', hlen'⟩ := inv.own_node hr (.inl hw)
      exact ⟨e, he, by rw [Rl.Has, hoff', hlen']; exact hx⟩
  obtain ⟨e, he, hex⟩ := hnode
  have := hfree e he
  have := hex.1
  have := hex.2
  omega

omit inv in
/-- Ranges without a common byte lie one after the other. -/
theorem apart_of_not_has {a n b m : ℕ} (hn : 0 < n) (hm : 0 < m)
    (h : ∀ x, a ≤ x → x < a + n → ¬ (b ≤ x ∧ x < b + m)) : a + n ≤ b ∨ b + m ≤ a := by
  have := h (max a b) (Nat.le_max_left a b)
  omega

/-- A lock in a range that is free. -/
theorem insert (w : Bool) (hh : s.held h = none) (hcnt : s.cnt h = 1) (hlen : 0 < len)
    (hfits : off + len < 2 ^ 64) (hfree : RangeFree s.tree off len) :
    RangeInv
      { tree := rlBefore s.tree off ++ newRl h off len (if w then .writer else .reader)
          :: rlAfter s.tree off
        cnt := s.cnt
        held := update s.held h (some ⟨off, len, w⟩)
        waiting := update s.waiting h none } := by
  obtain ⟨new, hnew⟩ : ∃ new, new = newRl h off len (if w then .writer else .reader) := ⟨_, rfl⟩
  have hoff : new.rOff = off := by rw [hnew]; rfl
  have hlen' : new.rLen = len := by rw [hnew]; rfl
  have hown : new.rOwner = some h := by rw [hnew]; rfl
  have htype : new.rType = if w then .writer else .reader := by rw [hnew]; rfl
  have hcnt' : new.rCnt = 1 := by rw [hnew]; rfl
  rw [← hnew]
  have hok : new.Ok := by
    refine ⟨by omega, by omega, fun _ => hcnt', by omega, ?_, ?_⟩
    · rw [htype]
      cases w <;> simp
    · rw [hnew]
      exact fun h => absurd h Bool.false_ne_true
  refine ⟨?_, finite_update inv.finite _, fun x => ?_, fun g r hr => ?_,
    fun g r hr hw e he het => ?_, fun e he g hg => ?_, fun e he het => ?_, fun g r hr hw => ?_,
    fun g req hg => ?_⟩
  · have := inv.sorted.insert hok (by rwa [hoff, hlen'])
    rwa [hoff] at this
  · dsimp only
    rw [readersAt_insert, readersAt_cons, ncard_holdersAt_update inv.finite hh, inv.counts, hcnt',
      Nat.add_comm]
    congr 1
    refine if_congr (and_congr ?_ ?_) rfl rfl
    · rw [htype]
      cases w <;> simp
    · simp only [Rl.Has, HeldRange.Has, hoff, hlen']
  · rcases held_of_update hr with ⟨rfl, rfl⟩ | ⟨-, hr⟩
    · exact ⟨hlen, hfits⟩
    · exact inv.ranges g r hr
  · rw [mem_insert] at he
    rcases held_of_update hr with ⟨rfl, rfl⟩ | ⟨-, hr'⟩
    · rcases he with rfl | he
      · exact .inl ⟨hoff.ge, by dsimp only; omega⟩
      · exact .inr (hfree e he)
    · rcases he with rfl | he
      · rw [hoff, hlen']
        exact .inr (apart_of_not_has hlen (inv.ranges g r hr').1 fun x hx hx' hrx =>
          inv.not_has_of_free hfree hr' hx hx' hrx)
      · exact inv.cut g r hr' hw e he het
  · rw [mem_insert] at he
    rcases he with rfl | he
    · rw [hown, some.injEq] at hg
      subst hg
      refine ⟨?_, hcnt⟩
      dsimp only
      rw [update_self, hoff, hlen', htype]
      cases w <;> simp
    · obtain ⟨hr, hc⟩ := inv.owned e he g hg
      exact ⟨by dsimp only; rw [update_of_ne (ne_of_held hh hr), hr], hc⟩
  · rw [mem_insert] at he
    rcases he with rfl | he
    · simp [hown]
    · exact inv.writerOwned e he het
  · simp only [mem_insert]
    rcases held_of_update hr with ⟨rfl, -⟩ | ⟨-, hr⟩
    · exact ⟨new, .inl rfl, hown⟩
    · obtain ⟨e, he, hown'⟩ := inv.inTree g r hr hw
      exact ⟨e, .inr he, hown'⟩
  · dsimp only at hg ⊢
    obtain ⟨hgh, hg⟩ := eq_of_update_none hg
    rw [update_of_ne hgh]
    exact inv.idle g req hg

/-- A reader whose range is not free. -/
theorem addReader {cnt : ℕ → ℕ} (hh : s.held h = none) (hlen : 0 < len) (hfits : off + len < 2 ^ 64)
    (hadd : ReaderAdd (off + len) off s.tree (update s.cnt h 0) tree cnt) :
    RangeInv
      { tree := tree
        cnt := cnt
        held := update s.held h (some ⟨off, len, false⟩)
        waiting := update s.waiting h none } := by
  have hmem {e : Rl} (he : e ∈ tree) := hadd.mem_out hfits inv.sorted he
  have howner (g : ℕ) := hadd.owner hfits inv.sorted inv.owners g
  have hcnt {g : ℕ} {r : HeldRange} (hr : s.held g = some r) : update s.cnt h 0 g = s.cnt g :=
    update_of_ne (ne_of_held hh hr) ..
  refine ⟨(hadd.sorted hfits inv.sorted).1, finite_update inv.finite _, fun x => ?_,
    fun g r hr => ?_,
    fun g r hr hw e he het => ?_, fun e he g hg => ?_, fun e he het => ?_, fun g r hr hw => ?_,
    fun g req hg => ?_⟩
  · dsimp only
    rw [hadd.readersAt_eq, ncard_holdersAt_update inv.finite hh, inv.counts]
    simp [HeldRange.Has]
  · rcases held_of_update hr with ⟨rfl, rfl⟩ | ⟨-, hr⟩
    · exact ⟨hlen, hfits⟩
    · exact inv.ranges g r hr
  · obtain ⟨hfrom, hplace⟩ := hmem he
    rcases held_of_update hr with ⟨rfl, rfl⟩ | ⟨-, hr'⟩
    · exact hplace.imp (fun hin => ⟨hin.1, hin.2.1⟩) id
    rcases hfrom with hold | hpiece
    · exact inv.cut g r hr' hw e hold het
    rcases hpiece.place with ⟨e', he', htype, hlo, hhi⟩ | hgap
    · have := inv.cut g r hr' hw e' he' htype
      omega
    -- the gaps are filled where nobody held anything
    refine .inr (apart_of_not_has ?_ (inv.ranges g r hr').1 fun x hx hx' hrx => ?_)
    · exact ((hadd.sorted hfits inv.sorted).1.ok e he).pos
    · obtain ⟨e', he', -, hex⟩ := exists_of_readersAt_pos (inv.readersAt_pos hr' hw hrx)
      exact hgap e' he' x ⟨hx, hx'⟩ hex
  · have hold : e ∈ s.tree := (hmem he).1.elim id fun hpiece => by simp [hpiece.unowned] at hg
    obtain ⟨hr, hc⟩ := inv.owned e hold g hg
    refine ⟨by dsimp only; rw [update_of_ne (ne_of_held hh hr), hr], ?_⟩
    rcases howner g with ⟨hsame, -⟩ | ⟨-, -, hgone⟩
    · exact hsame.trans ((hcnt hr).trans hc)
    · exact absurd hg (hgone e he)
  · have hold : e ∈ s.tree := (hmem he).1.elim id fun hpiece => by simp [hpiece.reader] at het
    exact inv.writerOwned e hold het
  · dsimp only at hw
    rcases held_of_update hr with ⟨rfl, rfl⟩ | ⟨-, hr'⟩
    · rcases howner g with ⟨hsame, -⟩ | ⟨hzero, -⟩ <;> simp_all
    -- whatever owns a node that was replaced has a count of zero
    rcases howner g with ⟨hsame, hkept⟩ | ⟨hzero, ⟨e, he, htype, hown⟩, -⟩
    · rw [hsame, hcnt hr'] at hw
      obtain ⟨e, he, hown⟩ := inv.inTree g r hr' hw
      exact ⟨e, hkept e he hown, hown⟩
    · obtain ⟨hheld, -⟩ := inv.owned e he g hown
      rw [hr', some.injEq] at hheld
      simp [hheld, htype, hzero] at hw
  · dsimp only at hg ⊢
    obtain ⟨hgh, hg⟩ := eq_of_update_none hg
    rw [update_of_ne hgh]
    obtain ⟨hnone, hone⟩ := inv.idle g req hg
    rcases howner g with ⟨hsame, -⟩ | ⟨-, ⟨e, he, -, hown⟩, -⟩
    · rw [hsame, update_of_ne hgh]
      exact ⟨hnone, hone⟩
    · rw [(inv.owned e he g hown).1] at hnone
      cases hnone

omit inv in
theorem readersAt_removeOwn (hown : RlOwners tree) (he : e ∈ tree)
    (hh : e.rOwner = some h) (x : ℕ) :
    readersAt tree x
      = readersAt (removeOwn tree h) x + if e.rType = .reader ∧ e.Has x then e.rCnt else 0 := by
  induction tree with
  | nil => cases he
  | cons next rest ih =>
    rcases mem_cons.mp he with rfl | he'
    · have hrest : removeOwn rest h = rest :=
        filter_eq_self.mpr fun e' he' =>
          decide_eq_true (rel_of_pairwise_cons hown he' h hh)
      have hcons : removeOwn (e :: rest) h = rest := by
        rw [removeOwn, filter_cons_of_neg (by simp [hh])]
        exact hrest
      rw [hcons, readersAt_cons, Nat.add_comm]
    · have hnext : next.rOwner ≠ some h := fun hn =>
        rel_of_pairwise_cons hown he' h hn hh
      have hcons : removeOwn (next :: rest) h = next :: removeOwn rest h :=
        filter_cons_of_pos (by simp [hnext])
      rw [hcons, readersAt_cons, readersAt_cons, ih hown.of_cons he', Nat.add_assoc]

theorem idle_release (hr : s.held h = some r) (g : ℕ) (req : RangeRequest)
    (hg : s.waiting g = some req) :
    update s.held h none g = none ∧ s.cnt g = 1 := by
  obtain ⟨hnone, hone⟩ := inv.idle g req hg
  rw [update_of_ne (ne_of_held hnone hr).symm]
  exact ⟨hnone, hone⟩

/-- A caller whose own node is in the tree gives up its lock. -/
theorem removeOwn (hr : s.held h = some r) (hin : r.writer = true ∨ s.cnt h = 1) :
    RangeInv { s with tree := removeOwn s.tree h, held := update s.held h none } := by
  obtain ⟨e₀, he₀, hown₀⟩ := inv.inTree h r hr hin
  have hr₀ : r = ⟨e₀.rOff, e₀.rLen, e₀.rType = .writer⟩ := by
    have := (inv.owned e₀ he₀ h hown₀).1
    rw [hr] at this
    exact some.inj this
  have hmem {e : Rl} : e ∈ Polaris.removeOwn s.tree h ↔ e ∈ s.tree ∧ e.rOwner ≠ some h := by
    simp [Polaris.removeOwn]
  refine ⟨⟨fun e he => inv.sorted.ok e (hmem.mp he).1, inv.sorted.order.filter _⟩,
    finite_update inv.finite _, fun x => ?_, fun g r' hg =>
    inv.ranges g r' (eq_of_update_none hg).2,
    fun g r' hg hw e he => inv.cut g r' (eq_of_update_none hg).2 hw e (hmem.mp he).1,
    fun e he g hg => ?_, fun e he => inv.writerOwned e (hmem.mp he).1, fun g r' hg hw => ?_,
    inv.idle_release hr⟩
  · have hcounts := inv.counts x
    rw [readersAt_removeOwn inv.owners he₀ hown₀, ncard_holdersAt_release inv.finite hr,
      (inv.sorted.ok e₀ he₀).alone (by simp [hown₀])] at hcounts
    have hsame : (e₀.rType = .reader ∧ e₀.Has x) ↔ (r.writer = false ∧ r.Has x) := by
      have := (inv.sorted.ok e₀ he₀).granted
      rw [hr₀]
      refine and_congr ?_ Iff.rfl
      cases htype : e₀.rType <;> simp [htype] at this ⊢
    rw [if_congr hsame rfl rfl] at hcounts
    exact Nat.add_right_cancel hcounts
  · obtain ⟨he, hne⟩ := hmem.mp he
    have hgh : g ≠ h := fun heq => hne (heq ▸ hg)
    obtain ⟨hheld, hc⟩ := inv.owned e he g hg
    exact ⟨by dsimp only; rw [update_of_ne hgh, hheld], hc⟩
  · obtain ⟨hgh, hg'⟩ := eq_of_update_none hg
    obtain ⟨e, he, hown⟩ := inv.inTree g r' hg' hw
    refine ⟨e, hmem.mpr ⟨he, fun heq => hgh ?_⟩, hown⟩
    rw [hown] at heq
    exact some.inj heq

section

variable (hr : s.held h = some r) (hw : r.writer = false)

include hr hw

/-- No node, of readers or of a writer, straddles an end of the range of a reader. -/
theorem not_straddles (he : e ∈ s.tree) :
    r.off ≤ e.rOff ∧ e.rOff + e.rLen ≤ r.off + r.len ∨ e.rOff + e.rLen ≤ r.off
      ∨ r.off + r.len ≤ e.rOff := by
  cases htype : e.rType with
  | reader => exact inv.cut h r hr hw e he htype
  | append => exact absurd htype (inv.sorted.ok e he).granted
  | writer =>
    obtain ⟨g, hg⟩ := ne_none_iff_exists'.mp (inv.writerOwned e he htype)
    have hheld := (inv.owned e he g hg).1
    have hne : h ≠ g := fun heq => by
      rw [heq, hheld, some.injEq] at hr
      simp [← hr, htype] at hw
    refine .inr (apart_of_not_has (inv.sorted.ok e he).pos (inv.ranges h r hr).1 fun x hx hx' => ?_)
    exact inv.exclusive hheld (by simp [htype]) hr hne ⟨hx, hx'⟩

/-- A reader that is represented by proxies finds them all. -/
theorem unlockReader_spec (hcnt : s.cnt h ≠ 1) :
    ∃ tree, zfsRangeUnlockReader s.tree s.cnt h r.off r.len = some tree ∧
      ReaderDrop (r.off + r.len) r.off s.tree tree := by
  obtain ⟨hlen, hfits⟩ := inv.ranges h r hr
  obtain ⟨hbefore, hafter, -⟩ := inv.sorted.parts r.off
  have hpre : ∀ e ∈ rlBefore s.tree r.off, e.rOff + e.rLen ≤ r.off := fun e he => by
    have hlt := lt_of_mem_rlBefore he
    have := inv.not_straddles hr hw (mem_of_mem_rlBefore he)
    omega
  have hcover : ∀ x, r.off ≤ x → x < r.off + r.len → 0 < readersAt (rlAfter s.tree r.off) x := by
    intro x hx hx'
    have hpos := inv.readersAt_pos hr hw ⟨hx, hx'⟩
    rw [← rlBefore_append_rlAfter s.tree r.off, readersAt_append,
      readersAt_eq_zero fun e he _ hex => ?_, Nat.zero_add] at hpos
    · exact hpos
    · have := hpre e he
      have := hex.2
      omega
  have hle {e : Rl} (he : e ∈ rlAfter s.tree r.off) : r.off ≤ e.rOff :=
    le_of_mem_rlAfter inv.sorted he
  have hfind : (rlFind s.tree r.off).isSome := by
    rw [isSome_iff_ne_none]
    intro hnone
    obtain ⟨e, he, -, hex⟩ := exists_of_readersAt_pos (hcover r.off le_rfl (by omega))
    have := rlFind_eq_none inv.sorted hnone he
    have := hex.1
    omega
  obtain ⟨out, hrun, hdrop⟩ := unlockReaderLoop_spec hafter (by omega) (@hle) hcover fun e he => by
    have := inv.not_straddles hr hw (mem_of_mem_rlAfter he)
    have := hle he
    omega
  refine ⟨rlBefore s.tree r.off ++ out, ?_, ?_⟩
  · rw [zfsRangeUnlockReader, if_neg hcnt, if_pos hfind, hrun, map_some]
  · have := hdrop.skips hpre
    rwa [rlBefore_append_rlAfter] at this

/-- Two callers do not share the node of one of them. -/
theorem not_shared (hne : g ≠ h) (he : e ∈ s.tree)
    (hg : e.rOwner = some g) (htype : e.rType = .reader) (hex : e.Has x) : ¬ r.Has x := by
  intro hrx
  have hcounts := inv.counts x
  rw [inv.sorted.readersAt_eq he hex, if_pos htype,
    (inv.sorted.ok e he).alone (by simp [hg])] at hcounts
  have hboth : {g, h} ⊆ holdersAt s.held x := by
    rintro k (rfl | rfl)
    · exact ⟨_, (inv.owned e he k hg).1, by simp [htype], hex⟩
    · exact ⟨r, hr, hw, hrx⟩
  have hcard := Set.ncard_le_ncard hboth (finite_holdersAt inv.finite x)
  rw [Set.ncard_pair hne] at hcard
  omega

/-- The proxies of a reader cover its range, and nothing else. -/
theorem proxy_node (hcnt : s.cnt h ≠ 1) (hx : r.Has x) :
    ∃ e ∈ s.tree, e.rOwner = none ∧ e.Has x ∧ r.off ≤ e.rOff ∧ e.rOff + e.rLen ≤ r.off + r.len := by
  obtain ⟨e, he, htype, hex⟩ := exists_of_readersAt_pos (inv.readersAt_pos hr hw hx)
  refine ⟨e, he, ?_, hex, ?_⟩
  · by_contra hown
    obtain ⟨g, hg⟩ := ne_none_iff_exists'.mp hown
    have hgh : g ≠ h := fun heq => hcnt (heq ▸ (inv.owned e he g hg).2)
    exact inv.not_shared hr hw hgh he hg htype hex hx
  · have := inv.cut h r hr hw e he htype
    simp only [HeldRange.Has, Rl.Has] at hx hex
    omega

/-- A reader that is represented by proxies gives up its lock. -/
theorem dropReader (hcnt : s.cnt h ≠ 1) (hdrop : ReaderDrop (r.off + r.len) r.off s.tree tree) :
    RangeInv { s with tree := tree, held := update s.held h none } := by
  have hmem {e : Rl} (he : e ∈ tree) := hdrop.mem_out inv.sorted he
  refine ⟨(hdrop.sorted inv.sorted).1, finite_update inv.finite _, fun x => ?_,
    fun g r' hg => inv.ranges g r' (eq_of_update_none hg).2, fun g r' hg hw' e he htype => ?_,
    fun e he g hg => ?_, fun e he htype => ?_, fun g r' hg hw' => ?_, inv.idle_release hr⟩
  · have hcounts := inv.counts x
    rw [← hdrop.readersAt_eq inv.sorted, ncard_holdersAt_release inv.finite hr] at hcounts
    simp only [hw, HeldRange.Has, true_and] at hcounts
    exact Nat.add_right_cancel hcounts
  · obtain ⟨-, hg'⟩ := eq_of_update_none hg
    rcases hmem he with he | ⟨-, e', he', rfl, htype', -⟩
    · exact inv.cut g r' hg' hw' e he htype
    · exact inv.cut g r' hg' hw' e' he' htype'
  · have hold : e ∈ s.tree := (hmem he).elim id fun hd => by simp [hd.1] at hg
    obtain ⟨hheld, hc⟩ := inv.owned e hold g hg
    have hgh : g ≠ h := fun heq => hcnt (heq ▸ hc)
    exact ⟨by dsimp only; rw [update_of_ne hgh, hheld], hc⟩
  · rcases hmem he with hold | ⟨-, e', -, rfl, htype', -⟩
    · exact inv.writerOwned e hold htype
    · exact absurd (htype'.symm.trans htype) (by simp)
  · obtain ⟨hgh, hg'⟩ := eq_of_update_none hg
    obtain ⟨e, he, hown⟩ := inv.inTree g r' hg' hw'
    refine ⟨e, (hdrop.kept he).resolve_right fun ⟨htype, hlo, hhi⟩ => ?_, hown⟩
    have hpos := (inv.sorted.ok e he).pos
    exact inv.not_shared hr hw hgh he hown htype (x := e.rOff) ⟨le_rfl, by omega⟩ ⟨hlo, by omega⟩

end

/-- A caller leaves marks on nodes and waits. -/
theorem mark {f : Rl → Rl}
    (hf : ∀ e, ∃ write read, f e = { e with rWriteWanted := write, rReadWanted := read })
    (hmarked : ∀ e ∈ s.tree, (f e).rReadWanted = true → (f e).excludes = true)
    (hh : s.held h = none) (hcnt : s.cnt h = 1) (req : RangeRequest) :
    RangeInv
      { s with tree := s.tree.map f, waiting := update s.waiting h (some req) } := by
  have hmem {e : Rl} (he : e ∈ s.tree.map f) :
      ∃ e' ∈ s.tree, ∃ write read, e = { e' with rWriteWanted := write, rReadWanted := read } := by
    obtain ⟨e', he', rfl⟩ := mem_map.mp he
    exact ⟨e', he', hf e'⟩
  refine ⟨⟨fun e he => ?_, ?_⟩, inv.finite, fun x => ?_, inv.ranges, fun g r hr hw e he htype => ?_,
    fun e he => ?_, fun e he => ?_, fun g r hr hw => ?_, fun g req' hg => ?_⟩
  · obtain ⟨e', he', rfl⟩ := mem_map.mp he
    have hread := hmarked e' he'
    obtain ⟨_, _, heq⟩ := hf e'
    rw [heq] at hread ⊢
    obtain ⟨hpos, hfits, halone, hcounted, hgranted, -⟩ := inv.sorted.ok e' he'
    exact ⟨hpos, hfits, halone, hcounted, hgranted, hread⟩
  · rw [pairwise_map]
    refine inv.sorted.order.imp fun {a b} hab => ?_
    obtain ⟨_, _, ha⟩ := hf a
    obtain ⟨_, _, hb⟩ := hf b
    rw [ha, hb]
    exact hab
  · rw [← inv.counts, readersAt, readersAt, List.map_map]
    congr 1
    refine map_congr_left fun e _ => ?_
    obtain ⟨_, _, he⟩ := hf e
    rw [comp_apply, he]
    rfl
  · obtain ⟨e', he', _, _, rfl⟩ := hmem he
    exact inv.cut g r hr hw e' he' htype
  · obtain ⟨e', he', _, _, rfl⟩ := hmem he
    exact inv.owned e' he'
  · obtain ⟨e', he', _, _, rfl⟩ := hmem he
    exact inv.writerOwned e' he'
  · obtain ⟨e, he, hown⟩ := inv.inTree g r hr hw
    refine ⟨f e, mem_map_of_mem he, ?_⟩
    obtain ⟨_, _, heq⟩ := hf e
    rw [heq]
    exact hown
  · dsimp only at hg ⊢
    by_cases hgh : g = h
    · exact hgh ▸ ⟨hh, hcnt⟩
    · rw [update_of_ne hgh] at hg
      exact inv.idle g req' hg

end RangeInv

/-! ## Critical sections -/

theorem setWriteWanted_marks (rl e : Rl) : ∃ write read,
    (if e.rOff = rl.rOff then { e with rWriteWanted := true } else e)
      = { e with rWriteWanted := write, rReadWanted := read } := by
  split
  · exact ⟨true, e.rReadWanted, rfl⟩
  · exact ⟨e.rWriteWanted, e.rReadWanted, rfl⟩

theorem setReadWanted_marks (rl e : Rl) : ∃ write read,
    (if e.rOff = rl.rOff then { e with rReadWanted := true } else e)
      = { e with rWriteWanted := write, rReadWanted := read } := by
  split
  · exact ⟨e.rWriteWanted, true, rfl⟩
  · exact ⟨e.rWriteWanted, e.rReadWanted, rfl⟩

/-- A writer asks for a range that is not empty and ends within 64 bits. -/
theorem writerRange_fits {zp : ZnodeSize} {req : RangeRequest} (hfits : req.Fits zp)
    (h : writerRange zp req = (off, len)) : 0 < len ∧ off + len < 2 ^ 64 := by
  have hcases : writerRange zp req = (0, 2 ^ 64 - 1)
      ∨ writerRange zp req = (if req.type = .append then zp.zpSize else req.off, req.len) :=
    ite_eq_or_eq _ _ _
  rw [h, Prod.mk.injEq, Prod.mk.injEq] at hcases
  rcases hcases with ⟨rfl, rfl⟩ | ⟨rfl, rfl⟩
  · omega
  · exact ⟨hfits.1, hfits.2.2⟩

namespace RangeInv

variable {s : RangeState} (inv : RangeInv s) {zp : ZnodeSize} {h : ℕ} {req : RangeRequest}

include inv

theorem tryWriter (hh : s.held h = none) (hcnt : s.cnt h = 1) (hfits : req.Fits zp)
    (htype : req.type ≠ .reader) :
    RangeInv (s.afterTry h req (zfsRangeLockWriter zp s.tree s.cnt h req)) := by
  obtain ⟨off, len, hrange⟩ : ∃ off len, writerRange zp req = (off, len) := ⟨_, _, rfl⟩
  obtain ⟨hlen, hend⟩ := writerRange_fits hfits hrange
  have hgrant (hfree : RangeFree s.tree off len) : RangeInv (s.afterTry h req
      (.got off len (rlBefore s.tree off ++ newRl h off len .writer :: rlAfter s.tree off)
        s.cnt)) := by
    have := inv.insert true hh hcnt hlen hend hfree
    simpa [RangeState.afterTry, htype] using this
  simp only [zfsRangeLockWriter, hrange]
  split
  next hempty =>
    rw [List.isEmpty_iff] at hempty
    rw [hempty] at hgrant
    exact hgrant fun e he => absurd he not_mem_nil
  next =>
    split
    next rl _ =>
      refine inv.mark (setWriteWanted_marks rl) (fun e he => ?_) hh hcnt req
      split
      · exact fun _ => decide_eq_true (.inr rfl)
      · exact (inv.sorted.ok e he).marked
    next hnone => exact hgrant (rangeFree_of_writerConflict inv.sorted hend hnone)

theorem tryReader (hh : s.held h = none) (hcnt : s.cnt h = 1) (hfits : req.Fits zp)
    (htype : req.type = .reader) :
    ∃ t, zfsRangeLockReader s.tree s.cnt h req.off req.len = some t ∧
      RangeInv (s.afterTry h req t) := by
  obtain ⟨hlen, -, hend⟩ := hfits
  rw [if_neg (by simp [htype])] at hend
  rw [zfsRangeLockReader]
  cases hconflict : readerConflict s.tree req.off req.len with
  | some rl =>
    obtain ⟨hmem, hexcl⟩ := excludes_of_readerConflict hconflict
    refine ⟨_, rfl, inv.mark (setReadWanted_marks rl) (fun e he => ?_) hh hcnt req⟩
    split
    next hoff =>
      have hpos := (inv.sorted.ok e he).pos
      have hpos' := (inv.sorted.ok rl hmem).pos
      cases inv.sorted.eq_of_has he hmem (x := rl.rOff) ⟨hoff.le, by omega⟩ ⟨le_rfl, by omega⟩
      exact fun _ => hexcl
    next => exact (inv.sorted.ok e he).marked
  | none =>
    obtain ⟨tree, cnt, hrun, hadd⟩ := zfsRangeAddReader_spec inv.sorted s.cnt (h := h) hlen hend
      fun e he hoff hlt => reader_of_excludes inv.sorted he
        (not_excludes_of_readerConflict inv.sorted hend hconflict he hoff hlt)
    refine ⟨.got req.off req.len tree cnt, by simp [hrun], ?_⟩
    rcases hadd with ⟨hfree, rfl, rfl⟩ | hadd
    · simpa [RangeState.afterTry, htype] using inv.insert false hh hcnt hlen hend hfree
    · simpa [RangeState.afterTry, htype] using inv.addReader hh hlen hend hadd

/-- The `rl_t` of a caller that holds nothing is set up. -/
theorem start (hh : s.held h = none) : RangeInv { s with cnt := update s.cnt h 1 } := by
  refine ⟨inv.sorted, inv.finite, inv.counts, inv.ranges, inv.cut, fun e he g hg => ?_,
    inv.writerOwned, fun g r hr hw => ?_, fun g req hg => ?_⟩
  · obtain ⟨hheld, hc⟩ := inv.owned e he g hg
    exact ⟨hheld, by dsimp only; rw [update_of_ne (ne_of_held hh hheld), hc]⟩
  · dsimp only at hr hw
    rw [update_of_ne (ne_of_held hh hr)] at hw
    exact inv.inTree g r hr hw
  · obtain ⟨hnone, hc⟩ := inv.idle g req hg
    refine ⟨hnone, ?_⟩
    dsimp only
    by_cases hgh : g = h
    · rw [hgh, update_self]
    · rw [update_of_ne hgh, hc]

theorem wake (hwaiting : s.waiting h = some req) (hfits : req.Fits zp) :
    ∃ s', zfsRangeWake s zp h req = some s' ∧ RangeInv s' := by
  obtain ⟨hh, hcnt⟩ := inv.idle h req hwaiting
  rw [zfsRangeWake]
  split
  next htype =>
    obtain ⟨t, hrun, hinv⟩ := inv.tryReader hh hcnt hfits htype
    exact ⟨_, by rw [hrun, map_some], hinv⟩
  next htype => exact ⟨_, rfl, inv.tryWriter hh hcnt hfits htype⟩

theorem lock (hh : s.held h = none) (hfits : req.Fits zp) :
    ∃ s', zfsRangeLock s zp h req = some s' ∧ RangeInv s' := by
  have inv' := inv.start hh
  have hcnt : update s.cnt h 1 h = 1 := update_self h 1 s.cnt
  simp only [zfsRangeLock]
  split
  next htype =>
    split
    next hempty =>
      obtain ⟨hlen, -, hend⟩ := hfits
      rw [if_neg (by simp [htype])] at hend
      rw [List.isEmpty_iff] at hempty
      have hfree : RangeFree s.tree req.off req.len := by
        rw [hempty]
        exact fun e he => absurd he not_mem_nil
      have := inv'.insert false hh hcnt hlen hend hfree
      simp only [hempty] at this
      exact ⟨_, rfl, by simpa [RangeState.afterTry, htype, rlBefore, rlAfter] using this⟩
    next =>
      obtain ⟨t, hrun, hinv⟩ := inv'.tryReader hh hcnt hfits htype
      exact ⟨_, by rw [hrun, map_some], hinv⟩
  next htype => exact ⟨_, rfl, inv'.tryWriter hh hcnt hfits htype⟩

theorem unlock (hr : s.held h = some r) : ∃ s', zfsRangeUnlock s h r = some s' ∧ RangeInv s' := by
  simp only [zfsRangeUnlock]
  cases hw : r.writer with
  | true => exact ⟨_, if_pos rfl, inv.removeOwn hr (.inl hw)⟩
  | false =>
    rw [if_neg (by simp)]
    by_cases hcnt : s.cnt h = 1
    · exact ⟨_, by rw [zfsRangeUnlockReader, if_pos hcnt, map_some],
        inv.removeOwn hr (.inr hcnt)⟩
    · obtain ⟨tree, hrun, hdrop⟩ := inv.unlockReader_spec hr hw hcnt
      exact ⟨_, by rw [hrun, map_some], inv.dropReader hr hw hcnt hdrop⟩

omit inv in
theorem init : RangeInv .init where
  sorted := ⟨fun e he => absurd he not_mem_nil, .nil⟩
  finite := by simp [RangeState.init]
  counts x := by
    have : holdersAt RangeState.init.held x = ∅ := by
      ext g
      simp [holdersAt, RangeState.init]
    rw [this, Set.ncard_empty]
    rfl
  ranges h r hr := by cases hr
  cut h r hr := by cases hr
  owned e he := absurd he not_mem_nil
  writerOwned e he := absurd he not_mem_nil
  inTree g r hr := by cases hr
  idle g req hg := by cases hg

theorem step {s' : RangeState} (hstep : RangeStep s s') : RangeInv s' := by
  cases hstep with
  | lock zp h req hheld _ hfits hrun =>
    obtain ⟨t, ht, hinv⟩ := inv.lock hheld hfits
    exact some.inj (hrun.symm.trans ht) ▸ hinv
  | wake zp h req hwaiting hfits hrun =>
    obtain ⟨t, ht, hinv⟩ := inv.wake hwaiting hfits
    exact some.inj (hrun.symm.trans ht) ▸ hinv
  | unlock h rl hheld hrun =>
    obtain ⟨t, ht, hinv⟩ := inv.unlock hheld
    exact some.inj (hrun.symm.trans ht) ▸ hinv

end RangeInv

/-- The invariant holds however the callers interleave. -/
theorem RangeReach.inv {s : RangeState} (h : RangeReach s) : RangeInv s := by
  induction h with
  | init => exact .init
  | step _ hstep ih => exact ih.step hstep

/-- Whatever the callers have done, each of them can go on, and one that unlocks has its node in the
tree, or proxies that cover its range. -/
theorem RangeReach.progress {s : RangeState} (hreach : RangeReach s) (h : ℕ) :
    (∀ zp req, s.held h = none → req.Fits zp → ∃ s', zfsRangeLock s zp h req = some s') ∧
      (∀ zp req, s.waiting h = some req → req.Fits zp → ∃ s', zfsRangeWake s zp h req = some s') ∧
      ∀ r, s.held h = some r → (∃ s', zfsRangeUnlock s h r = some s') ∧
        (r.writer = true ∨ s.cnt h = 1 →
          ∃ e ∈ s.tree, e.rOwner = some h ∧ e.rOff = r.off ∧ e.rLen = r.len) ∧
        (r.writer = false → s.cnt h ≠ 1 → ∀ x, r.Has x →
          ∃ e ∈ s.tree, e.rOwner = none ∧ e.Has x ∧ r.off ≤ e.rOff ∧
          e.rOff + e.rLen ≤ r.off + r.len) := by
  refine ⟨fun zp req hh hfits => ?_, fun zp req hwaiting hfits => ?_, fun r hr => ⟨?_, ?_, ?_⟩⟩
  · obtain ⟨s', hrun, -⟩ := hreach.inv.lock hh hfits
    exact ⟨s', hrun⟩
  · obtain ⟨s', hrun, -⟩ := hreach.inv.wake hwaiting hfits
    exact ⟨s', hrun⟩
  · obtain ⟨s', hrun, -⟩ := hreach.inv.unlock hr
    exact ⟨s', hrun⟩
  · intro hin
    obtain ⟨e, he, hown, -, hrange⟩ := hreach.inv.own_node hr hin
    exact ⟨e, he, hown, hrange⟩
  · intro hw hcnt x hx
    exact hreach.inv.proxy_node hr hw hcnt hx

/-- Two readers share the bytes from 5 to 10, and a writer has the bytes from 20 to 30. -/
theorem rangeReach_shared : ∃ s, RangeReach s ∧ s.held 0 = some ⟨0, 10, false⟩ ∧
    s.held 1 = some ⟨5, 10, false⟩ ∧ s.held 2 = some ⟨20, 10, true⟩ ∧ s.cnt 1 = 0 := by
  have hreach₀ := RangeReach.step .init
    (.lock ⟨40, 64, 64⟩ 0 ⟨0, 10, .reader⟩ rfl rfl ⟨by decide, by decide, by decide⟩ rfl)
  have hreach₁ := RangeReach.step hreach₀
    (.lock ⟨40, 64, 64⟩ 1 ⟨5, 10, .reader⟩ rfl rfl ⟨by decide, by decide, by decide⟩ rfl)
  have hreach₂ := RangeReach.step hreach₁
    (.lock ⟨40, 64, 64⟩ 2 ⟨20, 10, .writer⟩ rfl rfl ⟨by decide, by decide, by decide⟩ rfl)
  exact ⟨_, hreach₂, rfl, rfl, rfl, rfl⟩

theorem rangeReach_progress_shared : ∃ s, RangeReach s ∧ s.held 1 = some ⟨5, 10, false⟩ ∧
    s.held 2 = some ⟨20, 10, true⟩ ∧ (∃ s', zfsRangeUnlock s 1 ⟨5, 10, false⟩ = some s') ∧
    (∃ e ∈ s.tree, e.rOwner = none ∧ e.Has 12 ∧ 5 ≤ e.rOff ∧ e.rOff + e.rLen ≤ 15) ∧
    ∃ e ∈ s.tree, e.rOwner = some 2 ∧ e.rOff = 20 ∧ e.rLen = 10 := by
  obtain ⟨s, hreach, -, h₁, h₂, hcnt⟩ := rangeReach_shared
  obtain ⟨hunlock, -, hproxies⟩ := (hreach.progress 1).2.2 _ h₁
  exact ⟨s, hreach, h₁, h₂, hunlock, hproxies rfl (by simp [hcnt]) 12 ⟨by decide, by decide⟩,
    ((hreach.progress 2).2.2 _ h₂).2.1 (.inl rfl)⟩

/-- No byte of a range that is granted to a writer is in a range that is granted to anybody else. -/
theorem zfsRangeLock_exclusive {s : RangeState} (hreach : RangeReach s) {h g : ℕ} {r r' : HeldRange}
    (hr : s.held h = some r) (hr' : s.held g = some r') (hne : g ≠ h)
    (hw : r.writer = true ∨ r'.writer = true) (x : ℕ) : ¬ (r.Has x ∧ r'.Has x) := by
  rintro ⟨hx, hx'⟩
  rcases hw with hw | hw
  · exact hreach.inv.exclusive hr hw hr' hne hx hx'
  · exact hreach.inv.exclusive hr' hw hr hne.symm hx' hx

theorem zfsRangeLock_exclusive_shared : ∃ s, RangeReach s ∧ s.held 0 = some ⟨0, 10, false⟩ ∧
    s.held 1 = some ⟨5, 10, false⟩ ∧ s.held 2 = some ⟨20, 10, true⟩ ∧
    ∀ x, ¬ ((⟨20, 10, true⟩ : HeldRange).Has x ∧ (⟨5, 10, false⟩ : HeldRange).Has x) := by
  obtain ⟨s, hreach, h₀, h₁, h₂, -⟩ := rangeReach_shared
  exact ⟨s, hreach, h₀, h₁, h₂, zfsRangeLock_exclusive hreach h₂ h₁ (by decide) (.inl rfl)⟩

/-- The nodes cover the bytes that are held and no others: nothing stays behind in the tree. -/
theorem zfsRangeLock_covered {s : RangeState} (hreach : RangeReach s) (x : ℕ) :
    (∃ e ∈ s.tree, e.Has x) ↔ ∃ h r, s.held h = some r ∧ r.Has x := by
  have inv := hreach.inv
  constructor
  · rintro ⟨e, he, hx⟩
    exact inv.exists_held he hx
  · rintro ⟨h, r, hr, hx⟩
    by_contra hnone
    have hfree : RangeFree s.tree x 1 := by
      intro e he
      simp only [not_exists, not_and, Rl.Has] at hnone
      have := hnone e he
      omega
    exact inv.not_has_of_free hfree hr le_rfl (by omega) hx

theorem zfsRangeLock_covered_shared : ∃ s, RangeReach s ∧ (∃ e ∈ s.tree, e.Has 7) ∧
    (∃ e ∈ s.tree, e.Has 14) ∧ ∃ e ∈ s.tree, e.Has 29 := by
  obtain ⟨s, hreach, h₀, h₁, h₂, -⟩ := rangeReach_shared
  exact ⟨s, hreach, (zfsRangeLock_covered hreach 7).mpr ⟨0, _, h₀, by decide⟩,
    (zfsRangeLock_covered hreach 14).mpr ⟨1, _, h₁, by decide⟩,
    (zfsRangeLock_covered hreach 29).mpr ⟨2, _, h₂, by decide⟩⟩

end Polaris
