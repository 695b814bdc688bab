import Polaris.Vm.AddrSpace

/-!
# The segments stay apart

`as_addseg` has two ways to insert.  The search compares the whole new segment with its neighbours.
The way beside the segment that `as_gap` has left compares the bases only, so a segment that
overlaps one of the two neighbours gets in.  As long as that does not happen the segments are
disjoint and in order after every call.

## Main definitions

* `SegsOk`, `AsInv` — the segments are disjoint and in order, and the hints are segments of the
  tree.
* `SegSplit` — a tree cut at an address.
* `Overlaps`, `AddRight`, `AddFits`
-/

namespace Polaris

open List Option

variable {w : ℕ}

/-- The segment is not empty and does not wrap. -/
def Seg.Valid (w : ℕ) (seg : Seg) : Prop :=
  0 < seg.sSize ∧ seg.sBase + seg.sSize < 2 ^ w

/-- The segments are disjoint and in ascending order. -/
structure SegsOk (w : ℕ) (t : List Seg) : Prop where
  valid : ∀ seg ∈ t, seg.Valid w
  sorted : t.Pairwise fun a b => a.sBase + a.sSize ≤ b.sBase

/-- The new segment has an address in common with one of the tree. -/
def Overlaps (t : List Seg) (newseg : Seg) : Prop :=
  ∃ seg ∈ t, seg.sBase < newseg.sBase + newseg.sSize ∧ newseg.sBase < seg.sBase + seg.sSize

structure AsInv (w : ℕ) (as : AddrSpace) : Prop where
  segs : SegsOk w as.aSegtree
  seglast : ∀ seg ∈ as.aSeglast, seg ∈ as.aSegtree
  lastgap : ∀ seg ∈ as.aLastgap, seg ∈ as.aSegtree
  lastgaphl : ∀ seg ∈ as.aLastgaphl, seg ∈ as.aSegtree

theorem asInv_empty : AsInv w .empty :=
  ⟨⟨nofun, .nil⟩, nofun, nofun, nofun⟩

variable {seg newseg : Seg} {as : AddrSpace} {lo hi : List Seg}

theorem Seg.Valid.end_eq (h : seg.Valid w) : seg.end w = seg.sBase + seg.sSize :=
  Nat.mod_eq_of_lt h.2

/-! ## A tree in order -/

namespace SegsOk

variable {t : List Seg}

theorem tail (h : SegsOk w (seg :: t)) : SegsOk w t :=
  ⟨fun s hs => h.valid s (mem_cons_of_mem _ hs), h.sorted.of_cons⟩

theorem head_le (h : SegsOk w (seg :: t)) {s : Seg} (hs : s ∈ t) :
    seg.sBase + seg.sSize ≤ s.sBase :=
  rel_of_pairwise_cons h.sorted hs

theorem nodup (h : SegsOk w t) : t.Nodup := by
  apply List.Pairwise.imp_of_mem _ h.sorted
  rintro a _ ha _ hab rfl
  have := (h.valid a ha).1
  omega

theorem erase (h : SegsOk w t) (seg : Seg) : SegsOk w (t.erase seg) :=
  ⟨fun s hs => h.valid s (mem_of_mem_erase hs), h.sorted.sublist erase_sublist⟩

theorem left (h : SegsOk w (lo ++ hi)) : SegsOk w lo :=
  ⟨fun s hs => h.valid s (mem_append_left _ hs), (pairwise_append.mp h.sorted).1⟩

theorem right (h : SegsOk w (lo ++ hi)) : SegsOk w hi :=
  ⟨fun s hs => h.valid s (mem_append_right _ hs), (pairwise_append.mp h.sorted).2.1⟩

theorem cross (h : SegsOk w (lo ++ hi)) : ∀ a ∈ lo, ∀ b ∈ hi, a.sBase + a.sSize ≤ b.sBase :=
  (pairwise_append.mp h.sorted).2.2

/-- A segment between what is below it and what is above it. -/
theorem insert (h : SegsOk w (lo ++ hi)) (hvalid : seg.Valid w)
    (hlo : ∀ s ∈ lo, s.sBase + s.sSize ≤ seg.sBase)
    (hhi : ∀ s ∈ hi, seg.sBase + seg.sSize ≤ s.sBase) :
    SegsOk w (lo ++ seg :: hi) := by
  constructor
  · exact forall_mem_append.mpr ⟨h.left.valid, forall_mem_cons.mpr ⟨hvalid, h.right.valid⟩⟩
  · refine pairwise_append.mpr ⟨h.left.sorted, pairwise_cons.mpr ⟨hhi, h.right.sorted⟩, ?_⟩
    intro a ha b hb
    rcases mem_cons.mp hb with rfl | hb
    · exact hlo a ha
    · exact h.cross a ha b hb

end SegsOk

theorem asSegcompar_eq (h : seg.Valid w) (addr : ℕ) :
    asSegcompar w addr seg
      = if addr < seg.sBase then .lt else if seg.sBase + seg.sSize ≤ addr then .gt else .eq := by
  rw [asSegcompar, h.end_eq]

/-! ## Cutting the tree at an address -/

/-- The tree is what ends at or below the address, the segment that contains it, if there is one,
and what begins above it. -/
structure SegSplit (t : List Seg) (addr : ℕ) (lo : List Seg) (mid : Option Seg) (hi : List Seg) :
    Prop where
  eq : t = lo ++ (mid.toList ++ hi)
  below : ∀ seg ∈ lo, seg.sBase + seg.sSize ≤ addr
  here : ∀ seg ∈ mid, seg.sBase ≤ addr ∧ addr < seg.sBase + seg.sSize
  above : ∀ seg ∈ hi, addr < seg.sBase

theorem exists_segSplit {t : List Seg} (h : SegsOk w t) (addr : ℕ) :
    ∃ lo mid hi, SegSplit t addr lo mid hi := by
  induction t with
  | nil => exact ⟨[], none, [], rfl, nofun, nofun, nofun⟩
  | cons seg t ih =>
    have hhead {s : Seg} (hs : s ∈ t) := h.head_le hs
    by_cases hlt : addr < seg.sBase
    · refine ⟨[], none, seg :: t, rfl, nofun, nofun, ?_⟩
      intro s hs
      rcases mem_cons.mp hs with rfl | hs
      · exact hlt
      · have := hhead hs
        omega
    by_cases hgt : seg.sBase + seg.sSize ≤ addr
    · obtain ⟨lo, mid, hi, hsplit⟩ := ih h.tail
      exact ⟨seg :: lo, mid, hi, by rw [hsplit.eq]; rfl, forall_mem_cons.mpr ⟨hgt, hsplit.below⟩,
        hsplit.here, hsplit.above⟩
    · refine ⟨[], some seg, t, rfl, nofun, ?_, ?_⟩
      · intro s hs
        cases hs
        omega
      · intro s hs
        have := hhead hs
        omega

namespace SegSplit

variable {t lo hi : List Seg} {addr : ℕ} {mid : Option Seg}

theorem mem_iff (h : SegSplit t addr lo mid hi) : seg ∈ t ↔ seg ∈ lo ∨ seg ∈ mid ∨ seg ∈ hi := by
  rw [h.eq, mem_append, mem_append, mem_toList, mem_def]

section Compar

variable (hok : SegsOk w t) (h : SegSplit t addr lo mid hi)

include hok h

theorem compar_lo (hs : seg ∈ lo) : asSegcompar w addr seg = .gt := by
  have hvalid := hok.valid seg (h.mem_iff.mpr (.inl hs))
  have := h.below seg hs
  rw [asSegcompar_eq hvalid, if_neg (by omega), if_pos (by omega)]

theorem compar_mid (hs : seg ∈ mid) : asSegcompar w addr seg = .eq := by
  have := h.here seg hs
  rw [asSegcompar_eq (hok.valid seg (h.mem_iff.mpr (.inr (.inl hs)))), if_neg (by omega),
    if_neg (by omega)]

theorem compar_hi (hs : seg ∈ hi) : asSegcompar w addr seg = .lt := by
  rw [asSegcompar_eq (hok.valid seg (h.mem_iff.mpr (.inr (.inr hs)))), if_pos (h.above seg hs)]

theorem segInsert (haddr : newseg.sBase = addr) :
    segInsert w newseg t = lo ++ newseg :: (mid.toList ++ hi) := by
  have hlo : ∀ seg ∈ lo, decide (asSegcompar w addr seg = .gt) = true := by
    intro seg hs
    simp [h.compar_lo hok hs]
  have hrest : (mid.toList ++ hi).head?.all fun seg => !decide (asSegcompar w addr seg = .gt) := by
    cases hmid : mid with
    | some seg => simp [h.compar_mid hok hmid]
    | none =>
      cases hhi : hi with
      | nil => rfl
      | cons seg hi' => simp [h.compar_hi hok (hhi ▸ mem_cons_self)]
  rw [Polaris.segInsert, haddr, h.eq, takeWhile_append_of_pos hlo, dropWhile_append_of_pos hlo]
  generalize mid.toList ++ hi = rest at hrest
  cases rest with
  | nil => simp
  | cons seg rest =>
    have hseg : ¬ asSegcompar w addr seg = .gt := by simpa using hrest
    simp [hseg]

omit hok in
/-- A segment of the tree that contains the address is the one in the middle. -/
theorem mid_eq (hs : seg ∈ t) (hbase : seg.sBase ≤ addr) (hend : addr < seg.sBase + seg.sSize) :
    mid = some seg := by
  rcases h.mem_iff.mp hs with hlo | hmid | hhi
  · have := h.below seg hlo
    omega
  · exact hmid
  · have := h.above seg hhi
    omega

/-- The segment a search with `tail` ends at. -/
theorem nearest : ((segFind w addr t).or (segAfter w addr t)).or t.getLast?
    = (mid.or hi.head?).or lo.getLast? := by
  have hlo {o : Ordering} (ho : .gt ≠ o) :
      lo.find? (fun seg => asSegcompar w addr seg = o) = none := by
    rw [find?_eq_none]
    intro seg hs
    simpa [h.compar_lo hok hs] using ho
  simp only [segFind, segAfter, h.eq, find?_append, hlo (by decide : .gt ≠ Ordering.eq),
    hlo (by decide : .gt ≠ Ordering.lt), none_or]
  cases mid with
  | some seg => simp [h.compar_mid hok rfl]
  | none =>
    cases hi with
    | nil => simp
    | cons seg hi =>
      have hhi : (seg :: hi).find? (fun seg => asSegcompar w addr seg = .eq) = none := by
        rw [find?_eq_none]
        intro seg hs
        simp [h.compar_hi hok hs]
      simp [hhi, h.compar_hi hok mem_cons_self]

/-- What is above the address is above what lies in the middle too. -/
theorem overlaps_iff (hvalid : newseg.Valid w) (haddr : newseg.sBase = addr) :
    Overlaps t newseg ↔
      mid.isSome ∨ ∃ seg ∈ hi.head?, seg.sBase < newseg.sBase + newseg.sSize := by
  have := hvalid.1
  constructor
  · rintro ⟨seg, hs, hlt, hgt⟩
    rcases h.mem_iff.mp hs with hlo | hmid | hhi
    · have := h.below seg hlo
      omega
    · left
      rw [mem_def.mp hmid]
      rfl
    · right
      cases hcons : hi with
      | nil =>
        rw [hcons] at hhi
        cases hhi
      | cons first rest =>
        refine ⟨first, rfl, ?_⟩
        rw [hcons] at hhi
        rcases mem_cons.mp hhi with rfl | hrest
        · exact hlt
        rw [h.eq, hcons] at hok
        have := hok.right.right.head_le hrest
        omega
  · rintro (hmid | ⟨seg, hs, hlt⟩)
    · obtain ⟨seg, rfl⟩ := isSome_iff_exists.mp hmid
      have := h.here seg rfl
      exact ⟨seg, h.mem_iff.mpr (.inr (.inl rfl)), by omega, by omega⟩
    · have hs := mem_of_head? hs
      have := h.above seg hs
      exact ⟨seg, h.mem_iff.mpr (.inr (.inr hs)), hlt, by omega⟩

end Compar

end SegSplit

/-! ## Finding -/

/-- The segment a search with `tail` finds. -/
def SegSplit.found (lo : List Seg) (mid : Option Seg) (hi : List Seg) : Option Seg :=
  (mid.or hi.head?).or lo.getLast?

theorem SegSplit.found_mem {t : List Seg} {addr : ℕ} {mid : Option Seg}
    (h : SegSplit t addr lo mid hi) (hs : seg ∈ SegSplit.found lo mid hi) : seg ∈ t := by
  rw [h.mem_iff]
  rcases or_eq_some_iff.mp hs with hs | ⟨-, hs⟩
  · rcases or_eq_some_iff.mp hs with hs | ⟨-, hs⟩
    · exact .inr (.inl hs)
    · exact .inr (.inr (mem_of_head? hs))
  · exact .inl (mem_of_getLast? hs)

theorem asFindseg_eq (hinv : AsInv w as) {addr : ℕ} {mid : Option Seg}
    (h : SegSplit as.aSegtree addr lo mid hi) :
    asFindseg w as addr
      = ({ as with aSeglast := SegSplit.found lo mid hi }, SegSplit.found lo mid hi) := by
  have hsearch : asFindseg.search w as addr
      = ({ as with aSeglast := SegSplit.found lo mid hi }, SegSplit.found lo mid hi) := by
    rw [asFindseg.search, h.nearest hinv.segs]
    rfl
  cases hlast : as.aSeglast with
  | none =>
    rw [asFindseg, hlast]
    exact hsearch
  | some seg =>
    have hmem := hinv.seglast seg hlast
    have hend := (hinv.segs.valid seg hmem).end_eq
    rw [asFindseg, hlast]
    simp only
    split
    next hin =>
      have hfound : SegSplit.found lo mid hi = as.aSeglast := by
        rw [SegSplit.found, h.mid_eq hmem hin.1 (hend ▸ hin.2), hlast]
        rfl
      rw [hfound, hlast, ← hlast]
    next => exact hsearch

/-! ## Neighbours -/

/-- A tree without repetitions, cut at one of its segments. -/
theorem takeWhile_ne (h : (lo ++ seg :: hi).Nodup) :
    (lo ++ seg :: hi).takeWhile (· ≠ seg) = lo ∧
      (lo ++ seg :: hi).dropWhile (· ≠ seg) = seg :: hi := by
  have hlo : ∀ s ∈ lo, decide (s ≠ seg) = true := by
    intro s hs
    have := (nodup_append.mp h).2.2 s hs seg mem_cons_self
    simpa using this
  rw [takeWhile_append_of_pos hlo, dropWhile_append_of_pos hlo]
  simp

theorem segPrev_eq (h : (lo ++ seg :: hi).Nodup) : segPrev (lo ++ seg :: hi) seg = lo.getLast? := by
  rw [segPrev, (takeWhile_ne h).1]

theorem segNext_eq (h : (lo ++ seg :: hi).Nodup) : segNext (lo ++ seg :: hi) seg = hi.head? := by
  rw [segNext, (takeWhile_ne h).2, tail_cons]

/-- The insertion without a search is between two neighbours with bases on both sides. -/
theorem asShortcut_spec (hinv : AsInv w as) {lseg : Seg} (h : asShortcut as newseg = some lseg) :
    ∃ lo hseg hi, as.aSegtree = lo ++ lseg :: hseg :: hi ∧
      lseg.sBase < newseg.sBase ∧ newseg.sBase < hseg.sBase := by
  have hnodup := hinv.segs.nodup
  rw [asShortcut] at h
  cases hhl : as.aLastgaphl with
  | none =>
    rw [hhl] at h
    cases h
  | some hl =>
    obtain ⟨lo, hi, ht⟩ := append_of_mem (hinv.lastgaphl hl hhl)
    rw [hhl] at h
    simp only [asNeighbours, ht] at h
    rw [ht] at hnodup
    split at h
    next l hseg hpair =>
      split at h
      next hbases =>
        cases h
        split at hpair
        · -- the segment left by the search is the upper neighbour
          obtain ⟨hprev, hseg'⟩ := Prod.mk.inj hpair
          cases hseg'
          rw [segPrev_eq hnodup] at hprev
          obtain ⟨lo', rfl⟩ := getLast?_eq_some_iff.mp hprev
          exact ⟨lo', hl, hi, by rw [ht, append_assoc]; rfl, hbases⟩
        · obtain ⟨hl', hnext⟩ := Prod.mk.inj hpair
          cases hl'
          rw [segNext_eq hnodup] at hnext
          obtain ⟨hi', rfl⟩ := head?_eq_some_iff.mp hnext
          exact ⟨lo, hseg, hi', ht, hbases⟩
      next => cases h
    next => cases h

/-! ## Adding -/

/-- The call rejects a segment that overlaps, and adds exactly the segment otherwise. -/
def AddRight (w : ℕ) (as : AddrSpace) (newseg : Seg) : Prop :=
  (Overlaps as.aSegtree newseg →
    (asAddseg w as newseg).2 = false ∧ (asAddseg w as newseg).1.aSegtree = as.aSegtree) ∧
  (¬ Overlaps as.aSegtree newseg → (asAddseg w as newseg).2 = true ∧
      ∀ seg, seg ∈ (asAddseg w as newseg).1.aSegtree ↔ seg = newseg ∨ seg ∈ as.aSegtree)

/-- A segment inserted without a search overlaps nothing. -/
def AddFits (as : AddrSpace) (newseg : Seg) : Prop :=
  (asShortcut as newseg).isSome → ¬ Overlaps as.aSegtree newseg

/-- The call puts the segment between those with lower and those with higher bases. -/
def AddsBetween (w : ℕ) (as : AddrSpace) (newseg : Seg) : Prop :=
  ∃ lo hi, as.aSegtree = lo ++ hi ∧
    asAddseg w as newseg = ({ as with
      aSegtree := lo ++ newseg :: hi, aLastgaphl := none, aSeglast := some newseg }, true) ∧
    (∀ seg ∈ lo, seg.sBase < newseg.sBase) ∧ ∀ seg ∈ hi, newseg.sBase < seg.sBase

section Add

variable {as : AddrSpace} (hinv : AsInv w as) {newseg : Seg} (hvalid : newseg.Valid w)

include hinv

/-- Beside the segment left by `as_gap` the new one goes in, whatever its size. -/
theorem asAddseg_shortcut {lseg : Seg} (h : asShortcut as newseg = some lseg) :
    AddsBetween w as newseg := by
  obtain ⟨lo, hseg, hi, ht, hbase, hbase'⟩ := asShortcut_spec hinv h
  have hok := hinv.segs
  have hnodup := hok.nodup
  rw [ht] at hok hnodup
  refine ⟨lo ++ [lseg], hseg :: hi, by rw [ht, append_assoc]; rfl, ?_, ?_, ?_⟩
  · simp only [asAddseg, h, segInsertAfter, ht, (takeWhile_ne hnodup).1, (takeWhile_ne hnodup).2,
      tail_cons, append_assoc, singleton_append]
  · intro seg hs
    rcases mem_append.mp hs with hs | hs
    · have := hok.cross seg hs lseg mem_cons_self
      omega
    · rw [mem_singleton.mp hs]
      exact hbase
  · intro seg hs
    rcases mem_cons.mp hs with rfl | hs
    · exact hbase'
    · have := hok.right.tail.head_le hs
      omega

include hvalid

/-- A segment that overlaps is found by the search; another one goes in where it belongs. -/
theorem asAddseg_spec :
    (asShortcut as newseg = none ∧ Overlaps as.aSegtree newseg ∧
      asAddseg w as newseg = ({ as with aLastgaphl := none }, false)) ∨
    (asShortcut as newseg = none → ¬ Overlaps as.aSegtree newseg) ∧ AddsBetween w as newseg := by
  cases hcut : asShortcut as newseg with
  | some lseg => exact .inr ⟨nofun, asAddseg_shortcut hinv hcut⟩
  | none =>
  obtain ⟨lo, mid, hi, hsplit⟩ := exists_segSplit hinv.segs newseg.sBase
  have hoverlaps := hsplit.overlaps_iff hinv.segs hvalid rfl
  have hend {seg : Seg} (hs : seg ∈ lo ∨ seg ∈ mid ∨ seg ∈ hi) :=
    (hinv.segs.valid seg (hsplit.mem_iff.mpr hs)).end_eq
  rw [AddsBetween, asAddseg, hcut, hoverlaps]
  simp only [hsplit.nearest hinv.segs, hsplit.segInsert hinv.segs rfl, hvalid.end_eq]
  cases mid with
  | some seg =>
    have := hsplit.here seg rfl
    simp only [some_or, hend (.inr (.inl rfl))]
    rw [if_pos (by omega)]
    exact .inl ⟨trivial, .inl rfl, rfl⟩
  | none =>
    have hlo (seg : Seg) (hs : seg ∈ lo) : seg.sBase < newseg.sBase := by
      have := hsplit.below seg hs
      have := (hinv.segs.valid seg (hsplit.mem_iff.mpr (.inl hs))).1
      omega
    cases hhead : hi.head? with
    | some seg =>
      have hmem := mem_of_head? hhead
      have := hsplit.above seg hmem
      simp only [none_or, some_or, hend (.inr (.inr hmem))]
      by_cases hlt : seg.sBase < newseg.sBase + newseg.sSize
      · rw [if_pos (by omega)]
        exact .inl ⟨trivial, .inr ⟨seg, rfl, hlt⟩, rfl⟩
      · rw [if_neg (by omega)]
        refine .inr ⟨fun _ => ?_, lo, hi, hsplit.eq, rfl, hlo, hsplit.above⟩
        simpa using hlt
    | none =>
      refine .inr ⟨fun _ => by simp, lo, hi, hsplit.eq, ?_, hlo, hsplit.above⟩
      cases hlast : lo.getLast? with
      | some seg =>
        have hmem := mem_of_getLast? hlast
        have := hsplit.below seg hmem
        simp only [none_or, hend (.inl hmem)]
        rw [if_neg (by omega)]
        rfl
      | none => rfl

/-- A segment that goes in without overlapping keeps the tree in order. -/
theorem AsInv.insert (ht : as.aSegtree = lo ++ hi) (hlo : ∀ seg ∈ lo, seg.sBase < newseg.sBase)
    (hhi : ∀ seg ∈ hi, newseg.sBase < seg.sBase) (hover : ¬ Overlaps as.aSegtree newseg) :
    AsInv w { as with
      aSegtree := lo ++ newseg :: hi, aLastgaphl := none, aSeglast := some newseg } := by
  have hmem {seg : Seg} (hs : seg ∈ as.aSegtree) : seg ∈ lo ++ newseg :: hi := by
    rw [ht] at hs
    rcases mem_append.mp hs with hs | hs
    · exact mem_append_left _ hs
    · exact mem_append_right _ (mem_cons_of_mem _ hs)
  have hok := hinv.segs
  rw [ht] at hok hover
  have hapart {seg : Seg} (hs : seg ∈ lo ++ hi) : ¬ (seg.sBase < newseg.sBase + newseg.sSize ∧
      newseg.sBase < seg.sBase + seg.sSize) := fun hboth => hover ⟨seg, hs, hboth⟩
  constructor
  · apply hok.insert hvalid
    · intro seg hs
      have := hlo seg hs
      have := hapart (mem_append_left _ hs)
      omega
    · intro seg hs
      have := hhi seg hs
      have := hapart (mem_append_right _ hs)
      omega
  · rintro seg ⟨⟩
    exact mem_append_right _ mem_cons_self
  · intro seg hs
    exact hmem (hinv.lastgap seg hs)
  · exact nofun

/-- The call is right exactly when the segment fits, and then the space stays in order. -/
theorem asAddseg_right_iff :
    (AddRight w as newseg ↔ AddFits as newseg) ∧
      (AddFits as newseg → AsInv w (asAddseg w as newseg).1) := by
  have hadded {lo hi : List Seg} (ht : as.aSegtree = lo ++ hi) (seg : Seg) :
      seg ∈ lo ++ newseg :: hi ↔ seg = newseg ∨ seg ∈ as.aSegtree := by
    rw [ht]
    simp only [mem_append, mem_cons]
    exact or_left_comm
  rcases asAddseg_spec hinv hvalid with ⟨hcut, hover, hadd⟩ | ⟨hnone, lo, hi, ht, hadd, hlo, hhi⟩
  · have hfits : AddFits as newseg := by simp [AddFits, hcut]
    rw [AddRight, hadd]
    exact ⟨iff_of_true ⟨fun _ => ⟨rfl, rfl⟩, fun h => absurd hover h⟩ hfits,
      fun _ => ⟨hinv.segs, hinv.seglast, hinv.lastgap, nofun⟩⟩
  · have hfits : AddFits as newseg ↔ ¬ Overlaps as.aSegtree newseg := by
      cases hcut : asShortcut as newseg with
      | some lseg => simp [AddFits, hcut]
      | none => simp [AddFits, hcut, hnone hcut]
    rw [hfits, AddRight, hadd]
    refine ⟨⟨fun h hover => ?_, fun hover => ⟨fun h => absurd h hover, fun _ => ?_⟩⟩, ?_⟩
    · exact absurd (h.1 hover).1 (by simp)
    · exact ⟨rfl, hadded ht⟩
    · exact hinv.insert hvalid ht hlo hhi

end Add

/-! ## Removing -/

theorem AsInv.remove (hinv : AsInv w as) (hseg : seg ∈ as.aSegtree) :
    AsInv w (asRemoveseg as seg) := by
  have hnodup := hinv.segs.nodup
  have hkeep {s : Seg} (hs : s ∈ as.aSegtree) (hne : s ≠ seg) : s ∈ as.aSegtree.erase seg :=
    (mem_erase_of_ne hne).mpr hs
  constructor
  · exact hinv.segs.erase seg
  · intro s hs
    simp only [asRemoveseg, mem_def] at hs
    split at hs
    next => cases hs
    next hlast =>
      apply hkeep (hinv.seglast s hs)
      rintro rfl
      exact hlast hs
  · intro s hs
    simp only [asRemoveseg, mem_def] at hs
    split at hs
    next gap hgap =>
      split at hs
      next =>
        obtain ⟨lo, hi, ht⟩ := append_of_mem hseg
        rw [ht] at hs hnodup
        rw [segNext_eq hnodup] at hs
        obtain ⟨hi', rfl⟩ := head?_eq_some_iff.mp hs
        apply hkeep
        · rw [ht]
          simp
        · rintro rfl
          simpa using (nodup_append.mp hnodup).2.1
      next hmove =>
        cases hs
        apply hkeep (hinv.lastgap _ hgap)
        rintro rfl
        exact hmove (.inl rfl)
    next => cases hs
  · exact nofun

/-! ## Looking for a hole -/

section Hit

variable {P : Seg → Prop} {args : GapArgs} {lobound hibound : ℕ} {lseg hseg : Option Seg}
  {up down : List Seg} {hit : GapHit}

theorem asGapUp_mem (hnext : ∀ s ∈ lseg, P s) (hlist : ∀ s ∈ up, P s)
    (h : asGapUp w args lobound hibound lseg up = some hit) :
    (∀ s ∈ hit.hseg, P s) ∧ ∀ s ∈ hit.lseg, P s := by
  induction up generalizing lseg with
  | nil =>
    rw [asGapUp] at h
    split at h
    · cases h
      exact ⟨nofun, hnext⟩
    · cases h
  | cons seg up ih =>
    have hseg : ∀ s ∈ some seg, P s := by
      rintro _ ⟨⟩
      exact hlist seg mem_cons_self
    rw [asGapUp] at h
    split at h
    · cases h
      exact ⟨hseg, hnext⟩
    · cases h
    · exact ih hseg (fun s hs => hlist s (mem_cons_of_mem _ hs)) h

theorem asGapDown_mem (hnext : ∀ s ∈ hseg, P s) (hlist : ∀ s ∈ down, P s)
    (h : asGapDown w args lobound hibound hseg down = some hit) :
    (∀ s ∈ hit.hseg, P s) ∧ ∀ s ∈ hit.lseg, P s := by
  induction down generalizing hseg with
  | nil =>
    rw [asGapDown] at h
    split at h
    · cases h
      exact ⟨hnext, nofun⟩
    · cases h
  | cons seg down ih =>
    have hseg : ∀ s ∈ some seg, P s := by
      rintro _ ⟨⟩
      exact hlist seg mem_cons_self
    rw [asGapDown] at h
    split at h
    · cases h
      exact ⟨hnext, hseg⟩
    · cases h
    · exact ih hseg (fun s hs => hlist s (mem_cons_of_mem _ hs)) h

end Hit

/-- A search leaves the tree alone; what it returns lies between segments of the tree. -/
theorem asGapSearch_spec (hinv : AsInv w as) (args : GapArgs) :
    ∃ seglast hit, asGapSearch w as args = ({ as with aSeglast := seglast }, hit) ∧
      (∀ seg ∈ seglast, seg ∈ as.aSegtree) ∧
      ∀ h ∈ hit, (∀ s ∈ h.hseg, s ∈ as.aSegtree) ∧ ∀ s ∈ h.lseg, s ∈ as.aSegtree := by
  have hfind (addr : ℕ) : ∃ seglast, asFindseg w as addr
    = ({ as with aSeglast := seglast }, seglast) ∧
      ∀ seg ∈ seglast, seg ∈ as.aSegtree := by
    obtain ⟨lo, mid, hi, hsplit⟩ := exists_segSplit hinv.segs addr
    exact ⟨_, asFindseg_eq hinv hsplit, fun seg => hsplit.found_mem⟩
  have htake (seg s : Seg) (hs : s ∈ as.aSegtree.takeWhile (· ≠ seg)) : s ∈ as.aSegtree :=
    (takeWhile_sublist _).subset hs
  have hdrop (seg s : Seg) (hs : s ∈ as.aSegtree.dropWhile (· ≠ seg)) : s ∈ as.aSegtree :=
    (dropWhile_sublist _).subset hs
  rw [asGapSearch]
  cases args.dir with
  | lo =>
    obtain ⟨seglast, heq, hlast⟩ := hfind args.base
    simp only [asGapLowest, heq]
    cases seglast with
    | none => exact ⟨none, none, rfl, nofun, nofun⟩
    | some seg =>
      refine ⟨some seg, _, rfl, hlast, ?_⟩
      intro hit hhit
      exact asGapUp_mem (fun s hs => htake seg s (mem_of_getLast? hs)) (hdrop seg) hhit
  | hi =>
    obtain ⟨seglast, heq, hlast⟩ :=
      hfind (asGapHibound as args.minlen (addrAdd w args.base args.len))
    simp only [asGapHighest, heq]
    cases seglast with
    | none => exact ⟨none, none, rfl, nofun, nofun⟩
    | some seg =>
      have hbelow (s : Seg) (hs : s ∈ (as.aSegtree.takeWhile (· ≠ seg)).reverse) :
          s ∈ as.aSegtree := htake seg s (mem_reverse.mp hs)
      simp only
      split
      · refine ⟨some seg, _, rfl, hlast, ?_⟩
        intro hit hhit
        have hdown (s : Seg) (hs : s ∈ seg :: (as.aSegtree.takeWhile (· ≠ seg)).reverse) :
            s ∈ as.aSegtree := by
          rcases mem_cons.mp hs with rfl | hs
          · exact hlast s rfl
          · exact hbelow s hs
        exact asGapDown_mem (fun _ hs => by cases hs) hdown hhit
      · refine ⟨some seg, _, rfl, hlast, ?_⟩
        intro hit hhit
        exact asGapDown_mem hlast hbelow hhit

theorem AsInv.gap (hinv : AsInv w as) (args : GapArgs) :
    AsInv w (asGap w as args).1 ∧ (asGap w as args).1.aSegtree = as.aSegtree := by
  rw [asGap]
  split
  next => exact ⟨hinv, rfl⟩
  next =>
    obtain ⟨seglast, hit, heq, hlast, hmem⟩ := asGapSearch_spec hinv args
    rw [heq]
    cases hit with
    | none => exact ⟨⟨hinv.segs, hlast, hinv.lastgap, hinv.lastgaphl⟩, rfl⟩
    | some h =>
      obtain ⟨hhi, hlo⟩ := hmem h rfl
      refine ⟨⟨hinv.segs, hlast, ?_, ?_⟩, rfl⟩
      · intro s hs
        simp only at hs
        split at hs
        · exact hhi s hs
        · exact hinv.lastgap s hs
      · intro s hs
        rcases or_eq_some_iff.mp hs with hs | ⟨-, hs⟩
        · exact hhi s hs
        · exact hlo s hs

/-! ## Calls -/

/-- What the caller promises: a new segment is not empty and does not wrap, and a segment that is
removed is one of the tree. -/
def AsOp.Legal (w : ℕ) (as : AddrSpace) : AsOp → Prop
  | .add newseg => newseg.Valid w
  | .remove seg => seg ∈ as.aSegtree
  | .gap _ => True

/-- The segments are in order after the call, and a segment was added exactly if it overlaps none.
-/
def AsOp.Right (w : ℕ) (as : AddrSpace) (op : AsOp) : Prop :=
  SegsOk w (as.step w op).aSegtree ∧
    match op with
    | .add newseg => AddRight w as newseg
    | _ => True

def AsOp.Fits (as : AddrSpace) : AsOp → Prop
  | .add newseg => AddFits as newseg
  | _ => True

/-- Along the calls, `P` holds of each one and the space it is made in. -/
def AsRunAll (w : ℕ) (P : AddrSpace → AsOp → Prop) : AddrSpace → List AsOp → Prop
  | _, [] => True
  | as, op :: ops => P as op ∧ AsRunAll w P (as.step w op) ops

theorem AsInv.step (hinv : AsInv w as) {op : AsOp} (hlegal : op.Legal w as) (hfits : op.Fits as) :
    AsInv w (as.step w op) := by
  cases op with
  | add newseg => exact (asAddseg_right_iff hinv hlegal).2 hfits
  | remove seg => exact hinv.remove hlegal
  | gap args => exact (hinv.gap args).1

theorem AsInv.right_iff (hinv : AsInv w as) {op : AsOp} (hlegal : op.Legal w as) :
    op.Right w as ↔ op.Fits as := by
  constructor
  · rintro ⟨-, hright⟩
    cases op with
    | add newseg => exact (asAddseg_right_iff hinv hlegal).1.mp hright
    | _ => trivial
  · intro hfits
    refine ⟨(hinv.step hlegal hfits).segs, ?_⟩
    cases op with
    | add newseg => exact (asAddseg_right_iff hinv hlegal).1.mpr hfits
    | _ => trivial

theorem AsInv.run (hinv : AsInv w as) {ops : List AsOp}
    (hlegal : AsRunAll w (fun as op => op.Legal w as) as ops)
    (hfits : AsRunAll w (fun as op => op.Fits as) as ops) : AsInv w (as.run w ops) := by
  induction ops generalizing as with
  | nil => exact hinv
  | cons op ops ih => exact ih (hinv.step hlegal.1 hfits.1) hlegal.2 hfits.2

theorem AsInv.runRight_iff (hinv : AsInv w as) {ops : List AsOp}
    (hlegal : AsRunAll w (fun as op => op.Legal w as) as ops) :
    AsRunAll w (fun as op => op.Right w as) as ops ↔
      AsRunAll w (fun as op => op.Fits as) as ops := by
  induction ops generalizing as with
  | nil => exact Iff.rfl
  | cons op ops ih =>
    have hop := hinv.right_iff hlegal.1
    constructor
    · rintro ⟨hright, hrest⟩
      have hfits := hop.mp hright
      exact ⟨hfits, (ih (hinv.step hlegal.1 hfits) hlegal.2).mp hrest⟩
    · rintro ⟨hfits, hrest⟩
      exact ⟨hop.mpr hfits, (ih (hinv.step hlegal.1 hfits) hlegal.2).mpr hrest⟩

/-- Over any sequence of calls on a new address space: every call leaves the segments disjoint and
in order and every addition is decided rightly exactly when no segment that overlaps is inserted
beside the segment `as_gap` has left. -/
theorem asRun_right_iff {ops : List AsOp}
    (hlegal : AsRunAll w (fun as op => op.Legal w as) .empty ops) :
    AsRunAll w (fun as op => op.Right w as) .empty ops ↔
      AsRunAll w (fun as op => op.Fits as) .empty ops :=
  asInv_empty.runRight_iff hlegal

/-- Two segments, and a search for a hole that ends between them. -/
def twoSegs : List AsOp :=
  [.add ⟨0x1000, 0x2000⟩, .add ⟨0x8000, 0x1000⟩, .gap ⟨0x1000, 0x1000, 0x8000, .lo, none⟩]

/-- After the search a segment that overlaps the lower one is accepted. -/
theorem asAddseg_overlaps :
    AsRunAll 32 (fun as op => op.Legal 32 as) .empty (twoSegs ++ [.add ⟨0x2000, 0x1000⟩]) ∧
    Overlaps (AddrSpace.run 32 .empty twoSegs).aSegtree ⟨0x2000, 0x1000⟩ ∧
    (asAddseg 32 (AddrSpace.run 32 .empty twoSegs) ⟨0x2000, 0x1000⟩).2 = true ∧
    (AddrSpace.run 32 .empty (twoSegs ++ [.add ⟨0x2000, 0x1000⟩])).aSegtree
      = [⟨0x1000, 0x2000⟩, ⟨0x2000, 0x1000⟩, ⟨0x8000, 0x1000⟩] := by
  refine ⟨?_, ⟨⟨0x1000, 0x2000⟩, by decide, by decide⟩, by decide, by decide⟩
  simp only [AsRunAll, twoSegs, cons_append, nil_append, AsOp.Legal, Seg.Valid]
  decide

/-- A segment in the hole that was found. -/
theorem asRun_right_hole :
    AsRunAll 32 (fun as op => op.Right 32 as) .empty (twoSegs ++ [.add ⟨0x4000, 0x1000⟩]) := by
  have hlegal : AsRunAll 32 (fun as op => op.Legal 32 as) .empty
      (twoSegs ++ [.add ⟨0x4000, 0x1000⟩]) := by
    simp only [AsRunAll, twoSegs, cons_append, nil_append, AsOp.Legal, Seg.Valid]
    decide
  have hfits : AsRunAll 32 (fun as op => op.Fits as) .empty
      (twoSegs ++ [.add ⟨0x4000, 0x1000⟩]) := by
    simp only [AsRunAll, twoSegs, cons_append, nil_append, AsOp.Fits, AddFits, Overlaps]
    decide
  exact (asRun_right_iff hlegal).mpr hfits

end Polaris
