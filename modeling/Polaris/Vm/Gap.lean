import Polaris.Vm.Segments

/-!
# The hole that `as_gap` finds

The holes of an address space are what lies below, between and above its segments.  Upwards `as_gap`
returns the first hole that is long enough within the range.  Downwards it starts at the segment
remembered from an earlier search if the size test allows it, and then a hole above that segment is
not looked at: the answer is right exactly when there is none that would do.

## Main definitions

* `holesFrom`, `clippedHoles` — the holes, and their parts within a range.
* `BestGap` — the answer `as_gap` should give.
* `HintRight` — the remembered segment hides no hole.
-/

namespace Polaris

open List Option

variable {w : ℕ}

/-! ## Holes -/

/-- The holes from `lo` upwards around the segments, up to `top`; the last one may have no end. -/
def holesFrom (lo : ℕ) (top : Option ℕ) : List Seg → List (ℕ × Option ℕ)
  | [] => [(lo, top)]
  | seg :: t => (lo, some seg.sBase) :: holesFrom (seg.sBase + seg.sSize) top t

/-- The part of a hole between two bounds; it is empty if its end is not above its start. -/
def clipHole (lobound hibound : ℕ) (hole : ℕ × Option ℕ) : ℕ × ℕ :=
  (max hole.1 lobound, min (hole.2.getD hibound) hibound)

/-- The holes of the tree, clipped to a range. -/
def clippedHoles (t : List Seg) (base len : ℕ) : List (ℕ × ℕ) :=
  (holesFrom 0 none t).map (clipHole base (base + len))

/-- The range is long enough. -/
def LongEnough (minlen : ℕ) (range : ℕ × ℕ) : Prop :=
  range.1 + minlen ≤ range.2

instance (minlen : ℕ) (range : ℕ × ℕ) : Decidable (LongEnough minlen range) :=
  inferInstanceAs (Decidable (_ ≤ _))

/-- The first address is found no later than the second. -/
def GapDir.Before (dir : GapDir) (a b : ℕ) : Prop :=
  match dir with
  | .lo => a ≤ b
  | .hi => b ≤ a

/-- No hole is long enough, or the answer is the lowest or the highest that is. -/
def BestGap (dir : GapDir) (holes : List (ℕ × ℕ)) (minlen : ℕ) : Option (ℕ × ℕ) → Prop
  | none => ∀ hole ∈ holes, ¬ LongEnough minlen hole
  | some (base, len) => ∃ hole ∈ holes, LongEnough minlen hole ∧ base = hole.1 ∧
      len = hole.2 - hole.1 ∧
      ∀ hole' ∈ holes, LongEnough minlen hole' → dir.Before hole.1 hole'.1

/-- The first range that is long enough, as base and length. -/
def firstFit (minlen : ℕ) (holes : List (ℕ × ℕ)) : Option (ℕ × ℕ) :=
  (holes.find? fun hole => LongEnough minlen hole).map fun hole => (hole.1, hole.2 - hole.1)

theorem holesFrom_append (lo : ℕ) (top : Option ℕ) (xs : List Seg) (seg : Seg) (ys : List Seg) :
    holesFrom lo top (xs ++ seg :: ys)
      = holesFrom lo (some seg.sBase) xs ++ holesFrom (seg.sBase + seg.sSize) top ys := by
  induction xs generalizing lo with
  | nil => rfl
  | cons x xs ih => rw [cons_append, holesFrom, ih, holesFrom, cons_append]

variable {t : List Seg} {minlen : ℕ} {lseg hseg : Option Seg}

/-- The holes lie above the start and below the top. -/
theorem mem_holesFrom {lo : ℕ} {top : Option ℕ} (h : SegsOk w t) (hlo : ∀ seg ∈ t, lo ≤ seg.sBase)
    {hole : ℕ × Option ℕ} (hhole : hole ∈ holesFrom lo top t) :
    lo ≤ hole.1 ∧ (hole.2 = top ∨ ∃ seg ∈ t, hole.2 = some seg.sBase) := by
  induction t generalizing lo with
  | nil =>
    rw [holesFrom, mem_singleton] at hhole
    subst hhole
    exact ⟨le_rfl, .inl rfl⟩
  | cons seg t ih =>
    rcases mem_cons.mp hhole with rfl | hhole
    · exact ⟨le_rfl, .inr ⟨seg, mem_cons_self, rfl⟩⟩
    have := hlo seg mem_cons_self
    obtain ⟨hle, htop⟩ := ih h.tail (fun s hs => h.head_le hs) hhole
    refine ⟨by omega, htop.imp_right ?_⟩
    rintro ⟨s, hs, heq⟩
    exact ⟨s, mem_cons_of_mem _ hs, heq⟩

section Around

variable {seg : Seg} {ys : List Seg} (h : SegsOk w (t ++ seg :: ys)) {hole : ℕ × Option ℕ}

include h

/-- Below a segment every hole ends at it or further down. -/
theorem SegsOk.holes_below (hhole : hole ∈ holesFrom 0 (some seg.sBase) t) :
    ∃ b, hole.2 = some b ∧ b ≤ seg.sBase := by
  rcases (mem_holesFrom h.left (fun _ _ => Nat.zero_le _) hhole).2 with heq | ⟨s, hs, heq⟩
  · exact ⟨_, heq, le_rfl⟩
  · have := h.cross s hs seg mem_cons_self
    exact ⟨s.sBase, heq, by omega⟩

/-- Above it every hole begins where it ends or further up. -/
theorem SegsOk.holes_above (hhole : hole ∈ holesFrom (seg.sBase + seg.sSize) none ys) :
    seg.sBase + seg.sSize ≤ hole.1 :=
  (mem_holesFrom h.right.tail (fun _ hs => h.right.head_le hs) hhole).1

end Around

theorem pairwise_holesFrom {lo : ℕ} {top : Option ℕ} (h : SegsOk w t)
    (hlo : ∀ seg ∈ t, lo ≤ seg.sBase) : (holesFrom lo top t).Pairwise fun x y => x.1 ≤ y.1 := by
  induction t generalizing lo with
  | nil => exact pairwise_singleton _ _
  | cons seg t ih =>
    refine pairwise_cons.mpr ⟨?_, ih h.tail fun s hs => h.head_le hs⟩
    intro hole hhole
    have := hlo seg mem_cons_self
    have := (mem_holesFrom h.tail (fun s hs => h.head_le hs) hhole).1
    simp only
    omega

/-! ## The first that fits -/

theorem firstFit_append {xs ys : List (ℕ × ℕ)} (h : ∀ hole ∈ xs, ¬ LongEnough minlen hole) :
    firstFit minlen (xs ++ ys) = firstFit minlen ys := by
  have hnone : xs.find? (fun hole => LongEnough minlen hole) = none := by
    rw [find?_eq_none]
    intro hole hhole
    simpa using h hole hhole
  rw [firstFit, find?_append, hnone, none_or, firstFit]

theorem firstFit_eq_none {holes : List (ℕ × ℕ)} (h : ∀ hole ∈ holes, ¬ LongEnough minlen hole) :
    firstFit minlen holes = none := by
  have hnil : firstFit minlen (holes ++ []) = firstFit minlen [] := firstFit_append h
  rwa [append_nil] at hnil

theorem firstFit_cons (hole : ℕ × ℕ) (holes : List (ℕ × ℕ)) :
    firstFit minlen (hole :: holes)
      = if hole.1 + minlen ≤ hole.2 then some (hole.1, hole.2 - hole.1)
        else firstFit minlen holes := by
  rw [firstFit, find?_cons]
  by_cases h : hole.1 + minlen ≤ hole.2 <;> simp [LongEnough, h, firstFit]

theorem GapDir.Before.refl (dir : GapDir) (a : ℕ) : dir.Before a a := by
  cases dir <;> exact Nat.le_refl a

/-- In a list in the order of the search the first that fits is the best. -/
theorem bestGap_firstFit {dir : GapDir} {search holes : List (ℕ × ℕ)}
    (hmem : ∀ hole, hole ∈ search ↔ hole ∈ holes)
    (hord : search.Pairwise fun x y => dir.Before x.1 y.1) :
    BestGap dir holes minlen (firstFit minlen search) := by
  rw [firstFit]
  cases hfind : search.find? fun hole => LongEnough minlen hole with
  | none =>
    intro hole hhole
    simpa using find?_eq_none.mp hfind hole ((hmem hole).mpr hhole)
  | some hole =>
    obtain ⟨hfits, xs, ys, rfl, hxs⟩ := find?_eq_some_iff_append.mp hfind
    refine ⟨hole, (hmem hole).mp (mem_of_find?_eq_some hfind), by simpa using hfits, rfl,
      rfl, ?_⟩
    intro hole' hhole' hfits'
    rcases mem_append.mp ((hmem hole').mpr hhole') with hx | hy
    · exact absurd hfits' (by simpa using hxs hole' hx)
    · rcases mem_cons.mp hy with rfl | hy
      · exact GapDir.Before.refl dir _
      · exact rel_of_pairwise_cons (pairwise_append.mp hord).2.1 hy

/-! ## One hole -/

theorem addrSub_eq {a b : ℕ} (hle : b ≤ a) (ha : a < 2 ^ w) : addrSub w a b = a - b := by
  have hsum : a + 2 ^ w - b = (a - b) + 2 ^ w := by omega
  rw [addrSub, hsum, Nat.add_mod_right, Nat.mod_eq_of_lt (by omega)]

theorem validVaRange_eq {a b : ℕ} (hle : b ≤ a) (ha : a < 2 ^ w) :
    validVaRange w b (a - b) minlen = if a - b < minlen then none else some (a - b) := by
  have hhi : addrAdd w b (a - b) = a := by
    rw [addrAdd, Nat.add_sub_cancel' hle, Nat.mod_eq_of_lt ha]
  simp only [validVaRange, hhi, addrSub_eq hle ha]
  rw [if_neg (not_lt.mpr hle)]

/-- The hole between two neighbours. -/
def holeBetween (w : ℕ) (lseg hseg : Option Seg) : ℕ × Option ℕ :=
  (gapLo w lseg, hseg.map Seg.sBase)

theorem clipHole_between (w lobound hibound : ℕ) (lseg hseg : Option Seg) :
    clipHole lobound hibound (holeBetween w lseg hseg)
      = (max (gapLo w lseg) lobound, min (gapHi hibound hseg) hibound) := by
  cases hseg <;> rfl

/-- The range of a hole that is returned. -/
def GapHit.range (hit : GapHit) : ℕ × ℕ :=
  (hit.base, hit.len)

section Loop

variable {args : GapArgs} {lobound hibound : ℕ} (hmin : 0 < args.minlen)
  (hcontain : args.contain = none) (hhi : hibound < 2 ^ w)

include hcontain hhi hmin

/-- One turn of the loops: a hole that is long enough is returned, another one is left, for the next
one or for good. -/
theorem asGapHole_firstFit {rest : List (ℕ × ℕ)} {next : Option GapHit}
    (hbounds : lobound ≤ hibound ∨ gapHi hibound hseg ≤ hibound)
    (horder : gapLo w lseg ≤ hibound → gapLo w lseg ≤ gapHi hibound hseg)
    (hstop : (args.dir = .lo ∧ hibound < gapLo w lseg) ∨
      (args.dir = .hi ∧ gapHi hibound hseg < lobound) →
        ∀ hole ∈ rest, ¬ LongEnough args.minlen hole)
    (hnext : ¬ (args.dir = .hi ∧ gapHi hibound hseg < lobound) →
      next.map GapHit.range = firstFit args.minlen rest) :
    (match asGapHole w args lobound hibound lseg hseg with
      | .hit base len => some ⟨base, len, lseg, hseg⟩
      | .stop => none
      | .cont => next : Option GapHit).map GapHit.range
      = firstFit args.minlen (clipHole lobound hibound (holeBetween w lseg hseg) :: rest) := by
  rw [firstFit_cons, clipHole_between]
  simp only [asGapHole, ← max_def_lt, ← min_def_lt', hcontain, all_none, if_true]
  by_cases h : (args.dir = .lo ∧ hibound < gapLo w lseg) ∨
      (args.dir = .hi ∧ gapHi hibound hseg < lobound)
  · rw [if_pos h, if_neg (by omega), firstFit_eq_none (hstop h)]
    rfl
  have hnext := hnext fun hhi => h (.inr hhi)
  rw [if_neg h]
  by_cases hout : gapLo w lseg > hibound ∨ gapHi hibound hseg < lobound
  · rw [if_pos hout, if_neg (by omega)]
    exact hnext
  rw [if_neg hout, addrSub_eq (by omega) (by omega), validVaRange_eq (by omega) (by omega)]
  by_cases hlen : min (gapHi hibound hseg) hibound - max (gapLo w lseg) lobound < args.minlen
  · rw [if_pos hlen, if_neg (by omega)]
    exact hnext
  · rw [if_neg hlen, if_pos (by omega)]
    rfl

/-! ## The loops -/

/-- The loop upwards finds the first hole that is long enough. -/
theorem asGapUp_eq (hdir : args.dir = .lo) (hbounds : lobound ≤ hibound) {up : List Seg}
    (hok : SegsOk w up) (hlseg : ∀ s ∈ up, gapLo w lseg ≤ s.sBase) :
    (asGapUp w args lobound hibound lseg up).map GapHit.range
      = firstFit args.minlen
        ((holesFrom (gapLo w lseg) none up).map (clipHole lobound hibound)) := by
  induction up generalizing lseg with
  | nil =>
    have hend : (none : Option GapHit).map GapHit.range = firstFit args.minlen [] := rfl
    have horder (h : gapLo w lseg ≤ hibound) : gapLo w lseg ≤ gapHi hibound none := h
    refine Eq.trans ?_ (asGapHole_firstFit hmin hcontain hhi (.inl hbounds) horder
      (fun _ _ h => absurd h not_mem_nil) fun _ => hend)
    rw [asGapUp]
    cases asGapHole w args lobound hibound lseg none <;> rfl
  | cons hseg up ih =>
    have hend : gapLo w (some hseg) = hseg.sBase + hseg.sSize :=
      (hok.valid hseg mem_cons_self).end_eq
    have hstart := hlseg hseg mem_cons_self
    have hnext : ∀ s ∈ up, gapLo w (some hseg) ≤ s.sBase := by
      intro s hs
      rw [hend]
      exact hok.head_le hs
    rw [holesFrom, ← hend]
    refine asGapHole_firstFit hmin hcontain hhi (.inl hbounds) (fun _ => hstart) ?_
      fun _ => ih hok.tail hnext
    -- the loop has passed the upper bound, and so have the holes that are left
    intro hstop _ hclipped
    obtain ⟨hole, hhole, rfl⟩ := mem_map.mp hclipped
    have hle := (mem_holesFrom hok.tail hnext hhole).1
    simp only [hdir, reduceCtorEq, false_and, or_false, true_and] at hstop
    simp only [clipHole, LongEnough]
    omega

/-- The loop downwards finds the last one. -/
theorem asGapDown_eq (hdir : args.dir = .hi)
    (hbounds : lobound ≤ hibound ∨ gapHi hibound hseg ≤ hibound) {down : List Seg}
    (hok : SegsOk w down.reverse) (hhseg : ∀ h ∈ hseg, ∀ s ∈ down, s.sBase + s.sSize ≤ h.sBase) :
    (asGapDown w args lobound hibound hseg down).map GapHit.range
      = firstFit args.minlen
        ((holesFrom 0 (hseg.map Seg.sBase) down.reverse).reverse.map
          (clipHole lobound hibound)) := by
  induction down generalizing hseg with
  | nil =>
    have hend : (none : Option GapHit).map GapHit.range = firstFit args.minlen [] := rfl
    have horder (_ : gapLo w none ≤ hibound) : gapLo w none ≤ gapHi hibound hseg := Nat.zero_le _
    refine Eq.trans ?_ (asGapHole_firstFit hmin hcontain hhi hbounds horder
      (fun _ _ h => absurd h not_mem_nil) fun _ => hend)
    rw [asGapDown]
    cases asGapHole w args lobound hibound none hseg <;> rfl
  | cons lseg down ih =>
    have hrev : (lseg :: down).reverse = down.reverse ++ lseg :: [] := reverse_cons
    rw [hrev] at hok
    have hend : gapLo w (some lseg) = lseg.sBase + lseg.sSize :=
      (hok.valid lseg (mem_append_right _ mem_cons_self)).end_eq
    have hbelow : ∀ h ∈ some lseg, ∀ s ∈ down, s.sBase + s.sSize ≤ h.sBase := by
      rintro h ⟨⟩ s hs
      exact hok.cross s (mem_reverse.mpr hs) lseg mem_cons_self
    have htop : gapLo w (some lseg) ≤ gapHi hibound hseg ∨ gapHi hibound hseg = hibound := by
      cases hseg with
      | none => exact .inr rfl
      | some h => exact .inl (hend ▸ hhseg h rfl lseg mem_cons_self)
    rw [hrev, holesFrom_append, reverse_append, ← hend]
    refine asGapHole_firstFit hmin hcontain hhi hbounds (by omega) ?_
      fun hgo => ih (.inl ?_) hok.left hbelow
    · -- the loop has passed the lower bound, and so have the holes that are left
      intro hstop _ hclipped
      obtain ⟨hole, hhole, rfl⟩ := mem_map.mp hclipped
      obtain ⟨b, hb, hble⟩ := hok.holes_below (mem_reverse.mp hhole)
      simp only [hdir, reduceCtorEq, false_and, false_or, true_and] at hstop
      simp only [clipHole, LongEnough, hb, getD_some]
      omega
    · rw [not_and] at hgo
      have := hgo hdir
      omega

end Loop

/-! ## The search -/

/-- The segment a search starts from, with what is below and above it. -/
theorem SegSplit.found_split {lo hi : List Seg} {addr : ℕ} {mid : Option Seg}
    (h : SegSplit t addr lo mid hi) (hne : t ≠ []) :
    ∃ before hseg after, t = before ++ hseg :: after ∧ SegSplit.found lo mid hi = some hseg ∧
      (∀ s ∈ before, s ∈ lo) ∧ (hseg.sBase + hseg.sSize < addr → after = []) := by
  cases mid with
  | some seg =>
    refine ⟨lo, seg, hi, h.eq, rfl, fun s hs => hs, fun hlt => ?_⟩
    have := h.here seg rfl
    omega
  | none =>
    cases hi with
    | cons seg hi =>
      refine ⟨lo, seg, hi, h.eq, rfl, fun s hs => hs, fun hlt => ?_⟩
      have := h.above seg mem_cons_self
      omega
    | nil =>
      have ht : t = lo := by simpa using h.eq
      subst ht
      refine ⟨t.dropLast, t.getLast hne, [], ?_, ?_, fun s hs => (dropLast_sublist t).subset hs,
        fun _ => rfl⟩
      · rw [dropLast_concat_getLast]
      · simp [SegSplit.found, getLast?_eq_some_getLast hne]

section Search

variable {as : AddrSpace} (hinv : AsInv w as) (hne : as.aSegtree ≠ []) {args : GapArgs}
  {lobound hibound : ℕ} (hmin : 0 < args.minlen) (hcontain : args.contain = none)
  (hhi : hibound < 2 ^ w)

include hinv hne hmin hcontain hhi

theorem asGapLowest_eq (hdir : args.dir = .lo) (hbounds : lobound ≤ hibound) :
    (asGapLowest w as args lobound hibound).2.map GapHit.range
      = firstFit args.minlen ((holesFrom 0 none as.aSegtree).map (clipHole lobound hibound)) := by
  obtain ⟨lo, mid, hi, hsplit⟩ := exists_segSplit hinv.segs lobound
  obtain ⟨before, hseg, after, ht, hfound, hbefore, -⟩ := hsplit.found_split hne
  have hok := hinv.segs
  have hnodup := hinv.segs.nodup
  rw [ht] at hok hnodup
  have hup := hok.right
  rw [asGapLowest, asFindseg_eq hinv hsplit, hfound]
  simp only [ht, (takeWhile_ne hnodup).2, segPrev_eq hnodup]
  cases hlast : before.getLast? with
  | none =>
    have hnil : before = [] := getLast?_eq_none_iff.mp hlast
    subst hnil
    exact asGapUp_eq hmin hcontain hhi hdir hbounds hup fun _ _ => Nat.zero_le _
  | some lseg =>
    obtain ⟨rest, rfl⟩ := getLast?_eq_some_iff.mp hlast
    have hmem : lseg ∈ rest ++ [lseg] := mem_append_right _ mem_cons_self
    have hvalid := hok.left.valid lseg hmem
    have hlo : gapLo w (some lseg) = lseg.sBase + lseg.sSize := hvalid.end_eq
    have hholes : holesFrom 0 none (rest ++ [lseg] ++ hseg :: after)
        = holesFrom 0 (some lseg.sBase) rest
          ++ holesFrom (gapLo w (some lseg)) none (hseg :: after) := by
      rw [hlo, append_assoc, singleton_append, holesFrom_append]
    rw [asGapUp_eq hmin hcontain hhi hdir hbounds hup, hholes, map_append, firstFit_append]
    · -- the holes further down end below the range
      intro _ hclipped
      obtain ⟨hole, hhole, rfl⟩ := mem_map.mp hclipped
      have hbelow := hsplit.below lseg (hbefore lseg hmem)
      obtain ⟨b, hb, hble⟩ := hok.left.holes_below hhole
      simp only [clipHole, LongEnough, hb, getD_some]
      omega
    · intro s hs
      rw [hlo]
      exact hok.cross lseg hmem s hs

/-- Downwards the range may be empty if it ends where a segment begins. -/
theorem asGapHighest_eq (hdir : args.dir = .hi)
    (hbounds : lobound ≤ hibound ∨ ∃ gap ∈ as.aSegtree, gap.sBase = hibound) :
    (asGapHighest w as args lobound hibound).2.map GapHit.range
      = firstFit args.minlen
        ((holesFrom 0 none as.aSegtree).reverse.map (clipHole lobound hibound)) := by
  obtain ⟨lo, mid, hi, hsplit⟩ := exists_segSplit hinv.segs hibound
  obtain ⟨before, hseg, after, ht, hfound, hbefore, hafter⟩ := hsplit.found_split hne
  have hok := hinv.segs
  have hnodup := hinv.segs.nodup
  rw [ht] at hok hnodup
  have hvalid := hok.valid hseg (mem_append_right _ mem_cons_self)
  rw [asGapHighest, asFindseg_eq hinv hsplit, hfound]
  simp only [ht, (takeWhile_ne hnodup).1, hvalid.end_eq]
  by_cases hlt : hseg.sBase + hseg.sSize < hibound
  · have hnil := hafter hlt
    subst hnil
    have hrev : (hseg :: before.reverse).reverse = before ++ [hseg] := by simp
    rw [if_pos hlt, asGapDown_eq hmin hcontain hhi hdir (.inr le_rfl), hrev]
    · rfl
    · rw [hrev]
      exact hok
    · intro h hnone
      cases hnone
  · have hbounds : lobound ≤ hibound ∨ gapHi hibound (some hseg) ≤ hibound := by
      refine hbounds.imp_right ?_
      rintro ⟨gap, hgap, rfl⟩
      have hmid := hsplit.mid_eq hgap le_rfl (Nat.lt_add_of_pos_right (hinv.segs.valid gap hgap).1)
      rw [SegSplit.found, hmid, some_or, some_or, some_inj] at hfound
      exact (congrArg Seg.sBase hfound).ge
    rw [if_neg hlt, asGapDown_eq hmin hcontain hhi hdir hbounds, reverse_reverse,
      holesFrom_append, reverse_append, map_append, firstFit_append]
    · rfl
    · -- the holes further up begin above the range
      intro _ hclipped
      obtain ⟨hole, hhole, rfl⟩ := mem_map.mp hclipped
      have := hok.holes_above (mem_reverse.mp hhole)
      simp only [clipHole, LongEnough]
      omega
    · rw [reverse_reverse]
      exact hok.left
    · rintro h ⟨⟩ s hs
      exact hok.cross s (mem_reverse.mp hs) hseg mem_cons_self

end Search

/-! ## The answer -/

/-- The remembered segment, if the search starts from it, has no hole above it that is long enough.
-/
def HintRight (as : AddrSpace) (args : GapArgs) : Prop :=
  args.dir = .lo ∨ ∀ gap ∈ as.aLastgap, gap.sSize ≤ args.minlen → gap.sBase ≤ args.base + args.len →
    ∀ hole ∈ clippedHoles as.aSegtree args.base args.len, gap.sBase ≤ hole.1 →
      ¬ LongEnough args.minlen hole

theorem pairwise_clippedHoles (h : SegsOk w t) (base len : ℕ) :
    (clippedHoles t base len).Pairwise fun x y => x.1 ≤ y.1 := by
  refine pairwise_map.mpr ((pairwise_holesFrom h fun _ _ => Nat.zero_le _).imp ?_)
  intro x y hxy
  simp only [clipHole]
  omega

section Answer

variable {as : AddrSpace} (hinv : AsInv w as) {args : GapArgs}
  (hwrap : args.base + args.len < 2 ^ w) (hmin : 0 < args.minlen) (hcontain : args.contain = none)

include hwrap in
theorem asGap_empty (hnil : as.aSegtree = []) :
    (asGap w as args).2 = firstFit args.minlen (clippedHoles as.aSegtree args.base args.len) := by
  have hlen : args.base + args.len - args.base = args.len := Nat.add_sub_cancel_left _ _
  have hrange : validVaRange w args.base (args.base + args.len - args.base) args.minlen = _ :=
    validVaRange_eq (Nat.le_add_right _ _) hwrap
  have hholes : clippedHoles [] args.base args.len = [(args.base, args.base + args.len)] := by
    simp [clippedHoles, holesFrom, clipHole]
  rw [hlen] at hrange
  rw [asGap, if_pos hnil, hnil, hholes, hrange, firstFit_cons, hlen]
  simp only [Nat.add_le_add_iff_left]
  by_cases hlt : args.len < args.minlen
  · rw [if_pos hlt, if_neg (by omega)]
    rfl
  · rw [if_neg hlt, if_pos (by omega)]
    rfl

omit hinv hwrap hmin hcontain in
theorem asGap_search (hne : as.aSegtree ≠ []) :
    (asGap w as args).2 = (asGapSearch w as args).2.map GapHit.range := by
  rw [asGap, if_neg hne]
  obtain ⟨as', hit⟩ := asGapSearch w as args
  cases hit <;> rfl

include hinv hwrap hmin hcontain

theorem asGap_lo (hdir : args.dir = .lo) :
    BestGap .lo (clippedHoles as.aSegtree args.base args.len) args.minlen (asGap w as args).2 := by
  have hanswer : (asGap w as args).2
      = firstFit args.minlen (clippedHoles as.aSegtree args.base args.len) := by
    by_cases hnil : as.aSegtree = []
    · exact asGap_empty hwrap hnil
    · rw [asGap_search hnil, asGapSearch]
      simp only [hdir, addrAdd, Nat.mod_eq_of_lt hwrap]
      exact asGapLowest_eq hinv hnil hmin hcontain hwrap hdir (Nat.le_add_right _ _)
  rw [hanswer]
  exact bestGap_firstFit (fun _ => Iff.rfl) (pairwise_clippedHoles hinv.segs _ _)

omit hwrap hmin hcontain in
/-- The whole range searched downwards. -/
theorem bestGap_hi : BestGap .hi (clippedHoles as.aSegtree args.base args.len) args.minlen
    (firstFit args.minlen (clippedHoles as.aSegtree args.base args.len).reverse) := by
  apply bestGap_firstFit
  · intro hole
    exact mem_reverse
  · exact pairwise_reverse.mpr (pairwise_clippedHoles hinv.segs _ _)

theorem asGap_hi (hdir : args.dir = .hi) (hne : as.aSegtree ≠ []) :
    (asGap w as args).2 = firstFit args.minlen ((holesFrom 0 none as.aSegtree).reverse.map
      (clipHole args.base (asGapHibound as args.minlen (args.base + args.len)))) := by
  have hbound : asGapHibound as args.minlen (args.base + args.len) = args.base + args.len ∨
      ∃ gap ∈ as.aSegtree, gap.sBase ≤ args.base + args.len ∧
        gap.sBase = asGapHibound as args.minlen (args.base + args.len) := by
    rw [asGapHibound]
    split
    next gap hgap =>
      split
      next h => exact .inr ⟨gap, hinv.lastgap gap hgap, h.2, rfl⟩
      next => exact .inl rfl
    next => exact .inl rfl
  rw [asGap_search hne, asGapSearch]
  simp only [hdir, addrAdd, Nat.mod_eq_of_lt hwrap]
  rcases hbound with hbound | ⟨gap, hgap, hle, hbound⟩
  · exact asGapHighest_eq hinv hne hmin hcontain (by omega) hdir (.inl (by omega))
  · exact asGapHighest_eq hinv hne hmin hcontain (by omega) hdir (.inr ⟨gap, hgap, hbound⟩)

/-- From the remembered segment the search sees the holes below it. -/
theorem asGap_hinted (hdir : args.dir = .hi) {gap : Seg} {lo hi : List Seg}
    (ht : as.aSegtree = lo ++ gap :: hi) (hle : gap.sBase ≤ args.base + args.len)
    (hhint : asGapHibound as args.minlen (args.base + args.len) = gap.sBase) :
    ∃ below above, clippedHoles as.aSegtree args.base args.len = below ++ above ∧
      (asGap w as args).2 = firstFit args.minlen below.reverse ∧
      (∀ hole ∈ below, LongEnough args.minlen hole → hole.1 < gap.sBase) ∧
      ∀ hole ∈ above, gap.sBase ≤ hole.1 := by
  have hne : as.aSegtree ≠ [] := by
    rw [ht]
    simp
  have hok := hinv.segs
  rw [ht] at hok
  refine ⟨_, _, by rw [clippedHoles, ht, holesFrom_append, map_append], ?_, ?_, ?_⟩
  · rw [asGap_hi hinv hwrap hmin hcontain hdir hne, hhint, ht, holesFrom_append, reverse_append,
      map_append, firstFit_append, ← map_reverse]
    · congr 1
      apply map_congr_left
      intro hole hhole
      obtain ⟨b, hb, hble⟩ := hok.holes_below (mem_reverse.mp hhole)
      simp only [clipHole, hb, getD_some, Prod.mk.injEq, true_and]
      omega
    · intro _ hclipped
      obtain ⟨hole, hhole, rfl⟩ := mem_map.mp hclipped
      have := hok.holes_above (mem_reverse.mp hhole)
      simp only [clipHole, LongEnough]
      omega
  · intro _ hrange hfits
    obtain ⟨hole, hhole, rfl⟩ := mem_map.mp hrange
    obtain ⟨b, hb, hble⟩ := hok.holes_below hhole
    simp only [clipHole, LongEnough, hb, getD_some] at hfits ⊢
    omega
  · intro _ hrange
    obtain ⟨hole, hhole, rfl⟩ := mem_map.mp hrange
    have := hok.holes_above hhole
    simp only [clipHole]
    omega

theorem AsInv.bestGap_hi_iff (hdir : args.dir = .hi) :
    BestGap .hi (clippedHoles as.aSegtree args.base args.len) args.minlen (asGap w as args).2 ↔
      HintRight as args := by
  have hdirection : ¬ args.dir = .lo := by
    rw [hdir]
    exact nofun
  by_cases hhint : ∃ gap ∈ as.aLastgap, gap.sSize ≤ args.minlen ∧ gap.sBase ≤ args.base + args.len
  · obtain ⟨gap, hgap, hsize, hle⟩ := hhint
    obtain ⟨lo, hi, ht⟩ := append_of_mem (hinv.lastgap gap hgap)
    have hbound : asGapHibound as args.minlen (args.base + args.len) = gap.sBase := by
      rw [asGapHibound, mem_def.mp hgap]
      exact if_pos ⟨hsize, hle⟩
    obtain ⟨below, above, hclipped, hanswer, hlower, hupper⟩ :=
      asGap_hinted hinv hwrap hmin hcontain hdir ht hle hbound
    rw [hanswer]
    constructor
    · intro hbest
      refine .inr ?_
      intro gap' hgap' _ _ hole hhole hup hfits
      have heq : gap' = gap := mem_unique hgap' hgap
      subst heq
      cases hfirst : firstFit args.minlen below.reverse with
      | none =>
        rw [hfirst] at hbest
        exact hbest hole hhole hfits
      | some range =>
        rw [hfirst] at hbest
        obtain ⟨hole', -, -, hbase, -, hmax⟩ := hbest
        -- the range is that of a hole below the segment
        rw [firstFit, map_eq_some_iff] at hfirst
        obtain ⟨found, hfound, rfl⟩ := hfirst
        have hmem := mem_reverse.mp (mem_of_find?_eq_some hfound)
        have hlt := hlower found hmem (by simpa using find?_some hfound)
        have hge : hole.1 ≤ hole'.1 := hmax hole hhole hfits
        omega
    · rintro (hlo | hright)
      · exact absurd hlo hdirection
      · have hbest := @bestGap_hi w as hinv args
        rwa [hclipped, reverse_append, firstFit_append, ← hclipped] at hbest
        intro range hrange
        have hmem := mem_reverse.mp hrange
        exact hright gap hgap hsize hle range (hclipped ▸ mem_append_right _ hmem)
          (hupper range hmem)
  · have hbound : asGapHibound as args.minlen (args.base + args.len) = args.base + args.len := by
      rw [asGapHibound]
      split
      next gap hgap =>
        rw [if_neg]
        intro hused
        exact hhint ⟨gap, hgap, hused⟩
      next => rfl
    apply iff_of_true
    · by_cases hnil : as.aSegtree = []
      · have hone : (clippedHoles [] args.base args.len).reverse
            = clippedHoles [] args.base args.len := rfl
        have hbest := @bestGap_hi w as hinv args
        rw [hnil, hone, ← hnil, ← asGap_empty hwrap hnil] at hbest
        exact hbest
      · rw [asGap_hi hinv hwrap hmin hcontain hdir hnil, hbound, map_reverse]
        exact bestGap_hi hinv
    · refine .inr fun gap hgap hsize hle => ?_
      exact absurd ⟨gap, hgap, hsize, hle⟩ hhint

theorem AsInv.bestGap_iff :
    BestGap args.dir (clippedHoles as.aSegtree args.base args.len) args.minlen
      (asGap w as args).2 ↔ HintRight as args := by
  cases hdir : args.dir with
  | lo => exact iff_of_true (asGap_lo hinv hwrap hmin hcontain hdir) (.inl hdir)
  | hi => exact hinv.bestGap_hi_iff hwrap hmin hcontain hdir

end Answer

/-- After any calls that have kept the segments apart, `as_gap` without `AH_CONTAIN` finds the
lowest or the highest hole that is long enough, and finds one if there is one, exactly when the
segment remembered from an earlier search downwards hides none.  If it finds none it leaves `base`
and `len` as they were. -/
theorem asGap_best_iff {ops : List AsOp}
    (hlegal : AsRunAll w (fun as op => op.Legal w as) .empty ops)
    (hfits : AsRunAll w (fun as op => op.Fits as) .empty ops) {args : GapArgs}
    (hwrap : args.base + args.len < 2 ^ w) (hmin : 0 < args.minlen)
    (hcontain : args.contain = none) :
    (BestGap args.dir
        (clippedHoles (AddrSpace.run w .empty ops).aSegtree args.base args.len) args.minlen
        (asGap w (AddrSpace.run w .empty ops) args).2 ↔
      HintRight (AddrSpace.run w .empty ops) args) ∧
      ((asGap w (AddrSpace.run w .empty ops) args).2 = none →
        asGapRange w (AddrSpace.run w .empty ops) args = (args.base, args.len)) := by
  refine ⟨(asInv_empty.run hlegal hfits).bestGap_iff hwrap hmin hcontain, fun hnone => ?_⟩
  rw [asGapRange, hnone, Option.getD_none]

/-- Two segments, and a search downwards in a range below the first. -/
def searchedBelow : List AsOp :=
  [.add ⟨0x2000, 0x1000⟩, .add ⟨0x8000, 0x1000⟩, .gap ⟨0x1000, 0, 0x2800, .hi, none⟩]

/-- The next search, of everything below `0x10000`, does not see the holes above the first segment:
it finds the lowest hole instead of the highest one, or none at all. -/
theorem asGap_hint_hides :
    AsRunAll 32 (fun as op => op.Legal 32 as) .empty searchedBelow ∧
    clippedHoles (AddrSpace.run 32 .empty searchedBelow).aSegtree 0 0x10000
      = [(0, 0x2000), (0x3000, 0x8000), (0x9000, 0x10000)] ∧
    (asGap 32 (AddrSpace.run 32 .empty searchedBelow) ⟨0x1000, 0, 0x10000, .hi, none⟩).2
      = some (0, 0x2000) ∧
    (asGap 32 (AddrSpace.run 32 .empty searchedBelow) ⟨0x3000, 0, 0x10000, .hi, none⟩).2
      = none := by
  refine ⟨?_, by decide, by decide, by decide⟩
  simp only [AsRunAll, searchedBelow, AsOp.Legal, Seg.Valid]
  decide

/-- A short search is not held up by the remembered segment. -/
theorem asGap_best_short :
    BestGap .hi (clippedHoles (AddrSpace.run 32 .empty searchedBelow).aSegtree 0 0x10000) 0x800
      (asGap 32 (AddrSpace.run 32 .empty searchedBelow) ⟨0x800, 0, 0x10000, .hi, none⟩).2 := by
  have hlegal : AsRunAll 32 (fun as op => op.Legal 32 as) .empty searchedBelow := by
    simp only [AsRunAll, searchedBelow, AsOp.Legal, Seg.Valid]
    decide
  have hfits : AsRunAll 32 (fun as op => op.Fits as) .empty searchedBelow := by
    simp only [AsRunAll, searchedBelow, AsOp.Fits, AddFits, Overlaps]
    decide
  have hright : HintRight (AddrSpace.run 32 .empty searchedBelow)
      ⟨0x800, 0, 0x10000, .hi, none⟩ := by
    refine .inr ?_
    intro gap hgap hsize
    have heq : (AddrSpace.run 32 .empty searchedBelow).aLastgap = some ⟨0x2000, 0x1000⟩ := by decide
    rw [heq] at hgap
    cases hgap
    exact absurd hsize (by decide)
  have hwrap : (GapArgs.mk 0x800 0 0x10000 .hi none).base
      + (GapArgs.mk 0x800 0 0x10000 .hi none).len < 2 ^ 32 := by decide
  exact (asGap_best_iff hlegal hfits hwrap (by decide) rfl).1.mpr hright

end Polaris
