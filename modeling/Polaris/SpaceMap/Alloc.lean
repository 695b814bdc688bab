import Mathlib.Data.Nat.Factorization.Basic
import Polaris.SpaceMap.Sync

/-!
# What the allocator does

`space_map_alloc` takes a range out of a loaded map, or reports that it found none.
The range is aligned to the largest power of two that divides its size, and so it
consists of whole units.  The cursors decide where the search begins, so they do not
matter here.

## Main statements

* `spaceMapAlloc_spec`, `spaceMapFree_spec`, `spaceMapUnload_spec`
* `spaceMapRemove_inv`, `spaceMapClaim_inv`
-/

namespace Polaris

open BinTree AvlTree Function Option Finset

/-! ## First fit -/

variable {sm sm' : SpaceMap} {A : Finset ℕ} {size start : ℕ} {s : BinTree Addr}

/-- The segment has room for `size`, as `metaslab_ff_alloc` sees it. -/
def SpaceSeg.Fits (seg : SpaceSeg) (size align : ℕ) : Prop :=
  u64 (p2roundup seg.ssStart align + size) ≤ seg.ssEnd

/-- The scan returns.  What it finds fits into a segment, and if it finds nothing then
no segment from the first one on has room. -/
theorem metaslabFfScan_spec {t : AvlTree SpaceSeg} {heap : ℕ} (h : SegTree t heap s)
    {l₁ l₂ : List Addr}
    (hl : s.inorder = l₁ ++ l₂) {n fuel : ℕ} (hn : l₂.length < n) (hf : s.inorder.length ≤ fuel)
    (size align : ℕ) :
    ∃ r, metaslabFfScan n fuel t (l₂.headD 0) size align = some r ∧
      match r with
      | some offset => ∃ p ∈ s.inorder, offset = p2roundup (t.data p).ssStart align ∧
          (t.data p).Fits size align
      | none => ∀ p ∈ l₂, ¬ (t.data p).Fits size align := by
  induction l₂ generalizing l₁ n with
  | nil =>
    obtain _ | n := n
    · simp at hn
    exact ⟨none, by simp [metaslabFfScan], by simp⟩
  | cons p l₂ ih =>
    obtain _ | n := n
    · simp at hn
    have hp : p ∈ s.inorder := by simp [hl]
    rw [List.headD_cons, metaslabFfScan, if_neg (h.ne_zero hp), h.object hp]
    simp only [bind_eq_bind, bind_some]
    by_cases hfit : u64 (p2roundup (t.data p).ssStart align + size) ≤ (t.data p).ssEnd
    · exact ⟨some (p2roundup (t.data p).ssStart align), if_pos hfit, p, hp, rfl, hfit⟩
    · obtain ⟨r, hrun, hr⟩ := ih (by simp [hl] : s.inorder = (l₁ ++ [p]) ++ l₂)
        (by simp at hn; omega : l₂.length < n)
      refine ⟨r, ?_, ?_⟩
      · rw [if_neg hfit, (avlWalk_neighbour h.valid.linked hl hf).1]
        exact hrun
      · cases r with
        | some offset => exact hr
        | none => exact List.forall_mem_cons.mpr ⟨hfit, hr⟩

/-- A pass from the beginning skips only segments that end below `size`. -/
theorem metaslabFfPass_spec (h : SegTree sm.smRoot sm.heap s) (cursor size align : ℕ) :
    ∃ r, metaslabFfPass sm cursor size align = some r ∧
      match r with
      | some offset => ∃ p ∈ s.inorder, offset = p2roundup (sm.smRoot.data p).ssStart align ∧
          (sm.smRoot.data p).Fits size align
      | none => cursor = 0 → ∀ p ∈ s.inorder, (sm.smRoot.data p).Fits size align →
          (sm.smRoot.data p).ssEnd < u64 size := by
  -- the scan starts at some place in the in-order sequence
  obtain ⟨found, index, l₁, l₂, hl, hfind, hss, hskip⟩ : ∃ found index l₁ l₂, s.inorder = l₁ ++ l₂ ∧
      avlFind sm.fuel sm.smRoot ⟨cursor, u64 (cursor + size)⟩ = some (found, index) ∧
      (if found = 0 then avlNearest sm.fuel sm.smRoot index avlAfter else some found) =
        some (l₂.headD 0) ∧
      (cursor = 0 → ∀ p ∈ l₁, (sm.smRoot.data p).ssEnd < u64 size) := by
    rcases h.find ⟨cursor, u64 (cursor + size)⟩ with ⟨p, hp, -, hlt, hrun⟩ | ⟨k, hk,
      hrun, hbelow, -⟩
    · obtain ⟨l₁, l₂, hl⟩ := List.append_of_mem hp
      refine ⟨p, 0, l₁, p :: l₂, hl, hrun, if_neg (h.ne_zero hp), ?_⟩
      rintro rfl q hq
      have hsep := List.pairwise_map.mp h.separated.2
      rw [hl] at hsep
      have := (List.pairwise_append.mp hsep).2.2 q hq p List.mem_cons_self
      simp only [SpaceSeg.range, Nat.zero_add] at this hlt
      omega
    · refine ⟨0, indexOf k, before k, after k, by simp [hk, inorder_plug], hrun,
        (if_pos rfl).trans (h.nearest hk).2, ?_⟩
      rintro rfl q hq
      have := h.nonempty (p := q) (by simp [hk, inorder_plug, hq])
      have := hbelow q hq
      simp only at this
      omega
  have hlen : l₂.length < sm.fuel := by
    have hfuel := h.fuel
    rw [hl, List.length_append] at hfuel
    exact lt_of_le_of_lt (Nat.le_add_left ..) hfuel
  obtain ⟨r, hrun, hr⟩ := metaslabFfScan_spec h hl hlen h.fuel.le size align
  refine ⟨r, bind_of_some hfind (bind_of_some hss hrun), ?_⟩
  cases r with
  | some offset => exact hr
  | none =>
    intro hzero p hp hfit
    rw [hl, List.mem_append] at hp
    exact hp.elim (hskip hzero p) fun hp => absurd hfit (hr p hp)

/-- A range of units in the set. -/
theorem SpaceMap.Rep.range_of_subset (h : sm.Rep A) (hpos : 0 < size)
    (hsub : Ico start (start + size) ⊆ A) (hstart : 2 ^ sm.smShift ∣ start)
    (hsize : 2 ^ sm.smShift ∣ size) : sm.Range start size := by
  have hlow := mem_Ico.mp (h.inside (hsub (mem_Ico.mpr ⟨le_rfl, by omega⟩)))
  have hup := mem_Ico.mp (h.inside (hsub
    (mem_Ico.mpr ⟨(by omega : start ≤ start + size - 1), by omega⟩)))
  exact ⟨hpos, hlow.1, by omega, hstart, hsize⟩

theorem two_pow_dvd_of_dvd_mul_odd {j k q : ℕ} (h : 2 ^ j ∣ 2 ^ k * (2 * q + 1)) : 2 ^ j ∣ 2 ^ k :=
  have hodd := (Nat.coprime_mul_left_add_right 2 1 q).mpr (by decide)
  Nat.Coprime.dvd_of_dvd_mul_right (Nat.Coprime.pow_left _ hodd) h

section

variable (h : sm.Rep A)

include h

/-- The first aligned place in a segment, and whether there is room for `size` from it on.  A range
that is aligned so fits between the end of the map and `2 ^ 64`. -/
theorem SpaceMap.Rep.roundup (htree : SegTree sm.smRoot sm.heap s)
    (hcover : cover (segs sm.smRoot s.inorder) = A) {k m : ℕ} (hk : k < 64) (hpow : 2 ^ k ≤ size)
    (hm : 2 ^ k ∣ m) (hend : sm.smStart + sm.smSize ≤ m) (hroom : m + size < 2 ^ 64)
    {p : Addr} (hp : p ∈ s.inorder) :
    let seg := sm.smRoot.data p
    seg.ssStart ≤ p2roundup seg.ssStart (2 ^ k) ∧ 2 ^ k ∣ p2roundup seg.ssStart (2 ^ k) ∧
      (∀ m, 2 ^ k ∣ m → seg.ssStart ≤ m → p2roundup seg.ssStart (2 ^ k) ≤ m) ∧
      (seg.Fits size (2 ^ k) ↔ p2roundup seg.ssStart (2 ^ k) + size ≤ seg.ssEnd) := by
  have hseg := htree.separated.range (hcover ▸ h.inside) (hcover ▸ h.blocks) (mem_segs_of_mem hp)
  have hupper := hseg.upper
  simp only [SpaceSeg.range] at hupper
  obtain ⟨hle, -, hdvd⟩ := p2roundup_spec (x := (sm.smRoot.data p).ssStart) hk (by omega)
  have hleast (m : ℕ) (hm : 2 ^ k ∣ m) (hx : (sm.smRoot.data p).ssStart ≤ m) :=
    p2roundup_le hk (by omega) hm hx
  have hmax := hleast m hm (by omega)
  exact ⟨hle, hdvd, hleast, by rw [SpaceSeg.Fits, u64_of_lt (by omega)]⟩

variable {ppd : Fin 64 → ℕ} (hppd : sm.smPpd = some ppd)

include hppd

/-- One round of `metaslab_ff_alloc`: it finds an aligned range of the set, and if it
starts at the beginning and finds none then there is none. -/
theorem metaslabFfAllocLoop_succ {k q m : ℕ} (hk : k < 32) (hm : 2 ^ k ∣ m)
    (hend : sm.smStart + sm.smSize ≤ m) (hroom : m + 2 ^ k * (2 * q + 1) < 2 ^ 64) :
    let i : Fin 64 := ⟨k, by omega⟩
    ∃ r : Option ℕ, (match r with
        | some offset => 2 ^ k ∣ offset ∧ Ico offset (offset + 2 ^ k * (2 * q + 1)) ⊆ A
        | none => ppd i = 0 → ∀ a, 2 ^ k ∣ a → ¬ Ico a (a + 2 ^ k * (2 * q + 1)) ⊆ A) ∧
      ∀ n, metaslabFfAllocLoop (n + 1) sm (2 ^ k * (2 * q + 1)) = match r with
        | some offset => some (offset, { sm with
            smPpd := some (update ppd i (u64 (offset + 2 ^ k * (2 * q + 1)))) })
        | none => if ppd i = 0 then some (minusOne, sm)
          else metaslabFfAllocLoop n { sm with smPpd := some (update ppd i 0) }
            (2 ^ k * (2 * q + 1)) := by
  intro i
  obtain ⟨s, htree, hcover⟩ := h.tree
  have hbit : highbit (2 ^ k) = k + 1 := by
    rw [highbit, Nat.mod_eq_of_lt (Nat.pow_lt_pow_right (by norm_num) hk), Nat.size_pow]
  have hpow : 2 ^ k ≤ 2 ^ k * (2 * q + 1) := Nat.le_mul_of_pos_right _ (by omega)
  have hroundup {p : Addr} (hp : p ∈ s.inorder) :=
    h.roundup htree hcover (by omega) hpow hm hend hroom hp
  obtain ⟨r, hrun, hr⟩ := metaslabFfPass_spec htree (ppd ⟨k, by omega⟩)
    (2 ^ k * (2 * q + 1)) (2 ^ k)
  refine ⟨r, ?_, fun n => ?_⟩
  · cases r with
    | some offset =>
      obtain ⟨p, hp, rfl, hfit⟩ := hr
      obtain ⟨hle, hdvd, -, hiff⟩ := hroundup hp
      refine ⟨hdvd, ?_⟩
      rw [← hcover, htree.separated.subset_cover_iff (by omega)]
      exact ⟨_, mem_segs_of_mem hp, hle, hiff.mp hfit⟩
    | none =>
      intro hzero a ha hsub
      rw [← hcover, htree.separated.subset_cover_iff (by omega)] at hsub
      obtain ⟨seg, hseg, hle, hend⟩ := hsub
      obtain ⟨p, hp, rfl⟩ := List.mem_map.mp hseg
      obtain ⟨-, -, hleast, hiff⟩ := hroundup hp
      have := hleast a ha hle
      simp only [SpaceSeg.range] at hend
      have := hr hzero p hp (hiff.mpr (by omega))
      rw [u64_of_lt (by omega)] at this
      omega
  · rw [metaslabFfAllocLoop]
    simp only [lowbit_eq (by omega : 2 ^ k * (2 * q + 1) < 2 ^ 64), hppd, hbit]
    rw [bind_eq_bind, bind_some, dif_pos ⟨by omega, by omega⟩]
    simp only [Nat.add_sub_cancel, hrun]
    cases r <;> rfl

/-- **`metaslab_ff_alloc`** finds an aligned range of the set, or there is none.  It
changes the cursors only. -/
theorem metaslabFfAlloc_cases {k q m : ℕ} (hlow : ¬ 2 ^ 32 ∣ 2 ^ k * (2 * q + 1)) (hm : 2 ^ k ∣ m)
    (hend : sm.smStart + sm.smSize ≤ m) (hroom : m + 2 ^ k * (2 * q + 1) < 2 ^ 64) :
    ∃ (r : Option ℕ) (ppd' : Fin 64 → ℕ), metaslabFfAlloc sm (2 ^ k * (2 * q + 1))
        = some (r.getD minusOne, { sm with smPpd := some ppd' }) ∧
      match r with
      | some offset => 2 ^ k ∣ offset ∧ Ico offset (offset + 2 ^ k * (2 * q + 1)) ⊆ A
      | none => ∀ a, 2 ^ k ∣ a → ¬ Ico a (a + 2 ^ k * (2 * q + 1)) ⊆ A := by
  have hk : k < 32 := by
    by_contra hge
    exact hlow ((Nat.pow_dvd_pow 2 (not_lt.mp hge)).mul_right _)
  obtain ⟨r, hr, hloop⟩ := metaslabFfAllocLoop_succ h hppd hk hm hend hroom
  rw [metaslabFfAlloc, hloop]
  cases r with
  | some offset => exact ⟨some offset, _, rfl, hr⟩
  | none =>
    by_cases hzero : ppd ⟨k, by omega⟩ = 0
    · exact ⟨none, ppd, by simp only [if_pos hzero, ← hppd, getD_none], hr hzero⟩
    -- the search starts again, from the beginning of the map
    have h' : SpaceMap.Rep { sm with smPpd := some (update ppd ⟨k, by omega⟩ 0) } A :=
      ⟨h.bound, h.tree, h.inside, h.blocks, h.space⟩
    obtain ⟨r', hr', hloop'⟩ := metaslabFfAllocLoop_succ h' rfl hk hm hend hroom
    simp only [if_neg hzero]
    rw [hloop']
    cases r' with
    | some offset => exact ⟨some offset, _, rfl, hr'⟩
    | none => exact ⟨none, update ppd ⟨k, by omega⟩ 0, by simp, hr' (update_self ..)⟩

theorem metaslabFfAlloc_spec (hhalf : sm.smStart + sm.smSize ≤ 2 ^ 63) (hpos : 0 < size)
    (hsize : size < 2 ^ 63) (hlow : ¬ 2 ^ 32 ∣ size) (hunits : 2 ^ sm.smShift ∣ size) :
    ∃ offset ppd', metaslabFfAlloc sm size = some (offset, { sm with smPpd := some ppd' }) ∧
      (offset = minusOne ∨ sm.Range offset size ∧ Ico offset (offset + size) ⊆ A) := by
  obtain ⟨k, m, ⟨q, rfl⟩, rfl⟩ := Nat.exists_eq_two_pow_mul_odd hpos.ne'
  have hk : k < 63 := by
    refine (Nat.pow_lt_pow_iff_right (a := 2) (by norm_num)).mp ?_
    have hle : 2 ^ k ≤ 2 ^ k * (2 * q + 1) := Nat.le_mul_of_pos_right _ (by omega)
    omega
  obtain ⟨r, ppd', hrun, hr⟩ :=
    metaslabFfAlloc_cases h hppd hlow (Nat.pow_dvd_pow 2 hk.le) hhalf (by omega)
  refine ⟨_, ppd', hrun, ?_⟩
  cases r with
  | none => exact .inl rfl
  | some offset =>
    -- the largest power of two in the size is at least a unit
    have hunit := two_pow_dvd_of_dvd_mul_odd hunits
    exact .inr ⟨h.range_of_subset hpos hr.2 (hunit.trans hr.1) hunits, hr.2⟩

/-- A map has a range of the size at a multiple of the largest power of two that divides it exactly
if `metaslab_ff_alloc` finds one, whatever the cursors are.  The power is below `2 ^ 32`, or there
would be no cursor for it, and such a range fits between the end of the map and `2 ^ 64`. -/
theorem metaslabFfAlloc_complete (hpos : 0 < size) (hlow : ¬ 2 ^ 32 ∣ size)
    (hroom : ∃ m, (∀ j, 2 ^ j ∣ size → 2 ^ j ∣ m) ∧ sm.smStart + sm.smSize ≤ m ∧
      m + size < 2 ^ 64) :
    ∃ offset ppd', metaslabFfAlloc sm size = some (offset, { sm with smPpd := some ppd' }) ∧
      (offset ≠ minusOne → (∀ j, 2 ^ j ∣ size → 2 ^ j ∣ offset) ∧ Ico offset (offset + size) ⊆ A) ∧
      (offset = minusOne ↔
        ¬ ∃ a, (∀ j, 2 ^ j ∣ size → 2 ^ j ∣ a) ∧ Ico a (a + size) ⊆ A) := by
  obtain ⟨k, _, ⟨q, rfl⟩, rfl⟩ := Nat.exists_eq_two_pow_mul_odd hpos.ne'
  obtain ⟨m, hm, hend, hroom⟩ := hroom
  obtain ⟨r, ppd', hrun, hr⟩ :=
    metaslabFfAlloc_cases h hppd hlow (hm k (Nat.dvd_mul_right ..)) hend hroom
  refine ⟨_, ppd', hrun, ?_⟩
  cases r with
  | none =>
    refine ⟨fun hne => absurd rfl hne, iff_of_true rfl ?_⟩
    rintro ⟨a, ha, hsub⟩
    exact hr a (ha k (Nat.dvd_mul_right ..)) hsub
  | some offset =>
    have hlt := mem_Ico.mp (h.inside (hr.2 (mem_Ico.mpr ⟨le_rfl, by omega⟩)))
    have hne : offset ≠ minusOne := by
      rw [minusOne]
      omega
    have haligned (j : ℕ) (hj : 2 ^ j ∣ 2 ^ k * (2 * q + 1)) : 2 ^ j ∣ offset :=
      (two_pow_dvd_of_dvd_mul_odd hj).trans hr.1
    exact ⟨fun _ => ⟨haligned, hr.2⟩, iff_of_false hne fun hno => hno ⟨offset, haligned, hr.2⟩⟩

end

theorem rep_metaslabFfLoad (start size shift : ℕ) (h : start + size < 2 ^ 64) :
    (metaslabFfLoad (spaceMapCreate start size shift)).Rep ∅ :=
  have h := spaceMapCreate_rep h
  ⟨h.bound, h.tree, h.inside, h.blocks, h.space⟩

/-- Two segments, of which the second has room for 16 bytes at 48, and none has for 32.  The cursor
is behind both: the search starts again. -/
theorem metaslabFfAlloc_complete_cursor : ∃ sm, sm.Rep (Ico 8 24 ∪ Ico 40 64) ∧
    sm.smPpd = some (fun _ => 64) ∧
    (∃ offset ppd, metaslabFfAlloc sm 16 = some (offset, { sm with smPpd := some ppd }) ∧
      offset ≠ minusOne ∧ 2 ^ 4 ∣ offset ∧ Ico offset (offset + 16) ⊆ Ico 8 24 ∪ Ico 40 64) ∧
    ∃ ppd, metaslabFfAlloc sm 32 = some (minusOne, { sm with smPpd := some ppd }) := by
  obtain ⟨sm₁, -, hrep₁, hsame₁⟩ := spaceMapAdd_spec (rep_metaslabFfLoad 0 64 3 (by norm_num))
    (⟨by decide, by decide, by decide, by decide, by decide⟩ : SpaceMap.Range _ 8 16)
    (disjoint_empty_left _)
  have hrange : sm₁.Range 40 24 :=
    .of_same ⟨by decide, by decide, by decide, by decide, by decide⟩ hsame₁
  obtain ⟨sm₂, -, hrep₂, hsame₂⟩ := spaceMapAdd_spec hrep₁ hrange (by decide)
  have hend : sm₂.smStart + sm₂.smSize = 64 := by
    rw [hsame₂.start, hsame₂.size, hsame₁.start, hsame₁.size]
    rfl
  have hrep : SpaceMap.Rep { sm₂ with smPpd := some fun _ => 64 } (Ico 8 24 ∪ Ico 40 64) :=
    ⟨hrep₂.bound, hrep₂.tree, hrep₂.inside, hrep₂.blocks, hrep₂.space⟩
  refine ⟨_, hrep, rfl, ?_, ?_⟩
  · obtain ⟨offset, ppd, hrun, hfound, hnone⟩ :=
      metaslabFfAlloc_complete hrep rfl (by decide : 0 < 16)
      (by decide) ⟨64, fun j hj => hj.trans (by decide), hend.le, by decide⟩
    have hne : offset ≠ minusOne := fun heq =>
      hnone.mp heq ⟨48, fun j hj => hj.trans (by decide), by decide⟩
    exact ⟨offset, ppd, hrun, hne, (hfound hne).1 4 (by decide), (hfound hne).2⟩
  · obtain ⟨offset, ppd, hrun, -, hnone⟩ := metaslabFfAlloc_complete hrep rfl (by decide : 0 < 32)
      (by decide) ⟨64, fun j hj => hj.trans (by decide), hend.le, by decide⟩
    rw [hnone.mpr ?_] at hrun
    · exact ⟨ppd, hrun⟩
    · rintro ⟨a, -, hsub⟩
      have hmem (x : ℕ) (hx : a ≤ x ∧ x < a + 32) : 8 ≤ x ∧ x < 24 ∨ 40 ≤ x ∧ x < 64 := by
        simpa using hsub (mem_Ico.mpr hx)
      rcases hmem a ⟨le_rfl, by omega⟩ with hlow | hhigh
      · have := hmem 24 (by omega)
        omega
      · have := hmem (a + 31) (by omega)
        omega

/-- With a size near `2 ^ 64` the end of a range wraps, and a range is found that is not in the map.
-/
theorem metaslabFfAlloc_wraps : ∃ sm, sm.Rep (Ico 8 24) ∧ ¬ Ico 8 (8 + (2 ^ 64 - 8)) ⊆ Ico 8 24 ∧
    (metaslabFfAlloc sm (2 ^ 64 - 8)).map Prod.fst = some 8 := by
  obtain ⟨sm, hadd, hrep, -⟩ := spaceMapAdd_spec (rep_metaslabFfLoad 0 32 3 (by norm_num))
    (⟨by decide, by decide, by decide, by decide, by decide⟩ : SpaceMap.Range _ 8 16)
    (disjoint_empty_left _)
  refine ⟨sm, by simpa using hrep, fun hsub => ?_, ?_⟩
  · simpa using hsub (mem_Ico.mpr (by decide : 8 ≤ 24 ∧ 24 < 8 + (2 ^ 64 - 8)))
  · have hrun : (spaceMapAdd (metaslabFfLoad (spaceMapCreate 0 32 3)) 8 16).bind (fun sm =>
        (metaslabFfAlloc sm (2 ^ 64 - 8)).map Prod.fst) = some 8 := by decide +kernel
    rwa [hadd] at hrun

/-! ## Taking space out of a loaded map -/

/-- A loaded map that stands for `A`. -/
structure SpaceMap.Loaded (sm : SpaceMap) (A : Finset ℕ) : Prop where
  rep : sm.Rep A
  loaded : sm.smLoaded = true
  loading : sm.smLoading = false
  ops : sm.smOps = some .metaslabFfOps
  ppd : ∃ ppd, sm.smPpd = some ppd

theorem SpaceMap.Loaded.of_same {B : Finset ℕ} (h : sm.Loaded A) (hrep : sm'.Rep B)
    (hsame : sm.Same sm') : sm'.Loaded B :=
  ⟨hrep, hsame.loaded.trans h.loaded, hsame.loading.trans h.loading, hsame.ops.trans h.ops,
    h.ppd.imp fun _ hppd => hsame.ppd.trans hppd⟩

/-- **`space_map_alloc`.** -/
theorem spaceMapAlloc_spec (h : sm.Loaded A) (hhalf : sm.smStart + sm.smSize ≤ 2 ^ 63)
    (hpos : 0 < size)
    (hsize : size < 2 ^ 63) (hlow : ¬ 2 ^ 32 ∣ size) (hunits : 2 ^ sm.smShift ∣ size) :
    ∃ offset sm', spaceMapAlloc sm size = some (offset, sm') ∧
      sm'.Spans sm.smStart sm.smSize sm.smShift ∧
      (offset = minusOne ∧ sm'.Loaded A ∨ offset ≠ minusOne ∧ sm.Range offset size ∧
        Ico offset (offset + size) ⊆ A ∧
        sm'.Loaded (A \ Ico offset (offset + size))) := by
  obtain ⟨ppd, hppd⟩ := h.ppd
  obtain ⟨offset, ppd', hrun, hcases⟩ :=
    metaslabFfAlloc_spec h.rep hppd hhalf hpos hsize hlow hunits
  have h' : SpaceMap.Loaded { sm with smPpd := some ppd' } A :=
    ⟨⟨h.rep.bound, h.rep.tree, h.rep.inside, h.rep.blocks, h.rep.space⟩, h.loaded, h.loading, h.ops,
      ppd', rfl⟩
  rcases hcases with rfl | ⟨hrange, hsub⟩
  · refine ⟨minusOne, { sm with smPpd := some ppd' }, bind_of_some h.ops
      (bind_of_some hrun ?_), ⟨rfl, rfl, rfl⟩, Or.inl ⟨rfl, h'⟩⟩
    simp
  have hne : offset ≠ minusOne := by
    have hupper := hrange.upper
    rw [minusOne]
    omega
  obtain ⟨sm', hrm, hrep, hsame⟩ := spaceMapRemove_spec h'.rep hrange hsub
  refine ⟨offset, sm', bind_of_some h.ops (bind_of_some hrun ?_),
    ⟨hsame.start, hsame.size, hsame.shift⟩,
    Or.inr ⟨hne, hrange, hsub, h'.of_same hrep hsame⟩⟩
  simp only [if_pos hne]
  exact bind_of_some hrm rfl

/-! ## Giving space back -/

theorem SpaceMap.Loaded.adds (h : sm.Loaded A) : Adds sm spaceMapFree := by
  intro sm₁ A start size hsame hrep hr hd
  obtain ⟨sm', hrun, hrep', hsame'⟩ := spaceMapAdd_spec hrep hr hd
  have hops : sm'.smOps = some .metaslabFfOps := hsame'.ops.trans (hsame.ops.trans h.ops)
  exact ⟨sm', bind_of_some hrun (bind_of_some hops rfl), hrep', hsame'⟩

/-- **`space_map_free`.** -/
theorem spaceMapFree_spec (h : sm.Loaded A) (hr : sm.Range start size)
    (hd : Disjoint A (Ico start (start + size))) :
    ∃ sm', spaceMapFree sm start size = some sm' ∧
      sm'.Loaded (A ∪ Ico start (start + size)) ∧ sm.Same sm' := by
  obtain ⟨sm', hrun, hrep, hsame⟩ := h.adds (SpaceMap.Same.refl sm) h.rep hr hd
  exact ⟨sm', hrun, h.of_same hrep hsame, hsame⟩

/-- A map that is not loaded. -/
structure SpaceMap.Unloaded (sm : SpaceMap) : Prop where
  rep : sm.Rep ∅
  loaded : sm.smLoaded = false
  loading : sm.smLoading = false
  ops : sm.smOps = none

/-- **`space_map_unload`.** -/
theorem spaceMapUnload_spec (h : sm.Loaded A) :
    ∃ sm', spaceMapUnload sm = some sm' ∧ sm'.Unloaded ∧
      sm'.Spans sm.smStart sm.smSize sm.smShift := by
  set sm₁ : SpaceMap := { sm with smPpd := none, smLoaded := false, smOps := none }
  have h₁ : sm₁.Rep A := ⟨h.rep.bound, h.rep.tree, h.rep.inside, h.rep.blocks, h.rep.space⟩
  obtain ⟨sm', hrun, hrep, hsame⟩ := spaceMapVacate_none h₁ sm₁
  refine ⟨sm', ?_, ⟨hrep, hsame.loaded, hsame.loading.trans h.loading, hsame.ops⟩,
    ⟨hsame.start, hsame.size, hsame.shift⟩⟩
  simp only [spaceMapUnload, h.loaded, h.ops, SpaceMapOps.smopUnload, metaslabFfUnload]
  exact bind_of_some hrun rfl

/-! ## What a removal that returns has checked -/

/-- `space_map_remove` returns only if the range consists of units of the set. -/
theorem spaceMapRemove_inv (h : sm.Rep A) (hfit : start + size < 2 ^ 64)
    (hrun : spaceMapRemove sm start size = some sm') :
    sm.Range start size ∧ Ico start (start + size) ⊆ A := by
  obtain ⟨s, htree, hcover⟩ := h.tree
  simp only [spaceMapRemove, u64_of_lt hfit, bind_eq_bind, guard_bind_eq_some] at hrun
  obtain ⟨hne, hstart, hsize, hrun⟩ := hrun
  have hpos : 0 < size := Nat.pos_of_ne_zero hne
  have hsub : Ico start (start + size) ⊆ A := by
    rcases htree.find_range (by omega : start < start + size) with
      ⟨p, hp, hfind, hiff⟩ | ⟨_, hfind, -⟩
    · rw [SpaceMap.fuel, hfind, bind_some] at hrun
      simp only [guard_bind_eq_some, htree.object hp, bind_some] at hrun
      rw [← hcover]
      exact hiff.mpr ⟨hrun.2.1, hrun.2.2.1⟩
    · rw [SpaceMap.fuel, hfind, bind_some] at hrun
      simp only [guard_bind_eq_some, ne_eq, not_true_eq_false, false_and] at hrun
  exact ⟨h.range_of_subset hpos hsub ((p2phase_eq_zero_iff ..).mp hstart)
    ((p2phase_eq_zero_iff ..).mp hsize), hsub⟩

/-- `space_map_claim` returns only if the range is free, and takes it. -/
theorem spaceMapClaim_inv (h : sm.Loaded A) (hfit : start + size < 2 ^ 64)
    (hrun : spaceMapClaim sm start size = some sm') :
    sm.Range start size ∧ Ico start (start + size) ⊆ A ∧
      sm'.Loaded (A \ Ico start (start + size)) ∧ sm.Same sm' := by
  simp only [spaceMapClaim, h.ops, bind_eq_bind, bind_some, SpaceMapOps.smopClaim,
    metaslabFfClaim] at hrun
  obtain ⟨hr, hsub⟩ := spaceMapRemove_inv h.rep hfit hrun
  obtain ⟨sm'', hrun', hrep, hsame⟩ := spaceMapRemove_spec h.rep hr hsub
  rw [hrun, some.injEq] at hrun'
  subst hrun'
  exact ⟨hr, hsub, h.of_same hrep hsame, hsame⟩

end Polaris
