import Polaris.SpaceMap.Log
import Polaris.SpaceMap.Run

/-!
# Writing space map objects

`space_map_sync` extends the log of a space map object by the set of the map, and
empties the map.  The segments come in the order in which the tree is torn down, and
each is cut into runs of at most `SM_RUN_MAX` units.  The words are collected in a
buffer that is written out whenever it is full.

`SyncRun` is any sequence of syncs to one object, and `space_map_sync_load` says what
a load finds after it.

## Main definitions

* `Written`, `Buffered`, `ObjLog`
* `SyncRun`
-/

namespace Polaris

open BinTree AvlTree List

/-! ## The buffer -/

/-- The object consists of the words `l`. -/
structure Written (os : Objset) (smo : SpaceMapObj) (l : List ℕ) : Prop where
  size : smo.smoObjsize = 8 * l.length
  words : os smo.smoObject = l

variable {os : Objset} {t : MapType} {D A : Finset ℕ} {sm : SpaceMap} {cap object : ℕ} {b : SyncBuf}
  {w l : List ℕ} {smo : SpaceMapObj}

theorem Written.logged (h : Written os smo l) :
    Logged os smo l := ⟨h.size, [], by rw [h.words, append_nil]⟩

/-- Writing at the end of an object appends. -/
theorem Written.append (h : Written os smo l) (ws : List ℕ) :
    Written (dmuWrite os smo.smoObject smo.smoObjsize ws)
      { smo with smoObjsize := smo.smoObjsize + 8 * ws.length } (l ++ ws) := by
  have h8 : 8 * l.length / 8 = l.length := by omega
  refine ⟨?_, ?_⟩
  · simp only [h.size, length_append]
    omega
  · simp [dmuWrite, h.words, h.size, h8]

/-- The object and the buffer together hold the words `w`.  The other objects are
those of `os`. -/
structure Buffered (cap : ℕ) (os : Objset) (object : ℕ) (b : SyncBuf) (w : List ℕ) : Prop where
  written : ∃ l, Written b.os b.smo l ∧ w = l ++ b.entries
  full : b.entries.length ≤ cap
  same : b.smo.smoObject = object
  others : ∀ o, o ≠ object → b.os o = os o

namespace Buffered

variable {cap object : ℕ} {os : Objset} {b : SyncBuf} {w : List ℕ}

theorem flush (h : Buffered cap os object b w) : Buffered cap os object (syncFlush b) w := by
  obtain ⟨l, hl, rfl⟩ := h.written
  refine ⟨⟨l ++ b.entries, hl.append b.entries, by simp [syncFlush]⟩, by simp [syncFlush], h.same,
    fun o ho => ?_⟩
  have hne : o ≠ b.smo.smoObject := by rw [h.same]; exact ho
  rw [← h.others o ho]
  exact Function.update_of_ne hne ..

/-- One word more, after a flush if the buffer is full. -/
theorem emit (h : Buffered cap os object b w) (hcap : 0 < cap) (e : ℕ) :
    Buffered cap os object
      { (if b.entries.length = cap then syncFlush b else b) with
        entries := (if b.entries.length = cap then syncFlush b else b).entries ++ [e] }
      (w ++ [e]) := by
  have hb : Buffered cap os object (if b.entries.length = cap then syncFlush b else b) w := by
    split
    · exact h.flush
    · exact h
  have hroom : (if b.entries.length = cap then syncFlush b else b).entries.length < cap := by
    split
    · exact hcap
    · have := h.full
      omega
  obtain ⟨l, hl, hw⟩ := hb.written
  refine ⟨⟨l, ⟨hl.size, hl.words⟩, by rw [hw, append_assoc]⟩, ?_, hb.same, hb.others⟩
  simp only [length_append, length_singleton]
  omega

/-- The last write. -/
theorem written_last (h : Buffered cap os object b w) :
    Written (if b.entries.length ≠ 0 then syncFlush b else b).os
      (if b.entries.length ≠ 0 then syncFlush b else b).smo w := by
  obtain ⟨l, hl, rfl⟩ := h.written
  split_ifs with hb
  · exact hl.append b.entries
  · have hnil : b.entries = [] := eq_nil_of_length_eq_zero (by omega)
    rw [hnil, append_nil]
    exact hl

end Buffered

/-! ## The loops -/

theorem MapType.effect_empty (t : MapType) (D : Finset ℕ) : t.effect D ∅ = D := by
  cases t <;> simp [effect]

/-- **The inner loop of `space_map_sync`.**  The runs of a segment extend the log by
the segment. -/
theorem syncRuns_spec {start size shift : ℕ} (hshift : 2 ^ shift ∣ start) (hcap : 0 < cap)
    {n off units : ℕ} (hb : Buffered cap os object b w) (hlog : Replays start size shift w D)
    (hn : units < n) (hoff : off + units ≤ 2 ^ 47)
    (hin : off * 2 ^ shift + start + units * 2 ^ shift ≤ start + size)
    (hlegal : t.legal D (Finset.Ico (off * 2 ^ shift + start)
      (off * 2 ^ shift + start + units * 2 ^ shift))) :
    ∃ b' ws, syncRuns t cap n off units b = some b' ∧ Buffered cap os object b' (w ++ ws) ∧
      Replays start size shift (w ++ ws) (t.effect D (Finset.Ico (off * 2 ^ shift + start)
        (off * 2 ^ shift + start + units * 2 ^ shift))) ∧
      b'.smSpace = b.smSpace ∧ b'.smo.smoAlloc = b.smo.smoAlloc := by
  induction n generalizing off units b w D with
  | zero => omega
  | succ n ih =>
    by_cases hz : units = 0
    · subst hz
      refine ⟨b, [], by simp [syncRuns], by simpa using hb, ?_, rfl, rfl⟩
      simpa [MapType.effect_empty] using hlog
    have hpow := Nat.two_pow_pos shift
    set runLen := min units smRunMax with hrunLen
    rw [smRunMax_eq] at hrunLen
    have hrun : 0 < runLen ∧ runLen ≤ 2 ^ 15 ∧ runLen ≤ units := by omega
    obtain ⟨hd, ht, ho, hr⟩ := @runWord_decode off t runLen (by omega) hrun.1 hrun.2.1
    set e := runWord t off runLen with he
    -- the run and the rest of the segment
    set a := off * 2 ^ shift + start with ha
    have hle : runLen * 2 ^ shift ≤ units * 2 ^ shift := Nat.mul_le_mul_right _ hrun.2.2
    have hwstart : wordStart start shift e = a := by rw [wordStart, ho]
    have hwsize : wordSize shift e = runLen * 2 ^ shift := by rw [wordSize, hr]
    have hrest : a + runLen * 2 ^ shift = (off + runLen) * 2 ^ shift + start := by
      rw [ha, Nat.add_mul]; omega
    have hend : a + units * 2 ^ shift =
        (off + runLen) * 2 ^ shift + start + (units - runLen) * 2 ^ shift := by
      rw [← hrest, Nat.sub_mul]; omega
    have hsplit : Finset.Ico a (a + units * 2 ^ shift) = wordRange start shift e ∪
        Finset.Ico ((off + runLen) * 2 ^ shift + start)
          ((off + runLen) * 2 ^ shift + start + (units - runLen) * 2 ^ shift) := by
      rw [wordRange, hwstart, hwsize, ← hend, ← hrest,
        Finset.Ico_union_Ico_eq_Ico (by omega) (by omega)]
    have hdis : Disjoint (wordRange start shift e)
        (Finset.Ico ((off + runLen) * 2 ^ shift + start)
          ((off + runLen) * 2 ^ shift + start + (units - runLen) * 2 ^ shift)) := by
      rw [wordRange, hwstart, hwsize, ← hrest]
      exact Finset.Ico_disjoint_Ico_consecutive ..
    rw [hsplit] at hlegal
    obtain ⟨hleg₁, hleg₂, heff⟩ := MapType.legal_union hdis hlegal
    have hpos : 0 < runLen * 2 ^ shift := Nat.mul_pos hrun.1 hpow
    have hrange : RangeIn start size shift (wordStart start shift e) (wordSize shift e) := by
      rw [hwstart, hwsize]
      exact ⟨hpos, by omega, by omega, Nat.dvd_add (Nat.dvd_mul_left ..) hshift,
        Nat.dvd_mul_left ..⟩
    have hlog' := hlog.run t hd ht hrange hleg₁
    obtain ⟨b', ws, hgo, hbuf, hrep, hspace, halloc⟩ := ih (hb.emit hcap e) hlog'
      (by omega) (by omega) (by rw [← hend]; exact hin) hleg₂
    refine ⟨b', e :: ws, ?_, by simpa using hbuf, ?_, ?_, ?_⟩
    · have hu : u64 (off + runLen) = off + runLen := u64_of_lt (by omega)
      rw [syncRuns, if_neg hz]
      simp only [← hrunLen, smRunMax_eq, ← he, hu]
      exact hgo
    · rw [hsplit, ← heff]
      simpa using hrep
    · rw [hspace]
      split <;> rfl
    · rw [halloc]
      split <;> rfl

/-- The object is the log `l` of a map from `start` on, and it leaves `D` allocated. -/
structure ObjLog (start size shift : ℕ) (os : Objset) (smo : SpaceMapObj) (l : List ℕ)
    (D : Finset ℕ) : Prop where
  written : Written os smo l
  replays : Replays start size shift l D
  alloc : smo.smoAlloc = D.card

theorem syncAlloc_eq (h : t.legal D A) (hfit : (t.effect D A).card < 2 ^ 64)
    (hD : D.card < 2 ^ 64) :
    syncAlloc t D.card A.card = (t.effect D A).card := by
  cases t with
  | smAlloc =>
    simp only [MapType.effect, Finset.card_union_of_disjoint h] at hfit ⊢
    exact u64_of_lt hfit
  | smFree =>
    simp only [MapType.effect, Finset.card_sdiff_of_subset h]
    exact u64Sub_of_le (Finset.card_le_card h) hD

/-- A set whose units are below `2 ^ 47` has its segments end there. -/
theorem Separated.offset_le {l : List (ℕ × ℕ)} (h : Separated l)
    (hin : cover l ⊆ Finset.Ico sm.smStart (sm.smStart + sm.smSize))
    (hblocks : Blockwise (2 ^ sm.smShift) (cover l)) (hshift : 2 ^ sm.smShift ∣ sm.smStart)
    (hoff : ∀ x ∈ cover l, (x - sm.smStart) / 2 ^ sm.smShift < 2 ^ 47) {s : ℕ × ℕ} (hs : s ∈ l) :
    (s.2 - sm.smStart) / 2 ^ sm.smShift ≤ 2 ^ 47 := by
  have hr := h.range hin hblocks hs
  have hpos := hr.pos
  have hpow := Nat.two_pow_pos sm.smShift
  have hlast := hoff (s.2 - 1) (mem_cover.mpr ⟨s, hs, by omega, by omega⟩)
  obtain ⟨k, hk⟩ : 2 ^ sm.smShift ∣ s.2 - sm.smStart := by
    have hend : s.2 = s.1 + (s.2 - s.1) := by omega
    rw [hend]
    exact Nat.dvd_sub (Nat.dvd_add hr.alignStart hr.alignSize) hshift
  have hk' : s.2 - 1 - sm.smStart = 2 ^ sm.smShift * k - 1 := by omega
  rw [hk', Nat.div_lt_iff_lt_mul hpow] at hlast
  rw [hk, Nat.mul_div_cancel_left _ hpow]
  by_contra hgt
  have hmul : 2 ^ sm.smShift * (2 ^ 47 + 1) ≤ 2 ^ sm.smShift * k :=
    Nat.mul_le_mul_left _ (by omega)
  rw [Nat.mul_add, mul_comm _ (2 ^ 47)] at hmul
  omega

section

variable (hm : sm.Rep A) (hshift : 2 ^ sm.smShift ∣ sm.smStart) (hcap : 0 < cap)
  (hb : Buffered cap os object b w) (hlog : Replays sm.smStart sm.smSize sm.smShift w D)

include hm hshift hcap hb hlog

/-- One segment of the outer loop. -/
theorem syncSeg_spec {s : ℕ × ℕ}
    (hr : sm.Range s.1 (s.2 - s.1)) (hoff : (s.2 - sm.smStart) / 2 ^ sm.smShift ≤ 2 ^ 47)
    (hlegal : t.legal D (Finset.Ico s.1 s.2)) (hspace : s.2 - s.1 ≤ b.smSpace)
    (hfit : b.smSpace < 2 ^ 64) :
    ∃ b' ws, syncSeg sm t cap b ⟨s.1, s.2⟩ = some b' ∧ Buffered cap os object b' (w ++ ws) ∧
      Replays sm.smStart sm.smSize sm.smShift (w ++ ws) (t.effect D (Finset.Ico s.1 s.2)) ∧
      b'.smSpace = b.smSpace - (s.2 - s.1) ∧ b'.smo.smoAlloc = b.smo.smoAlloc := by
  have hbound := hm.bound
  have hlower := hr.lower
  have hupper := hr.upper
  have hpos := hr.pos
  have hpow := Nat.two_pow_pos sm.smShift
  have hsize : u64Sub s.2 s.1 = s.2 - s.1 := hm.u64Sub hr
  have hstart : u64Sub s.1 sm.smStart = s.1 - sm.smStart := u64Sub_of_le hlower (by omega)
  obtain ⟨i, hi⟩ := Nat.dvd_sub hr.alignStart hshift
  obtain ⟨k, hk⟩ := hr.alignSize
  have hdi : (s.1 - sm.smStart) >>> sm.smShift = i := by
    rw [Nat.shiftRight_eq_div_pow, hi, Nat.mul_div_cancel_left _ hpow]
  have hdk : (s.2 - s.1) >>> sm.smShift = k := by
    rw [Nat.shiftRight_eq_div_pow, hk, Nat.mul_div_cancel_left _ hpow]
  have ha : i * 2 ^ sm.smShift + sm.smStart = s.1 := by rw [mul_comm]; omega
  have he : s.1 + k * 2 ^ sm.smShift = s.2 := by rw [mul_comm]; omega
  have hik : i + k ≤ 2 ^ 47 := by
    have hsum : s.2 - sm.smStart = 2 ^ sm.smShift * (i + k) := by rw [Nat.mul_add]; omega
    rwa [hsum, Nat.mul_div_cancel_left _ hpow] at hoff
  have hb' : Buffered cap os object { b with smSpace := b.smSpace - (s.2 - s.1) } w :=
    ⟨hb.written, hb.full, hb.same, hb.others⟩
  obtain ⟨b', ws, hrun, hbuf, hrep, hsp, hal⟩ := syncRuns_spec (t := t) hshift hcap hb' hlog
    (Nat.lt_succ_self k) hik (by rw [ha, he]; omega) (by rw [ha, he]; exact hlegal)
  rw [ha, he] at hrep
  refine ⟨b', ws, ?_, hbuf, hrep, hsp, hal⟩
  have hsub : u64Sub b.smSpace (s.2 - s.1) = b.smSpace - (s.2 - s.1) := u64Sub_of_le hspace hfit
  simp only [syncSeg, hsize, hstart, hdi, hdk, hsub]
  exact hrun

/-- **The outer loop of `space_map_sync`**, over segments in any order. -/
theorem syncSegs_spec
    {l : List (ℕ × ℕ)} (hr : ∀ s ∈ l, sm.Range s.1 (s.2 - s.1))
    (hoff : ∀ s ∈ l, (s.2 - sm.smStart) / 2 ^ sm.smShift ≤ 2 ^ 47)
    (hl : l.Pairwise fun s s' => Disjoint (Finset.Ico s.1 s.2) (Finset.Ico s'.1 s'.2))
    (hlegal : t.legal D (cover l)) (hspace : b.smSpace = (l.map fun s => s.2 - s.1).sum)
    (hfit : b.smSpace < 2 ^ 64) :
    ∃ b' ws, l.foldlM (fun b s => syncSeg sm t cap b ⟨s.1, s.2⟩) b = some b' ∧
      Buffered cap os object b' (w ++ ws) ∧
      Replays sm.smStart sm.smSize sm.smShift (w ++ ws) (t.effect D (cover l)) ∧
      b'.smSpace = 0 ∧ b'.smo.smoAlloc = b.smo.smoAlloc := by
  induction l generalizing b w D with
  | nil =>
    refine ⟨b, [], rfl, by simpa using hb, ?_, hspace, rfl⟩
    simpa [MapType.effect_empty] using hlog
  | cons s l ih =>
    rw [pairwise_cons] at hl
    simp only [map_cons, sum_cons] at hspace
    have hdis : Disjoint (Finset.Ico s.1 s.2) (cover l) := by
      rw [Finset.disjoint_left]
      intro x hx hx'
      obtain ⟨s', hs', h1, h2⟩ := mem_cover.mp hx'
      exact Finset.disjoint_left.mp (hl.1 s' hs') hx (Finset.mem_Ico.mpr ⟨h1, h2⟩)
    rw [cover_cons] at hlegal ⊢
    obtain ⟨hleg₁, hleg₂, heff⟩ := MapType.legal_union hdis hlegal
    obtain ⟨b₁, ws₁, hrun₁, hbuf₁, hrep₁, hsp₁, hal₁⟩ := syncSeg_spec hm hshift hcap hb hlog
      (hr s (by simp)) (hoff s (by simp)) hleg₁ (by omega) hfit
    obtain ⟨b₂, ws₂, hrun₂, hbuf₂, hrep₂, hsp₂, hal₂⟩ := ih hbuf₁ hrep₁
      (fun s' hs' => hr s' (by simp [hs'])) (fun s' hs' => hoff s' (by simp [hs'])) hl.2 hleg₂
      (by omega) (by omega)
    refine ⟨b₂, ws₁ ++ ws₂, ?_, by simpa using hbuf₂, ?_, hsp₂, hal₂.trans hal₁⟩
    · rw [foldlM_cons]
      exact bind_of_some hrun₁ hrun₂
    · rw [← heff]
      simpa using hrep₂

/-! ## The sync -/

/-- **The outer loop of `space_map_sync`**, which tears the tree down. -/
theorem syncLoop_spec
    (hlegal : t.legal D A) (hoff : ∀ x ∈ A, (x - sm.smStart) / 2 ^ sm.smShift < 2 ^ 47)
    (hspace : b.smSpace = A.card) :
    ∃ b' ws root',
      avlDestroyLoop (fun b _ ss => syncSeg sm t cap b ss) sm.fuel sm.fuel sm.smRoot 0 b =
        some (b', root') ∧
      SpaceMap.Rep { sm with smRoot := root', smSpace := 0 } ∅ ∧
      Buffered cap os object b' (w ++ ws) ∧
      Replays sm.smStart sm.smSize sm.smShift (w ++ ws) (t.effect D A) ∧
      b'.smSpace = 0 ∧ b'.smo.smoAlloc = b.smo.smoAlloc := by
  have hbound := hm.bound
  have hin := hm.inside
  have hblocks := hm.blocks
  have hfit := Finset.card_le_card hin
  rw [Nat.card_Ico] at hfit
  obtain ⟨s, htree, rfl⟩ := hm.tree
  have hsep := htree.separated
  have hperm : (segs sm.smRoot s.postorder).Perm (segs sm.smRoot s.inorder) :=
    (postorder_perm_inorder s).map _
  have hsum : b.smSpace = ((segs sm.smRoot s.postorder).map fun r => r.2 - r.1).sum := by
    rw [(hperm.map _).sum_eq, ← hsep.card_cover, hspace]
  obtain ⟨b', ws, hrun, hbuf, hrep, hsp, hal⟩ := syncSegs_spec (t := t) hm hshift hcap hb hlog
    (fun r hr => hsep.range hin hblocks (hperm.mem_iff.mp hr))
    (fun r hr => hsep.offset_le hin hblocks hshift hoff (hperm.mem_iff.mp hr))
    (hsep.pairwise_disjoint hperm) (by rwa [cover_perm hperm]) hsum (by omega)
  rw [cover_perm hperm] at hrep
  obtain ⟨root', htorn, hloop⟩ := avlDestroyLoop_spec htree.valid htree.fuel htree.fuel
  refine ⟨b', ws, root', ?_, ?_, hbuf, hrep, hsp, hal⟩
  · rw [segs, foldlM_map] at hrun
    rw [SpaceMap.fuel, hloop]
    exact congrArg (Option.map _) hrun
  · exact ⟨hbound, ⟨nil, htree.of_torn htorn, rfl⟩, by simp, Blockwise.empty, rfl⟩

end

/-- **`space_map_sync`** extends the log by the set of the map, and empties the map. -/
theorem spaceMapSync_spec (hm : sm.Rep A) (hshift : 2 ^ sm.smShift ∣ sm.smStart)
    (hlog : ObjLog sm.smStart sm.smSize sm.smShift os smo l D) (hlegal : t.legal D A)
    (hoff : ∀ x ∈ A, (x - sm.smStart) / 2 ^ sm.smShift < 2 ^ 47) (syncPass txg : ℕ) :
    ∃ (sm' : SpaceMap) (smo' : SpaceMapObj) (os' : Objset) (ws : List ℕ),
      spaceMapSync sm t smo os syncPass txg = some (sm', smo', os') ∧ sm'.Rep ∅ ∧ sm.Same sm' ∧
      ObjLog sm.smStart sm.smSize sm.smShift os' smo' (l ++ ws) (t.effect D A) ∧
      smo'.smoObject = smo.smoObject ∧ ∀ o, o ≠ smo.smoObject → os' o = os o := by
  by_cases hA : A = ∅
  · subst hA
    refine ⟨sm, smo, os, [], ?_, hm, SpaceMap.Same.refl sm, ?_, rfl, fun _ _ => rfl⟩
    · simp [spaceMapSync, hm.space]
    · rw [MapType.effect_empty, append_nil]
      exact hlog
  have hbound := hm.bound
  have hspace : ¬ sm.smSpace = 0 := by rwa [hm.space, Finset.card_eq_zero]
  set cap := min ((8 + sm.smRoot.avlNumnodes) * 8) (1 <<< spaceMapBlockshift) / 8 with hcap
  have hcap0 : 0 < cap := by
    have h4096 : 1 <<< spaceMapBlockshift = 4096 := by decide
    rw [h4096] at hcap
    omega
  have hb : Buffered cap os smo.smoObject
      { entries := [debugWord t syncPass txg]
        smo := { smo with smoAlloc := syncAlloc t smo.smoAlloc sm.smSpace }
        os := os
        smSpace := sm.smSpace } (l ++ [debugWord t syncPass txg]) :=
    ⟨⟨l, ⟨hlog.written.size, hlog.written.words⟩, rfl⟩, hcap0, rfl, fun _ _ => rfl⟩
  have hdebug := hlog.replays.debug (by rw [debugWord_decode t syncPass txg]; decide)
  obtain ⟨b', ws, root', hrun, hrep, hbuf, hreplay, hsp, hal⟩ :=
    syncLoop_spec hm hshift hcap0 hb hdebug hlegal hoff hm.space
  rw [append_assoc] at hbuf hreplay
  set b'' := if b'.entries.length ≠ 0 then syncFlush b' else b' with hb''
  have hkept : b''.smSpace = b'.smSpace ∧ b''.smo.smoAlloc = b'.smo.smoAlloc ∧
      b''.smo.smoObject = b'.smo.smoObject := by
    rw [hb'']
    split <;> exact ⟨rfl, rfl, rfl⟩
  have hflush : Buffered cap os smo.smoObject b'' (l ++ ([debugWord t syncPass txg] ++ ws)) := by
    rw [hb'']
    split
    · exact hbuf.flush
    · exact hbuf
  have hspace'' : b''.smSpace = 0 := hkept.1.trans hsp
  have hD := Finset.card_le_card hlog.replays.subset
  have hD' := Finset.card_le_card hreplay.subset
  rw [Nat.card_Ico] at hD hD'
  refine ⟨{ sm with smRoot := root', smSpace := 0 }, b''.smo, b''.os, _, ?_, hrep,
    ⟨rfl, rfl, rfl, rfl, rfl, rfl, rfl⟩, ⟨hbuf.written_last, hreplay, ?_⟩, hflush.same,
    hflush.others⟩
  · simp only [spaceMapSync, if_neg hspace]
    refine bind_of_some hrun ?_
    rw [← hb'']
    refine bind_of_some (guard_eq_some hspace'') ?_
    rw [hspace'']
    rfl
  · rw [hkept.2.1, hal, hlog.alloc, hm.space]
    exact syncAlloc_eq hlegal (by omega) (by omega)

/-! ## Runs -/

/-- The map `sm` covers `size` bytes from `start` on, in units of `2 ^ shift`. -/
structure SpaceMap.Spans (sm : SpaceMap) (start size shift : ℕ) : Prop where
  start : sm.smStart = start
  size : sm.smSize = size
  shift : sm.smShift = shift

/-- The states of one space map object, with the space that is allocated and not
freed.  Each sync writes a map that stands for space that is free, as `SM_ALLOC`, or
for allocated space, as `SM_FREE`.  The other objects may change at any time. -/
inductive SyncRun (start size shift object : ℕ) : SpaceMapObj → Objset → Finset ℕ → Prop
  | create {os : Objset} : os object = [] → SyncRun start size shift object ⟨object, 0, 0⟩ os ∅
  | sync {smo smo' : SpaceMapObj} {os os' : Objset} {A D : Finset ℕ} {sm sm' : SpaceMap}
      {t : MapType} {syncPass txg : ℕ} : SyncRun start size shift object smo os D →
      sm.Spans start size shift → sm.Rep A → t.legal D A →
      (∀ x ∈ A, (x - start) / 2 ^ shift < 2 ^ 47) →
      spaceMapSync sm t smo os syncPass txg = some (sm', smo', os') →
      SyncRun start size shift object smo' os' (t.effect D A)
  | other {smo : SpaceMapObj} {os os' : Objset} {D : Finset ℕ} :
      SyncRun start size shift object smo os D → os' object = os object →
      SyncRun start size shift object smo os' D

namespace SyncRun

variable {start size shift object : ℕ} {smo : SpaceMapObj} {os : Objset} {D : Finset ℕ}

/-- One sync of a run. -/
theorem step (hshift : 2 ^ shift ∣ start) (hobj : smo.smoObject = object)
    (h : ∃ l, ObjLog start size shift os smo l D) (hgeom : sm.Spans start size shift)
    (hm : sm.Rep A)
    (hlegal : t.legal D A) (hoff : ∀ x ∈ A, (x - start) / 2 ^ shift < 2 ^ 47) (syncPass txg : ℕ) :
    ∃ (sm' : SpaceMap) (smo' : SpaceMapObj) (os' : Objset),
      spaceMapSync sm t smo os syncPass txg = some (sm', smo', os') ∧ sm'.Rep ∅ ∧
      smo'.smoObject = object ∧ ∃ l, ObjLog start size shift os' smo' l (t.effect D A) := by
  obtain ⟨l, hlog⟩ := h
  obtain ⟨rfl, rfl, rfl⟩ := hgeom
  obtain ⟨sm', smo', os', ws, hrun, hrep, -, hlog', hobj', -⟩ :=
    spaceMapSync_spec hm hshift hlog hlegal hoff syncPass txg
  exact ⟨sm', smo', os', hrun, hrep, hobj'.trans hobj, _, hlog'⟩

/-- **The object is a log of the run.** -/
theorem log (hshift : 2 ^ shift ∣ start) (h : SyncRun start size shift object smo os D) :
    smo.smoObject = object ∧ ∃ l, ObjLog start size shift os smo l D := by
  induction h with
  | create hnil => exact ⟨rfl, [], ⟨⟨rfl, hnil⟩, .nil, rfl⟩⟩
  | sync _ hgeom hm hlegal hoff hrun ih =>
    obtain ⟨_, _, _, hrun', -, hlog⟩ := step hshift ih.1 ih.2 hgeom hm hlegal hoff _ _
    rw [hrun] at hrun'
    cases hrun'
    exact hlog
  | other _ hsame ih =>
    obtain ⟨hobj, l, hlog⟩ := ih
    refine ⟨hobj, l, ⟨⟨hlog.written.size, ?_⟩, hlog.replays, hlog.alloc⟩⟩
    rw [hobj, hsame, ← hobj]
    exact hlog.written.words

end SyncRun

/-- **Every run of one space map object.**  `smo_alloc` counts the allocated bytes and
`smo_objsize` the bytes of the object.  A load with `SM_FREE` yields the bytes of the
map that are not allocated, and a load with `SM_ALLOC` those that are.  Any further
sync returns and leaves its map empty. -/
theorem space_map_sync_load {start size shift object : ℕ}
    (hgeom : RangeIn start size shift start size) {smo : SpaceMapObj} {os : Objset} {D : Finset ℕ}
    (h : SyncRun start size shift object smo os D) :
    smo.smoAlloc = D.card ∧ smo.smoObjsize = 8 * (os object).length ∧
    (∀ (sm : SpaceMap) (ops : Option SpaceMapOps), sm.Spans start size shift → sm.Rep ∅ →
      sm.smLoading = false → sm.smLoaded = false →
      (∃ sm', spaceMapLoad sm ops .smFree smo os = some sm' ∧
        sm'.Rep (Finset.Ico start (start + size) \ D)) ∧
      ∃ sm', spaceMapLoad sm ops .smAlloc smo os = some sm' ∧ sm'.Rep D) ∧
    ∀ (sm : SpaceMap) (t : MapType) (A : Finset ℕ) (syncPass txg : ℕ),
      sm.Spans start size shift → sm.Rep A → t.legal D A →
      (∀ x ∈ A, (x - start) / 2 ^ shift < 2 ^ 47) →
      ∃ sm' smo' os', spaceMapSync sm t smo os syncPass txg = some (sm', smo', os') ∧ sm'.Rep ∅ ∧
        SyncRun start size shift object smo' os' (t.effect D A) := by
  obtain ⟨hobj, l, hlog⟩ := h.log hgeom.alignStart
  refine ⟨hlog.alloc, ?_, ?_, ?_⟩
  · rw [← hobj, hlog.written.words]
    exact hlog.written.size
  · intro sm ops hspans hempty hloading hloaded
    obtain ⟨rfl, rfl, rfl⟩ := hspans
    have hload :=
      fun m => spaceMapLoad_spec hempty hloading hloaded hlog.written.logged hlog.replays
      hlog.alloc ops (m := m) fun _ => hgeom
    obtain ⟨smF, hrunF, hrepF, -⟩ := hload .smFree
    obtain ⟨smA, hrunA, hrepA, -⟩ := hload .smAlloc
    exact ⟨⟨smF, hrunF, hrepF⟩, smA, hrunA, hrepA⟩
  · intro sm t A syncPass txg hspans hm hlegal hoff
    obtain ⟨sm', smo', os', hrun, hrep, -⟩ :=
      SyncRun.step hgeom.alignStart hobj ⟨l, hlog⟩ hspans hm hlegal hoff syncPass txg
    exact ⟨sm', smo', os', hrun, hrep, h.sync hspans hm hlegal hoff hrun⟩

/-- Object 5 after a sync of a small map, with the map. -/
def smallSync : SpaceMap × SpaceMapObj × Objset :=
  (spaceMapSync (smallMap [.add () 4 6, .remove () 6 2, .add () 2 2] ()) .smAlloc ⟨5, 0, 0⟩
    (fun _ => []) 1 7).getD (spaceMapCreate 0 16 0, ⟨5, 0, 0⟩, fun _ => [])

theorem syncRun_smallSync : SyncRun 0 16 0 5 smallSync.2.1 smallSync.2.2 {2, 3, 4, 5, 8, 9} := by
  have h₀ : SyncRun 0 16 0 5 ⟨5, 0, 0⟩ (fun _ => []) ∅ := SyncRun.create rfl
  have hrun : spaceMapSync (smallMap [.add () 4 6, .remove () 6 2, .add () 2 2] ()) .smAlloc
      ⟨5, 0, 0⟩ (fun _ => []) 1 7 = some (smallSync.1, smallSync.2.1, smallSync.2.2) := rfl
  have hlegal : MapType.smAlloc.legal ∅ {2, 3, 4, 5, 8, 9} := Finset.disjoint_empty_left _
  have h := h₀.sync ⟨rfl, rfl, rfl⟩ (spaceRun_smallMap.rep ()) hlegal (by decide) hrun
  rwa [MapType.effect, Finset.empty_union] at h

theorem space_map_sync_load_smallSync :
    smallSync.2.1 = ⟨5, 24, 6⟩ ∧
    ∃ sm, spaceMapLoad (spaceMapCreate 0 16 0) none .smFree smallSync.2.1 smallSync.2.2 = some sm ∧
      sm.Rep {0, 1, 6, 7, 10, 11, 12, 13, 14, 15} := by
  have hgeom : RangeIn 0 16 0 0 16 := ⟨by decide, by decide, by decide, by decide, by decide⟩
  obtain ⟨-, -, hload, -⟩ := space_map_sync_load hgeom syncRun_smallSync
  obtain ⟨⟨sm, hrun, hrep⟩, -⟩ := hload (spaceMapCreate 0 16 0) none ⟨rfl, rfl, rfl⟩
    (spaceMapCreate_rep (by decide)) rfl rfl
  refine ⟨by decide, sm, hrun, ?_⟩
  convert hrep using 1
  decide

end Polaris
