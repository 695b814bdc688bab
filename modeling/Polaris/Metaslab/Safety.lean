import Polaris.Metaslab.Run

/-!
# What a run of the allocator guarantees

Two properties of every pool that is reached.  Space that is in use is not handed out
again before the group that freed it is done.  And when `metaslab_sync` condenses a
space map object, the object says the same as if the group had been appended to it.

## Main statements

* `metaslab_run_safe`
* `metaslab_condense_eq_append`
-/

namespace Polaris

open Finset

/-! ## Blocks are safe -/

/-- **Allocated space is not handed out.**  At every point of a run the blocks that are
live or that were freed in a group that is not done do not overlap.  The map that
`metaslab_group_alloc` takes space from, which is loaded if need be, has none of their
bytes.  An allocation returns, and the address that it hands out overlaps none of them. -/
theorem metaslab_run_safe {g : ℕ → Geometry} {spa : Spa} {S : ℕ} {cur : Syncing}
    {blocks : List Block} (h : SpaRun g spa S cur blocks) :
    blocks.Pairwise Block.Apart ∧
    (∀ v m, spa.HasMs v m → ∃ sm A,
      spaceMapLoad ((spa.vdevChild v).vdevMs m).msMap (some .metaslabFfOps) .smFree
        ((spa.vdevChild v).vdevMs m).msSmo spa.spaMetaObjset.words = some sm ∧ sm.Rep A ∧
      ∀ b ∈ blocks, b.vdev = v → Disjoint b.range A) ∧
    ∀ psize dva hintdva txg stat rotor, 0 < psize → psize ≤ spaMaxblocksize →
      (∀ v m, spa.HasMs v m → cur v m ≤ txg) → txg ≤ S + 2 →
      metaslabAllocStart spa dva hintdva = some rotor →
      ∃ spa' r, metaslabAllocDva spa psize dva hintdva txg stat = some (spa', r) ∧
        ∀ d, r = .ok d → ∀ b ∈ blocks, b.vdev = d.vdev →
          Disjoint b.range (Ico d.offset (d.offset + d.asize)) := by
  obtain ⟨L, hL⟩ := h.inv
  refine ⟨hL.apart, fun v m hvm => ?_, ?_⟩
  · have hm := (hL.refines.hasMs.mp hvm).2
    have hms := (hL.refines.vdev v hvm.1).ms m hm
    obtain ⟨sm, hload, hl, -⟩ := hms.load
    refine ⟨sm, _, hload, hl.rep, fun b hb hbv => ?_⟩
    subst hbv
    refine (hL.held b hb).disjoint_avail hm ?_ (Subset.refl _)
    rw [← hms.all]
    exact filter_subset _ _
  · intro psize dva hintdva txg stat rotor hpos hmax hcur htxg hstart
    have hflight : L.InFlight spa g txg := fun v m hv hm => by
      have hvm := hL.refines.hasMs.mpr ⟨hv, hm⟩
      exact hL.inFlight hvm (hcur v m hvm) htxg
    obtain ⟨spa', r, hrun, -, hr⟩ := metaslabAllocDva_spec hL.refines hpos hmax hflight hstart stat
    refine ⟨spa', r, hrun, fun d hd b hb hbv => ?_⟩
    rcases hr with ⟨hfull, -⟩ | ⟨d', hd', ⟨m, hv, hm, hrange, ht, hI, -⟩⟩
    · cases hd.symm.trans hfull
    cases hd.symm.trans hd'
    obtain ⟨vdev, offset, asize, gang⟩ := d
    simp only at hbv hv hm hrange ht hI
    subst hbv
    exact (hL.held b hb).disjoint_avail hm hrange.subset hI

/-! ## A small pool -/

/-- An object set with the array of a device and the space map object of its only
metaslab. -/
def smallMos : Mos where
  words := Function.update (Function.update (fun _ => []) 1 [2]) 2
    [runWord .smAlloc 0 2, runWord .smAlloc 2 2]
  bonus := fun _ => ⟨2, 16, 4⟩

/-- A device of sixteen bytes, before its metaslabs are set up. -/
def smallVdev : Vdev where
  vdevId := 0
  vdevAshift := 0
  vdevAsize := 16
  vdevOpAsize := fun psize => psize
  vdevMsArray := 1
  vdevMsShift := 4
  vdevMsCount := 0
  vdevMs := fun _ =>
    { msSmo := ⟨0, 0, 0⟩
      msSmoSyncing := ⟨0, 0, 0⟩
      msAllocmap := fun _ => spaceMapCreate 0 0 0
      msFreemap := fun _ => spaceMapCreate 0 0 0
      msMap := spaceMapCreate 0 0 0
      msWeight := 0 }
  vdevMg := metaslabGroupCreate 0

/-- A pool with that device. -/
def smallSpa : Spa where
  vdevChildren := 1
  vdevChild := fun _ => (vdevMetaslabInit smallVdev smallMos 0).getD smallVdev
  mcRing := [0]
  mcRotor := 0
  mcAllocated := 0
  spaFreezeTxg := 2 ^ 64 - 1
  spaMetaObjset := smallMos

/-- One metaslab of sixteen bytes. -/
def smallGeometry : Geometry where
  ashift := 0
  msShift := 4
  msCount := 1
  ashift_le := by decide
  units := by decide
  light := by decide
  fits := by decide

theorem smallSpa_log : ObjLog 0 16 0 smallMos.words ⟨2, 16, 4⟩
    [runWord .smAlloc 0 2, runWord .smAlloc 2 2] (Ico 0 4) := by
  refine ⟨⟨rfl, rfl⟩, ?_, rfl⟩
  have hfirst : Replays 0 16 0 [runWord .smAlloc 0 2] (Ico 0 2) :=
    .run (l := []) .smAlloc .nil (by decide)
      (by decide) ⟨by decide, by decide, by decide, by decide,
      by decide⟩ (disjoint_empty_left _)
  have hdis : Disjoint (Ico 0 2) (wordRange 0 0 (runWord .smAlloc 2 2)) := by decide
  exact .run .smAlloc hfirst (by decide) (by decide) ⟨by decide, by decide, by decide, by decide,
    by decide⟩ hdis

theorem smallSpa_opened : smallSpa.Opened (fun _ => smallGeometry) (fun _ _ => Ico 0 4) := by
  have hchild : (vdevMetaslabInit smallVdev smallMos 0).isSome = true := by decide +kernel
  have hcount : (smallSpa.vdevChild 0).vdevMsCount = 1 := by decide +kernel
  have hobj : smallSpa.smObject 0 0 = 2 := by decide +kernel
  have harray : (smallSpa.vdevChild 0).vdevMsArray = 1 := by decide +kernel
  have hzero : ∀ v m, smallSpa.HasMs v m → v = 0 ∧ m = 0 := by
    intro v m hvm
    have hv : v = 0 := Nat.lt_one_iff.mp hvm.1
    subst hv
    have hm := hvm.2
    rw [hcount] at hm
    omega
  refine ⟨⟨fun v hv => ?_, by decide, fun v hv => ?_, fun v hv psize hpos hmax => ?_⟩,
    ⟨fun v m v' m' h h' _ _ => ?_, fun v m v' h hv' _ => ?_⟩, fun v hv => ?_⟩
  · obtain rfl := Nat.lt_one_iff.mp hv
    decide +kernel
  · obtain rfl := Nat.lt_one_iff.mp hv
    decide +kernel
  · have hop : ∀ v, (smallSpa.vdevChild v).vdevOpAsize psize = psize := fun _ => rfl
    have hlt : psize < 2 ^ 32 := hmax.trans_lt (by decide)
    rw [hop]
    exact ⟨hpos, hlt.trans (by decide), Nat.not_dvd_of_pos_of_lt hpos hlt, one_dvd _⟩
  · obtain ⟨rfl, rfl⟩ := hzero v m h
    obtain ⟨rfl, rfl⟩ := hzero v' m' h'
    exact ⟨rfl, rfl⟩
  · obtain ⟨rfl, rfl⟩ := hzero v m h
    obtain rfl := Nat.lt_one_iff.mp hv'
    rw [hobj, harray]
    decide
  · refine ⟨smallVdev, 0, by decide, rfl, rfl, by decide, rfl, rfl, fun m hm => Or.inr ?_, ?_⟩
    · obtain rfl := Nat.lt_one_iff.mp hm
      exact ⟨by decide, _, smallSpa_log⟩
    · exact (Option.some_get hchild).symm.trans (by rfl)

/-- The pool after four bytes have been allocated in group 4. -/
def busySpa : Spa :=
  ((metaslabAllocDva smallSpa 4 [] none 4 ⟨fun _ => 0, fun _ => 0, 0,
    0⟩).map Prod.fst).getD smallSpa

theorem busySpa_eq : metaslabAllocDva smallSpa 4 [] none 4 ⟨fun _ => 0, fun _ => 0, 0, 0⟩ =
    some (busySpa, .ok ⟨0, 4, 4, false⟩) := rfl

theorem spaRun_busySpa : SpaRun (fun _ => smallGeometry) busySpa 4 (fun _ _ => 4)
    [⟨0, 4, 4, 4, none⟩, ⟨0, 0, 4, 1, none⟩] := by
  refine .alloc (.start smallSpa_opened ?_ ?_ (List.pairwise_singleton ..)) (by decide) (by decide)
    (fun _ _ _ => le_rfl) (by decide) busySpa_eq
  · intro b hb
    obtain rfl := List.mem_singleton.mp hb
    exact ⟨by decide, by decide, ⟨by decide, by decide, by decide, by decide, by decide⟩⟩
  · intro b hb
    obtain rfl := List.mem_singleton.mp hb
    exact ⟨rfl, Subset.refl _⟩

theorem metaslab_run_safe_busySpa :
    [(⟨0, 4, 4, 4, none⟩ : Block), ⟨0, 0, 4, 1, none⟩].Pairwise Block.Apart ∧
    ∃ spa r, metaslabAllocDva busySpa 4 [] none 5 ⟨fun _ => 0, fun _ => 0, 0, 0⟩ = some (spa, r) ∧
      ∀ d, r = .ok d → ∀ b ∈ [(⟨0, 4, 4, 4, none⟩ : Block), ⟨0, 0, 4, 1, none⟩], b.vdev = d.vdev →
        Disjoint b.range (Ico d.offset (d.offset + d.asize)) :=
  have h := metaslab_run_safe spaRun_busySpa
  ⟨h.1, h.2.2 4 [] none 5 _ 0 (by decide) (by decide) (fun _ _ _ => by decide) (by decide) rfl⟩

/-! ## Condensing loses nothing -/

/-- An object that logs `D` loads to what is not in `D`. -/
theorem ObjLog.load_free {e : Extent} {words : Objset} {smo : SpaceMapObj} {l : List ℕ}
    {D : Finset ℕ} (h : ObjLog e.start e.size e.shift words smo l D) :
    ∃ sm, spaceMapLoad (spaceMapCreate e.start e.size e.shift)
    (some .metaslabFfOps) .smFree smo words =
        some sm ∧ sm.Rep (e.bytes \ D) := by
  have hon := SpaceMap.On.create e
  obtain ⟨sm, hrun, hrep, -⟩ := spaceMapLoad_spec (m := .smFree) hon.rep rfl rfl h.written.logged
    h.replays h.alloc (some .metaslabFfOps) fun _ => e.units
  exact ⟨sm, hrun, hrep⟩

/-- **Condensing is appending.**  When `metaslab_sync` condenses the object, the object
loads to the same free space, and its bonus buffer records the same allocated space, as if
the allocations and the frees of the group had been appended to it. -/
theorem metaslab_condense_eq_append {g : ℕ → Geometry} {spa : Spa} {S : ℕ} {cur : Syncing}
    {blocks : List Block} (h : SpaRun g spa S cur blocks) {v m : ℕ} (hvm : spa.HasMs v m)
    (hcur : cur v m = S) {newObject : ℕ} (hnew : spa.Fresh newObject) {syncPass : ℕ}
    {msp₁ : Metaslab} {mos₁ : Mos}
    (hopen : metaslabSyncOpen (spa.vdevChild v) ((spa.vdevChild v).vdevMs m) spa.spaMetaObjset S
      newObject = some (msp₁, mos₁))
    (hcond : metaslabShouldCondense msp₁ syncPass = true) :
    ∃ msp mos msp' mos' object,
      metaslabSync (spa.vdevChild v) ((spa.vdevChild v).vdevMs m) spa.spaMetaObjset S syncPass
        newObject = some (msp, mos) ∧
      metaslabAppend (spa.vdevChild v) ((spa.vdevChild v).vdevMs m) spa.spaMetaObjset S syncPass
        newObject = some (msp', mos') ∧
      msp.msSmoSyncing.smoObject = object ∧ msp'.msSmoSyncing.smoObject = object ∧
      mos.bonus object = msp.msSmoSyncing ∧ mos'.bonus object = msp'.msSmoSyncing ∧
      (mos.bonus object).smoAlloc = (mos'.bonus object).smoAlloc ∧
      ∃ sm sm' A,
        spaceMapLoad (spaceMapCreate msp.msMap.smStart msp.msMap.smSize msp.msMap.smShift)
          (some .metaslabFfOps) .smFree (mos.bonus object) mos.words = some sm ∧ sm.Rep A ∧
        spaceMapLoad (spaceMapCreate msp.msMap.smStart msp.msMap.smSize msp.msMap.smShift)
          (some .metaslabFfOps) .smFree (mos'.bonus object) mos'.words = some sm' ∧ sm'.Rep A := by
  obtain ⟨L, hL⟩ := h.inv
  have hms := (hL.refines.vdev v hvm.1).ms m (hL.refines.hasMs.mp hvm).2
  have hfresh := hL.freshObject hvm hnew
  have hsyncing : (L v m).syncing = S := (hL.syncing v m hvm).trans hcur
  have hl : ((spa.vdevChild v).vdevMs m).msMap.smLoaded = true := by
    obtain ⟨fm, smo, words, -, hopen', -⟩ := metaslabSyncOpen_spec hms hfresh
    rw [hsyncing] at hopen'
    cases hopen.symm.trans hopen'
    simp only [metaslabShouldCondense, Bool.and_eq_true] at hcond
    exact hcond.1.1
  obtain ⟨_, _, _, _, msp, mos, hopen', hcondense, hwrite, ho⟩ :=
    metaslabSync_condense_spec hms hl hfresh syncPass
  obtain ⟨msp', mos', happend, ho', -⟩ := metaslabAppend_spec hms hfresh syncPass
  rw [hsyncing] at hopen' hcondense hwrite happend
  cases hopen.symm.trans hopen'
  have hsync : metaslabSync (spa.vdevChild v)
    ((spa.vdevChild v).vdevMs m) spa.spaMetaObjset S syncPass
      newObject = some (msp, mos) := by
    refine bind_of_some hopen ?_
    simp only [if_pos hcond]
    exact bind_of_some hcondense hwrite
  obtain ⟨l, hlog⟩ := ho.log
  obtain ⟨l', hlog'⟩ := ho'.log
  obtain ⟨sm, hload, hrep⟩ := hlog.load_free
  obtain ⟨sm', hload', hrep'⟩ := hlog'.load_free
  have hs := hms.spans
  refine ⟨msp, mos, msp', mos', _, hsync, happend, ho.object, ho'.object, ho.bonus, ho'.bonus, ?_,
    sm, sm', _, ?_, hrep, ?_, hrep'⟩
  · rw [ho.bonus, ho'.bonus, hlog.alloc, hlog'.alloc]
  · rw [ho.map, hs.start, hs.size, hs.shift, ho.bonus]
    exact hload
  · rw [ho.map, hs.start, hs.size, hs.shift, ho'.bonus]
    exact hload'

theorem metaslab_condense_eq_append_busySpa :
    ∃ msp mos msp' mos' object,
      metaslabSync (busySpa.vdevChild 0)
        ((busySpa.vdevChild 0).vdevMs 0) busySpa.spaMetaObjset 4 1 3 =
        some (msp, mos) ∧
      metaslabAppend (busySpa.vdevChild 0)
        ((busySpa.vdevChild 0).vdevMs 0) busySpa.spaMetaObjset 4 1 3 =
        some (msp', mos') ∧
      (mos.bonus object).smoAlloc = (mos'.bonus object).smoAlloc := by
  have hcount : (busySpa.vdevChild 0).vdevMsCount = 1 := by decide +kernel
  have hobj : busySpa.smObject 0 0 = 2 := by decide +kernel
  have harray : (busySpa.vdevChild 0).vdevMsArray = 1 := by decide +kernel
  have hnew : busySpa.Fresh 3 := by
    refine ⟨by decide, by decide +kernel, fun v m hvm => ?_, fun v hv => ?_⟩
    · obtain rfl := Nat.lt_one_iff.mp hvm.1
      have hm := hvm.2
      rw [hcount] at hm
      obtain rfl := Nat.lt_one_iff.mp hm
      rw [hobj]
      decide
    · obtain rfl := Nat.lt_one_iff.mp hv
      rw [harray]
      decide
  have hopen : (metaslabSyncOpen (busySpa.vdevChild 0) ((busySpa.vdevChild 0).vdevMs 0)
      busySpa.spaMetaObjset 4 3).any (fun r => metaslabShouldCondense r.1 1) = true := by
    decide +kernel
  cases hrun : metaslabSyncOpen (busySpa.vdevChild 0) ((busySpa.vdevChild 0).vdevMs 0)
      busySpa.spaMetaObjset 4 3 with
  | none => simp [hrun] at hopen
  | some r =>
    rw [hrun] at hopen
    obtain ⟨msp, mos, msp', mos', object, h1, h2, -, -, -, -, h3, -⟩ :=
      metaslab_condense_eq_append spaRun_busySpa (v := 0) (m := 0)
        ⟨by decide, by rw [hcount]; decide⟩ rfl hnew hrun hopen
    exact ⟨msp, mos, msp', mos', object, h1, h2, h3⟩

end Polaris
