import Polaris.Metaslab.Device

/-!
# The pool

A pool keeps a ledger for each metaslab of each of its devices.  `metaslab_alloc_dva`
goes round the devices until one of them has room: it always returns, and an address
that it returns was available.

## Main definitions

* `Ledgers`, `Spa.Refines`, `Spa.Allocated`
-/

namespace Polaris

open Finset

/-! ## Ledgers -/

/-- The ledgers of a pool, by device and metaslab. -/
abbrev Ledgers := ℕ → ℕ → Ledger ℕ

/-- Change one ledger. -/
def Ledgers.set (L : Ledgers) (v m : ℕ) (l : Ledger ℕ) : Ledgers :=
  Function.update L v (Function.update (L v) m l)

@[simp] theorem Ledgers.set_self (L : Ledgers) (v m : ℕ) (l : Ledger ℕ) : L.set v m l v m = l := by
  simp [set]

/-- Changing a function of two arguments at one place. -/
theorem update_update_apply {α : Type} (f : ℕ → ℕ → α) (v m : ℕ) (x : α) (v' m' : ℕ) :
    Function.update f v (Function.update (f v) m x) v' m' =
      if v' = v ∧ m' = m then x else f v' m' := by
  by_cases hv : v' = v
  · subst hv
    simp [Function.update_apply]
  · simp [hv]

variable {g : ℕ → Geometry} {v psize txg : ℕ} {spa : Spa} {L : Ledgers} {vd : Vdev}

theorem Ledgers.set_of_ne (L : Ledgers) {m v' m' : ℕ} (l : Ledger ℕ) (h : ¬ (v' = v ∧ m' = m)) :
    L.set v m l v' m' = L v' m' :=
  (update_update_apply ..).trans (if_neg h)

/-! ## Pools -/

/-- What is fixed in a pool.  A block of any size takes whole units of a device. -/
structure Spa.Sound (spa : Spa) (g : ℕ → Geometry) : Prop where
  id : ∀ v, v < spa.vdevChildren → (spa.vdevChild v).vdevId = v
  ring : ∀ v ∈ spa.mcRing, v < spa.vdevChildren
  asize : ∀ v, v < spa.vdevChildren → (spa.vdevChild v).vdevAsize < 2 ^ 64
  opAsize : ∀ v, v < spa.vdevChildren → ∀ psize, 0 < psize → psize ≤ spaMaxblocksize →
    0 < (spa.vdevChild v).vdevOpAsize psize ∧ (spa.vdevChild v).vdevOpAsize psize < 2 ^ 62 ∧
      ¬ 2 ^ 32 ∣ (spa.vdevChild v).vdevOpAsize psize ∧
        2 ^ (g v).ashift ∣ (spa.vdevChild v).vdevOpAsize psize

theorem Spa.Sound.congr {spa' : Spa} (h : spa.Sound g) (hchildren : spa'.vdevChildren
    = spa.vdevChildren)
    (hring : spa'.mcRing = spa.mcRing)
    (hvdev : ∀ v, (spa'.vdevChild v).vdevId = (spa.vdevChild v).vdevId ∧
      (spa'.vdevChild v).vdevAsize = (spa.vdevChild v).vdevAsize ∧
      (spa'.vdevChild v).vdevOpAsize = (spa.vdevChild v).vdevOpAsize) : spa'.Sound g := by
  refine ⟨fun v hv => ?_, by rw [hring, hchildren]; exact h.ring, fun v hv => ?_, fun v hv => ?_⟩
  · rw [(hvdev v).1]
    exact h.id v (hchildren ▸ hv)
  · rw [(hvdev v).2.1]
    exact h.asize v (hchildren ▸ hv)
  · rw [(hvdev v).2.2]
    exact h.opAsize v (hchildren ▸ hv)

/-- The pool keeps the ledgers `L`. -/
structure Spa.Refines (spa : Spa) (g : ℕ → Geometry) (L : Ledgers) : Prop where
  sound : spa.Sound g
  vdev : ∀ v, v < spa.vdevChildren →
    (spa.vdevChild v).Refines (g v) spa.spaMetaObjset.words (L v)

/-- The pool is the same up to the metaslabs, which have the same objects, and up to the
order in which groups and metaslabs are tried. -/
structure Spa.Kept (spa spa' : Spa) : Prop where
  children : spa'.vdevChildren = spa.vdevChildren
  ring : spa'.mcRing = spa.mcRing
  mos : spa'.spaMetaObjset = spa.spaMetaObjset
  vdev : ∀ v, (spa.vdevChild v).Kept (spa'.vdevChild v)

namespace Spa.Kept

variable {spa spa' spa'' : Spa}

theorem refl (spa : Spa) : spa.Kept spa := ⟨rfl, rfl, rfl, fun _ => .refl _⟩

theorem trans (h : spa.Kept spa') (h' : spa'.Kept spa'') : spa.Kept spa'' :=
  ⟨h'.children.trans h.children, h'.ring.trans h.ring, h'.mos.trans h.mos,
    fun v => (h.vdev v).trans (h'.vdev v)⟩

theorem setVdev (h : (spa.vdevChild v).Kept vd) : spa.Kept (spa.setVdev v vd) := by
  refine ⟨rfl, rfl, rfl, fun k => ?_⟩
  by_cases hk : k = v
  · subst hk
    simpa [Spa.setVdev] using h
  · simpa [Spa.setVdev, hk] using Vdev.Kept.refl _

theorem sound (h : spa.Kept spa') (hs : spa.Sound g) : spa'.Sound g :=
  hs.congr h.children h.ring fun v => ⟨(h.vdev v).id, (h.vdev v).asize, (h.vdev v).opAsize⟩

end Spa.Kept

namespace Spa.Refines

variable {spa : Spa} {g : ℕ → Geometry} {L : Ledgers} {v m : ℕ}

/-- Changing one device. -/
theorem setVdev (h : spa.Refines g L) (hk : (spa.vdevChild v).Kept vd) {Lv : ℕ → Ledger ℕ}
    (hvd : vd.Refines (g v) spa.spaMetaObjset.words Lv) :
    (spa.setVdev v vd).Refines g (Function.update L v Lv) := by
  refine ⟨(Kept.setVdev hk).sound h.sound, fun k hk => ?_⟩
  by_cases hkv : k = v
  · subst hkv
    simpa [Spa.setVdev] using hvd
  · simpa [Spa.setVdev, hkv] using h.vdev k hk

/-- Changing a device but not its ledgers. -/
theorem setVdev_self (h : spa.Refines g L) (hk : (spa.vdevChild v).Kept vd)
    (hvd : vd.Refines (g v) spa.spaMetaObjset.words (L v)) : (spa.setVdev v vd).Refines g L := by
  have := h.setVdev hk hvd
  rwa [Function.update_eq_self] at this

/-- The order of the groups and of the metaslabs does not matter. -/
theorem set_rotor (h : spa.Refines g L) (rotor allocated : ℕ) :
    { spa with mcRotor := rotor, mcAllocated := allocated }.Refines g L :=
  ⟨⟨h.sound.id, h.sound.ring, h.sound.asize, h.sound.opAsize⟩, h.vdev⟩

end Spa.Refines

/-! ## Allocating -/

/-- The address `d` was handed out in group `txg`: it was available, and it is
accounted for. -/
inductive Spa.Allocated (g : ℕ → Geometry) (L : Ledgers) (txg : ℕ) (spa : Spa) (d : Dva) : Prop
  | intro (m : ℕ) (hv : d.vdev < spa.vdevChildren) (hm : m < (g d.vdev).msCount)
      (hr : ((g d.vdev).extent m hm).Range d.offset d.asize)
      (ht : (L d.vdev m).syncing ≤ txg ∧ txg ≤ (L d.vdev m).syncing + 2)
      (hI : Ico d.offset (d.offset + d.asize) ⊆ (L d.vdev m).avail)
      (h : spa.Refines g (L.set d.vdev m ((L d.vdev m).allocate txg _ ht hI)))

/-- Group `txg` is in flight for all metaslabs. -/
def Ledgers.InFlight (L : Ledgers) (spa : Spa) (g : ℕ → Geometry) (txg : ℕ) : Prop :=
  ∀ v m, v < spa.vdevChildren → m < (g v).msCount →
    (L v m).syncing ≤ txg ∧ txg ≤ (L v m).syncing + 2

theorem metaslabRotate_spec (h : spa.Refines g L) (stat : SpaStat) (hv : v < spa.vdevChildren)
    (asize : ℕ) :
    (metaslabRotate spa stat v asize).Refines g L ∧ spa.Kept (metaslabRotate spa stat v asize) := by
  simp only [metaslabRotate]
  generalize hmg : (if spa.mcAllocated = 0 then { (spa.vdevChild v).vdevMg with
      mgBias := metaslabBias stat v (spa.vdevChild v).vdevMg.mgAliquot }
    else (spa.vdevChild v).vdevMg) = mg
  have htree : mg.mgMetaslabTree = (spa.vdevChild v).vdevMg.mgMetaslabTree := by
    rw [← hmg]
    split <;> rfl
  have hk : (spa.vdevChild v).Kept { spa.vdevChild v with vdevMg := mg } :=
    ⟨⟨rfl, rfl, rfl, rfl, rfl, rfl, rfl⟩, fun _ => rfl⟩
  have hvd := h.vdev v hv
  have h' : (spa.setVdev v { spa.vdevChild v with vdevMg := mg }).Refines g L :=
    h.setVdev_self hk ⟨hvd.ashift, hvd.msShift, hvd.msCount, hvd.ms, htree ▸ hvd.tree⟩
  have hkept := Spa.Kept.setVdev hk
  split
  · exact ⟨h'.set_rotor _ _, ⟨hkept.children, hkept.ring, hkept.mos, hkept.vdev⟩⟩
  · exact ⟨h'.set_rotor _ _, ⟨hkept.children, hkept.ring, hkept.mos, hkept.vdev⟩⟩

/-- The distance of a round is zero for a device. -/
def Spa.near (spa : Spa) (dshift v : ℕ) : Bool :=
  (spa.vdevChild v).vdevAsize >>> dshift ≤ 1 <<< (spa.vdevChild v).vdevMsShift

theorem Spa.Kept.near {spa' : Spa} (h : spa.Kept spa') (dshift v : ℕ) :
    spa'.near dshift v = spa.near dshift v := by
  rw [Spa.near, Spa.near, (h.vdev v).asize, (h.vdev v).msShift]

/-- The distances get down to zero. -/
theorem Spa.Sound.near (h : spa.Sound g) {dshift : ℕ} (hv : v < spa.vdevChildren)
    (hd : 63 ≤ dshift) :
    spa.near dshift v = true := by
  have hasize := h.asize v hv
  have hfar : (spa.vdevChild v).vdevAsize >>> dshift ≤ 1 := by
    rw [Nat.shiftRight_eq_div_pow]
    have hle := Nat.div_le_div_left (a := (spa.vdevChild v).vdevAsize)
      (Nat.pow_le_pow_right (by norm_num : 0 < 2) hd) (Nat.two_pow_pos 63)
    omega
  rw [Spa.near, decide_eq_true_eq, Nat.shiftLeft_eq, Nat.one_mul]
  exact hfar.trans Nat.one_le_two_pow

/-- What a round over the groups returns. -/
inductive Spa.RingResult (g : ℕ → Geometry) (L : Ledgers) (txg : ℕ) (zero : Bool) :
    Spa → Bool ⊕ Dva → Prop
  | full {spa : Spa} (h : spa.Refines g L) : RingResult g L txg zero spa (.inl zero)
  | room {spa : Spa} {d : Dva} (h : Spa.Allocated g L txg spa d) :
      RingResult g L txg zero spa (.inr d)

/-- One round over the groups either finds room or has tried all of them. -/
theorem metaslabAllocRing_spec (hpos : 0 < psize) (hmax : psize ≤ spaMaxblocksize) (dva : List Dva)
    (dshift : ℕ) (stat : SpaStat) (vs : List ℕ) :
    ∀ (spa : Spa) (allZero : Bool), spa.Refines g L → L.InFlight spa g txg →
      (∀ v ∈ vs, v < spa.vdevChildren) →
      ∃ spa' r, metaslabAllocRing psize dva txg dshift stat vs allZero spa = some (spa', r) ∧
        spa.Kept spa' ∧ Spa.RingResult g L txg (allZero && vs.all (spa.near dshift)) spa' r := by
  induction vs with
  | nil =>
    intro spa allZero h _ _
    refine ⟨spa, .inl allZero, rfl, .refl spa, ?_⟩
    rw [List.all_nil, Bool.and_true]
    exact .full h
  | cons v vs ih =>
    intro spa allZero h ht hvs
    have hv : v < spa.vdevChildren := hvs v (by simp)
    obtain ⟨h0, hlt, hlow, hdvd⟩ := h.sound.opAsize v hv psize hpos hmax
    obtain ⟨offset, vd, hrun, hk, ha⟩ := metaslabGroupAlloc_spec h0 hlt hlow hdvd
      (fun m hm => ht v m hv hm)
      (if (spa.vdevChild v).vdevAsize >>> dshift ≤ 1 <<< (spa.vdevChild v).vdevMsShift then 0
        else (spa.vdevChild v).vdevAsize >>> dshift) dva (h.vdev v hv)
    have hkept := Spa.Kept.setVdev hk
    rw [metaslabAllocRing]
    cases ha with
    | full hfull =>
      have h' : (spa.setVdev v vd).Refines g L := h.setVdev_self hk hfull
      set spa₁ : Spa :=
        { spa.setVdev v vd with mcRotor := mgNext spa.mcRing v, mcAllocated := 0 }
      have hkept₁ : spa.Kept spa₁ := ⟨hkept.children, hkept.ring, hkept.mos, hkept.vdev⟩
      obtain ⟨spa', r, hrest, hk', hr⟩ := ih spa₁ (allZero && spa.near dshift v)
        (h'.set_rotor _ _) ht fun w hw => hvs w (by simp [hw])
      refine ⟨spa', r, bind_of_some hrun ?_, hkept₁.trans hk', ?_⟩
      · exact (if_neg (by simp)).trans hrest
      · rw [funext fun w => hkept₁.near dshift w, Bool.and_assoc, ← List.all_cons] at hr
        exact hr
    | room hoff hm hr hwin hI hroom =>
      have h' := h.setVdev hk hroom
      obtain ⟨h'', hk''⟩ := metaslabRotate_spec h' stat (v := v) hv
        (vdevPsizeToAsize (spa.vdevChild v) psize)
      have hid : vd.vdevId = v := hk.id.trans (h.sound.id v hv)
      refine ⟨_, _, bind_of_some hrun (if_pos hoff), hkept.trans hk'', .room ?_⟩
      subst hid
      exact .intro _ (by rw [hk''.children]; exact hv) hm hr hwin hI h''

theorem metaslabAllocTop_spec (hpos : 0 < psize) (hmax : psize ≤ spaMaxblocksize) (dva : List Dva)
    (stat : SpaStat) {vs : List ℕ} (n : ℕ) :
    ∀ (dshift : ℕ) (spa : Spa), spa.Refines g L → L.InFlight spa g txg →
      (∀ v ∈ vs, v < spa.vdevChildren) → 64 ≤ dshift + n → 0 < n →
      ∃ spa' r, metaslabAllocTop psize dva txg stat vs n dshift spa = some (spa', r) ∧
        spa.Kept spa' ∧
        (r = .error .enospc ∧ spa'.Refines g L ∨
          ∃ d, r = .ok d ∧ Spa.Allocated g L txg spa' d) := by
  induction n with
  | zero => omega
  | succ n ih =>
    intro dshift spa h ht hvs hn _
    obtain ⟨spa', r, hrun, hk, hr⟩ :=
      metaslabAllocRing_spec hpos hmax dva dshift stat vs spa true h ht
      hvs
    rw [metaslabAllocTop]
    cases hr with
    | room ha => exact ⟨spa', _, bind_of_some hrun rfl, hk, Or.inr ⟨_, rfl, ha⟩⟩
    | full h' =>
      cases hzero : true && vs.all (spa.near dshift) with
      | true =>
        rw [hzero] at hrun
        exact ⟨spa', _, bind_of_some hrun rfl, hk, Or.inl ⟨rfl, h'⟩⟩
      | false =>
        rw [hzero] at hrun
        -- some device is larger than the distance of this round
        have hn0 : 0 < n := by
          by_contra h0
          have hall : vs.all (spa.near dshift) = true :=
            List.all_eq_true.mpr fun v hv => h.sound.near (hvs v hv) (by omega)
          simp [hall] at hzero
        obtain ⟨spa'', r, hrest, hk', hr⟩ := ih (dshift + 1) spa' h' (by
          intro v m hv hm
          exact ht v m (hk.children ▸ hv) hm) (fun v hv => hk.children ▸ hvs v hv) (by omega) hn0
        exact ⟨spa'', r, bind_of_some hrun hrest, hk.trans hk', hr⟩

theorem mem_of_mem_ringFrom {ring : List ℕ} {x : ℕ} (h : x ∈ ringFrom ring v) : x ∈ ring := by
  rcases List.mem_append.mp h with h | h
  · exact (List.dropWhile_sublist _).mem h
  · exact (List.takeWhile_sublist _).mem h

/-- **`metaslab_alloc_dva`** returns, and hands out space that was available. -/
theorem metaslabAllocDva_spec (h : spa.Refines g L) (hpos : 0 < psize)
    (hmax : psize ≤ spaMaxblocksize)
    (ht : L.InFlight spa g txg) {dva : List Dva} {hintdva : Option Dva} {rotor : ℕ}
    (hstart : metaslabAllocStart spa dva hintdva = some rotor) (stat : SpaStat) :
    ∃ spa' r, metaslabAllocDva spa psize dva hintdva txg stat = some (spa', r) ∧ spa.Kept spa' ∧
      (r = .error .enospc ∧ spa'.Refines g L ∨ ∃ d, r = .ok d ∧ Spa.Allocated g L txg spa' d) := by
  obtain ⟨spa', r, hrun, hk, hr⟩ := metaslabAllocTop_spec hpos hmax dva stat
    64 3 spa h ht
    (fun v hv => h.sound.ring v (mem_of_mem_ringFrom hv)) (by omega) (by omega)
  exact ⟨spa', r, bind_of_some hstart hrun, hk, hr⟩

end Polaris
