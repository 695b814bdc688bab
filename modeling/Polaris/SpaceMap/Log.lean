import Polaris.SpaceMap.Refine
import Polaris.SpaceMap.Object

/-!
# Space map objects as logs

The words of a space map object are replayed from the first to the last.  A word
for a run allocates its range or frees it, and `Replays` says that a list of words
is a sensible log and which bytes it leaves allocated: no word allocates what is
allocated, and none frees what is free.

`spaceMapLoad_spec` says that a load yields the allocated bytes, or the others.  The
size of its buffer does not matter.

## Main definitions

* `MapType.legal`, `MapType.effect`
* `wordRange`, `Replays`
* `Logged`
-/

namespace Polaris

open BinTree AvlTree Finset

variable {D : Finset ℕ} {l : List ℕ} {sm : SpaceMap} {m : MapType} {smo : SpaceMapObj} {start : ℕ}
  {os : Objset}

/-! ## The words -/

theorem runWord_eq {maptype : MapType} {runLen : ℕ} (hstart : start < 2 ^ 47) (hrun : 0 < runLen)
    (hmax : runLen ≤ 2 ^ 15) :
    runWord maptype start runLen = start * 2 ^ 16 + (maptype.code * 2 ^ 15 + (runLen - 1)) := by
  have hcode : maptype.code < 2 := by cases maptype <;> decide
  have hsub : u64Sub runLen 1 = runLen - 1 := u64Sub_of_le hrun (by omega)
  rw [runWord, smOffsetEncode, smTypeEncode, smRunEncode, hsub, bf64Encode_eq (by norm_num),
    bf64Encode_eq (by norm_num), bf64Encode_eq (by norm_num), Nat.mod_eq_of_lt hstart,
    Nat.mod_eq_of_lt (by omega : maptype.code < 2 ^ 1),
    Nat.mod_eq_of_lt (by omega : runLen - 1 < 2 ^ 15), pow_zero, mul_one, Nat.lor_assoc,
    mul_comm _ (2 ^ 15), ← Nat.two_pow_add_eq_or_of_lt (by omega : runLen - 1 < 2 ^ 15),
    mul_comm start, ← Nat.two_pow_add_eq_or_of_lt (by omega)]

/-- The fields of a run come back from its word. -/
theorem runWord_decode {maptype : MapType} {runLen : ℕ} (hstart : start < 2 ^ 47)
    (hrun : 0 < runLen) (hmax : runLen ≤ 2 ^ 15) :
    smDebugDecode (runWord maptype start runLen) = 0 ∧
      smTypeDecode (runWord maptype start runLen) = maptype.code ∧
      smOffsetDecode (runWord maptype start runLen) = start ∧
      smRunDecode (runWord maptype start runLen) = runLen := by
  have hcode : maptype.code < 2 := by cases maptype <;> decide
  rw [runWord_eq hstart hrun hmax]
  simp only [smDebugDecode, smTypeDecode, smOffsetDecode, smRunDecode, bf64Decode_eq]
  omega

/-- A debug word is recognised by its top bit. -/
theorem debugWord_decode (maptype : MapType) (syncPass txg : ℕ) :
    smDebugDecode (debugWord maptype syncPass txg) = 1 := by
  have hcode : maptype.code < 2 := by cases maptype <;> decide
  have hact : smDebugActionEncode maptype.code = 2 ^ 60 * maptype.code := by
    rw [smDebugActionEncode, bf64Encode_eq (by norm_num), Nat.mod_eq_of_lt (by omega), mul_comm]
  have hpass : smDebugSyncpassEncode syncPass = 2 ^ 50 * (syncPass % 2 ^ 10) := by
    rw [smDebugSyncpassEncode, bf64Encode_eq (by norm_num), mul_comm]
  have htxg : smDebugTxgEncode txg = txg % 2 ^ 50 := by
    rw [smDebugTxgEncode, bf64Encode_eq (by norm_num), pow_zero, mul_one]
  have hone : smDebugEncode 1 = 2 ^ 63 * 1 := by decide
  have h2 := Nat.mod_lt txg (by norm_num : 2 ^ 50 > 0)
  have hlow : 2 ^ 50 * (syncPass % 2 ^ 10) + txg % 2 ^ 50 < 2 ^ 60 := by omega
  rw [debugWord, hone, hact, hpass, htxg, Nat.lor_assoc, Nat.lor_assoc,
    ← Nat.two_pow_add_eq_or_of_lt h2, ← Nat.two_pow_add_eq_or_of_lt hlow,
    ← Nat.two_pow_add_eq_or_of_lt (by omega), smDebugDecode, bf64Decode_eq]
  omega

theorem smRunMax_eq : smRunMax = 2 ^ 15 := by decide

/-! ## The log -/

/-- A word of type `t` may act on the range `I` when `D` is allocated. -/
def MapType.legal : MapType → Finset ℕ → Finset ℕ → Prop
  | smAlloc, D, I => Disjoint D I
  | smFree, D, I => I ⊆ D

/-- What is allocated after a word of type `t` for the range `I`. -/
def MapType.effect : MapType → Finset ℕ → Finset ℕ → Finset ℕ
  | smAlloc, D, I => D ∪ I
  | smFree, D, I => D \ I

/-- The set that a load with type `t` yields when `D` is allocated. -/
def MapType.view (all : Finset ℕ) : MapType → Finset ℕ → Finset ℕ
  | smAlloc, D => D
  | smFree, D => all \ D

/-- The first byte of the run of a word. -/
def wordStart (start shift e : ℕ) : ℕ := smOffsetDecode e * 2 ^ shift + start

/-- The number of bytes of the run of a word. -/
def wordSize (shift e : ℕ) : ℕ := smRunDecode e * 2 ^ shift

/-- The bytes of the run of a word. -/
def wordRange (start shift e : ℕ) : Finset ℕ :=
  Finset.Ico (wordStart start shift e) (wordStart start shift e + wordSize shift e)

/-- The words are a log of a map from `start` on, and they leave `D` allocated. -/
inductive Replays (start size shift : ℕ) : List ℕ → Finset ℕ → Prop
  | nil : Replays start size shift [] ∅
  | debug {l : List ℕ} {D : Finset ℕ} {e : ℕ} : Replays start size shift l D →
      smDebugDecode e ≠ 0 → Replays start size shift (l ++ [e]) D
  | run {l : List ℕ} {D : Finset ℕ} {e : ℕ} (t : MapType) : Replays start size shift l D →
      smDebugDecode e = 0 → smTypeDecode e = t.code →
      RangeIn start size shift (wordStart start shift e) (wordSize shift e) →
      t.legal D (wordRange start shift e) →
      Replays start size shift (l ++ [e]) (t.effect D (wordRange start shift e))

/-- A range can be acted on in two parts. -/
theorem MapType.legal_union {t : MapType} {I J : Finset ℕ} (hIJ : Disjoint I J)
    (h : t.legal D (I ∪ J)) :
    t.legal D I ∧ t.legal (t.effect D I) J ∧ t.effect (t.effect D I) J = t.effect D (I ∪ J) := by
  cases t with
  | smAlloc =>
    simp only [legal, effect, disjoint_union_right, disjoint_union_left] at h ⊢
    exact ⟨h.1, ⟨h.2, hIJ⟩, union_assoc ..⟩
  | smFree =>
    simp only [legal, effect, union_subset_iff] at h ⊢
    exact ⟨h.1, subset_sdiff.mpr ⟨h.2, hIJ.symm⟩, sdiff_sdiff_left⟩

theorem Replays.subset {size shift : ℕ} (h : Replays start size shift l D) :
    D ⊆ Ico start (start + size) := by
  induction h with
  | nil => simp
  | debug _ _ ih => exact ih
  | run t _ _ _ hr _ ih =>
    cases t with
    | smAlloc => exact union_subset ih (Ico_subset_Ico hr.lower hr.upper)
    | smFree => exact sdiff_subset.trans ih

/-! ## Replaying the log -/

/-- One word of a load. -/
theorem loadWord_run {e : ℕ} {t : MapType}
    (h : sm.Rep (m.view (Ico sm.smStart (sm.smStart + sm.smSize)) D))
    (hdebug : smDebugDecode e = 0) (htype : smTypeDecode e = t.code)
    (hr : sm.Range (wordStart sm.smStart sm.smShift e) (wordSize sm.smShift e))
    (hlegal : t.legal D (wordRange sm.smStart sm.smShift e)) :
    ∃ sm', loadWord m sm e = some sm' ∧ sm.Same sm' ∧
      sm'.Rep (m.view (Ico sm.smStart (sm.smStart + sm.smSize))
        (t.effect D (wordRange sm.smStart sm.smShift e))) := by
  have hbound := h.bound
  have hupper := hr.upper
  have hsub := hr.subset
  set all := Ico sm.smStart (sm.smStart + sm.smSize)
  have hstart : u64 (u64 (smOffsetDecode e <<< sm.smShift) + sm.smStart) =
      wordStart sm.smStart sm.smShift e := by
    rw [wordStart] at hupper
    rw [Nat.shiftLeft_eq, u64_of_lt (by omega : smOffsetDecode e * 2 ^ sm.smShift < 2 ^ 64),
      u64_of_lt (by omega), wordStart]
  have hsize : u64 (smRunDecode e <<< sm.smShift) = wordSize sm.smShift e := by
    rw [wordSize] at hupper
    rw [Nat.shiftLeft_eq, u64_of_lt (by omega), wordSize]
  rw [loadWord, if_neg (by simp [hdebug]), hstart, hsize, htype]
  rw [wordRange] at hlegal ⊢
  cases m with
  | smAlloc =>
    cases t with
    | smAlloc =>
      obtain ⟨sm', hrun, hrep, hsame⟩ := spaceMapAdd_spec h hr hlegal
      exact ⟨sm', hrun, hsame, hrep⟩
    | smFree =>
      obtain ⟨sm', hrun, hrep, hsame⟩ := spaceMapRemove_spec h hr hlegal
      exact ⟨sm', hrun, hsame, hrep⟩
  | smFree =>
    cases t with
    | smAlloc =>
      obtain ⟨sm', hrun, hrep, hsame⟩ := spaceMapRemove_spec h hr
        (subset_sdiff.mpr ⟨hsub, Disjoint.symm hlegal⟩)
      rw [MapType.view, sdiff_sdiff_left] at hrep
      exact ⟨sm', hrun, hsame, hrep⟩
    | smFree =>
      obtain ⟨sm', hrun, hrep, hsame⟩ := spaceMapAdd_spec h hr
        (disjoint_of_subset_right hlegal sdiff_disjoint)
      rw [MapType.view, ← sdiff_sdiff_eq_sdiff_union hsub] at hrep
      exact ⟨sm', hrun, hsame, hrep⟩

/-- **Replaying a log.** -/
theorem Replays.load (hlog : Replays sm.smStart sm.smSize sm.smShift l D)
    (h : sm.Rep (m.view (Ico sm.smStart (sm.smStart + sm.smSize)) ∅)) :
    ∃ sm', l.foldlM (loadWord m) sm = some sm' ∧ sm.Same sm' ∧
      sm'.Rep (m.view (Ico sm.smStart (sm.smStart + sm.smSize)) D) := by
  induction hlog with
  | nil => exact ⟨sm, rfl, SpaceMap.Same.refl sm, h⟩
  | debug _ hdebug ih =>
    obtain ⟨sm₁, hrun, hsame, hrep⟩ := ih
    refine ⟨sm₁, ?_, hsame, hrep⟩
    rw [List.foldlM_append, hrun]
    simp [loadWord, hdebug]
  | run t _ hdebug htype hr hlegal ih =>
    obtain ⟨sm₁, hrun, hsame, hrep⟩ := ih
    rw [← hsame.start, ← hsame.size] at hrep
    rw [← hsame.start, ← hsame.shift] at hlegal hr ⊢
    rw [← hsame.size] at hr ⊢
    obtain ⟨sm₂, hrun₂, hsame₂, hrep₂⟩ := loadWord_run hrep hdebug htype hr hlegal
    refine ⟨sm₂, ?_, hsame.trans hsame₂, hrep₂⟩
    rw [List.foldlM_append, hrun]
    simp [hrun₂]

/-- The object holds the words `l` in front, and `smo_objsize` ends with them. -/
structure Logged (os : Objset) (smo : SpaceMapObj) (l : List ℕ) : Prop where
  size : smo.smoObjsize = 8 * l.length
  words : ∃ r, os smo.smoObject = l ++ r

theorem Logged.read (h : Logged os smo l) {i n : ℕ} (hn : i + n ≤ l.length) :
    dmuRead os smo.smoObject (8 * i) (8 * n) = (l.drop i).take n := by
  obtain ⟨r, hr⟩ := h.words
  have h8 : 8 * i / 8 = i ∧ 8 * n / 8 = n := ⟨by omega, by omega⟩
  rw [dmuRead, h8.1, h8.2, hr]
  refine List.ext_getElem (by simp; omega) fun j h1 h2 => ?_
  simp only [List.length_map, List.length_range] at h1
  have hj : i + j < l.length := by omega
  simp [List.getElem?_append_left hj, List.getElem?_eq_getElem hj]

/-- **The loop of `space_map_load`** replays the log, whatever the size of its
buffer. -/
theorem loadLoop_spec (h : Logged os smo l) (m : MapType) {c : ℕ} (hc : 0 < c) {n i : ℕ}
    (hn : l.length ≤ i + n * c) (sm : SpaceMap) :
    loadLoop m smo os (8 * c) (n + 1) (8 * i) sm = (l.drop i).foldlM (loadWord m) sm := by
  induction n generalizing i sm with
  | zero =>
    have hlen : ¬ 8 * i < smo.smoObjsize := by rw [h.size]; omega
    rw [loadLoop, if_neg hlen, List.drop_eq_nil_of_le (by omega)]
    rfl
  | succ n ih =>
    by_cases hlt : 8 * i < smo.smoObjsize
    · set k := min (l.length - i) c with hk
      rw [h.size] at hlt
      have hsize : min (smo.smoObjsize - 8 * i) (8 * c) = 8 * k := by rw [h.size]; omega
      have hphase : p2phase (8 * k) 8 = 0 := by
        have := p2phase_eq_zero_iff (8 * k) 3
        exact this.mpr (Dvd.intro k rfl)
      have hsplit : l.drop i = (l.drop i).take k ++ l.drop (i + c) := by
        have hdrop : l.drop (i + c) = (l.drop i).drop k := by
          rw [List.drop_drop]
          rcases Nat.le_total c (l.length - i) with hle | hle
          · rw [hk, min_eq_right hle]
          · rw [List.drop_eq_nil_of_le (by omega), List.drop_eq_nil_of_le (by omega)]
        rw [hdrop, List.take_append_drop]
      have hoff : 8 * i + 8 * c = 8 * (i + c) := by omega
      rw [loadLoop, if_pos (by rw [h.size]; exact hlt)]
      simp only [hsize]
      refine (bind_of_some (guard_eq_some hphase)
        (bind_of_some (guard_eq_some (by omega)) rfl)).trans ?_
      rw [h.read (by omega), hoff]
      conv_rhs => rw [hsplit, List.foldlM_append]
      congr 1
      funext sm'
      exact ih (by rw [Nat.add_mul] at hn; omega) sm'
    · have hle : l.length ≤ i := by rw [h.size] at hlt; omega
      rw [loadLoop, if_neg hlt, List.drop_eq_nil_of_le hle]
      rfl

theorem loadStart_spec (h : sm.Rep ∅) (hD : D ⊆ Ico sm.smStart (sm.smStart + sm.smSize))
    (halloc : smo.smoAlloc = D.card) (hwhole : m = .smFree → sm.Range sm.smStart sm.smSize) :
    ∃ sm', loadStart sm m smo =
        some (sm', (m.view (Ico sm.smStart (sm.smStart + sm.smSize)) D).card) ∧
      sm'.Rep (m.view (Ico sm.smStart (sm.smStart + sm.smSize)) ∅) ∧ sm.Same sm' := by
  cases m with
  | smAlloc => exact ⟨sm, by rw [loadStart, halloc]; rfl, h, SpaceMap.Same.refl sm⟩
  | smFree =>
    obtain ⟨sm', hrun, hrep, hsame⟩ := spaceMapAdd_spec h (hwhole rfl) (by simp)
    rw [empty_union] at hrep
    refine ⟨sm', ?_, by simpa [MapType.view] using hrep, hsame⟩
    have hle := card_le_card hD
    have hbound := h.bound
    rw [Nat.card_Ico] at hle
    have hcard : u64Sub sm.smSize D.card =
        (Ico sm.smStart (sm.smStart + sm.smSize) \ D).card := by
      rw [card_sdiff_of_subset hD, Nat.card_Ico, u64Sub_of_le (by omega) (by omega)]
      omega
    rw [loadStart, hrun, halloc, hcard]
    rfl

/-- **`space_map_load`.** -/
theorem spaceMapLoad_spec (h : sm.Rep ∅) (hloading : sm.smLoading = false)
    (hloaded : sm.smLoaded = false) (hlog : Logged os smo l)
    (hreplay : Replays sm.smStart sm.smSize sm.smShift l D) (halloc : smo.smoAlloc = D.card)
    (ops : Option SpaceMapOps) (hwhole : m = .smFree → sm.Range sm.smStart sm.smSize) :
    ∃ sm', spaceMapLoad sm ops m smo os = some sm' ∧
      sm'.Rep (m.view (Ico sm.smStart (sm.smStart + sm.smSize)) D) ∧
      sm'.smStart = sm.smStart ∧ sm'.smSize = sm.smSize ∧ sm'.smShift = sm.smShift ∧
      sm'.smLoaded = true ∧ sm'.smLoading = false ∧ sm'.smOps = ops ∧
      sm'.smPpd = (if ops = none then sm.smPpd else some fun _ => 0) := by
  set all := Ico sm.smStart (sm.smStart + sm.smSize) with hall
  set sm₀ : SpaceMap := { sm with smLoading := true }
  have hrep₀ : sm₀.Rep ∅ := ⟨h.bound, h.tree, h.inside, h.blocks, h.space⟩
  obtain ⟨sm₁, hrun₁, hrep₁, hsame₁⟩ := loadStart_spec hrep₀ hreplay.subset halloc hwhole
  have hstart : sm₁.smStart = sm.smStart := hsame₁.start
  have hsize : sm₁.smSize = sm.smSize := hsame₁.size
  have hshift : sm₁.smShift = sm.smShift := hsame₁.shift
  rw [← hsame₁.start, ← hsame₁.size] at hrep₁
  rw [← hstart, ← hsize, ← hshift] at hreplay
  obtain ⟨sm₂, hrun₂, hsame₂, hrep₂⟩ := hreplay.load hrep₁
  rw [hstart, hsize, ← hall] at hrep₂
  have hloop : loadLoop m smo os (1 <<< spaceMapBlockshift)
      (smo.smoObjsize / (1 <<< spaceMapBlockshift) + 2) 0 sm₁ = some sm₂ := by
    have hbuf : 1 <<< spaceMapBlockshift = 8 * 512 := by decide
    have hfuel : l.length ≤ 0 + (smo.smoObjsize / (8 * 512) + 1) * 512 := by
      rw [hlog.size]
      omega
    rw [hbuf, ← hrun₂]
    exact loadLoop_spec hlog m (by norm_num) hfuel sm₁
  refine ⟨loadDone sm₂ ops, ?_, ?_⟩
  · refine bind_of_some (guard_eq_some hloading) ?_
    rw [if_neg (by simp [hloaded])]
    refine bind_of_some (guard_eq_some hrep₀.space) (bind_of_some hrun₁ ?_)
    exact bind_of_some hloop (bind_of_some (guard_eq_some hrep₂.space) rfl)
  · have hgeom := And.intro (hsame₂.start.trans hstart)
      (And.intro (hsame₂.size.trans hsize) (hsame₂.shift.trans hshift))
    rcases ops with - | ⟨- | -⟩
    · exact ⟨⟨hrep₂.bound, hrep₂.tree, hrep₂.inside, hrep₂.blocks, hrep₂.space⟩, hgeom.1, hgeom.2.1,
        hgeom.2.2, rfl, rfl, rfl, hsame₂.ppd.trans hsame₁.ppd⟩
    · exact ⟨⟨hrep₂.bound, hrep₂.tree, hrep₂.inside, hrep₂.blocks, hrep₂.space⟩, hgeom.1, hgeom.2.1,
        hgeom.2.2, rfl, rfl, rfl, rfl⟩

end Polaris
