import Polaris.Ppc.Mmu
import Polaris.Ppc.Pagetable

/-!
# Ranges of virtual segment identifiers

Every address space has a range of VSIDs of its own.  `vsid_bitmap` says which ranges are in use,
and `vsid_alloc_head` is a list of sets of free ones.  A range that is given back becomes free only
when the garbage collector builds the list again from the bitmap, after it has swept the page table.

The bitmap is the list of its words, and `ppcmmu_max_vsidranges` the number of its bits.
Allocations of list nodes are answered by a function of how many there have been in a run of
`build_vsid_freelist`.

## Main definitions

* `vsidScanWord`, `buildVsidFreelist`
* `VsidState`, `VsidOp` — the address spaces and what happens to them.
* `FreelistRight` — what the list should be; `VsidState.Safe`.
-/

namespace Polaris

open Function List
open BitVec hiding cons not_not replicate

/-! ## The bitmap -/

/-- `IS_VSID_RANGE_INUSE`. -/
def isVsidRangeInuse (bitmap : List (BitVec 32)) (id : ℕ) : Bool :=
  (bitmap.getD (id / 32) 0#32).getLsbD (id % 32)

/-- `SET_VSID_RANGE_INUSE`. -/
def setVsidRangeInuse (bitmap : List (BitVec 32)) (id : ℕ) : List (BitVec 32) :=
  bitmap.modify (id / 32) (· ||| 1#32 <<< (id % 32))

/-- `CLEAR_VSID_RANGE_INUSE`. -/
def clearVsidRangeInuse (bitmap : List (BitVec 32)) (id : ℕ) : List (BitVec 32) :=
  bitmap.modify (id / 32) (· &&& ~~~(1#32 <<< (id % 32)))

/-! ## The free list -/

/-- The variables of `build_vsid_freelist`: `free_ranges`, `next_free_vsid`, `head`, and how many
nodes it has asked for.  A node is the number of ranges of a set and the first of them. -/
structure VsidScan where
  freeRanges : ℕ
  nextFreeVsid : ℕ
  head : List (ℕ × ℕ)
  asked : ℕ
  deriving DecidableEq, Repr

/-- Attaches a set of the free ranges, if there are any; `false` says that there was no memory. -/
def VsidScan.attach (alloc : ℕ → Bool) (t : VsidScan) : Bool × VsidScan :=
  if t.freeRanges = 0 then (true, t)
  else if alloc t.asked then
    (true,
      { freeRanges := 0
        nextFreeVsid := t.nextFreeVsid - t.freeRanges
        head := (t.freeRanges, t.nextFreeVsid - t.freeRanges) :: t.head
        asked := t.asked + 1 })
  else (false, { t with asked := t.asked + 1 })

/-- The inner loop: `cword` has its leading zeros counted already.  The `break` of a failed
allocation leaves this loop only.  After a shift by 32 no bits are left, whatever it gives. -/
def vsidScanWord (alloc : ℕ → Bool) : ℕ → BitVec 32 → ℕ → ℕ → VsidScan → VsidScan
  | 0, _, _, _, t => t
  | fuel + 1, cword, nzeros, bitsleft, t =>
    match t.attach alloc with
    | (false, t) => t
    | (true, t) =>
      let t := { t with nextFreeVsid := t.nextFreeVsid - 1 }
      let bitsleft := bitsleft - (nzeros + 1)
      let cword := cword <<< (nzeros + 1)
      let nzeros := cntlzw cword
      if nzeros > bitsleft then { t with freeRanges := t.freeRanges + bitsleft }
      else
        let t := { t with freeRanges := t.freeRanges + nzeros }
        if bitsleft > 0 then vsidScanWord alloc fuel cword nzeros bitsleft t else t

/-- A round of the outer loop. -/
def vsidScanRound (alloc : ℕ → Bool) (t : VsidScan) (cword : BitVec 32) : VsidScan :=
  if cword = 0#32 then { t with freeRanges := t.freeRanges + 32 }
  else
    vsidScanWord alloc 32 cword (cntlzw cword) 32
      { t with freeRanges := t.freeRanges + cntlzw cword }

/-- `build_vsid_freelist`: the list that becomes `vsid_alloc_head`. -/
def buildVsidFreelist (alloc : ℕ → Bool) (bitmap : List (BitVec 32)) : List (ℕ × ℕ) :=
  (bitmap.reverse.foldl (vsidScanRound alloc) ⟨0, 32 * bitmap.length, [], 0⟩).head

/-! ## Address spaces -/

/-- The bitmap, the free list, which address spaces there are, and their `hat_vsidr`. -/
structure VsidState where
  bitmap : List (BitVec 32)
  head : List (ℕ × ℕ)
  live : HatId → Bool
  vsidr : HatId → ℕ

namespace VsidState

variable (s : VsidState)

/-- `ppcmmu_alloc`. -/
def ppcmmuAlloc (hat : HatId) : VsidState :=
  if s.vsidr hat ≠ 0 then s
  else
    match s.head with
    | [] => { s with vsidr := update s.vsidr hat 0 }
    | (n, id) :: rest =>
      { s with
        vsidr := update s.vsidr hat id
        bitmap := setVsidRangeInuse s.bitmap id
        head := if n - 1 = 0 then rest else (n - 1, id + 1) :: rest }

/-- `hat_alloc`. -/
def hatAlloc (hat : HatId) : VsidState :=
  ppcmmuAlloc
    { s with
      live := update s.live hat true
      vsidr := update s.vsidr hat 0 } hat

/-- `ppcmmu_free`. -/
def ppcmmuFree (hat : HatId) : VsidState :=
  { s with
    bitmap := clearVsidRangeInuse s.bitmap (s.vsidr hat)
    live := update s.live hat false }

/-- The end of a round of `ppcmmu_vsid_gc`, which holds `ppcmmu_res_lock` all the time. -/
def ppcmmuVsidGc (alloc : ℕ → Bool) : VsidState :=
  { s with head := buildVsidFreelist alloc s.bitmap }

end VsidState

/-- What happens under `ppcmmu_res_lock`. -/
inductive VsidOp
  /-- `hat_alloc`, for an address space that is not there yet. -/
  | create (hat : HatId)
  /-- `ppcmmu_alloc`, when a range is needed. -/
  | need (hat : HatId)
  | free (hat : HatId)
  | gc (alloc : ℕ → Bool)

def VsidOp.apply (s : VsidState) : VsidOp → VsidState
  | create hat => s.hatAlloc hat
  | need hat => s.ppcmmuAlloc hat
  | free hat => s.ppcmmuFree hat
  | gc alloc => s.ppcmmuVsidGc alloc

/-- Only address spaces that are there are used and freed, and the kernel's never is; `ppcmmu_alloc`
wakes the collector when the list is empty, which `build_vsid_freelist` asserts. -/
def VsidOp.Ready (s : VsidState) : VsidOp → Prop
  | create hat => s.live hat = false
  | need hat => s.live hat = true
  | free hat => s.live hat = true ∧ hat ≠ .khat
  | gc _ => s.head = []

/-- `ppcmmu_init2`, for a bitmap of `n` words: ranges 0 and 1 are in use, and 1 is the kernel's. -/
def VsidState.init (n : ℕ) : VsidState where
  bitmap := setVsidRangeInuse (setVsidRangeInuse (replicate n 0#32) 0) 1
  head := []
  live := fun hat => hat = .khat
  vsidr := fun hat => if hat = .khat then 1 else 0

/-- The states that are reached. -/
inductive VsidRun (n : ℕ) : List VsidOp → VsidState → Prop
  | init : VsidRun n [] (.init n)
  | step {ops : List VsidOp} {s : VsidState} {op : VsidOp} (run : VsidRun n ops s)
    (ready : op.Ready s) :
      VsidRun n (ops ++ [op]) (op.apply s)

/-! ## What the list should be -/

/-- The ranges that are on a list. -/
def freeIds (head : List (ℕ × ℕ)) : List ℕ :=
  head.flatMap fun set => List.range' set.2 set.1

/-- Ranges that are not in use, each once. -/
structure FreelistRight (bitmap : List (BitVec 32)) (head : List (ℕ × ℕ)) : Prop where
  nodup : (freeIds head).Nodup
  free : ∀ id ∈ freeIds head, id < 32 * bitmap.length ∧ isVsidRangeInuse bitmap id = false

/-- No two address spaces have the same range, and the free list is right. -/
structure VsidState.Safe (s : VsidState) : Prop where
  apart : ∀ hat hat', s.live hat = true → s.live hat' = true → s.vsidr hat ≠ 0 →
    s.vsidr hat = s.vsidr hat' → hat = hat'
  list : FreelistRight s.bitmap s.head

/-- After an allocation has failed, none succeeds. -/
def NeverAgain (alloc : ℕ → Bool) : Prop :=
  ∀ i j, i ≤ j → alloc i = false → alloc j = false

variable {n : ℕ} {w : BitVec 32} {t' : VsidScan}

/-! ## The scan of a word -/

theorem getLsbD_of_lt_cntlzw {i : ℕ} (h : i < cntlzw w) : w.getLsbD (31 - i) = false := by
  refine Nat.testBit_lt_two_pow (toNat_lt_two_pow_sub_clz.trans_le ?_)
  refine Nat.pow_le_pow_right (by decide) ?_
  rw [cntlzw] at h
  omega

theorem cntlzw_lt_iff : cntlzw w < 32 ↔ w ≠ 0#32 := clz_lt_iff_ne_zero

theorem getLsbD_cntlzw (h : cntlzw w < 32) : w.getLsbD (31 - cntlzw w) = true :=
  getLsbD_true_clz_of_ne_zero (by decide) (cntlzw_lt_iff.mp h)

/-- The upper `n` bits of a word, the highest first. -/
def upperBits (w : BitVec 32) (n : ℕ) : List Bool :=
  (range n).map fun i => w.getLsbD (31 - i)

theorem upperBits_zeros (h : n ≤ cntlzw w) : upperBits w n = replicate n false := by
  rw [upperBits, eq_replicate_iff]
  refine ⟨by simp, ?_⟩
  rw [forall_mem_map]
  intro i hi
  exact getLsbD_of_lt_cntlzw (Nat.lt_of_lt_of_le (mem_range.mp hi) h)

theorem upperBits_split (hn : n ≤ 32) (h : cntlzw w < n) :
    upperBits w n = replicate (cntlzw w) false ++
      true :: upperBits (w <<< (cntlzw w + 1)) (n - (cntlzw w + 1)) := by
  obtain ⟨m, rfl⟩ : ∃ m, n = cntlzw w + 1 + m := ⟨n - (cntlzw w + 1), by omega⟩
  rw [upperBits, List.range_add, List.map_append, List.range_succ, List.map_append,
    List.append_assoc]
  congr 1
  · exact upperBits_zeros le_rfl
  · rw [List.map_singleton, List.singleton_append, getLsbD_cntlzw (by omega), upperBits,
      Nat.add_sub_cancel_left, List.map_map]
    congr 1
    refine List.map_congr_left fun i hi => ?_
    rw [mem_range] at hi
    rw [getLsbD_shiftLeft, Function.comp_apply]
    have hlt : ¬ 31 - i < cntlzw w + 1 := by omega
    simp only [hlt, decide_false, Bool.not_false, Bool.and_true, (by omega : 31 - i < 32),
      decide_true,
      Bool.true_and]
    congr 1
    omega

/-- The scan as a function of the bits, the highest first. -/
def scanBits (alloc : ℕ → Bool) : List Bool → VsidScan → VsidScan
  | [], t => t
  | false :: bits, t => scanBits alloc bits { t with freeRanges := t.freeRanges + 1 }
  | true :: bits, t =>
    match t.attach alloc with
    | (false, t) => t
    | (true, t) => scanBits alloc bits { t with nextFreeVsid := t.nextFreeVsid - 1 }

theorem scanBits_zeros (alloc : ℕ → Bool) (k : ℕ) (bits : List Bool) (t : VsidScan) :
    scanBits alloc (replicate k false ++ bits) t
      = scanBits alloc bits { t with freeRanges := t.freeRanges + k } := by
  induction k generalizing t with
  | zero => rfl
  | succ k ih =>
    rw [List.replicate_succ, List.cons_append, scanBits, ih, Nat.add_right_comm, Nat.add_assoc]

/-- The inner loop scans the bits that are left. -/
theorem vsidScanWord_eq (alloc : ℕ → Bool) {fuel : ℕ} (hn : n ≤ 32) (hfuel : n ≤ fuel)
    {cword : BitVec 32} (hlow : ∀ i, i + n < 32 → cword.getLsbD i = false)
    (hzeros : cntlzw cword < n) (t : VsidScan) :
    vsidScanWord alloc fuel cword (cntlzw cword) n t
      = scanBits alloc (true :: upperBits (cword <<< (cntlzw cword + 1))
        (n - (cntlzw cword + 1))) t := by
  induction fuel generalizing n cword t with
  | zero => omega
  | succ fuel ih =>
    rw [vsidScanWord, scanBits]
    rcases t.attach alloc with ⟨ok, t⟩
    cases ok with
    | false => rfl
    | true =>
      simp only
      generalize hcword' : cword <<< (cntlzw cword + 1) = cword'
      generalize hn' : n - (cntlzw cword + 1) = n'
      have hlow' : ∀ i, i + n' < 32 → cword'.getLsbD i = false := by
        intro i hi
        rw [← hcword', getLsbD_shiftLeft]
        by_cases hshift : i < cntlzw cword + 1
        · simp [hshift]
        · rw [hlow _ (by omega), Bool.and_false]
      split
      next hall =>
        rw [upperBits_zeros (by omega), ← append_nil (replicate _ _), scanBits_zeros]
        rfl
      next hle =>
        have hlt : cntlzw cword' < n' := by
          have hset := getLsbD_cntlzw (w := cword') (by omega)
          by_contra hge
          rw [hlow' _ (by omega)] at hset
          cases hset
        rw [if_pos (by omega), ih (by omega) (by omega) hlow' hlt, upperBits_split (by omega) hlt,
          scanBits_zeros]

/-- A round of the outer loop scans the bits of its word. -/
theorem vsidScanRound_eq (alloc : ℕ → Bool) (t : VsidScan) (cword : BitVec 32) :
    vsidScanRound alloc t cword = scanBits alloc (upperBits cword 32) t := by
  rw [vsidScanRound]
  split
  next hzero =>
    have hall : ¬ cntlzw cword < 32 := fun h => cntlzw_lt_iff.mp h hzero
    rw [upperBits_zeros (by omega), ← append_nil (replicate _ _), scanBits_zeros]
    rfl
  next hne =>
    have hlt := cntlzw_lt_iff.mpr hne
    rw [vsidScanWord_eq alloc le_rfl le_rfl (fun i hi => by omega) hlt,
      upperBits_split le_rfl hlt, scanBits_zeros]

/-! ## The list that is built -/

/-- The scan is in step: ranges from `pos` on have been scanned. -/
structure ScanOk (bitmap : List (BitVec 32)) (pos : ℕ) (t : VsidScan) : Prop where
  next : t.nextFreeVsid = pos + t.freeRanges
  free : ∀ id, pos ≤ id → id < t.nextFreeVsid →
    id < 32 * bitmap.length ∧ isVsidRangeInuse bitmap id = false
  sorted : (freeIds t.head).Pairwise (· < ·)
  above : ∀ id ∈ freeIds t.head, t.nextFreeVsid ≤ id ∧ id < 32 * bitmap.length ∧
    isVsidRangeInuse bitmap id = false

/-- The scan is in step, or nothing more will be attached. -/
def ScanInv (alloc : ℕ → Bool) (bitmap : List (BitVec 32)) (pos : ℕ) (t : VsidScan) : Prop :=
  ScanOk bitmap pos t ∨ FreelistRight bitmap t.head ∧ ∀ k, t.asked ≤ k → alloc k = false

section Build

variable {alloc : ℕ → Bool} {bitmap : List (BitVec 32)} {pos : ℕ} {t : VsidScan}

theorem ScanOk.right (h : ScanOk bitmap pos t) : FreelistRight bitmap t.head where
  nodup := h.sorted.imp Nat.ne_of_lt
  free := fun id hid => (h.above id hid).2

theorem ScanInv.right (h : ScanInv alloc bitmap pos t) : FreelistRight bitmap t.head :=
  h.elim ScanOk.right And.left

theorem ScanOk.zero (h : ScanOk bitmap (pos + 1) t) (hpos : pos < 32 * bitmap.length)
    (hclear : isVsidRangeInuse bitmap pos = false) :
    ScanOk bitmap pos { t with freeRanges := t.freeRanges + 1 } where
  next := by
    simp only [h.next]
    omega
  free := by
    intro id hge hlt
    rcases Nat.eq_or_lt_of_le hge with rfl | hgt
    · exact ⟨hpos, hclear⟩
    · exact h.free id hgt hlt
  sorted := h.sorted
  above := h.above

/-- A bit that is set, without free ranges above it or with these attached. -/
theorem ScanOk.one (h : ScanOk bitmap (pos + 1) t) (hattach : t.attach alloc = (true, t')) :
    ScanOk bitmap pos { t' with nextFreeVsid := t'.nextFreeVsid - 1 } := by
  have hnext := h.next
  rw [VsidScan.attach] at hattach
  split at hattach
  next hzero =>
    obtain rfl : t = t' := congrArg Prod.snd hattach
    refine ⟨by simp only; omega, ?_, h.sorted, ?_⟩
    · intro id hge hlt
      simp only at hlt
      omega
    · intro id hid
      obtain ⟨hle, hrest⟩ := h.above id hid
      exact ⟨by simp only; omega, hrest⟩
  next hfree =>
    split at hattach
    next =>
      obtain rfl := congrArg Prod.snd hattach
      have hids : freeIds ((t.freeRanges, t.nextFreeVsid - t.freeRanges) :: t.head)
          = range' (pos + 1) t.freeRanges ++ freeIds t.head := by
        rw [freeIds, flatMap_cons, hnext, Nat.add_sub_cancel]
        rfl
      refine ⟨by simp only; omega, ?_, ?_, ?_⟩
      · intro id hge hlt
        simp only at hlt
        omega
      · rw [hids, pairwise_append]
        refine ⟨pairwise_lt_range', h.sorted, ?_⟩
        intro x hx y hy
        rw [mem_range'_1] at hx
        have hle := (h.above y hy).1
        omega
      · intro id hid
        rw [hids, mem_append] at hid
        simp only
        rcases hid with hid | hid
        · rw [mem_range'_1] at hid
          exact ⟨by omega, h.free id hid.1 (by omega)⟩
        · obtain ⟨hle, hrest⟩ := h.above id hid
          exact ⟨by omega, hrest⟩
    next => cases congrArg Prod.fst hattach

theorem attach_false (h : t.attach alloc = (false, t')) :
    alloc t.asked = false ∧ t' = { t with asked := t.asked + 1 } := by
  rw [VsidScan.attach] at h
  split at h
  · cases congrArg Prod.fst h
  · split at h
    · cases congrArg Prod.fst h
    next hfail => exact ⟨by simpa using hfail, (congrArg Prod.snd h).symm⟩

/-- Where nothing more is attached nothing is. -/
theorem attach_true_of_never (hnever : ∀ k, t.asked ≤ k → alloc k = false)
    (h : t.attach alloc = (true, t')) : t' = t := by
  rw [VsidScan.attach] at h
  split at h
  · exact (congrArg Prod.snd h).symm
  · rw [if_neg (by simp [hnever t.asked le_rfl])] at h
    cases congrArg Prod.fst h

theorem scanBits_inv (hagain : NeverAgain alloc) {bits : List Bool}
    (hpos : pos + bits.length ≤ 32 * bitmap.length)
    (hbits : ∀ i (h : i < bits.length),
      bits.get ⟨i, h⟩ = isVsidRangeInuse bitmap (pos + bits.length - 1 - i))
    (ht : ScanInv alloc bitmap (pos + bits.length) t) :
    ScanInv alloc bitmap pos (scanBits alloc bits t) := by
  induction bits generalizing t with
  | nil => exact ht
  | cons b bits ih =>
    have hhead := hbits 0 (by simp)
    simp only [length_cons, Nat.sub_zero] at hhead hpos
    rw [← Nat.add_assoc, Nat.add_sub_cancel] at hhead
    have htail : ∀ i (h : i < bits.length),
        bits.get ⟨i, h⟩ = isVsidRangeInuse bitmap (pos + bits.length - 1 - i) := by
      intro i h
      have := hbits (i + 1) (by simpa using h)
      simp only [length_cons, get_cons_succ] at this
      rw [this]
      congr 1
      omega
    cases b with
    | false =>
      rw [scanBits]
      have hlt : pos + bits.length < 32 * bitmap.length := by omega
      refine ih (by omega) htail ?_
      rcases ht with hok | hstop
      · exact .inl (hok.zero hlt hhead.symm)
      · exact .inr hstop
    | true =>
      rw [scanBits]
      rcases hattach : t.attach alloc with ⟨ok, t'⟩
      cases ok with
      | false =>
        obtain ⟨hfail, rfl⟩ := attach_false hattach
        refine .inr ⟨ht.right, ?_⟩
        intro k hk
        exact hagain _ k (Nat.le_of_succ_le hk) hfail
      | true =>
        refine ih (by omega) htail ?_
        rcases ht with hok | ⟨hright, hnever⟩
        · exact .inl (hok.one hattach)
        · obtain rfl := attach_true_of_never hnever hattach
          exact .inr ⟨hright, hnever⟩

/-- The bits of a word are those of its ranges. -/
theorem upperBits_inuse {k : ℕ} (hk : k < bitmap.length) {i : ℕ}
    (h : i < (upperBits bitmap[k] 32).length) :
    (upperBits bitmap[k] 32).get ⟨i, h⟩ = isVsidRangeInuse bitmap (32 * k + 32 - 1 - i) := by
  have hi : i < 32 := by simpa [upperBits] using h
  have hdiv : (32 * k + 32 - 1 - i) / 32 = k := by omega
  have hmod : (32 * k + 32 - 1 - i) % 32 = 31 - i := by omega
  rw [isVsidRangeInuse, hdiv, hmod, getD_eq_getElem _ _ hk]
  simp [upperBits]

theorem foldl_vsidScanRound_inv (hagain : NeverAgain alloc) {k : ℕ} (hk : k ≤ bitmap.length)
    (ht : ScanInv alloc bitmap (32 * k) t) :
    ScanInv alloc bitmap 0 ((bitmap.take k).reverse.foldl (vsidScanRound alloc) t) := by
  induction k generalizing t with
  | zero => exact ht
  | succ k ih =>
    have hlen : (upperBits bitmap[k] 32).length = 32 := by simp [upperBits]
    rw [List.take_succ_eq_append_getElem hk, List.reverse_append, List.reverse_singleton,
      singleton_append, foldl_cons, vsidScanRound_eq]
    refine ih (by omega) (scanBits_inv hagain ?_ ?_ ?_)
    · rw [hlen]
      omega
    · intro i h
      rw [upperBits_inuse hk h, hlen]
    · rw [hlen]
      exact ht

/-- The list is right if no allocation succeeds after one that failed. -/
theorem buildVsidFreelist_right (hagain : NeverAgain alloc) (bitmap : List (BitVec 32)) :
    FreelistRight bitmap (buildVsidFreelist alloc bitmap) := by
  have hstart : ScanOk bitmap (32 * bitmap.length) ⟨0, 32 * bitmap.length, [], 0⟩ :=
    ⟨rfl, fun id hge hlt => by simp only at hlt; omega, .nil, by simp [freeIds]⟩
  have hinv := foldl_vsidScanRound_inv hagain (Nat.le_refl bitmap.length) (.inl hstart)
  rw [take_length] at hinv
  exact hinv.right

/-! ## A failure with a success after it -/

theorem scanBits_ones (m : ℕ) (hfree : t.freeRanges = 0) :
    scanBits alloc (replicate m true) t = { t with nextFreeVsid := t.nextFreeVsid - m } := by
  induction m generalizing t with
  | zero => rfl
  | succ m ih =>
    have hattach : t.attach alloc = (true, t) := if_pos hfree
    rw [List.replicate_succ, scanBits, hattach]
    refine (ih (t := { t with nextFreeVsid := t.nextFreeVsid - 1 }) hfree).trans ?_
    simp only [Nat.sub_sub, Nat.add_comm 1]

/-- A word of which only the highest range is free. -/
theorem vsidScanRound_highest :
    vsidScanRound alloc t 0x7FFFFFFF#32 =
      if alloc t.asked then
        { freeRanges := 0
          nextFreeVsid := t.nextFreeVsid - (t.freeRanges + 1) - 31
          head := (t.freeRanges + 1, t.nextFreeVsid - (t.freeRanges + 1)) :: t.head
          asked := t.asked + 1 }
      else { t with freeRanges := t.freeRanges + 1, asked := t.asked + 1 } := by
  have hbits : upperBits 0x7FFFFFFF#32 32 = false :: true :: replicate 30 true := by decide
  rw [vsidScanRound_eq, hbits, scanBits, scanBits, VsidScan.attach, if_neg (Nat.succ_ne_zero _)]
  cases alloc t.asked with
  | false => rfl
  | true =>
    simp only [if_true]
    rw [scanBits_ones 30 rfl]
    simp only [Nat.sub_sub]

theorem iterate_highest_success (h : ∀ k < n, alloc (t.asked + k) = true)
    (hfree : t.freeRanges = 0) :
    ((vsidScanRound alloc · 0x7FFFFFFF#32)^[n] t).freeRanges = 0 ∧
      ((vsidScanRound alloc · 0x7FFFFFFF#32)^[n] t).nextFreeVsid = t.nextFreeVsid - 32 * n ∧
      ((vsidScanRound alloc · 0x7FFFFFFF#32)^[n] t).asked = t.asked + n := by
  induction n with
  | zero => exact ⟨hfree, rfl, rfl⟩
  | succ n ih =>
    obtain ⟨hzero, hnext, hasked⟩ := ih fun k hk => h k (by omega)
    rw [iterate_succ_apply', vsidScanRound_highest, hasked, if_pos (h n (by omega)), hzero, hnext]
    exact ⟨rfl, by simp only; omega, rfl⟩

theorem iterate_highest_failure (h : ∀ k < n, alloc (t.asked + k) = false) :
    (vsidScanRound alloc · 0x7FFFFFFF#32)^[n] t =
      { t with freeRanges := t.freeRanges + n, asked := t.asked + n } := by
  induction n with
  | zero => rfl
  | succ n ih =>
    rw [iterate_succ_apply', ih fun k hk => h k (by omega), vsidScanRound_highest,
      if_neg (by simp [h n (by omega)])]
    simp only [Nat.add_assoc]

/-- The first failure and the first success after it. -/
theorem exists_failure_success (h : ¬ NeverAgain alloc) :
    ∃ i d, (∀ k < i, alloc k = true) ∧ (∀ k < d, alloc (i + k) = false) ∧
      alloc (i + d) = true ∧ 0 < d := by
  simp only [NeverAgain, not_forall] at h
  obtain ⟨i₀, j₀, hle, hfail, hsucc⟩ := h
  have hfails : ∃ i, alloc i = false := ⟨i₀, hfail⟩
  have hi := Nat.find_spec hfails
  have hsuccs : ∃ d, alloc (Nat.find hfails + d) = true := by
    refine ⟨j₀ - Nat.find hfails, ?_⟩
    rw [Nat.add_sub_cancel' ((Nat.find_min' hfails hfail).trans hle)]
    simpa using hsucc
  refine ⟨Nat.find hfails, Nat.find hsuccs, ?_, ?_, Nat.find_spec hsuccs, ?_⟩
  · intro k hk
    simpa using Nat.find_min hfails hk
  · intro k hk
    simpa using Nat.find_min hsuccs hk
  · rw [Nat.pos_iff_ne_zero]
    intro hzero
    have hspec := Nat.find_spec hsuccs
    rw [hzero, Nat.add_zero, hi] at hspec
    cases hspec

/-- Words of which only the highest range is free: after a failure, a range in use is put on the
list. -/
theorem buildVsidFreelist_wrong (h : ¬ NeverAgain alloc) :
    ∃ bitmap, ¬ FreelistRight bitmap (buildVsidFreelist alloc bitmap) := by
  obtain ⟨i, d, hbefore, hbetween, hafter, hd⟩ := exists_failure_success h
  refine ⟨replicate (i + d + 1) 0x7FFFFFFF#32, fun hright => ?_⟩
  have hfold (n : ℕ) (t : VsidScan) : (replicate n 0x7FFFFFFF#32).foldl (vsidScanRound alloc) t
      = (vsidScanRound alloc · 0x7FFFFFFF#32)^[n] t := by
    induction n generalizing t with
    | zero => rfl
    | succ n ih => rw [List.replicate_succ, List.foldl_cons, ih, Function.iterate_succ_apply]
  have hbuild : ∃ rest, buildVsidFreelist alloc (List.replicate (i + d + 1) 0x7FFFFFFF#32)
      = (d + 1, 32 * (d + 1) - (d + 1)) :: rest := by
    rw [buildVsidFreelist, List.reverse_replicate, hfold, List.length_replicate]
    generalize ht : VsidScan.mk 0 (32 * (i + d + 1)) [] 0 = t
    have hasked₀ : t.asked = 0 := by rw [← ht]
    have hnext₀ : t.nextFreeVsid = 32 * (i + d + 1) := by rw [← ht]
    obtain ⟨hfree, hnext, hasked⟩ := iterate_highest_success (n := i)
      (by simpa [hasked₀] using hbefore) (by rw [← ht] : t.freeRanges = 0)
    rw [hasked₀, Nat.zero_add] at hasked
    rw [Function.iterate_succ_apply', Nat.add_comm i d, Function.iterate_add_apply,
      iterate_highest_failure (by simpa [hasked] using hbetween), vsidScanRound_highest,
      if_pos (by simpa [hasked] using hafter)]
    simp only [hfree, hnext, hnext₀]
    rw [show 32 * (i + d + 1) - 32 * i - (0 + d + 1) = 32 * (d + 1) - (d + 1) by omega,
      Nat.zero_add]
    exact ⟨_, rfl⟩
  obtain ⟨rest, hrest⟩ := hbuild
  have hmem :
      32 * d + 30 ∈ freeIds (buildVsidFreelist alloc (replicate (i + d + 1) 0x7FFFFFFF#32)) := by
    rw [hrest, freeIds, List.flatMap_cons, mem_append, List.mem_range'_1]
    left
    simp only
    omega
  have hclear := (hright.free _ hmem).2
  rw [isVsidRangeInuse, show (32 * d + 30) / 32 = d by omega, show (32 * d + 30) % 32 = 30 by omega,
    List.getD_eq_getElem _ _ (by rw [length_replicate]; omega), List.getElem_replicate] at hclear
  revert hclear
  decide

theorem attach_sets (alloc : ℕ → Bool) (ht : ∀ set ∈ t.head, 0 < set.1) :
    ∀ set ∈ (t.attach alloc).2.head, 0 < set.1 := by
  rw [VsidScan.attach]
  split
  next => exact ht
  next hfree =>
    split
    next => exact forall_mem_cons.mpr ⟨Nat.pos_of_ne_zero hfree, ht⟩
    next => exact ht

theorem scanBits_sets (bits : List Bool) (ht : ∀ set ∈ t.head, 0 < set.1) :
    ∀ set ∈ (scanBits alloc bits t).head, 0 < set.1 := by
  induction bits generalizing t with
  | nil => exact ht
  | cons b bits ih =>
    cases b with
    | false => exact ih ht
    | true =>
      have hsets := attach_sets alloc ht
      rw [scanBits]
      rcases hattach : t.attach alloc with ⟨ok, t'⟩
      rw [hattach] at hsets
      cases ok with
      | false => exact hsets
      | true => exact ih (t := { t' with nextFreeVsid := t'.nextFreeVsid - 1 }) hsets

/-- No set of the list is empty. -/
theorem buildVsidFreelist_sets (alloc : ℕ → Bool) (bitmap : List (BitVec 32)) :
    ∀ set ∈ buildVsidFreelist alloc bitmap, 0 < set.1 := by
  have hfold (words : List (BitVec 32)) (t : VsidScan) (ht : ∀ set ∈ t.head, 0 < set.1) :
      ∀ set ∈ (words.foldl (vsidScanRound alloc) t).head, 0 < set.1 := by
    induction words generalizing t with
    | nil => exact ht
    | cons word words ih =>
      rw [foldl_cons]
      apply ih
      rw [vsidScanRound_eq]
      exact scanBits_sets _ ht
  apply hfold
  intro set hset
  cases hset

end Build

/-! ## Runs -/

section Bits

variable {bitmap : List (BitVec 32)} {id id' : ℕ}

@[simp]
theorem length_setVsidRangeInuse : (setVsidRangeInuse bitmap id).length = bitmap.length :=
  length_modify ..

@[simp]
theorem length_clearVsidRangeInuse : (clearVsidRangeInuse bitmap id).length = bitmap.length :=
  length_modify ..

/-- A change of the word of `id`. -/
theorem isVsidRangeInuse_modify (hid : id' < 32 * bitmap.length) (f : BitVec 32 → BitVec 32) :
    isVsidRangeInuse (bitmap.modify (id / 32) f) id' = if id / 32 = id' / 32 then
      (f (bitmap.getD (id' / 32) 0#32)).getLsbD (id' % 32) else isVsidRangeInuse bitmap id' := by
  have hword : id' / 32 < bitmap.length := by omega
  rw [isVsidRangeInuse, isVsidRangeInuse, getD_eq_getElem _ _ hword,
    getD_eq_getElem _ _ (by simpa using hword), getElem_modify]
  split <;> rfl

theorem isVsidRangeInuse_set (hid : id' < 32 * bitmap.length) :
    isVsidRangeInuse (setVsidRangeInuse bitmap id) id'
      = (decide (id' = id) || isVsidRangeInuse bitmap id') := by
  rw [setVsidRangeInuse, isVsidRangeInuse_modify hid, getLsbD_or, getLsbD_shiftLeft]
  grind [isVsidRangeInuse]

theorem isVsidRangeInuse_clear (hid : id' < 32 * bitmap.length) :
    isVsidRangeInuse (clearVsidRangeInuse bitmap id) id'
      = (decide (id' ≠ id) && isVsidRangeInuse bitmap id') := by
  rw [clearVsidRangeInuse, isVsidRangeInuse_modify hid, getLsbD_and, getLsbD_not,
    getLsbD_shiftLeft]
  grind [isVsidRangeInuse]

end Bits

/-- What every step keeps. -/
structure VsidState.Inv (s : VsidState) : Prop extends s.Safe where
  owned : ∀ hat, s.live hat = true → s.vsidr hat ≠ 0 → s.vsidr hat < 32 * s.bitmap.length →
    isVsidRangeInuse s.bitmap (s.vsidr hat) = true
  sets : ∀ set ∈ s.head, 0 < set.1

/-- Taking the first range of the list. -/
theorem freeIds_take (id : ℕ) (rest : List (ℕ × ℕ)) (hn : 0 < n) :
    freeIds ((n, id) :: rest)
      = id :: freeIds (if n - 1 = 0 then rest else (n - 1, id + 1) :: rest) := by
  obtain _ | m := n
  · omega
  rw [Nat.add_sub_cancel]
  split
  next hzero =>
    subst hzero
    rfl
  next => rfl

theorem FreelistRight.take {bitmap : List (BitVec 32)} {id : ℕ} {rest : List (ℕ × ℕ)}
    (h : FreelistRight bitmap ((n, id) :: rest)) (hn : 0 < n) :
    (id < 32 * bitmap.length ∧ isVsidRangeInuse bitmap id = false) ∧
      FreelistRight (setVsidRangeInuse bitmap id)
        (if n - 1 = 0 then rest else (n - 1, id + 1) :: rest) := by
  obtain ⟨hnodup, hfree⟩ := h
  rw [freeIds_take id rest hn] at hnodup hfree
  rw [nodup_cons] at hnodup
  refine ⟨hfree id mem_cons_self, hnodup.2, ?_⟩
  intro id' hid'
  obtain ⟨hlt, hclear⟩ := hfree id' (mem_cons_of_mem _ hid')
  have hne : id' ≠ id := fun heq => hnodup.1 (heq ▸ hid')
  rw [length_setVsidRangeInuse, isVsidRangeInuse_set hlt, decide_eq_false hne, hclear]
  exact ⟨hlt, rfl⟩

theorem FreelistRight.clear {bitmap : List (BitVec 32)} {head : List (ℕ × ℕ)}
    (h : FreelistRight bitmap head) (id : ℕ) :
      FreelistRight (clearVsidRangeInuse bitmap id) head where
  nodup := h.nodup
  free := by
    intro id' hid'
    obtain ⟨hlt, hclear⟩ := h.free id' hid'
    rw [length_clearVsidRangeInuse, isVsidRangeInuse_clear hlt, hclear, Bool.and_false]
    exact ⟨hlt, rfl⟩

namespace VsidState.Inv

variable {s : VsidState}

theorem init (n : ℕ) : (VsidState.init n).Inv where
  apart := by
    intro hat hat' hlive hlive' _ _
    simp only [VsidState.init, decide_eq_true_eq] at hlive hlive'
    rw [hlive, hlive']
  list := ⟨nodup_nil, fun id hid => by cases hid⟩
  owned := by
    intro hat hlive _ hlt
    obtain rfl : hat = .khat := by simpa [VsidState.init] using hlive
    simp only [VsidState.init, length_setVsidRangeInuse, if_true] at hlt ⊢
    rw [isVsidRangeInuse_set (by simpa using hlt), decide_eq_true rfl, Bool.true_or]
  sets := fun set hset => by cases hset

/-- An address space gets a range that nobody has. -/
theorem give (h : s.Inv) (hat : HatId) {id : ℕ} {head : List (ℕ × ℕ)}
    (hid : id < 32 * s.bitmap.length) (hclear : isVsidRangeInuse s.bitmap id = false)
    (hlist : FreelistRight (setVsidRangeInuse s.bitmap id) head) (hsets : ∀ set ∈ head, 0 < set.1) :
    VsidState.Inv
      { s with
        vsidr := update s.vsidr hat id
        bitmap := setVsidRangeInuse s.bitmap id
        head := head } where
  apart := by
    have hother (hat' : HatId) (hlive : s.live hat' = true) (hne : s.vsidr hat' ≠ 0) :
        s.vsidr hat' ≠ id := by
      intro heq
      have hset := h.owned hat' hlive hne (heq ▸ hid)
      rw [heq, hclear] at hset
      cases hset
    intro hat₁ hat₂ hlive₁ hlive₂ hne heq
    simp only [update_apply] at hne heq
    by_cases h₁ : hat₁ = hat
    · by_cases h₂ : hat₂ = hat
      · rw [h₁, h₂]
      · rw [if_pos h₁] at hne heq
        rw [if_neg h₂] at heq
        exact absurd heq.symm (hother hat₂ hlive₂ (heq ▸ hne))
    · rw [if_neg h₁] at hne heq
      by_cases h₂ : hat₂ = hat
      · rw [if_pos h₂] at heq
        exact absurd heq (hother hat₁ hlive₁ hne)
      · rw [if_neg h₂] at heq
        exact h.apart hat₁ hat₂ hlive₁ hlive₂ hne heq
  list := hlist
  owned := by
    intro hat' hlive hne hlt
    simp only [length_setVsidRangeInuse, update_apply] at hne hlt ⊢
    rw [isVsidRangeInuse_set hlt]
    by_cases hhat : hat' = hat
    · simp only [if_pos hhat, decide_true, Bool.true_or]
    · rw [if_neg hhat] at hne hlt ⊢
      rw [h.owned hat' hlive hne hlt, Bool.or_true]
  sets := hsets

theorem ppcmmuAlloc (h : s.Inv) (hat : HatId) : (s.ppcmmuAlloc hat).Inv := by
  rw [VsidState.ppcmmuAlloc]
  split
  next => exact h
  next hzero =>
    rw [not_not] at hzero
    cases hhead : s.head with
    | nil =>
      simp only
      rw [← hzero, Function.update_eq_self, ← hhead]
      exact h
    | cons set rest =>
      obtain ⟨n, id⟩ := set
      have hsets : ∀ set ∈ (n, id) :: rest, 0 < set.1 := hhead ▸ h.sets
      have hn : 0 < n := hsets (n, id) mem_cons_self
      obtain ⟨⟨hid, hclear⟩, hlist⟩ := (hhead ▸ h.list :
        FreelistRight s.bitmap ((n, id) :: rest)).take hn
      refine h.give hat hid hclear hlist ?_
      intro set hset
      split at hset
      next => exact hsets set (mem_cons_of_mem _ hset)
      next hmore =>
        rcases mem_cons.mp hset with rfl | hset
        · exact Nat.pos_of_ne_zero hmore
        · exact hsets set (mem_cons_of_mem _ hset)

theorem hatAlloc (h : s.Inv) (hat : HatId) : (s.hatAlloc hat).Inv := by
  rw [VsidState.hatAlloc]
  apply ppcmmuAlloc
  refine ⟨⟨?_, h.list⟩, ?_, h.sets⟩
  · intro hat₁ hat₂ hlive₁ hlive₂ hne heq
    simp only [update_apply] at hlive₁ hlive₂ hne heq
    by_cases h₁ : hat₁ = hat
    · exact absurd (if_pos h₁) hne
    rw [if_neg h₁] at hlive₁ hne heq
    by_cases h₂ : hat₂ = hat
    · rw [if_pos h₂] at heq
      exact absurd heq hne
    · rw [if_neg h₂] at hlive₂ heq
      exact h.apart hat₁ hat₂ hlive₁ hlive₂ hne heq
  · intro hat' hlive hne hlt
    simp only [update_apply] at hlive hne hlt ⊢
    by_cases hhat : hat' = hat
    · exact absurd (if_pos hhat) hne
    · rw [if_neg hhat] at hlive hne hlt ⊢
      exact h.owned hat' hlive hne hlt

theorem ppcmmuFree (h : s.Inv) {hat : HatId} (hlive : s.live hat = true) :
    (s.ppcmmuFree hat).Inv where
  apart := by
    intro hat₁ hat₂ hlive₁ hlive₂ hne heq
    simp only [VsidState.ppcmmuFree, update_apply, ite_eq_iff, reduceCtorEq, and_false,
      false_or] at hlive₁ hlive₂
    exact h.apart hat₁ hat₂ hlive₁.2 hlive₂.2 hne heq
  list := h.list.clear _
  owned := by
    intro hat' hlive' hne hlt
    simp only [VsidState.ppcmmuFree, update_apply, ite_eq_iff, reduceCtorEq, and_false, false_or,
      length_clearVsidRangeInuse] at hlive' hne hlt ⊢
    have hother : s.vsidr hat' ≠ s.vsidr hat :=
      fun heq => hlive'.1 (h.apart hat' hat hlive'.2 hlive hne heq)
    rw [isVsidRangeInuse_clear hlt, decide_eq_true hother, Bool.true_and]
    exact h.owned hat' hlive'.2 hne hlt
  sets := h.sets

theorem ppcmmuVsidGc (h : s.Inv) {alloc : ℕ → Bool} (hagain : NeverAgain alloc) :
    (s.ppcmmuVsidGc alloc).Inv where
  apart := h.apart
  list := buildVsidFreelist_right hagain s.bitmap
  owned := h.owned
  sets := buildVsidFreelist_sets alloc s.bitmap

end VsidState.Inv

theorem VsidRun.inv {ops : List VsidOp} {s : VsidState} (run : VsidRun n ops s)
    (hagain : ∀ alloc, .gc alloc ∈ ops → NeverAgain alloc) : s.Inv := by
  induction run with
  | init => exact .init n
  | @step ops s op run ready ih =>
    have h := ih fun alloc halloc => hagain alloc (mem_append_left _ halloc)
    cases op with
    | create hat => exact h.hatAlloc hat
    | need hat => exact h.ppcmmuAlloc hat
    | free hat => exact h.ppcmmuFree ready.1
    | gc alloc => exact h.ppcmmuVsidGc (hagain alloc (mem_append_right _ mem_cons_self))

instance (s : VsidState) (op : VsidOp) : Decidable (op.Ready s) := by
  cases op <;> unfold VsidOp.Ready <;> infer_instance

/-- A list of operations, if each is ready. -/
def VsidState.run (s : VsidState) : List VsidOp → Option VsidState
  | [] => some s
  | op :: ops => if op.Ready s then (op.apply s).run ops else none

theorem VsidRun.run {ops ops' : List VsidOp} {s s' : VsidState} (h : VsidRun n ops s)
    (hrun : s.run ops' = some s') : VsidRun n (ops ++ ops') s' := by
  induction ops' generalizing ops s with
  | nil =>
    cases hrun
    rwa [append_nil]
  | cons op ops' ih =>
    rw [VsidState.run] at hrun
    split at hrun
    next ready =>
      rw [← List.singleton_append, ← List.append_assoc]
      exact ih (.step h ready) hrun
    next => cases hrun

/-- All ranges are taken, 2 to 63, and 40 and 10 are given back.  In the next rebuild the first
allocation fails and the others do not: the scan gets out of step, and the range of hat 16 goes to
hat 62 as well. -/
def sharedRangeOps : List VsidOp :=
  .gc (fun _ => true) :: (range 62).map (fun i => .create (.hats i)) ++
    [.free (.hats 38), .free (.hats 8), .gc (· != 0), .create (.hats 62)]

end Polaris
