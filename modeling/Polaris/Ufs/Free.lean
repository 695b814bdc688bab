import Mathlib.Data.Nat.Bitwise
import Mathlib.Logic.Function.Basic
import Mathlib.Tactic.IntervalCases

/-!
# Freeing blocks and fragments of a UFS

`free` of `ufs_alloc.c` and `fragacct` of `ufs_subr.c`, over a free map of bits and the
counts that go with it.  A buffer that is released after a fault keeps what was written
into it, so the fault paths return the group as they leave it.

## Main statements

* `free_frag_fault`: a fragment that is free already is reported, but only the free map
  of a block that is free as a whole comes back as it was
* `freeTarget_fallocate`: which of the addresses that `bmap_write` negates `free` turns back
-/

namespace Polaris.Ufs

open Function

/-- What `free` reads of `struct fs`. -/
structure Fs where
  fsFshift : ℕ
  fsFragshift : ℕ
  fsFpg : ℕ
  fsNspf : ℕ
  fsSpc : ℕ
  fsNsect : ℕ
  vfsNrpos : ℕ
  fragshift_le : fsFragshift ≤ 3
  /-- `MINBSIZE` is 4096. -/
  bshift_ge : 12 ≤ fsFshift + fsFragshift
  fpg_pos : 0 < fsFpg

/-- `fs_frag`. -/
def Fs.fsFrag (fs : Fs) : ℕ := 2 ^ fs.fsFragshift

/-- `fs_bsize`. -/
def Fs.fsBsize (fs : Fs) : ℕ := 2 ^ (fs.fsFshift + fs.fsFragshift)

/-- The counts of `struct csum` that `free` changes. -/
structure Csum where
  csNbfree : ℤ
  csNffree : ℤ

/-- A cylinder group.  The bits of the free map are numbered as `isset` numbers them. -/
structure Cg where
  cgCs : Csum
  cgFrsum : ℕ → ℤ
  cgBtot : ℤ → ℤ
  cgB : ℤ → ℤ → ℤ
  cgFree : ℤ → Bool

/-- The groups that can be read, and the summary information of the file system. -/
structure State where
  cgs : ℤ → Option Cg
  fsCs : ℤ → Csum
  fsCstotal : Csum

/-- What `free` tells `ufs_fault`. -/
inductive Fault where
  | badSize (size : ℕ)
  | freeingFreeBlock (bno : ℤ)
  | freeingFreeFrag (blk : ℤ)

/-! ## The run summary -/

/-- The maps of `fragtbl124` that a block of at most four fragments can have. -/
def fragtbl124 : List ℕ :=
  [0, 22, 22, 42, 22, 22, 38, 78, 22, 22, 22, 62, 42, 62, 78, 138]

/-- `fragtbl8`. -/
def fragtbl8 : List ℕ :=
  [0, 1, 1, 2, 1, 1, 2, 4, 1, 1, 1, 3, 2, 3, 4, 8, 1, 1, 1, 3, 1, 1, 3, 5, 2, 3, 3, 2, 4, 5, 8,
   16, 1, 1, 1, 3, 1, 1, 3, 5, 1, 1, 1, 3, 3, 3, 5, 9, 2, 3, 3, 2, 3, 3, 2, 6, 4, 5, 5, 6, 8, 9,
   16, 32, 1, 1, 1, 3, 1, 1, 3, 5, 1, 1, 1, 3, 3, 3, 5, 9, 1, 1, 1, 3, 1, 1, 3, 5, 3, 3, 3, 3,
   5, 5, 9, 17, 2, 3, 3, 2, 3, 3, 2, 6, 3, 3, 3, 3, 2, 3, 6, 10, 4, 5, 5, 6, 5, 5, 6, 4, 8, 9,
   9, 10, 16, 17, 32, 64, 1, 1, 1, 3, 1, 1, 3, 5, 1, 1, 1, 3, 3, 3, 5, 9, 1, 1, 1, 3, 1, 1, 3,
   5, 3, 3, 3, 3, 5, 5, 9, 17, 1, 1, 1, 3, 1, 1, 3, 5, 1, 1, 1, 3, 3, 3, 5, 9, 3, 3, 3, 3, 3, 3,
   3, 7, 5, 5, 5, 7, 9, 9, 17, 33, 2, 3, 3, 2, 3, 3, 2, 6, 3, 3, 3, 3, 2, 3, 6, 10, 3, 3, 3, 3,
   3, 3, 3, 7, 2, 3, 3, 2, 6, 7, 10, 18, 4, 5, 5, 6, 5, 5, 6, 4, 5, 5, 5, 7, 6, 7, 4, 12, 8, 9,
   9, 10, 9, 9, 10, 12, 16, 17, 17, 18, 32, 33, 64, 128]

/-- `fragtbl[fs_frag][map]`. -/
def fragtbl (frag map : ℕ) : ℕ := (if frag = 8 then fragtbl8 else fragtbl124).getD map 0

/-- The inner loop of `fragacct`: how often `fraglist[siz]` is changed. -/
def fragaccLoop (frag fragmap siz : ℕ) : ℕ → ℕ → ℕ → ℕ → ℕ
  | 0, _, _, _ => 0
  | n + 1, pos, field, subfield =>
    if frag < pos then 0
    else if fragmap &&& field = subfield then
      fragaccLoop frag fragmap siz n (pos + siz + 1) (field <<< siz <<< 1)
        (subfield <<< siz <<< 1) + 1
    else fragaccLoop frag fragmap siz n (pos + 1) (field <<< 1) (subfield <<< 1)

/-- The runs of `siz` free fragments in a block: `around[siz]` and `inside[siz]` are
`2 ^ (siz + 2) - 1` and `2 ^ (siz + 1) - 2`. -/
def fragRuns (frag fragmap siz : ℕ) : ℕ :=
  if (fragtbl frag fragmap <<< 1).testBit (siz + frag % 8) then
    fragaccLoop frag (fragmap <<< 1) siz (frag + 1) siz (2 ^ (siz + 2) - 1) (2 ^ (siz + 1) - 2)
  else 0

/-- `fragacct`. -/
def fragacct (fs : Fs) (fragmap : ℕ) (fraglist : ℕ → ℤ) (cnt : ℤ) (siz : ℕ) : ℤ :=
  if 1 ≤ siz ∧ siz < fs.fsFrag then fraglist siz + cnt * fragRuns fs.fsFrag fragmap siz
  else fraglist siz

/-! ## The code -/

/-- `blkmap`: the bits of a block. -/
def blkmap (fs : Fs) (map : ℤ → Bool) (loc : ℤ) :
    ℕ := Nat.ofBits fun j : Fin fs.fsFrag => map (loc + j)

/-- `isblock`: the block is free. -/
def isblock (fs : Fs) (cp : ℤ → Bool) (h : ℤ) :
    Prop := ∀ j < fs.fsFrag, cp (h * fs.fsFrag + j) = true

/-- `isclrblock`: the block is in use. -/
def isclrblock (fs : Fs) (cp : ℤ → Bool) (h : ℤ) :
    Prop := ∀ j < fs.fsFrag, cp (h * fs.fsFrag + j) = false

instance (fs : Fs) (cp : ℤ → Bool) (h : ℤ) : Decidable (isblock fs cp h) := by
  unfold isblock; infer_instance

instance (fs : Fs) (cp : ℤ → Bool) (h : ℤ) : Decidable (isclrblock fs cp h) := by
  unfold isclrblock; infer_instance

/-- `setblock`. -/
def setblock (fs : Fs) (cp : ℤ → Bool) (h : ℤ) : ℤ → Bool := fun k => k / fs.fsFrag = h || cp k

/-- The group of an address and the place in it, as `free` finds them.  It takes a
negative address for a block of a file that was preallocated. -/
def freeTarget (fs : Fs) (bno : ℤ) : ℤ × ℤ :=
  -- `UFS_HOLE` is -1
  let bno := if bno < 0 ∧ bno.tmod fs.fsBsize = 0 ∧ bno ≠ -1 then -bno else bno
  (bno.tdiv fs.fsFpg, bno.tmod fs.fsFpg)

/-- The loop of `free` over the fragments: the map, and the fragment that was free. -/
def freeFrags : ℕ → ℤ → (ℤ → Bool) → (ℤ → Bool) × Option ℤ
  | 0, _, map => (map, none)
  | n + 1, bno, map =>
    if map bno then (map, some bno) else freeFrags n (bno + 1) (update map bno true)

/-- Counts a complete block in its cylinder, `cbtocylno` and `cbtorpos`. -/
def Cg.addBlock (fs : Fs) (cgp : Cg) (bno : ℤ) : Cg :=
  let cylno := (bno * fs.fsNspf).tdiv fs.fsSpc
  let rpos := (((bno * fs.fsNspf).tmod fs.fsSpc).tmod fs.fsNsect * fs.vfsNrpos).tdiv fs.fsNsect
  { cgp with
    cgB := update cgp.cgB cylno (update (cgp.cgB cylno) rpos (cgp.cgB cylno rpos + 1))
    cgBtot := update cgp.cgBtot cylno (cgp.cgBtot cylno + 1) }

/-- Adds to the counts. -/
def Csum.add (cs : Csum) (nb nf : ℤ) : Csum := ⟨cs.csNbfree + nb, cs.csNffree + nf⟩

/-- Writes a group and adds to the three places that keep its counts. -/
def State.count (u : State) (cg : ℤ) (cgp : Cg) (nb nf : ℤ) : State where
  cgs := update u.cgs cg (some { cgp with cgCs := cgp.cgCs.add nb nf })
  fsCs := update u.fsCs cg ((u.fsCs cg).add nb nf)
  fsCstotal := u.fsCstotal.add nb nf

/-- `free`. -/
def free (fs : Fs) (u : State) (bno : ℤ) (size : ℕ) : State × Option Fault :=
  if fs.fsBsize < size ∨ size % 2 ^ fs.fsFshift ≠ 0 then (u, some (.badSize size))
  else
    let (cg, bno) := freeTarget fs bno
    match u.cgs cg with
    | none => (u, none)
    | some cgp =>
      if size = fs.fsBsize then
        let blkno := bno / fs.fsFrag
        if isclrblock fs cgp.cgFree blkno then
          let cgp := { cgp with cgFree := setblock fs cgp.cgFree blkno }
          (u.count cg (cgp.addBlock fs bno) 1 0, none)
        else (u, some (.freeingFreeBlock bno))
      else
        let bbase := bno - bno % fs.fsFrag
        let frsum := fragacct fs (blkmap fs cgp.cgFree bbase) cgp.cgFrsum (-1)
        let n := size / 2 ^ fs.fsFshift
        match freeFrags n bno cgp.cgFree with
        | (map, some blk) =>
          let cgp := { cgp with cgFrsum := frsum, cgFree := map }
          ({ u with cgs := update u.cgs cg (some cgp) }, some (.freeingFreeFrag blk))
        | (map, none) =>
          let frsum := fragacct fs (blkmap fs map bbase) frsum 1
          let cgp := { cgp with cgFrsum := frsum, cgFree := map }
          -- a complete block may have been put together
          if isblock fs map (bbase / fs.fsFrag) then
            (u.count cg (cgp.addBlock fs bbase) 1 (n - fs.fsFrag), none)
          else (u.count cg cgp 0 n, none)

/-- The types of allocation of `bmap_write`. -/
inductive BiType where
  | biNormal
  | biAllocOnly
  | biFallocate
  deriving DecidableEq

/-- The entry that `bmap_write` stores in an indirect block of level `j`, of `NIADDR`. -/
def bmapEntry (allocType : BiType) (j : ℕ) (nb : ℤ) : ℤ :=
  if allocType = .biFallocate ∧ j = 3 then -nb else nb

variable {fs : Fs} {u : State} {bno : ℤ}

/-! ## Addresses that were negated -/

/-- **The addresses of a preallocated file.**  `free` finds the block behind a negated
address exactly if the address, which counts fragments, is a multiple of the block size,
which counts bytes. -/
theorem freeTarget_fallocate (fs : Fs) {b : ℤ} (hb : 0 < b) :
    freeTarget fs (bmapEntry .biFallocate 3 b) = freeTarget fs b ↔ (fs.fsBsize : ℤ) ∣ b := by
  have hpow : (2 : ℤ) ^ 12 ≤ fs.fsBsize := by
    rw [Fs.fsBsize]
    exact_mod_cast Nat.pow_le_pow_right (by norm_num) fs.bshift_ge
  have hfpg : (0 : ℤ) < fs.fsFpg := by exact_mod_cast fs.fpg_pos
  rw [bmapEntry, if_pos ⟨rfl, rfl⟩]
  simp only [freeTarget, if_neg (by omega : ¬ (b < 0 ∧ b.tmod fs.fsBsize = 0 ∧ b ≠ -1))]
  constructor
  · intro heq
    by_contra hdvd
    rw [if_neg fun h => hdvd (Int.dvd_neg.mp (Int.dvd_of_tmod_eq_zero h.2.1)), Prod.mk.injEq,
      Int.neg_tdiv, Int.neg_tmod] at heq
    have hmul := Int.mul_tdiv_add_tmod b fs.fsFpg
    rw [(by omega : b.tdiv fs.fsFpg = 0), (by omega : b.tmod fs.fsFpg = 0)] at hmul
    omega
  · intro hdvd
    have hle := Int.le_of_dvd hb hdvd
    have hmod : (-b).tmod fs.fsBsize = 0 := by
      rw [Int.neg_tmod, Int.tmod_eq_zero_of_dvd hdvd, neg_zero]
    rw [if_pos ⟨by omega, hmod, by omega⟩, neg_neg]

/-- A file system with blocks of 8K and fragments of 1K. -/
def fs8k : Fs := ⟨10, 3, 4096, 2, 64, 32, 8, by decide, by decide, by decide⟩

theorem freeTarget_fallocate_eight :
    freeTarget fs8k (bmapEntry .biFallocate 3 8) ≠ freeTarget fs8k 8 := by
  decide

theorem freeTarget_fallocate_8192 :
    freeTarget fs8k (bmapEntry .biFallocate 3 8192) = freeTarget fs8k 8192 :=
  (freeTarget_fallocate fs8k (by decide)).mpr (by decide)

/-! ## Fragments that are free already -/

/-- A block with a free fragment that counts in no entry of the summary is free. -/
theorem fragRuns_eq_zero_iff : ∀ s ≤ 3, ∀ m < 2 ^ 2 ^ s, 0 < m →
    ((∀ siz < 2 ^ s, 1 ≤ siz → fragRuns (2 ^ s) m siz = 0) ↔ m = 2 ^ 2 ^ s - 1) := by
  decide +kernel

/-- The fragments that come before are left alone. -/
theorem freeFrags_of_lt (n : ℕ) {k : ℤ} (map : ℤ → Bool) (hk : k < bno) :
    (freeFrags n bno map).1 k = map k := by
  induction n generalizing bno map with
  | zero => rfl
  | succ n ih =>
    rw [freeFrags]
    split
    · rfl
    · rw [ih _ (by omega), update_of_ne hk.ne]

theorem freeFrags_fault {n : ℕ} {map : ℤ → Bool} (h : ∃ i < n, map (bno + i) = true) :
    ∃ blk, (freeFrags n bno map).2 = some blk := by
  induction n generalizing bno map with
  | zero => simp at h
  | succ n ih =>
    rw [freeFrags]
    split
    · exact ⟨bno, rfl⟩
    · rename_i hbit
      obtain ⟨i, hi, hmap⟩ := h
      obtain _ | i := i
      · simp_all
      refine ih ⟨i, by omega, ?_⟩
      rw [update_of_ne (by omega), ← hmap]
      congr 1
      omega

theorem blkmap_lt (fs : Fs) (map : ℤ → Bool) (loc : ℤ) : blkmap fs map loc < 2 ^ fs.fsFrag :=
  Nat.ofBits_lt_two_pow _

theorem blkmap_eq_iff (fs : Fs) (map : ℤ → Bool) (loc : ℤ) :
    blkmap fs map loc = 2 ^ fs.fsFrag - 1 ↔ ∀ j < fs.fsFrag, map (loc + j) = true := by
  rw [blkmap]
  constructor
  · intro heq j hj
    have hbit := congrArg (Nat.testBit · j) heq
    simpa [Nat.testBit_ofBits_lt _ _ hj, hj] using hbit
  · intro hall
    refine Nat.eq_of_testBit_eq fun j => ?_
    rw [Nat.testBit_two_pow_sub_one]
    by_cases hj : j < fs.fsFrag
    · simp [Nat.testBit_ofBits_lt _ _ hj, hj, hall]
    · simp [Nat.testBit_ofBits_ge _ _ (not_lt.mp hj), hj]

/-- Taking the runs of a block with a free fragment out of the summary changes it,
unless the block is free. -/
theorem fragacct_eq_iff (fs : Fs) {map : ℤ → Bool} {loc : ℤ} {j : ℕ} (hj : j < fs.fsFrag)
    (hbit : map (loc + j) = true) (fraglist : ℕ → ℤ) :
    fragacct fs (blkmap fs map loc) fraglist (-1) = fraglist ↔
      ∀ j < fs.fsFrag, map (loc + j) = true := by
  have hpos : 0 < blkmap fs map loc := by
    refine Nat.pos_of_ne_zero fun h0 => ?_
    have h := congrArg (Nat.testBit · j) h0
    simp [blkmap, Nat.testBit_ofBits_lt _ _ hj, hbit] at h
  rw [← blkmap_eq_iff, Fs.fsFrag, ← fragRuns_eq_zero_iff _ fs.fragshift_le _ (blkmap_lt ..) hpos,
    funext_iff]
  refine forall_congr' fun siz => ?_
  rw [fragacct, Fs.fsFrag]
  constructor
  · intro h hlt hle
    rw [if_pos ⟨hle, hlt⟩] at h
    omega
  · intro h
    split
    · rename_i hsiz
      simp [h hsiz.2 hsiz.1]
    · rfl

/-- A range shorter than a block. -/
theorem free_frag_of_lt {cgp : Cg} {size : ℕ} (hcg : u.cgs (freeTarget fs bno).1 = some cgp)
    (hsize : size < fs.fsBsize) (hdvd : 2 ^ fs.fsFshift ∣ size)
    (hfree : ∃ i < size / 2 ^ fs.fsFshift, cgp.cgFree ((freeTarget fs bno).2 + i) = true) :
    (∃ blk, (free fs u bno size).2 = some (.freeingFreeFrag blk)) ∧
      ((free fs u bno size).1 = u ↔
        isblock fs cgp.cgFree ((freeTarget fs bno).2 / fs.fsFrag)) := by
  obtain ⟨blk, hblk⟩ := freeFrags_fault hfree
  rw [free, if_neg (by simp [Nat.mod_eq_zero_of_dvd hdvd, hsize.le])]
  obtain ⟨⟨cg, bno⟩, ht⟩ : ∃ t, freeTarget fs bno = t := ⟨_, rfl⟩
  simp only [ht] at hcg hblk hfree ⊢
  obtain ⟨⟨map, _⟩, hm⟩ : ∃ r, freeFrags (size / 2 ^ fs.fsFshift) bno cgp.cgFree = r := ⟨_, rfl⟩
  rw [hm] at hblk
  cases hblk
  simp only [hcg, if_neg hsize.ne, hm]
  refine ⟨⟨blk, rfl⟩, ?_⟩
  have hpos : (0 : ℤ) < fs.fsFrag := by exact_mod_cast Nat.two_pow_pos _
  have hmod := Int.emod_nonneg bno hpos.ne'
  have hlt := Int.emod_lt_of_pos bno hpos
  have hbase : bno - bno % fs.fsFrag = bno / fs.fsFrag * fs.fsFrag := by
    have := Int.mul_ediv_add_emod bno fs.fsFrag
    rw [mul_comm] at this
    omega
  have hj : bno / fs.fsFrag * fs.fsFrag + ((bno % fs.fsFrag).toNat : ℕ) = bno := by omega
  have hstate : ({ u with cgs := update u.cgs cg (some { cgp with
      cgFrsum := fragacct fs (blkmap fs cgp.cgFree (bno - bno % fs.fsFrag)) cgp.cgFrsum (-1)
      cgFree := map }) } : State) = u ↔
      fragacct fs (blkmap fs cgp.cgFree (bno - bno % fs.fsFrag)) cgp.cgFrsum (-1) = cgp.cgFrsum ∧
        map = cgp.cgFree := by
    constructor
    · intro heq
      have h := congrArg (State.cgs · cg) heq
      simp only [update_self, hcg, Option.some.injEq] at h
      exact ⟨congrArg Cg.cgFrsum h, congrArg Cg.cgFree h⟩
    · rintro ⟨hsum, rfl⟩
      rw [hsum, ← hcg, update_eq_self]
  obtain ⟨n, hn⟩ : ∃ n, size / 2 ^ fs.fsFshift = n + 1 :=
    Nat.exists_eq_add_one_of_ne_zero (by rintro h0; simp [h0] at hfree)
  rw [hstate, hbase, isblock]
  by_cases hbit : cgp.cgFree bno = true
  · rw [hn, freeFrags, if_pos hbit, Prod.mk.injEq] at hm
    rw [fragacct_eq_iff fs (by omega) (hj ▸ hbit), and_iff_left hm.1.symm]
  · -- the first fragment was in use, and is marked free before the fault
    rw [hn, freeFrags, if_neg hbit] at hm
    have hset := freeFrags_of_lt n (update cgp.cgFree bno true) (by omega : bno < bno + 1)
    rw [hm, update_self] at hset
    refine iff_of_false (fun h => hbit (h.2 ▸ hset)) fun h => hbit ?_
    rw [← hj]
    exact h _ (by omega)

/-- **A fragment that is free already** is reported.  The file system is then as it was
exactly if a whole block was to be freed or the block was free. -/
theorem free_frag_fault {cgp : Cg} {size : ℕ} (hcg : u.cgs (freeTarget fs bno).1 = some cgp)
    (hsize : size ≤ fs.fsBsize) (hdvd : 2 ^ fs.fsFshift ∣ size)
    (hblock : size = fs.fsBsize → (fs.fsFrag : ℤ) ∣ (freeTarget fs bno).2)
    (hfree : ∃ i < size / 2 ^ fs.fsFshift, cgp.cgFree ((freeTarget fs bno).2 + i) = true) :
    (∃ blk, (free fs u bno size).2 = some (.freeingFreeFrag blk) ∨
        (free fs u bno size).2 = some (.freeingFreeBlock blk)) ∧
      ((free fs u bno size).1 = u ↔ size = fs.fsBsize ∨
        isblock fs cgp.cgFree ((freeTarget fs bno).2 / fs.fsFrag)) := by
  rcases hsize.lt_or_eq with hlt | rfl
  · obtain ⟨⟨blk, hblk⟩, hiff⟩ := free_frag_of_lt hcg hlt hdvd hfree
    exact ⟨⟨blk, .inl hblk⟩, by rw [hiff, or_iff_right hlt.ne]⟩
  · have hused : ¬ isclrblock fs cgp.cgFree ((freeTarget fs bno).2 / fs.fsFrag) := by
      obtain ⟨i, hi, hbit⟩ := hfree
      rw [Fs.fsBsize, Nat.pow_add, Nat.mul_div_cancel_left _ (Nat.two_pow_pos _)] at hi
      intro hclr
      have h := hclr i hi
      rw [Int.ediv_mul_cancel (hblock rfl), hbit] at h
      cases h
    rw [free, if_neg (by simp [Nat.mod_eq_zero_of_dvd hdvd])]
    simp only [hcg, if_true, if_neg hused]
    exact ⟨⟨_, .inr rfl⟩, iff_of_true trivial (.inl trivial)⟩

/-- Groups with a given free map, in which one fragment is free. -/
def stateOf (map : ℤ → Bool) : State :=
  let cs : Csum := ⟨0, 1⟩
  ⟨fun _ => some ⟨cs, fun siz => if siz = 1 then 1 else 0, 0, 0, map⟩, fun _ => cs, cs⟩

theorem free_frag_fault_sets :
    let r := free fs8k (stateOf fun k => k = 1) 0 2048
    (∃ blk, r.2 = some (.freeingFreeFrag blk)) ∧
      (r.1.cgs 0).map (fun cgp => (cgp.cgFree 0, cgp.cgFrsum 1)) = some (true, 0) :=
  ⟨⟨1, rfl⟩, by decide⟩

/-- Three fragments of the second block, which is free as a whole. -/
theorem free_frag_fault_block :
    let u := stateOf fun k => 8 ≤ k ∧ k < 16
    (∃ blk, (free fs8k u 10 3072).2 = some (.freeingFreeFrag blk) ∨
        (free fs8k u 10 3072).2 = some (.freeingFreeBlock blk)) ∧
      (free fs8k u 10 3072).1 = u :=
  And.imp_right (fun hiff => hiff.mpr (.inr (by decide)))
    (free_frag_fault rfl (by decide) (by decide) (by decide) ⟨0, by decide, by decide⟩)

end Polaris.Ufs
