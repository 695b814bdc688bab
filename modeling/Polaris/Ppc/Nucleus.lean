import Mathlib.Order.Interval.Finset.Nat
import Polaris.Ppc.Pagetable

/-!
# The space around the page table

`startup.c` of `chrp` hands out the space that is left before the page table, the gap, and after it.
Both regions are taken from their start by the size rounded with `P2ALIGN`, which rounds down.  What
is left of a region is an unsigned difference: a region that ends before it starts counts as a huge
one.

## Main definitions

* `nucleusAlloc`, `nucleusZalloc`, `nucleusAllocBest`
* `nucleusTrace` — the blocks that calls hand out and the bytes that they zero.

## Main results

* `nucleusTrace_safe_iff` — when the calls are safe.
* `startupNucleus_gap_iff` — `startup_memlist` sets up a gap that ends before it starts.
-/

namespace Polaris

open Finset

/-- `s_gap`, `e_gap`, `s_avail` and `e_avail`. -/
structure Nucleus where
  sGap : BitVec 32
  eGap : BitVec 32
  sAvail : BitVec 32
  eAvail : BitVec 32

/-- `P2ALIGN(size, 16)`. -/
def nucleusRsize (size : BitVec 32) : BitVec 32 := p2align size 16#32

/-- `nucleus_alloc`: the address, 0 if it is `NULL`.  After a panic there is no result. -/
def nucleusAlloc (n : Nucleus) (size : BitVec 32) (required : Bool) :
    Option (BitVec 32 × Nucleus) :=
  let rsize := nucleusRsize size
  if n.eGap - n.sGap ≥ rsize then some (n.sGap, { n with sGap := n.sGap + rsize })
  else if n.eAvail - n.sAvail ≥ rsize then some (n.sAvail, { n with sAvail := n.sAvail + rsize })
  else if required then none
  else some (0, n)

/-- `nucleus_zalloc`, with the bytes that `bzero` is called for, also if the address is `NULL`. -/
def nucleusZalloc (n : Nucleus) (size : BitVec 32) (required : Bool) :
    Option (BitVec 32 × Finset ℕ × Nucleus) := do
  let (p, n) ← nucleusAlloc n size required
  some (p, Ico p.toNat (p.toNat + size.toNat), n)

/-- `nucleus_alloc_best`: the address and the size that is handed back. -/
def nucleusAllocBest (n : Nucleus) (size : BitVec 32) : BitVec 32 × BitVec 32 × Nucleus :=
  let rsize := nucleusRsize size
  let szGap := n.eGap - n.sGap
  let szAvail := n.eAvail - n.sAvail
  if szGap ≥ rsize then (n.sGap, rsize, { n with sGap := n.sGap + rsize })
  else if szAvail ≥ rsize then (n.sAvail, rsize, { n with sAvail := n.sAvail + rsize })
  else if szGap > szAvail then (n.sGap, szGap, { n with sGap := n.eGap })
  else (n.sAvail, szAvail, { n with sAvail := n.eAvail })

/-- The regions that `startup_memlist` begins with, for the page table `pt` of a size that is 0 if
there is none. -/
def startupNucleus (sAvail eAvail : BitVec 32) (pt : BitVec 32 × BitVec 32) : Nucleus :=
  let sGap := p2align sAvail 16#32
  if pt.2 ≠ 0#32 then ⟨sGap, pt.1, pt.1 + pt.2, eAvail⟩ else ⟨sGap, sGap, sAvail, eAvail⟩

inductive NucleusCall
  | alloc (size : BitVec 32) (required : Bool)
  | zalloc (size : BitVec 32) (required : Bool)
  | allocBest (size : BitVec 32)

/-- The bytes of the block that a call returns, none if it fails, and those that it zeroes. -/
structure NucleusEvent where
  block : Finset ℕ
  zeroed : Finset ℕ

/-- The block at an address that may be `NULL`. -/
def nucleusBlock (p size : BitVec 32) : Finset ℕ :=
  if p = 0 then ∅ else Ico p.toNat (p.toNat + size.toNat)

def NucleusCall.run (n : Nucleus) : NucleusCall → Option (NucleusEvent × Nucleus)
  | alloc size required => do
    let (p, n) ← nucleusAlloc n size required
    some (⟨nucleusBlock p size, ∅⟩, n)
  | zalloc size required => do
    let (p, zeroed, n) ← nucleusZalloc n size required
    some (⟨nucleusBlock p size, zeroed⟩, n)
  | allocBest size =>
    let (p, size, n) := nucleusAllocBest n size
    some (⟨nucleusBlock p size, ∅⟩, n)

/-- What a sequence of calls does, up to a panic. -/
def nucleusTrace (n : Nucleus) : List NucleusCall → List NucleusEvent
  | [] => []
  | c :: cs => match c.run n with
    | none => []
    | some (e, n) => e :: nucleusTrace n cs

/-- The size is not rounded, or no region can have it. -/
def NucleusFits (size : BitVec 32) : Prop := 16 ∣ size.toNat ∨ 2 ^ 32 - 16 ≤ size.toNat

/-- The calls that are safe in every sequence: what is zeroed at `NULL` lies before every region. -/
def NucleusCall.Good : NucleusCall → Prop
  | alloc size _ => NucleusFits size
  | zalloc size required => NucleusFits size ∧ (required = true ∨ size.toNat ≤ 16)
  | allocBest _ => True

variable {n n' : Nucleus} {k : BitVec 32}

namespace Nucleus

/-- The bytes of the gap. -/
def gap (n : Nucleus) : Finset ℕ := Ico n.sGap.toNat n.eGap.toNat

/-- The bytes after the page table. -/
def avail (n : Nucleus) : Finset ℕ := Ico n.sAvail.toNat n.eAvail.toNat

/-- The regions to begin with: they are disjoint and start at multiples of 16 other than 0. -/
structure Initial (n : Nucleus) : Prop where
  gap_dvd : 16 ∣ n.sGap.toNat
  gap_ne : n.sGap ≠ 0
  avail_dvd : 16 ∣ n.sAvail.toNat
  avail_ne : n.sAvail ≠ 0
  apart : Disjoint n.gap n.avail

/-- The regions do not end before they start. -/
def Upright (n : Nucleus) : Prop := n.sGap ≤ n.eGap ∧ n.sAvail ≤ n.eAvail

/-- What calls keep. -/
structure Valid (n : Nucleus) : Prop where
  gap_ge : 16 ≤ n.sGap.toNat
  gap_le : n.sGap ≤ n.eGap
  avail_ge : 16 ≤ n.sAvail.toNat
  avail_le : n.sAvail ≤ n.eAvail
  apart : Disjoint n.gap n.avail

/-- The bytes lie in one of the regions. -/
def Holds (n : Nucleus) (b : Finset ℕ) : Prop := b ⊆ n.gap ∨ b ⊆ n.avail

/-- Every block lies in a region, apart from the blocks before it, no byte of which is zeroed. -/
structure Safe (n : Nucleus) (es : List NucleusEvent) : Prop where
  inside : ∀ e ∈ es, n.Holds e.block
  apart : es.Pairwise fun e e' => Disjoint e.block e'.block ∧ Disjoint e.block e'.zeroed

/-- The bytes are taken out of the regions. -/
structure Takes (n : Nucleus) (b : Finset ℕ) (n' : Nucleus) : Prop where
  valid : n'.Valid
  inside : n.Holds b
  later : ∀ b', n'.Holds b' → n.Holds b' ∧ Disjoint b b'

theorem ne_zero_of_le {s : BitVec 32} (h : 16 ≤ s.toNat) : s ≠ 0 := by
  rintro rfl
  exact absurd h (by decide)

/-- The first bytes of a region are taken. -/
theorem take {s e : BitVec 32} (hge : 16 ≤ s.toNat) (hle : s ≤ e) (hk : k ≤ e - s) :
    16 ≤ (s + k).toNat ∧ s + k ≤ e ∧ nucleusBlock s k ⊆ Ico s.toNat e.toNat ∧
      Ico (s + k).toNat e.toNat ⊆ Ico s.toNat e.toNat ∧
      Disjoint (nucleusBlock s k) (Ico (s + k).toNat e.toNat) := by
  rw [BitVec.le_def, BitVec.toNat_sub_of_le hle] at hk
  rw [BitVec.le_def] at hle ⊢
  rw [BitVec.toNat_add, Nat.mod_eq_of_lt (by omega), nucleusBlock, if_neg (ne_zero_of_le hge)]
  exact ⟨by omega, by omega, Ico_subset_Ico_right (by omega), Ico_subset_Ico_left (by omega),
    Ico_disjoint_Ico_consecutive ..⟩

theorem Initial.valid (h : n.Initial) (hup : n.Upright) : n.Valid := by
  have hpos {s : BitVec 32} (hdvd : 16 ∣ s.toNat) (hne : s ≠ 0) : 16 ≤ s.toNat :=
    Nat.le_of_dvd (Nat.pos_of_ne_zero (BitVec.toNat_ne.mp hne)) hdvd
  exact ⟨hpos h.gap_dvd h.gap_ne, hup.1, hpos h.avail_dvd h.avail_ne, hup.2, h.apart⟩

namespace Valid

variable (h : n.Valid)

include h

theorem takes_none : n.Takes ∅ n :=
  ⟨h, .inl (empty_subset _), fun _ hb => ⟨hb, disjoint_empty_left _⟩⟩

theorem takes_gap (hk : k ≤ n.eGap - n.sGap) :
    n.Takes (nucleusBlock n.sGap k) { n with sGap := n.sGap + k } := by
  obtain ⟨hge, hle, hblock, hrest, hdis⟩ := take h.gap_ge h.gap_le hk
  refine ⟨⟨hge, hle, h.avail_ge, h.avail_le, h.apart.mono_left hrest⟩, .inl hblock, fun b hb => ?_⟩
  rcases hb with hb | hb
  · exact ⟨.inl (hb.trans hrest), hdis.mono_right hb⟩
  · exact ⟨.inr hb, h.apart.mono hblock hb⟩

theorem takes_avail (hk : k ≤ n.eAvail - n.sAvail) :
    n.Takes (nucleusBlock n.sAvail k) { n with sAvail := n.sAvail + k } := by
  obtain ⟨hge, hle, hblock, hrest, hdis⟩ := take h.avail_ge h.avail_le hk
  refine ⟨⟨h.gap_ge, h.gap_le, hge, hle, h.apart.mono_right hrest⟩, .inr hblock, fun b hb => ?_⟩
  rcases hb with hb | hb
  · exact ⟨.inl hb, h.apart.symm.mono hblock hb⟩
  · exact ⟨.inr (hb.trans hrest), hdis.mono_right hb⟩

/-- What is zeroed at `NULL` is no byte of a block. -/
theorem disjoint_low {b : Finset ℕ} (hb : n.Holds b) : Disjoint b (Ico 0 16) := by
  have hge := h.gap_ge
  have hge' := h.avail_ge
  rw [disjoint_left]
  intro x hx
  rcases hb with hb | hb
  all_goals
    have hmem := hb hx
    simp only [gap, avail, mem_Ico] at hmem ⊢
    omega

end Valid

end Nucleus

theorem toNat_nucleusRsize (size : BitVec 32) :
    (nucleusRsize size).toNat = 16 * (size.toNat / 16) :=
  toNat_p2align size (k := 4) (by decide) rfl

theorem nucleusRsize_of_dvd {size : BitVec 32} (h : 16 ∣ size.toNat) :
    nucleusRsize size = size := by
  apply BitVec.eq_of_toNat_eq
  rw [toNat_nucleusRsize, Nat.mul_div_cancel' h]

variable {size : BitVec 32}

/-- No region has room for a size that is rounded to the last multiple of 16. -/
theorem nucleusRsize_not_le {s e : BitVec 32} (hge : 16 ≤ s.toNat) (hle : s ≤ e)
    (hsize : 2 ^ 32 - 16 ≤ size.toNat) : ¬ nucleusRsize size ≤ e - s := by
  rw [BitVec.le_def, BitVec.toNat_sub_of_le hle, toNat_nucleusRsize]
  omega

section

variable (h : n.Valid)

include h

theorem nucleusAlloc_takes {required : Bool} {p : BitVec 32} (hsize : NucleusFits size)
    (hrun : nucleusAlloc n size required = some (p, n')) :
    n.Takes (nucleusBlock p size) n' ∧ (p = 0 → required ≠ true) := by
  have hnone := h.takes_none
  rw [nucleusAlloc] at hrun
  rcases hsize with hdvd | hbig
  · rw [nucleusRsize_of_dvd hdvd] at hrun
    split_ifs at hrun with hgap havail hreq
    · cases hrun
      exact ⟨h.takes_gap hgap, fun hp => absurd hp (Nucleus.ne_zero_of_le h.gap_ge)⟩
    · cases hrun
      exact ⟨h.takes_avail havail, fun hp => absurd hp (Nucleus.ne_zero_of_le h.avail_ge)⟩
    · cases hrun
      exact ⟨hnone, fun _ => hreq⟩
  · simp only [ge_iff_le, nucleusRsize_not_le h.gap_ge h.gap_le hbig,
      nucleusRsize_not_le h.avail_ge h.avail_le hbig, if_false] at hrun
    split_ifs at hrun with hreq
    cases hrun
    exact ⟨hnone, fun _ => hreq⟩

theorem nucleusAllocBest_takes :
    n.Takes (nucleusBlock (nucleusAllocBest n size).1 (nucleusAllocBest n size).2.1)
      (nucleusAllocBest n size).2.2 := by
  have hall (s e : BitVec 32) : s + (e - s) = e := by rw [BitVec.add_comm, BitVec.sub_add_cancel]
  simp only [nucleusAllocBest]
  split_ifs with hgap havail
  · exact h.takes_gap hgap
  · exact h.takes_avail havail
  · simpa only [hall] using h.takes_gap (BitVec.le_refl _)
  · simpa only [hall] using h.takes_avail (BitVec.le_refl _)

/-- A good call takes its block out of a region, and zeroes nothing else but low bytes. -/
theorem NucleusCall.run_takes {c : NucleusCall} {e : NucleusEvent} (hc : c.Good)
    (hrun : c.run n = some (e, n')) :
    n.Takes e.block n' ∧ (e.zeroed ⊆ e.block ∨ e.zeroed ⊆ Ico 0 16) := by
  cases c with
  | alloc size required =>
    obtain ⟨⟨p, n₁⟩, hp, hrun⟩ := Option.bind_eq_some_iff.mp hrun
    cases hrun
    exact ⟨(nucleusAlloc_takes h hc hp).1, .inl (empty_subset _)⟩
  | zalloc size required =>
    obtain ⟨⟨p, zeroed, n₁⟩, hz, hrun⟩ := Option.bind_eq_some_iff.mp hrun
    obtain ⟨⟨p, n₁⟩, hp, hz⟩ := Option.bind_eq_some_iff.mp hz
    cases hrun
    cases hz
    obtain ⟨htakes, hnull⟩ := nucleusAlloc_takes h hc.1 hp
    refine ⟨htakes, ?_⟩
    by_cases hzero : p = 0
    · right
      subst hzero
      exact Ico_subset_Ico_right (by simpa using hc.2.resolve_left (hnull rfl))
    · left
      rw [nucleusBlock, if_neg hzero]
  | allocBest size =>
    cases hrun
    exact ⟨nucleusAllocBest_takes h, .inl (empty_subset _)⟩

end

/-- The induction is over the calls: what is handed out later lies in the regions that are left. -/
theorem nucleusTrace_safe {cs : List NucleusCall} (h : n.Valid) (hcs : ∀ c ∈ cs, c.Good) :
    n.Safe (nucleusTrace n cs) ∧
      ∀ e ∈ nucleusTrace n cs, e.zeroed ⊆ e.block ∨ e.zeroed ⊆ Ico 0 16 := by
  induction cs generalizing n with
  | nil => exact ⟨⟨by simp [nucleusTrace], .nil⟩, by simp [nucleusTrace]⟩
  | cons c cs ih =>
    obtain ⟨hc, hcs⟩ := List.forall_mem_cons.mp hcs
    rw [nucleusTrace]
    split
    next => exact ⟨⟨by simp, .nil⟩, by simp⟩
    next e n' hrun =>
      obtain ⟨htakes, hzero⟩ := c.run_takes h hc hrun
      obtain ⟨hsafe, hzeros⟩ := ih htakes.valid hcs
      have hlater e' (he' : e' ∈ nucleusTrace n' cs) := htakes.later _ (hsafe.inside e' he')
      refine ⟨⟨List.forall_mem_cons.mpr ⟨htakes.inside, fun e' he' => (hlater e' he').1⟩,
        .cons (fun e' he' => ⟨(hlater e' he').2, ?_⟩) hsafe.apart⟩,
        List.forall_mem_cons.mpr ⟨hzero, hzeros⟩⟩
      rcases hzeros e' he' with hblock | hlow
      · exact (hlater e' he').2.mono_right hblock
      · exact (h.disjoint_low htakes.inside).mono_right hlow

/-! ## Calls that are not safe -/

/-- The last byte of the address space is in no region. -/
theorem Nucleus.not_holds {b : Finset ℕ} (hb : 2 ^ 32 - 1 ∈ b) : ¬ n.Holds b := by
  rintro (h | h)
  all_goals
    have hmem := h hb
    simp only [gap, avail, mem_Ico] at hmem
    omega

/-- The whole of a region that ends before it starts: the difference wraps around, and so does the
block. -/
theorem nucleusRsize_inverted {s e : BitVec 32} (hdvd : 16 ∣ s.toNat) (hlt : ¬ s ≤ e) :
    2 ^ 32 ≤ s.toNat + (nucleusRsize (e - s)).toNat := by
  rw [BitVec.le_def] at hlt
  rw [toNat_nucleusRsize, BitVec.toNat_sub]
  omega

theorem nucleusRsize_rsize (size : BitVec 32) : nucleusRsize (nucleusRsize size)
    = nucleusRsize size := by
  apply nucleusRsize_of_dvd
  rw [toNat_nucleusRsize]
  exact Nat.dvd_mul_right ..

theorem nucleusRsize_le (size : BitVec 32) : nucleusRsize size ≤ size := by
  rw [BitVec.le_def, toNat_nucleusRsize]
  omega

theorem mem_nucleusBlock_last {s size : BitVec 32} (hs : s ≠ 0)
    (h : 2 ^ 32 ≤ s.toNat + size.toNat) :
    2 ^ 32 - 1 ∈ nucleusBlock s size := by
  rw [nucleusBlock, if_neg hs, mem_Ico]
  omega

/-- All of the gap is taken, and then all that is left. -/
def wholeCalls (n : Nucleus) : List NucleusCall :=
  [.alloc (nucleusRsize (n.eGap - n.sGap)) true, .alloc (nucleusRsize (n.eAvail - n.sAvail)) true]

theorem wholeCalls_good : ∀ c ∈ wholeCalls n, c.Good := by
  have hfits (size : BitVec 32) : NucleusFits (nucleusRsize size) := by
    left
    rw [toNat_nucleusRsize]
    exact Nat.dvd_mul_right ..
  simp [wholeCalls, NucleusCall.Good, hfits]

theorem upright_of_safe (h : n.Initial) (hsafe : n.Safe (nucleusTrace n (wholeCalls n))) :
    n.Upright := by
  have hfirst : nucleusAlloc n (nucleusRsize (n.eGap - n.sGap)) true =
      some (n.sGap, { n with sGap := n.sGap + nucleusRsize (n.eGap - n.sGap) }) := by
    rw [nucleusAlloc, nucleusRsize_rsize]
    exact if_pos (nucleusRsize_le _)
  simp only [wholeCalls, nucleusTrace, NucleusCall.run, hfirst, Option.bind_eq_bind,
    Option.bind_some] at hsafe
  have hgap : n.sGap ≤ n.eGap := by
    by_contra hlt
    exact n.not_holds (mem_nucleusBlock_last h.gap_ne (nucleusRsize_inverted h.gap_dvd hlt))
      (hsafe.inside _ List.mem_cons_self)
  refine ⟨hgap, ?_⟩
  by_contra hlt
  have hbig := nucleusRsize_inverted h.avail_dvd hlt
  -- less than 16 bytes of the gap are left
  have hsecond : ∃ n', nucleusAlloc { n with sGap := n.sGap + nucleusRsize (n.eGap - n.sGap) }
      (nucleusRsize (n.eAvail - n.sAvail)) true = some (n.sAvail, n') := by
    have hleft : ¬ nucleusRsize (n.eAvail - n.sAvail) ≤
        n.eGap - (n.sGap + nucleusRsize (n.eGap - n.sGap)) := by
      have hdvd := h.avail_dvd
      rw [BitVec.le_def, ← BitVec.sub_sub, BitVec.toNat_sub_of_le (nucleusRsize_le _),
        toNat_nucleusRsize (n.eGap - n.sGap)]
      omega
    rw [nucleusAlloc, nucleusRsize_rsize]
    exact ⟨_, (if_neg hleft).trans (if_pos (nucleusRsize_le _))⟩
  obtain ⟨n', hsecond⟩ := hsecond
  simp only [hsecond, Option.bind_some] at hsafe
  exact n.not_holds (mem_nucleusBlock_last h.avail_ne hbig)
    (hsafe.inside _ (List.mem_cons_of_mem _ List.mem_cons_self))

/-- A gap and nothing after it. -/
def gapNucleus (s e : BitVec 32) : Nucleus := ⟨s, e, e, e⟩

theorem gapNucleus_initial {e : BitVec 32} (hdvd : 16 ∣ e.toNat) (he : 16 ≤ e.toNat) :
    (gapNucleus 16#32 e).Initial ∧ (gapNucleus 16#32 e).Upright := by
  exact ⟨⟨Nat.dvd_refl 16, by simp [gapNucleus], hdvd, Nucleus.ne_zero_of_le he,
    by simp [Nucleus.avail, gapNucleus]⟩, he, BitVec.le_refl _⟩

theorem nucleusAlloc_gap (size : BitVec 32) (required : Bool) :
    nucleusAlloc (gapNucleus 16#32 (16#32 + nucleusRsize size)) size required =
      some (16#32, gapNucleus (16#32 + nucleusRsize size) (16#32 + nucleusRsize size)) := by
  have hle : nucleusRsize size ≤ 16#32 + nucleusRsize size - 16#32 := by
    rw [BitVec.add_comm, BitVec.add_sub_cancel]
    exact BitVec.le_refl _
  exact if_pos hle

/-- The block of a size that is rounded ends after the gap it is taken from. -/
theorem nucleusFits_of_holds
    (h : (gapNucleus 16#32 (16#32 + nucleusRsize size)).Initial →
      (gapNucleus 16#32 (16#32 + nucleusRsize size)).Upright →
      (gapNucleus 16#32 (16#32 + nucleusRsize size)).Holds (nucleusBlock 16#32 size)) :
      NucleusFits size := by
  by_contra hfits
  rw [NucleusFits, not_or] at hfits
  have hr := toNat_nucleusRsize size
  have hend : (16#32 + nucleusRsize size).toNat = 16 + (nucleusRsize size).toNat := by
    rw [BitVec.toNat_add, BitVec.toNat_ofNat]
    omega
  obtain ⟨hinit, hup⟩ := gapNucleus_initial (e := 16#32 + nucleusRsize size) (by omega) (by omega)
  have hmem : 16 + (nucleusRsize size).toNat ∈ nucleusBlock 16#32 size := by
    simp [nucleusBlock]
    omega
  rcases h hinit hup with h | h
  all_goals
    have := h hmem
    simp only [Nucleus.gap, Nucleus.avail, gapNucleus, hend, mem_Ico] at this
    omega

/-- A call that can be made among good calls. -/
def NucleusCall.Joins (c : NucleusCall) : Prop :=
  ∀ n : Nucleus, n.Initial → n.Upright → ∀ cs : List NucleusCall, (∀ c' ∈ cs, c' = c ∨ c'.Good) →
    n.Safe (nucleusTrace n cs)

theorem NucleusCall.Joins.good {c : NucleusCall} (hc : c.Joins) : c.Good := by
  have hone n (hinit : n.Initial) (hup : n.Upright) := hc n hinit hup [c] (by simp)
  cases c with
  | alloc size required =>
    refine nucleusFits_of_holds fun hinit hup => ?_
    have hrun := hone _ hinit hup
    simp only [nucleusTrace, NucleusCall.run, nucleusAlloc_gap] at hrun
    exact hrun.inside _ List.mem_cons_self
  | zalloc size required =>
    refine ⟨nucleusFits_of_holds fun hinit hup => ?_, or_iff_not_imp_left.mpr fun hreq => ?_⟩
    · have hrun := hone _ hinit hup
      simp only [nucleusTrace, NucleusCall.run, nucleusZalloc, nucleusAlloc_gap] at hrun
      exact hrun.inside _ List.mem_cons_self
    · -- the gap is taken first, and what is zeroed at `NULL` reaches into it
      by_contra hlow
      obtain ⟨hinit, hup⟩ := gapNucleus_initial (e := 32) (by decide) (by decide)
      have hrun := (hc _ hinit hup [.alloc 16#32 true, .zalloc size required]
        (by simp [NucleusCall.Good, NucleusFits])).apart
      have hfirst : nucleusAlloc (gapNucleus 16#32 32#32) 16#32 true =
        some (16#32, gapNucleus 32#32 32#32) := nucleusAlloc_gap 16#32 true
      have hfail : nucleusAlloc (gapNucleus 32#32 32#32) size required =
          some (0#32, gapNucleus 32#32 32#32) := by
        have hr := toNat_nucleusRsize size
        have hne : ¬ nucleusRsize size ≤ 0#32 := by
          rw [BitVec.le_def, hr, BitVec.toNat_ofNat]
          omega
        simp [nucleusAlloc, gapNucleus, hreq, hne]
      simp [nucleusTrace, NucleusCall.run, nucleusZalloc, hfirst, hfail, nucleusBlock] at hrun
      exact disjoint_left.mp hrun (by decide : 16 ∈ Ico 16 32) (mem_range.mpr (not_le.mp hlow))
  | allocBest size => trivial

/-- The page table is placed by rounding the start of the space down to its size: the gap before it
ends before it starts unless that start is a multiple of the size. -/
theorem startupNucleus_gap_iff (physinstalled eAvail : BitVec 32) {sAvail : BitVec 32}
    (hdvd : 16 ∣ sAvail.toNat) (hpt : (ppcmmuAllocPagetable physinstalled sAvail eAvail).2 ≠ 0#32) :
    let n := startupNucleus sAvail eAvail (ppcmmuAllocPagetable physinstalled sAvail eAvail)
    n.sGap ≤ n.eGap ↔ (setPageTableSize physinstalled).toNat ∣ sAvail.toNat := by
  obtain ⟨k, hk, hsize⟩ := setPageTableSize_eq physinstalled
  have hstart : p2align sAvail 16#32 = sAvail := nucleusRsize_of_dvd hdvd
  rw [startupNucleus, if_pos hpt]
  rw [ppcmmuAllocPagetable] at hpt ⊢
  split
  next =>
    have hdiv := Nat.div_add_mod sAvail.toNat (2 ^ k)
    simp only [hstart, BitVec.le_def, toNat_p2align sAvail hk hsize]
    rw [hsize, Nat.dvd_iff_mod_eq_zero]
    omega
  next hgt =>
    simp only [if_neg hgt] at hpt
    exact absurd rfl hpt

/-- **When the calls are safe.**  Good calls hand out blocks of their regions that are apart, and
zero no block of another call, exactly if the regions do not end before they start; and then a call
can be made among good ones exactly if it is good. -/
theorem nucleusTrace_safe_iff (n : Nucleus) (c : NucleusCall) :
    (n.Initial →
      ((∀ cs : List NucleusCall, (∀ c' ∈ cs, c'.Good) → n.Safe (nucleusTrace n cs)) ↔ n.Upright)) ∧
    (c.Joins ↔ c.Good) := by
  refine ⟨fun hinit => ⟨fun hsafe => ?_, fun hup cs hcs => ?_⟩, fun hc => hc.good, ?_⟩
  · exact upright_of_safe hinit (hsafe _ wholeCalls_good)
  · exact (nucleusTrace_safe (hinit.valid hup) hcs).1
  · intro hc n hinit hup cs hcs
    refine (nucleusTrace_safe (hinit.valid hup) fun c' hc' => ?_).1
    rcases hcs c' hc' with rfl | hgood
    · exact hc
    · exact hgood

/-- 24 bytes are asked for and 16 taken: the next block is zeroed over the last 8. -/
theorem nucleusTrace_overlap : ¬ ∀ n : Nucleus, n.Initial → n.Upright →
    ∀ cs, n.Safe (nucleusTrace n cs) := by
  intro hsafe
  have h := (hsafe ⟨16, 48, 64, 64⟩ ⟨by decide, by decide, by decide, by decide, by decide⟩
    ⟨by decide, by decide⟩ [.alloc 24#32 true, .zalloc 16#32 true]).apart
  revert h
  decide

end Polaris
