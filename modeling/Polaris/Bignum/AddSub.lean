import Mathlib.Tactic.LinearCombination
import Polaris.Bignum.Basic

/-!
# Adding and subtracting big numbers

The carries are found again from the words: a sum that is smaller than its first term has wrapped.

## Main definitions

* `bigAddAbs`, `bigSubPos` — on absolute values.
* `bigAdd`, `bigSub` — with signs.
-/

namespace Polaris

open List BitVec BigNum

/-- One more word. -/
theorem two_pow_words_succ (n : ℕ) : 2 ^ (32 * (n + 1)) = 2 ^ 32 * 2 ^ (32 * n) := by
  rw [Nat.mul_succ, Nat.pow_add, Nat.mul_comm]

/-! ## Adding words -/

/-- The carry after a word, from the sum and its first term. -/
def carryOf (r a cy : BigWord) : BigWord :=
  if r > a then 0#32 else if r < a then 1#32 else cy

/-- The second loop of `big_add_abs`, on what is left of the longer number. -/
def addTail (cy : BigWord) : List BigWord → List BigWord × BigWord
  | [] => ([], cy)
  | a :: as =>
    let r := a + cy
    let rest := addTail (if r ≥ a then 0#32 else cy) as
    (r :: rest.1, rest.2)

/-- The loops of `big_add_abs`: the words of the sum and the carry out of them. -/
def addWords (cy : BigWord) : List BigWord → List BigWord → List BigWord × BigWord
  | a :: as, b :: bs =>
    let r := a + b + cy
    let rest := addWords (carryOf r a cy) as bs
    (r :: rest.1, rest.2)
  | as, [] => addTail cy as
  | [], bs => addTail cy bs

theorem add_carry (a b cy : BigWord) (hcy : cy.toNat ≤ 1) :
    (a + b + cy).toNat + 2 ^ 32 * (carryOf (a + b + cy) a cy).toNat
      = a.toNat + b.toNat + cy.toNat ∧ (carryOf (a + b + cy) a cy).toNat ≤ 1 := by
  have ha := a.isLt
  have hb := b.isLt
  have hr : (a + b + cy).toNat = (a.toNat + b.toNat + cy.toNat) % 2 ^ 32 := by
    rw [toNat_add, toNat_add]
    omega
  rw [carryOf]
  by_cases hgt : a + b + cy > a
  · have := lt_def.mp hgt
    rw [if_pos hgt]
    simp only [toNat_ofNat, Nat.zero_mod]
    omega
  have hle : ¬ a.toNat < (a + b + cy).toNat := fun h => hgt (lt_def.mpr h)
  rw [if_neg hgt]
  by_cases hlt : a + b + cy < a
  · have := lt_def.mp hlt
    rw [if_pos hlt]
    simp only [toNat_ofNat, Nat.one_mod]
    omega
  · have hge : ¬ (a + b + cy).toNat < a.toNat := fun h => hlt (lt_def.mpr h)
    rw [if_neg hlt]
    omega

/-- The second loop finds the carry as the first one does with a zero word. -/
theorem carryOf_add_zero (a cy : BigWord) (hcy : cy.toNat ≤ 1) :
    carryOf (a + 0#32 + cy) a cy = if a + cy ≥ a then 0#32 else cy := by
  rw [carryOf, BitVec.add_zero]
  split_ifs <;> bv_omega

theorem addTail_spec (as : List BigWord) (cy : BigWord) (hcy : cy.toNat ≤ 1) :
    wordsVal (addTail cy as).1 + 2 ^ (32 * as.length) * (addTail cy as).2.toNat
        = wordsVal as + cy.toNat ∧
      (addTail cy as).1.length = as.length ∧ (addTail cy as).2.toNat ≤ 1 := by
  induction as generalizing cy with
  | nil => simp [addTail, hcy]
  | cons a as ih =>
    obtain ⟨hstep, hcarry⟩ := add_carry a 0#32 cy hcy
    rw [carryOf_add_zero a cy hcy] at hstep hcarry
    rw [BitVec.add_zero] at hstep
    obtain ⟨hsum, hlen, hle⟩ := ih _ hcarry
    exact ⟨limbVal_carry hstep hsum, congrArg (· + 1) hlen, hle⟩

theorem addWords_spec (as bs : List BigWord) (cy : BigWord) (hcy : cy.toNat ≤ 1) :
    wordsVal (addWords cy as bs).1
          + 2 ^ (32 * max as.length bs.length) * (addWords cy as bs).2.toNat
        = wordsVal as + wordsVal bs + cy.toNat ∧
      (addWords cy as bs).1.length = max as.length bs.length ∧ (addWords cy as bs).2.toNat ≤ 1 := by
  induction as generalizing bs cy with
  | nil =>
    cases bs with
    | nil => simp [addWords, addTail, hcy]
    | cons b bs => simpa [addWords] using addTail_spec (b :: bs) cy hcy
  | cons a as ih =>
    cases bs with
    | nil => simpa [addWords] using addTail_spec (a :: as) cy hcy
    | cons b bs =>
      obtain ⟨hstep, hcarry⟩ := add_carry a b cy hcy
      obtain ⟨hsum, hlen, hle⟩ := ih bs _ hcarry
      have hmax : max (a :: as).length (b :: bs).length = max as.length bs.length + 1 := by
        simp only [length_cons]
        omega
      rw [hmax]
      refine ⟨(limbVal_carry hstep hsum).trans ?_, congrArg (· + 1) hlen, hle⟩
      simp only [wordsVal, limbVal_cons]
      ring

/-- `big_add_abs`: the words of the sum, one more if there is a carry. -/
def addAbsWords (aa bb : List BigWord) : List BigWord :=
  let sum := addWords 0#32 aa bb
  if sum.2 = 1#32 then sum.1 ++ [sum.2] else sum.1

theorem wordsVal_addAbsWords (aa bb : List BigWord) :
    wordsVal (addAbsWords aa bb) = wordsVal aa + wordsVal bb := by
  obtain ⟨hsum, hlen, hle⟩ := addWords_spec aa bb 0#32 (by decide)
  rw [addAbsWords]
  by_cases hcarry : (addWords 0#32 aa bb).2 = 1#32
  · rw [hcarry] at hsum
    rw [if_pos hcarry, wordsVal, limbVal_concat, hlen, hcarry]
    simpa [wordsVal] using hsum
  have h0 : (addWords 0#32 aa bb).2.toNat = 0 := by
    have hne : (addWords 0#32 aa bb).2.toNat ≠ 1 := fun h => hcarry (eq_of_toNat_eq h)
    omega
  rw [h0] at hsum
  rw [if_neg hcarry]
  simpa using hsum

theorem length_addAbsWords (aa bb : List BigWord) :
    max aa.length bb.length ≤ (addAbsWords aa bb).length := by
  obtain ⟨-, hlen, -⟩ := addWords_spec aa bb 0#32 (by decide)
  rw [addAbsWords]
  split
  · rw [length_append, hlen]
    omega
  · omega

/-- A sum takes as many words as its terms did, and one more only for a carry. -/
theorem tight_addAbsWords {aa bb : List BigWord} (ha : Tight aa) (hb : Tight bb) :
    Tight (addAbsWords aa bb) := by
  obtain ⟨hsum, hlen, hle⟩ := addWords_spec aa bb 0#32 (by decide)
  have hval := wordsVal_addAbsWords aa bb
  have hlong := length_addAbsWords aa bb
  have hapos := length_pos_iff.mpr ha.1
  refine ⟨ne_nil_of_length_pos (by omega), ?_⟩
  rw [hval, addAbsWords]
  by_cases hcarry : (addWords 0#32 aa bb).2 = 1#32
  · right
    rw [hcarry] at hsum
    rw [if_pos hcarry, length_append, hlen]
    have hone : (1#32 : BigWord).toNat = 1 := rfl
    rw [hone, Nat.mul_one] at hsum
    simp only [length_singleton, Nat.add_sub_cancel]
    simp only [toNat_ofNat, Nat.zero_mod, Nat.add_zero] at hsum
    omega
  · rw [if_neg hcarry, hlen]
    rcases Nat.le_total aa.length bb.length with hab | hab
    · rw [Nat.max_eq_right hab]
      rcases hb.2 with hone | hpow
      · exact .inl hone
      · exact .inr (hpow.trans (Nat.le_add_left _ _))
    · rw [Nat.max_eq_left hab]
      rcases ha.2 with hone | hpow
      · exact .inl hone
      · exact .inr (hpow.trans (Nat.le_add_right _ _))

def bigAddAbs (succeeds : Bool) (result aa bb : BigNum) : BigM BigNum := do
  let longer := max aa.value.length bb.value.length
  let result ← bigExtend succeeds result (longer + 1)
  .ok { result with neg := false, value := addAbsWords aa.value bb.value }

/-! ## Subtracting words -/

/-- The second loop of `big_sub_pos`. -/
def subTail (cy : BigWord) : List BigWord → List BigWord × BigWord
  | [] => ([], cy)
  | a :: as =>
    let r := a + ~~~0#32 + cy
    let rest := subTail (if r < a then 1#32 else cy) as
    (r :: rest.1, rest.2)

/-- The loops of `big_sub_pos`; what `bb` has above the length of `aa` is not looked at.  The carry
out of the words is zero if the difference is negative. -/
def subWords (cy : BigWord) : List BigWord → List BigWord → List BigWord × BigWord
  | a :: as, b :: bs =>
    let r := a + ~~~b + cy
    let rest := subWords (carryOf r a cy) as bs
    (r :: rest.1, rest.2)
  | as, [] => subTail cy as
  | [], _ => ([], cy)

theorem sub_carry (a b cy : BigWord) (hcy : cy.toNat ≤ 1) :
    a.toNat + cy.toNat + 2 ^ 32 = (a + ~~~b + cy).toNat + b.toNat + 1
        + 2 ^ 32 * (carryOf (a + ~~~b + cy) a cy).toNat ∧
      (carryOf (a + ~~~b + cy) a cy).toNat ≤ 1 := by
  obtain ⟨hsum, hle⟩ := add_carry a (~~~b) cy hcy
  have hnot : (~~~b).toNat = 2 ^ 32 - 1 - b.toNat := toNat_not
  have hb := b.isLt
  omega

theorem carryOf_sub_zero (a cy : BigWord) (hcy : cy.toNat ≤ 1) :
    carryOf (a + ~~~0#32 + cy) a cy = if a + ~~~0#32 + cy < a then 1#32 else cy := by
  rw [carryOf]
  split_ifs <;> bv_omega

theorem subTail_spec (as : List BigWord) (cy : BigWord) (hcy : cy.toNat ≤ 1) :
    wordsVal as + cy.toNat + 2 ^ (32 * as.length)
        = wordsVal (subTail cy as).1 + 1 + 2 ^ (32 * as.length) * (subTail cy as).2.toNat ∧
      (subTail cy as).1.length = as.length ∧ (subTail cy as).2.toNat ≤ 1 := by
  induction as generalizing cy with
  | nil =>
    refine ⟨?_, rfl, hcy⟩
    simp [subTail]
    omega
  | cons a as ih =>
    obtain ⟨hstep, hcarry⟩ := sub_carry a 0#32 cy hcy
    rw [carryOf_sub_zero a cy hcy] at hstep hcarry
    obtain ⟨hsum, hlen, hle⟩ := ih _ hcarry
    exact ⟨limbVal_borrow (B := 0) hstep hsum, congrArg (· + 1) hlen, hle⟩

/-- The words of `bb` up to the length of `aa` are subtracted. -/
theorem subWords_spec (as bs : List BigWord) (cy : BigWord) (hcy : cy.toNat ≤ 1) :
    wordsVal as + cy.toNat + 2 ^ (32 * as.length)
        = wordsVal (subWords cy as bs).1 + wordsVal (bs.take as.length) + 1
          + 2 ^ (32 * as.length) * (subWords cy as bs).2.toNat ∧
      (subWords cy as bs).1.length = as.length ∧ (subWords cy as bs).2.toNat ≤ 1 := by
  induction as generalizing bs cy with
  | nil =>
    refine ⟨?_, ?_, ?_⟩ <;> cases bs <;> simp [subWords, subTail, hcy] <;> omega
  | cons a as ih =>
    cases bs with
    | nil => simpa [subWords] using subTail_spec (a :: as) cy hcy
    | cons b bs =>
      obtain ⟨hstep, hcarry⟩ := sub_carry a b cy hcy
      obtain ⟨hsum, hlen, hle⟩ := ih bs _ hcarry
      exact ⟨limbVal_borrow hstep hsum, congrArg (· + 1) hlen, hle⟩

/-- A difference that is not negative comes out exactly. -/
theorem subWords_of_le {aa bb : List BigWord} (h : wordsVal bb ≤ wordsVal aa) :
    wordsVal (subWords 1#32 aa bb).1 = wordsVal aa - wordsVal bb ∧
      (subWords 1#32 aa bb).1.length = aa.length ∧ (subWords 1#32 aa bb).2 ≠ 0#32 := by
  obtain ⟨hsum, hlen, hle⟩ := subWords_spec aa bb 1#32 (by decide)
  have haa := limbVal_lt aa
  -- what `bb` has above the length of `aa` is zero
  have htake : wordsVal (bb.take aa.length) = wordsVal bb := by
    by_cases hshort : bb.length ≤ aa.length
    · rw [take_of_length_le hshort]
    have hsplit := limbVal_take_add_drop bb (Nat.le_of_lt (not_le.mp hshort))
    have hzero : limbVal (bb.drop aa.length) = 0 := by
      by_contra hne
      have hmul : 2 ^ (32 * aa.length) * 1 ≤ 2 ^ (32 * aa.length) * limbVal (bb.drop aa.length) :=
        Nat.mul_le_mul_left _ (Nat.pos_of_ne_zero hne)
      simp only [wordsVal] at h
      omega
    rw [hzero, Nat.mul_zero, Nat.add_zero] at hsplit
    exact hsplit
  rw [htake] at hsum
  have hone : (1#32 : BigWord).toNat = 1 := rfl
  have hrest := limbVal_lt (subWords 1#32 aa bb).1
  rw [hlen] at hrest
  have hcarry : (subWords 1#32 aa bb).2.toNat = 1 := by
    rcases Nat.le_one_iff_eq_zero_or_eq_one.mp hle with h0 | h1
    · rw [h0] at hsum
      simp only [wordsVal] at hsum h
      omega
    · exact h1
  rw [hcarry] at hsum
  refine ⟨by omega, hlen, ?_⟩
  intro h0
  rw [h0] at hcarry
  cases hcarry

/-- `big_sub_pos`: the object, and whether the result is `BIG_OK`. -/
def bigSubPos (succeeds : Bool) (result aa bb : BigNum) : BigM (BigNum × Bool) := do
  let result ← bigExtend succeeds result aa.value.length
  let diff := subWords 1#32 aa.value bb.value
  .ok ({ result with neg := false, value := diff.1 }, diff.2 ≠ 0#32)

/-- A call of `big_sub_pos` whose error is passed on. -/
def bigSubPosOk (succeeds : Bool) (result aa bb : BigNum) : BigM BigNum := do
  let r ← bigSubPos succeeds result aa bb
  if r.2 then .ok r.1 else .error (.err .invalidArgs)

/-! ## With signs -/

/-- The difference of absolute values, with the sign it has when `aa` is not below `bb`. -/
def bigSubAbs (succeeds : Bool) (result aa bb : BigNum) (neg : Bool) : BigM BigNum :=
  if bigCmpAbs aa.value bb.value ≠ .lt then do
    let result ← bigSubPosOk succeeds result aa bb
    .ok { result with neg := neg }
  else do
    let result ← bigSubPosOk succeeds result bb aa
    .ok { result with neg := !neg }

def bigSub (succeeds : Bool) (result aa bb : BigNum) : BigM BigNum :=
  if bb.neg && !aa.neg then do
    let result ← bigAddAbs succeeds result aa bb
    .ok { result with neg := false }
  else if aa.neg && !bb.neg then do
    let result ← bigAddAbs succeeds result aa bb
    .ok { result with neg := true }
  else if !aa.neg && !bb.neg then bigSubAbs succeeds result aa bb false
  else bigSubAbs succeeds result aa bb true

def bigAdd (succeeds : Bool) (result aa bb : BigNum) : BigM BigNum :=
  if bb.neg && aa.neg then do
    let result ← bigAddAbs succeeds result aa bb
    .ok { result with neg := true }
  else if !aa.neg && !bb.neg then do
    let result ← bigAddAbs succeeds result aa bb
    .ok { result with neg := false }
  else if !aa.neg && bb.neg then bigSubAbs succeeds result aa bb false
  else bigSubAbs succeeds result aa bb true

/-- A difference from which nothing cancels. -/
theorem Tight.of_sub {x y r : BigNum} (hx : Tight x.value) (hlen : r.value.length = x.value.length)
    (habs : r.abs = x.abs - y.abs)
    (hxy : x.abs = 0 ∨ y.abs = 0 ∨ x.value.length = 1 ∧ y.value.length = 1) : Tight r.value := by
  have hne : r.value ≠ [] := by
    intro h0
    rw [h0] at hlen
    exact hx.1 (length_eq_zero_iff.mp hlen.symm)
  have hval : wordsVal r.value = x.abs - y.abs := habs
  refine ⟨hne, ?_⟩
  rw [hlen, hval]
  rcases hx.2 with hone | hpow
  · exact .inl hone
  have hxpos : 0 < x.abs := Nat.lt_of_lt_of_le (Nat.two_pow_pos _) hpow
  rcases hxy with h0 | h0 | ⟨h1, -⟩
  · omega
  · rw [h0, Nat.sub_zero]
    exact .inr hpow
  · exact .inl h1

section Specs

variable {sure : Prop} {alloc : Alloc} (halloc : sure → alloc.Good) (path : List ℕ)
  (result aa bb : BigNum)

include halloc

theorem runs_bigAddAbs : Runs sure (bigAddAbs (alloc path) result aa bb) fun r =>
    r.neg = false ∧ r.abs = aa.abs + bb.abs ∧
      max aa.value.length bb.value.length ≤ r.value.length := by
  rw [bigAddAbs]
  refine (runs_bigExtend halloc path _ _).bind ?_
  intro number _
  exact ⟨rfl, wordsVal_addAbsWords _ _, length_addAbsWords _ _⟩

/-- The object holds the words of the difference whether it is negative or not. -/
theorem runs_bigSubPos : Runs sure (bigSubPos (alloc path) result aa bb) fun r =>
    r.1.neg = false ∧ r.1.value.length = aa.value.length ∧
      (bb.abs ≤ aa.abs → r.1.abs = aa.abs - bb.abs ∧ r.2 = true) := by
  rw [bigSubPos]
  refine (runs_bigExtend halloc path _ _).bind ?_
  intro number _
  refine ⟨rfl, (subWords_spec _ _ _ (by decide)).2.1, ?_⟩
  intro hle
  obtain ⟨hval, -, hcarry⟩ := subWords_of_le hle
  exact ⟨hval, decide_eq_true hcarry⟩

theorem runs_bigSubPosOk (hle : bb.abs ≤ aa.abs) :
    Runs sure (bigSubPosOk (alloc path) result aa bb) fun r =>
      r.neg = false ∧ r.value.length = aa.value.length ∧ r.abs = aa.abs - bb.abs := by
  rw [bigSubPosOk]
  refine (runs_bigSubPos halloc path result aa bb).bind ?_
  rintro ⟨r, ok⟩ ⟨hneg, hlen, hval⟩
  obtain ⟨habs, hok⟩ := hval hle
  simp only at habs hok hneg hlen
  rw [hok]
  exact ⟨hneg, hlen, habs⟩

theorem runs_bigSubAbs (neg : Bool) : Runs sure (bigSubAbs (alloc path) result aa bb neg) fun r =>
    (r.toInt = if neg then (bb.abs : ℤ) - aa.abs else (aa.abs : ℤ) - bb.abs) ∧
      (r.value.length = aa.value.length ∧ r.abs = aa.abs - bb.abs ∨
        r.value.length = bb.value.length ∧ r.abs = bb.abs - aa.abs) := by
  have hcmp : bigCmpAbs aa.value bb.value = compare aa.abs bb.abs := bigCmpAbs_eq _ _
  rw [bigSubAbs, hcmp]
  by_cases hlt : aa.abs < bb.abs
  · rw [if_neg (by simp [Nat.compare_eq_lt.mpr hlt])]
    refine (runs_bigSubPosOk halloc path result bb aa hlt.le).bind ?_
    rintro r ⟨-, hlen, habs⟩
    refine ⟨?_, .inr ⟨hlen, habs⟩⟩
    have habs : wordsVal r.value = bb.abs - aa.abs := habs
    change toInt ⟨_, _, _⟩ = _
    rw [toInt_mk, habs]
    cases neg <;> simp <;> omega
  · rw [if_pos (by rw [ne_eq, Nat.compare_eq_lt]; exact hlt)]
    refine (runs_bigSubPosOk halloc path result aa bb (not_lt.mp hlt)).bind ?_
    rintro r ⟨-, hlen, habs⟩
    refine ⟨?_, .inl ⟨hlen, habs⟩⟩
    have habs : wordsVal r.value = aa.abs - bb.abs := habs
    change toInt ⟨_, _, _⟩ = _
    rw [toInt_mk, habs]
    cases neg <;> simp <;> omega

theorem runs_bigAddAbs_signed (neg : Bool) :
    Runs sure (bigAddAbs (alloc path) result aa bb >>= fun r => .ok { r with neg := neg }) fun r =>
      r.toInt = if neg then -((aa.abs : ℤ) + bb.abs) else (aa.abs : ℤ) + bb.abs := by
  refine (runs_bigAddAbs halloc path result aa bb).bind ?_
  rintro r ⟨-, habs, -⟩
  have habs : wordsVal r.value = aa.abs + bb.abs := habs
  change toInt ⟨_, _, _⟩ = _
  rw [toInt_mk, habs]
  cases neg <;> simp

theorem runs_bigSub : Runs sure (bigSub (alloc path) result aa bb) fun r =>
    r.toInt = aa.toInt - bb.toInt := by
  rw [bigSub]
  cases ha : aa.neg <;> cases hb : bb.neg
  · refine (runs_bigSubAbs halloc path result aa bb false).mono fun r hr => ?_
    rw [hr.1, toInt_of_pos ha, toInt_of_pos hb, if_neg nofun]
  · refine (runs_bigAddAbs_signed halloc path result aa bb false).mono fun r hr => ?_
    rw [hr, toInt_of_pos ha, toInt_of_neg hb, if_neg nofun]
    omega
  · refine (runs_bigAddAbs_signed halloc path result aa bb true).mono fun r hr => ?_
    rw [hr, toInt_of_neg ha, toInt_of_pos hb, if_pos rfl]
    omega
  · refine (runs_bigSubAbs halloc path result aa bb true).mono fun r hr => ?_
    rw [hr.1, toInt_of_neg ha, toInt_of_neg hb, if_pos rfl]
    omega

/-- The sum is the difference with the number of the other sign. -/
theorem runs_bigAdd : Runs sure (bigAdd (alloc path) result aa bb) fun r =>
    r.toInt = aa.toInt + bb.toInt := by
  have heq : bigAdd (alloc path) result aa bb =
      bigSub (alloc path) result aa { bb with neg := !bb.neg } := by
    rw [bigAdd, bigSub]
    cases aa.neg <;> cases bb.neg <;> rfl
  have hneg : BigNum.toInt { bb with neg := !bb.neg } = -bb.toInt := by
    cases hb : bb.neg <;> simp [BigNum.toInt, BigNum.abs, hb]
  rw [heq]
  refine (runs_bigSub halloc path result aa _).mono fun r hr => ?_
  rw [hr, hneg, sub_neg_eq_add]

/-- The difference is tight if nothing cancels. -/
theorem runs_bigSub_tight (ha : Tight aa.value) (hb : Tight bb.value)
    (hcancel : aa.neg = bb.neg →
      aa.abs = 0 ∨ bb.abs = 0 ∨ aa.value.length = 1 ∧ bb.value.length = 1) :
    Runs sure (bigSub (alloc path) result aa bb) fun r => Tight r.value := by
  have hadd (neg : Bool) : Runs sure (bigAddAbs (alloc path) result aa bb >>= fun r =>
    .ok { r with neg := neg })
      fun r => Tight r.value := by
    rw [bigAddAbs]
    refine ((runs_bigExtend halloc path _ _).bind fun number _ => ?_).bind fun r hr => hr
    exact tight_addAbsWords ha hb
  have hsub (heq : aa.neg = bb.neg) (neg : Bool) :
      Runs sure (bigSubAbs (alloc path) result aa bb neg) fun r => Tight r.value := by
    refine (runs_bigSubAbs halloc path result aa bb neg).mono fun r hr => ?_
    have hc := hcancel heq
    rcases hr.2 with ⟨hlen, habs⟩ | ⟨hlen, habs⟩
    · exact ha.of_sub hlen habs hc
    · exact hb.of_sub hlen habs (by tauto)
  rw [bigSub]
  cases hna : aa.neg <;> cases hnb : bb.neg
  · exact hsub (hna.trans hnb.symm) false
  · exact hadd false
  · exact hadd true
  · exact hsub (hna.trans hnb.symm) true

end Specs

end Polaris
