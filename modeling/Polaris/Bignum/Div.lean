import Polaris.Bignum.Mul

/-!
# Dividing big numbers

`big_div_pos_fast` shifts both numbers until the highest word of the divisor has sixteen bits, and
then finds each word of the quotient in two halves.  A half is estimated from the highest words,
from below, and made exact by subtracting the divisor as often as it fits.

The buffers of `big_sub_pos_high` and `big_cmp_abs_high` are the upper words of a number.

## Main definitions

* `bigShiftleft`, `bigShiftright`, `mul16Low`, `mul16High`, `subPosHigh`, `cmpAbsHigh`
* `divDigit` — a word of the quotient.
* `bigDivPos`
-/

namespace Polaris

open List Option
open BitVec hiding cons getElem?_eq_getElem not_not

/-! ## Shifting -/

/-- The loop of `big_shiftleft`. -/
def shlWords (offs : ℕ) (cy : BigWord) : List BigWord → List BigWord
  | [] => if cy ≠ 0#32 then [cy] else []
  | a :: as => (a <<< offs ||| cy) :: shlWords offs (a >>> (32 - offs)) as

/-- `big_shiftleft`, into another number. -/
def bigShiftleft (words : List BigWord) (offs : ℕ) : List BigWord :=
  if offs = 0 then trimWords words else shlWords offs 0#32 words

/-- The loop of `big_shiftright`; `cy` is what is left of the word before. -/
def shrWords (offs : ℕ) (cy : BigWord) : List BigWord → List BigWord
  | [] => [cy]
  | a :: as => (a <<< (32 - offs) ||| cy) :: shrWords offs (a >>> offs) as

/-- `big_shiftright`, for a shift that is not zero. -/
def bigShiftright (words : List BigWord) (offs : ℕ) : List BigWord :=
  match words with
  | [] => []
  | a :: as => shrWords offs (a >>> offs) as

/-! ## A number times a half word -/

/-- `big_mul16_low`. -/
def mul16Low (b : BigWord) (cy : BigWord) : List BigWord → List BigWord
  | [] => [cy]
  | a :: as =>
    let t1 := lo16 a * b + cy
    let t2 := hi16 a * b + hi16 t1
    (lo16 t1 ||| t2 <<< 16) :: mul16Low b (hi16 t2) as

/-- `big_mul16_high`. -/
def mul16High (b : BigWord) (cy ri : BigWord) : List BigWord → List BigWord
  | [] => [(cy <<< 16) + ri]
  | a :: as =>
    let t1 := lo16 a * b + cy
    let t2 := hi16 a * b + hi16 t1
    ((t1 <<< 16) + ri) :: mul16High b (hi16 t2) (lo16 t2) as

/-! ## The upper words -/

/-- `big_sub_pos_high`. -/
def subPosHigh (aa bb : List BigWord) : List BigWord :=
  aa.take (aa.length - bb.length) ++ (subWords 1#32 (aa.drop (aa.length - bb.length)) bb).1

/-- `big_cmp_abs_high`. -/
def cmpAbsHigh (aa bb : List BigWord) : Ordering :=
  bigCmpAbs (aa.drop (aa.length - bb.length)) bb

/-! ## Words of the quotient -/

/-- `while (tmp1.value[tlen - 1] > 0)`, with `bbhigh` one word longer. -/
def divTop (bbhigh : List BigWord) : ℕ → List BigWord → BigWord → Option (List BigWord × BigWord)
  | 0, _, _ => none
  | fuel + 1, tmp1, coeff =>
    match tmp1.getLast? with
    | none => none
    | some top =>
      if top > 0#32 then divTop bbhigh fuel (subPosHigh tmp1 bbhigh) (coeff + 1#32)
      else some (tmp1, coeff)

/-- `while (big_cmp_abs_high(&tmp1, bb) >= 0)`. -/
def divReduce (bb : List BigWord) : ℕ → List BigWord → BigWord → Option (List BigWord × BigWord)
  | 0, _, _ => none
  | fuel + 1, tmp1, coeff =>
    if cmpAbsHigh tmp1 bb ≠ .lt then divReduce bb fuel (subPosHigh tmp1 bb) (coeff + 1#32)
    else some (tmp1, coeff)

/-- As often as the loops can go round. -/
abbrev divFuel : ℕ := 2 ^ 16 + 1

variable {offs n k fuel : ℕ} {b a : List BigWord}

theorem lt_divFuel (h : k < 2 ^ 16) : k < divFuel := Nat.lt_succ_of_lt h

/-- A round of the main loop: the word of the quotient and `tmp1`, one word shorter. -/
def divDigit (highb : BigWord) (bblow bbhigh tmp1 : List BigWord) :
    Option (BigWord × List BigWord) := do
  let top ← tmp1[tmp1.length - 1]?
  let second ← tmp1[tmp1.length - 2]?
  let higha := (top <<< 16) + (second >>> 16)
  let coeff := higha / (highb + 1#32)
  let tmp1 := subPosHigh tmp1 (mul16High coeff 0#32 0#32 bblow)
  let (tmp1, coeff) ← divTop (bbhigh ++ [0#32]) divFuel tmp1 coeff
  let tmp1 := tmp1.dropLast
  let (tmp1, coeff) ← divReduce bbhigh divFuel tmp1 coeff
  let digit := coeff <<< 16
  let higha ← tmp1[tmp1.length - 1]?
  let coeff := higha / (highb + 1#32)
  let tmp1 := subPosHigh tmp1 (mul16Low coeff 0#32 bblow).dropLast
  let (tmp1, coeff) ← divReduce bblow divFuel tmp1 coeff
  some (digit + coeff, tmp1)

/-- The main loop: the words of the quotient, the highest first, and what is left. -/
def divDigits (highb : BigWord) (bblow bbhigh : List BigWord) :
    ℕ → List BigWord → Option (List BigWord × List BigWord)
  | 0, tmp1 => some ([], tmp1)
  | n + 1, tmp1 => do
      let (digit, tmp1) ← divDigit highb bblow bbhigh tmp1
      let (digits, tmp1) ← divDigits highb bblow bbhigh n tmp1
      some (digit :: digits, tmp1)

/-- `while ((highb64 & 0x800000000000ull) == 0)`. -/
def divNormLoop : ℕ → BitVec 64 → ℕ → Option (BitVec 64 × ℕ)
  | 0, _, _ => none
  | fuel + 1, highb64, offs =>
    if highb64 &&& 0x800000000000#64 = 0#64 then divNormLoop fuel (highb64 <<< 1) (offs + 1)
    else some (highb64, offs)

/-- `highb` and `offs`, from the two highest words of the divisor. -/
def divNorm (top second : BigWord) : Option (BigWord × ℕ) := do
  let highb64 := (top.setWidth 64 <<< 32) ||| second.setWidth 64
  let (highb64, offs) ←
    if highb64 ≥ 0x1000000000000#64 then divNormLoop 48 (highb64 >>> 16) 16
    else divNormLoop 48 highb64 0
  some ((highb64 >>> 32).setWidth 32, offs)

/-- `bbhigh`: `bblow` moved by half a word, with a zero word at the top cut off. -/
def divHigh (bblow : List BigWord) (offs : ℕ) : List BigWord :=
  let bbhigh := if offs ≤ 15 then bigShiftleft bblow 16 else bigShiftright bblow 16
  if bbhigh.getLast? = some 0#32 then bbhigh.dropLast else bbhigh

/-- The part of `big_div_pos_fast` between the allocations and the copies, for trimmed numbers with
`aa ≥ bb`: quotient and remainder. -/
def divWords (a b : List BigWord) : Option (List BigWord × List BigWord) := do
  let top ← b[b.length - 1]?
  let second := if b.length > 1 then b.getD (b.length - 2) 0#32 else 0#32
  let (highb, offs) ← divNorm top second
  let bblow := bigShiftleft b offs
  let bbhigh := divHigh bblow offs
  let tmp1 := bigShiftleft a offs
  let (digits, tmp1) ← divDigits highb bblow bbhigh (tmp1.length - bblow.length + 1)
    (tmp1 ++ [0#32])
  some (digits.reverse, if offs = 0 then tmp1 else bigShiftright tmp1 offs)

/-- A copy to an object that the caller may have left out. -/
def bigCopyTo (succeeds : Bool) (dest : Option BigNum) (src : BigNum) : BigM (Option BigNum) :=
  match dest with
  | none => .ok none
  | some dest => (bigCopy succeeds dest src).map some

/-- `big_div_pos_fast`: `result` and `remainder`. -/
def bigDivPos (alloc : Alloc) (result remainder : Option BigNum) (aa bb : BigNum) :
    BigM (Option BigNum × Option BigNum) := do
  let a := trimWords aa.value
  let b := trimWords bb.value
  if b = [0#32] then .error (.err .divBy0)
  else if bigCmpAbs a b = .lt then
    let remainder ← bigCopyTo (alloc [0]) remainder { aa with value := a }
    match result with
    | none => .ok (none, remainder)
    | some result =>
      -- the word is written without a look at the size
      if result.size = 0 then .error .undefined
      else .ok (some { result with neg := false, value := [0#32] }, remainder)
  else
    let _ ← bigInit1 (alloc [1]) (b.length + 1) (some bigTmpsize)
    let _ ← bigInit1 (alloc [2]) (b.length + 1) (some bigTmpsize)
    let tmp1 ← bigInit1 (alloc [3]) (a.length + 2) (some bigTmpsize)
    let _ ← bigInit1 (alloc [4]) (b.length + 2) (some bigTmpsize)
    let tresult ← bigInit1 (alloc [5]) (a.length - b.length + 2) (some bigTmpsize)
    match divWords a b with
    | none => .error .undefined
    | some (quotient, rest) =>
      let remainder ← bigCopyTo (alloc [6]) remainder { tmp1 with neg := aa.neg, value := rest }
      let result ← bigCopyTo (alloc [7]) result { tresult with value := quotient }
      .ok (result, remainder)

/-! ## Shifts and products of words -/

theorem two_pow_split {i j k : ℕ} (h : i = j + k) : 2 ^ i = 2 ^ j * 2 ^ k := h ▸ Nat.pow_add 2 j k

/-- The bits of a word that stay and the bits that leave it. -/
theorem shl_word (a cy : BigWord) (hk : k ≤ 32) (hcy : cy.toNat < 2 ^ k) :
    (a <<< k ||| cy).toNat + 2 ^ 32 * (a >>> (32 - k)).toNat = a.toNat * 2 ^ k + cy.toNat ∧
      (a >>> (32 - k)).toNat < 2 ^ k := by
  have ha := a.isLt
  have hpow : 2 ^ 32 = 2 ^ (32 - k) * 2 ^ k := two_pow_split (by omega)
  have hshift : (a <<< k).toNat = (a.toNat % 2 ^ (32 - k)) <<< k := by
    rw [toNat_shiftLeft, Nat.shiftLeft_eq, Nat.shiftLeft_eq, hpow, Nat.mul_mod_mul_right]
  have hdiv := Nat.div_add_mod a.toNat (2 ^ (32 - k))
  rw [toNat_or, hshift, ← Nat.shiftLeft_add_eq_or_of_lt hcy, Nat.shiftLeft_eq, toNat_ushiftRight,
    Nat.shiftRight_eq_div_pow]
  constructor
  · rw [hpow]
    linear_combination 2 ^ k * hdiv
  · rw [Nat.div_lt_iff_lt_mul (Nat.two_pow_pos _), Nat.mul_comm, ← hpow]
    exact ha

theorem shlWords_spec (hoffs : offs ≤ 32) (as : List BigWord) (cy : BigWord)
    (hcy : cy.toNat < 2 ^ offs) :
    wordsVal (shlWords offs cy as) = wordsVal as * 2 ^ offs + cy.toNat ∧
      ((shlWords offs cy as).length = as.length ∨
        (shlWords offs cy as).length = as.length + 1 ∧
        2 ^ (32 * as.length) ≤ wordsVal (shlWords offs cy as)) := by
  induction as generalizing cy with
  | nil =>
    rw [shlWords]
    split
    next hne =>
      have hpos : 0 < cy.toNat := Nat.pos_of_ne_zero fun h0 => hne (eq_of_toNat_eq h0)
      refine ⟨by simp, .inr ⟨rfl, ?_⟩⟩
      simpa using Nat.succ_le_of_lt hpos
    next hzero =>
      rw [not_not] at hzero
      simp [hzero]
  | cons a as ih =>
    obtain ⟨hword, hlt⟩ := shl_word a cy hoffs hcy
    obtain ⟨hval, hlen⟩ := ih _ hlt
    rw [shlWords, wordsVal_cons, wordsVal_cons, hval, List.length_cons, List.length_cons]
    refine ⟨by linear_combination hword, ?_⟩
    rcases hlen with hlen | ⟨hlen, hle⟩
    · exact .inl (by omega)
    · refine .inr ⟨by omega, ?_⟩
      rw [two_pow_words_succ]
      omega

theorem bigShiftleft_spec (hoffs : offs ≤ 32) {words : List BigWord} (htight : Tight words) :
    wordsVal (bigShiftleft words offs) = wordsVal words * 2 ^ offs ∧
      ((bigShiftleft words offs).length = words.length ∨
        (bigShiftleft words offs).length = words.length + 1 ∧
          2 ^ (32 * words.length) ≤ wordsVal (bigShiftleft words offs)) := by
  rw [bigShiftleft]
  split
  next hzero =>
    subst hzero
    rw [htight.trimWords_eq]
    exact ⟨by simp, .inl rfl⟩
  next => simpa using shlWords_spec hoffs words 0#32 (by simp)

theorem shrWords_spec (hoffs : offs ≤ 32) (as : List BigWord) (cy : BigWord)
    (hcy : cy.toNat < 2 ^ (32 - offs)) :
    wordsVal (shrWords offs cy as) = cy.toNat + 2 ^ (32 - offs) * wordsVal as ∧
      (shrWords offs cy as).length = as.length + 1 := by
  induction as generalizing cy with
  | nil => simp [shrWords]
  | cons a as ih =>
    obtain ⟨hword, hlt⟩ := shl_word a cy (k := 32 - offs) (by omega) hcy
    rw [show 32 - (32 - offs) = offs by omega] at hword hlt
    obtain ⟨hval, hlen⟩ := ih _ hlt
    rw [shrWords, wordsVal_cons, wordsVal_cons, hval, length_cons, length_cons, hlen]
    exact ⟨by linear_combination hword, rfl⟩

theorem bigShiftright_spec (hoffs : offs ≤ 32) (words : List BigWord) :
    wordsVal (bigShiftright words offs) = wordsVal words / 2 ^ offs ∧
      (bigShiftright words offs).length = words.length := by
  cases words with
  | nil => simp [bigShiftright]
  | cons a as =>
    have ha := a.isLt
    have hpow : 2 ^ 32 = 2 ^ offs * 2 ^ (32 - offs) := two_pow_split (by omega)
    have hshift : (a >>> offs).toNat = a.toNat / 2 ^ offs := by
      rw [toNat_ushiftRight, Nat.shiftRight_eq_div_pow]
    obtain ⟨hval, hlen⟩ := shrWords_spec hoffs as (a >>> offs) (by
      rw [hshift, Nat.div_lt_iff_lt_mul (Nat.two_pow_pos _), Nat.mul_comm, ← hpow]
      exact ha)
    refine ⟨?_, hlen⟩
    rw [bigShiftright, hval, hshift, wordsVal_cons, hpow, Nat.mul_assoc,
      Nat.add_mul_div_left _ _ (Nat.two_pow_pos _)]

/-- A product of half words and a half word more. -/
theorem toNat_half_mul_add {x y z : BigWord} (hx : x.toNat < 2 ^ 16) (hy : y.toNat < 2 ^ 16)
    (hz : z.toNat < 2 ^ 16) : (x * y + z).toNat = x.toNat * y.toNat + z.toNat := by
  have hmul : x.toNat * y.toNat ≤ (2 ^ 16 - 1) * (2 ^ 16 - 1) :=
    Nat.mul_le_mul (by omega) (by omega)
  rw [toNat_add, toNat_mul, Nat.mod_add_mod]
  exact Nat.mod_eq_of_lt (by omega)

/-- A word times a half word, in two steps. -/
theorem mul16_round {b cy : BigWord} (hb : b.toNat < 2 ^ 16) (hcy : cy.toNat < 2 ^ 16)
    (a : BigWord) :
    (lo16 (lo16 a * b + cy)).toNat
        + 2 ^ 16 * (hi16 a * b + hi16 (lo16 a * b + cy)).toNat = a.toNat * b.toNat + cy.toNat := by
  have ht1 := toNat_half_mul_add (lo16_lt a) hb hcy
  have ht2 := toNat_half_mul_add (hi16_lt a) hb (hi16_lt (lo16 a * b + cy))
  have hsplit := toNat_halves (lo16 a * b + cy)
  rw [ht2, toNat_halves a]
  linear_combination ht1 - hsplit

theorem mul16Low_spec {b : BigWord} (hb : b.toNat < 2 ^ 16) (as : List BigWord) (cy : BigWord)
    (hcy : cy.toNat < 2 ^ 16) :
    wordsVal (mul16Low b cy as) = wordsVal as * b.toNat + cy.toNat ∧
      (mul16Low b cy as).length = as.length + 1 := by
  induction as generalizing cy with
  | nil => simp [mul16Low]
  | cons a as ih =>
    have hround := mul16_round hb hcy a
    obtain ⟨hval, hlen⟩ := ih _ (hi16_lt (hi16 a * b + hi16 (lo16 a * b + cy)))
    have hsplit := toNat_halves (hi16 a * b + hi16 (lo16 a * b + cy))
    have hjoin := toNat_join16 (lo16 a * b + cy) (hi16 a * b + hi16 (lo16 a * b + cy))
    rw [join16] at hjoin
    simp only [mul16Low]
    rw [wordsVal_cons, wordsVal_cons, hval, length_cons, length_cons, hlen, hjoin]
    exact ⟨by linear_combination hround - 2 ^ 16 * hsplit, rfl⟩

theorem mul16High_spec {b : BigWord} (hb : b.toNat < 2 ^ 16) (as : List BigWord) (cy ri : BigWord)
    (hcy : cy.toNat < 2 ^ 16) (hri : ri.toNat < 2 ^ 16) :
    wordsVal (mul16High b cy ri as) = (wordsVal as * b.toNat + cy.toNat) * 2 ^ 16 + ri.toNat ∧
      (mul16High b cy ri as).length = as.length + 1 := by
  have hshift {x y : BigWord} (hy : y.toNat < 2 ^ 16) :
      ((x <<< 16) + y).toNat = (lo16 x).toNat * 2 ^ 16 + y.toNat := by
    rw [toNat_add, toNat_shiftLeft, Nat.shiftLeft_eq, toNat_lo16]
    omega
  induction as generalizing cy ri with
  | nil =>
    have hlow : (lo16 cy).toNat = cy.toNat := by
      rw [toNat_lo16]
      exact Nat.mod_eq_of_lt hcy
    rw [mul16High, wordsVal, limbVal_singleton, hshift hri, hlow]
    simp
  | cons a as ih =>
    have hround := mul16_round hb hcy a
    obtain ⟨hval, hlen⟩ := ih _ _ (hi16_lt (hi16 a * b + hi16 (lo16 a * b + cy)))
      (lo16_lt (hi16 a * b + hi16 (lo16 a * b + cy)))
    have hsplit := toNat_halves (hi16 a * b + hi16 (lo16 a * b + cy))
    simp only [mul16High]
    rw [wordsVal_cons, wordsVal_cons, hval, length_cons, length_cons, hlen, hshift hri]
    exact ⟨by linear_combination 2 ^ 16 * hround - 2 ^ 32 * hsplit, rfl⟩

/-! ## The upper words -/

/-- The highest word. -/
theorem getLast_eq (hne : a ≠ []) :
    ∃ top, a.getLast? = some top ∧ top.toNat = wordsVal a / 2 ^ (32 * (a.length - 1)) := by
  refine ⟨a.getLast hne, getLast?_eq_some_getLast hne, ?_⟩
  have hval := limbVal_concat a.dropLast (a.getLast hne)
  rw [dropLast_concat_getLast, length_dropLast] at hval
  have hlt := limbVal_lt a.dropLast
  rw [length_dropLast] at hlt
  rw [wordsVal, hval, Nat.add_mul_div_left _ _ (Nat.two_pow_pos _), Nat.div_eq_of_lt hlt,
    Nat.zero_add]

section High

variable (hlen : b.length ≤ a.length)

include hlen

theorem wordsVal_drop_le_iff :
    wordsVal b ≤ wordsVal (a.drop (a.length - b.length)) ↔
      wordsVal b * 2 ^ (32 * (a.length - b.length)) ≤ wordsVal a := by
  rw [wordsVal, wordsVal, limbVal_drop _ (by omega), Nat.le_div_iff_mul_le (Nat.two_pow_pos _)]

theorem cmpAbsHigh_ne_lt_iff :
    cmpAbsHigh a b ≠ .lt ↔ wordsVal b * 2 ^ (32 * (a.length - b.length)) ≤ wordsVal a := by
  rw [cmpAbsHigh, bigCmpAbs_eq, ne_eq, Nat.compare_eq_lt, Nat.not_lt, wordsVal_drop_le_iff hlen]

theorem subPosHigh_spec
    (hle : wordsVal b * 2 ^ (32 * (a.length - b.length)) ≤ wordsVal a) :
    wordsVal (subPosHigh a b) + wordsVal b * 2 ^ (32 * (a.length - b.length)) = wordsVal a ∧
      (subPosHigh a b).length = a.length := by
  have hk : a.length - b.length ≤ a.length := Nat.sub_le _ _
  have hhigh := (wordsVal_drop_le_iff hlen).mpr hle
  obtain ⟨hval, hsub, -⟩ := subWords_of_le hhigh
  have hsplit := limbVal_take_add_drop a hk
  constructor
  · rw [subPosHigh, wordsVal, limbVal_append, length_take_of_le hk]
    simp only [wordsVal] at hval hhigh ⊢
    rw [hval, ← hsplit, Nat.mul_sub, Nat.mul_comm (limbVal b)]
    have hmul := Nat.mul_le_mul_left (2 ^ (32 * (a.length - b.length))) hhigh
    omega
  · rw [subPosHigh, length_append, length_take_of_le hk, hsub, length_drop]
    omega

/-- The remainder, and how often the divisor fits. -/
theorem divReduce_spec {e : ℕ}
    (he : wordsVal b * 2 ^ (32 * (a.length - b.length)) = e) (hpos : 0 < e)
    (hfuel : wordsVal a / e < fuel) (coeff : BigWord) :
    ∃ rest, divReduce b fuel a coeff = some (rest, coeff + BitVec.ofNat 32 (wordsVal a / e)) ∧
      wordsVal rest = wordsVal a % e ∧ rest.length = a.length := by
  induction fuel generalizing a coeff with
  | zero => exact absurd hfuel (Nat.not_lt_zero _)
  | succ fuel ih =>
    rw [divReduce]
    by_cases hle : e ≤ wordsVal a
    · obtain ⟨hval, hsame⟩ := subPosHigh_spec hlen (he.trans_le hle)
      rw [if_pos ((cmpAbsHigh_ne_lt_iff hlen).mpr (he.trans_le hle))]
      rw [he] at hval
      have hdiv : wordsVal a / e = wordsVal (subPosHigh a b) / e + 1 := by
        rw [← hval, Nat.add_div_right _ hpos]
      obtain ⟨rest, hrun, hrest, hlen'⟩ := ih (a := subPosHigh a b) (by omega)
        (by rw [hsame]; exact he)
        (by omega) (coeff + 1#32)
      refine ⟨rest, ?_, ?_, by omega⟩
      · rw [hrun, hdiv, ofNat_add, BitVec.add_assoc, BitVec.add_comm 1#32]
      · rw [hrest, ← hval, Nat.add_mod_right]
    · rw [if_neg fun h => hle (he ▸ (cmpAbsHigh_ne_lt_iff hlen).mp h)]
      have hlt := not_le.mp hle
      refine ⟨a, ?_, (Nat.mod_eq_of_lt hlt).symm, rfl⟩
      rw [Nat.div_eq_of_lt hlt, BitVec.add_zero]

/-- The divisor is subtracted until the highest word is zero. -/
theorem divTop_spec (hne : a ≠ []) {e : ℕ}
    (he : wordsVal b * 2 ^ (32 * (a.length - b.length)) = e) (hpos : 0 < e)
    (hsmall : e ≤ 2 ^ (32 * (a.length - 1))) (hfuel : wordsVal a / e < fuel) (coeff : BigWord) :
    ∃ rest times, divTop b fuel a coeff = some (rest, coeff + BitVec.ofNat 32 times) ∧
      wordsVal rest + times * e = wordsVal a ∧ rest.length = a.length ∧
      wordsVal rest < 2 ^ (32 * (a.length - 1)) := by
  induction fuel generalizing a coeff with
  | zero => exact absurd hfuel (Nat.not_lt_zero _)
  | succ fuel ih =>
    obtain ⟨top, htop, hval⟩ := getLast_eq hne
    rw [divTop, htop]
    simp only
    by_cases hbig : 2 ^ (32 * (a.length - 1)) ≤ wordsVal a
    · have hgt : top > 0#32 := by
        refine lt_def.mpr ?_
        rw [hval]
        exact Nat.div_pos hbig (Nat.two_pow_pos _)
      obtain ⟨hsum, hsame⟩ := subPosHigh_spec hlen (he ▸ hsmall.trans hbig)
      rw [if_pos hgt]
      rw [he] at hsum
      have hdiv : wordsVal a / e = wordsVal (subPosHigh a b) / e + 1 := by
        rw [← hsum, Nat.add_div_right _ hpos]
      obtain ⟨rest, times, hrun, hrest, hlen', hlt⟩ := ih (a := subPosHigh a b) (by omega)
        (ne_nil_of_length_pos (hsame ▸ length_pos_iff.mpr hne)) (by rw [hsame]; exact he)
        (by rw [hsame]; exact hsmall) (by omega) (coeff + 1#32)
      refine ⟨rest, times + 1, ?_, ?_, by omega, by rw [← hsame]; exact hlt⟩
      · rw [hrun, ofNat_add, BitVec.add_assoc, BitVec.add_comm 1#32]
      · rw [Nat.add_mul]
        omega
    · have hzero : ¬ top > 0#32 := by
        intro hgt
        have hgt := lt_def.mp hgt
        rw [hval, Nat.div_eq_of_lt (not_le.mp hbig)] at hgt
        exact absurd hgt (by decide)
      rw [if_neg hzero]
      refine ⟨a, 0, ?_, by omega, rfl, not_le.mp hbig⟩
      rw [BitVec.add_zero]

end High

/-! ## A word of the quotient -/

/-- The divisor as the main loop has it: `d` in `bblow`, its highest word, and `d` moved by half a
word. -/
structure Divisor (highb : BigWord) (bblow bbhigh : List BigWord) (d : ℕ) : Prop where
  low : wordsVal bblow = d
  ne_nil : bblow ≠ []
  top_le : highb.toNat * 2 ^ (32 * (bblow.length - 1)) ≤ d
  lt_top : d < (highb.toNat + 1) * 2 ^ (32 * (bblow.length - 1))
  top_pos : 0 < highb.toNat
  top_lt : highb.toNat < 2 ^ 16
  length_le : bbhigh.length ≤ bblow.length
  high : wordsVal bbhigh * 2 ^ (32 * (bblow.length - bbhigh.length)) = d * 2 ^ 16

/-- A word of a number. -/
theorem getElem_words {i : ℕ} (hi : i < a.length) :
    ∃ x, a[i]? = some x ∧ x.toNat = wordsVal a / 2 ^ (32 * i) % 2 ^ 32 := by
  refine ⟨a[i], getElem?_eq_getElem hi, ?_⟩
  rw [wordsVal, ← limbVal_drop a hi.le, drop_eq_getElem_cons hi, limbVal_mod_head]

theorem wordsVal_dropLast (hne : a ≠ []) (hlt : wordsVal a < 2 ^ (32 * (a.length - 1))) :
    wordsVal a.dropLast = wordsVal a ∧ a.dropLast.length = a.length - 1 := by
  obtain ⟨top, htop, hval⟩ := getLast_eq hne
  rw [Nat.div_eq_of_lt hlt] at hval
  have hsplit := limbVal_concat a.dropLast (a.getLast hne)
  rw [getLast?_eq_some_getLast hne, some_inj] at htop
  rw [dropLast_concat_getLast, htop, hval, Nat.mul_zero, Nat.add_zero] at hsplit
  exact ⟨hsplit.symm, length_dropLast⟩

namespace Divisor

variable {highb : BigWord} {bblow bbhigh : List BigWord} {d : ℕ} (h : Divisor highb bblow bbhigh d)

include h

theorem pos : 0 < d :=
  Nat.lt_of_lt_of_le (Nat.mul_pos h.top_pos (Nat.two_pow_pos _)) h.top_le

theorem toNat_succ : (highb + 1#32).toNat = highb.toNat + 1 := by
  have := h.top_lt
  rw [toNat_add]
  exact Nat.mod_eq_of_lt (by simp only [toNat_ofNat]; omega)

variable (hn : bblow.length ≤ n)

include hn

/-- `d` at the place of the word that is looked for, with `n` words below the highest. -/
theorem scaled_le :
    d * 2 ^ (32 * (n - bblow.length)) ≤ (highb.toNat + 1) * 2 ^ (32 * (n - 1)) := by
  have hpos := length_pos_iff.mpr h.ne_nil
  calc d * 2 ^ (32 * (n - bblow.length))
      ≤ (highb.toNat + 1) * 2 ^ (32 * (bblow.length - 1)) * 2 ^ (32 * (n - bblow.length)) :=
        Nat.mul_le_mul_right _ h.lt_top.le
    _ = (highb.toNat + 1) * 2 ^ (32 * (n - 1)) := by
        rw [Nat.mul_assoc, ← two_pow_split (by omega : 32 * (n - 1) = _)]

theorem scaled_half_le :
    d * 2 ^ (32 * (n - bblow.length)) * 2 ^ 16 ≤ 2 ^ (32 * n) := by
  have hpos := length_pos_iff.mpr h.ne_nil
  have htop := h.top_lt
  have hpow : 2 ^ (32 * n) = 2 ^ 16 * 2 ^ (32 * (n - 1)) * 2 ^ 16 := by
    rw [Nat.mul_right_comm, ← Nat.pow_add, ← Nat.pow_add]
    congr 1
    omega
  rw [hpow]
  refine Nat.mul_le_mul_right _ ((h.scaled_le hn).trans ?_)
  exact Nat.mul_le_mul_right _ (by omega)

/-- An estimate from the highest words is not too large. -/
theorem estimate_le {t m : ℕ} :
    t / (2 ^ (32 * (n - 1)) * m) / (highb.toNat + 1) * (d * 2 ^ (32 * (n - bblow.length)) * m)
      ≤ t := by
  have hscaled := Nat.mul_le_mul_right m (h.scaled_le hn)
  calc t / (2 ^ (32 * (n - 1)) * m) / (highb.toNat + 1) * (d * 2 ^ (32 * (n - bblow.length)) * m)
      ≤ t / (2 ^ (32 * (n - 1)) * m) / (highb.toNat + 1)
          * ((highb.toNat + 1) * 2 ^ (32 * (n - 1)) * m) := Nat.mul_le_mul_left _ hscaled
    _ = t / (2 ^ (32 * (n - 1)) * m) / (highb.toNat + 1) * (highb.toNat + 1)
      * (2 ^ (32 * (n - 1)) * m) := by
        ring
    _ ≤ t / (2 ^ (32 * (n - 1)) * m) * (2 ^ (32 * (n - 1)) * m) :=
        Nat.mul_le_mul_right _ (Nat.div_mul_le_self _ _)
    _ ≤ t := Nat.div_mul_le_self _ _

/-- `bbhigh` below the highest words stands for the divisor of the upper half. -/
theorem high_scaled :
    wordsVal bbhigh * 2 ^ (32 * (n - bbhigh.length))
      = d * 2 ^ (32 * (n - bblow.length)) * 2 ^ 16 := by
  have hle := h.length_le
  have hsplit : 32 * (n - bbhigh.length)
      = 32 * (bblow.length - bbhigh.length) + 32 * (n - bblow.length) := by
    omega
  rw [hsplit, Nat.pow_add, ← Nat.mul_assoc, h.high]
  ring

variable {tmp1 : List BigWord} {e : ℕ} (he : d * 2 ^ (32 * (n - bblow.length)) = e)

include he

omit hn in
theorem scaled_pos : 0 < e := he ▸ Nat.mul_pos h.pos (Nat.two_pow_pos _)

/-- The upper half: the estimate. -/
theorem higha_upper (hlen : tmp1.length = n + 1) (hlt : wordsVal tmp1 < e * 2 ^ 32) :
    ∃ top second, tmp1[tmp1.length - 1]? = some top ∧ tmp1[tmp1.length - 2]? = some second ∧
      ((top <<< 16) + (second >>> 16)).toNat = wordsVal tmp1 / (2 ^ (32 * (n - 1)) * 2 ^ 16) := by
  have hpos := length_pos_iff.mpr h.ne_nil
  obtain ⟨top, htop, htopval⟩ := getElem_words (a := tmp1) (i := tmp1.length - 1) (by omega)
  obtain ⟨second, hsecond, hsecondval⟩ := getElem_words (a := tmp1)
    (i := tmp1.length - 2) (by omega)
  refine ⟨top, second, htop, hsecond, ?_⟩
  rw [show tmp1.length - 1 = n by omega] at htopval
  rw [show tmp1.length - 2 = n - 1 by omega] at hsecondval
  have hbound : wordsVal tmp1 < 2 ^ (32 * n) * 2 ^ 16 := by
    refine hlt.trans_le ?_
    have hhalf := h.scaled_half_le hn
    rw [he] at hhalf
    rw [show 2 ^ 32 = 2 ^ 16 * 2 ^ 16 from rfl, ← Nat.mul_assoc]
    exact Nat.mul_le_mul_right _ hhalf
  have hpow : 2 ^ (32 * n) = 2 ^ (32 * (n - 1)) * 2 ^ 32 := two_pow_split (by omega)
  rw [hpow, ← Nat.div_div_eq_div_mul] at htopval
  rw [hpow, Nat.mul_assoc] at hbound
  have hquot : wordsVal tmp1 / 2 ^ (32 * (n - 1)) < 2 ^ 32 * 2 ^ 16 := Nat.div_lt_of_lt_mul hbound
  rw [toNat_add, toNat_shiftLeft, toNat_ushiftRight, Nat.shiftLeft_eq,
    Nat.shiftRight_eq_div_pow, htopval, hsecondval, ← Nat.div_div_eq_div_mul]
  generalize wordsVal tmp1 / 2 ^ (32 * (n - 1)) = q at hquot ⊢
  have hhigh : q / 2 ^ 32 < 2 ^ 16 := Nat.div_lt_of_lt_mul hquot
  rw [Nat.mod_eq_of_lt (by omega : q / 2 ^ 32 < 2 ^ 32),
    Nat.mod_eq_of_lt (by omega : q / 2 ^ 32 * 2 ^ 16 < 2 ^ 32)]
  omega

/-- Subtracting what was estimated for the upper half. -/
theorem sub_upper (hlen : tmp1.length = n + 1) {coeff : BigWord} (hcoeff : coeff.toNat < 2 ^ 16)
    (hle : coeff.toNat * (e * 2 ^ 16) ≤ wordsVal tmp1) :
    wordsVal (subPosHigh tmp1 (mul16High coeff 0#32 0#32 bblow)) + coeff.toNat * (e * 2 ^ 16)
      = wordsVal tmp1 ∧
      (subPosHigh tmp1 (mul16High coeff 0#32 0#32 bblow)).length = n + 1 := by
  obtain ⟨hmul, hmullen⟩ := mul16High_spec hcoeff bblow 0#32 0#32 (by decide) (by decide)
  have hscale : wordsVal (mul16High coeff 0#32 0#32 bblow)
      * 2 ^ (32 * (tmp1.length - (mul16High coeff 0#32 0#32 bblow).length))
        = coeff.toNat * (e * 2 ^ 16) := by
    rw [hmul, hmullen, h.low, show tmp1.length - (bblow.length + 1)
      = n - bblow.length by omega, ← he]
    simp only [toNat_ofNat, Nat.zero_mod, Nat.add_zero]
    ring
  have hsub := subPosHigh_spec (a := tmp1) (b := mul16High coeff 0#32 0#32 bblow) (by omega)
    (hscale ▸ hle)
  rwa [hscale, hlen] at hsub

/-- The first loop leaves `n` words. -/
theorem divTop_upper (hlen : tmp1.length = n + 1) (hfuel : wordsVal tmp1 / (e * 2 ^ 16) < divFuel)
    (coeff : BigWord) :
    ∃ rest times, divTop (bbhigh ++ [0#32]) divFuel tmp1 coeff
      = some (rest, coeff + BitVec.ofNat 32 times) ∧
      wordsVal rest.dropLast + times * (e * 2 ^ 16) = wordsVal tmp1 ∧ rest.dropLast.length = n := by
  have hle := h.length_le
  have hepos := h.scaled_pos he
  have hhalf := h.scaled_half_le hn
  rw [he] at hhalf
  have hscale : wordsVal (bbhigh ++ [0#32]) * 2 ^ (32 * (tmp1.length - (bbhigh ++ [0#32]).length))
      = e * 2 ^ 16 := by
    have hhigh : wordsVal (bbhigh ++ [0#32]) = wordsVal bbhigh := limbVal_append_zeros bbhigh 1
    rw [hhigh, length_append, length_singleton,
      show tmp1.length - (bbhigh.length + 1) = n - bbhigh.length by omega, h.high_scaled hn, he]
  obtain ⟨rest, times, hrun, hrest, hrestlen, hrestlt⟩ := divTop_spec (a := tmp1)
    (b := bbhigh ++ [0#32])
    (by rw [length_append, length_singleton]; omega) (ne_nil_of_length_pos (by omega)) hscale
    (by omega) (by rw [hlen]; exact hhalf) hfuel coeff
  obtain ⟨hdrop, hdroplen⟩ := wordsVal_dropLast (a := rest) (ne_nil_of_length_pos (by omega))
    (hrestlen ▸ hrestlt)
  exact ⟨rest, times, hrun, by omega, by omega⟩

/-- The upper half of a word of the quotient. -/
theorem upper (hlen : tmp1.length = n + 1) (hlt : wordsVal tmp1 < e * 2 ^ 32) {higha : BigWord}
    (hhigha : higha.toNat = wordsVal tmp1 / (2 ^ (32 * (n - 1)) * 2 ^ 16)) :
    ∃ rest coeff rest' coeff',
      divTop (bbhigh ++ [0#32]) divFuel
          (subPosHigh tmp1 (mul16High (higha / (highb + 1#32)) 0#32 0#32 bblow))
            (higha / (highb + 1#32))
        = some (rest, coeff) ∧
      divReduce bbhigh divFuel rest.dropLast coeff = some (rest', coeff') ∧
      coeff'.toNat = wordsVal tmp1 / (e * 2 ^ 16) ∧ wordsVal rest' = wordsVal tmp1 % (e * 2 ^ 16) ∧
      rest'.length = n := by
  have hle := h.length_le
  have hepos := h.scaled_pos he
  have hquot : wordsVal tmp1 / (e * 2 ^ 16) < 2 ^ 16 := by
    refine Nat.div_lt_of_lt_mul ?_
    rwa [Nat.mul_assoc]
  have hest : (higha / (highb + 1#32)).toNat * (e * 2 ^ 16) ≤ wordsVal tmp1 := by
    rw [toNat_udiv, hhigha, h.toNat_succ, ← he]
    exact h.estimate_le hn
  generalize higha / (highb + 1#32) = coeff₀ at hest ⊢
  have hcoeff₀ : coeff₀.toNat ≤ wordsVal tmp1 / (e * 2 ^ 16) :=
    (Nat.le_div_iff_mul_le (by omega)).mpr hest
  obtain ⟨hsub, hsublen⟩ := h.sub_upper hn he hlen (by omega) hest
  have hdiv : wordsVal tmp1 / (e * 2 ^ 16)
      = wordsVal (subPosHigh tmp1 (mul16High coeff₀ 0#32 0#32 bblow)) / (e * 2 ^ 16)
        + coeff₀.toNat := by
    rw [← hsub, Nat.add_mul_div_right _ _ (by omega)]
  obtain ⟨rest, times, hrun, hrest, hrestlen⟩ :=
    h.divTop_upper hn he hsublen (lt_divFuel (by omega)) coeff₀
  have hdiv' : wordsVal (subPosHigh tmp1 (mul16High coeff₀ 0#32 0#32 bblow)) / (e * 2 ^ 16)
      = wordsVal rest.dropLast / (e * 2 ^ 16) + times := by
    rw [← hrest, Nat.add_mul_div_right _ _ (by omega)]
  obtain ⟨rest', hrun', hrest', hrestlen'⟩ := divReduce_spec (a := rest.dropLast)
    (b := bbhigh) (by omega)
    (by rw [hrestlen, h.high_scaled hn, he]) (by omega) (lt_divFuel (by omega))
    (coeff₀ + BitVec.ofNat 32 times)
  refine ⟨rest, _, rest', _, hrun, hrun', ?_, ?_, by omega⟩
  · rw [toNat_add, toNat_add, toNat_ofNat, toNat_ofNat]
    omega
  · rw [hrest', ← hsub, ← hrest, Nat.add_mul_mod_self_right, Nat.add_mul_mod_self_right]

/-- Subtracting what was estimated for the lower half. -/
theorem sub_lower (hlen : tmp1.length = n) {coeff : BigWord} (hcoeff : coeff.toNat < 2 ^ 16)
    (hle : coeff.toNat * e ≤ wordsVal tmp1) :
    wordsVal (subPosHigh tmp1 (mul16Low coeff 0#32 bblow).dropLast) + coeff.toNat * e
      = wordsVal tmp1 ∧
      (subPosHigh tmp1 (mul16Low coeff 0#32 bblow).dropLast).length = n := by
  obtain ⟨hmul, hmullen⟩ := mul16Low_spec hcoeff bblow 0#32 (by decide)
  rw [h.low, show (0#32 : BigWord).toNat = 0 from rfl, Nat.add_zero] at hmul
  have hscale : d * coeff.toNat * 2 ^ (32 * (n - bblow.length)) = coeff.toNat * e := by
    rw [← he]
    ring
  -- the product has no more words than the divisor
  have hfits : d * coeff.toNat < 2 ^ (32 * bblow.length) := by
    have hlt := limbVal_lt tmp1
    rw [hlen, show 32 * n = 32 * bblow.length + 32 * (n - bblow.length) by omega,
      Nat.pow_add] at hlt
    refine Nat.lt_of_mul_lt_mul_right (Nat.lt_of_le_of_lt ?_ hlt)
    rw [hscale]
    exact hle
  obtain ⟨hdrop, hdroplen⟩ := wordsVal_dropLast (a := mul16Low coeff 0#32 bblow)
    (ne_nil_of_length_pos (by omega)) (by rw [hmul, hmullen, Nat.add_sub_cancel]; exact hfits)
  rw [hmullen, Nat.add_sub_cancel] at hdroplen
  rw [hmul] at hdrop
  have hsub := subPosHigh_spec (a := tmp1) (b := (mul16Low coeff 0#32 bblow).dropLast) (by omega)
    (by rw [hdrop, hdroplen, hlen, hscale]; exact hle)
  rwa [hdrop, hdroplen, hlen, hscale] at hsub

/-- The lower half of a word of the quotient. -/
theorem lower (hlen : tmp1.length = n) (hlt : wordsVal tmp1 < e * 2 ^ 16) {higha : BigWord}
    (hhigha : higha.toNat = wordsVal tmp1 / 2 ^ (32 * (n - 1))) :
    ∃ rest coeff,
      divReduce bblow divFuel
        (subPosHigh tmp1 (mul16Low (higha / (highb + 1#32)) 0#32 bblow).dropLast)
          (higha / (highb + 1#32)) = some (rest, coeff) ∧
      coeff.toNat = wordsVal tmp1 / e ∧ wordsVal rest = wordsVal tmp1 % e ∧ rest.length = n := by
  have hepos := h.scaled_pos he
  have hquot : wordsVal tmp1 / e < 2 ^ 16 := Nat.div_lt_of_lt_mul hlt
  have hest : (higha / (highb + 1#32)).toNat * e ≤ wordsVal tmp1 := by
    have hest := h.estimate_le hn (t := wordsVal tmp1) (m := 1)
    rw [Nat.mul_one, Nat.mul_one, he] at hest
    rw [toNat_udiv, hhigha, h.toNat_succ]
    exact hest
  generalize higha / (highb + 1#32) = coeff₀ at hest ⊢
  have hcoeff₀ : coeff₀.toNat ≤ wordsVal tmp1 / e := (Nat.le_div_iff_mul_le hepos).mpr hest
  obtain ⟨hsub, hsublen⟩ := h.sub_lower hn he hlen (by omega) hest
  have hdiv : wordsVal tmp1 / e
      = wordsVal (subPosHigh tmp1 (mul16Low coeff₀ 0#32 bblow).dropLast) / e + coeff₀.toNat := by
    rw [← hsub, Nat.add_mul_div_right _ _ hepos]
  obtain ⟨rest, hrun, hrest, hrestlen⟩ := divReduce_spec
    (a := subPosHigh tmp1 (mul16Low coeff₀ 0#32 bblow).dropLast) (b := bblow) (by omega)
    (by rw [hsublen, h.low, he]) hepos (lt_divFuel (by omega)) coeff₀
  refine ⟨rest, _, hrun, ?_, ?_, by omega⟩
  · rw [toNat_add, toNat_ofNat]
    omega
  · rw [hrest, ← hsub, Nat.add_mul_mod_self_right]

/-- A word of the quotient. -/
theorem digit (hlen : tmp1.length = n + 1) (hlt : wordsVal tmp1 < e * 2 ^ 32) :
    ∃ digit rest, divDigit highb bblow bbhigh tmp1 = some (digit, rest) ∧
      digit.toNat = wordsVal tmp1 / e ∧ wordsVal rest = wordsVal tmp1 % e ∧ rest.length = n := by
  have hpos := length_pos_iff.mpr h.ne_nil
  obtain ⟨top, second, htop, hsecond, hhigha⟩ := h.higha_upper hn he hlen hlt
  obtain ⟨rest₁, coeff₁, rest₂, coeff₂, hrun₁, hrun₂, hcoeff₂, hrest₂, hlen₂⟩ :=
    h.upper hn he hlen hlt hhigha
  have hepos := h.scaled_pos he
  have hlt₂ : wordsVal rest₂ < e * 2 ^ 16 := by
    rw [hrest₂]
    exact Nat.mod_lt _ (by omega)
  obtain ⟨higha, hget, hval⟩ := getElem_words (a := rest₂) (i := rest₂.length - 1) (by omega)
  have hhigha₂ : higha.toNat = wordsVal rest₂ / 2 ^ (32 * (n - 1)) := by
    rw [hval, hlen₂]
    refine Nat.mod_eq_of_lt (Nat.div_lt_of_lt_mul ?_)
    have hlt := limbVal_lt rest₂
    rw [hlen₂] at hlt
    rwa [← Nat.pow_add, show 32 * (n - 1) + 32 = 32 * n by omega]
  obtain ⟨rest₃, coeff₃, hrun₃, hcoeff₃, hrest₃, hlen₃⟩ := h.lower hn he hlen₂ hlt₂ hhigha₂
  refine ⟨(coeff₂ <<< 16) + coeff₃, rest₃, ?_, ?_, ?_, hlen₃⟩
  · rw [divDigit]
    simp only [htop, hsecond, hrun₁, hrun₂, hget, hrun₃, bind_eq_bind, bind_some]
  · have hquot : wordsVal tmp1 / e < 2 ^ 32 := Nat.div_lt_of_lt_mul hlt
    rw [← Nat.div_div_eq_div_mul] at hcoeff₂
    rw [hrest₂, Nat.mod_mul_right_div_self] at hcoeff₃
    rw [toNat_add, toNat_shiftLeft, Nat.shiftLeft_eq, hcoeff₂, hcoeff₃]
    omega
  · rw [hrest₃, hrest₂]
    exact Nat.mod_mul_right_mod _ _ _

end Divisor

/-- The main loop. -/
theorem divDigits_spec {highb : BigWord} {bblow bbhigh : List BigWord} {d : ℕ}
    (h : Divisor highb bblow bbhigh d) (n : ℕ) (tmp1 : List BigWord)
    (hlen : tmp1.length = bblow.length + n) (hlt : wordsVal tmp1 < d * 2 ^ (32 * n)) :
    ∃ digits rest, divDigits highb bblow bbhigh n tmp1 = some (digits, rest) ∧ digits.length = n ∧
      wordsVal digits.reverse = wordsVal tmp1 / d ∧ wordsVal rest = wordsVal tmp1 % d ∧
      rest.length = bblow.length := by
  induction n generalizing tmp1 with
  | zero =>
    rw [Nat.mul_zero, Nat.pow_zero, Nat.mul_one] at hlt
    refine ⟨[], tmp1, rfl, rfl, ?_, (Nat.mod_eq_of_lt hlt).symm, hlen⟩
    rw [Nat.div_eq_of_lt hlt]
    rfl
  | succ n ih =>
    have he : d * 2 ^ (32 * (bblow.length + n - bblow.length)) = d * 2 ^ (32 * n) := by
      rw [Nat.add_sub_cancel_left]
    rw [two_pow_words_succ, Nat.mul_comm (2 ^ 32), ← Nat.mul_assoc] at hlt
    obtain ⟨digit, rest, hrun, hdigit, hrest, hrestlen⟩ :=
      h.digit (Nat.le_add_right _ n) he hlen hlt
    have hpos : 0 < d * 2 ^ (32 * n) := Nat.mul_pos h.pos (Nat.two_pow_pos _)
    obtain ⟨digits, rest', hrun', hlen', hdigits, hrest', hrestlen'⟩ := ih rest hrestlen
      (by rw [hrest]; exact Nat.mod_lt _ hpos)
    refine ⟨digit :: digits, rest', ?_, ?_, ?_, ?_, hrestlen'⟩
    · rw [divDigits, hrun]
      simp only [bind_eq_bind, bind_some, hrun']
    · rw [length_cons, hlen']
    · rw [reverse_cons, wordsVal, limbVal_concat, length_reverse, hlen', hdigit]
      simp only [wordsVal] at hdigits hrest ⊢
      rw [hdigits, hrest, Nat.mod_mul_right_div_self, ← Nat.div_div_eq_div_mul]
      exact Nat.mod_add_div _ _
    · rw [hrest', hrest]
      exact Nat.mod_mul_right_mod _ _ _

/-! ## Normalising -/

theorem and_bit47_eq_zero (x : BitVec 64) (hx : x.toNat < 2 ^ 48) :
    x &&& 0x800000000000#64 = 0#64 ↔ x.toNat < 2 ^ 47 := by
  rw [show 0x800000000000#64 = twoPow 64 47 from rfl, and_twoPow]
  have hbit : x.getLsbD 47 = decide (2 ^ 47 ≤ x.toNat) := by
    rw [getLsbD, Nat.testBit_eq_decide_div_mod_eq]
    congr 1
    rw [eq_iff_iff]
    omega
  rw [hbit]
  by_cases h : 2 ^ 47 ≤ x.toNat
  · simp only [h, decide_true, if_true]
    exact iff_of_false (by decide) (by omega)
  · simp only [h, decide_false, Bool.false_eq_true, if_false, true_iff]
    omega

theorem divNormLoop_spec {x : BitVec 64} (hpos : 0 < x.toNat) (hlt : x.toNat < 2 ^ 48)
    (hfuel : 2 ^ 48 ≤ x.toNat * 2 ^ fuel) (offs : ℕ) :
    ∃ y s, divNormLoop fuel x offs = some (y, offs + s) ∧ y.toNat = x.toNat * 2 ^ s ∧
      2 ^ 47 ≤ y.toNat ∧
      y.toNat < 2 ^ 48 := by
  induction fuel generalizing x offs with
  | zero => omega
  | succ fuel ih =>
    rw [divNormLoop]
    by_cases hsmall : x.toNat < 2 ^ 47
    · have hshift : (x <<< 1).toNat = x.toNat * 2 := by
        rw [toNat_shiftLeft, Nat.shiftLeft_eq]
        omega
      rw [if_pos ((and_bit47_eq_zero x hlt).mpr hsmall)]
      obtain ⟨y, s, hrun, hval, hlo, hhi⟩ := ih (x := x <<< 1) (by omega) (by omega)
        (by rw [hshift, Nat.mul_assoc, ← Nat.pow_succ']; exact hfuel) (offs + 1)
      refine ⟨y, s + 1, ?_, ?_, hlo, hhi⟩
      · rw [hrun, Nat.add_assoc, Nat.add_comm 1]
      · rw [hval, hshift, Nat.pow_succ']
        ring
    · rw [if_neg fun h => hsmall ((and_bit47_eq_zero x hlt).mp h)]
      exact ⟨x, 0, rfl, by simp, not_lt.mp hsmall, hlt⟩

/-- The highest words of a shifted number. -/
theorem shifted_div (b p : ℕ) (hoffs : offs ≤ 32) (hk : 32 ≤ k) :
    b * 2 ^ 32 / p * 2 ^ offs / 2 ^ k = b * 2 ^ offs / (p * 2 ^ (k - 32)) := by
  have hk' : 2 ^ k = 2 ^ (k - offs) * 2 ^ offs := two_pow_split (by omega)
  have hoffs' : 2 ^ 32 = 2 ^ offs * 2 ^ (32 - offs) := two_pow_split (by omega)
  have hsplit : 2 ^ (k - offs) = 2 ^ (k - 32) * 2 ^ (32 - offs) := two_pow_split (by omega)
  rw [hk', Nat.mul_div_mul_right _ _ (Nat.two_pow_pos _), Nat.div_div_eq_div_mul, hsplit, hoffs',
    ← Nat.mul_assoc,
    ← Nat.mul_assoc, Nat.mul_div_mul_right _ _ (Nat.two_pow_pos _)]

/-- The highest word of the shifted divisor, and how far it is shifted: less than half a word if the
highest word has no more than sixteen bits, and more if it has. -/
theorem divNorm_spec {top : BigWord} (second : BigWord) (htop : top ≠ 0#32) :
    ∃ highb offs, divNorm top second = some (highb, offs) ∧ offs < 32 ∧ 2 ^ 15 ≤ highb.toNat ∧
      highb.toNat < 2 ^ 16 ∧
      highb.toNat
        = (top.toNat * 2 ^ 32 + second.toNat) * 2 ^ offs / 2 ^ (if offs ≤ 15 then 32 else 64) := by
  have hpos : 0 < top.toNat := Nat.pos_of_ne_zero fun h0 => htop (eq_of_toNat_eq h0)
  have hsecondlt := second.isLt
  have hx : (top.setWidth 64 <<< 32 ||| second.setWidth 64).toNat
      = top.toNat * 2 ^ 32 + second.toNat := by
    have hwide (w : BigWord) : (w.setWidth 64).toNat = w.toNat :=
      toNat_setWidth_of_le (by decide)
    have hshift : (top.setWidth 64 <<< 32).toNat = top.toNat <<< 32 := by
      rw [toNat_shiftLeft, hwide, Nat.shiftLeft_eq]
      omega
    rw [toNat_or, hshift, hwide, ← Nat.shiftLeft_add_eq_or_of_lt hsecondlt, Nat.shiftLeft_eq]
  rw [divNorm]
  generalize (top.setWidth 64 <<< 32 ||| second.setWidth 64) = x at hx ⊢
  rw [← hx]
  have hword {y : BitVec 64} (hy : y.toNat < 2 ^ 48) : ((y >>> 32).setWidth 32).toNat
      = y.toNat / 2 ^ 32 := by
    rw [toNat_setWidth, toNat_ushiftRight, Nat.shiftRight_eq_div_pow]
    omega
  have hshort {s y z : ℕ} (hz : 2 ^ 32 ≤ z) (hy : y = z * 2 ^ s) (hlt : y < 2 ^ 48) : s ≤ 15 := by
    have hmul : 2 ^ 32 * 2 ^ s ≤ y := hy ▸ Nat.mul_le_mul_right _ hz
    rw [← Nat.pow_add] at hmul
    have := (Nat.pow_lt_pow_iff_right (by decide : 1 < 2)).mp (hmul.trans_lt hlt)
    omega
  by_cases hbig : x ≥ 0x1000000000000#64
  · have hge := le_def.mp hbig
    have hshift : (x >>> 16).toNat = x.toNat / 2 ^ 16 := by
      rw [toNat_ushiftRight, Nat.shiftRight_eq_div_pow]
    simp only [toNat_ofNat] at hge
    obtain ⟨y, s, hrun, hval, hlo, hhi⟩ := divNormLoop_spec (x := x >>> 16) (by omega) (by omega)
      (by omega : 2 ^ 48 ≤ (x >>> 16).toNat * 2 ^ 48) 16
    have hs := hshort (by omega) hval hhi
    refine ⟨(y >>> 32).setWidth 32, 16 + s, ?_,
      by omega, by rw [hword hhi]; omega, by rw [hword hhi]; omega, ?_⟩
    · rw [if_pos hbig, hrun]
      rfl
    · have hshifted := shifted_div x.toNat (2 ^ 48) (by omega : s ≤ 32) (Nat.le_refl 32)
      rw [show 2 ^ 48 = 2 ^ 16 * 2 ^ 32 from rfl,
        Nat.mul_div_mul_right _ _ (Nat.two_pow_pos _)] at hshifted
      rw [hword hhi, hval, hshift, if_neg (by omega), hshifted, Nat.add_comm 16, Nat.pow_add,
        ← Nat.mul_assoc,
        show 2 ^ 64 = 2 ^ 16 * 2 ^ 32 * 2 ^ (32 - 32) * 2 ^ 16 from rfl,
        Nat.mul_div_mul_right _ _ (Nat.two_pow_pos _)]
  · have hlt : x.toNat < 2 ^ 48 := not_le.mp fun h => hbig (le_def.mpr h)
    obtain ⟨y, s, hrun, hval, hlo, hhi⟩ := divNormLoop_spec (x := x) (by omega) hlt
      (by omega : 2 ^ 48 ≤ x.toNat * 2 ^ 48) 0
    have hs := hshort (by omega) hval hhi
    refine ⟨(y >>> 32).setWidth 32, 0 + s, ?_,
      by omega, by rw [hword hhi]; omega, by rw [hword hhi]; omega, ?_⟩
    · rw [if_neg hbig, hrun]
      rfl
    · rw [hword hhi, hval, if_pos (by omega), Nat.zero_add]

theorem divHigh_spec {bblow : List BigWord} (offs : ℕ) {d : ℕ} (hne : bblow ≠ [])
    (hlow : wordsVal bblow = d) (hge : 2 ^ 15 * 2 ^ (32 * (bblow.length - 1)) ≤ d)
    (hlt : d < 2 ^ 16 * 2 ^ (32 * (bblow.length - 1))) (hdvd : ¬ offs ≤ 15 → d % 2 ^ 16 = 0) :
    (divHigh bblow offs).length ≤ bblow.length ∧
      wordsVal (divHigh bblow offs) * 2 ^ (32 * (bblow.length - (divHigh bblow offs).length))
        = d * 2 ^ 16 := by
  have hpos := length_pos_iff.mpr hne
  have hpow : 2 ^ (32 * bblow.length) = 2 ^ 32 * 2 ^ (32 * (bblow.length - 1)) :=
    two_pow_split (by omega)
  rw [divHigh]
  by_cases hoffs : offs ≤ 15
  · obtain ⟨hval, hlen⟩ := shlWords_spec (by decide : 16 ≤ 32) bblow 0#32 (by decide)
    rw [hlow, show (0#32 : BigWord).toNat = 0 from rfl, Nat.add_zero] at hval
    have hlen : (shlWords 16 0#32 bblow).length = bblow.length := by
      rcases hlen with hlen | ⟨-, hle⟩
      · exact hlen
      · rw [hval] at hle
        omega
    obtain ⟨top, htop, htopval⟩ := getLast_eq (a := shlWords 16 0#32 bblow)
      (ne_nil_of_length_pos (by omega))
    have htop0 : top ≠ 0#32 := by
      rintro rfl
      rw [hval, hlen] at htopval
      have := Nat.div_pos (by omega : 2 ^ (32 * (bblow.length - 1)) ≤ d * 2 ^ 16)
        (Nat.two_pow_pos _)
      rw [← htopval] at this
      exact absurd this (by decide)
    have hshift : bigShiftleft bblow 16 = shlWords 16 0#32 bblow := rfl
    simp only [if_pos hoffs, hshift, htop, some_inj, if_neg htop0]
    refine ⟨Nat.le_of_eq hlen, ?_⟩
    rw [hlen, Nat.sub_self, hval]
    simp
  · obtain ⟨hval, hlen⟩ := bigShiftright_spec (by decide : 16 ≤ 32) bblow
    have hmod := hdvd hoffs
    rw [hlow] at hval
    have hnil : bigShiftright bblow 16 ≠ [] := ne_nil_of_length_pos (by omega)
    have hsmall :
        wordsVal (bigShiftright bblow 16) < 2 ^ (32 * ((bigShiftright bblow 16).length - 1)) := by
      rw [hval, hlen]
      exact Nat.div_lt_of_lt_mul hlt
    obtain ⟨top, htop, htopval⟩ := getLast_eq hnil
    have htop0 : top = 0#32 := by
      apply eq_of_toNat_eq
      rw [htopval, Nat.div_eq_of_lt hsmall]
      rfl
    obtain ⟨hdrop, hdroplen⟩ := wordsVal_dropLast hnil hsmall
    simp only [if_neg hoffs, htop, some_inj, if_pos htop0]
    refine ⟨by omega, ?_⟩
    rw [hdrop, hval, hdroplen, hlen, show bblow.length - (bblow.length - 1) = 1 by omega]
    omega

/-- The two highest words, or the highest and a zero. -/
theorem top_words (hne : b ≠ []) :
    ∃ top, b[b.length - 1]? = some top ∧
      top.toNat * 2 ^ 32 + (if b.length > 1 then b.getD (b.length - 2) 0#32 else 0#32).toNat
        = wordsVal b * 2 ^ 32 / 2 ^ (32 * (b.length - 1)) := by
  have hpos := length_pos_iff.mpr hne
  obtain ⟨top, htop, hval⟩ := getElem_words (a := b) (i := b.length - 1) (by omega)
  refine ⟨top, htop, ?_⟩
  have hlt := limbVal_lt b
  have hpow : 2 ^ (32 * b.length) = 2 ^ 32 * 2 ^ (32 * (b.length - 1)) := two_pow_split (by omega)
  have htoplt : wordsVal b / 2 ^ (32 * (b.length - 1)) < 2 ^ 32 := by
    refine Nat.div_lt_of_lt_mul ?_
    rw [Nat.mul_comm, ← hpow]
    exact hlt
  rw [Nat.mod_eq_of_lt htoplt] at hval
  by_cases hlong : b.length > 1
  · obtain ⟨second, hsecond, hsecondval⟩ := getElem_words (a := b) (i := b.length - 2) (by omega)
    have hpow' : 2 ^ (32 * (b.length - 1)) = 2 ^ (32 * (b.length - 2)) * 2 ^ 32 :=
      two_pow_split (by omega)
    rw [if_pos hlong, getD_eq_getElem?_getD, hsecond, getD_some, hsecondval, hval, hpow',
      Nat.mul_div_mul_right _ _ (Nat.two_pow_pos _), ← Nat.div_div_eq_div_mul]
    exact Nat.div_add_mod' _ _
  · have hone : b.length = 1 := by omega
    rw [if_neg hlong, hval, hone]
    simp

/-- A tight number reaches its highest word. -/
theorem Tight.top_le (htight : Tight b) (hb : 0 < wordsVal b) :
    2 ^ (32 * (b.length - 1)) ≤ wordsVal b := by
  rcases htight.2 with hone | hle
  · rw [hone]
    exact hb
  · exact hle

/-- The length of the shifted divisor. -/
theorem length_bigShiftleft (htight : Tight b) {q : ℕ} (hoffs : offs < 32) (hlo : 2 ^ 15 ≤ q)
    (hhi : q < 2 ^ 16)
    (hq : q = wordsVal b * 2 ^ offs /
      (2 ^ (32 * (b.length - 1)) * 2 ^ ((if offs ≤ 15 then 32 else 64) - 32))) :
    2 ^ (32 * ((bigShiftleft b offs).length - 1))
      = 2 ^ (32 * (b.length - 1)) * 2 ^ ((if offs ≤ 15 then 32 else 64) - 32) := by
  have hpos := length_pos_iff.mpr htight.1
  have hpow : 2 ^ (32 * b.length) = 2 ^ 32 * 2 ^ (32 * (b.length - 1)) := two_pow_split (by omega)
  obtain ⟨hval, hlen⟩ := bigShiftleft_spec hoffs.le htight
  have hlt := limbVal_lt (bigShiftleft b offs)
  rw [← wordsVal, hval] at hlt
  rw [hval] at hlen
  generalize hp : 2 ^ (32 * (b.length - 1)) = p at *
  have hppos : 0 < p := hp ▸ Nat.two_pow_pos _
  by_cases hsmall : offs ≤ 15
  · rw [if_pos hsmall, Nat.sub_self, Nat.pow_zero, Nat.mul_one] at hq ⊢
    have hbound : wordsVal b * 2 ^ offs < 2 ^ 16 * p := (Nat.div_lt_iff_lt_mul hppos).mp (hq ▸ hhi)
    rcases hlen with hlen | ⟨-, hle⟩
    · rw [hlen, hp]
    · omega
  · rw [if_neg hsmall] at hq ⊢
    have hbound : 2 ^ 15 * (p * 2 ^ (64 - 32)) ≤ wordsVal b * 2 ^ offs :=
      (Nat.le_div_iff_mul_le (Nat.mul_pos hppos (Nat.two_pow_pos _))).mp (hq ▸ hlo)
    rcases hlen with hlen | ⟨hlen, -⟩
    · rw [hlen] at hlt
      omega
    · rw [hlen, Nat.add_sub_cancel, hpow, Nat.mul_comm]

theorem divisor_spec (htight : Tight b) (hb : 0 < wordsVal b) :
    ∃ top highb offs, b[b.length - 1]? = some top ∧
      divNorm top (if b.length > 1 then b.getD (b.length - 2) 0#32 else 0#32) = some (highb, offs) ∧
      offs < 32 ∧ Divisor highb (bigShiftleft b offs) (divHigh (bigShiftleft b offs) offs)
        (wordsVal b * 2 ^ offs) := by
  have hle := htight.top_le hb
  obtain ⟨top, htop, hx⟩ := top_words htight.1
  have htop0 : top ≠ 0#32 := by
    rintro rfl
    have hge : 2 ^ 32 ≤ wordsVal b * 2 ^ 32 / 2 ^ (32 * (b.length - 1)) := by
      rw [Nat.le_div_iff_mul_le (Nat.two_pow_pos _), Nat.mul_comm]
      exact Nat.mul_le_mul_right _ hle
    rw [← hx] at hge
    simp only [toNat_ofNat, Nat.zero_mod, Nat.zero_mul, Nat.zero_add] at hge
    omega
  obtain ⟨highb, offs, hnorm, hoffs, hlo, hhi, hval⟩ := divNorm_spec
    (if b.length > 1 then b.getD (b.length - 2) 0#32 else 0#32) htop0
  rw [hx, shifted_div _ _ hoffs.le (by split <;> decide)] at hval
  have hscale := length_bigShiftleft htight hoffs hlo hhi hval
  rw [← hscale] at hval
  obtain ⟨hlow, hlen⟩ := bigShiftleft_spec hoffs.le htight
  have hne : bigShiftleft b offs ≠ [] := by
    have := length_pos_iff.mpr htight.1
    exact ne_nil_of_length_pos (by omega)
  generalize hscaled : 2 ^ (32 * ((bigShiftleft b offs).length - 1)) = p at hval
  have hp : 0 < p := hscaled ▸ Nat.two_pow_pos _
  have hge : highb.toNat * p ≤ wordsVal b * 2 ^ offs := hval ▸ Nat.div_mul_le_self _ _
  have hlt : wordsVal b * 2 ^ offs < (highb.toNat + 1) * p :=
    (Nat.div_lt_iff_lt_mul hp).mp (hval ▸ Nat.lt_succ_self _)
  obtain ⟨hhlen, hhigh⟩ := divHigh_spec offs hne hlow
    (by rw [hscaled]; exact (Nat.mul_le_mul_right p hlo).trans hge)
    (by rw [hscaled]; exact hlt.trans_le (Nat.mul_le_mul_right p hhi))
    (fun hlarge => by
      obtain ⟨s, rfl⟩ : ∃ s, offs = 16 + s := ⟨offs - 16, by omega⟩
      rw [Nat.pow_add, Nat.mul_left_comm, Nat.mul_mod_right])
  refine ⟨top, highb, offs, htop, hnorm, hoffs, ?_⟩
  exact ⟨hlow, hne,
    by rw [hscaled]; exact hge, by rw [hscaled]; exact hlt, by omega, hhi, hhlen, hhigh⟩

/-- Quotient and remainder of words. -/
theorem divWords_spec (ha : Tight a) (hb : Tight b) (hpos : 0 < wordsVal b)
    (hle : wordsVal b ≤ wordsVal a) :
    ∃ quotient rest, divWords a b = some (quotient, rest) ∧
      wordsVal quotient = wordsVal a / wordsVal b ∧
      wordsVal rest = wordsVal a % wordsVal b ∧ quotient ≠ [] ∧ rest ≠ [] := by
  obtain ⟨top, highb, offs, htop, hnorm, hoffs, hdiv⟩ := divisor_spec hb hpos
  obtain ⟨haval, -⟩ := bigShiftleft_spec hoffs.le ha
  have hblpos := length_pos_iff.mpr hdiv.ne_nil
  have hpow : 0 < 2 ^ offs := Nat.two_pow_pos _
  have hge : wordsVal b * 2 ^ offs ≤ wordsVal a * 2 ^ offs := Nat.mul_le_mul_right _ hle
  -- the shifted dividend has at least as many words as the divisor
  have hscale : 2 ^ (32 * ((bigShiftleft b offs).length - 1)) ≤ wordsVal b * 2 ^ offs :=
    (Nat.le_mul_of_pos_left _ hdiv.top_pos).trans hdiv.top_le
  have hlen : (bigShiftleft b offs).length ≤ (bigShiftleft a offs).length := by
    have hlt := limbVal_lt (bigShiftleft a offs)
    rw [← wordsVal, haval] at hlt
    have := (Nat.pow_lt_pow_iff_right (by decide : 1 < 2)).mp
      (Nat.lt_of_le_of_lt (hscale.trans hge) hlt)
    omega
  have hzero : wordsVal (bigShiftleft a offs ++ [0#32]) = wordsVal a * 2 ^ offs := by
    rw [← haval]
    exact limbVal_append_zeros _ 1
  obtain ⟨digits, rest, hrun, hdigitslen, hdigits, hrest, hrestlen⟩ := divDigits_spec hdiv
    ((bigShiftleft a offs).length - (bigShiftleft b offs).length + 1)
    (bigShiftleft a offs ++ [0#32]) (by rw [length_append, length_singleton]; omega) (by
      have hlt := limbVal_lt (bigShiftleft a offs)
      rw [← wordsVal, haval] at hlt
      rw [hzero]
      refine hlt.trans_le ?_
      exact (Nat.le_of_eq (two_pow_split (by omega))).trans (Nat.mul_le_mul_right _ hscale))
  rw [hzero, Nat.mul_div_mul_right _ _ hpow] at hdigits
  rw [hzero, Nat.mul_mod_mul_right] at hrest
  refine ⟨digits.reverse, if offs = 0 then rest else bigShiftright rest offs, ?_,
    hdigits, ?_, ?_, ?_⟩
  · rw [divWords, htop]
    simp only [bind_eq_bind, bind_some, hnorm, hrun]
  · split
    next h0 =>
      rw [hrest, h0]
      simp
    next => rw [(bigShiftright_spec hoffs.le rest).1, hrest, Nat.mul_div_cancel _ hpow]
  · refine ne_nil_of_length_pos ?_
    rw [length_reverse]
    omega
  · refine ne_nil_of_length_pos ?_
    split
    · omega
    · rw [(bigShiftright_spec hoffs.le rest).2]
      omega

/-! ## `big_div_pos` -/

section Specs

variable {sure : Prop} {alloc : Alloc}

theorem runs_bigCopyTo (halloc : sure → alloc.Good) (path : List ℕ) (dest : Option BigNum)
    (src : BigNum) :
    Runs sure (bigCopyTo (alloc path) dest src) fun r =>
      r.isSome = dest.isSome ∧ ∀ x ∈ r, x.neg = src.neg ∧ x.value = trimWords src.value ∧
        ∀ d ∈ dest, d.size ≤ x.size := by
  cases dest with
  | none => exact ⟨rfl, nofun⟩
  | some dest =>
    refine (runs_bigCopy halloc path dest src).map ?_
    rintro r ⟨hneg, hval, hsize⟩
    refine ⟨rfl, ?_⟩
    intro x hx
    cases hx
    refine ⟨hneg, hval, ?_⟩
    intro d hd
    cases hd
    exact hsize

/-- Both numbers are what they should be, for those that the caller asked for. -/
theorem runs_bigDivPos (halloc : sure → alloc.Good) {result : Option BigNum}
    (remainder : Option BigNum)
    {aa bb : BigNum} (hresult : ∀ r ∈ result, 0 < r.size) (ha : aa.value ≠ []) (hb : bb.value ≠ [])
    (hpos : 0 < bb.abs) :
    Runs sure (bigDivPos alloc result remainder aa bb) fun r =>
      (r.1.isSome = result.isSome ∧
        ∀ q ∈ r.1, q.neg = false ∧ q.abs = aa.abs / bb.abs ∧ Tight q.value ∧ 0 < q.size) ∧
        r.2.isSome = remainder.isSome ∧
          ∀ x ∈ r.2, x.neg = aa.neg ∧ x.abs = aa.abs % bb.abs ∧ Tight x.value := by
  have ha' := tight_trimWords ha
  have hb' := tight_trimWords hb
  have haval : wordsVal (trimWords aa.value) = aa.abs := wordsVal_trimWords _
  have hbval : wordsVal (trimWords bb.value) = bb.abs := wordsVal_trimWords _
  have hbne : trimWords bb.value ≠ [0#32] := by
    intro h0
    rw [← hbval, h0] at hpos
    exact absurd hpos (by decide)
  rw [bigDivPos, if_neg hbne, bigCmpAbs_eq, haval, hbval]
  by_cases hlt : aa.abs < bb.abs
  · rw [if_pos (Nat.compare_eq_lt.mpr hlt)]
    refine (runs_bigCopyTo halloc [0] remainder _).bind ?_
    rintro r ⟨hsome, hr⟩
    have hrest : ∀ x ∈ r, x.neg = aa.neg ∧ x.abs = aa.abs % bb.abs ∧ Tight x.value := by
      intro x hx
      obtain ⟨hxneg, hxval, -⟩ := hr x hx
      rw [hxval, ha'.trimWords_eq]
      refine ⟨hxneg, ?_, ha'⟩
      rw [BigNum.abs, hxval, ha'.trimWords_eq, haval, Nat.mod_eq_of_lt hlt]
    cases result with
    | none => exact ⟨⟨rfl, fun q hq => absurd hq (not_mem_none q)⟩, hsome, hrest⟩
    | some result =>
      have hsize := hresult result rfl
      simp only [hsize.ne', if_false]
      refine ⟨⟨rfl, ?_⟩, hsome, hrest⟩
      intro q hq
      cases hq
      refine ⟨rfl, ?_, by simp [Tight], hsize⟩
      rw [Nat.div_eq_of_lt hlt]
      rfl
  · rw [if_neg fun h => hlt (Nat.compare_eq_lt.mp h)]
    refine (runs_bigInit1 halloc [1] _ _).bind fun _ _ => ?_
    refine (runs_bigInit1 halloc [2] _ _).bind fun _ _ => ?_
    refine (runs_bigInit1 halloc [3] _ _).bind fun tmp1 _ => ?_
    refine (runs_bigInit1 halloc [4] _ _).bind fun _ _ => ?_
    refine (runs_bigInit1 halloc [5] _ _).bind ?_
    rintro tresult ⟨htneg, -, -⟩
    obtain ⟨quotient, rest, hrun, hquotient, hrest, hqne, hrne⟩ :=
      divWords_spec ha' hb' (hbval ▸ hpos)
      (by rw [haval, hbval]; exact not_lt.mp hlt)
    rw [hrun]
    simp only
    refine (runs_bigCopyTo halloc [6] remainder _).bind ?_
    rintro r ⟨hrsome, hr⟩
    refine (runs_bigCopyTo halloc [7] result _).bind ?_
    rintro q ⟨hqsome, hq⟩
    refine ⟨⟨hqsome, ?_⟩, hrsome, ?_⟩
    · intro x hx
      obtain ⟨hxneg, hxval, hxsize⟩ := hq x hx
      refine ⟨hxneg.trans htneg, ?_, hxval ▸ tight_trimWords hqne, ?_⟩
      · rw [BigNum.abs, hxval, wordsVal_trimWords, hquotient, haval, hbval]
      · cases result with
        | none =>
          have hx : q = some x := hx
          rw [hx] at hqsome
          cases hqsome
        | some result => exact Nat.lt_of_lt_of_le (hresult result rfl) (hxsize result rfl)
    · intro x hx
      obtain ⟨hxneg, hxval, -⟩ := hr x hx
      refine ⟨hxneg, ?_, hxval ▸ tight_trimWords hrne⟩
      rw [BigNum.abs, hxval, wordsVal_trimWords, hrest, haval, hbval]

theorem bigDivPos_zero (result remainder : Option BigNum) (aa : BigNum) {bb : BigNum}
    (hb : bb.value ≠ [])
    (hzero : bb.abs = 0) : bigDivPos alloc result remainder aa bb = .error (.err .divBy0) := by
  have hb' := tight_trimWords hb
  have hbval : wordsVal (trimWords bb.value) = 0 := (wordsVal_trimWords _).trans hzero
  have hone : (trimWords bb.value).length = 1 := by
    rcases hb'.2 with hone | hle
    · exact hone
    · rw [hbval] at hle
      exact absurd hle (not_le.mpr (Nat.two_pow_pos _))
  have hwords : trimWords bb.value = [0#32] := limbVal_injective hone (hbval.trans rfl)
  rw [bigDivPos, if_pos hwords]

end Specs

/-- With no allocation failing, sums, differences and products of numbers of at least a word are
exact, for all signs and with either of the vector routines; so are quotients and remainders of a
number that is not negative by a positive one, and a divisor of zero is an error. -/
theorem bignum_exact (alloc : Alloc) (halloc : alloc.Good) (impl : MulImpl) (result aa bb : BigNum)
    (ha : aa.value ≠ []) (hb : bb.value ≠ []) :
    (∃ r, bigAdd (alloc []) result aa bb = .ok r ∧ r.toInt = aa.toInt + bb.toInt) ∧
    (∃ r, bigSub (alloc []) result aa bb = .ok r ∧ r.toInt = aa.toInt - bb.toInt) ∧
    (∃ r, bigMul impl alloc result aa bb = .ok r ∧ r.toInt = aa.toInt * bb.toInt) ∧
    (∀ quotient remainder : Option BigNum, (∀ q ∈ quotient, 0 < q.size) → 0 ≤ aa.toInt →
      0 < bb.toInt →
      ∃ r, bigDivPos alloc quotient remainder aa bb = .ok r ∧
        (r.1.isSome = quotient.isSome ∧ ∀ q ∈ r.1, q.toInt = aa.toInt / bb.toInt) ∧
        (r.2.isSome = remainder.isSome ∧ ∀ x ∈ r.2, x.toInt = aa.toInt % bb.toInt)) ∧
    (∀ quotient remainder : Option BigNum, bb.toInt = 0 →
      bigDivPos alloc quotient remainder aa bb = .error (.err .divBy0)) := by
  have hgood : True → alloc.Good := fun _ => halloc
  refine ⟨(runs_bigAdd hgood [] result aa bb).returns trivial,
    (runs_bigSub hgood [] result aa bb).returns trivial, ?_, ?_, ?_⟩
  · obtain ⟨r, hrun, hval, -⟩ := (runs_bigMul impl result hgood ha hb).returns trivial
    exact ⟨r, hrun, hval⟩
  · intro quotient remainder hsize hnonneg hpos
    have hbneg : bb.neg = false := by
      by_contra hneg
      rw [BigNum.toInt_of_neg (by simpa using hneg)] at hpos
      omega
    have haabs : aa.toInt = aa.abs := by
      cases hneg : aa.neg with
      | false => exact BigNum.toInt_of_pos hneg
      | true =>
        rw [BigNum.toInt_of_neg hneg] at hnonneg ⊢
        omega
    rw [BigNum.toInt_of_pos hbneg] at hpos ⊢
    rw [haabs]
    obtain ⟨r, hrun, ⟨hqsome, hq⟩, hrsome, hr⟩ :=
      (runs_bigDivPos hgood remainder hsize ha hb (by omega)).returns trivial
    refine ⟨r, hrun, ⟨hqsome, ?_⟩, hrsome, ?_⟩
    · intro q hmem
      obtain ⟨hneg, habs, -⟩ := hq q hmem
      rw [BigNum.toInt_of_pos hneg, habs, Int.natCast_ediv]
    · intro x hmem
      obtain ⟨hneg, habs, -⟩ := hr x hmem
      rw [← Int.natCast_emod, ← habs, BigNum.toInt, hneg]
      split
      next hminus =>
        -- a negative zero leaves a negative zero
        rw [BigNum.toInt_of_neg hminus] at haabs
        rw [habs, show aa.abs = 0 by omega, Nat.zero_mod]
        rfl
      next => rfl
  · intro quotient remainder hzero
    refine bigDivPos_zero quotient remainder aa hb ?_
    rw [BigNum.toInt] at hzero
    split at hzero <;> omega

/-- Three by two words, in numbers with leading zeros. -/
theorem bignum_exact_small :
    (∃ r, bigMul .mul16 (fun _ => true) ⟨1, false, []⟩ ⟨3, false, [7#32, 1#32, 0#32]⟩
        ⟨2, true, [5#32, 0#32]⟩ = .ok r ∧ r.toInt = (7 + 2 ^ 32) * -5) ∧
      ∃ r, bigDivPos (fun _ => true) (some ⟨1, false, []⟩) none ⟨3, false, [7#32, 1#32, 0#32]⟩
        ⟨2, false, [5#32, 0#32]⟩ = .ok r ∧ ∀ q ∈ r.1, q.toInt = (7 + 2 ^ 32) / 5 := by
  obtain ⟨-, -, hmul, -, -⟩ := bignum_exact (fun _ => true) (fun _ => rfl) .mul16 ⟨1, false, []⟩
    ⟨3, false, [7#32, 1#32, 0#32]⟩ ⟨2, true, [5#32, 0#32]⟩ nofun nofun
  obtain ⟨-, -, -, hdiv, -⟩ := bignum_exact (fun _ => true) (fun _ => rfl) .mul16 ⟨1, false, []⟩
    ⟨3, false, [7#32, 1#32, 0#32]⟩ ⟨2, false, [5#32, 0#32]⟩ nofun nofun
  obtain ⟨r, hrun, ⟨-, hq⟩, -⟩ := hdiv (some ⟨1, false, []⟩) none (by simp) (by decide) (by decide)
  exact ⟨hmul, r, hrun, hq⟩

end Polaris
