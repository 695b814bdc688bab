import Polaris.Bignum.AddSub

/-!
# Multiplying big numbers

The two generic versions of the vector routines: with a product of 64 bits, and from products of
half words.  The first unrolls its loops and fetches a word ahead; its rounds are taken one after
the other here.

## Main definitions

* `mulAddVec`, `mulSetVec` — a vector times a word, added to another one or not.
* `sqrVec`, `mulVec` — squares and products of vectors.
* `bigMul`
-/

namespace Polaris

open List BitVec

/-- Which of the generic vector routines are compiled in. -/
inductive MulImpl
  /-- `UMUL64`. -/
  | umul64
  | mul16
  deriving DecidableEq, Repr

/-! ## A vector times a word -/

/-- The rounds of `big_mul_add_vec` with 64-bit products; `cy` is the `uint64_t` of the source. -/
def mulAddRounds (d : BigWord) (cy : ℕ) : List BigWord → List BigWord → List BigWord × ℕ
  | r :: rs, a :: as =>
    let p := a.toNat * d.toNat % 2 ^ 64
    let t := (p + r.toNat + cy) % 2 ^ 64
    let rest := mulAddRounds d (t >>> 32) rs as
    (BitVec.ofNat 32 t :: rest.1, rest.2)
  | _, _ => ([], cy)

/-- The rounds of `big_mul_set_vec` with 64-bit products. -/
def mulSetRounds (d : BigWord) (cy : ℕ) : List BigWord → List BigWord × ℕ
  | a :: as =>
    let p := a.toNat * d.toNat % 2 ^ 64
    let t := (p + cy) % 2 ^ 64
    let rest := mulSetRounds d (t >>> 32) as
    (BitVec.ofNat 32 t :: rest.1, rest.2)
  | [] => ([], cy)

/-- The low half of a word. -/
def lo16 (x : BigWord) : BigWord := x &&& 0xffff#32

/-- The high half of a word. -/
def hi16 (x : BigWord) : BigWord := x >>> 16

/-- `(lo & 0xffff) | (hi << 16)`. -/
def join16 (lo hi : BigWord) : BigWord := lo16 lo ||| hi <<< 16

/-- The first loop of `big_mul_add_vec` from half words. -/
def mulAddLow (dlow : BigWord) (cy1 : BigWord) : List BigWord → List BigWord →
    List BigWord × BigWord
  | r :: rs, a :: as =>
    let cy := hi16 cy1 + dlow * lo16 a + lo16 r
    let cy1 := hi16 cy + dlow * hi16 a + hi16 r
    let rest := mulAddLow dlow cy1 rs as
    (join16 cy cy1 :: rest.1, rest.2)
  | _, _ => ([], cy1)

/-- The second loop, with what follows it; `cy1` holds the low half of the next word already. -/
def mulAddHigh (dhigh retcy cy1 : BigWord) : List BigWord → List BigWord → List BigWord × BigWord
  | r :: r' :: rs, a :: a' :: as =>
    let cy := hi16 cy1 + dhigh * lo16 a + hi16 r
    let rest := mulAddHigh dhigh retcy (hi16 cy + dhigh * hi16 a + lo16 r') (r' :: rs) (a' :: as)
    (join16 cy1 cy :: rest.1, rest.2)
  | r :: _, a :: _ =>
    let cy := hi16 cy1 + dhigh * lo16 a + hi16 r
    ([join16 cy1 cy], hi16 cy + dhigh * hi16 a + retcy)
  | _, _ => ([], retcy)

/-- `big_mul_add_vec`: `r + a * digit` in the length of `a`, and the carry digit. -/
def mulAddVec (impl : MulImpl) (r a : List BigWord) (digit : BigWord) : List BigWord × BigWord :=
  match impl with
  | .umul64 =>
    let p := mulAddRounds digit 0 r a
    (p.1, BitVec.ofNat 32 p.2)
  | .mul16 =>
    let low := mulAddLow (lo16 digit) 0#32 r a
    mulAddHigh (hi16 digit) (hi16 low.2) (lo16 (low.1.headD 0#32)) low.1 a

/-- `big_mul_set_vec`; from half words it relies on `r` being zero. -/
def mulSetVec (impl : MulImpl) (r a : List BigWord) (digit : BigWord) : List BigWord × BigWord :=
  match impl with
  | .umul64 =>
    let p := mulSetRounds digit 0 a
    (p.1, BitVec.ofNat 32 p.2)
  | .mul16 => mulAddVec .mul16 r a digit

/-- The words and the carry are exactly the given value. -/
def VecIs (out : List BigWord × BigWord) (n value : ℕ) : Prop :=
  out.1.length = n ∧ wordsVal out.1 + 2 ^ (32 * n) * out.2.toNat = value

theorem mul_round (a d r : BigWord) {cy : ℕ} (hcy : cy < 2 ^ 32) :
    let t := (a.toNat * d.toNat % 2 ^ 64 + r.toNat + cy) % 2 ^ 64
    (BitVec.ofNat 32 t).toNat + 2 ^ 32 * (t >>> 32) = a.toNat * d.toNat + r.toNat + cy ∧
      t >>> 32 < 2 ^ 32 := by
  have ha := a.isLt
  have hd := d.isLt
  have hr := r.isLt
  have hmul : a.toNat * d.toNat ≤ (2 ^ 32 - 1) * (2 ^ 32 - 1) :=
    Nat.mul_le_mul (by omega) (by omega)
  simp only
  rw [Nat.mod_eq_of_lt (by omega), Nat.mod_eq_of_lt (by omega), toNat_ofNat,
    Nat.shiftRight_eq_div_pow]
  omega

theorem mulAddRounds_spec (d : BigWord) (rs as : List BigWord) (hlen : rs.length = as.length)
    (cy : ℕ) (hcy : cy < 2 ^ 32) :
    (mulAddRounds d cy rs as).1.length = as.length ∧ (mulAddRounds d cy rs as).2 < 2 ^ 32 ∧
      wordsVal (mulAddRounds d cy rs as).1 + 2 ^ (32 * as.length) * (mulAddRounds d cy rs as).2
        = wordsVal rs + wordsVal as * d.toNat + cy := by
  induction as generalizing rs cy with
  | nil =>
    cases rs with
    | nil => exact ⟨rfl, hcy, by simp [mulAddRounds]⟩
    | cons r rs => cases hlen
  | cons a as ih =>
    cases rs with
    | nil => cases hlen
    | cons r rs =>
      obtain ⟨hround, hlt⟩ := mul_round a d r hcy
      obtain ⟨hrest, hcarry, hval⟩ := ih rs (by simpa using hlen) _ hlt
      refine ⟨by simp only [mulAddRounds, length_cons, hrest], hcarry, ?_⟩
      simp only [mulAddRounds, wordsVal, limbVal_cons, length_cons, two_pow_words_succ]
      simp only [wordsVal] at hval
      linear_combination hround + 2 ^ 32 * hval

/-- Setting is adding to zeros. -/
theorem mulSetRounds_eq (d : BigWord) (as : List BigWord) (cy : ℕ) :
    mulSetRounds d cy as = mulAddRounds d cy (replicate as.length 0#32) as := by
  induction as generalizing cy with
  | nil => rfl
  | cons a as ih => simp [mulSetRounds, mulAddRounds, List.replicate_succ, ih]

/-! ## Half words -/

variable (x : BigWord)

theorem toNat_lo16 : (lo16 x).toNat = x.toNat % 2 ^ 16 := by
  rw [lo16, toNat_and]
  exact Nat.and_two_pow_sub_one_eq_mod x.toNat 16

theorem toNat_hi16 : (hi16 x).toNat = x.toNat / 2 ^ 16 := by
  rw [hi16, toNat_ushiftRight, Nat.shiftRight_eq_div_pow]

theorem lo16_lt : (lo16 x).toNat < 2 ^ 16 := by
  rw [toNat_lo16]
  exact Nat.mod_lt _ (by decide)

theorem toNat_join16 (lo hi : BigWord) :
    (join16 lo hi).toNat = (lo16 lo).toNat + 2 ^ 16 * (lo16 hi).toNat := by
  have hlt : (lo16 lo).toNat < 2 ^ 16 := lo16_lt lo
  have hshift : (hi <<< 16).toNat = (lo16 hi).toNat <<< 16 := by
    rw [toNat_shiftLeft, toNat_lo16, Nat.shiftLeft_eq, Nat.shiftLeft_eq]
    omega
  rw [join16, toNat_or, hshift, Nat.or_comm, ← Nat.shiftLeft_add_eq_or_of_lt hlt, Nat.shiftLeft_eq]
  omega

/-- A product of half words with two more added fits into a word. -/
theorem toNat_half_sum {x y z u : BigWord} (hx : x.toNat < 2 ^ 16) (hy : y.toNat < 2 ^ 16)
    (hz : z.toNat < 2 ^ 16) (hu : u.toNat < 2 ^ 16) :
    (z + x * y + u).toNat = z.toNat + x.toNat * y.toNat + u.toNat := by
  have hmul : x.toNat * y.toNat ≤ (2 ^ 16 - 1) * (2 ^ 16 - 1) :=
    Nat.mul_le_mul (by omega) (by omega)
  rw [toNat_add, toNat_add, toNat_mul, Nat.mod_eq_of_lt (a := x.toNat * y.toNat)
    (by omega), Nat.mod_eq_of_lt (a := z.toNat + x.toNat * y.toNat) (by omega),
    Nat.mod_eq_of_lt (by omega)]

theorem hi16_lt : (hi16 x).toNat < 2 ^ 16 := by
  have := x.isLt
  rw [toNat_hi16]
  omega

/-- A word is its halves. -/
theorem toNat_halves : x.toNat = (lo16 x).toNat + 2 ^ 16 * (hi16 x).toNat := by
  rw [toNat_lo16, toNat_hi16]
  omega

theorem mulAddLow_spec {dlow : BigWord} (hd : dlow.toNat < 2 ^ 16) (rs as : List BigWord)
    (hlen : rs.length = as.length) (cy1 : BigWord) :
    (mulAddLow dlow cy1 rs as).1.length = as.length ∧
      wordsVal (mulAddLow dlow cy1 rs as).1
          + 2 ^ (32 * as.length) * (hi16 (mulAddLow dlow cy1 rs as).2).toNat
        = wordsVal rs + wordsVal as * dlow.toNat + (hi16 cy1).toNat := by
  induction as generalizing rs cy1 with
  | nil =>
    cases rs with
    | nil => exact ⟨rfl, by simp [mulAddLow]⟩
    | cons r rs => cases hlen
  | cons a as ih =>
    cases rs with
    | nil => cases hlen
    | cons r rs =>
      have hcy := toNat_half_sum hd (lo16_lt a) (hi16_lt cy1) (lo16_lt r)
      have hcy1 := toNat_half_sum hd (hi16_lt a)
        (hi16_lt (hi16 cy1 + dlow * lo16 a + lo16 r)) (hi16_lt r)
      obtain ⟨hrest, hval⟩ := ih rs (by simpa using hlen)
        (hi16 (hi16 cy1 + dlow * lo16 a + lo16 r) + dlow * hi16 a + hi16 r)
      refine ⟨by simp only [mulAddLow, length_cons, hrest], ?_⟩
      simp only [mulAddLow, wordsVal, limbVal_cons, length_cons, two_pow_words_succ, toNat_join16]
      simp only [wordsVal] at hval
      have hsplit := toNat_halves (hi16 cy1 + dlow * lo16 a + lo16 r)
      have hsplit1 := toNat_halves
        (hi16 (hi16 cy1 + dlow * lo16 a + lo16 r) + dlow * hi16 a + hi16 r)
      rw [toNat_halves a, toNat_halves r]
      linear_combination 2 ^ 32 * hval + hcy + 2 ^ 16 * hcy1 - hsplit - 2 ^ 16 * hsplit1

theorem wordsVal_cons (xs : List BigWord) : wordsVal (x :: xs) = x.toNat + 2 ^ 32 * wordsVal xs :=
  limbVal_cons x xs

/-- A round of the second loop. -/
theorem mulAddHigh_round {dhigh : BigWord} (hd : dhigh.toNat < 2 ^ 16) (cy1 r a : BigWord) :
    (join16 cy1 (hi16 cy1 + dhigh * lo16 a + hi16 r)).toNat
        + 2 ^ 32 * ((hi16 (hi16 cy1 + dhigh * lo16 a + hi16 r)).toNat + dhigh.toNat *
          (hi16 a).toNat)
        + (lo16 r).toNat
      = cy1.toNat + r.toNat + a.toNat * (dhigh.toNat * 2 ^ 16) := by
  have hcy := toNat_half_sum hd (lo16_lt a) (hi16_lt cy1) (hi16_lt r)
  have hsplit := toNat_halves (hi16 cy1 + dhigh * lo16 a + hi16 r)
  have hsplit1 := toNat_halves cy1
  rw [toNat_join16, toNat_halves a, toNat_halves r]
  linear_combination 2 ^ 16 * hcy - 2 ^ 16 * hsplit - hsplit1

/-- The low half of the first word is in `cy1` already. -/
theorem mulAddHigh_spec {dhigh : BigWord} (hd : dhigh.toNat < 2 ^ 16) (retcy : BigWord)
    (r : BigWord) (rs : List BigWord) (a : BigWord) (as : List BigWord)
    (hlen : rs.length = as.length) (cy1 : BigWord)
    (hfits : cy1.toNat + wordsVal (r :: rs) + wordsVal (a :: as) * (dhigh.toNat * 2 ^ 16)
      + 2 ^ (32 * (as.length + 1)) * retcy.toNat < 2 ^ (32 * (as.length + 2)) + (lo16 r).toNat) :
    (mulAddHigh dhigh retcy cy1 (r :: rs) (a :: as)).1.length = as.length + 1 ∧
      wordsVal (mulAddHigh dhigh retcy cy1 (r :: rs) (a :: as)).1
          + 2 ^ (32 * (as.length + 1)) * (mulAddHigh dhigh retcy cy1 (r :: rs) (a :: as)).2.toNat
          + (lo16 r).toNat
        = cy1.toNat + wordsVal (r :: rs) + wordsVal (a :: as) * (dhigh.toNat * 2 ^ 16)
          + 2 ^ (32 * (as.length + 1)) * retcy.toNat := by
  induction as generalizing r rs a cy1 with
  | nil =>
    obtain rfl : rs = [] := length_eq_zero_iff.mp hlen
    have hround := mulAddHigh_round hd cy1 r a
    refine ⟨rfl, ?_⟩
    simp only [mulAddHigh, wordsVal, limbVal_singleton, length_nil] at hfits ⊢
    generalize hi16 cy1 + dhigh * lo16 a + hi16 r = cy at *
    have hret : (hi16 cy + dhigh * hi16 a + retcy).toNat
        = (hi16 cy).toNat + dhigh.toNat * (hi16 a).toNat + retcy.toNat := by
      rw [toNat_add, toNat_add, toNat_mul, Nat.add_mod_mod, Nat.mod_add_mod]
      exact Nat.mod_eq_of_lt (by omega)
    rw [hret]
    omega
  | cons a' as ih =>
    cases rs with
    | nil => cases hlen
    | cons r' rs =>
      have hround := mulAddHigh_round hd cy1 r a
      have hcy1 := toNat_half_sum hd (hi16_lt a)
        (hi16_lt (hi16 cy1 + dhigh * lo16 a + hi16 r)) (lo16_lt r')
      simp only [mulAddHigh, length_cons]
      generalize hi16 cy1 + dhigh * lo16 a + hi16 r = cy at *
      have hword : wordsVal (a :: a' :: as) * (dhigh.toNat * 2 ^ 16)
          = a.toNat * (dhigh.toNat * 2 ^ 16) + 2 ^ 32 * (wordsVal (a' :: as)
            * (dhigh.toNat * 2 ^ 16)) := by
        rw [wordsVal_cons a]
        ring
      have hpow : 2 ^ (32 * (as.length + 1 + 1)) = 2 ^ 32 * 2 ^ (32 * (as.length + 1)) :=
        two_pow_words_succ _
      have hpow' : 2 ^ (32 * (as.length + 1 + 2)) = 2 ^ 32 * 2 ^ (32 * (as.length + 2)) :=
        two_pow_words_succ _
      rw [length_cons, wordsVal_cons r, hword, hpow, hpow', Nat.mul_assoc] at hfits
      obtain ⟨hrest, heq⟩ := ih r' rs a' (by simpa using hlen) (hi16 cy + dhigh * hi16 a + lo16 r')
        (by omega)
      refine ⟨by omega, ?_⟩
      rw [wordsVal_cons, wordsVal_cons r, hword, hpow, Nat.mul_assoc, Nat.mul_assoc]
      omega

/-! ## The vector routines -/

variable {a r : List BigWord}

/-- What is added and what is multiplied leave room for the carry digit. -/
theorem mulAdd_fits (hlen : r.length = a.length) (digit : BigWord) :
    wordsVal r + wordsVal a * digit.toNat < 2 ^ (32 * (a.length + 1)) := by
  have hr := limbVal_lt r
  have ha := limbVal_lt a
  rw [hlen] at hr
  have hmul : wordsVal a * digit.toNat ≤ (2 ^ (32 * a.length) - 1) * (2 ^ 32 - 1) :=
    Nat.mul_le_mul (Nat.le_sub_one_of_lt ha) (Nat.le_sub_one_of_lt digit.isLt)
  rw [two_pow_words_succ]
  generalize 2 ^ (32 * a.length) = p at *
  simp only [wordsVal] at hmul ⊢
  rw [Nat.sub_mul] at hmul
  omega

variable (impl : MulImpl)

theorem mulAddVec_spec (hlen : r.length = a.length) (hne : a ≠ []) (digit : BigWord) :
    VecIs (mulAddVec impl r a digit) a.length (wordsVal r + wordsVal a * digit.toNat) := by
  have hfits := mulAdd_fits hlen digit
  cases impl with
  | umul64 =>
    obtain ⟨hout, hcarry, hval⟩ := mulAddRounds_spec digit r a hlen 0 (by decide)
    refine ⟨hout, ?_⟩
    rw [mulAddVec, toNat_ofNat, Nat.mod_eq_of_lt hcarry, hval, Nat.add_zero]
  | mul16 =>
    cases a with
    | nil => exact absurd rfl hne
    | cons a as =>
      obtain ⟨hlow, hval⟩ := mulAddLow_spec (lo16_lt digit) r (a :: as) hlen 0#32
      cases hcases : (mulAddLow (lo16 digit) 0#32 r (a :: as)).1 with
      | nil =>
        rw [hcases] at hlow
        cases hlow
      | cons r' rs =>
        rw [hcases] at hlow hval
        have hzero : (hi16 0#32).toNat = 0 := rfl
        have hdigit := toNat_halves digit
        have hprod : wordsVal (a :: as) * digit.toNat = wordsVal (a :: as) * (lo16 digit).toNat
            + wordsVal (a :: as) * ((hi16 digit).toNat * 2 ^ 16) := by
          rw [hdigit]
          ring
        rw [hzero, Nat.add_zero, length_cons] at hval
        rw [length_cons, hprod] at hfits
        have hfits : _ < 2 ^ (32 * (as.length + 2)) := hfits
        obtain ⟨hout, heq⟩ := mulAddHigh_spec (hi16_lt digit)
          (hi16 (mulAddLow (lo16 digit) 0#32 r (a :: as)).2) r' rs a as (by simpa using hlow)
          (lo16 r') (by omega)
        rw [mulAddVec, hcases, headD_cons, VecIs, length_cons, hprod]
        exact ⟨hout, by omega⟩

/-- Both routines do the same to zeros. -/
theorem mulSetVec_eq (a : List BigWord) (digit : BigWord) :
    mulSetVec impl (replicate a.length 0#32) a digit =
      mulAddVec impl (replicate a.length 0#32) a digit := by
  cases impl with
  | umul64 => rw [mulSetVec, mulAddVec, mulSetRounds_eq]
  | mul16 => rfl

/-! ## Products and squares -/

/-- The words of `r` from the first that a row of `big_mul_vec` changes on, and the words that
follow. -/
def mulRows (impl : MulImpl) (a : List BigWord) : List BigWord → List BigWord → List BigWord
  | r, [] => r
  | r, b :: bs =>
    let out := mulAddVec impl r a b
    let row := out.1 ++ [out.2]
    row.take 1 ++ mulRows impl a (row.drop 1) bs

/-- `big_mul_vec`, on words that are zero. -/
def mulVec (impl : MulImpl) (a : List BigWord) : List BigWord → List BigWord
  | [] => []
  | b :: bs =>
    let out := mulSetVec impl (replicate a.length 0#32) a b
    let row := out.1 ++ [out.2]
    row.take 1 ++ mulRows impl a (row.drop 1) bs

/-- The rows of `big_sqr_vec` with 64-bit products after the first one; two more words are done
after each row. -/
def sqrRows : List BigWord → List BigWord → List BigWord
  | r, a :: a' :: as =>
    let out := mulAddVec .umul64 r (a' :: as) a
    let row := out.1 ++ [out.2]
    row.take 2 ++ sqrRows (row.drop 2) (a' :: as)
  | r, _ => r

/-- The words from `r[1]` on that the rows leave. -/
def sqrCross : List BigWord → List BigWord
  | a :: as =>
    let out := mulSetVec .umul64 (replicate as.length 0#32) as a
    let row := out.1 ++ [out.2]
    row.take 2 ++ sqrRows (row.drop 2) as
  | [] => []

/-- The last loop of `big_sqr_vec`: the words are doubled and the squares of the digits added.  No
sum takes more than 64 bits. -/
def sqrDiag : ℕ → List BigWord → List BigWord → List BigWord
  | cy, c :: n :: r, a :: a' :: as =>
    let t := (c.toNat <<< 1) + a.toNat * a.toNat
    let t2 := t % 2 ^ 32 + cy
    let p := (n.toNat <<< 1) + ((t >>> 32) + (t2 >>> 32))
    BitVec.ofNat 32 t2 :: BitVec.ofNat 32 p :: sqrDiag (p >>> 32) r (a' :: as)
  | cy, c :: _, a :: _ =>
    let t := (c.toNat <<< 1) + a.toNat * a.toNat
    let t2 := t % 2 ^ 32 + cy
    [BitVec.ofNat 32 t2, BitVec.ofNat 32 ((t >>> 32) + (t2 >>> 32))]
  | _, _, _ => []

/-- `big_sqr_vec`. -/
def sqrVec (impl : MulImpl) (a : List BigWord) : List BigWord :=
  match impl, a with
  | .umul64, a₀ :: as =>
    match sqrCross (a₀ :: as) with
    | r₁ :: r =>
      let s := a₀.toNat * a₀.toNat
      let p := (r₁.toNat <<< 1) + (s >>> 32)
      BitVec.ofNat 32 s :: BitVec.ofNat 32 p :: sqrDiag (p >>> 32) r as
    | [] => []
  | .umul64, [] => []
  | .mul16, a => mulVec .mul16 a a

section Products

variable (impl : MulImpl) {a : List BigWord}

/-- A row and its carry digit, cut after some words. -/
theorem VecIs.row {out : List BigWord × BigWord} {n value : ℕ} (h : VecIs out n value) {k : ℕ}
    (hk : k ≤ n + 1) :
    wordsVal ((out.1 ++ [out.2]).take k) + 2 ^ (32 * k) * wordsVal ((out.1 ++ [out.2]).drop k)
      = value ∧
      ((out.1 ++ [out.2]).take k).length = k ∧ ((out.1 ++ [out.2]).drop k).length = n + 1 - k := by
  obtain ⟨hlen, hval⟩ := h
  have hrow : (out.1 ++ [out.2]).length = n + 1 := by rw [length_append, hlen, length_singleton]
  have hsplit := limbVal_take_add_drop (out.1 ++ [out.2]) (n := k) (by omega)
  rw [limbVal_concat, hlen] at hsplit
  refine ⟨hsplit.trans hval, ?_, ?_⟩
  · rw [length_take, hrow]
    omega
  · rw [length_drop, hrow]

theorem mulRows_spec (hne : a ≠ []) (bs : List BigWord) (hlen : r.length = a.length) :
    (mulRows impl a r bs).length = a.length + bs.length ∧
      wordsVal (mulRows impl a r bs) = wordsVal r + wordsVal a * wordsVal bs := by
  induction bs generalizing r with
  | nil => exact ⟨hlen, by simp [mulRows]⟩
  | cons b bs ih =>
    obtain ⟨hval, htake, hdrop⟩ := (mulAddVec_spec impl hlen hne b).row (k := 1) (by omega)
    obtain ⟨hrest, hsum⟩ := ih hdrop
    constructor
    · rw [mulRows, length_append, htake, hrest, length_cons]
      omega
    · rw [mulRows, wordsVal, limbVal_append, htake, wordsVal_cons]
      simp only [wordsVal] at hsum hval ⊢
      rw [hsum]
      linear_combination hval

theorem mulVec_spec (hne : a ≠ []) {b : List BigWord} (hb : b ≠ []) :
    (mulVec impl a b).length = a.length + b.length ∧ wordsVal (mulVec impl a b)
      = wordsVal a * wordsVal b := by
  have heq : mulVec impl a b = mulRows impl a (replicate a.length 0#32) b := by
    cases b with
    | nil => exact absurd rfl hb
    | cons b bs => rw [mulVec, mulRows, mulSetVec_eq]
  obtain ⟨hlen, hval⟩ := mulRows_spec impl hne b (length_replicate (n := a.length) (a := 0#32))
  rw [heq]
  refine ⟨hlen, hval.trans ?_⟩
  rw [wordsVal, limbVal_replicate_zero, Nat.zero_add]

end Products

/-! ## Squares -/

/-- The products of different digits. -/
def crossVal : List BigWord → ℕ
  | a :: as => a.toNat * wordsVal as + 2 ^ 64 * crossVal as
  | [] => 0

/-- The squares of the digits. -/
def diagVal : List BigWord → ℕ
  | a :: as => a.toNat * a.toNat + 2 ^ 64 * diagVal as
  | [] => 0

theorem wordsVal_mul_self (a : List BigWord) :
    wordsVal a * wordsVal a = diagVal a + 2 ^ 33 * crossVal a := by
  induction a with
  | nil => rfl
  | cons a as ih =>
    rw [wordsVal_cons, diagVal, crossVal]
    linear_combination 2 ^ 64 * ih

theorem sqrRows_spec (as : List BigWord) (hlen : r.length + 1 = as.length) :
    (sqrRows r as).length = 2 * r.length ∧ wordsVal (sqrRows r as) = wordsVal r + crossVal as := by
  induction as generalizing r with
  | nil => cases hlen
  | cons a as ih =>
    cases as with
    | nil =>
      obtain rfl : r = [] := length_eq_zero_iff.mp (by simpa using hlen)
      simp [sqrRows, crossVal]
    | cons a' as =>
      have hr : r.length = (a' :: as).length := by simpa using hlen
      obtain ⟨hval, htake, hdrop⟩ := (mulAddVec_spec .umul64 hr (by simp) a).row (k := 2)
        (by simp)
      obtain ⟨hrest, hsum⟩ := ih (by rw [hdrop]; simp)
      constructor
      · rw [sqrRows, length_append, htake, hrest, hdrop]
        simp only [length_cons] at hr ⊢
        omega
      · rw [sqrRows, wordsVal, limbVal_append, htake, crossVal]
        simp only [wordsVal] at hsum hval ⊢
        rw [hsum]
        linear_combination hval

theorem sqrCross_spec (ha : 2 ≤ a.length) :
    (sqrCross a).length = 2 * (a.length - 1) ∧ wordsVal (sqrCross a) = crossVal a := by
  have heq : sqrCross a = sqrRows (replicate (a.length - 1) 0#32) a := by
    cases a with
    | nil => cases ha
    | cons a as =>
      cases as with
      | nil => simp at ha
      | cons a' as =>
        rw [sqrCross, sqrRows, mulSetVec_eq]
        rfl
  obtain ⟨hlen, hval⟩ := sqrRows_spec (r := replicate (a.length - 1) 0#32) a
    (by rw [length_replicate]; omega)
  rw [length_replicate] at hlen
  rw [heq]
  refine ⟨hlen, hval.trans ?_⟩
  rw [wordsVal, limbVal_replicate_zero, Nat.zero_add]

/-- A round of the last loop, up to the word that it writes first. -/
theorem sqr_round (c : BigWord) (q cy : ℕ) :
    (BitVec.ofNat 32 (((c.toNat <<< 1) + q) % 2 ^ 32 + cy)).toNat
        + 2 ^ 32 * (((c.toNat <<< 1) + q) >>> 32 + (((c.toNat <<< 1) + q) % 2 ^ 32 + cy) >>> 32)
      = cy + 2 * c.toNat + q := by
  simp only [toNat_ofNat, Nat.shiftRight_eq_div_pow, Nat.shiftLeft_eq]
  omega

/-- The word that it writes then. -/
theorem sqr_round_second (n : BigWord) (cy : ℕ) :
    (BitVec.ofNat 32 ((n.toNat <<< 1) + cy)).toNat + 2 ^ 32 * (((n.toNat <<< 1) + cy) >>> 32)
      = 2 * n.toNat + cy := by
  simp only [toNat_ofNat, Nat.shiftRight_eq_div_pow, Nat.shiftLeft_eq]
  omega

theorem two_pow_digits_succ (n : ℕ) : 2 ^ (64 * (n + 1)) = 2 ^ 64 * 2 ^ (64 * n) := by
  rw [Nat.mul_succ, Nat.pow_add, Nat.mul_comm]

theorem sqrDiag_spec (as r : List BigWord) (hlen : r.length + 1 = 2 * as.length) (cy : ℕ)
    (hfits : cy + 2 * wordsVal r + diagVal as < 2 ^ (64 * as.length)) :
    (sqrDiag cy r as).length = 2 * as.length ∧
      wordsVal (sqrDiag cy r as) = cy + 2 * wordsVal r + diagVal as := by
  induction as generalizing r cy with
  | nil => cases hlen
  | cons a as ih =>
    cases r with
    | nil =>
      simp only [length_nil, length_cons] at hlen
      omega
    | cons c r =>
      have hround := sqr_round c (a.toNat * a.toNat) cy
      rw [wordsVal_cons, diagVal] at hfits ⊢
      cases as with
      | nil =>
        obtain rfl : r = [] := length_eq_zero_iff.mp (by simpa using hlen)
        refine ⟨rfl, ?_⟩
        simp only [diagVal, wordsVal, limbVal_nil, length_singleton] at hfits
        have hlast : sqrDiag cy [c] [a]
            = [BitVec.ofNat 32 (((c.toNat <<< 1) + a.toNat * a.toNat) % 2 ^ 32 + cy),
              BitVec.ofNat 32 (((c.toNat <<< 1) + a.toNat * a.toNat) >>> 32
                + (((c.toNat <<< 1) + a.toNat * a.toNat) % 2 ^ 32 + cy) >>> 32)] := rfl
        rw [hlast, wordsVal_cons, wordsVal_cons, diagVal, wordsVal, limbVal_nil]
        generalize ((c.toNat <<< 1) + a.toNat * a.toNat) >>> 32
          + (((c.toNat <<< 1) + a.toNat * a.toNat) % 2 ^ 32 + cy) >>> 32 = carry at hround ⊢
        have hcarry : (BitVec.ofNat 32 carry).toNat = carry := by
          rw [toNat_ofNat]
          exact Nat.mod_eq_of_lt (by omega)
        rw [hcarry]
        omega
      | cons a' as =>
        cases r with
        | nil =>
          simp only [length_nil, length_cons] at hlen
          omega
        | cons n r =>
          simp only [sqrDiag]
          generalize ((c.toNat <<< 1) + a.toNat * a.toNat) >>> 32
            + (((c.toNat <<< 1) + a.toNat * a.toNat) % 2 ^ 32 + cy) >>> 32 = carry at hround ⊢
          have hsecond := sqr_round_second n carry
          rw [wordsVal_cons n] at hfits ⊢
          rw [length_cons, two_pow_digits_succ] at hfits
          simp only [length_cons] at hlen
          obtain ⟨hrest, hval⟩ := ih r (by simp only [length_cons]; omega)
            (((n.toNat <<< 1) + carry) >>> 32) (by omega)
          constructor
          · simp only [length_cons, hrest]
            omega
          · rw [wordsVal_cons, wordsVal_cons, hval]
            omega

theorem sqrVec_spec (ha : 2 ≤ a.length) :
    (sqrVec impl a).length = 2 * a.length ∧ wordsVal (sqrVec impl a) = wordsVal a * wordsVal a := by
  cases impl with
  | mul16 =>
    have hne : a ≠ [] := ne_nil_of_length_pos (by omega)
    obtain ⟨hlen, hval⟩ := mulVec_spec .mul16 hne hne
    exact ⟨hlen.trans (Nat.two_mul _).symm, hval⟩
  | umul64 =>
    obtain ⟨hlen, hval⟩ := sqrCross_spec ha
    have hsquare := wordsVal_mul_self a
    have hlt : wordsVal a * wordsVal a < 2 ^ (64 * a.length) := by
      have hltA := limbVal_lt a
      rw [show 64 * a.length = 32 * a.length + 32 * a.length by omega, Nat.pow_add]
      exact Nat.mul_lt_mul'' hltA hltA
    cases a with
    | nil => cases ha
    | cons a₀ as =>
      rw [hsquare] at hlt ⊢
      cases hcross : sqrCross (a₀ :: as) with
      | nil =>
        rw [hcross] at hlen
        simp only [length_nil, length_cons] at hlen ha
        omega
      | cons r₁ r =>
        rw [hcross] at hlen hval
        simp only [sqrVec, hcross]
        have hsecond := sqr_round_second r₁ ((a₀.toNat * a₀.toNat) >>> 32)
        have hfirst : (BitVec.ofNat 32 (a₀.toNat * a₀.toNat)).toNat
            + 2 ^ 32 * ((a₀.toNat * a₀.toNat) >>> 32) = a₀.toNat * a₀.toNat := by
          rw [toNat_ofNat, Nat.shiftRight_eq_div_pow]
          omega
        rw [wordsVal_cons] at hval
        rw [diagVal, ← hval, length_cons, two_pow_digits_succ] at hlt
        simp only [length_cons] at hlen
        obtain ⟨hrest, hsum⟩ := sqrDiag_spec as r (by omega)
          (((r₁.toNat <<< 1) + (a₀.toNat * a₀.toNat) >>> 32) >>> 32) (by omega)
        constructor
        · simp only [length_cons, hrest]
          omega
        · rw [wordsVal_cons, wordsVal_cons, hsum, diagVal, ← hval]
          omega

/-! ## `big_mul` -/

/-- `big_mul` after it has put the larger factor first; `same` says that the two are equal. -/
def bigMulOrdered (impl : MulImpl) (alloc : Alloc) (result aa bb : BigNum) (same : Bool) :
    BigM BigNum := do
  let a := trimWords aa.value
  let b := trimWords bb.value
  let rsize := a.length + b.length
  let result ← bigExtend (alloc [0]) result rsize
  if a = [0#32] ∨ b = [0#32] then .ok { result with neg := false, value := [0#32] }
  else
    let neg := aa.neg ^^ bb.neg
    if a = [1#32] then .ok { result with neg := neg, value := b }
    else if b = [1#32] then .ok { result with neg := neg, value := a }
    else
      let tmp1 ← bigInit1 (alloc [1]) rsize (some bigTmpsize)
      let t :=
        if same ∧ a.length > 2 then sqrVec impl a
        else if b.length > 0 then mulVec impl a b
        else replicate rsize 0#32
      match t.getLast? with
      | none => .error .undefined
      | some top =>
        let t := if top = 0#32 then t.dropLast else t
        let result ← bigCopy (alloc [2]) result { tmp1 with value := t }
        .ok { result with neg := neg }

/-- `big_mul`, of different objects. -/
def bigMul (impl : MulImpl) (alloc : Alloc) (result aa bb : BigNum) : BigM BigNum :=
  match bigCmpAbs aa.value bb.value with
  | .lt => bigMulOrdered impl alloc result bb aa false
  | .eq => bigMulOrdered impl alloc result aa bb true
  | .gt => bigMulOrdered impl alloc result aa bb false

theorem BigNum.toInt_mul_signs (aa bb : BigNum) :
    (if aa.neg ^^ bb.neg then -((aa.abs * bb.abs : ℕ) : ℤ) else (aa.abs * bb.abs : ℕ))
      = aa.toInt * bb.toInt := by
  rw [BigNum.toInt, BigNum.toInt]
  cases aa.neg <;> cases bb.neg <;> simp

section Specs

variable {sure : Prop} {alloc : Alloc} (impl : MulImpl) (result : BigNum) {aa bb : BigNum}

/-- The words of the product, before leading zeros are cut off. -/
theorem product_words {b : List BigWord} (ha : a ≠ []) (hb : b ≠ []) {same : Bool}
    (hsame : same = true → wordsVal a = wordsVal b) :
    2 ≤ (if same = true ∧ a.length > 2 then sqrVec impl a
      else if b.length > 0 then mulVec impl a b else replicate (a.length + b.length) 0#32).length ∧
    wordsVal (if same = true ∧ a.length > 2 then sqrVec impl a
      else if b.length > 0 then mulVec impl a b else replicate (a.length + b.length) 0#32)
        = wordsVal a * wordsVal b := by
  split
  next h =>
    obtain ⟨hlen, hval⟩ := sqrVec_spec impl h.2.le
    refine ⟨by omega, ?_⟩
    rw [hval, hsame h.1]
  next =>
    have hpos := length_pos_iff.mpr hb
    have hapos := length_pos_iff.mpr ha
    obtain ⟨hlen, hval⟩ := mulVec_spec impl ha hb
    rw [if_pos hpos]
    exact ⟨by omega, hval⟩

/-- One zero word is cut off at the top. -/
theorem cut_top {t : List BigWord} (ht : 2 ≤ t.length) :
    ∃ top, t.getLast? = some top ∧ (if top = 0#32 then t.dropLast else t) ≠ [] ∧
      wordsVal (if top = 0#32 then t.dropLast else t) = wordsVal t := by
  have hne : t ≠ [] := ne_nil_of_length_pos (by omega)
  refine ⟨t.getLast hne, getLast?_eq_some_getLast hne, ?_, ?_⟩
  · split
    · refine ne_nil_of_length_pos ?_
      rw [length_dropLast]
      omega
    · exact hne
  · split
    next hzero =>
      have hval := limbVal_concat t.dropLast (t.getLast hne)
      rw [dropLast_concat_getLast, hzero] at hval
      simpa using hval.symm
    next => rfl

theorem runs_bigMulOrdered (halloc : sure → alloc.Good) (ha : aa.value ≠ []) (hb : bb.value ≠ [])
    {same : Bool} (hsame : same = true → aa.abs = bb.abs) :
    Runs sure (bigMulOrdered impl alloc result aa bb same) fun r =>
      r.toInt = aa.toInt * bb.toInt ∧ Tight r.value := by
  have ha' := tight_trimWords ha
  have hb' := tight_trimWords hb
  have hsame' : same = true → wordsVal (trimWords aa.value) = wordsVal (trimWords bb.value) := by
    rw [wordsVal_trimWords, wordsVal_trimWords]
    exact hsame
  have hproduct := product_words impl ha'.1 hb'.1 hsame'
  rw [wordsVal_trimWords, wordsVal_trimWords] at hproduct
  have habs (x : BigNum) : wordsVal (trimWords x.value) = x.abs := wordsVal_trimWords x.value
  rw [bigMulOrdered]
  refine (runs_bigExtend halloc [0] result _).bind fun number hnumber => ?_
  split
  next hzero =>
    refine ⟨?_, by simp [Tight]⟩
    have hprod : aa.abs * bb.abs = 0 := by
      rcases hzero with h | h
      · rw [← habs aa, h]
        simp
      · rw [← habs bb, h]
        simp
    rw [← BigNum.toInt_mul_signs, hprod]
    simp [BigNum.toInt, BigNum.abs]
  next =>
    simp only
    split
    next hone =>
      refine ⟨?_, hb'⟩
      rw [BigNum.toInt_mk, habs, ← BigNum.toInt_mul_signs, ← habs aa, hone]
      simp
    next =>
      split
      next hone =>
        refine ⟨?_, ha'⟩
        rw [BigNum.toInt_mk, habs, ← BigNum.toInt_mul_signs, ← habs bb, hone]
        simp
      next =>
        refine (runs_bigInit1 halloc [1] _ _).bind fun tmp1 htmp1 => ?_
        obtain ⟨top, htop, hne, hval⟩ := cut_top hproduct.1
        simp only [htop]
        refine (runs_bigCopy halloc [2] number _).bind ?_
        rintro r ⟨-, hwords, -⟩
        refine ⟨?_, ?_⟩
        · rw [BigNum.toInt_mk, hwords, wordsVal_trimWords, hval, hproduct.2,
            ← BigNum.toInt_mul_signs]
          rfl
        · rw [hwords]
          exact tight_trimWords hne

theorem runs_bigMul (halloc : sure → alloc.Good) (ha : aa.value ≠ []) (hb : bb.value ≠ []) :
    Runs sure (bigMul impl alloc result aa bb) fun r => r.toInt = aa.toInt * bb.toInt ∧
      Tight r.value := by
  have hfalse {p : Prop} : false = true → p := fun h => by cases h
  rw [bigMul, bigCmpAbs_eq]
  cases hcmp : compare (wordsVal aa.value) (wordsVal bb.value) with
  | lt =>
    refine (runs_bigMulOrdered impl result halloc hb ha hfalse).mono fun r hr => ?_
    rwa [Int.mul_comm]
  | eq =>
    refine runs_bigMulOrdered impl result halloc ha hb fun _ => ?_
    exact Nat.compare_eq_eq.mp hcmp
  | gt => exact runs_bigMulOrdered impl result halloc ha hb hfalse

end Specs

end Polaris
