import Polaris.Lib.Limbs

/-!
# Big numbers

The `BIGNUM` of `bignumimpl.c` and the routines that make, compare and copy one.  A number is the
list of its `len` words, the least significant first; leading zero words are allowed.  What lies in
the buffer above them is not kept.

An allocation succeeds or fails as an `Alloc` says, one answer for each allocation of a run: a
caller passes a part of its answers on to each routine it calls.

## Main definitions

* `BigNum`, `BigErr`, `BigM`, `Alloc`
* `Runs` — a run returns with a postcondition, or has run out of memory.
* `bigInit1`, `bigExtend`, `bigCopy`, `bigCmpAbs`
-/

namespace Polaris

open List BitVec

abbrev BigWord := BitVec 32

/-- The value of a list of 32-bit words. -/
abbrev wordsVal (words : List BigWord) : ℕ := limbVal words

structure BigNum where
  /-- How many words the buffer has room for. -/
  size : ℕ
  neg : Bool
  /-- The words in use; `len` is their number. -/
  value : List BigWord
  deriving DecidableEq, Repr

variable {words : List BigWord} {alloc : Alloc} {a : BigNum} {sure : Prop}

namespace BigNum

/-- The absolute value. -/
def abs (a : BigNum) : ℕ := wordsVal a.value

/-- The integer. -/
def toInt (a : BigNum) : ℤ := if a.neg then -(a.abs : ℤ) else a.abs

theorem toInt_of_pos (h : a.neg = false) : a.toInt = a.abs := by
  rw [toInt, h]
  rfl

theorem toInt_of_neg (h : a.neg = true) : a.toInt = -(a.abs : ℤ) := by
  rw [toInt, h]
  rfl

/-- The sign and the words of a number decide it. -/
theorem toInt_mk (size : ℕ) (neg : Bool) (value : List BigWord) :
    (BigNum.mk size neg value).toInt = if neg then -(wordsVal value : ℤ) else wordsVal value := rfl

theorem toInt_congr {b : BigNum} (hneg : a.neg = b.neg) (habs : a.abs = b.abs) :
    a.toInt = b.toInt := by
  rw [toInt, toInt, hneg, habs]

theorem natAbs_toInt (a : BigNum) : a.toInt.natAbs = a.abs := by
  rw [toInt]
  split
  · rw [Int.natAbs_neg, Int.natAbs_natCast]
  · exact Int.natAbs_natCast _

/-- A number that is not negative; zero may have any sign. -/
theorem toInt_of_nonneg (h : 0 ≤ a.toInt) : a.toInt = a.abs := by
  rw [← a.natAbs_toInt]
  exact (Int.natAbs_of_nonneg h).symm

end BigNum

/-- The error codes; success is a value. -/
inductive BigErr
  | noMem
  | invalidArgs
  | divBy0
  deriving DecidableEq, Repr

/-- Why a run does not return `BIG_OK`: it returns an error, or it reads outside an array or does
not end. -/
inductive BigStop
  | err (code : BigErr)
  | undefined
  deriving DecidableEq, Repr

abbrev BigM := Except BigStop

/-- Which allocations succeed; a path names one of a run. -/
abbrev Alloc := List ℕ → Bool

namespace Alloc

/-- The answers for the `k`th call. -/
def sub (alloc : Alloc) (k : ℕ) : Alloc := fun path => alloc (k :: path)

/-- No allocation fails. -/
def Good (alloc : Alloc) : Prop := ∀ path, alloc path = true

theorem Good.sub (h : alloc.Good) (k : ℕ) : (alloc.sub k).Good :=
  fun path => h (k :: path)

end Alloc

/-! ## Runs -/

/-- The run returns a value with the postcondition; or, unless `sure`, it has run out of memory. -/
def Runs {α : Type} (sure : Prop) (run : BigM α) (post : α → Prop) : Prop :=
  match run with
  | .ok a => post a
  | .error (.err .noMem) => ¬ sure
  | .error _ => False

namespace Runs

variable {α β : Type} {sure : Prop} {post : α → Prop}

variable {run : BigM α}

/-- How a run ends. -/
theorem cases (h : Runs sure run post) :
    (∃ a, run = .ok a ∧ post a) ∨ run = .error (.err .noMem) ∧ ¬ sure := by
  cases run with
  | ok a => exact .inl ⟨a, rfl, h⟩
  | error stop =>
    cases stop with
    | err code =>
      cases code with
      | noMem => exact .inr ⟨rfl, h⟩
      | _ => exact h.elim
    | undefined => exact h.elim

theorem bind {next : α → BigM β} {post' : β → Prop} (h : Runs sure run post)
    (hnext : ∀ a, post a → Runs sure (next a) post') : Runs sure (run >>= next) post' := by
  rcases h.cases with ⟨a, rfl, ha⟩ | ⟨rfl, hsure⟩
  · exact hnext a ha
  · exact hsure

theorem mono {post' : α → Prop} (h : Runs sure run post)
    (himp : ∀ a, post a → post' a) : Runs sure run post' := by
  rcases h.cases with ⟨a, rfl, ha⟩ | ⟨rfl, hsure⟩
  · exact himp a ha
  · exact hsure

theorem map {f : α → β} {post' : β → Prop} (h : Runs sure run post)
    (himp : ∀ a, post a → post' (f a)) : Runs sure (run.map f) post' := by
  rcases h.cases with ⟨a, rfl, ha⟩ | ⟨rfl, hsure⟩
  · exact himp a ha
  · exact hsure

theorem and {post' : α → Prop} (h : Runs sure run post) (h' : Runs sure run post') :
    Runs sure run fun a => post a ∧ post' a := by
  rcases h.cases with ⟨a, rfl, ha⟩ | ⟨rfl, hsure⟩
  · exact ⟨ha, h'⟩
  · exact hsure

/-- A run that is sure of its memory returns. -/
theorem returns (h : Runs sure run post) (hsure : sure) :
    ∃ a, run = .ok a ∧ post a :=
  h.cases.resolve_right fun hfail => hfail.2 hsure

end Runs

/-! ## Allocating -/

/-- `BIGTMPSIZE`. -/
def bigTmpsize : ℕ := 65

/-- `big_malloc`, for a number of `size` words. -/
def bigMalloc (succeeds : Bool) (size : ℕ) : BigM ℕ :=
  if succeeds then .ok size else .error (.err .noMem)

/-- `big_init1`: in the buffer of `bufsize` words if there is one and it is large enough. -/
def bigInit1 (succeeds : Bool) (size : ℕ) (buf : Option ℕ) : BigM BigNum :=
  match buf with
  | some bufsize =>
    if size > bufsize then (bigMalloc succeeds size).map fun size => ⟨size, false, []⟩
    else .ok ⟨bufsize, false, []⟩
  | none => (bigMalloc succeeds size).map fun size => ⟨size, false, []⟩

def bigExtend (succeeds : Bool) (number : BigNum) (size : ℕ) : BigM BigNum :=
  if number.size ≥ size then .ok number
  else (bigMalloc succeeds size).map fun size => { number with size := size }

theorem runs_bigMalloc (halloc : sure → alloc.Good) (path : List ℕ) (size : ℕ) {α : Type}
    (f : ℕ → α) :
    Runs sure ((bigMalloc (alloc path) size).map f) fun r => r = f size := by
  rw [bigMalloc]
  cases hpath : alloc path with
  | true => exact rfl
  | false =>
    intro hsure
    rw [halloc hsure path] at hpath
    cases hpath

theorem runs_bigInit1 (halloc : sure → alloc.Good) (path : List ℕ) (size : ℕ) (buf : Option ℕ) :
    Runs sure (bigInit1 (alloc path) size buf) fun r => r.neg = false ∧ r.value = [] ∧
      size ≤ r.size := by
  have hmalloc : Runs sure ((bigMalloc (alloc path) size).map fun size => BigNum.mk size false [])
      fun r => r.neg = false ∧ r.value = [] ∧ size ≤ r.size := by
    refine (runs_bigMalloc halloc path size _).mono ?_
    rintro r rfl
    exact ⟨rfl, rfl, le_rfl⟩
  cases buf with
  | none => exact hmalloc
  | some bufsize =>
    rw [bigInit1]
    split
    · exact hmalloc
    next hsize => exact ⟨rfl, rfl, not_lt.mp hsize⟩

theorem runs_bigExtend (halloc : sure → alloc.Good) (path : List ℕ) (number : BigNum) (size : ℕ) :
    Runs sure (bigExtend (alloc path) number size) fun r =>
      r.neg = number.neg ∧ r.value = number.value ∧ size ≤ r.size := by
  rw [bigExtend]
  split
  next hsize => exact ⟨rfl, rfl, hsize⟩
  next =>
    refine (runs_bigMalloc halloc path size _).mono ?_
    rintro r rfl
    exact ⟨rfl, rfl, le_rfl⟩

/-! ## Leading zeros -/

/-- `while ((len > 1) && (value[len - 1] == 0)) len--`, on the words from the highest one on. -/
def trimHigh : List BigWord → List BigWord
  | x :: y :: words => if x = 0#32 then trimHigh (y :: words) else x :: y :: words
  | words => words

def trimWords (words : List BigWord) : List BigWord :=
  (trimHigh words.reverse).reverse

/-- The number without leading zero words. -/
def BigNum.trim (a : BigNum) : BigNum :=
  { a with value := trimWords a.value }

theorem trimHigh_eq (words : List BigWord) :
    ∃ k, words = List.replicate k 0#32 ++ trimHigh words := by
  induction words with
  | nil => exact ⟨0, rfl⟩
  | cons x words ih =>
    cases words with
    | nil => exact ⟨0, rfl⟩
    | cons y words =>
      rw [trimHigh]
      split
      next hx =>
        obtain ⟨k, hk⟩ := ih
        exact ⟨k + 1, by rw [List.replicate_succ, List.cons_append, ← hk, hx]⟩
      next => exact ⟨0, rfl⟩

/-- Only leading zeros are cut off. -/
theorem trimWords_eq (words : List BigWord) :
    ∃ k, words = trimWords words ++ List.replicate k 0#32 := by
  obtain ⟨k, hk⟩ := trimHigh_eq words.reverse
  refine ⟨k, ?_⟩
  have := congrArg List.reverse hk
  rwa [List.reverse_reverse, List.reverse_append, List.reverse_replicate] at this

@[simp] theorem wordsVal_trimWords (words : List BigWord) :
    wordsVal (trimWords words) = wordsVal words := by
  obtain ⟨k, hk⟩ := trimWords_eq words
  conv_rhs => rw [hk, wordsVal, limbVal_append_zeros]

theorem length_trimWords_le (words : List BigWord) : (trimWords words).length ≤ words.length := by
  obtain ⟨k, hk⟩ := trimWords_eq words
  conv_rhs => rw [hk, length_append]
  exact Nat.le_add_right _ _

theorem trimHigh_ne_nil (h : words ≠ []) : trimHigh words ≠ [] := by
  induction words with
  | nil => exact absurd rfl h
  | cons x words ih =>
    cases words with
    | nil => exact h
    | cons y words =>
      rw [trimHigh]
      split
      · exact ih (by simp)
      · simp

theorem trimWords_ne_nil (h : words ≠ []) : trimWords words ≠ [] := by
  rw [trimWords, ne_eq, reverse_eq_nil_iff]
  exact trimHigh_ne_nil (by simpa using h)

theorem trimHigh_head (words : List BigWord) :
    (trimHigh words).length ≤ 1 ∨ (trimHigh words).head? ≠ some 0#32 := by
  induction words with
  | nil => exact .inl (Nat.zero_le _)
  | cons x words ih =>
    cases words with
    | nil => exact .inl le_rfl
    | cons y words =>
      rw [trimHigh]
      split
      next => exact ih
      next hx =>
        right
        simpa using hx

/-- There is one word, or the highest is not zero. -/
theorem getLast_trimWords (words : List BigWord) :
    (trimWords words).length ≤ 1 ∨ (trimWords words).getLast? ≠ some 0#32 := by
  rw [trimWords, length_reverse, getLast?_reverse]
  exact trimHigh_head words.reverse

/-- There are no more words than the value takes. -/
def Tight (words : List BigWord) : Prop :=
  words ≠ [] ∧ (words.length = 1 ∨ 2 ^ (32 * (words.length - 1)) ≤ wordsVal words)

theorem tight_trimWords (h : words ≠ []) : Tight (trimWords words) := by
  have hne := trimWords_ne_nil h
  refine ⟨hne, ?_⟩
  have hpos := length_pos_iff.mpr hne
  rcases getLast_trimWords words with hone | hlast
  · exact .inl (by omega)
  right
  rw [getLast?_eq_some_getLast hne, ne_eq, Option.some_inj] at hlast
  have htop : 0 < ((trimWords words).getLast hne).toNat :=
    Nat.pos_of_ne_zero fun h0 => hlast (eq_of_toNat_eq h0)
  have hval := limbVal_concat (trimWords words).dropLast ((trimWords words).getLast hne)
  rw [dropLast_concat_getLast, length_dropLast] at hval
  rw [wordsVal, hval]
  calc 2 ^ (32 * ((trimWords words).length - 1))
      ≤ 2 ^ (32 * ((trimWords words).length - 1)) * ((trimWords words).getLast hne).toNat :=
        Nat.le_mul_of_pos_right _ htop
    _ ≤ _ := Nat.le_add_left _ _

theorem Tight.length_le (h : Tight words) {n : ℕ} (hn : 1 ≤ n)
    (hlt : wordsVal words < 2 ^ (32 * n)) :
    words.length ≤ n := by
  rcases h.2 with hone | hle
  · omega
  · have hpow := (Nat.pow_lt_pow_iff_right (by decide : 1 < 2)).mp (hle.trans_lt hlt)
    omega

theorem Tight.trimWords_eq (h : Tight words) : trimWords words = words := by
  have hpos := length_pos_iff.mpr (trimWords_ne_nil h.1)
  have hle : words.length ≤ (trimWords words).length := by
    refine h.length_le hpos ?_
    have hlt := limbVal_lt (trimWords words)
    rwa [← wordsVal, wordsVal_trimWords] at hlt
  refine limbVal_injective (Nat.le_antisymm (length_trimWords_le words) hle) ?_
  exact wordsVal_trimWords words

def bigIsZero (n : BigNum) : Bool := n.value.all fun x => x = 0#32

theorem bigIsZero_iff (n : BigNum) : bigIsZero n = true ↔ n.abs = 0 := by
  rw [bigIsZero, all_eq_true, BigNum.abs, wordsVal, limbVal_eq_zero_iff]
  simp only [decide_eq_true_eq]

/-- `One`. -/
def bigOne : BigNum := ⟨1, false, [1#32]⟩

theorem tight_bigOne : Tight bigOne.value := ⟨nofun, .inl rfl⟩

theorem abs_bigOne : bigOne.abs = 1 := rfl

/-! ## Comparing -/

/-- Compares words of one length from the highest one on. -/
def cmpHigh : List BigWord → List BigWord → Ordering
  | a :: as, b :: bs => if a > b then .gt else if a < b then .lt else cmpHigh as bs
  | _, _ => .eq

/-- `big_cmp_abs`; `.gt` is 1, `.lt` is -1. -/
def bigCmpAbs (aa bb : List BigWord) : Ordering :=
  if aa.length > bb.length then
    if (aa.drop bb.length).reverse.any fun x => x > 0#32 then .gt
    else cmpHigh (aa.take bb.length).reverse bb.reverse
  else if aa.length < bb.length then
    if (bb.drop aa.length).reverse.any fun x => x > 0#32 then .lt
    else cmpHigh aa.reverse (bb.take aa.length).reverse
  else cmpHigh aa.reverse bb.reverse

theorem cmpHigh_eq (as bs : List BigWord) (hlen : as.length = bs.length) :
    cmpHigh as bs = compare (wordsVal as.reverse) (wordsVal bs.reverse) := by
  induction as generalizing bs with
  | nil =>
    cases bs with
    | nil => rfl
    | cons b bs => cases hlen
  | cons a as ih =>
    cases bs with
    | nil => cases hlen
    | cons b bs =>
      have hlen' : as.length = bs.length := by simpa using hlen
      have ha := limbVal_lt as.reverse
      have hb := limbVal_lt bs.reverse
      rw [length_reverse] at ha hb
      rw [cmpHigh, reverse_cons, reverse_cons, wordsVal, wordsVal, limbVal_concat,
        limbVal_concat, length_reverse, length_reverse, hlen']
      rw [hlen'] at ha
      generalize 2 ^ (32 * bs.length) = p at ha hb ⊢
      by_cases hgt : b.toNat < a.toNat
      · rw [if_pos (lt_def.mpr hgt)]
        have hmul : p * (b.toNat + 1) ≤ p * a.toNat := Nat.mul_le_mul_left p hgt
        rw [Nat.mul_add, Nat.mul_one] at hmul
        exact (Nat.compare_eq_gt.mpr (by omega)).symm
      rw [if_neg fun h => hgt (lt_def.mp h)]
      by_cases hlt : a.toNat < b.toNat
      · rw [if_pos (lt_def.mpr hlt)]
        have hmul : p * (a.toNat + 1) ≤ p * b.toNat := Nat.mul_le_mul_left p hlt
        rw [Nat.mul_add, Nat.mul_one] at hmul
        exact (Nat.compare_eq_lt.mpr (by omega)).symm
      · have heq : a.toNat = b.toNat := by omega
        rw [if_neg fun h => hlt (lt_def.mp h), ih bs hlen', heq, wordsVal, wordsVal]
        rcases Nat.lt_trichotomy (limbVal as.reverse) (limbVal bs.reverse) with h | h | h
        · rw [Nat.compare_eq_lt.mpr h, Nat.compare_eq_lt.mpr (by omega)]
        · rw [h, Nat.compare_eq_eq.mpr rfl, Nat.compare_eq_eq.mpr rfl]
        · rw [Nat.compare_eq_gt.mpr h, Nat.compare_eq_gt.mpr (by omega)]

theorem any_pos_iff (words : List BigWord) :
    (words.reverse.any fun x => x > 0#32) = true ↔ 0 < wordsVal words := by
  rw [Nat.pos_iff_ne_zero, ne_eq, wordsVal, limbVal_eq_zero_iff, any_eq_true]
  simp only [mem_reverse, not_forall, decide_eq_true_eq]
  constructor
  · rintro ⟨x, hx, hpos⟩
    refine ⟨x, hx, ?_⟩
    rintro rfl
    exact absurd hpos (by decide)
  · rintro ⟨x, hx, hne⟩
    refine ⟨x, hx, ?_⟩
    have hto : x.toNat ≠ 0 := by
      intro h0
      exact hne (eq_of_toNat_eq h0)
    exact lt_def.mpr (Nat.pos_of_ne_zero hto)

/-- Words that are zero above the length of the other number do not count. -/
theorem wordsVal_take {n : ℕ} (hn : n ≤ words.length)
    (h : ¬ (words.drop n).reverse.any fun x => x > 0#32) :
    wordsVal (words.take n) = wordsVal words := by
  have hzero : wordsVal (words.drop n) = 0 := by
    rw [any_pos_iff] at h
    omega
  have := limbVal_take_add_drop words hn
  rw [wordsVal] at hzero ⊢
  rwa [hzero, Nat.mul_zero, Nat.add_zero] at this

theorem wordsVal_lt_of_drop {words' : List BigWord} (hn : words'.length ≤ words.length)
    (h : (words.drop words'.length).reverse.any fun x => x > 0#32) :
    wordsVal words' < wordsVal words := by
  have hpos := (any_pos_iff _).mp h
  have hlt := limbVal_lt words'
  have hsplit := limbVal_take_add_drop words hn
  have hle : 2 ^ (32 * words'.length) * 1
      ≤ 2 ^ (32 * words'.length) * limbVal (words.drop words'.length) :=
    Nat.mul_le_mul_left _ hpos
  rw [wordsVal, wordsVal]
  omega

theorem bigCmpAbs_eq (aa bb : List BigWord) :
    bigCmpAbs aa bb = compare (wordsVal aa) (wordsVal bb) := by
  rw [bigCmpAbs]
  by_cases hgt : aa.length > bb.length
  · rw [if_pos hgt]
    split
    next h => exact (Nat.compare_eq_gt.mpr (wordsVal_lt_of_drop hgt.le h)).symm
    next h =>
      rw [cmpHigh_eq _ _ (by simp; omega), reverse_reverse, reverse_reverse,
        wordsVal_take hgt.le h]
  · rw [if_neg hgt]
    by_cases hlt : aa.length < bb.length
    · rw [if_pos hlt]
      split
      next h => exact (Nat.compare_eq_lt.mpr (wordsVal_lt_of_drop hlt.le h)).symm
      next h =>
        rw [cmpHigh_eq _ _ (by simp; omega), reverse_reverse, reverse_reverse,
          wordsVal_take hlt.le h]
    · rw [if_neg hlt, cmpHigh_eq _ _ (by simp; omega), reverse_reverse, reverse_reverse]

/-! ## Copying -/

/-- `big_copy`.  It also leaves `src` trimmed. -/
def bigCopy (succeeds : Bool) (dest src : BigNum) : BigM BigNum :=
  let words := trimWords src.value
  if dest.size < words.length then
    (bigMalloc succeeds words.length).map fun size => ⟨size, src.neg, words⟩
  else .ok ⟨dest.size, src.neg, words⟩

theorem runs_bigCopy (halloc : sure → alloc.Good) (path : List ℕ) (dest src : BigNum) :
    Runs sure (bigCopy (alloc path) dest src) fun r =>
      r.neg = src.neg ∧ r.value = trimWords src.value ∧ dest.size ≤ r.size := by
  rw [bigCopy]
  split
  next hsize =>
    refine (runs_bigMalloc halloc path _ _).mono ?_
    rintro r rfl
    exact ⟨rfl, rfl, hsize.le⟩
  next => exact ⟨rfl, rfl, le_rfl⟩

end Polaris
