import Mathlib.Data.Int.Lemmas
import Polaris.Bignum.Alias
import Polaris.Bignum.Div

/-!
# The extended greatest common divisor

`big_ext_gcd_pos` keeps two pairs of coefficients, one step behind the quotient it has just found,
and starts from values that make the first round right.  A new coefficient is subtracted into the
older one of its pair; the signs of a pair alternate, so nothing cancels and the older one is never
longer than the product that is taken from it.

## Main definitions

* `bigExtGcdPos`
* `Chain` — what is known of a pair of coefficients.
* `GcdInv` — the invariant of the loop.

## Main results

* `bigExtGcdPos_exact`
-/

namespace Polaris

open List BigNum

/-- `big_div_pos` with both results wanted. -/
def bigDivBoth (alloc : Alloc) (result remainder aa bb : BigNum) : BigM (BigNum × BigNum) :=
  (bigDivPos alloc (some result) (some remainder) aa bb).map fun r => (r.1.getD result,
    r.2.getD remainder)

/-- The objects of `big_ext_gcd_pos`, under the names of the pointers to them. -/
structure GcdState where
  xi : BigNum
  ri : BigNum
  riminus1 : BigNum
  riminus2 : BigNum
  vmi : BigNum
  vmiminus1 : BigNum
  vei : BigNum
  veiminus1 : BigNum
  tmp : BigNum

/-- A round of the loop.  The products leave their operands trimmed. -/
def gcdStep (impl : MulImpl) (alloc : Alloc) (s : GcdState) : BigM GcdState := do
  let riminus2 := s.riminus1
  let riminus1 := s.ri
  let tmp ← bigMul impl (alloc.sub 0) s.tmp s.vmi s.xi
  let vmi ← bigSubInto (alloc [1]) s.vmiminus1 tmp
  let tmp ← bigMul impl (alloc.sub 2) tmp s.vei s.xi.trim
  let vei ← bigSubInto (alloc [3]) s.veiminus1 tmp
  let quotient ← bigDivBoth (alloc.sub 4) s.xi.trim s.riminus2 riminus2 riminus1
  .ok
    { xi := quotient.1
      ri := quotient.2
      riminus1 := riminus1.trim
      riminus2 := riminus2.trim
      vmi := vmi
      vmiminus1 := s.vmi.trim
      vei := vei
      veiminus1 := s.vei.trim
      tmp := tmp }

/-- `while (!big_is_zero(ri))`. -/
def gcdLoop (impl : MulImpl) (alloc : Alloc) : ℕ → GcdState → BigM GcdState
  | 0, _ => .error .undefined
  | fuel + 1, s =>
    if bigIsZero s.ri then .ok s
    else do
      let s ← gcdStep impl (alloc.sub fuel) s
      gcdLoop impl alloc fuel s

/-- The numbers before the loop.  There is room for what is copied here, so that the results of the
copies, which are not looked at, are known. -/
def gcdStart (alloc : Alloc) (m e : BigNum) : BigM GcdState := do
  let len := if bigCmpAbs m.value e.value ≠ .lt then m.value.length else e.value.length
  let t1 ← bigInit1 (alloc [0]) len (some bigTmpsize)
  let t2 ← bigInit1 (alloc [1]) len (some bigTmpsize)
  let t3 ← bigInit1 (alloc [2]) len (some bigTmpsize)
  let t4 ← bigInit1 (alloc [3]) len (some bigTmpsize)
  let t5 ← bigInit1 (alloc [4]) len (some bigTmpsize)
  let t6 ← bigInit1 (alloc [5]) len (some bigTmpsize)
  let t7 ← bigInit1 (alloc [6]) len (some bigTmpsize)
  let t8 ← bigInit1 (alloc [7]) len (some bigTmpsize)
  let tmp ← bigInit1 (alloc [8]) (2 * len) (some bigTmpsize)
  let vmiminus1 ← bigCopy (alloc [9]) t7 bigOne
  let vmi ← bigCopy (alloc [10]) t5 bigOne
  let veiminus1 ← bigCopy (alloc [11]) t8 bigOne
  let xi ← bigCopy (alloc [12]) t2 bigOne
  let riminus1 ← bigCopy (alloc [13]) t3 m
  let ri ← bigCopy (alloc [14]) { t1 with value := [1#32] } e
  .ok
    { xi := xi
      ri := ri
      riminus1 := riminus1
      riminus2 := t4
      vmi := vmi
      vmiminus1 := vmiminus1
      vei := { t6 with value := [0#32] }
      veiminus1 := veiminus1
      tmp := tmp }

/-- `big_ext_gcd_pos`: the divisor and the coefficients of `m` and `e`, those that are wanted. -/
def bigExtGcdPos (impl : MulImpl) (alloc : Alloc) (fuel : ℕ) (gcd cm ce : Option BigNum)
    (m e : BigNum) :
    BigM (Option BigNum × Option BigNum × Option BigNum) := do
  let s ← gcdStart (alloc.sub 0) m e
  let s ← gcdLoop impl (alloc.sub 1) fuel s
  let gcd ← bigCopyTo (alloc [2]) gcd s.riminus1
  let cm ← bigCopyTo (alloc [3]) cm s.vmi
  let ce ← bigCopyTo (alloc [4]) ce s.vei
  .ok (gcd, cm, ce)

section Specs

variable {sure : Prop} {alloc : Alloc}

theorem runs_bigDivBoth (halloc : sure → alloc.Good) {result : BigNum} (remainder : BigNum)
    {aa bb : BigNum}
    (hresult : 0 < result.size) (ha : aa.value ≠ []) (hb : bb.value ≠ []) (hpos : 0 < bb.abs) :
    Runs sure (bigDivBoth alloc result remainder aa bb) fun r =>
      (r.1.neg = false ∧ r.1.abs = aa.abs / bb.abs ∧ Tight r.1.value ∧ 0 < r.1.size) ∧
        r.2.neg = aa.neg ∧ r.2.abs = aa.abs % bb.abs ∧ Tight r.2.value := by
  have hsize : ∀ r ∈ some result, 0 < r.size := by
    intro r hr
    cases hr
    exact hresult
  refine (runs_bigDivPos halloc (some remainder) hsize ha hb hpos).map ?_
  rintro ⟨q, x⟩ ⟨⟨hqsome, hq⟩, hxsome, hx⟩
  obtain ⟨q, rfl⟩ := Option.isSome_iff_exists.mp hqsome
  obtain ⟨x, rfl⟩ := Option.isSome_iff_exists.mp hxsome
  exact ⟨hq q rfl, hx x rfl⟩

theorem runs_bigSubInto (halloc : sure → alloc.Good) (path : List ℕ) {aa bb : BigNum}
    (ha : Tight aa.value)
    (hb : Tight bb.value) (hlen : aa.neg ≠ bb.neg → aa.value.length ≤ bb.value.length)
    (hcancel : aa.neg = bb.neg →
      aa.abs = 0 ∨ bb.abs = 0 ∨ aa.value.length = 1 ∧ bb.value.length = 1) :
    Runs sure (bigSubInto (alloc path) aa bb) fun r =>
      r.toInt = aa.toInt - bb.toInt ∧ Tight r.value := by
  have hlive : ¬ (aa.neg ≠ bb.neg ∧ bb.value.length < aa.value.length ∧
      aa.size < aa.value.length + 1) := by
    rintro ⟨hneg, hlt, -⟩
    have := hlen hneg
    omega
  rw [bigSubInto, if_neg hlive]
  exact (runs_bigSub halloc path aa aa bb).and
    (runs_bigSub_tight halloc path aa aa bb ha hb hcancel)

end Specs

/-! ## A pair of coefficients -/

/-- The older coefficient `u`, the newer one `v` and the quotient found last.  The signs alternate,
except at the start. -/
structure Chain (u v : BigNum) (q : ℕ) : Prop where
  tight_old : Tight u.value
  tight_new : Tight v.value
  signs : u.toInt * v.toInt ≤ 0 ∨ u.toInt = 1 ∧ v.toInt = 1 ∧ q = 1
  bound : u.abs ≤ max 1 (q * v.abs)
  small : q = 0 → v.abs ≤ 1

theorem Tight.trim_eq {a : BigNum} (h : Tight a.value) : a.trim = a := by
  rw [trim, h.trimWords_eq]

theorem Tight.length_one {a : BigNum} (h : Tight a.value) (habs : a.abs ≤ 1) :
    a.value.length = 1 := by
  have hle : a.value.length ≤ 1 := h.length_le (Nat.le_refl 1) (habs.trans_lt (by decide))
  have hpos := length_pos_iff.mpr h.1
  omega

/-- Numbers of one sign, neither of them zero. -/
theorem BigNum.mul_toInt_pos {a b : BigNum} (h : a.neg = b.neg) (ha : a.abs ≠ 0) (hb : b.abs ≠ 0) :
    0 < a.toInt * b.toInt := by
  have hpos : 0 < (a.abs : ℤ) * b.abs := by
    exact_mod_cast Nat.mul_pos (Nat.pos_of_ne_zero ha) (Nat.pos_of_ne_zero hb)
  cases hn : a.neg with
  | false => rwa [toInt_of_pos hn, toInt_of_pos (h.symm.trans hn)]
  | true => rwa [toInt_of_neg hn, toInt_of_neg (h.symm.trans hn), neg_mul_neg]

theorem BigNum.abs_product {t v : BigNum} {q : ℕ} (ht : t.toInt = v.toInt * q) :
    t.abs = q * v.abs := by
  rw [← t.natAbs_toInt, ht, Int.natAbs_mul, v.natAbs_toInt, Int.natAbs_natCast, Nat.mul_comm]

/-- The new coefficient is not below the part of it that the quotient brings. -/
theorem BigNum.le_abs_sub {u v w : BigNum} {q : ℕ} (hw : w.toInt = u.toInt - q * v.toInt)
    (hsigns : u.toInt * v.toInt ≤ 0) :
    q * v.abs ≤ w.abs := by
  rw [← v.natAbs_toInt, ← w.natAbs_toInt, ← Int.natAbs_natCast q, ← Int.natAbs_mul,
    Int.natAbs_le_iff_sq_le, hw]
  have hq : (0 : ℤ) ≤ q := Int.natCast_nonneg q
  nlinarith [mul_nonneg hq (neg_nonneg.mpr hsigns), sq_nonneg u.toInt]

namespace Chain

variable {u v t w : BigNum} {q : ℕ} (h : Chain u v q)

include h

/-- The older coefficient is not longer than the product. -/
theorem length_le (ht : t.toInt = v.toInt * q) (htight : Tight t.value) :
    u.value.length ≤ t.value.length := by
  have hpos := length_pos_iff.mpr htight.1
  refine h.tight_old.length_le hpos ?_
  have habs : t.abs < 2 ^ (32 * t.value.length) := limbVal_lt t.value
  have hone : 1 < 2 ^ (32 * t.value.length) := Nat.one_lt_two_pow (by omega)
  have hbound : wordsVal u.value ≤ max 1 (q * v.abs) := h.bound
  rw [abs_product ht] at habs
  omega

theorem no_cancel (ht : t.toInt = v.toInt * q) (htight : Tight t.value) (hneg : u.neg = t.neg) :
    u.abs = 0 ∨ t.abs = 0 ∨ u.value.length = 1 ∧ t.value.length = 1 := by
  rcases h.signs with hsigns | ⟨hu, hv, hq⟩
  · by_cases hu : u.abs = 0
    · exact .inl hu
    by_cases ht0 : t.abs = 0
    · exact .inr (.inl ht0)
    have hpos := mul_toInt_pos hneg hu ht0
    rw [ht] at hpos
    nlinarith
  · right
    right
    refine ⟨h.tight_old.length_one ?_, htight.length_one ?_⟩
    · rw [← u.natAbs_toInt, hu]
      decide
    · rw [← t.natAbs_toInt, ht, hv, hq]
      decide

theorem runs_sub {sure : Prop} {alloc : Alloc} (halloc : sure → alloc.Good) (path : List ℕ)
    (ht : t.toInt = v.toInt * q) (htight : Tight t.value) :
    Runs sure (bigSubInto (alloc path) u t) fun w => w.toInt = u.toInt - q * v.toInt ∧
      Tight w.value := by
  have hrun := runs_bigSubInto halloc path h.tight_old htight
    (fun _ => h.length_le ht htight) (h.no_cancel ht htight)
  refine hrun.mono ?_
  rintro w ⟨hw, hwt⟩
  refine ⟨?_, hwt⟩
  rw [hw, ht]
  ring

/-- The pair of the next round. -/
theorem next (hw : w.toInt = u.toInt - q * v.toInt) (htight : Tight w.value) {q' : ℕ}
    (hsmall : q' = 0 → v.abs ≤ 1 ∧ w.abs ≤ 1) : Chain v w q' := by
  have hq : (0 : ℤ) ≤ q := Int.natCast_nonneg q
  refine ⟨h.tight_new, htight, .inl ?_, ?_, fun h0 => (hsmall h0).2⟩
  · rw [hw]
    rcases h.signs with hsigns | ⟨hu, hv, hq1⟩
    · nlinarith [mul_nonneg hq (sq_nonneg v.toInt)]
    · rw [hu, hv, hq1]
      decide
  · rcases Nat.eq_zero_or_pos q' with h0 | hq'
    · exact Nat.le_trans (hsmall h0).1 (Nat.le_max_left _ _)
    rcases h.signs with hsigns | ⟨-, hv, -⟩
    · rcases Nat.eq_zero_or_pos q with h0 | hqpos
      · exact Nat.le_trans (h.small h0) (Nat.le_max_left _ _)
      · calc v.abs ≤ q * v.abs := Nat.le_mul_of_pos_left _ hqpos
          _ ≤ w.abs := le_abs_sub hw hsigns
          _ ≤ q' * w.abs := Nat.le_mul_of_pos_left _ hq'
          _ ≤ max 1 (q' * w.abs) := Nat.le_max_right _ _
    · rw [← v.natAbs_toInt, hv]
      exact Nat.le_max_left _ _

end Chain

/-! ## The loop -/

/-- The state of the loop for `m` and `e`.  At the start there is no quotient yet, and its place is
taken by values that leave the coefficients of `m` and of `e` behind. -/
structure GcdInv (m e : ℕ) (s : GcdState) : Prop where
  chain_m : Chain s.vmiminus1 s.vmi s.xi.abs
  chain_e : Chain s.veiminus1 s.vei s.xi.abs
  xi_pos : s.xi.neg = false
  xi_tight : Tight s.xi.value
  xi_size : 0 < s.xi.size
  last : (s.riminus1.abs : ℤ) = s.vmi.toInt * m + s.vei.toInt * e
  next : (s.ri.abs : ℤ) = (s.vmiminus1.toInt - s.xi.abs * s.vmi.toInt) * m
    + (s.veiminus1.toInt - s.xi.abs * s.vei.toInt) * e
  gcd_eq : Nat.gcd s.riminus1.abs s.ri.abs = Nat.gcd m e
  last_nonneg : s.riminus1.toInt = s.riminus1.abs
  next_nonneg : s.ri.toInt = s.ri.abs
  last_tight : Tight s.riminus1.value
  next_tight : Tight s.ri.value
  order : s.ri.abs < s.riminus1.abs ∨ s.vmiminus1.toInt = 1 ∧ s.vmi.toInt = 1 ∧
    s.veiminus1.toInt = 1 ∧
    s.vei.toInt = 0 ∧ s.xi.abs = 1

section Loop

variable {sure : Prop} {alloc : Alloc} (impl : MulImpl) {m e : ℕ} {s : GcdState}

section

variable (halloc : sure → alloc.Good)

include halloc

theorem GcdInv.runs_product (h : GcdInv m e s) (tmp : BigNum) {v : BigNum} (hv : Tight v.value) :
    Runs sure (bigMul impl alloc tmp v s.xi) fun t => t.toInt = v.toInt * s.xi.abs ∧
      Tight t.value := by
  rw [← toInt_of_pos h.xi_pos]
  exact runs_bigMul impl tmp halloc hv.1 h.xi_tight.1

theorem GcdInv.runs_step (h : GcdInv m e s) (hpos : 0 < s.ri.abs) :
    Runs sure (gcdStep impl alloc s) fun s' => GcdInv m e s' ∧ s'.ri.abs < s.ri.abs := by
  rw [gcdStep, h.xi_tight.trim_eq, h.chain_m.tight_new.trim_eq, h.chain_e.tight_new.trim_eq,
    h.last_tight.trim_eq, h.next_tight.trim_eq]
  have hsub (k : ℕ) : sure → (alloc.sub k).Good := fun hsure => (halloc hsure).sub k
  refine (h.runs_product impl (hsub 0) s.tmp h.chain_m.tight_new).bind ?_
  rintro t ⟨ht, htt⟩
  refine (h.chain_m.runs_sub halloc [1] ht htt).bind ?_
  rintro vm ⟨hvm, hvmt⟩
  refine (h.runs_product impl (hsub 2) t h.chain_e.tight_new).bind ?_
  rintro t' ⟨ht', htt'⟩
  refine (h.chain_e.runs_sub halloc [3] ht' htt').bind ?_
  rintro ve ⟨hve, hvet⟩
  refine (runs_bigDivBoth (hsub 4) s.riminus2 h.xi_size h.last_tight.1 h.next_tight.1 hpos).bind ?_
  rintro ⟨q, r⟩ ⟨⟨hqneg, hq, hqt, hqs⟩, hrneg, hr, hrt⟩
  simp only at hqneg hq hqt hqs hrneg hr hrt
  -- only the first quotient can be zero
  have hfirst : q.abs = 0 → (s.vmi.abs ≤ 1 ∧ vm.abs ≤ 1) ∧ s.vei.abs ≤ 1 ∧ ve.abs ≤ 1 := by
    intro h0
    rw [hq] at h0
    rcases h.order with hlt | ⟨hum, hvm1, hue, hve0, hxi⟩
    · have := Nat.div_pos hlt.le hpos
      omega
    · rw [hum, hvm1, hxi] at hvm
      rw [hue, hve0, hxi] at hve
      rw [← s.vmi.natAbs_toInt, ← vm.natAbs_toInt, ← s.vei.natAbs_toInt, ← ve.natAbs_toInt, hvm1,
        hve0, hvm, hve]
      decide
  have hrlt : r.abs < s.ri.abs := by
    rw [hr]
    exact Nat.mod_lt _ hpos
  have hrval : (r.abs : ℤ) = s.riminus1.abs - q.abs * s.ri.abs := by
    have hdiv := Nat.div_add_mod s.riminus1.abs s.ri.abs
    rw [← hq, ← hr] at hdiv
    rw [← hdiv]
    push_cast
    ring
  refine ⟨?_, hrlt⟩
  constructor
  case chain_m => exact h.chain_m.next hvm hvmt fun h0 => (hfirst h0).1
  case chain_e => exact h.chain_e.next hve hvet fun h0 => (hfirst h0).2
  case xi_pos => exact hqneg
  case xi_tight => exact hqt
  case xi_size => exact hqs
  case last =>
    change (s.ri.abs : ℤ) = vm.toInt * m + ve.toInt * e
    rw [hvm, hve]
    exact h.next
  case next =>
    change (r.abs : ℤ) = (s.vmi.toInt - q.abs * vm.toInt) * m + (s.vei.toInt - q.abs * ve.toInt) * e
    rw [hrval, h.last, h.next, hvm, hve]
    ring
  case gcd_eq =>
    change Nat.gcd s.ri.abs r.abs = Nat.gcd m e
    rw [hr, ← h.gcd_eq, Nat.gcd_comm s.riminus1.abs, Nat.gcd_rec s.ri.abs s.riminus1.abs,
      Nat.gcd_comm]
  case last_nonneg => exact h.next_nonneg
  case next_nonneg =>
    change r.toInt = r.abs
    cases hneg : r.neg with
    | false => exact toInt_of_pos hneg
    | true =>
      -- the sign of a zero
      have hlast := h.last_nonneg
      rw [toInt_of_neg (hrneg.symm.trans hneg)] at hlast
      have hzero : s.riminus1.abs = 0 := by omega
      rw [hzero, Nat.zero_mod] at hr
      rw [toInt_of_neg hneg, hr]
      rfl
  case last_tight => exact h.next_tight
  case next_tight => exact hrt
  case order => exact .inl hrlt

theorem GcdInv.runs_loop (fuel : ℕ) (h : GcdInv m e s) (hfuel : s.ri.abs < fuel) :
    Runs sure (gcdLoop impl alloc fuel s) fun s' => GcdInv m e s' ∧ s'.ri.abs = 0 := by
  induction fuel generalizing s with
  | zero => exact absurd hfuel (Nat.not_lt_zero _)
  | succ fuel ih =>
    rw [gcdLoop]
    by_cases hzero : bigIsZero s.ri = true
    · rw [if_pos hzero]
      exact ⟨h, (bigIsZero_iff _).mp hzero⟩
    rw [if_neg hzero]
    have hpos := Nat.pos_of_ne_zero fun h0 => hzero ((bigIsZero_iff _).mpr h0)
    refine (h.runs_step impl (fun hsure => (halloc hsure).sub fuel) hpos).bind ?_
    rintro s' ⟨hs', hlt⟩
    exact ih hs' (by omega)

/-- The copies at the start. -/
theorem runs_bigCopy_nonneg (k : ℕ) (t : BigNum) {x : BigNum} (hx : x.value ≠ [])
    (hx0 : 0 ≤ x.toInt) :
    Runs sure (bigCopy (alloc [k]) t x) fun r =>
      r.abs = x.abs ∧ r.toInt = r.abs ∧ r.neg = x.neg ∧ Tight r.value ∧ t.size ≤ r.size := by
  refine (runs_bigCopy halloc [k] t x).mono ?_
  rintro r ⟨hneg, hval, hsize⟩
  have habs : r.abs = x.abs := by
    rw [BigNum.abs, hval, wordsVal_trimWords]
    rfl
  refine ⟨habs, ?_, hneg, ?_, hsize⟩
  · rw [toInt_congr hneg habs, habs]
    exact toInt_of_nonneg hx0
  · rw [hval]
    exact tight_trimWords hx

theorem runs_gcdStart {m e : BigNum} (hm : m.value ≠ []) (he : e.value ≠ [])
    (hm0 : 0 ≤ m.toInt) (he0 : 0 ≤ e.toInt) :
    Runs sure (gcdStart alloc m e) fun s => GcdInv m.abs e.abs s ∧ s.ri.abs = e.abs := by
  have hone (k : ℕ) (t : BigNum) : Runs sure (bigCopy (alloc [k]) t bigOne) fun r =>
      r.abs = 1 ∧ r.toInt = 1 ∧ r.neg = false ∧ Tight r.value ∧ t.size ≤ r.size := by
    refine (runs_bigCopy_nonneg halloc k t tight_bigOne.1 (by decide)).mono ?_
    rintro r ⟨habs, hint, hneg, htight, hsize⟩
    rw [habs, abs_bigOne] at hint
    exact ⟨habs, hint, hneg, htight, hsize⟩
  have hmpos := length_pos_iff.mpr hm
  have hepos := length_pos_iff.mpr he
  rw [gcdStart]
  have hlen : 0 < if bigCmpAbs m.value e.value ≠ .lt then m.value.length else e.value.length := by
    split
    · exact hmpos
    · exact hepos
  generalize (if bigCmpAbs m.value e.value ≠ .lt then m.value.length else e.value.length)
    = len at hlen
  refine (runs_bigInit1 halloc [0] len _).bind fun t1 _ => ?_
  refine (runs_bigInit1 halloc [1] len _).bind fun t2 ht2 => ?_
  refine (runs_bigInit1 halloc [2] len _).bind fun t3 _ => ?_
  refine (runs_bigInit1 halloc [3] len _).bind fun t4 _ => ?_
  refine (runs_bigInit1 halloc [4] len _).bind fun t5 _ => ?_
  refine (runs_bigInit1 halloc [5] len _).bind fun t6 ht6 => ?_
  refine (runs_bigInit1 halloc [6] len _).bind fun t7 _ => ?_
  refine (runs_bigInit1 halloc [7] len _).bind fun t8 _ => ?_
  refine (runs_bigInit1 halloc [8] (2 * len) _).bind fun tmp _ => ?_
  refine (hone 9 t7).bind ?_
  rintro um ⟨humabs, hum, -, humt, -⟩
  refine (hone 10 t5).bind ?_
  rintro vm ⟨hvmabs, hvm, -, hvmt, -⟩
  refine (hone 11 t8).bind ?_
  rintro ue ⟨hueabs, hue, -, huet, -⟩
  refine (hone 12 t2).bind ?_
  rintro xi ⟨hxiabs, -, hxineg, hxit, hxis⟩
  refine (runs_bigCopy_nonneg halloc 13 t3 hm hm0).bind ?_
  rintro r1 ⟨hr1abs, hr1, -, hr1t, -⟩
  refine (runs_bigCopy_nonneg halloc 14 _ he he0).bind ?_
  rintro r0 ⟨hr0abs, hr0, -, hr0t, -⟩
  have hve : toInt { t6 with value := [0#32] } = 0 := by
    rw [toInt, ht6.1]
    rfl
  have hvet : Tight [0#32] := ⟨cons_ne_nil _ _, .inl rfl⟩
  refine ⟨?_, hr0abs⟩
  constructor
  case chain_m =>
    refine ⟨humt, hvmt, .inr ⟨hum, hvm, hxiabs⟩, ?_, ?_⟩
    · rw [humabs]
      exact Nat.le_max_left _ _
    · intro _
      exact Nat.le_of_eq hvmabs
  case chain_e =>
    refine ⟨huet, hvet, .inl ?_, ?_, ?_⟩
    · rw [hve, mul_zero]
    · rw [hueabs]
      exact Nat.le_max_left _ _
    · intro _
      exact Nat.zero_le 1
  case xi_pos => exact hxineg
  case xi_tight => exact hxit
  case xi_size => exact hlen.trans_le (ht2.2.2.trans hxis)
  case last =>
    change (r1.abs : ℤ) = vm.toInt * m.abs + toInt _ * e.abs
    rw [hr1abs, hvm, hve]
    ring
  case next =>
    change (r0.abs : ℤ)
      = (um.toInt - xi.abs * vm.toInt) * m.abs + (ue.toInt - xi.abs * toInt _) * e.abs
    rw [hr0abs, hum, hvm, hue, hve, hxiabs]
    ring
  case gcd_eq => exact congrArg₂ Nat.gcd hr1abs hr0abs
  case last_nonneg => exact hr1
  case next_nonneg => exact hr0
  case last_tight => exact hr1t
  case next_tight => exact hr0t
  case order => exact .inr ⟨hum, hvm, hue, hve, hxiabs⟩

end

end Loop

/-- For numbers that are not negative the loop ends; the divisor is the greatest common one and the
coefficients combine to it. -/
theorem bigExtGcdPos_exact (impl : MulImpl) (alloc : Alloc) (halloc : alloc.Good)
    (gcd cm ce : Option BigNum)
    (m e : BigNum) (hm : m.value ≠ []) (he : e.value ≠ []) (hm0 : 0 ≤ m.toInt) (he0 : 0 ≤ e.toInt)
    (fuel : ℕ) (hfuel : e.abs < fuel) :
    ∃ g c d : BigNum,
      bigExtGcdPos impl alloc fuel gcd cm ce m e
        = .ok (gcd.map fun _ => g, cm.map fun _ => c, ce.map fun _ => d) ∧
      g.toInt = Int.gcd m.toInt e.toInt ∧ g.toInt = c.toInt * m.toInt + d.toInt * e.toInt := by
  have hgood : True → alloc.Good := fun _ => halloc
  have hcopy (k : ℕ) (dest : Option BigNum) (src : BigNum) :
      ∃ x, bigCopyTo (alloc [k]) dest src = .ok (dest.map fun _ => x) ∧ x.toInt = src.toInt := by
    cases dest with
    | none => exact ⟨src, rfl, rfl⟩
    | some dest =>
      obtain ⟨x, hx, hneg, hval, -⟩ := (runs_bigCopy hgood [k] dest src).returns trivial
      refine ⟨x, congrArg (Except.map some) hx, toInt_congr hneg ?_⟩
      rw [BigNum.abs, hval, wordsVal_trimWords]
      rfl
  obtain ⟨s, hstart, hinv, hri⟩ :=
    (runs_gcdStart (fun _ => halloc.sub 0) hm he hm0 he0).returns trivial
  obtain ⟨s', hloop, hinv', hri'⟩ :=
    (hinv.runs_loop impl (fun _ => halloc.sub 1) fuel (by omega)).returns trivial
  obtain ⟨g, hg, hgint⟩ := hcopy 2 gcd s'.riminus1
  obtain ⟨c, hc, hcint⟩ := hcopy 3 cm s'.vmi
  obtain ⟨d, hd, hdint⟩ := hcopy 4 ce s'.vei
  have hgcd := hinv'.gcd_eq
  rw [hri', Nat.gcd_zero_right] at hgcd
  refine ⟨g, c, d, ?_, ?_, ?_⟩
  · simp only [bigExtGcdPos, hstart, hloop, hg, hc, hd, bind, Except.bind]
  · rw [hgint, hinv'.last_nonneg, hgcd, Int.gcd, m.natAbs_toInt, e.natAbs_toInt]
  · rw [hgint, hcint, hdint, hinv'.last_nonneg, hinv'.last, toInt_of_nonneg hm0,
      toInt_of_nonneg he0]

/-- Twelve and eight. -/
theorem bigExtGcdPos_twelve_eight :
    ∃ g c d : BigNum,
      bigExtGcdPos .umul64 (fun _ => true) 9 (some ⟨1, false, []⟩) (some ⟨1, false, []⟩)
        (some ⟨1, false, []⟩)
          ⟨1, false, [12#32]⟩ ⟨1, false, [8#32]⟩ = .ok (some g, some c, some d) ∧
        g.toInt = 4 ∧ g.toInt = c.toInt * 12 + d.toInt * 8 := by
  exact bigExtGcdPos_exact .umul64 (fun _ => true) (fun _ => rfl) (some ⟨1, false, []⟩)
    (some ⟨1, false, []⟩)
    (some ⟨1, false, []⟩) ⟨1, false, [12#32]⟩ ⟨1, false, [8#32]⟩ nofun nofun (by decide)
      (by decide) 9 (by decide)

end Polaris
