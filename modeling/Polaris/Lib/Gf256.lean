import Mathlib.Data.List.Iterate
import Mathlib.Data.Fintype.EquivFin

/-!
# Bytes as a field whose generator is two

The field of 256 elements, seen through one operation: multiplication by the generator `2`, written
`double`.  Addition is exclusive or, and every nonzero element is a power of two, so multiplication
by any nonzero element is `scale n`, doubling `n` times.  Scaling is additive, has period 255, and
adding one to a factor adds the argument to the product; that is all the algebra a code with two
check symbols needs.

A code word is a polynomial in the generator, evaluated by Horner's rule: `horner d n` is the value
of the `n` coefficients `d 0, …, d (n - 1)`, the first of them the highest.

## Main definitions

* `Gf256.double`, `Gf256.scale` — multiplication by `2` and by a power of it.
* `Gf256.sum`, `Gf256.horner` — the two check symbols of `n` elements.
-/

namespace Polaris

open Function BitVec

variable {n x i y : ℕ} {d : ℕ → BitVec 8}

namespace Gf256

/-- Multiplication by the generator, modulo `x ^ 8 + x ^ 4 + x ^ 3 + x ^ 2 + 1`. -/
def double (a : BitVec 8) : BitVec 8 := (a <<< 1) ^^^ (if a.msb then 0x1d#8 else 0#8)

/-- Multiplication by `2 ^ n`. -/
def scale (n : ℕ) (a : BitVec 8) : BitVec 8 := double^[n] a

variable (a b : BitVec 8)

theorem xor_cancel_left : a ^^^ (a ^^^ b) = b := by
  rw [← xor_assoc, BitVec.xor_self, BitVec.zero_xor]

theorem xor_cancel_right : a ^^^ b ^^^ b = a := by
  rw [xor_assoc, BitVec.xor_self, xor_zero]

theorem xor_left_comm (c : BitVec 8) : a ^^^ (b ^^^ c) = b ^^^ (a ^^^ c) := by
  rw [← xor_assoc, BitVec.xor_comm a, xor_assoc]

theorem double_xor : double (a ^^^ b) = double a ^^^ double b := by
  rw [double, double, double, shiftLeft_xor_distrib, msb_xor]
  cases a.msb with
  | false => cases b.msb <;> simp [xor_assoc]
  | true => cases b.msb <;> simp [xor_assoc, BitVec.xor_comm, xor_left_comm]

@[simp] theorem scale_zero : scale 0 a = a := rfl

theorem scale_succ (n : ℕ) (a : BitVec 8) : scale (n + 1) a = double (scale n a) :=
  iterate_succ_apply' ..

theorem scale_scale (m n : ℕ) (a : BitVec 8) : scale m (scale n a) = scale (m + n) a :=
  (iterate_add_apply ..).symm

theorem scale_xor (n : ℕ) (a b : BitVec 8) : scale n (a ^^^ b) = scale n a ^^^ scale n b := by
  induction n with
  | zero => rfl
  | succ n ih => rw [scale_succ, ih, double_xor, scale_succ, scale_succ]

@[simp] theorem scale_zero_right (n : ℕ) : scale n 0#8 = 0#8 := by
  have h := scale_xor n 0#8 0#8
  rwa [BitVec.xor_self, BitVec.xor_self] at h

/-! ## Powers of two -/

theorem scale_one_period : scale 255 1#8 = 1#8 := by decide +kernel

/-- One is not met again before the period is over. -/
theorem scale_one_ne (h0 : 0 < n) (hn : n < 255) : scale n 1#8 ≠ 1#8 := by
  have hnot : 1#8 ∉ List.iterate double (double 1#8) 254 := by decide +kernel
  obtain _ | m := n
  · omega
  intro h1
  refine hnot (List.mem_iterate.mpr ⟨m, by omega, ?_⟩)
  rw [← iterate_succ_apply]
  exact h1.symm

theorem scale_one_ne_zero (n : ℕ) : scale n 1#8 ≠ 0#8 := by
  intro h0
  have hback := scale_scale (255 * n - n) n 1#8
  have hone : scale (255 * n) 1#8 = 1#8 := by
    rw [scale, iterate_mul]
    exact iterate_fixed scale_one_period n
  rw [h0, scale_zero_right, Nat.sub_add_cancel (by omega), hone] at hback
  exact absurd hback (by decide)

theorem scale_one_injective {m : ℕ} (hm : m < 255) (hn : n < 255) (h : scale m 1#8 = scale n 1#8) :
    m = n := by
  wlog hle : m ≤ n generalizing m n
  · exact (this hn hm h.symm (by omega)).symm
  by_contra hne
  refine scale_one_ne (by omega : 0 < n - m) (by omega) ?_
  have hexp : 255 - m + n = n - m + 255 := by omega
  calc
    scale (n - m) 1#8 = scale (255 - m) (scale n 1#8) := by
        rw [scale_scale, hexp, ← scale_scale, scale_one_period]
    _ = 1#8 := by rw [← h, scale_scale, Nat.sub_add_cancel hm.le, scale_one_period]

/-- Every nonzero element is a power of two: there are as many powers as nonzero elements. -/
theorem exists_scale_one {a : BitVec 8} (ha : a ≠ 0#8) : ∃ n < 255, scale n 1#8 = a := by
  have hpos {b : BitVec 8} (hb : b ≠ 0#8) : 0 < b.toNat :=
    Nat.pos_of_ne_zero fun h0 => hb (eq_of_toNat_eq h0)
  let f : Fin 255 → Fin 255 := fun i =>
    ⟨(scale i 1#8).toNat - 1, by
      have := (scale i 1#8).isLt
      have := hpos (scale_one_ne_zero i)
      omega⟩
  have hf : Injective f := by
    intro i j hij
    have hi := hpos (scale_one_ne_zero i)
    have hj := hpos (scale_one_ne_zero j)
    have hval : (scale i 1#8).toNat - 1 = (scale j 1#8).toNat - 1 := congrArg Fin.val hij
    exact Fin.ext (scale_one_injective i.isLt j.isLt (eq_of_toNat_eq (by omega)))
  have hlt := a.isLt
  have ha' := hpos ha
  obtain ⟨i, hi⟩ := (Finite.injective_iff_surjective.mp hf) ⟨a.toNat - 1, by omega⟩
  have hi' := hpos (scale_one_ne_zero i)
  have hval : (scale i 1#8).toNat - 1 = a.toNat - 1 := congrArg Fin.val hi
  exact ⟨i, i.isLt, eq_of_toNat_eq (by omega)⟩

/-- Two factors that agree on one agree everywhere: an additive identity between multiplications
need only be checked there. -/
theorem scale_congr {j : ℕ} (h : scale i 1#8 = scale j 1#8) (a : BitVec 8) :
    scale i a = scale j a := by
  rcases eq_or_ne a 0#8 with rfl | ha
  · simp
  · obtain ⟨n, -, rfl⟩ := exists_scale_one ha
    rw [scale_scale, Nat.add_comm, ← scale_scale, h, scale_scale, scale_scale, Nat.add_comm]

/-- A factor that is one more. -/
theorem scale_succ_factor {j : ℕ} (h : scale i 1#8 = scale j 1#8 ^^^ 1#8) (a : BitVec 8) :
    scale i a = scale j a ^^^ a := by
  rcases eq_or_ne a 0#8 with rfl | ha
  · simp
  · obtain ⟨n, -, rfl⟩ := exists_scale_one ha
    rw [scale_scale, Nat.add_comm, ← scale_scale, h, scale_xor, scale_scale, scale_scale,
      Nat.add_comm]

@[simp] theorem scale_period : scale 255 a = a :=
  scale_congr (j := 0) scale_one_period a

theorem scale_add_period (n : ℕ) (a : BitVec 8) : scale (n + 255) a = scale n a := by
  rw [← scale_scale, scale_period]

theorem scale_cancel {m : ℕ} (h : m + n = 255) (a : BitVec 8) : scale m (scale n a) = a := by
  rw [scale_scale, h, scale_period]

/-! ## Check symbols -/

/-- The sum of the first `n` elements. -/
def sum (d : ℕ → BitVec 8) : ℕ → BitVec 8
  | 0 => 0#8
  | n + 1 => sum d n ^^^ d n

/-- The value of the polynomial whose coefficients are the first `n` elements, the first of them the
highest. -/
def horner (d : ℕ → BitVec 8) : ℕ → BitVec 8
  | 0 => 0#8
  | n + 1 => double (horner d n) ^^^ d n

/-- The elements with a zero in place of number `x`. -/
def erase (d : ℕ → BitVec 8) (x : ℕ) : ℕ → BitVec 8 := fun i => if i = x then 0#8 else d i

@[simp] theorem erase_self (d : ℕ → BitVec 8) (x : ℕ) : erase d x x = 0#8 := if_pos rfl

theorem erase_of_ne (d : ℕ → BitVec 8) (h : i ≠ x) : erase d x i = d i := if_neg h

variable {e : ℕ → BitVec 8}

theorem erase_congr (h : i ≠ x → d i = e i) : erase d x i = erase e x i :=
  ite_congr rfl (fun _ => rfl) h

theorem sum_congr (h : ∀ i < n, d i = e i) : sum d n = sum e n := by
  induction n with
  | zero => rfl
  | succ n ih => rw [sum, sum, ih fun i hi => h i (by omega), h n (by omega)]

theorem horner_congr (h : ∀ i < n, d i = e i) : horner d n = horner e n := by
  induction n with
  | zero => rfl
  | succ n ih => rw [horner, horner, ih fun i hi => h i (by omega), h n (by omega)]

/-- What an element adds to the sum. -/
theorem sum_eq_erase (hx : x < n) : sum d n = sum (erase d x) n ^^^ d x := by
  induction n with
  | zero => omega
  | succ n ih =>
    rcases Nat.lt_or_ge x n with hlt | hge
    · rw [sum, sum, ih hlt, erase_of_ne d (by omega), xor_assoc, xor_assoc,
        BitVec.xor_comm (d x)]
    · obtain rfl : x = n := by omega
      rw [sum, sum, erase_self, xor_zero]
      congr 1
      exact sum_congr fun i hi => (erase_of_ne d (by omega)).symm

/-- What an element adds to the polynomial. -/
theorem horner_eq_erase (hx : x < n) :
    horner d n = horner (erase d x) n ^^^ scale (n - 1 - x) (d x) := by
  induction n with
  | zero => omega
  | succ n ih =>
    rcases Nat.lt_or_ge x n with hlt | hge
    · have hexp : n + 1 - 1 - x = n - 1 - x + 1 := by omega
      rw [horner, horner, ih hlt, double_xor, erase_of_ne d (by omega), hexp, scale_succ,
        xor_assoc, xor_assoc, BitVec.xor_comm (double _) (d n)]
    · obtain rfl : x = n := by omega
      rw [horner, horner, erase_self, xor_zero, Nat.add_sub_cancel, Nat.sub_self, scale_zero]
      congr 2
      exact horner_congr fun i hi => (erase_of_ne d (by omega)).symm

/-! ## Solving for lost elements -/

/-- One lost element, from the sum. -/
theorem sum_solve (hx : x < n) : sum d n ^^^ sum (erase d x) n = d x := by
  rw [sum_eq_erase (d := d) hx, BitVec.xor_comm, xor_cancel_left]

/-- One lost element, from the polynomial. -/
theorem horner_solve (hx : x < n) (hn : n - 1 - x ≤ 255) :
    scale (255 - (n - 1 - x)) (horner (erase d x) n ^^^ horner d n) = d x := by
  rw [horner_eq_erase (d := d) hx, xor_cancel_left, scale_cancel (by omega)]

/-- What two lost elements leave in the sum. -/
theorem sum_two_solve (hxy : x < y) (hy : y < n) :
    sum d n ^^^ sum (erase (erase d x) y) n = d y ^^^ d x := by
  rw [sum_eq_erase (d := d) (hxy.trans hy), sum_eq_erase (d := erase d x) hy,
    erase_of_ne d (by omega), BitVec.xor_assoc _ (d y), BitVec.xor_comm, xor_cancel_left]

/-- What two lost elements leave in the polynomial. -/
theorem horner_two_solve (hxy : x < y) (hy : y < n) :
    horner d n ^^^ horner (erase (erase d x) y) n
      = scale (n - 1 - y) (d y) ^^^ scale (n - 1 - x) (d x) := by
  rw [horner_eq_erase (d := d) (hxy.trans hy), horner_eq_erase (d := erase d x) hy,
    erase_of_ne d (by omega), BitVec.xor_assoc _ (scale _ (d y)), BitVec.xor_comm, xor_cancel_left]

/-- The first of two lost elements, from the sum and the polynomial: `l` is the logarithm of
`2 ^ (x - y) + 1`, which is not zero because `x` and `y` are less than a period apart. -/
theorem two_solve {l tmp : ℕ} (hxy : x < y) (hy : y < n) (hn : n ≤ 255)
    (hl : scale l 1#8 = scale (255 + x - y) 1#8 ^^^ 1#8) (htmp : tmp + l = 255) :
    scale tmp (scale (255 + x - y) (sum d n ^^^ sum (erase (erase d x) y) n)) ^^^
        scale tmp (scale (255 - (n - 1 - x)) (horner d n ^^^ horner (erase (erase d x) y) n))
      = d x := by
  have hexp : 255 - (n - 1 - x) + (n - 1 - y) = 255 + x - y := by omega
  -- both terms in `d y` are the same and cancel; those in `d x` make the factor `2 ^ l`
  calc
    _ = scale tmp (scale (255 + x - y) (d x) ^^^ d x) := by
        rw [sum_two_solve hxy hy, horner_two_solve hxy hy, ← scale_xor, scale_xor (255 + x - y),
          scale_xor (255 - (n - 1 - x)),
          scale_scale, scale_cancel (by omega), hexp, BitVec.xor_comm (scale _ (d y)),
          xor_assoc, xor_cancel_left]
    _ = d x := by rw [← scale_succ_factor hl, scale_cancel htmp]

end Gf256

end Polaris
