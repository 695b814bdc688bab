import Polaris.Lib.Gf256
import Polaris.Raidz.Parity
import Mathlib.Data.List.GetD

/-!
# The arithmetic of the parity code

What the parity code computes with tables and masks is the arithmetic of the field of 256 elements:
the tables are the powers of two and their logarithms, `vdev_raidz_exp2` scales by a power of two,
and the masked shift of a word doubles its eight bytes.
-/

namespace Polaris

open Gf256 List BitVec

/-! ## Tables -/

theorem vdevRaidzPow2Table_eq :
    vdevRaidzPow2Table.map (BitVec.ofNat 8) = iterate double 1#8 256 := by
  decide +kernel

theorem vdevRaidzPow2_eq {i : ℕ} (hi : i ≤ 255) : vdevRaidzPow2 i = scale i 1#8 := by
  have hget : (iterate double 1#8 256).getD i 0#8 = scale i 1#8 := by
    have hlt : i < (iterate double 1#8 256).length := by rw [length_iterate]; omega
    rw [getD_eq_getElem _ _ hlt, getElem_iterate, scale]
  rw [← hget, ← vdevRaidzPow2Table_eq, vdevRaidzPow2, getD_map]

theorem vdevRaidzLog2Table_lt : ∀ l ∈ vdevRaidzLog2Table, l < 255 := by decide +kernel

theorem vdevRaidzLog2Table_length : vdevRaidzLog2Table.length = 256 := by decide +kernel

variable (a : BitVec 8)

theorem vdevRaidzLog2_mem : vdevRaidzLog2 a ∈ vdevRaidzLog2Table := by
  rw [vdevRaidzLog2, getD_eq_getElem _ _ (vdevRaidzLog2Table_length ▸ a.isLt)]
  exact getElem_mem _

theorem vdevRaidzLog2_lt : vdevRaidzLog2 a < 255 :=
  vdevRaidzLog2Table_lt _ (vdevRaidzLog2_mem a)

/-- The logarithms undo the powers, but for the entry of zero. -/
theorem vdevRaidzLog2Table_tail :
    vdevRaidzLog2Table.tail.map vdevRaidzPow2 = (range' 1 255).map (BitVec.ofNat 8) := by
  decide +kernel

theorem scale_vdevRaidzLog2 {a : BitVec 8} (ha : a ≠ 0#8) : scale (vdevRaidzLog2 a) 1#8 = a := by
  rw [← vdevRaidzPow2_eq (vdevRaidzLog2_lt a).le]
  have hlt := a.isLt
  obtain ⟨i, hi⟩ : ∃ i, a.toNat = i + 1 :=
    ⟨a.toNat - 1, by have := toNat_ne.mp ha; simp at this; omega⟩
  have hget := congrArg (·[i]?) vdevRaidzLog2Table_tail
  simp only [getElem?_map, getElem?_tail, getElem?_range' (by omega : i < 255),
    Option.map_some, Option.map_eq_some_iff] at hget
  obtain ⟨l, hl, hpow⟩ := hget
  rw [vdevRaidzLog2, hi, getD_eq_getElem?_getD, hl, Option.getD_some, hpow]
  apply eq_of_toNat_eq
  rw [toNat_ofNat, hi]
  omega

/-- The product made of the tables is multiplication by a power of two. -/
theorem vdevRaidzExp2_eq {exp : ℕ} (hexp : exp ≤ 255) : vdevRaidzExp2 a exp = scale exp a := by
  rw [vdevRaidzExp2]
  split
  next ha => rw [ha, scale_zero_right]
  next ha =>
    have hlog := vdevRaidzLog2_lt a
    have hpow : scale exp a = scale (exp + vdevRaidzLog2 a) 1#8 := by
      rw [← scale_scale, scale_vdevRaidzLog2 ha]
    rw [hpow]
    dsimp only
    split
    next h => rw [vdevRaidzPow2_eq (by omega), ← scale_add_period, Nat.sub_add_cancel (by omega)]
    next h => exact vdevRaidzPow2_eq (by omega)

/-! ## Words -/

/-- The subtraction borrows within bytes only: it turns the high bit of a byte into a byte of
ones. -/
theorem mask_borrow : ∀ b0 b1 b2 b3 b4 b5 b6 b7 : Bool,
    let high := fun b : Bool => if b then 0x80#8 else 0#8
    let ones := fun b : Bool => if b then 0xff#8 else 0#8
    let mask : BitVec 64 :=
      high b7 ++ high b6 ++ high b5 ++ high b4 ++ high b3 ++ high b2 ++ high b1 ++ high b0
    (mask <<< 1) - (mask >>> 7)
      = ones b7 ++ ones b6 ++ ones b5 ++ ones b4 ++ ones b3 ++ ones b2 ++ ones b1 ++ ones b0 := by
  decide +kernel

theorem and_high_byte : a &&& 0x80#8 = if a.msb then 0x80#8 else 0#8 := by
  revert a
  decide +kernel

variable (w : BitVec 64)

theorem byteOf_const (h : w = load64 (fun _ => a) 0) {j : ℕ} (hj : j < 8) : byteOf w j = a := by
  rw [h, byteOf_load64 _ _ hj]

/-- The mask has ones in the bytes whose high bit is set. -/
theorem byteOf_mask {j : ℕ} (hj : j < 8) :
    byteOf (((w &&& 0x8080808080808080#64) <<< 1) - ((w &&& 0x8080808080808080#64) >>> 7)) j
      = if (byteOf w j).msb then 0xff#8 else 0#8 := by
  have hmask : w &&& 0x8080808080808080#64
      = load64 (fun i => if (byteOf w i).msb then 0x80#8 else 0#8) 0 := by
    rw [← load64_byteOf (w &&& 0x8080808080808080#64)]
    refine load64_congr fun i hi => ?_
    rw [Nat.mul_zero, Nat.zero_add, byteOf_and,
      byteOf_const 0x80#8 0x8080808080808080#64 (by decide) hi,
      and_high_byte]
  have hones := mask_borrow (byteOf w 0).msb (byteOf w 1).msb (byteOf w 2).msb (byteOf w 3).msb
    (byteOf w 4).msb (byteOf w 5).msb (byteOf w 6).msb (byteOf w 7).msb
  have hload : ((w &&& 0x8080808080808080#64) <<< 1) - ((w &&& 0x8080808080808080#64) >>> 7)
      = load64 (fun i => if (byteOf w i).msb then 0xff#8 else 0#8) 0 := by
    rw [hmask]
    exact hones
  rw [hload, byteOf_load64 _ _ hj, Nat.mul_zero, Nat.zero_add]

theorem byteOf_shift {j : ℕ} (hj : j < 8) : byteOf (w <<< 1) j &&& 0xfe#8 = byteOf w j <<< 1 := by
  apply eq_of_getLsbD_eq
  intro b hb
  have hfe : ∀ b : Fin 8, (0xfe#8).getLsbD b = decide (b.val ≠ 0) := by decide
  have hbit : (0xfe#8).getLsbD b = decide (b ≠ 0) := hfe ⟨b, hb⟩
  rw [getLsbD_and, getLsbD_byteOf hb, hbit, getLsbD_shiftLeft, getLsbD_shiftLeft]
  rcases Nat.eq_zero_or_pos b with rfl | hpos
  · simp
  · rw [getLsbD_byteOf (by omega), Nat.add_sub_assoc hpos]
    simp [hb, show 8 * j + b < 64 by omega, hpos.ne', show ¬ 8 * j + b < 1 by omega]

/-- The masked shift doubles the bytes of a word. -/
theorem byteOf_raidzMul2Word {j : ℕ} (hj : j < 8) :
    byteOf (raidzMul2Word w) j = double (byteOf w j) := by
  rw [raidzMul2Word, byteOf_xor, byteOf_and, byteOf_and, byteOf_mask w hj,
    byteOf_const 0xfe#8 0xfefefefefefefefe#64 (by decide) hj,
    byteOf_const 0x1d#8 0x1d1d1d1d1d1d1d1d#64 (by decide) hj, byteOf_shift w hj, double]
  cases (byteOf w j).msb <;> rfl

end Polaris
