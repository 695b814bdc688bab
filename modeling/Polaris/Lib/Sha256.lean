import Mathlib.Data.List.Basic
import Mathlib.Data.List.Induction
import Mathlib.Data.Nat.NthRoot.Defs
import Mathlib.Tactic.IntervalCases

/-!
# SHA-256, as FIPS 180-2 specifies it

A message is a string of bits.  It is padded to a whole number of blocks of 512 bits, each
block is read as sixteen words of 32 bits, and the blocks are hashed one after the other.  The
constants are the leading fractional bits of the square and the cube roots of the primes.

## Main definitions

* `Bits`, `pad`, `blocks` : the preprocessing, section 5
* `Words8`, `round`, `schedule`, `compress` : the computation of one block, section 6.2.2
* `digest` : the eight words of the message digest
-/

namespace Polaris.Sha256

open List BitVec

/-- A string of bits, the first bit first. -/
abbrev Bits := List Bool

/-- Eight words: the hash value, or the working variables. -/
structure Words8 where
  a : BitVec 32
  b : BitVec 32
  c : BitVec 32
  d : BitVec 32
  e : BitVec 32
  f : BitVec 32
  g : BitVec 32
  h : BitVec 32
deriving DecidableEq, Repr

/-- Addition word by word, modulo `2 ^ 32`. -/
def Words8.add (x y : Words8) : Words8 :=
  ⟨x.a + y.a, x.b + y.b, x.c + y.c, x.d + y.d, x.e + y.e, x.f + y.f, x.g + y.g, x.h + y.h⟩

/-! ## Functions and constants -/

def ch (x y z : BitVec 32) : BitVec 32 := (x &&& y) ^^^ (~~~x &&& z)

def maj (x y z : BitVec 32) : BitVec 32 := (x &&& y) ^^^ (x &&& z) ^^^ (y &&& z)

def bigSigma0 (x : BitVec 32) :
    BitVec 32 := x.rotateRight 2 ^^^ x.rotateRight 13 ^^^ x.rotateRight 22

def bigSigma1 (x : BitVec 32) :
    BitVec 32 := x.rotateRight 6 ^^^ x.rotateRight 11 ^^^ x.rotateRight 25

def smallSigma0 (x : BitVec 32) : BitVec 32 := x.rotateRight 7 ^^^ x.rotateRight 18 ^^^ (x >>> 3)

def smallSigma1 (x : BitVec 32) : BitVec 32 := x.rotateRight 17 ^^^ x.rotateRight 19 ^^^ (x >>> 10)

/-- The first 64 primes. -/
def primes : List ℕ :=
  [2, 3, 5, 7, 11, 13, 17, 19, 23, 29, 31, 37, 41, 43, 47, 53, 59, 61, 67, 71, 73, 79, 83, 89, 97,
    101, 103, 107, 109, 113, 127, 131, 137, 139, 149, 151, 157, 163, 167, 173, 179, 181, 191, 193,
    197, 199, 211, 223, 227, 229, 233, 239, 241, 251, 257, 263, 269, 271, 277, 281, 283, 293, 307,
    311]

/-- The first 32 bits of the fractional part of the `n`th root of `p`. -/
def fracRoot (n p : ℕ) : BitVec 32 :=
  BitVec.ofNat 32 (Nat.nthRoot n (p * 2 ^ (32 * n)))

/-- The constants `K` of the rounds. -/
def k (t : ℕ) : BitVec 32 :=
  fracRoot 3 (primes.getD t 0)

/-- The initial hash value. -/
def initial : Words8 :=
  let h (i : ℕ) := fracRoot 2 (primes.getD i 0)
  ⟨h 0, h 1, h 2, h 3, h 4, h 5, h 6, h 7⟩

/-! ## One block -/

/-- The message schedule of a block of words `m`. -/
def schedule (m : ℕ → BitVec 32) (t : ℕ) : BitVec 32 :=
  if t < 16 then m t
  else smallSigma1 (schedule m (t - 2)) + schedule m (t - 7) + smallSigma0 (schedule m (t - 15))
    + schedule m (t - 16)

/-- One round on the working variables. -/
def round (v : Words8) (k w : BitVec 32) : Words8 :=
  let t₁ := v.h + bigSigma1 v.e + ch v.e v.f v.g + k + w
  let t₂ := bigSigma0 v.a + maj v.a v.b v.c
  ⟨t₁ + t₂, v.a, v.b, v.c, v.d + t₁, v.e, v.f, v.g⟩

/-- The hash value after a block. -/
def compress (h : Words8) (m : ℕ → BitVec 32) : Words8 :=
  ((range 64).foldl (fun v t => round v (k t) (schedule m t)) h).add h

/-! ## Messages -/

/-- The `n` low bits of a number, the highest first. -/
def bitsOfNat (n x : ℕ) : Bits :=
  (range n).map fun i => x.testBit (n - 1 - i)

/-- The number that a string of bits writes. -/
def natOfBits (l : Bits) : ℕ :=
  l.foldl (fun x b => 2 * x + b.toNat) 0

/-- The bit 1, the least number of zeros that leaves 64 bits of a block, and the length. -/
def pad (m : Bits) : Bits :=
  m ++ true :: (replicate ((959 - m.length % 512) % 512) false ++ bitsOfNat 64 m.length)

/-- The words of the block of 512 bits that begins at bit `512 * i`. -/
def block (m : Bits) (i : ℕ) : ℕ → BitVec 32 :=
  fun t => BitVec.ofNat 32 (natOfBits ((m.drop (512 * i + 32 * t)).take 32))

/-- The message digest. -/
def digest (m : Bits) : Words8 :=
  (range ((pad m).length / 512)).foldl (fun h i => compress h (block (pad m) i)) initial

/-! ## Messages of whole bytes -/

/-- The bits of a string of bytes. -/
def bitsOfBytes (l : List (BitVec 8)) : Bits :=
  l.flatMap fun b => bitsOfNat 8 b.toNat

/-- The bytes of a padded message. -/
def padBytes (l : List (BitVec 8)) : List (BitVec 8) :=
  l ++ 0x80#8 :: (List.replicate ((119 - l.length % 64) % 64) 0#8
    ++ (List.range 8).map fun i => BitVec.ofNat 8 ((8 * l.length) >>> (56 - 8 * i)))

/-- The words of a block of bytes. -/
def blockBytes (l : List (BitVec 8)) (i : ℕ) : ℕ → BitVec 32 :=
  fun t => l.getD (64 * i + 4 * t) 0 ++ l.getD (64 * i + 4 * t + 1) 0
    ++ l.getD (64 * i + 4 * t + 2) 0 ++ l.getD (64 * i + 4 * t + 3) 0

theorem bitsOfNat_succ (n x : ℕ) : bitsOfNat (n + 1) x = bitsOfNat n (x / 2) ++ [x.testBit 0] := by
  rw [bitsOfNat, range_succ, map_append, bitsOfNat]
  congr 1
  · apply map_congr_left
    intro i hi
    have hi := mem_range.mp hi
    rw [← Nat.testBit_succ]
    congr 1
    omega
  · simp

theorem bitsOfNat_add (m n x : ℕ) :
    bitsOfNat (m + n) x = bitsOfNat m (x / 2 ^ n) ++ bitsOfNat n x := by
  induction n generalizing x with
  | zero => simp [bitsOfNat]
  | succ n ih =>
    rw [← Nat.add_assoc, bitsOfNat_succ, ih, bitsOfNat_succ, List.append_assoc,
      Nat.div_div_eq_div_mul,
      Nat.pow_succ, Nat.mul_comm 2]

theorem natOfBits_concat (l : Bits) (b : Bool) :
    natOfBits (l ++ [b]) = 2 * natOfBits l + b.toNat := by
  rw [natOfBits, foldl_append]
  rfl

theorem natOfBits_append (l l' : Bits) :
    natOfBits (l ++ l') = natOfBits l * 2 ^ l'.length + natOfBits l' := by
  induction l' using reverseRecOn with
  | nil => simp [natOfBits]
  | append_singleton l' b ih =>
    rw [← List.append_assoc, natOfBits_concat, natOfBits_concat, ih, List.length_append,
      length_singleton, Nat.pow_succ, Nat.mul_add, ← Nat.mul_assoc, Nat.mul_comm 2,
      Nat.mul_right_comm, Nat.add_assoc, Nat.mul_assoc]

theorem natOfBits_bitsOfNat (n x : ℕ) : natOfBits (bitsOfNat n x) = x % 2 ^ n := by
  induction n generalizing x with
  | zero => rw [Nat.pow_zero, Nat.mod_one]; rfl
  | succ n ih =>
    rw [bitsOfNat_succ, natOfBits_concat, ih, Nat.toNat_testBit, Nat.pow_zero, Nat.div_one,
      Nat.pow_succ, Nat.mul_comm (2 ^ n), Nat.mod_mul, Nat.add_comm]

@[simp] theorem bitsOfBytes_append (l l' : List (BitVec 8)) :
    bitsOfBytes (l ++ l') = bitsOfBytes l ++ bitsOfBytes l' :=
  flatMap_append

@[simp] theorem length_bitsOfBytes (l : List (BitVec 8)) :
    (bitsOfBytes l).length = 8 * l.length := by
  induction l with
  | nil => rfl
  | cons b l ih =>
    rw [← singleton_append, bitsOfBytes_append, length_append, length_append, ih, Nat.mul_add]
    rfl

theorem bitsOfBytes_split (l : List (BitVec 8)) (n : ℕ) :
    bitsOfBytes l = bitsOfBytes (l.take n) ++ bitsOfBytes (l.drop n) := by
  rw [← bitsOfBytes_append, take_append_drop]

variable {l : List (BitVec 8)} {n t : ℕ}

theorem drop_bitsOfBytes (h : n ≤ l.length) :
    (bitsOfBytes l).drop (8 * n) = bitsOfBytes (l.drop n) := by
  rw [bitsOfBytes_split l n, drop_left' (by simp [h])]

theorem take_bitsOfBytes (h : n ≤ l.length) :
    (bitsOfBytes l).take (8 * n) = bitsOfBytes (l.take n) := by
  rw [bitsOfBytes_split l n, take_left' (by simp [h])]

/-- Four bytes in a row. -/
theorem take_four (h : n + 4 ≤ l.length) :
    (l.drop n).take 4 = [l.getD n 0, l.getD (n + 1) 0, l.getD (n + 2) 0, l.getD (n + 3) 0] := by
  apply ext_getElem
  · simp only [length_take, length_drop, length_cons, length_nil]
    omega
  · intro i hi hi'
    simp only [length_cons, length_nil] at hi'
    rw [getElem_take, getElem_drop]
    interval_cases i <;> simp [getD_eq_getElem?_getD, show n < l.length by omega,
      show n + 1 < l.length by omega, show n + 2 < l.length by
      omega, show n + 3 < l.length by omega]

theorem natOfBits_four (b₀ b₁ b₂ b₃ : BitVec 8) :
    BitVec.ofNat 32 (natOfBits (bitsOfBytes [b₀, b₁, b₂, b₃])) = b₀ ++ b₁ ++ b₂ ++ b₃ := by
  have hbyte (b : BitVec 8) : natOfBits (bitsOfBytes [b]) = b.toNat := by
    rw [bitsOfBytes, flatMap_singleton, natOfBits_bitsOfNat]
    exact Nat.mod_eq_of_lt b.isLt
  have hcons (b : BitVec 8) (l : List (BitVec 8)) :
      natOfBits (bitsOfBytes (b :: l))
        = b.toNat * 2 ^ (8 * l.length) + natOfBits (bitsOfBytes l) := by
    rw [← singleton_append, bitsOfBytes_append, natOfBits_append, hbyte, length_bitsOfBytes]
  apply eq_of_toNat_eq
  have h₀ := b₀.isLt
  rw [toNat_ofNat, hcons, hcons, hcons, hbyte, toNat_append, toNat_append,
    toNat_append, ← Nat.shiftLeft_add_eq_or_of_lt b₁.isLt,
    ← Nat.shiftLeft_add_eq_or_of_lt b₂.isLt, ← Nat.shiftLeft_add_eq_or_of_lt b₃.isLt]
  have h₁ := b₁.isLt
  have h₂ := b₂.isLt
  have h₃ := b₃.isLt
  simp only [Nat.shiftLeft_eq, length_cons, length_nil]
  omega

/-- A block of a message of bytes. -/
theorem block_bitsOfBytes {i : ℕ} (h : 64 * i + 4 * t + 4 ≤ l.length) :
    block (bitsOfBytes l) i t = blockBytes l i t := by
  have htake : ((bitsOfBytes (l.drop (64 * i + 4 * t))).take 32)
      = bitsOfBytes ((l.drop (64 * i + 4 * t)).take 4) :=
    take_bitsOfBytes (n := 4) (by rw [length_drop]; omega)
  rw [block, show 512 * i + 32 * t = 8 * (64 * i + 4 * t) by omega,
    drop_bitsOfBytes (by omega), htake,
    take_four h]
  exact natOfBits_four _ _ _ _

theorem bitsOfNat_mod (n x : ℕ) : bitsOfNat n (x % 2 ^ n) = bitsOfNat n x := by
  apply map_congr_left
  intro i hi
  have hi := mem_range.mp hi
  rw [Nat.testBit_mod_two_pow, decide_eq_true (by omega : n - 1 - i < n), Bool.true_and]

/-- The bytes of a number, the highest first, have its bits. -/
theorem bitsOfBytes_number (n x : ℕ) :
    bitsOfBytes ((range n).map fun i => BitVec.ofNat 8 (x >>> (8 * (n - 1 - i))))
      = bitsOfNat (8 * n) x := by
  induction n generalizing x with
  | zero => rfl
  | succ n ih =>
    rw [range_succ, map_append, bitsOfBytes_append, Nat.mul_succ, bitsOfNat_add, ← ih]
    congr 1
    · congr 1
      apply map_congr_left
      intro i hi
      have hi := mem_range.mp hi
      rw [← Nat.shiftRight_eq_div_pow, ← Nat.shiftRight_add,
        show 8 + 8 * (n - 1 - i) = 8 * (n + 1 - 1 - i) by omega]
    · rw [map_singleton, bitsOfBytes, flatMap_singleton, toNat_ofNat,
        bitsOfNat_mod, Nat.add_sub_cancel, Nat.sub_self, Nat.mul_zero, Nat.shiftRight_zero]

theorem bitsOfBytes_zeros (n : ℕ) : bitsOfBytes (replicate n 0#8) = replicate (8 * n) false := by
  induction n with
  | zero => rfl
  | succ n ih =>
    rw [List.replicate_succ', bitsOfBytes_append, ih, Nat.mul_succ,
      ← List.replicate_append_replicate]
    rfl

/-- Padding a message of bytes. -/
theorem pad_bitsOfBytes (l : List (BitVec 8)) : pad (bitsOfBytes l) = bitsOfBytes (padBytes l) := by
  have hzeros : (959 - 8 * l.length % 512) % 512 = 7 + 8 * ((119 - l.length % 64) % 64) := by omega
  have hnumber := bitsOfBytes_number 8 (8 * l.length)
  have hshift : ((List.range 8).map fun i => BitVec.ofNat 8 ((8 * l.length) >>> (8 * (8 - 1 - i))))
      = (range 8).map fun i => BitVec.ofNat 8 ((8 * l.length) >>> (56 - 8 * i)) := rfl
  rw [hshift] at hnumber
  rw [pad, padBytes, bitsOfBytes_append, ← singleton_append (x := 0x80#8), bitsOfBytes_append,
    bitsOfBytes_append, hnumber, bitsOfBytes_zeros, length_bitsOfBytes, hzeros,
    ← List.replicate_append_replicate,
    List.append_assoc]
  rfl

theorem schedule_of_lt (m : ℕ → BitVec 32) (h : t < 16) : schedule m t = m t := by
  rw [schedule, if_pos h]

theorem schedule_of_ge (m : ℕ → BitVec 32) (h : 16 ≤ t) :
    schedule m t = smallSigma1 (schedule m (t - 2)) + schedule m (t - 7)
      + smallSigma0 (schedule m (t - 15)) + schedule m (t - 16) := by
  rw [schedule, if_neg (by omega)]

theorem schedule_congr {m m' : ℕ → BitVec 32} (h : ∀ t, t < 16 → m t = m' t) (t : ℕ) :
    schedule m t = schedule m' t := by
  induction t using Nat.strongRecOn with
  | ind t ih =>
    by_cases ht : t < 16
    · rw [schedule_of_lt m ht, schedule_of_lt m' ht, h t ht]
    · have ht : 16 ≤ t := by omega
      rw [schedule_of_ge m ht, schedule_of_ge m' ht, ih (t - 2) (by omega), ih (t - 7) (by omega),
        ih (t - 15) (by omega), ih (t - 16) (by omega)]

theorem compress_congr (v : Words8) {m m' : ℕ → BitVec 32} (h : ∀ t, t < 16 → m t = m' t) :
    compress v m = compress v m' := by
  have hs : schedule m = schedule m' := funext (schedule_congr h)
  rw [compress, compress, hs]

/-- **The digest of a message of bytes**, block by block. -/
theorem digest_bitsOfBytes (l : List (BitVec 8)) :
    digest (bitsOfBytes l) = (range ((padBytes l).length / 64)).foldl
      (fun h i => compress h (blockBytes (padBytes l) i)) initial := by
  have hlen : (bitsOfBytes (padBytes l)).length / 512 = (padBytes l).length / 64 := by
    rw [length_bitsOfBytes]
    omega
  rw [digest, pad_bitsOfBytes, hlen]
  apply foldl_ext
  intro h i hi
  have hi := mem_range.mp hi
  apply compress_congr
  intro t ht
  exact block_bitsOfBytes (by omega)

end Polaris.Sha256
