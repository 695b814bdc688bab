import Polaris.Checksum.Basic
import Polaris.Lib.Partial

/-!
# What `zio_checksum_SHA256` hashes

`SHA256Transform` computes what the standard asks for, block by block, and the padding is the
standard's.  But the tail of a buffer, the bytes after its last whole block, is copied from the
beginning of the buffer.  The checksum is therefore the digest of another message, which is the
buffer itself when the tail repeats the beginning: when there is no tail, for one.

## Main results

* `sha256Transform_eq` : a block
* `zioChecksumSHA256_eq` : the message that is hashed
* `zioChecksumSHA256_iff` : when the checksum is the digest of the buffer
-/

namespace Polaris

open Sha256 List
open BitVec hiding and_assoc append_assoc cons_append getElem?_eq_getElem replicate replicate_succ
    replicate_zero

variable (buf : ℕ → BitVec 8)

namespace Sha

/-! ## A block -/

theorem ch_eq (x y z : BitVec 32) : ch x y z = Sha256.ch x y z := by
  apply eq_of_getLsbD_eq
  intro i hi
  simp only [ch, Sha256.ch, getLsbD_xor, getLsbD_and, getLsbD_not, hi]
  cases x.getLsbD i <;> cases y.getLsbD i <;> cases z.getLsbD i <;> rfl

theorem maj_eq (x y z : BitVec 32) : maj x y z = Sha256.maj x y z := by
  apply eq_of_getLsbD_eq
  intro i _
  simp only [maj, Sha256.maj, getLsbD_xor, getLsbD_and]
  cases x.getLsbD i <;> cases y.getLsbD i <;> cases z.getLsbD i <;> rfl

theorem sha256K_eq : sha256K = primes.map (fracRoot 3) := by decide +kernel

theorem sha256K_getD {t : ℕ} (ht : t < 64) : sha256K.getD t 0 = k t := by
  have hlen : t < primes.length := ht
  rw [sha256K_eq, getD_eq_getElem?_getD, getElem?_map, k, getD_eq_getElem?_getD,
    getElem?_eq_getElem hlen]
  rfl

theorem initialH_eq : initialH = initial := by decide +kernel

/-- One pass of the loop is a round of the standard. -/
theorem step_eq (v : Words8) (K W : BitVec 32) : step v K W = Sha256.round v K W := by
  rw [step, Sha256.round, ch_eq, maj_eq]
  rfl

theorem getD_map_range {α : Type} (f : ℕ → α) {n t : ℕ} (ht : t < n) (d : α) :
    ((range n).map f).getD t d = f t := by
  rw [getD_eq_getElem?_getD, getElem?_map, getElem?_range ht]
  rfl

/-- The loop that fills `W` computes the message schedule. -/
theorem extend_spec (m : ℕ → BitVec 32) (n : ℕ) :
    extend ((range 16).map m) n = (range (16 + n)).map (schedule m) := by
  induction n with
  | zero =>
    rw [extend]
    apply map_congr_left
    intro t ht
    exact (schedule_of_lt m (mem_range.mp ht)).symm
  | succ n ih =>
    have hget {t : ℕ} (ht : t < 16 + n) := getD_map_range (schedule m) ht 0
    rw [extend, ih, ← Nat.add_assoc, range_succ, map_append, map_singleton,
      schedule_of_ge m (by omega : 16 ≤ 16 + n), ← hget (by omega : 16 + n - 2 < 16 + n),
      ← hget (by omega : 16 + n - 7 < 16 + n), ← hget (by omega : 16 + n - 15 < 16 + n),
      ← hget (by omega : 16 + n - 16 < 16 + n)]
    simp only [length_map, length_range]
    rfl

theorem words8_add_comm (x y : Words8) : x.add y = y.add x := by
  simp only [Words8.add, BitVec.add_comm]

/-- **`SHA256Transform`** is the standard's computation on a block. -/
theorem sha256Transform_eq (H : Words8) (cp : ℕ → BitVec 8) :
    sha256Transform H cp = compress H (loadWord cp) := by
  rw [sha256Transform, compress, extend_spec, words8_add_comm]
  apply congrArg (Words8.add · H)
  apply foldl_ext
  intro v t ht
  have ht := mem_range.mp ht
  rw [step_eq, sha256K_getD ht, getD_map_range _ ht]

/-- The bytes of a word are put side by side. -/
theorem loadWord_eq (cp : ℕ → BitVec 8) (t : ℕ) :
    loadWord cp t = cp (4 * t) ++ cp (4 * t + 1) ++ cp (4 * t + 2) ++ cp (4 * t + 3) := by
  rw [loadWord]
  generalize cp (4 * t) = b₀
  generalize cp (4 * t + 1) = b₁
  generalize cp (4 * t + 2) = b₂
  generalize cp (4 * t + 3) = b₃
  apply eq_of_toNat_eq
  simp only [toNat_or, toNat_shiftLeft, toNat_setWidth, toNat_append]
  have hmod (b : BitVec 8) {s : ℕ} (hs : s ≤ 24) : (b.toNat % 2 ^ 32) <<< s % 2 ^ 32
      = b.toNat <<< s := by
    have hpow : 2 ^ s ≤ 2 ^ 24 := Nat.pow_le_pow_right (by decide) hs
    rw [Nat.mod_eq_of_lt (by omega : b.toNat < 2 ^ 32), Nat.shiftLeft_eq]
    apply Nat.mod_eq_of_lt
    calc b.toNat * 2 ^ s ≤ (2 ^ 8 - 1) * 2 ^ 24 := Nat.mul_le_mul (by omega) hpow
      _ < 2 ^ 32 := by decide
  have hlast : b₃.toNat % 2 ^ 32 = b₃.toNat := Nat.mod_eq_of_lt (b₃.isLt.trans (by decide))
  rw [hmod b₀ (by decide), hmod b₁ (by decide), hmod b₂ (by decide), hlast]
  simp only [Nat.shiftLeft_or_distrib, ← Nat.shiftLeft_add]

/-! ## The padding -/

theorem and_63 (n : ℕ) : n &&& 63 = n % 64 :=
  Nat.and_two_pow_sub_one_eq_mod n 6

/-- The loop over the zero bytes, as long as it has passes left. -/
theorem padZeros_spec {n : ℕ} {pad : List (BitVec 8)} (hn : (120 - pad.length % 64) % 64 ≤ n) :
    padZeros pad n = pad ++ replicate ((120 - pad.length % 64) % 64) 0#8 := by
  induction n generalizing pad with
  | zero =>
    rw [Nat.le_zero.mp hn, padZeros, replicate_zero, append_nil]
  | succ n ih =>
    rw [padZeros, and_63]
    split
    next h =>
      have hlen : (120 - pad.length % 64) % 64 = (120 - (pad ++ [0#8]).length % 64) % 64 + 1 := by
        rw [length_append, length_singleton]
        omega
      rw [ih (by omega), hlen, replicate_succ, append_assoc]
      rfl
    next h =>
      have hlen : (120 - pad.length % 64) % 64 = 0 := by omega
      rw [hlen, replicate_zero, append_nil]

/-- The message that is hashed: the whole blocks of the buffer, and for its tail as many bytes
from the beginning. -/
def hashed (buf : ℕ → BitVec 8) (size : ℕ) : List (BitVec 8) :=
  (List.range (size - size % 64)).map buf ++ (List.range (size % 64)).map buf

/-- The bytes of a buffer. -/
def bytes (buf : ℕ → BitVec 8) (size : ℕ) : List (BitVec 8) :=
  (List.range size).map buf

variable (size : ℕ)

theorem length_hashed : (hashed buf size).length = size := by
  simp only [hashed, length_append, length_map, length_range]
  omega

theorem length_byte {s : ℕ} (hs : s ≤ 56) :
    ((BitVec.ofNat 64 size <<< 3) >>> s).setWidth 8 = BitVec.ofNat 8 ((8 * size) >>> s) := by
  have hbits : BitVec.ofNat 64 size <<< 3 = BitVec.ofNat 64 (8 * size) := by
    apply eq_of_toNat_eq
    rw [toNat_shiftLeft, toNat_ofNat, toNat_ofNat, Nat.shiftLeft_eq]
    omega
  apply eq_of_getLsbD_eq
  intro j hj
  rw [hbits, getLsbD_setWidth, getLsbD_ushiftRight, getLsbD_ofNat,
    getLsbD_ofNat, Nat.testBit_shiftRight, decide_eq_true hj,
    decide_eq_true (by omega : s + j < 64), Bool.true_and]

/-- The contents of `pad` follow the whole blocks in the padded message. -/
theorem padBytes_hashed :
    padBytes (hashed buf size) = (range (size - size % 64)).map buf ++ padding buf size := by
  have hlen : ((range (size % 64)).map buf ++ [0x80#8]).length = size % 64 + 1 := by simp
  have hzeros : (120 - (size % 64 + 1) % 64) % 64 = (119 - size % 64) % 64 := by omega
  rw [padBytes, padding, and_63, padZeros_spec (by omega), hlen, hzeros, length_hashed, hashed]
  simp only [length_byte size (Nat.sub_le 56 _), append_assoc, nil_append, cons_append]

/-! ## The blocks -/

/-- Whole blocks are hashed as the standard hashes them. -/
theorem transforms_eq {H : Words8} {cp : ℕ → BitVec 8} {l : List (BitVec 8)} {j n : ℕ}
    (h : ∀ k, k < 64 * n → cp k = l.getD (64 * j + k) 0) :
    transforms H cp n = (range' j n).foldl (fun v i => compress v (blockBytes l i)) H := by
  rw [transforms, range'_eq_map_range, foldl_map]
  apply foldl_ext
  intro v i hi
  have hi := mem_range.mp hi
  rw [sha256Transform_eq]
  apply compress_congr
  intro t ht
  rw [loadWord_eq, blockBytes]
  simp only [h _ (by omega : 64 * i + 4 * t < 64 * n),
    h _ (by omega : 64 * i + (4 * t + 1) < 64 * n),
    h _ (by omega : 64 * i + (4 * t + 2) < 64 * n), h _ (by omega : 64 * i + (4 * t + 3) < 64 * n)]
  simp only [Nat.mul_add, Nat.add_assoc]

/-- The digest of a message, by `SHA256Transform`. -/
theorem digest_eq_transforms (l : List (BitVec 8)) :
    digest (bitsOfBytes l)
      = transforms initialH (fun k => (padBytes l).getD k 0) ((padBytes l).length / 64) := by
  have hpad (k : ℕ) : (padBytes l).getD k 0 = (padBytes l).getD (64 * 0 + k) 0 := by
    rw [Nat.mul_zero, Nat.zero_add]
  rw [digest_bitsOfBytes, transforms_eq fun k _ => hpad k, initialH_eq, range_eq_range']

/-- The value of `H` at the end. -/
theorem transforms_hashed :
    transforms (transforms initialH buf ((size - size % 64) / 64))
      (fun k => (padding buf size).getD k 0) ((padding buf size).length / 64)
        = digest (bitsOfBytes (hashed buf size)) := by
  have hlen : ((range (size - size % 64)).map buf).length = 64 * ((size - size % 64) / 64) := by
    rw [length_map, length_range]
    omega
  have hfront (k : ℕ) (hk : k < 64 * ((size - size % 64) / 64)) :
      buf k = (padBytes (hashed buf size)).getD (64 * 0 + k) 0 := by
    rw [padBytes_hashed, Nat.mul_zero, Nat.zero_add, getD_append _ _ _ _ (hlen ▸ hk),
      getD_map_range buf (by omega)]
  have hback (k : ℕ) : (padding buf size).getD k 0
      = (padBytes (hashed buf size)).getD (64 * ((size - size % 64) / 64) + k) 0 := by
    rw [padBytes_hashed, getD_append_right _ _ _ _ (by omega), hlen, Nat.add_sub_cancel_left]
  have hcount : (padBytes (hashed buf size)).length / 64
      = (size - size % 64) / 64 + (padding buf size).length / 64 := by
    rw [padBytes_hashed, length_append, hlen]
    omega
  have hrange : range ((size - size % 64) / 64 + (padding buf size).length / 64)
      = range' 0 ((size - size % 64) / 64)
        ++ range' ((size - size % 64) / 64) ((padding buf size).length / 64) := by
    rw [range_eq_range', ← range'_append_1, Nat.zero_add]
  rw [digest_bitsOfBytes, hcount, hrange, foldl_append, ← transforms_eq hfront,
    ← transforms_eq fun k _ => hback k, initialH_eq]

end Sha

/-! ## The checksum -/

open Sha

/-- The words of a digest as `ZIO_SET_CHECKSUM` is given them: two to a word, the first one high. -/
def cksumOf (v : Words8) : ZioCksum :=
  ⟨v.a ++ v.b, v.c ++ v.d, v.e ++ v.f, v.g ++ v.h⟩

theorem toNat_append32 (a b : BitVec 32) : (a ++ b).toNat = a.toNat * 2 ^ 32 + b.toNat := by
  rw [toNat_append, ← Nat.shiftLeft_add_eq_or_of_lt b.isLt, Nat.shiftLeft_eq]

theorem append_inj {a b c d : BitVec 32} : a ++ b = c ++ d ↔ a = c ∧ b = d := by
  simp only [← toNat_inj, toNat_append32]
  omega

theorem cksumOf_injective : Function.Injective cksumOf := by
  intro v w h
  simp only [cksumOf, ZioCksum.mk.injEq, append_inj] at h
  cases v
  cases w
  simpa only [Words8.mk.injEq, and_assoc] using h

theorem shiftLeft_or_eq_append (a b : BitVec 32) :
    (a.setWidth 64 <<< 32) ||| b.setWidth 64 = a ++ b := by
  apply eq_of_toNat_eq
  rw [toNat_append, toNat_or, toNat_shiftLeft, toNat_setWidth,
    toNat_setWidth, Nat.mod_eq_of_lt (by omega : a.toNat < 2 ^ 64),
    Nat.mod_eq_of_lt (by omega : b.toNat < 2 ^ 64), Nat.shiftLeft_eq, Nat.mod_eq_of_lt (by omega)]

/-- **What `zio_checksum_SHA256` hashes.** -/
theorem zioChecksumSHA256_eq {size : ℕ} (h : size < 2 ^ 31) :
    zioChecksumSHA256 buf size = some (cksumOf (digest (bitsOfBytes (hashed buf size)))) := by
  rw [zioChecksumSHA256]
  refine bind_of_some (guard_eq_some (by omega)) ?_
  dsimp only
  rw [and_63, transforms_hashed]
  simp only [shiftLeft_or_eq_append]
  rfl

/-- The bytes that are hashed are those of the buffer when the tail repeats its beginning. -/
theorem hashed_eq_bytes_iff {buf : ℕ → BitVec 8} {size : ℕ} :
    hashed buf size = bytes buf size ↔
      ∀ k, k < size % 64 → buf (size - size % 64 + k) = buf k := by
  have hsize : bytes buf size = (range (size - size % 64)).map buf ++
      (range (size % 64)).map fun k => buf (size - size % 64 + k) := by
    conv_lhs => rw [bytes, (by omega : size = size - size % 64 + size % 64), range_add,
      map_append, map_map]
    rfl
  rw [hsize, hashed, append_cancel_left_eq, map_inj_left]
  simp only [mem_range, eq_comm]

/-- **When `zio_checksum_SHA256` is the digest of the buffer**: when the tail of the buffer repeats
its beginning, so whenever the buffer is made of whole blocks.  For any other buffer a right
checksum would be a collision of SHA-256, of two messages of the same length. -/
theorem zioChecksumSHA256_repeats (buf : ℕ → BitVec 8) {size : ℕ} (h : size < 2 ^ 31) :
    ((∀ k, k < size % 64 → buf (size - size % 64 + k) = buf k) →
      zioChecksumSHA256 buf size = some (cksumOf (digest (bitsOfBytes (bytes buf size))))) ∧
    (¬ (∀ k, k < size % 64 → buf (size - size % 64 + k) = buf k) →
      zioChecksumSHA256 buf size = some (cksumOf (digest (bitsOfBytes (bytes buf size)))) →
      hashed buf size ≠ bytes buf size ∧ (hashed buf size).length = (bytes buf size).length ∧
        digest (bitsOfBytes (hashed buf size)) = digest (bitsOfBytes (bytes buf size))) := by
  rw [zioChecksumSHA256_eq buf h, Option.some_inj, cksumOf_injective.eq_iff, ← hashed_eq_bytes_iff]
  constructor
  · intro heq
    rw [heq]
  · intro hne hdigest
    exact ⟨hne, by rw [length_hashed, bytes, length_map, length_range], hdigest⟩

/-- A block of zeros, and a byte after it. -/
def oneAfterBlock : ℕ → BitVec 8 :=
  fun i => if i = 64 then 1 else 0

/-- The byte after the block is lost. -/
theorem zioChecksumSHA256_oneAfterBlock :
    zioChecksumSHA256 oneAfterBlock 65
      ≠ some (cksumOf (digest (bitsOfBytes (bytes oneAfterBlock 65)))) := by
  rw [zioChecksumSHA256_eq oneAfterBlock (by decide), digest_eq_transforms, digest_eq_transforms]
  decide +kernel

/-- Two blocks and two bytes, as they stand at the beginning of a block. -/
theorem zioChecksumSHA256_repeats_tail :
    zioChecksumSHA256 (fun i => BitVec.ofNat 8 (i % 64)) 130
      = some (cksumOf (digest (bitsOfBytes (bytes (fun i => BitVec.ofNat 8 (i % 64)) 130)))) :=
  (zioChecksumSHA256_repeats _ (by decide)).1 (by decide)

end Polaris
