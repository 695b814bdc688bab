import Polaris.Lib.Sha256
import Polaris.Macros

/-!
# The checksums of ZFS

The functions of `fletcher.c` and `sha256.c`.  A buffer is the sequence of the words that a
function reads from it, next to its size in bytes.

## Main definitions

* `fletcher2Native`, `fletcher4Native`, `fletcher4Byteswap`
* `sha256Transform`, `zioChecksumSHA256`
-/

namespace Polaris

open List

/-- `zio_cksum_t`. -/
structure ZioCksum where
  zcWord0 : BitVec 64
  zcWord1 : BitVec 64
  zcWord2 : BitVec 64
  zcWord3 : BitVec 64
deriving DecidableEq, Repr

/-! ## `byteorder.h` -/

def bswap8 (x : BitVec w) : BitVec w := x &&& 0xff#w

def bswap16 (x : BitVec w) : BitVec w := (bswap8 x <<< 8) ||| bswap8 (x >>> 8)

def bswap32 (x : BitVec w) : BitVec w := (bswap16 x <<< 16) ||| bswap16 (x >>> 16)

/-! ## `fletcher.c` -/

/-- The accumulators of `fletcher_2`. -/
structure Fletcher2 where
  a0 : BitVec 64
  a1 : BitVec 64
  b0 : BitVec 64
  b1 : BitVec 64
deriving DecidableEq, Repr

/-- The body of the loop, on two words. -/
def Fletcher2.add (s : Fletcher2) (x0 x1 : BitVec 64) : Fletcher2 :=
  let a0 := s.a0 + x0
  let a1 := s.a1 + x1
  { a0 := a0, a1 := a1, b0 := s.b0 + a0, b1 := s.b1 + a1 }

/-- Two words at a time, until the end of the buffer is reached or passed. -/
def fletcher2 (swap : BitVec 64 → BitVec 64) (ip : ℕ → BitVec 64) (size : ℕ) : ZioCksum :=
  let s := (range ((size / 8 + 1) / 2)).foldl
    (fun s i => s.add (swap (ip (2 * i))) (swap (ip (2 * i + 1)))) (⟨0, 0, 0, 0⟩ : Fletcher2)
  ⟨s.a0, s.a1, s.b0, s.b1⟩

def fletcher2Native (buf : ℕ → BitVec 64) (size : ℕ) : ZioCksum :=
  fletcher2 id buf size

/-- The body of the loop of `fletcher_4`; the accumulators are the words of the checksum. -/
def ZioCksum.add (s : ZioCksum) (x : BitVec 32) : ZioCksum :=
  let a := s.zcWord0 + x.setWidth 64
  let b := s.zcWord1 + a
  let c := s.zcWord2 + b
  let d := s.zcWord3 + c
  ⟨a, b, c, d⟩

def fletcher4 (swap : BitVec 32 → BitVec 32) (ip : ℕ → BitVec 32) (size : ℕ) (zc : ZioCksum) :
    ZioCksum :=
  (range (size / 4)).foldl (fun s i => s.add (swap (ip i))) zc

def fletcher4Native (buf : ℕ → BitVec 32) (size : ℕ) : ZioCksum :=
  fletcher4 id buf size ⟨0, 0, 0, 0⟩

def fletcher4Byteswap (buf : ℕ → BitVec 32) (size : ℕ) : ZioCksum :=
  fletcher4 bswap32 buf size ⟨0, 0, 0, 0⟩

/-! ## `sha256.c` -/

namespace Sha

open Sha256 (Words8)

def ch (x y z : BitVec 32) : BitVec 32 := z ^^^ (x &&& (y ^^^ z))

def maj (x y z : BitVec 32) : BitVec 32 := (x &&& y) ^^^ (z &&& (x ^^^ y))

def rot32 (x : BitVec 32) (s : ℕ) : BitVec 32 := (x >>> s) ||| (x <<< (32 - s))

def SIGMA0 (x : BitVec 32) : BitVec 32 := rot32 x 2 ^^^ rot32 x 13 ^^^ rot32 x 22

def SIGMA1 (x : BitVec 32) : BitVec 32 := rot32 x 6 ^^^ rot32 x 11 ^^^ rot32 x 25

def sigma0 (x : BitVec 32) : BitVec 32 := rot32 x 7 ^^^ rot32 x 18 ^^^ (x >>> 3)

def sigma1 (x : BitVec 32) : BitVec 32 := rot32 x 17 ^^^ rot32 x 19 ^^^ (x >>> 10)

/-- `SHA256_K` -/
def sha256K : List (BitVec 32) :=
  [0x428a2f98, 0x71374491, 0xb5c0fbcf, 0xe9b5dba5, 0x3956c25b, 0x59f111f1, 0x923f82a4, 0xab1c5ed5,
    0xd807aa98, 0x12835b01, 0x243185be, 0x550c7dc3, 0x72be5d74, 0x80deb1fe, 0x9bdc06a7, 0xc19bf174,
    0xe49b69c1, 0xefbe4786, 0x0fc19dc6, 0x240ca1cc, 0x2de92c6f, 0x4a7484aa, 0x5cb0a9dc, 0x76f988da,
    0x983e5152, 0xa831c66d, 0xb00327c8, 0xbf597fc7, 0xc6e00bf3, 0xd5a79147, 0x06ca6351, 0x14292967,
    0x27b70a85, 0x2e1b2138, 0x4d2c6dfc, 0x53380d13, 0x650a7354, 0x766a0abb, 0x81c2c92e, 0x92722c85,
    0xa2bfe8a1, 0xa81a664b, 0xc24b8b70, 0xc76c51a3, 0xd192e819, 0xd6990624, 0xf40e3585, 0x106aa070,
    0x19a4c116, 0x1e376c08, 0x2748774c, 0x34b0bcb5, 0x391c0cb3, 0x4ed8aa4a, 0x5b9cca4f, 0x682e6ff3,
    0x748f82ee, 0x78a5636f, 0x84c87814, 0x8cc70208, 0x90befffa, 0xa4506ceb, 0xbef9a3f7, 0xc67178f2]

/-- `W[t]` for the first sixteen `t`: four bytes, the first one highest. -/
def loadWord (cp : ℕ → BitVec 8) (t : ℕ) : BitVec 32 :=
  ((cp (4 * t)).setWidth 32 <<< 24) ||| ((cp (4 * t + 1)).setWidth 32 <<< 16) |||
    ((cp (4 * t + 2)).setWidth 32 <<< 8) ||| (cp (4 * t + 3)).setWidth 32

/-- The loop that fills the rest of `W`. -/
def extend (W : List (BitVec 32)) : ℕ → List (BitVec 32)
  | 0 => W
  | n + 1 =>
    let W := extend W n
    let t := W.length
    W ++ [sigma1 (W.getD (t - 2) 0) + W.getD (t - 7) 0 + sigma0 (W.getD (t - 15) 0)
      + W.getD (t - 16) 0]

/-- One pass of the loop over the rounds. -/
def step (v : Words8) (K W : BitVec 32) : Words8 :=
  let T1 := v.h + SIGMA1 v.e + ch v.e v.f v.g + K + W
  let T2 := SIGMA0 v.a + maj v.a v.b v.c
  ⟨T1 + T2, v.a, v.b, v.c, v.d + T1, v.e, v.f, v.g⟩

/-- `SHA256Transform` -/
def sha256Transform (H : Words8) (cp : ℕ → BitVec 8) : Words8 :=
  let W := extend ((range 16).map (loadWord cp)) 48
  let v := (range 64).foldl (fun v t => step v (sha256K.getD t 0) (W.getD t 0)) H
  H.add v

/-- The value that `H` begins with. -/
def initialH : Words8 :=
  ⟨0x6a09e667, 0xbb67ae85, 0x3c6ef372, 0xa54ff53a, 0x510e527f, 0x9b05688c, 0x1f83d9ab, 0x5be0cd19⟩

/-- Zero bytes until eight bytes of a block are left.  A block has 64 bytes, so that as many
passes are enough. -/
def padZeros (pad : List (BitVec 8)) : ℕ → List (BitVec 8)
  | 0 => pad
  | n + 1 => if pad.length &&& 63 ≠ 56 then padZeros (pad ++ [0#8]) n else pad

/-- The contents of `pad` when the blocks in it are hashed. -/
def padding (buf : ℕ → BitVec 8) (size : ℕ) : List (BitVec 8) :=
  let pad := (range (size &&& 63)).map buf
  let pad := padZeros (pad ++ [0x80#8]) 64
  pad ++ (range 8).map fun i =>
    ((BitVec.ofNat 64 size <<< 3) >>> (56 - 8 * i)).setWidth 8

/-- `SHA256Transform` on each of the first `n` blocks. -/
def transforms (H : Words8) (cp : ℕ → BitVec 8) (n : ℕ) : Words8 :=
  (range n).foldl (fun H i => sha256Transform H fun k => cp (64 * i + k)) H

end Sha

open Sha in
/-- `zio_checksum_SHA256`.  The offset of a block is an `int`; past its range the behaviour is
undefined.  The tail of the message is taken from the beginning of the buffer, as the source has
it. -/
def zioChecksumSHA256 (buf : ℕ → BitVec 8) (size : ℕ) : Option ZioCksum := do
  let padsize := size &&& 63
  guard (size - padsize < 2 ^ 31)
  let H := transforms initialH buf ((size - padsize) / 64)
  let pad := padding buf size
  let H := transforms H (fun k => pad.getD k 0) (pad.length / 64)
  pure ⟨(H.a.setWidth 64 <<< 32) ||| H.b.setWidth 64, (H.c.setWidth 64 <<< 32) ||| H.d.setWidth 64,
    (H.e.setWidth 64 <<< 32) ||| H.f.setWidth 64, (H.g.setWidth 64 <<< 32) ||| H.h.setWidth 64⟩

end Polaris
