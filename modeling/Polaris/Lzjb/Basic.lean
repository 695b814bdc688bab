import Mathlib.Algebra.Group.Nat.Defs
import Mathlib.Logic.Function.Basic

/-!
# LZJB

The compression code of `lzjb.c`.  Source bytes are read from a list, so a read past
its end has no result.  The destination is a function from offsets to bytes, whose
initial contents do not matter.

`lzjb_compress` hashes three bytes into a table of addresses, of which only the low
sixteen bits are kept.  The address of the source buffer is a parameter, and the table
starts with arbitrary contents.  The number of bytes is a natural number: a block has at
most `SPA_MAXBLOCKSIZE` bytes, far fewer than an `int` can count.

## Main definitions

* `lzjbCompress`, `lzjbDecompress`
-/

namespace Polaris

open Function

/-- `NBBY`. -/
def nbby : ℕ := 8

/-- `MATCH_BITS`. -/
def matchBits : ℕ := 6

/-- `MATCH_MIN`. -/
def matchMin : ℕ := 3

/-- `MATCH_MAX`. -/
def matchMax : ℕ := (1 <<< matchBits) + (matchMin - 1)

/-- `OFFSET_MASK`. -/
def offsetMask : ℕ := (1 <<< (16 - matchBits)) - 1

/-- `LEMPEL_SIZE`. -/
def lempelSize : ℕ := 256

/-! ## Compressing -/

/-- The variables of `lzjb_compress`.  The three pointers are offsets into their buffers. -/
structure LzjbState where
  src : ℕ
  dst : ℕ
  copymap : ℕ
  copymask : ℕ
  lempel : Fin lempelSize → UInt16
  out : ℕ → UInt8

/-- The index into the table: `((src[0] + 13) ^ (src[1] - 13) ^ src[2]) & (LEMPEL_SIZE - 1)`. -/
def lzjbHash (a b c : UInt8) : Fin lempelSize :=
  ⟨((a + 13) ^^^ (b - 13) ^^^ c).toNat, UInt8.toNat_lt _⟩

/-- `(src - *hp) & OFFSET_MASK` for a pointer with the given address.  Only the low bits
of the difference matter. -/
def lzjbOffset (address : ℕ) (hp : UInt16) : ℕ := (address + 2 ^ 16 - hp.toNat) &&& offsetMask

/-- `*dst++ = b`. -/
def LzjbState.put (st : LzjbState) (b : UInt8) : LzjbState :=
  { st with dst := st.dst + 1, out := update st.out st.dst b }

/-- Before an item: go to the next bit of the copy map, and begin a new one after the
last bit.  There is no result if the destination may not have room for all its items. -/
def lzjbOpen (dLen : ℕ) (st : LzjbState) : Option LzjbState :=
  let copymask := st.copymask <<< 1
  if copymask = 1 <<< nbby then
    -- `dst >= d_start + d_len - 1 - 2 * NBBY`
    if dLen ≤ st.dst + (1 + 2 * nbby) then none
    else some ({ st with copymask := 1, copymap := st.dst }.put 0)
  else some { st with copymask := copymask }

/-- The length of a match, which is looked for up to `MATCH_MAX`. -/
def lzjbMatch (s : List UInt8) (src cpy : ℕ) : ℕ → ℕ → Option ℕ
  | 0, mlen => some mlen
  | n + 1, mlen => do
      let a ← s[src + mlen]?
      let b ← s[cpy + mlen]?
      if a ≠ b then some mlen else lzjbMatch s src cpy n (mlen + 1)

/-- Write the next byte of the source as it is. -/
def lzjbLiteral (s : List UInt8) (st : LzjbState) : Option LzjbState := do
  let b ← s[st.src]?
  pure { st.put b with src := st.src + 1 }

/-- Write a match. -/
def lzjbCopy (s : List UInt8) (offset : ℕ) (st : LzjbState) : Option LzjbState := do
  let mlen ← lzjbMatch s st.src (st.src - offset) (matchMax - matchMin) matchMin
  let map := st.out st.copymap ||| UInt8.ofNat st.copymask
  let st := { st with out := update st.out st.copymap map }
  let st := st.put (UInt8.ofNat (((mlen - matchMin) <<< (nbby - matchBits)) ||| (offset >>> nbby)))
  let st := st.put (UInt8.ofNat offset)
  pure { st with src := st.src + mlen }

/-- The next item: a match if the table has one, and a byte of the source otherwise. -/
def lzjbItem (address : ℕ) (s : List UInt8) (st : LzjbState) : Option LzjbState :=
  -- `src > s_start + s_len - MATCH_MAX`
  if s.length < st.src + matchMax then lzjbLiteral s st
  else do
    let a ← s[st.src]?
    let b ← s[st.src + 1]?
    let c ← s[st.src + 2]?
    let hash := lzjbHash a b c
    let offset := lzjbOffset (address + st.src) (st.lempel hash)
    let st := { st with lempel := update st.lempel hash (UInt16.ofNat (address + st.src)) }
    let cpy := st.src - offset
    if offset ≤ st.src ∧ offset ≠ 0 ∧ s[cpy]? = some a ∧ s[cpy + 1]? = some b ∧ s[cpy + 2]? = some c
    then lzjbCopy s offset st
    else lzjbLiteral s st

/-- Store the source as it is. -/
def lzjbStore (s : List UInt8) (out : ℕ → UInt8) : ℕ → UInt8 := fun i => s.getD i (out i)

/-- The loop of `lzjb_compress`. -/
def lzjbCompressLoop (address : ℕ) (s : List UInt8) (dLen : ℕ) :
    ℕ → LzjbState → Option (ℕ × (ℕ → UInt8))
  | 0, _ => none
  | n + 1, st =>
    if st.src < s.length then
      match lzjbOpen dLen st with
      | none => some (s.length, if dLen ≠ s.length then st.out else lzjbStore s st.out)
      | some st => do
          let st ← lzjbItem address s st
          lzjbCompressLoop address s dLen n st
    else some (st.dst, st.out)

/-- `lzjb_compress`.  The first map is begun before it is used, so what `copymap` points
to at first does not matter. -/
def lzjbCompress (address : ℕ) (s : List UInt8) (out : ℕ → UInt8) (dLen : ℕ)
    (lempel : Fin lempelSize → UInt16) : Option (ℕ × (ℕ → UInt8)) :=
  lzjbCompressLoop address s dLen (s.length + 1)
    { src := 0, dst := 0, copymap := 0, copymask := 1 <<< (nbby - 1), lempel := lempel, out := out }

/-! ## Decompressing -/

/-- The variables of `lzjb_decompress`. -/
structure LzjbDecode where
  src : ℕ
  dst : ℕ
  copymap : UInt8
  copymask : ℕ
  out : ℕ → UInt8

/-- `while (--mlen >= 0 && dst < d_end) *dst++ = *cpy++`. -/
def lzjbReplay (dEnd : ℕ) : ℕ → ℕ → ℕ → (ℕ → UInt8) → ℕ × (ℕ → UInt8)
  | 0, dst, _, out => (dst, out)
  | mlen + 1, dst, cpy, out =>
    if dst < dEnd then
      lzjbReplay dEnd mlen (dst + 1) (cpy + 1) (update out dst (out cpy))
    else (dst, out)

/-- Before an item: go to the next bit of the copy map, and read a new one after the last
bit. -/
def lzjbNext (s : List UInt8) (st : LzjbDecode) : Option LzjbDecode :=
  let copymask := st.copymask <<< 1
  if copymask = 1 <<< nbby then do
    let map ← s[st.src]?
    pure { st with copymask := 1, copymap := map, src := st.src + 1 }
  else pure { st with copymask := copymask }

/-- The loop of `lzjb_decompress`. -/
def lzjbDecompressLoop (s : List UInt8) (dEnd : ℕ) : ℕ → LzjbDecode → Option (ℤ × (ℕ → UInt8))
  | 0, _ => none
  | n + 1, st =>
    if st.dst < dEnd then do
      let st ← lzjbNext s st
      if st.copymap.toNat &&& st.copymask ≠ 0 then do
        let a ← s[st.src]?
        let b ← s[st.src + 1]?
        let mlen := (a.toNat >>> (nbby - matchBits)) + matchMin
        let offset := ((a.toNat <<< nbby) ||| b.toNat) &&& offsetMask
        if st.dst < offset then pure (-1, st.out)
        else
          let (dst, out) := lzjbReplay dEnd mlen st.dst (st.dst - offset) st.out
          lzjbDecompressLoop s dEnd n { st with src := st.src + 2, dst := dst, out := out }
      else do
        let b ← s[st.src]?
        lzjbDecompressLoop s dEnd n
          { st with
            src := st.src + 1
            dst := st.dst + 1
            out := update st.out st.dst b }
    else pure (0, st.out)

/-- `lzjb_decompress`. -/
def lzjbDecompress (s : List UInt8) (out : ℕ → UInt8) (dLen : ℕ) : Option (ℤ × (ℕ → UInt8)) :=
  lzjbDecompressLoop s dLen (dLen + 1)
    { src := 0, dst := 0, copymap := 0, copymask := 1 <<< (nbby - 1), out := out }

end Polaris
