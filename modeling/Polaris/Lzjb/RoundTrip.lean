import Mathlib.Data.Nat.Bitwise
import Mathlib.Tactic.IntervalCases
import Polaris.Lib.Partial
import Polaris.Lzjb.Basic

/-!
# Compressing and decompressing

The compressed data is a sequence of items, each a byte or a match, with a map byte
before every eight of them.  `Coded` says that a prefix of the destination consists of
such items and that they stand for a prefix of the source.

A map byte is written before its items and patched as they follow.  Patching it sets a
bit that no earlier item uses, so what was coded before remains coded.

## Main definitions

* `Coded`, `Compressing`

## Main statements

* `Coded.decode`, `lzjbCompressLoop_spec`
* `lzjb_round_trip`, `lzjbDecompress_safe`
-/

namespace Polaris

open Function List

/-! ## The format -/

/-- Where item number `count` is, if the items before it end at `dst`. -/
def itemPos (dst count : ℕ) : ℕ := if count % 8 = 0 then dst + 1 else dst

theorem le_itemPos (dst count : ℕ) : dst ≤ itemPos dst count := by
  rw [itemPos]
  split <;> omega

/-- Where the map byte of item number `count` is, if `map` is the one of the item before. -/
def mapPos (dst count map : ℕ) : ℕ := if count % 8 = 0 then dst else map

/-- The first byte of a match. -/
def matchByte (mlen offset : ℕ) : UInt8 :=
  UInt8.ofNat (((mlen - matchMin) <<< (nbby - matchBits)) ||| (offset >>> nbby))

/-- The bytes of `out` before `dst` are `count` items that stand for the bytes of `s`
before `src`.  The map byte of the last item is at `map`. -/
inductive Coded (s : List UInt8) (out : ℕ → UInt8) : (src dst count map : ℕ) → Prop
  | start (map : ℕ) : Coded s out 0 0 0 map
  | literal {src dst count map : ℕ} (h : Coded s out src dst count map)
      (hbyte : s[src]? = some (out (itemPos dst count)))
      (hflag : (out (mapPos dst count map)).toNat.testBit (count % 8) = false) :
      Coded s out (src + 1) (itemPos dst count + 1) (count + 1) (mapPos dst count map)
  | copy {src dst count map mlen offset : ℕ} (h : Coded s out src dst count map)
      (hpos : 0 < offset) (hle : offset ≤ src) (hoffset : offset < 1024) (hmin : 3 ≤ mlen)
      (hmax : mlen ≤ 66) (hfit : src + mlen ≤ s.length)
      (heq : ∀ t, t < mlen → s[src + t]? = s[src - offset + t]?)
      (hflag : (out (mapPos dst count map)).toNat.testBit (count % 8) = true)
      (hfirst : out (itemPos dst count) = matchByte mlen offset)
      (hsecond : out (itemPos dst count + 1) = UInt8.ofNat offset) :
      Coded s out (src + mlen) (itemPos dst count + 2) (count + 1) (mapPos dst count map)

namespace Coded

variable {s : List UInt8} {out out' : ℕ → UInt8} {src dst count map : ℕ}

/-- The map byte of the next item comes before it and after the items before, unless it
is the map byte of the last one. -/
theorem mapPos_lt_itemPos (h : count ≠ 0 → map < dst) :
    mapPos dst count map < itemPos dst count := by
  simp only [itemPos, mapPos]
  split
  · omega
  · exact h (by omega)

theorem map_lt (h : Coded s out src dst count map) (hc : count ≠ 0) : map < dst := by
  induction h with
  | start => exact absurd rfl hc
  | literal _ _ _ ih =>
    have := mapPos_lt_itemPos ih
    omega
  | copy _ _ _ _ _ _ _ _ _ _ _ ih =>
    have := mapPos_lt_itemPos ih
    omega

theorem count_le (h : Coded s out src dst count map) : count ≤ src := by
  induction h with
  | start => omega
  | literal h _ _ ih => omega
  | copy h _ _ _ _ _ _ _ _ _ _ ih => omega

theorem dst_eq_zero (h : Coded s out src dst 0 map) : dst = 0 := by
  cases h
  rfl

theorem src_le (h : Coded s out src dst count map) : src ≤ s.length := by
  cases h with
  | start => omega
  | literal _ hbyte _ => exact (List.getElem?_eq_some_iff.mp hbyte).1
  | copy _ _ _ _ _ _ hfit => exact hfit

/-- What the next item and its map byte leave of the items before. -/
theorem frame_before (h : Coded s out src dst count map)
    (hout : ∀ j, j < itemPos dst count → j ≠ mapPos dst count map → out' j = out j)
    (hbits : ∀ b, b < count % 8 → (out' (mapPos dst count map)).toNat.testBit b =
      (out (mapPos dst count map)).toNat.testBit b) :
    (∀ j, j < dst → j ≠ map → out' j = out j) ∧ (count ≠ 0 → ∀ b, b ≤ (count + 7) % 8 →
      (out' map).toNat.testBit b = (out map).toNat.testBit b) := by
  have hlt := h.map_lt
  by_cases hc : count % 8 = 0
  · simp only [itemPos, mapPos, if_pos hc] at hout hbits
    refine ⟨fun j hj _ => hout j (by omega) (by omega), fun h0 b _ => ?_⟩
    have := hlt h0
    rw [hout map (by omega) (by omega)]
  · simp only [itemPos, mapPos, if_neg hc] at hout hbits
    exact ⟨hout, fun _ b hb => hbits b (by omega)⟩

/-- What was coded remains coded when nothing but later bits of the last map byte and
later bytes change. -/
theorem frame (h : Coded s out src dst count map) (hout : ∀ j, j < dst → j ≠ map → out' j = out j)
    (hbits : count ≠ 0 → ∀ b, b ≤ (count + 7) % 8 →
      (out' map).toNat.testBit b = (out map).toNat.testBit b) :
    Coded s out' src dst count map := by
  induction h with
  | start => exact .start _
  | @literal src dst count map h hbyte hflag ih =>
    have hlt := mapPos_lt_itemPos h.map_lt
    have hbits' := fun b (hb : b ≤ count % 8) => hbits (by omega) b (by omega)
    obtain ⟨h1, h2⟩ := h.frame_before (fun j hj hne => hout j (by omega) hne) fun b hb =>
      hbits' b hb.le
    refine .literal (ih h1 h2) ?_ ?_
    · rw [hout _ (by omega) (by omega)]
      exact hbyte
    · rw [hbits' _ le_rfl]
      exact hflag
  | @copy src dst count map mlen offset h hpos hle hoffset hmin hmax hfit heq hflag hfirst
    hsecond ih =>
    have hlt := mapPos_lt_itemPos h.map_lt
    have hbits' := fun b (hb : b ≤ count % 8) => hbits (by omega) b (by omega)
    obtain ⟨h1, h2⟩ := h.frame_before (fun j hj hne => hout j (by omega) hne) fun b hb =>
      hbits' b hb.le
    refine .copy (ih h1 h2) hpos hle hoffset hmin hmax hfit heq ?_ ?_ ?_
    · rw [hbits' _ le_rfl]
      exact hflag
    · rw [hout _ (by omega) (by omega)]
      exact hfirst
    · rw [hout _ (by omega) (by omega)]
      exact hsecond

end Coded

/-! ## Decompressing -/

/-- Going from one bit of a map to the next. -/
theorem copymask_shift (count : ℕ) :
    2 ^ ((count + 7) % 8) <<< 1 = if count % 8 = 0 then 1 <<< nbby else 2 ^ (count % 8) := by
  rw [Nat.shiftLeft_eq, ← pow_add]
  split
  · rw [show (count + 7) % 8 = 7 by omega]
    rfl
  · rw [show (count + 7) % 8 + 1 = count % 8 by omega]

theorem copymask_ne (count : ℕ) : 2 ^ (count % 8) ≠ 1 <<< nbby := by
  have hlt : 2 ^ (count % 8) < 2 ^ 8 := Nat.pow_lt_pow_right (by decide) (by omega)
  rw [nbby, Nat.shiftLeft_eq]
  omega

variable {dst last offset mlen : ℕ}

theorem matchByte_toNat (hmin : 3 ≤ mlen) (hmax : mlen ≤ 66) (ho : offset < 1024) :
    (matchByte mlen offset).toNat = (mlen - 3) * 4 + offset / 256 := by
  have hhigh : offset >>> nbby < 2 ^ 2 := by
    rw [nbby, Nat.shiftRight_eq_div_pow]
    omega
  rw [matchByte, matchMin, show nbby - matchBits = 2 from rfl,
    ← Nat.shiftLeft_add_eq_or_of_lt hhigh, Nat.shiftLeft_eq, nbby, Nat.shiftRight_eq_div_pow,
    UInt8.toNat_ofNat']
  omega

/-- The two bytes of a match are decoded to its length and its offset. -/
theorem matchByte_decode (hmin : 3 ≤ mlen) (hmax : mlen ≤ 66) (ho : offset < 1024) :
    ((matchByte mlen offset).toNat >>> (nbby - matchBits)) + matchMin = mlen ∧
      (((matchByte mlen offset).toNat <<< nbby) ||| (UInt8.ofNat offset).toNat) &&& offsetMask =
        offset := by
  have hlow : (UInt8.ofNat offset).toNat < 2 ^ 8 := UInt8.toNat_lt _
  rw [matchByte_toNat hmin hmax ho, show nbby - matchBits = 2 from rfl, matchMin, nbby,
    Nat.shiftRight_eq_div_pow, ← Nat.shiftLeft_add_eq_or_of_lt hlow, Nat.shiftLeft_eq,
    show offsetMask = 2 ^ 10 - 1 from rfl, Nat.and_two_pow_sub_one_eq_mod, UInt8.toNat_ofNat']
  omega

/-- Copying a match byte by byte.  A byte that is copied may have been written by the same
loop. -/
theorem lzjbReplay_spec {s : List UInt8} {cpy : ℕ} :
    ∀ (mlen src : ℕ) (out : ℕ → UInt8), cpy < src → src + mlen ≤ s.length →
      (∀ t, t < mlen → s[src + t]? = s[cpy + t]?) → (∀ j, j < src → s[j]? = some (out j)) →
      ∃ out', lzjbReplay s.length mlen src cpy out = (src + mlen, out') ∧
        (∀ j, j < src + mlen → s[j]? = some (out' j)) ∧ ∀ j, s.length ≤ j → out' j = out j := by
  intro mlen
  induction mlen generalizing cpy with
  | zero => exact fun src out _ _ _ hout => ⟨out, rfl, hout, fun _ _ => rfl⟩
  | succ mlen ih =>
    intro src out hcpy hfit heq hout
    have hnext : ∀ j, j < src + 1 → s[j]? = some (update out src (out cpy) j) := by
      intro j hj
      by_cases hjs : j = src
      · rw [hjs, update_self, ← hout cpy hcpy]
        exact heq 0 (by omega)
      · rw [update_of_ne hjs]
        exact hout j (by omega)
    obtain ⟨out', hrun, hout', hrest⟩ := ih (src + 1) _ (by omega : cpy + 1 < src + 1) (by omega)
      (fun t ht => by
        have := heq (t + 1) (by omega)
        rwa [← Nat.add_assoc, Nat.add_right_comm, ← Nat.add_assoc, Nat.add_right_comm cpy] at this)
      hnext
    refine ⟨out', ?_, fun j hj => hout' j (by omega), fun j hj => ?_⟩
    · rw [lzjbReplay, if_pos (by omega), hrun, Nat.add_assoc, Nat.add_comm 1 mlen]
    · rw [hrest j hj, update_of_ne (by omega)]

/-- The first bytes of the destination. -/
def outBytes (out : ℕ → UInt8) (n : ℕ) : List UInt8 := (List.range n).map out

theorem getElem?_outBytes {out : ℕ → UInt8} {n i : ℕ} (h : i < n) :
    (outBytes out n)[i]? = some (out i) := by
  simp [outBytes, h]

/-- The state of `lzjb_decompress` after `count` items, with the buffer that was `buf`. -/
structure Decoding (s : List UInt8) (out buf : ℕ → UInt8) (src dst count map : ℕ)
    (st : LzjbDecode) : Prop where
  read : st.src = dst
  written : st.dst = src
  mask : st.copymask = 2 ^ ((count + 7) % 8)
  flags : count ≠ 0 → st.copymap = out map
  data : ∀ j, j < src → s[j]? = some (st.out j)
  rest : ∀ j, s.length ≤ j → st.out j = buf j

section

variable {s : List UInt8} {out buf : ℕ → UInt8} {src dst count map n : ℕ} {st : LzjbDecode}

theorem flag_eq (x : UInt8) (r : ℕ) : (x.toNat &&& 2 ^ r ≠ 0) ↔ x.toNat.testBit r = true := by
  rw [Nat.and_two_pow]
  cases x.toNat.testBit r <;> simp

section

variable (h : Decoding s out buf src dst count map st)

include h

/-- The map byte of the next item is at hand. -/
theorem lzjbNext_spec (hn : itemPos dst count ≤ n) :
    lzjbNext (outBytes out n) st = some
      { st with
        src := itemPos dst count
        copymap := out (mapPos dst count map)
        copymask := 2 ^ (count % 8) } := by
  simp only [lzjbNext, h.mask, copymask_shift, h.read]
  by_cases hc : count % 8 = 0
  · simp only [itemPos, if_pos hc] at hn
    simp only [if_true, itemPos, mapPos, getElem?_outBytes (show dst < n by omega), hc]
    rfl
  · simp only [if_neg hc, if_neg (copymask_ne count), itemPos, mapPos, ← h.read,
      ← h.flags (by omega)]
    rfl

/-- One round of `lzjb_decompress` that meets a byte. -/
theorem decode_literal
    (hbyte : s[src]? = some (out (itemPos dst count)))
    (hflag : (out (mapPos dst count map)).toNat.testBit (count % 8) = false)
    (hn : itemPos dst count + 1 ≤ n) (fuel : ℕ) :
    ∃ st', lzjbDecompressLoop (outBytes out n) s.length (fuel + 1) st =
        lzjbDecompressLoop (outBytes out n) s.length fuel st' ∧
      Decoding s out buf (src + 1) (itemPos dst count + 1) (count + 1)
        (mapPos dst count map) st' := by
  have hlt : src < s.length := (List.getElem?_eq_some_iff.mp hbyte).1
  have hdata : ∀ j, j < src + 1 →
      s[j]? = some (update st.out src (out (itemPos dst count)) j) := by
    intro j hj
    by_cases hjs : j = src
    · rw [hjs, update_self]
      exact hbyte
    · rw [update_of_ne hjs]
      exact h.data j (by omega)
  have hrest : ∀ j, s.length ≤ j →
      update st.out src (out (itemPos dst count)) j = buf j := by
    intro j hj
    rw [update_of_ne (by omega)]
    exact h.rest j hj
  refine ⟨{ src := itemPos dst count + 1
            dst := src + 1
            copymap := out (mapPos dst count map)
            copymask := 2 ^ (count % 8)
            out := update st.out src (out (itemPos dst count)) }, ?_,
    ⟨rfl, rfl, ?_, fun _ => rfl, hdata, hrest⟩⟩
  · rw [lzjbDecompressLoop, if_pos (h.written ▸ hlt)]
    refine bind_of_some (lzjbNext_spec h (n := n) (by omega)) ?_
    rw [if_neg (by rw [flag_eq, hflag]; simp)]
    refine bind_of_some (getElem?_outBytes (show itemPos dst count < n by omega)) ?_
    rw [h.written]
  · rw [Nat.add_assoc, Nat.add_mod_right]

/-- One round of `lzjb_decompress` that meets a match. -/
theorem decode_copy (hpos : 0 < offset)
    (hle : offset ≤ src) (hoffset : offset < 1024) (hmin : 3 ≤ mlen) (hmax : mlen ≤ 66)
    (hfit : src + mlen ≤ s.length) (heq : ∀ t, t < mlen → s[src + t]? = s[src - offset + t]?)
    (hflag : (out (mapPos dst count map)).toNat.testBit (count % 8) = true)
    (hfirst : out (itemPos dst count) = matchByte mlen offset)
    (hsecond : out (itemPos dst count + 1) = UInt8.ofNat offset) (hn : itemPos dst count + 2 ≤ n)
    (fuel : ℕ) :
    ∃ st', lzjbDecompressLoop (outBytes out n) s.length (fuel + 1) st =
        lzjbDecompressLoop (outBytes out n) s.length fuel st' ∧
      Decoding s out buf (src + mlen) (itemPos dst count + 2) (count + 1)
        (mapPos dst count map) st' := by
  obtain ⟨hlen, hoff⟩ := matchByte_decode hmin hmax hoffset
  obtain ⟨out', hreplay, hdata, hrest⟩ := lzjbReplay_spec mlen src st.out
    (by omega) hfit heq h.data
  refine ⟨{ src := itemPos dst count + 2
            dst := src + mlen
            copymap := out (mapPos dst count map)
            copymask := 2 ^ (count % 8)
            out := out' }, ?_,
    ⟨rfl, rfl, ?_, fun _ => rfl, hdata, fun j hj => (hrest j hj).trans (h.rest j hj)⟩⟩
  · rw [lzjbDecompressLoop, if_pos (by rw [h.written]; omega)]
    refine bind_of_some (lzjbNext_spec h (n := n) (by omega)) ?_
    rw [if_pos ((flag_eq ..).mpr hflag)]
    refine bind_of_some (getElem?_outBytes (show itemPos dst count < n by omega)) ?_
    refine bind_of_some (getElem?_outBytes (show itemPos dst count + 1 < n by omega)) ?_
    simp only [hfirst, hsecond, hlen, hoff, h.written, if_neg (not_lt.mpr hle), hreplay]
  · rw [Nat.add_assoc, Nat.add_mod_right]

end

/-- What is coded is decoded: after `count` rounds `lzjb_decompress` has the data. -/
theorem Coded.decode (h : Coded s out src dst count map) (hn : dst ≤ n) (buf : ℕ → UInt8) :
    ∀ fuel, ∃ st, lzjbDecompressLoop (outBytes out n) s.length (fuel + count)
        { src := 0, dst := 0, copymap := 0, copymask := 1 <<< (nbby - 1), out := buf } =
        lzjbDecompressLoop (outBytes out n) s.length fuel st ∧
      Decoding s out buf src dst count map st := by
  induction h with
  | start =>
    exact fun fuel => ⟨_, rfl, rfl, rfl, rfl, fun h => absurd rfl h,
      fun j hj => absurd hj (by omega),
      fun _ _ => rfl⟩
  | @literal src dst count map h hbyte hflag ih =>
    intro fuel
    obtain ⟨st, hrun, hst⟩ := ih (by have := le_itemPos dst count; omega) (fuel + 1)
    obtain ⟨st', hrun', hst'⟩ := decode_literal hst hbyte hflag hn fuel
    refine ⟨st', ?_, hst'⟩
    rw [Nat.add_assoc, Nat.add_comm 1 count] at hrun
    exact hrun.trans hrun'
  | @copy src dst count map mlen offset h hpos hle hoffset hmin hmax hfit heq hflag hfirst
    hsecond ih =>
    intro fuel
    obtain ⟨st, hrun, hst⟩ := ih (by have := le_itemPos dst count; omega) (fuel + 1)
    obtain ⟨st', hrun', hst'⟩ := decode_copy hst hpos hle hoffset hmin hmax hfit heq hflag hfirst
      hsecond hn fuel
    refine ⟨st', ?_, hst'⟩
    rw [Nat.add_assoc, Nat.add_comm 1 count] at hrun
    exact hrun.trans hrun'

end

/-! ## Compressing -/

/-- The state of `lzjb_compress` after `count` items.  The destination was `buf` at first,
and it has room for the rest of the items of the last map. -/
structure Compressing (s : List UInt8) (buf : ℕ → UInt8) (dLen count : ℕ) (st : LzjbState) :
    Prop where
  coded : Coded s st.out st.src st.dst count st.copymap
  mask : st.copymask = 2 ^ ((count + 7) % 8)
  flags : count % 8 ≠ 0 → (st.out st.copymap).toNat < 2 ^ (count % 8)
  room : count ≠ 0 → st.dst + 2 * (7 - (count + 7) % 8) < dLen
  rest : ∀ j, st.dst ≤ j → st.out j = buf j

/-- The state of `lzjb_compress` before item number `count` is written.  The items before
end at `dst`, and the last of them has its map byte at `last`. -/
structure Opened (s : List UInt8) (buf : ℕ → UInt8) (dLen dst count last : ℕ) (st : LzjbState) :
    Prop where
  coded : Coded s st.out st.src dst count last
  item : st.dst = itemPos dst count
  map : st.copymap = mapPos dst count last
  mask : st.copymask = 2 ^ (count % 8)
  flags : (st.out st.copymap).toNat < 2 ^ (count % 8)
  room : st.dst + 2 * (8 - count % 8) < dLen
  rest : ∀ j, st.dst ≤ j → st.out j = buf j

section

variable {s : List UInt8} {buf : ℕ → UInt8} {dLen count : ℕ} {st : LzjbState}

theorem lzjbOpen_spec (h : Compressing s buf dLen count st) :
    lzjbOpen dLen st = none ∨ ∃ st', lzjbOpen dLen st = some st' ∧ st'.src = st.src ∧
      Opened s buf dLen st.dst count st.copymap st' := by
  simp only [lzjbOpen, h.mask, copymask_shift]
  by_cases hc : count % 8 = 0
  · simp only [if_pos hc, if_true]
    by_cases hroom : dLen ≤ st.dst + (1 + 2 * nbby)
    · exact Or.inl (if_pos hroom)
    rw [nbby] at hroom
    have hframe : ∀ j, j ≠ st.dst → update st.out st.dst 0 j = st.out j := fun j hj =>
      update_of_ne hj ..
    have hcoded : Coded s (update st.out st.dst 0) st.src st.dst count st.copymap := by
      refine h.coded.frame (fun j hj _ => hframe j (by omega)) fun h0 b _ => ?_
      have := h.coded.map_lt h0
      rw [hframe _ (by omega)]
    refine Or.inr ⟨_, if_neg hroom, rfl, ⟨hcoded, ?_, ?_, ?_, ?_, ?_, fun j hj => ?_⟩⟩
    · simp [LzjbState.put, itemPos, hc]
    · simp [LzjbState.put, mapPos, hc]
    · simp [LzjbState.put, hc]
    · simp [LzjbState.put, hc]
    · simp only [LzjbState.put, hc]
      omega
    · simp only [LzjbState.put] at hj ⊢
      rw [hframe j (by omega)]
      exact h.rest j (by omega)
  · simp only [if_neg hc, if_neg (copymask_ne count)]
    have hroom := h.room (by omega)
    refine Or.inr ⟨_, rfl, rfl, ⟨h.coded, by simp [itemPos, hc],
      by simp [mapPos, hc], rfl, h.flags hc, ?_, h.rest⟩⟩
    simp only
    omega

/-- The loop finds a match of at most `MATCH_MAX` bytes. -/
theorem lzjbMatch_spec {src cpy : ℕ} (hfit : src + matchMax ≤ s.length) (hcpy : cpy ≤ src) :
    ∀ n mlen, n + mlen = matchMax → ∃ m, lzjbMatch s src cpy n mlen = some m ∧ mlen ≤ m ∧
      m ≤ matchMax ∧ ∀ t, mlen ≤ t → t < m → s[src + t]? = s[cpy + t]? := by
  intro n
  induction n with
  | zero =>
    exact fun mlen hn => ⟨mlen, rfl, le_rfl, by omega, fun t h1 h2 => absurd h2 (by omega)⟩
  | succ n ih =>
    intro mlen hn
    have ha : s[src + mlen]? = some s[src + mlen] := getElem?_eq_getElem (by omega)
    have hb : s[cpy + mlen]? = some s[cpy + mlen] := getElem?_eq_getElem (by omega)
    by_cases hne : s[src + mlen] = s[cpy + mlen]
    · obtain ⟨m, hrun, hle, hmax, heq⟩ := ih (mlen + 1) (by omega)
      refine ⟨m, ?_, by omega, hmax, fun t h1 h2 => ?_⟩
      · refine bind_of_some ha (bind_of_some hb ?_)
        rw [if_neg (by simp [hne])]
        exact hrun
      · by_cases ht : t = mlen
        · rw [ht, ha, hb, hne]
        · exact heq t (by omega) h2
    · refine ⟨mlen, ?_, le_rfl, by omega, fun t h1 h2 => absurd h2 (by omega)⟩
      refine bind_of_some ha (bind_of_some hb ?_)
      rw [if_pos (by simp [hne])]

/-- Setting the bit of an item in its map byte. -/
theorem setFlag_toNat (x : UInt8) {r : ℕ} (hr : r < 8) :
    (x ||| UInt8.ofNat (2 ^ r)).toNat = x.toNat ||| 2 ^ r := by
  have hlt : 2 ^ r < 2 ^ 8 := Nat.pow_lt_pow_right (by decide) hr
  rw [UInt8.toNat_or, UInt8.toNat_ofNat', Nat.mod_eq_of_lt hlt]

section

variable (h : Opened s buf dLen dst count last st)

include h

/-- Later bytes do not change what was coded. -/
theorem Opened.coded_of_eq {out' : ℕ → UInt8}
    (hout : ∀ j, j < st.dst → j ≠ st.copymap → out' j = st.out j)
    (hbits : ∀ b, b < count % 8 →
      (out' st.copymap).toNat.testBit b = (st.out st.copymap).toNat.testBit b) :
    Coded s out' st.src dst count last := by
  rw [h.map] at hout hbits
  rw [h.item] at hout
  obtain ⟨hbefore, hmap⟩ := h.coded.frame_before hout hbits
  exact h.coded.frame hbefore hmap

theorem Opened.copymap_lt : st.copymap < st.dst := by
  rw [h.map, h.item]
  exact Coded.mapPos_lt_itemPos h.coded.map_lt

theorem lzjbLiteral_spec (hlt : st.src < s.length) :
    ∃ st', lzjbLiteral s st = some st' ∧ st.src < st'.src ∧
      Compressing s buf dLen (count + 1) st' := by
  have hbyte : s[st.src]? = some s[st.src] := getElem?_eq_getElem hlt
  have hmap := h.copymap_lt
  have hframe : ∀ j, j ≠ st.dst → update st.out st.dst s[st.src] j = st.out j := fun j hj =>
    update_of_ne hj ..
  have hcoded := h.coded_of_eq
    (fun j hj _ => hframe j (by omega)) fun b _ => by rw [hframe _ (by omega)]
  have hflags : (update st.out st.dst s[st.src] st.copymap).toNat < 2 ^ (count % 8) := by
    rw [hframe _ (by omega)]
    exact h.flags
  have hroom := h.room
  refine ⟨{ st.put s[st.src] with src := st.src + 1 }, bind_of_some hbyte rfl, Nat.lt_succ_self _,
    ⟨?_, ?_, fun hc => ?_, fun _ => ?_, fun j hj => ?_⟩⟩
  · simp only [LzjbState.put]
    rw [h.item] at hcoded
    rw [h.map, h.item] at hflags ⊢
    refine .literal hcoded ?_ (Nat.testBit_lt_two_pow hflags)
    rw [update_self]
    exact hbyte
  · simp only [LzjbState.put]
    rw [h.mask, Nat.add_assoc, Nat.add_mod_right]
  · simp only [LzjbState.put]
    refine hflags.trans_le (Nat.pow_le_pow_right (by decide) (by omega))
  · simp only [LzjbState.put]
    omega
  · simp only [LzjbState.put] at hj ⊢
    rw [hframe j (by omega)]
    exact h.rest j (by omega)

theorem lzjbCopy_spec (hpos : 0 < offset)
    (hle : offset ≤ st.src) (hoffset : offset < 1024) (hfit : st.src + matchMax ≤ s.length)
    (heq : ∀ t, t < 3 → s[st.src + t]? = s[st.src - offset + t]?) :
    ∃ st', lzjbCopy s offset st = some st' ∧ st.src < st'.src ∧
      Compressing s buf dLen (count + 1) st' := by
  obtain ⟨mlen, hrun, hmin, hmax, hmatch⟩ := lzjbMatch_spec hfit (Nat.sub_le st.src offset)
    (matchMax - matchMin) matchMin (by decide)
  rw [matchMin] at hmin hmatch
  rw [show matchMax = 66 from rfl] at hmax hfit
  have hall : ∀ t, t < mlen → s[st.src + t]? = s[st.src - offset + t]? := fun t ht => by
    by_cases h3 : t < 3
    · exact heq t h3
    · exact hmatch t (by omega) ht
  have hmap := h.copymap_lt
  set out' := update (update (update st.out st.copymap
    (st.out st.copymap ||| UInt8.ofNat st.copymask)) st.dst (matchByte mlen offset)) (st.dst + 1)
    (UInt8.ofNat offset) with hout'
  have hsecond : out' (st.dst + 1) = UInt8.ofNat offset := update_self ..
  have hfirst : out' st.dst = matchByte mlen offset := by
    rw [hout', update_of_ne (by omega), update_self]
  have hflag : (out' st.copymap).toNat = (st.out st.copymap).toNat ||| 2 ^ (count % 8) := by
    rw [hout', update_of_ne (by omega), update_of_ne (by omega),
      update_self, h.mask, setFlag_toNat _ (by omega)]
  have hframe : ∀ j, j ≠ st.copymap → j ≠ st.dst → j ≠ st.dst + 1 → out' j = st.out j := by
    intro j h1 h2 h3
    rw [hout', update_of_ne h3, update_of_ne h2, update_of_ne h1]
  have hcoded := h.coded_of_eq (fun j hj hne => hframe j hne (by omega) (by omega))
    fun b hb => by
      rw [hflag, Nat.testBit_or, Nat.testBit_two_pow_of_ne (by omega), Bool.or_false]
  have hbit : (out' st.copymap).toNat.testBit (count % 8) = true := by
    rw [hflag, Nat.testBit_or, Nat.testBit_two_pow_self, Bool.or_true]
  have hroom := h.room
  refine ⟨{ st with src := st.src + mlen, dst := st.dst + 2, out := out' }, ?_, ?_,
    ⟨?_, ?_, fun hc => ?_, fun _ => ?_, fun j hj => ?_⟩⟩
  · exact bind_of_some hrun rfl
  · simp only
    omega
  · simp only
    rw [h.map] at hbit ⊢
    rw [h.item] at hfirst hsecond ⊢
    exact .copy hcoded hpos hle hoffset hmin hmax (by omega) hall hbit hfirst hsecond
  · simp only
    rw [h.mask, Nat.add_assoc, Nat.add_mod_right]
  · simp only
    rw [hflag, show (count + 1) % 8 = count % 8 + 1 by omega]
    refine Nat.or_lt_two_pow (h.flags.trans ?_) ?_ <;>
      exact Nat.pow_lt_pow_right (by decide) (Nat.lt_succ_self _)
  · simp only
    omega
  · simp only at hj ⊢
    rw [hframe j (by omega) (by omega) (by omega)]
    exact h.rest j (by omega)

/-- An item is written, whatever the table has. -/
theorem lzjbItem_spec (hlt : st.src < s.length) (address : ℕ) :
    ∃ st', lzjbItem address s st = some st' ∧ st.src < st'.src ∧
      Compressing s buf dLen (count + 1) st' := by
  rw [lzjbItem]
  split
  · exact lzjbLiteral_spec h hlt
  rename_i hfit
  rw [show matchMax = 66 from rfl] at hfit
  have h0 : s[st.src]? = some s[st.src] := getElem?_eq_getElem hlt
  have h1 : s[st.src + 1]? = some s[st.src + 1] := getElem?_eq_getElem (by omega)
  have h2 : s[st.src + 2]? = some s[st.src + 2] := getElem?_eq_getElem (by omega)
  simp only [h0, h1, h2, Option.bind_eq_bind, Option.bind_some]
  set hash := lzjbHash s[st.src] s[st.src + 1] s[st.src + 2]
  set offset := lzjbOffset (address + st.src) (st.lempel hash)
  -- the table plays no part in what was coded
  have h' : Opened s buf dLen dst count last
      { st with lempel := update st.lempel hash (UInt16.ofNat (address + st.src)) } :=
    ⟨h.coded, h.item, h.map, h.mask, h.flags, h.room, h.rest⟩
  split
  · rename_i hmatch
    obtain ⟨hle, hne, e0, e1, e2⟩ := hmatch
    have hoffset : offset < 1024 := by
      have : offset ≤ offsetMask := Nat.and_le_right
      rw [show offsetMask = 1023 from rfl] at this
      omega
    refine lzjbCopy_spec h' (Nat.pos_of_ne_zero hne) hle hoffset (not_lt.mp hfit) fun t ht => ?_
    simp only
    interval_cases t
    · exact h0.trans e0.symm
    · exact h1.trans e1.symm
    · exact h2.trans e2.symm
  · exact lzjbLiteral_spec h' hlt

end

/-- **`lzjb_compress`** gives up, or it ends with the source coded. -/
theorem lzjbCompressLoop_spec (address : ℕ) :
    ∀ (fuel count : ℕ) (st : LzjbState), Compressing s buf dLen count st → st.src ≤ s.length →
      s.length - st.src < fuel →
      ∃ n out, lzjbCompressLoop address s dLen fuel st = some (n, out) ∧
        (n = s.length ∨ ∃ st' count', n = st'.dst ∧ out = st'.out ∧ st'.src = s.length ∧
          Compressing s buf dLen count' st') := by
  intro fuel
  induction fuel with
  | zero => omega
  | succ fuel ih =>
    intro count st h hle hfuel
    rw [lzjbCompressLoop]
    split
    · rename_i hlt
      rcases lzjbOpen_spec h with hopen | ⟨st₁, hopen, hsrc, h₁⟩
      · rw [hopen]
        exact ⟨_, _, rfl, Or.inl rfl⟩
      · rw [hopen]
        obtain ⟨st₂, hitem, hlt₂, h₂⟩ := lzjbItem_spec h₁ (hsrc ▸ hlt) address
        obtain ⟨n, out, hrun, hr⟩ := ih (count + 1) st₂ h₂ h₂.coded.src_le (by omega)
        exact ⟨n, out, bind_of_some hitem hrun, hr⟩
    · exact ⟨_, _, rfl, Or.inr ⟨st, count, rfl, rfl, by omega, h⟩⟩

end

/-- **Decompressing undoes compressing.**  Whatever the table and the destination hold at
first, `lzjb_compress` returns `s_len`, or it returns at most `d_len`, has written no byte
after those that it counts, and `lzjb_decompress` of these gets the source back. -/
theorem lzjb_round_trip (address : ℕ) (s : List UInt8) (out : ℕ → UInt8) (dLen : ℕ)
    (lempel : Fin lempelSize → UInt16) :
    ∃ n out', lzjbCompress address s out dLen lempel = some (n, out') ∧
      (n = s.length ∨ n ≤ dLen ∧ (∀ j, n ≤ j → out' j = out j) ∧
        ∀ buf, ∃ buf', lzjbDecompress (outBytes out' n) buf s.length = some (0, buf') ∧
          outBytes buf' s.length = s ∧ ∀ j, s.length ≤ j → buf' j = buf j) := by
  have hstart : Compressing s out dLen 0
      { src := 0, dst := 0, copymap := 0, copymask := 1 <<< (nbby - 1), lempel := lempel,
        out := out } :=
    ⟨.start 0, rfl, fun h => absurd rfl h, fun h => absurd rfl h, fun _ _ => rfl⟩
  obtain ⟨n, out', hrun, hr⟩ := lzjbCompressLoop_spec address (s.length + 1) 0 _ hstart
    (Nat.zero_le _)
    (by simp)
  refine ⟨n, out', hrun, hr.imp_right ?_⟩
  rintro ⟨st, count, rfl, rfl, hsrc, h⟩
  have hcoded := h.coded
  rw [hsrc] at hcoded
  refine ⟨?_, h.rest, fun buf => ?_⟩
  · by_cases h0 : count = 0
    · subst h0
      rw [hcoded.dst_eq_zero]
      exact Nat.zero_le _
    · have := h.room h0
      omega
  · obtain ⟨st', hdecode, hst⟩ := hcoded.decode le_rfl buf (s.length + 1 - count)
    have hcount := hcoded.count_le
    rw [Nat.sub_add_cancel (by omega)] at hdecode
    refine ⟨st'.out, ?_, ?_, hst.rest⟩
    · rw [lzjbDecompress, hdecode, show s.length + 1 - count = s.length - count + 1 by omega,
        lzjbDecompressLoop, if_neg (by rw [hst.written]; omega)]
      rfl
    · refine ext_getElem? fun j => ?_
      by_cases hj : j < s.length
      · rw [getElem?_outBytes hj, hst.data j hj]
      · rw [getElem?_eq_none (by simpa [outBytes] using hj),
          getElem?_eq_none (not_lt.mp hj)]

/-! ## Any data -/

theorem lzjbReplay_bound (dEnd mlen dst cpy : ℕ) (out : ℕ → UInt8) (hle : dst ≤ dEnd) :
    (lzjbReplay dEnd mlen dst cpy out).1 = min (dst + mlen) dEnd ∧
      ∀ j, dEnd ≤ j → (lzjbReplay dEnd mlen dst cpy out).2 j = out j := by
  fun_induction lzjbReplay with grind [update_of_ne]

/-- An item takes no more bytes than it gives, unless it is the last. -/
theorem lzjbDecompressLoop_safe {s : List UInt8} {dEnd n count : ℕ} {buf : ℕ → UInt8}
    {st : LzjbDecode} (hs : dEnd + 1 + (dEnd + 7) / 8 ≤ s.length) (hcount : count ≤ st.dst)
    (hmask : st.copymask = 2 ^ ((count + 7) % 8)) (hn : dEnd < n + st.dst) (hle : st.dst ≤ dEnd)
    (hsrc : st.dst < dEnd → st.src ≤ st.dst + (count + 7) / 8) (hout : ∀ j, dEnd ≤ j →
      st.out j = buf j) :
    ∃ r out, lzjbDecompressLoop s dEnd n st = some (r, out) ∧ (r = 0 ∨ r = -1) ∧
      ∀ j, dEnd ≤ j → out j = buf j := by
  induction n generalizing count st with
  | zero => omega
  | succ n ih =>
    rw [lzjbDecompressLoop]
    split
    case isFalse => exact ⟨_, _, rfl, .inl rfl, hout⟩
    rename_i hlt
    have hnext : ∃ map src, lzjbNext s st = some { st with
        copymask := 2 ^ ((count + 1 + 7) % 8), copymap := map, src := src } ∧
        src ≤ st.dst + (count + 1 + 7) / 8 := by
      simp only [lzjbNext, hmask, copymask_shift, Nat.add_assoc, Nat.add_mod_right]
      split
      · simp [getElem?_eq_getElem (show st.src < s.length by omega), *]
        omega
      · simp [copymask_ne]
        omega
    obtain ⟨map, src, hnext, hle'⟩ := hnext
    simp only [hnext, Option.bind_eq_bind, Option.bind_some, getElem?_eq_getElem
      (show src < s.length by omega), getElem?_eq_getElem (show src + 1 < s.length by omega)]
    split
    · split
      · exact ⟨_, _, rfl, .inr rfl, hout⟩
      · refine ih ?_ rfl ?_ ?_ ?_ ?_ <;> grind [lzjbReplay_bound, matchMin]
    · refine ih ?_ rfl ?_ hlt ?_ ?_ <;> grind [update_of_ne]

/-- Of any data `lzjb_decompress` reads at most `d_len + 1` bytes and a map for each eight, returns,
and writes nothing past `d_end`. -/
theorem lzjbDecompress_safe (s : List UInt8) (out : ℕ → UInt8) (dLen : ℕ)
    (hs : dLen + 1 + (dLen + 7) / 8 ≤ s.length) :
    ∃ r out', lzjbDecompress s out dLen = some (r, out') ∧ (r = 0 ∨ r = -1) ∧
      ∀ j, dLen ≤ j → out' j = out j :=
  lzjbDecompressLoop_safe hs (Nat.zero_le 0) rfl (by simp) (Nat.zero_le _) (by simp) fun _ _ => rfl

/-- A literal, a match of it, and a match that reaches back before the start. -/
theorem lzjbDecompress_safe_match :
    ∃ r out, lzjbDecompress [6, 97, 0, 1, 255, 255, 0, 0, 0, 0, 0, 0, 0] (fun _ => 7) 10
        = some (r, out) ∧ (r = 0 ∨ r = -1) ∧ ∀ j, 10 ≤ j → out j = 7 :=
  lzjbDecompress_safe _ _ 10 (by decide)

end Polaris
