import Polaris.Nvpair.XdrFormat

/-!
# Unpacking a list packed in external data representation

Decoding takes the size of a pair from the stream and allocates it before the pair is read.  The
size is held against an estimate of the largest pair the rest of the buffer can hold,
`NVS_XDR_MAX_LEN`.  The estimate is right for all values but one: an array of empty strings under
the empty name takes, when it is the last thing in the buffer, up to four bytes more than estimated,
because the strings are padded to a multiple of eight bytes and the estimate rounds to four.

Everything else is read back as it was written: the decoding functions invert the packed form of
`XdrFormat`, by induction over the list.

## Main results

* `nvpSize_le_maxLen`, `maxLen_lt_nvpSize` — when the estimate is large enough.
* `nvlistXunpack_xdr_iff` — which lists are read back.
-/

namespace Polaris

open Xdr List BitVec Option NvValue

variable (h : Host) {v : NvValue} {n m r : ℕ} {name : CStr}

/-! ## Values without lists -/

theorem ofNat_signExtend {w : ℕ} (x : BitVec w) (h : w ≤ m) :
    BitVec.ofNat w (x.signExtend m).toNat = x := by
  rw [ofNat_toNat]
  ext i hi
  simp [hi, getLsbD_signExtend]
  omega

theorem NvNum.size_le_xdrUnit (t : NvNum) : t.size ≤ t.xdrUnit := by
  cases t <;> decide

theorem getNum_append (t : NvNum) (x : t.Val) (s : Bytes) :
    getNum t (numBytes h t x ++ s) = some (x, s) := by
  have hle : 8 * t.size ≤ 8 * t.xdrUnit := Nat.mul_le_mul_left 8 t.size_le_xdrUnit
  have hpow : (2 : ℕ) ^ (8 * t.xdrUnit) = 256 ^ t.xdrUnit := by rw [Nat.pow_mul]
  have hx : x.toNat < 256 ^ t.xdrUnit :=
    hpow ▸ x.isLt.trans_le (Nat.pow_le_pow_right (by decide) hle)
  have hsx : (x.signExtend (8 * t.xdrUnit)).toNat < 256 ^ t.xdrUnit := hpow ▸ isLt _
  rw [getNum, getBytes_append (length_numBytes h t x)]
  simp only [bind_eq_bind, bind_some, numBytes]
  split
  · rw [beVal_beBytes_of_lt hsx, ofNat_signExtend x hle]
  · rw [beVal_beBytes_of_lt hx, ofNat_toNat, setWidth_eq]

theorem nvsXdrDecodeStrings_append {ss : List CStr} {len buflen : ℕ}
    (hfits : len + (ss.map fun s => s.length + 1).sum ≤ buflen) (h32 : buflen < 2 ^ 32)
    (s : Bytes) :
    nvsXdrDecodeStrings ss.length len buflen (ss.flatMap stringBytes ++ s) = some (ss, s) := by
  induction ss generalizing len buflen with
  | nil => rfl
  | cons str ss ih =>
    simp only [map_cons, sum_cons] at hfits
    have hlen : ¬ buflen ≤ len := by omega
    rw [List.flatMap_cons, List.append_assoc, List.length_cons, nvsXdrDecodeStrings]
    simp only [if_neg hlen, bind_eq_bind]
    rw [getString_append (by omega) (by omega)]
    simp only [bind_some]
    rw [ih (by omega) (by omega)]
    rfl

theorem map_byte_roundTrip {t : NvNum} (ht : t = .byte) (xs : List t.Val) :
    ((xs.map fun x => BitVec.ofNat 8 x.toNat).map fun b => BitVec.ofNat (8 * t.size) b.toNat)
      = xs := by
  subst ht
  rw [List.map_map]
  apply List.map_id''
  intro x
  have hx : x.toNat < 2 ^ 8 := x.isLt
  apply BitVec.eq_of_toNat_eq
  change x.toNat % 2 ^ 8 % 2 ^ 8 = x.toNat
  omega

theorem nvsXdrDecodeFlat_numArray (t : NvNum) {xs : List t.Val} (hne : xs.length ≠ 0)
    (hsize : (NvValue.numArray t xs).size ≤ int32Max) (s : Bytes) :
    nvsXdrDecodeFlat (.numArray t) xs.length (nvAlign (NvValue.numArray t xs).size)
      ((NvValue.numArray t xs).xdr h ++ s) = some (.numArray t xs, s) := by
  have hlen := (numArray t xs).nelem_le_size.trans hsize
  have h32 : xs.length < 2 ^ 32 := hlen.trans_lt (by decide)
  rw [nvsXdrDecodeFlat, xdr, if_neg hne]
  by_cases ht : t = .byte
  · rw [if_pos ht, if_pos ht, getOpaque_append (by simp)]
    simp only [bind_eq_bind, bind_some, map_byte_roundTrip ht]
  have hfits : xs.length ≤ nvAlign (numArray t xs).size / t.size := by
    rw [Nat.le_div_iff_mul_le t.size_pos]
    exact (nvAlign_spec _).1
  rw [if_neg ht, if_neg ht, getArray_append (fun x _ s => getNum_append h t x s) hfits h32]
  simp

/-- The values without lists are read back. -/
theorem nvsXdrDecodeFlat_append (hne : v.nelem ≠ 0) (hsize : v.size ≤ int32Max)
    (hl : ∀ l, v ≠ .nvlist l) (hls : ∀ ls, v ≠ .nvlistArray ls) (s : Bytes) :
    nvsXdrDecodeFlat v.type v.nelem (nvAlign v.size) (v.xdr h ++ s) = some (v, s) := by
  have halign : nvAlign v.size < 2 ^ 32 := by
    have := nvAlign_spec v.size
    rw [int32Max] at hsize
    omega
  rcases v with _ | ⟨t, x⟩ | str | x | l | ⟨t, xs⟩ | ss | ls
  · rfl
  · simp [type, nvsXdrDecodeFlat, xdr, getNum_append]
  · have hfits : str.length ≤ nvAlign (string str).size - 1 := by
      have := nvAlign_spec (string str).size
      have hs := size_string str
      omega
    simp only [type, nvsXdrDecodeFlat, xdr]
    rw [getString_append hfits (by omega)]
    rfl
  · have hx : x.toNat < 256 ^ 8 := x.isLt.trans_le (by decide)
    simp only [type, nvsXdrDecodeFlat, xdr]
    rw [getBytes_append (length_beBytes 8 _)]
    simp [beVal_beBytes_of_lt hx]
  · exact absurd rfl (hl l)
  · exact nvsXdrDecodeFlat_numArray h t hne hsize s
  · have hfits : ss.length * 8 + (ss.map fun s => s.length + 1).sum
        ≤ nvAlign (stringArray ss).size := (nvAlign_spec _).1
    simp only [type, nvsXdrDecodeFlat, xdr, nelem]
    rw [nvsXdrDecodeStrings_append hfits halign]
    rfl
  · exact absurd rfl (hls ls)

/-- Without elements there is nothing to read. -/
theorem emptyValue_type (h0 : v.nelem = 0) : emptyValue v.type = v := by
  cases v with
  | boolean => rfl
  | numArray t xs | stringArray ss =>
    rw [length_eq_zero_iff.mp h0]
    rfl
  | nvlistArray ls =>
    cases ls with
    | nil => rfl
    | cons l ls => cases h0
  | _ => cases h0

theorem xdr_of_nelem_zero (h0 : v.nelem = 0) : v.xdr h = [] := by
  rw [← emptyValue_type h0]
  cases v.type <;> rfl

theorem nvsXdrDecodeHead_append (hname : name.length < 32767) (h : nvpSize name v ≤ int32Max)
    (s : Bytes) :
    nvsXdrDecodeHead (nvpSize name v) (xdrHead name v ++ s) = some (name, v.type, v.nelem, s) := by
  have hcode : v.type.code < 2 ^ 32 := v.type.code_lt.trans (by decide)
  have hnelem : v.nelem < 2 ^ 32 := lt_of_le_of_lt (nelem_le_of_nvpSize h) (by decide)
  have hshort : ¬ 2 ^ 15 ≤ name.length + 1 := by omega
  rw [nvsXdrDecodeHead, xdrHead, List.append_assoc, List.append_assoc,
    getString_append (name_le_nvpSize name v) (by omega)]
  simp only [if_neg (not_le.mpr (sizeofNvpair_lt_nvpSize name v)), Option.bind_eq_bind,
    Option.bind_some]
  rw [getInt_append hcode]
  simp only [Option.bind_some]
  rw [getInt_append hnelem]
  simp only [Option.bind_some, DataType.ofCode_code]
  rw [iGetValueSize_nil h]
  simp only [Option.bind_some, if_neg hshort, if_neg (value_fits name v)]

/-! ## The estimate -/

/-- A value whose pair the estimate is too small for. -/
def Underestimated (name : CStr) (v : NvValue) : Prop :=
  name.length = 0 ∧ ∃ ss, v = .stringArray ss ∧ (∀ s ∈ ss, s.length = 0)
    ∧ 1 ≤ ss.length % 8 ∧ ss.length % 8 ≤ 4

theorem nvsXdrDataLen_eq (y : ℕ) : nvsXdrDataLen y = y - 20 := by
  rw [nvsXdrDataLen, nvsXdrHdrLen]
  split <;> omega

theorem nvsXdrMaxLen_eq (x : ℕ) : nvsXdrMaxLen x = 24 + (x - 20) * 2 + align4 ((x - 20) / 4) := by
  rw [nvsXdrMaxLen, nvsXdrDataLen_eq]
  rfl

/-- The estimate is enough for a value that takes at most twice its packed size. -/
theorem estimate_double {d sz : ℕ} (hsz : nvAlign sz ≤ 2 * d) (hr : 8 ≤ r) :
    nvpSizeCalc (n + 1) sz ≤ nvsXdrMaxLen (12 + align4 n + d + r) := by
  rw [nvsXdrMaxLen_eq, nvpSizeCalc, sizeofNvpair]
  have h1 := nvAlign_spec (16 + (n + 1))
  have h2 := align4_spec n
  omega

theorem nvAlign_mul_eight_add (k n : ℕ) : nvAlign (k * 8 + n) = k * 8 + nvAlign n := by
  rw [nvAlign, nvAlign]
  omega

theorem nvAlign_le_align4 (n : ℕ) : nvAlign n ≤ align4 n + 4 := by
  rw [nvAlign, align4]
  omega

theorem nvAlign_eq_align4 (h : n % 8 = 0 ∨ 4 < n % 8) : nvAlign n = align4 n := by
  rw [nvAlign, align4]
  omega

theorem nvAlign_mono (h : m ≤ n) : nvAlign m ≤ nvAlign n := by
  rw [nvAlign, nvAlign]
  omega

theorem align4_mono (h : m ≤ n) : align4 m ≤ align4 n := by
  rw [align4, align4]
  omega

theorem align4_add (n : ℕ) (h : m % 4 = 0) : align4 (m + n) = m + align4 n := by
  rw [align4, align4]
  omega

/-- The estimate for `k` strings: with their zero bytes they are `S` bytes, and packed `A` bytes
more than the `k` words for their lengths. -/
theorem estimate_strings {k S A : ℕ} (hS : S ≤ A + k) (hA : A % 4 = 0) (hr : 8 ≤ r)
    (h : 0 < n ∨ 0 < A ∨ 12 ≤ r ∨ k % 8 = 0 ∨ 4 < k % 8) :
    nvpSizeCalc (n + 1) (k * 8 + S) ≤ nvsXdrMaxLen (12 + align4 n + (4 * k + A) + r) := by
  have hname := nvAlign_spec (16 + (n + 1))
  have hn := align4_spec n
  have hvalue : nvAlign S ≤ nvAlign (A + k) := nvAlign_mono hS
  have hround : align4 k ≤ align4 ((12 + align4 n + (4 * k + A) + r - 20) / 4) :=
    align4_mono (by omega)
  rw [nvsXdrMaxLen_eq, nvpSizeCalc, sizeofNvpair, nvAlign_mul_eight_add]
  by_cases hsmall : 4 ≤ align4 n + A + 2 * (r - 8)
  · have hpad := nvAlign_le_align4 (A + k)
    rw [align4_add k hA] at hpad
    omega
  -- nothing but the words for the lengths, so that the strings need no padding
  have hA0 : A = 0 := by omega
  have hk : nvAlign (A + k) = align4 k := by
    rw [hA0, Nat.zero_add]
    exact nvAlign_eq_align4 (by omega)
  omega

theorem estimate_empty_strings {k : ℕ} (h1 : 1 ≤ k % 8) (h4 : k % 8 ≤ 4) :
    nvsXdrMaxLen (12 + align4 0 + 4 * k + 8) < nvpSizeCalc (0 + 1) (k * 8 + k) := by
  have hk : nvAlign k = align4 k + 4 := by
    rw [nvAlign, align4]
    omega
  have hdata : 12 + align4 0 + 4 * k + 8 - 20 = 4 * k := by
    have : align4 0 = 0 := rfl
    omega
  have hname : nvAlign (16 + (0 + 1)) = 24 := rfl
  rw [nvsXdrMaxLen_eq, nvpSizeCalc, sizeofNvpair, nvAlign_mul_eight_add, hdata, hk,
    Nat.mul_div_cancel_left k (by decide)]
  omega

theorem eight_le_length_xdr (ps : Nvpairs) : 8 ≤ (ps.xdr h).length := by
  cases ps with
  | nil => simp [Nvpairs.xdr]
  | cons name v ps => simp [Nvpairs.xdr]; omega

theorem le_length_xdr_nvlist (l : Nvlist) : 16 ≤ (l.xdr h).length := by
  rcases l with ⟨flag, ps⟩
  have hps := eight_le_length_xdr h ps
  simp [Nvlist.xdr]
  omega

theorem le_length_xdr_nvlists : ∀ ls : Nvlists, 16 * ls.length ≤ (ls.xdr h).length
  | .nil => Nat.le_refl 0
  | .cons l ls => by
    have hl := le_length_xdr_nvlist h l
    have ih := le_length_xdr_nvlists ls
    simp only [Nvlists.length, Nvlists.xdr, length_append]
    omega

/-- Every value but a string array takes at most twice its packed size. -/
theorem nvAlign_size_le (hss : ∀ ss, v ≠ .stringArray ss) :
    nvAlign v.size ≤ 2 * (v.xdr h).length := by
  rcases v with _ | ⟨t, x⟩ | str | x | l | ⟨t, xs⟩ | ss | ls
  · exact Nat.le_refl 0
  · rw [xdr, length_numBytes]
    change nvAlign t.size ≤ 2 * t.xdrUnit
    cases t <;> decide
  · have := nvAlign_spec (str.length + 1)
    have := align4_spec str.length
    rw [size_string, xdr, length_stringBytes]
    omega
  · rw [xdr, length_beBytes]
    exact (by decide : nvAlign 8 ≤ 16)
  · have hlen := le_length_xdr_nvlist h l
    have hsize : nvAlign (nvlist l).size = 24 := (by decide : nvAlign (nvAlign sizeofNvlist) = 24)
    rw [hsize, xdr]
    omega
  · have hsize : (numArray t xs).size = xs.length * t.size := rfl
    rw [hsize]
    by_cases h0 : xs.length = 0
    · rw [h0, Nat.zero_mul]
      exact Nat.zero_le _
    rw [xdr, if_neg h0]
    by_cases ht : t = .byte
    · subst ht
      rw [if_pos rfl, length_opaqueBytes, length_map]
      simp only [NvNum.size, nvAlign, align4]
      omega
    · rw [if_neg ht]
      have := nvAlign_spec (xs.length * t.size)
      have := Nat.mul_le_mul_left xs.length t.size_le_xdrUnit
      simp [map_const']
      omega
  · exact absurd rfl (hss ss)
  · have hlen := le_length_xdr_nvlists h ls
    have hsize : (nvlistArray ls).size = ls.length * 8 + ls.length * 24 := rfl
    rw [hsize, xdr, nvAlign]
    omega

/-- The strings of an array: `A` is what they take beyond the words for their lengths. -/
theorem strings_sizes (ss : List CStr) :
    ∃ A, (ss.flatMap stringBytes).length = 4 * ss.length + A ∧ A % 4 = 0
      ∧ (ss.map fun s => s.length + 1).sum ≤ A + ss.length ∧ (A = 0 → ∀ s ∈ ss, s.length = 0) := by
  induction ss with
  | nil => exact ⟨0, rfl, rfl, Nat.le_refl 0, by simp⟩
  | cons s ss ih =>
    obtain ⟨A, hlen, hmod, hsum, hzero⟩ := ih
    have hs := align4_spec s.length
    refine ⟨A + align4 s.length, ?_, by omega, ?_, ?_⟩
    · rw [flatMap_cons, length_append, length_stringBytes, hlen, length_cons]
      omega
    · rw [map_cons, sum_cons, length_cons]
      omega
    · intro h0
      rw [forall_mem_cons]
      exact ⟨by omega, hzero (by omega)⟩

/-- The estimate is large enough when something follows the pair's list or the pair is not one of
those underestimated. -/
theorem nvpSize_le_maxLen (hr : 8 ≤ r) (hok : 12 ≤ r ∨ ¬ Underestimated name v) :
    nvpSize name v ≤ nvsXdrMaxLen (12 + align4 name.length + (v.xdr h).length + r) := by
  by_cases hss : ∃ ss, v = .stringArray ss
  · obtain ⟨ss, rfl⟩ := hss
    obtain ⟨A, hlen, hmod, hsum, hzero⟩ := strings_sizes ss
    rw [xdr, hlen]
    apply estimate_strings hsum hmod hr
    by_contra hcon
    have hempty := hzero (by omega)
    have hunder : Underestimated name (.stringArray ss) :=
      ⟨by omega, ss, rfl, hempty, by omega, by omega⟩
    rcases hok with hok | hok
    · omega
    · exact hok hunder
  · exact estimate_double (nvAlign_size_le h fun ss heq => hss ⟨ss, heq⟩) hr

theorem maxLen_lt_nvpSize (hunder : Underestimated name v) :
    nvsXdrMaxLen (12 + align4 name.length + (v.xdr h).length + 8) < nvpSize name v := by
  obtain ⟨hname, ss, rfl, hempty, h1, h4⟩ := hunder
  have hlen : (ss.flatMap stringBytes).length = 4 * ss.length := by
    rw [length_flatMap, map_congr_left (g := fun _ => 4)]
    · simp [map_const', Nat.mul_comm]
    · intro s hs
      rw [length_stringBytes, hempty s hs]
      rfl
  have hsum : (ss.map fun s => s.length + 1).sum = ss.length := by
    rw [map_congr_left (g := fun _ => 1)]
    · simp [map_const']
    · intro s hs
      rw [hempty s hs]
  have hsize : nvpSize name (.stringArray ss) = nvpSizeCalc (0 + 1)
      (ss.length * 8 + ss.length) := by
    rw [nvpSize, hname]
    change nvpSizeCalc (0 + 1) (ss.length * 8 + (ss.map fun s => s.length + 1).sum) = _
    rw [hsum]
  rw [xdr, hname, hlen, hsize]
  exact estimate_empty_strings h1 h4

/-! ## Decoding -/

mutual

/-- The calls of the decoding functions that are nested for a list. -/
def Nvlist.calls : Nvlist → ℕ
  | .mk _ ps => ps.calls + 1

def Nvpairs.calls : Nvpairs → ℕ
  | .nil => 1
  | .cons _ v ps => v.calls + ps.calls + 1

def NvValue.calls : NvValue → ℕ
  | .nvlist l => l.calls + 1
  | .nvlistArray ls => ls.calls + 1
  | .boolean | .num .. | .string _ | .hrtime _ | .numArray .. | .stringArray _ => 1

def Nvlists.calls : Nvlists → ℕ
  | .nil => 1
  | .cons l ls => l.calls + ls.calls + 1

end

/-- The last pair of a list is underestimated. -/
def Nvpairs.LastUnderestimated : Nvpairs → Prop
  | .nil => False
  | .cons name v .nil => Underestimated name v
  | .cons _ _ (.cons name v ps) => (Nvpairs.cons name v ps).LastUnderestimated

mutual

/-- There are fewer calls than bytes. -/
theorem Nvlist.calls_le (l : Nvlist) : l.calls < (l.xdr h).length := by
  rcases l with ⟨flag, ps⟩
  have ih := Nvpairs.calls_le ps
  simp only [Nvlist.calls, Nvlist.xdr, length_append, length_beBytes]
  omega

theorem Nvpairs.calls_le (ps : Nvpairs) : ps.calls ≤ (ps.xdr h).length := by
  rcases ps with _ | ⟨name, v, ps⟩
  · simp [Nvpairs.calls, Nvpairs.xdr]
  · have hv := NvValue.calls_le v
    have ih := Nvpairs.calls_le ps
    simp only [Nvpairs.calls, Nvpairs.xdr, length_append, length_beBytes]
    omega

theorem NvValue.calls_le (v : NvValue) : v.calls ≤ (v.xdr h).length + 2 := by
  cases v with
  | nvlist l =>
    have ih := Nvlist.calls_le l
    simp only [calls, xdr]
    omega
  | nvlistArray ls =>
    have ih := Nvlists.calls_le ls
    simp only [calls, xdr]
    omega
  | _ => exact Nat.le_add_left 1 _

theorem Nvlists.calls_le (ls : Nvlists) : ls.calls ≤ (ls.xdr h).length + 1 := by
  rcases ls with _ | ⟨l, ls⟩
  · simp [Nvlists.calls, Nvlists.xdr]
  · have hl := Nvlist.calls_le l
    have ih := Nvlists.calls_le ls
    simp only [Nvlists.calls, Nvlists.xdr, length_append]
    omega

end

/-- Where the estimate is too small, the pair is refused; else its size is read. -/
theorem nvsXdrNvpair_append {a : ℕ} (ha : a ≤ int32Max) (hn : n ≤ int32Max) (hn0 : n ≠ 0)
    (s : Bytes) :
    nvsXdrNvpair (beBytes 4 a ++ beBytes 4 n ++ s) =
      if nvsXdrMaxLen s.length < n then none else some (n, s) := by
  have ha' : a < 2 ^ 32 := ha.trans_lt (by decide)
  have hn' : n < 2 ^ 32 := hn.trans_lt (by decide)
  rw [nvsXdrNvpair, List.append_assoc, getInt_append ha']
  simp only [Option.bind_eq_bind, Option.bind_some]
  rw [getInt_append hn']
  simp only [Option.bind_some, if_neg hn0]
  by_cases hmax : nvsXdrMaxLen s.length < n
  · simp only [if_pos hmax, if_pos (Or.inr hmax : int32Max < n ∨ nvsXdrMaxLen s.length < n)]
    rfl
  · have hok : ¬ (int32Max < n ∨ nvsXdrMaxLen s.length < n) := by omega
    simp only [if_neg hmax, if_neg hok]

theorem nvsXdrNvpair_end (s : Bytes) : nvsXdrNvpair (beBytes 4 0 ++ beBytes 4 0 ++ s)
    = some (0, s) := by
  rw [nvsXdrNvpair, List.append_assoc, getInt_append (by decide)]
  simp only [Option.bind_eq_bind, Option.bind_some]
  rw [getInt_append (by decide)]
  rfl

section Step

variable {h : Host} {name : CStr} {v : NvValue} {ps : Nvpairs}

theorem nvpSize_ne_zero (name : CStr) (v : NvValue) : nvpSize name v ≠ 0 := by
  have := sizeofNvpair_lt_nvpSize name v
  omega

theorem xdr_cons_append (s : Bytes) : (Nvpairs.cons name v ps).xdr h ++ s
    = beBytes 4 (nvsXdrHdrSize name + v.packed) ++ beBytes 4 (nvpSize name v)
      ++ (xdrHead name v ++ (v.xdr h ++ (ps.xdr h ++ s))) := by
  simp only [Nvpairs.xdr, List.append_assoc]

/-- The next pair of the stream, whose size the estimate lets through. -/
theorem nvsXdrDecodePairs_cons {fuel : ℕ} {s : Bytes} (hname : name.length < 32767)
    (hnvp : nvpSize name v ≤ int32Max) (hvalid : iValidateNvpairValue v)
    (hpacked : nvsXdrHdrSize name + v.packed ≤ int32Max)
    (hmax : nvpSize name v ≤ nvsXdrMaxLen (xdrHead name v ++ (v.xdr h ++ (ps.xdr h ++ s))).length)
    (hvalue : nvsXdrDecodeValue fuel v.type v.nelem (nvAlign v.size) (v.xdr h ++ (ps.xdr h ++ s))
      = some (v, ps.xdr h ++ s)) :
    nvsXdrDecodePairs (fuel + 1) ((Nvpairs.cons name v ps).xdr h ++ s) =
      (nvsXdrDecodePairs fuel (ps.xdr h ++ s)).map fun r => (.cons name v r.1, r.2) := by
  have hmin := not_lt.mpr (nvpSize_ge name v)
  rw [nvsXdrDecodePairs, xdr_cons_append, nvsXdrNvpair_append hpacked hnvp (nvpSize_ne_zero name v),
    if_neg (not_lt.mpr hmax)]
  simp only [bind_eq_bind, bind_some, if_neg (nvpSize_ne_zero name v), if_neg hmin]
  rw [nvsXdrDecodeHead_append hname hnvp]
  simp only [bind_some, nvpSize_sub_valoff]
  rw [hvalue]
  simp only [bind_some, iValidateNvpair_self hname hnvp hvalid]
  cases nvsXdrDecodePairs fuel (ps.xdr h ++ s) <;> rfl

/-- A pair whose size the estimate does not let through. -/
theorem nvsXdrDecodePairs_refused {fuel : ℕ} {s : Bytes} (hnvp : nvpSize name v ≤ int32Max)
    (hpacked : nvsXdrHdrSize name + v.packed ≤ int32Max)
    (hmax : nvsXdrMaxLen (xdrHead name v ++ (v.xdr h ++ (ps.xdr h ++ s))).length < nvpSize name v) :
    nvsXdrDecodePairs (fuel + 1) ((Nvpairs.cons name v ps).xdr h ++ s) = none := by
  rw [nvsXdrDecodePairs, xdr_cons_append, nvsXdrNvpair_append hpacked hnvp (nvpSize_ne_zero name v),
    if_pos hmax]
  rfl

/-- The head of a list. -/
theorem nvsXdrDecode_mk (fuel : ℕ) (flag : BitVec 32) (s : Bytes) :
    nvsXdrDecode (fuel + 1) ((Nvlist.mk flag ps).xdr h ++ s)
      = (nvsXdrDecodePairs fuel (ps.xdr h ++ s)).map fun r => (.mk flag r.1, r.2) := by
  rw [nvsXdrDecode, Nvlist.xdr, List.append_assoc, List.append_assoc, getInt_append (by decide)]
  simp only [bind_eq_bind, bind_some]
  rw [getInt_append flag.isLt]
  simp only [bind_some, ofNat_toNat, setWidth_eq]
  cases nvsXdrDecodePairs fuel (ps.xdr h ++ s) <;> rfl

theorem length_rest (name : CStr) (v : NvValue) (ps : Nvpairs) (s : Bytes) :
    (xdrHead name v ++ (v.xdr h ++ (ps.xdr h ++ s))).length
      = 12 + align4 name.length + (v.xdr h).length + ((ps.xdr h).length + s.length) := by
  simp only [length_append, length_xdrHead]
  omega

theorem ShortNames.cons_iff :
    ShortNames (Nvpairs.cons name v ps).allPairs
      ↔ name.length < 32767 ∧ ShortNames v.allPairs ∧ ShortNames ps.allPairs := by
  simp only [ShortNames, Nvpairs.allPairs, List.cons_append, List.forall_mem_cons,
    List.forall_mem_append]

/-- More than the end marker follows pairs that are not last. -/
theorem four_le_length_xdr_append (ps : Nvpairs) (s : Bytes) : 4 ≤ (ps.xdr h ++ s).length := by
  have hlen := eight_le_length_xdr h ps
  rw [length_append]
  omega

/-- The estimate lets a pair through that is not last, or not underestimated, or not at the end of
the buffer. -/
theorem nvpSize_le_maxLen_rest {s : Bytes}
    (hs : 4 ≤ s.length ∨ ps ≠ .nil ∨ ¬ (Nvpairs.cons name v ps).LastUnderestimated) :
    nvpSize name v ≤ nvsXdrMaxLen (xdrHead name v ++ (v.xdr h ++ (ps.xdr h ++ s))).length := by
  have hlen := eight_le_length_xdr h ps
  rw [length_rest]
  apply nvpSize_le_maxLen h (by omega)
  rcases hs with hs | hs
  · exact Or.inl (by omega)
  cases ps with
  | nil => exact Or.inr (hs.resolve_left fun hne => hne rfl)
  | cons name' v' ps' =>
    have hrest := eight_le_length_xdr h ps'
    refine Or.inl ?_
    simp only [Nvpairs.xdr, length_append, length_beBytes]
    omega

end Step

mutual

/-- A packed list is read back, when more of the buffer follows it. -/
theorem Nvlist.decode_xdr (l : Nvlist) (hl : l.Valid) (hshort : ShortNames l.allPairs)
    (hsize : l.packed ≤ int32Max) {fuel : ℕ} (hfuel : l.calls ≤ fuel) {s : Bytes}
    (hs : 4 ≤ s.length) :
    nvsXdrDecode fuel (l.xdr h ++ s) = some (l, s) := by
  rcases l with ⟨flag, ps⟩
  rw [Nvlist.calls] at hfuel
  rw [Nvlist.packed] at hsize
  obtain _ | fuel := fuel
  · omega
  rw [nvsXdrDecode_mk, Nvpairs.decode_xdr ps hl.2 hshort (by omega) (by omega) (Or.inl hs)]
  rfl

/-- Packed pairs are read back, when more of the buffer follows them or the last of them is not
underestimated. -/
theorem Nvpairs.decode_xdr (ps : Nvpairs) (hps : ps.Valid) (hshort : ShortNames ps.allPairs)
    (hsize : ps.packed ≤ int32Max) {fuel : ℕ} (hfuel : ps.calls ≤ fuel) {s : Bytes}
    (hs : 4 ≤ s.length ∨ ¬ ps.LastUnderestimated) :
    nvsXdrDecodePairs fuel (ps.xdr h ++ s) = some (ps, s) := by
  rcases ps with _ | ⟨name, v, ps⟩
  · rw [Nvpairs.calls] at hfuel
    obtain _ | fuel := fuel
    · omega
    rw [nvsXdrDecodePairs, Nvpairs.xdr, nvsXdrNvpair_end]
    rfl
  rw [Nvpairs.calls] at hfuel
  rw [Nvpairs.packed] at hsize
  obtain _ | fuel := fuel
  · omega
  obtain ⟨-, hnvp, hvalid, hv, hps⟩ := hps
  obtain ⟨hname, hvshort, hpsshort⟩ := ShortNames.cons_iff.mp hshort
  have hvalue : nvsXdrDecodeValue fuel v.type v.nelem (nvAlign v.size) (v.xdr h ++ (ps.xdr h ++ s))
      = some (v, ps.xdr h ++ s) :=
    NvValue.decode_xdr v hv hvshort (by omega) (size_le_of_nvpSize hnvp) (by omega)
      (four_le_length_xdr_append ps s)
  have hrest : 4 ≤ s.length ∨ ¬ ps.LastUnderestimated := by
    cases ps with
    | nil => exact Or.inr id
    | cons name' v' ps' => exact hs
  rw [nvsXdrDecodePairs_cons hname hnvp hvalid (by omega)
    (nvpSize_le_maxLen_rest (hs.imp_right Or.inr)) hvalue,
    Nvpairs.decode_xdr ps hps hpsshort (by omega) (by omega) hrest]
  rfl

theorem NvValue.decode_xdr (v : NvValue) (hv : v.Valid) (hshort : ShortNames v.allPairs)
    (hpacked : v.packed ≤ int32Max) (hsize : v.size ≤ int32Max) {fuel : ℕ} (hfuel : v.calls ≤ fuel)
    {s : Bytes} (hs : 4 ≤ s.length) :
    nvsXdrDecodeValue fuel v.type v.nelem (nvAlign v.size) (v.xdr h ++ s) = some (v, s) := by
  have : 1 ≤ v.calls := by cases v <;> simp [calls]
  obtain _ | fuel := fuel
  · omega
  unfold nvsXdrDecodeValue
  by_cases h0 : v.nelem = 0
  · rw [if_pos h0, emptyValue_type h0, xdr_of_nelem_zero h h0]
    rfl
  rw [if_neg h0]
  cases v with
  | nvlist l =>
    rw [calls] at hfuel
    simp only [type, xdr]
    rw [Nvlist.decode_xdr l hv hshort hpacked (by omega) hs]
    rfl
  | nvlistArray ls =>
    rw [calls] at hfuel
    simp only [type, xdr, nelem]
    rw [Nvlists.decode_xdr ls hv hshort hpacked (by omega) hs]
    rfl
  | _ => exact nvsXdrDecodeFlat_append h h0 hsize nofun nofun s

theorem Nvlists.decode_xdr (ls : Nvlists) (hls : ls.Valid) (hshort : ShortNames ls.allPairs)
    (hsize : ls.packed ≤ int32Max) {fuel : ℕ} (hfuel : ls.calls ≤ fuel) {s : Bytes}
    (hs : 4 ≤ s.length) :
    nvsXdrDecodeArray fuel ls.length (ls.xdr h ++ s) = some (ls, s) := by
  rcases ls with _ | ⟨l, ls⟩
  · rw [Nvlists.calls] at hfuel
    obtain _ | fuel := fuel
    · omega
    rfl
  rw [Nvlists.calls] at hfuel
  rw [Nvlists.packed] at hsize
  obtain _ | fuel := fuel
  · omega
  rw [ShortNames, Nvlists.allPairs, forall_mem_append] at hshort
  have hmore : 4 ≤ (ls.xdr h ++ s).length := by
    rw [length_append]
    omega
  rw [Nvlists.length, Nvlists.xdr, List.append_assoc, nvsXdrDecodeArray,
    Nvlist.decode_xdr l hls.1 hshort.1 (by omega) (by omega) hmore]
  simp only [bind_eq_bind, bind_some]
  rw [Nvlists.decode_xdr ls hls.2 hshort.2 (by omega) (by omega) hs]
  rfl

end

/-- Pairs at the end of the buffer are refused when the last of them is underestimated. -/
theorem Nvpairs.refused_xdr : ∀ ps : Nvpairs, ps.Valid → ShortNames ps.allPairs →
    ps.packed ≤ int32Max → ∀ fuel, ps.calls ≤ fuel → ps.LastUnderestimated →
    nvsXdrDecodePairs fuel (ps.xdr h ++ []) = none
  | .nil, _, _, _, _, _, hlast => hlast.elim
  | .cons name v ps, hps, hshort, hsize, fuel, hfuel, hlast => by
    rw [Nvpairs.calls] at hfuel
    rw [Nvpairs.packed] at hsize
    obtain _ | fuel := fuel
    · omega
    obtain ⟨-, hnvp, hvalid, hv, hps⟩ := hps
    obtain ⟨hname, hvshort, hpsshort⟩ := ShortNames.cons_iff.mp hshort
    by_cases hend : ps = .nil
    · subst hend
      apply nvsXdrDecodePairs_refused hnvp (by omega)
      rw [length_rest]
      exact maxLen_lt_nvpSize h hlast
    have hrest : ps.LastUnderestimated := by
      cases ps with
      | nil => exact absurd rfl hend
      | cons name' v' ps' => exact hlast
    have hvalue : nvsXdrDecodeValue fuel v.type v.nelem (nvAlign v.size)
      (v.xdr h ++ (ps.xdr h ++ []))
        = some (v, ps.xdr h ++ []) :=
      NvValue.decode_xdr h v hv hvshort (by omega) (size_le_of_nvpSize hnvp) (by omega)
        (four_le_length_xdr_append ps [])
    rw [nvsXdrDecodePairs_cons hname hnvp hvalid (by omega)
        (nvpSize_le_maxLen_rest (Or.inr (Or.inl hend))) hvalue,
      Nvpairs.refused_xdr ps hps hpsshort (by omega) fuel (by omega) hrest]
    rfl

/-- A list at the end of the buffer. -/
theorem nvsXdrDecode_end {l : Nvlist} (hl : l.Valid) (hshort : ShortNames l.allPairs)
    (hsize : l.packed ≤ int32Max) {fuel : ℕ} (hfuel : l.calls ≤ fuel) (s : Bytes)
    (hs : s = [] ∨ 4 ≤ s.length) :
    (s = [] ∧ l.pairs.LastUnderestimated → nvsXdrDecode fuel (l.xdr h ++ s) = none)
      ∧ (¬ (s = [] ∧ l.pairs.LastUnderestimated) → nvsXdrDecode fuel (l.xdr h ++ s)
        = some (l, s)) := by
  rcases l with ⟨flag, ps⟩
  rw [Nvlist.calls] at hfuel
  rw [Nvlist.packed] at hsize
  obtain _ | fuel := fuel
  · omega
  rw [nvsXdrDecode_mk]
  constructor
  · rintro ⟨rfl, hunder⟩
    rw [Nvpairs.refused_xdr h ps hl.2 hshort (by omega) fuel (by omega) hunder]
    rfl
  · intro hok
    have hs' : 4 ≤ s.length ∨ ¬ ps.LastUnderestimated := by
      rcases hs with rfl | hs
      · exact Or.inr fun hunder => hok ⟨rfl, hunder⟩
      · exact Or.inl hs
    rw [Nvpairs.decode_xdr h ps hl.2 hshort (by omega) (by omega) hs']
    rfl

/-! ## Packing and unpacking -/

theorem nvlistXunpack_of_xdr (h h' : Host) (s : Bytes) :
    nvlistXunpack h ([NvEncoding.xdr.code, h'.endian, 0, 0] ++ s)
      = (nvsXdrDecode (s.length + 4) s).map Prod.fst := by
  have hlen : ¬ s.length + 4 < 4 := by omega
  simp only [nvlistXunpack, List.cons_append, nil_append, List.length_cons, sizeofNvsHeader,
    hlen, if_false,
    drop_succ_cons, drop_zero, head?_cons]
  cases nvsXdrDecode (s.length + 4) s <;> rfl

/-- A list that is packed into a buffer of the size reported for it is unpacked to the same list, on
any machine, except when its last pair is underestimated and no array of numbers without elements
makes the buffer longer than needed. -/
theorem nvlistXunpack_xdr_iff (h₁ h₂ : Host) (ptrs : ℕ → ℕ → BitVec 8) (l : Nvlist) (hl : l.Valid)
    (hshort : ShortNames l.allPairs) {buf : Bytes} (hsize : nvlistSize l .xdr = some buf.length) :
    ∃ packed, nvlistXpack h₁ ptrs l .xdr buf = some packed
      ∧ (nvlistXunpack h₂ packed = some l
        ↔ ¬ (l.pairs.LastUnderestimated ∧ ∀ p ∈ l.allPairs, ¬ isEmptyNumArray p)) := by
  rw [nvlistSize_xdr, fitsInt32_eq_some] at hsize
  obtain ⟨hbuf, hle⟩ := hsize
  have hlen := l.length_xdr h₁
  have hcalls := l.calls_le h₁
  have hcount : l.allPairs.countP isEmptyNumArray = 0 ↔ ∀ p ∈ l.allPairs, ¬ isEmptyNumArray p :=
    countP_eq_zero
  have hpack : nvlistXpack h₁ ptrs l .xdr buf = some ([NvEncoding.xdr.code, h₁.endian, 0, 0]
      ++ (l.xdr h₁ ++ buf.drop (sizeofNvsHeader + (l.xdr h₁).length))) := by
    have hhdr : ¬ buf.length < sizeofNvsHeader := by omega
    have hfits : (l.xdr h₁).length ≤ buf.length - sizeofNvsHeader := by omega
    rw [nvlistXpack, nvlistEncode, l.writes_xdr h₁ hl (by omega)]
    simp [Out.put, hfits, hhdr]
  refine ⟨_, hpack, ?_⟩
  generalize hrest : buf.drop (sizeofNvsHeader + (l.xdr h₁).length) = rest
  have hrestlen : rest.length = 4 * l.allPairs.countP isEmptyNumArray := by
    rw [← hrest, length_drop]
    omega
  have hnil : rest = [] ↔ l.allPairs.countP isEmptyNumArray = 0 := by
    rw [← length_eq_zero_iff]
    omega
  have hs : rest = [] ∨ 4 ≤ rest.length := by
    rw [hnil]
    omega
  have hfuel : l.calls ≤ (l.xdr h₁ ++ rest).length + 4 := by
    rw [length_append]
    omega
  obtain ⟨hbad, hgood⟩ := nvsXdrDecode_end h₁ hl hshort (by omega) hfuel rest hs
  rw [nvlistXunpack_of_xdr, ← hcount, ← hnil]
  by_cases hcase : rest = [] ∧ l.pairs.LastUnderestimated
  · rw [hbad hcase]
    simp [hcase]
  · rw [hgood hcase]
    simp only [map_some, true_iff]
    exact fun hcon => hcase hcon.symm

/-- One pair with the empty name and an array of one empty string. -/
def underestimatedList : Nvlist := .mk 1 (.cons CStr.empty (.stringArray [CStr.empty]) .nil)

/-- The pair takes 40 bytes and the estimate is 36. -/
theorem nvlistXunpack_underestimated :
    nvlistSize underestimatedList .xdr = some 44
      ∧ ((nvlistXpack ⟨false, true⟩ (fun _ _ => 0) underestimatedList .xdr
        (List.replicate 44 0)).map
        fun packed => (nvlistXunpack ⟨false, true⟩ packed).isSome) = some false := by
  constructor
  · rfl
  · decide

theorem nvlistXunpack_xdr_iff_string :
    ∃ packed, nvlistXpack ⟨false, true⟩ (fun _ _ => 0) stringList .xdr (List.replicate 52 0)
      = some packed
      ∧ (nvlistXunpack ⟨true, false⟩ packed = some stringList
        ↔ ¬ (stringList.pairs.LastUnderestimated ∧
          ∀ p ∈ stringList.allPairs, ¬ isEmptyNumArray p)) :=
  nvlistXunpack_xdr_iff ⟨false, true⟩ ⟨true, false⟩ (fun _ _ => 0) stringList
    ⟨by decide, Or.inl (by decide), by decide, rfl, trivial, trivial⟩
    (by intro p hp; simp only [stringList, Nvlist.allPairs, Nvpairs.allPairs, allPairs,
          append_nil, mem_singleton] at hp; rw [hp]; decide)
    rfl

end Polaris
