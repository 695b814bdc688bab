import Polaris.Nvpair.XdrRoundTrip
import Mathlib.Tactic.IntervalCases

/-!
# Unpacking a list packed in the format of the machine

What the native operations write is the pairs as they are in memory with their pointers zeroed, each
followed by the pairs of the lists it embeds.  The size they report is the length of that byte
string, and decoding on a machine of the same byte order inverts it: the fields are where the
structure has them, a string is found up to its zero byte, the pointers of a string array are
rebuilt from the strings, and the embedded lists are read from what follows the pair.

## Main results

* `nvlistXunpack_native` — a packed list fills its buffer and is read back.
-/

namespace Polaris

open Xdr List NvValue
open BitVec hiding append_assoc cons cons_append or_self replicate

/-! ## Pairs in memory -/

/-- The pointers of a pair that has been copied to the stream. -/
abbrev noPtr : ℕ → BitVec 8 := fun _ => 0

@[simp] theorem length_ptrBytes (ptr : ℕ → BitVec 8) (off n : ℕ) :
    (ptrBytes ptr off n).length = n := by
  simp [ptrBytes]

@[simp] theorem ptrBytes_noPtr (off n : ℕ) : ptrBytes noPtr off n = replicate n 0 := by
  simp [ptrBytes, map_const']

variable (h : Host) (ptr : ℕ → BitVec 8) (ptrs : ℕ → ℕ → BitVec 8)

@[simp] theorem length_nvlistImage (off : ℕ) (l : Nvlist) :
    (nvlistImage h ptr off l).length = sizeofNvlist := by
  simp [nvlistImage, sizeofNvlist]

theorem length_nvlistImages :
    ∀ (ls : Nvlists) (off : ℕ), (nvlistImages h ptr off ls).length = ls.length * sizeofNvlist
  | .nil, _ => (Nat.zero_mul _).symm
  | .cons l ls, off => by
    rw [nvlistImages, length_append, length_nvlistImage, length_nvlistImages ls,
      Nvlists.length]
    ring

theorem length_flatMap_cstr (ss : List CStr) :
    (ss.flatMap fun s => s.bytes ++ [0]).length = (ss.map fun s => s.length + 1).sum := by
  simp [length_flatMap, CStr.length]

theorem length_valueImage (v : NvValue) : (valueImage h ptr v).length = v.size := by
  rcases v with _ | ⟨t, x⟩ | s | x | l | ⟨t, xs⟩ | ss | ls
  · rfl
  · exact length_hostBytes ..
  · simp [valueImage, size, valueSz, type, strings, CStr.length]
  · exact length_hostBytes ..
  · exact length_nvlistImage ..
  · simp [valueImage, size, valueSz, type, nelem, map_const']
  · rw [valueImage, length_append, length_ptrBytes, length_flatMap_cstr]
    rfl
  · rw [valueImage, length_append, length_ptrBytes, length_nvlistImages]
    rfl

theorem length_padTo {n : ℕ} {bs : Bytes} (h : bs.length ≤ n) : (padTo n bs).length = n := by
  simp [padTo]
  omega

/-- The part of a pair in front of its value. -/
def nvpFront (h : Host) (name : CStr) (v : NvValue) : Bytes :=
  padTo (nvpValoff name) (nvpHeader h name v ++ (name.bytes ++ [0]))

variable (name : CStr)

theorem length_nvpHeader (v : NvValue) : (nvpHeader h name v).length = sizeofNvpair := by
  simp [nvpHeader, sizeofNvpair]

theorem length_nvpFront (v : NvValue) : (nvpFront h name v).length = nvpValoff name := by
  apply length_padTo
  have := (nvAlign_spec (sizeofNvpair + (name.length + 1))).1
  rw [length_append, length_nvpHeader, length_append]
  exact this

theorem nvpImage_eq (name : CStr) (v : NvValue) :
    nvpImage h ptr name v = nvpFront h name v
      ++ (valueImage h ptr v ++ replicate (nvAlign v.size - v.size) 0) := by
  rw [nvpImage, padTo.eq_def (nvAlign v.size), length_valueImage]
  rfl

@[simp] theorem length_nvpImage (name : CStr) (v : NvValue) :
    (nvpImage h ptr name v).length = nvpSize name v := by
  have := (nvAlign_spec v.size).1
  rw [nvpImage_eq, length_append, length_append, length_nvpFront, length_valueImage,
    length_replicate, nvpSize_eq]
  omega

/-! ## The pointers are zeroed -/

theorem nvlistImage_split (off : ℕ) (l : Nvlist) :
    nvlistImage h ptr off l =
      (hostBytes h.littleEndian 4 nvVersion ++ hostBytes h.littleEndian 4 l.nvflag.toNat)
        ++ (ptrBytes ptr (off + 8)
          8 ++ (hostBytes h.littleEndian 4 0 ++ hostBytes h.littleEndian 4 0)) := by
  simp only [nvlistImage, append_assoc]

/-- Zeroing the pointer of an `nvlist_t`. -/
theorem bzero_nvlistImage (off : ℕ) (l : Nvlist) (pre post : Bytes)
    (handy : ℕ) {value : ℕ} (hpre : pre.length = value) :
    Out.bzero ⟨pre ++ (nvlistImage h ptr off l ++ post), handy⟩ (value + 8) 8
      = ⟨pre ++ (nvlistImage h noPtr off l ++ post), handy⟩ := by
  subst hpre
  have hbytes : ∀ ptr, pre ++ (nvlistImage h ptr off l ++ post)
      = (pre ++ (hostBytes h.littleEndian 4 nvVersion ++ hostBytes h.littleEndian 4 l.nvflag.toNat))
        ++ (ptrBytes ptr (off + 8) 8
          ++ ((hostBytes h.littleEndian 4 0 ++ hostBytes h.littleEndian 4 0) ++ post)) := by
    intro ptr
    simp only [nvlistImage_split, append_assoc]
  rw [hbytes ptr, hbytes noPtr, Out.bzero_middle _ _ _ _ (by simp) (by simp), ptrBytes_noPtr]

theorem blankPrivs_images (post : Bytes) (handy : ℕ) :
    ∀ (ls : Nvlists) (off : ℕ) (pre : Bytes),
      blankPrivs ls.length pre.length ⟨pre ++ (nvlistImages h ptr off ls ++ post), handy⟩
        = ⟨pre ++ (nvlistImages h noPtr off ls ++ post), handy⟩
  | .nil, _, _ => rfl
  | .cons l ls, off, pre => by
    have ih := blankPrivs_images post handy ls (off + sizeofNvlist)
      (pre ++ nvlistImage h noPtr off l)
    rw [length_append, length_nvlistImage] at ih
    rw [Nvlists.length, blankPrivs, nvlistImages, append_assoc,
      bzero_nvlistImage h ptr off l _ _ _ rfl,
      ← append_assoc, ih, nvlistImages]
    simp only [append_assoc]

theorem blankPointers_valueImage (v : NvValue) (pre post : Bytes) (handy : ℕ) :
    blankPointers pre.length ⟨pre ++ (valueImage h ptr v ++ post), handy⟩ v
      = ⟨pre ++ (valueImage h noPtr v ++ post), handy⟩ := by
  rcases v with _ | ⟨t, x⟩ | s | x | l | ⟨t, xs⟩ | ss | ls
  · rfl
  · rfl
  · rfl
  · rfl
  · exact bzero_nvlistImage h ptr 0 l pre post handy rfl
  · rfl
  · simp only [blankPointers, valueImage, append_assoc]
    rw [Out.bzero_middle _ _ _ _ rfl (length_ptrBytes ..), ptrBytes_noPtr]
  · simp only [blankPointers, valueImage, append_assoc]
    rw [Out.bzero_middle _ _ _ _ rfl (length_ptrBytes ..), ← append_assoc]
    have hpos : pre.length + ls.length * 8 = (pre ++ replicate (ls.length * 8) 0).length := by simp
    rw [hpos, blankPrivs_images, ptrBytes_noPtr, append_assoc]

theorem nvpSize_ge_calc (v : NvValue) :
    ¬ nvpSize name v < nvpSizeCalc (name.length + 1) (valueSz v.type [] v.nelem) := by
  have := nvAlign_mono (valueSz_nil_le v.type v.strings v.nelem)
  rw [nvpSize, nvpSizeCalc, nvpSizeCalc, size]
  omega

theorem writes_nvpImage {name : CStr} {v : NvValue}
    (hname : name.length < 32767) (hnvp : nvpSize name v ≤ int32Max) :
    Writes (nvsNativeEncodeHead h ptrs name v) (nvpImage h noPtr name v) := by
  intro o
  have hshort : ¬ 2 ^ 15 ≤ name.length + 1 := by omega
  have hcalc := nvpSize_ge_calc name v
  rw [nvsNativeEncodeHead, iGetValueSize_nil hnvp]
  by_cases hfits : nvpSize name v ≤ o.handy
  · have hput : ∀ ptr, o.put (nvpImage h ptr name v)
        = some ⟨o.bytes ++ nvpImage h ptr name v, o.handy - nvpSize name v⟩ := by
      intro ptr
      rw [Out.put, length_nvpImage, if_pos hfits]
    have hpos : (o.bytes ++ nvpImage h (ptrs o.bytes.length) name v).length - nvpSize name v
        + nvpValoff name = (o.bytes ++ nvpFront h name v).length := by
      rw [length_append, length_nvpImage, length_append, length_nvpFront]
      omega
    rw [hput, hput]
    simp only [Option.bind_eq_bind, Option.bind_some, if_neg hshort, if_neg hcalc]
    rw [hpos, nvpImage_eq, ← append_assoc, blankPointers_valueImage, nvpImage_eq, append_assoc]
  · have hput : ∀ ptr, o.put (nvpImage h ptr name v) = none := by
      intro ptr
      rw [Out.put, length_nvpImage, if_neg hfits]
    rw [hput, hput]
    rfl

/-! ## The packed form -/

mutual

/-- The bytes of an embedded list behind its pair. -/
def Nvlist.native (h : Host) : Nvlist → Bytes
  | .mk _ ps => ps.native h

/-- The bytes of some pairs with their terminator. -/
def Nvpairs.native (h : Host) : Nvpairs → Bytes
  | .nil => List.replicate 4 0
  | .cons name v ps => nvpImage h noPtr name v ++ v.native h ++ ps.native h

/-- The bytes of the lists embedded in a value. -/
def NvValue.native (h : Host) : NvValue → Bytes
  | .nvlist l => l.native h
  | .nvlistArray ls => ls.native h
  | .boolean | .num .. | .string _ | .hrtime _ | .numArray .. | .stringArray _ => []

/-- The bytes of the lists of an array. -/
def Nvlists.native (h : Host) : Nvlists → Bytes
  | .nil => []
  | .cons l ls => l.native h ++ ls.native h

end

theorem four_le_length_native (ps : Nvpairs) : 4 ≤ (ps.native h).length := by
  cases ps with
  | nil => simp [Nvpairs.native]
  | cons name v ps =>
    have := sizeofNvpair_lt_nvpSize name v
    rw [sizeofNvpair] at this
    simp only [Nvpairs.native, length_append, length_nvpImage]
    omega

mutual

/-- The reported size of an embedded list is the length of its packed form. -/
theorem nvsNativeGetsize_embedded (l : Nvlist) :
    nvsNativeGetsize true 0 l = fitsInt32 (l.native h).length := by
  rcases l with ⟨flag, ps⟩
  have hlen := four_le_length_native h ps
  rw [nvsNativeGetsize, if_pos rfl, nvsNativeGetsizePairs_eq ps (by decide), Nvlist.native]
  congr 1
  omega

theorem nvsNativeGetsizePairs_eq (ps : Nvpairs) {n : ℕ} (hn : n ≤ int32Max) :
    nvsNativeGetsizePairs n ps = fitsInt32 (n + ((ps.native h).length - 4)) := by
  rcases ps with _ | ⟨name, v, ps⟩
  · rw [nvsNativeGetsizePairs, Nvpairs.native, fitsInt32_of_le (by simpa using hn)]
    rfl
  have hlen := four_le_length_native h ps
  have hsum : n + (((Nvpairs.cons name v ps).native h).length - 4)
      = n + ((nvpSize name v + (v.native h).length) + ((ps.native h).length - 4)) := by
    simp only [Nvpairs.native, length_append, length_nvpImage]
    omega
  rw [nvsNativeGetsizePairs, nvsNativeNvpSize_eq name v, hsum]
  exact fitsInt32_step fun k hk => nvsNativeGetsizePairs_eq ps hk

theorem nvsNativeNvpSize_eq (name : CStr) (v : NvValue) :
    nvsNativeNvpSize name v = fitsInt32 (nvpSize name v + (v.native h).length) := by
  cases v with
  | nvlist l =>
    rw [nvsNativeNvpSize, nvsNativeGetsize_embedded l, native]
    exact fitsInt32_bind ..
  | nvlistArray ls =>
    rw [nvsNativeNvpSize, nvsNativeGetsizeArray_eq ls (by decide), native, Nat.zero_add]
    exact fitsInt32_bind ..
  | _ => rfl

theorem nvsNativeGetsizeArray_eq (ls : Nvlists) {n : ℕ} (hn : n ≤ int32Max) :
    nvsNativeGetsizeArray n ls = fitsInt32 (n + (ls.native h).length) := by
  rcases ls with _ | ⟨l, ls⟩
  · rw [nvsNativeGetsizeArray, Nvlists.native, fitsInt32_of_le (by simpa using hn)]
    rfl
  · rw [nvsNativeGetsizeArray, nvsNativeGetsize_embedded l, Nvlists.native, length_append]
    exact fitsInt32_step fun k hk => nvsNativeGetsizeArray_eq ls hk

end

/-- The size `nvlist_size` reports: the two headers and the pairs. -/
theorem nvlistSize_native (l : Nvlist) :
    nvlistSize l .native = fitsInt32 (sizeofNvsHeader + (8 + (l.pairs.native h).length)) := by
  rcases l with ⟨flag, ps⟩
  have hlen := four_le_length_native h ps
  have hsum : sizeofNvsHeader + (2 * 4 + 4) + ((ps.native h).length - 4)
      = sizeofNvsHeader + (8 + (ps.native h).length) := by omega
  rw [nvlistSize, nvsNativeGetsize]
  simp only [Bool.false_eq_true, if_false]
  rw [nvsNativeGetsizePairs_eq h ps (by decide), hsum]
  rfl

mutual

theorem Nvlist.writes_native (l : Nvlist) (hl : l.Valid)
    (hshort : ShortNames l.allPairs) : Writes (nvsNativeEncode h ptrs true l) (l.native h) := by
  rcases l with ⟨flag, ps⟩
  exact Nvpairs.writes_native ps hl.2 hshort

/-- Encoding writes the packed form. -/
theorem Nvpairs.writes_native (ps : Nvpairs) (hps : ps.Valid)
    (hshort : ShortNames ps.allPairs) : Writes (nvsNativeEncodePairs h ptrs ps) (ps.native h) := by
  rcases ps with _ | ⟨name, v, ps⟩
  · exact writes_put _
  obtain ⟨-, hnvp, -, hv, hps⟩ := hps
  obtain ⟨hname, hvshort, hpsshort⟩ := ShortNames.cons_iff.mp hshort
  have hpair := writes_nvpImage h ptrs hname hnvp
  have hvalue := NvValue.writes_native v hv hvshort
  apply ((hpair.bind hvalue).bind (Nvpairs.writes_native ps hps hpsshort)).of_eq
  intro o
  rw [nvsNativeEncodePairs]
  simp only [Option.bind_eq_bind, Option.bind_assoc]

theorem NvValue.writes_native (v : NvValue) (hv : v.Valid)
    (hshort : ShortNames v.allPairs) : Writes (nvsNativeEncodeLists h ptrs v) (v.native h) := by
  cases v with
  | nvlist l => exact Nvlist.writes_native l hv hshort
  | nvlistArray ls => exact Nvlists.writes_native ls hv hshort
  | _ => exact writes_nil

theorem Nvlists.writes_native (ls : Nvlists) (hls : ls.Valid)
    (hshort : ShortNames ls.allPairs) : Writes (nvsNativeEncodeArray h ptrs ls) (ls.native h) := by
  rcases ls with _ | ⟨l, ls⟩
  · exact writes_nil
  · rw [ShortNames, Nvlists.allPairs, forall_mem_append] at hshort
    exact (Nvlist.writes_native l hls.1 hshort.1).bind
      (Nvlists.writes_native ls hls.2 hshort.2)

end

/-! ## Fields -/

theorem field_append {a : Bytes} (b : Bytes) {off : ℕ} (n : ℕ) (ha : a.length ≤ off) :
    field h (a ++ b) off n = field h b (off - a.length) n := by
  rw [field, field, drop_append, drop_of_length_le ha, nil_append]

theorem field_hostBytes {n v : ℕ} (hv : v < 256 ^ n) (b : Bytes) :
    field h (hostBytes h.littleEndian n v ++ b) 0 n = v := by
  rw [field, drop_zero, take_left' (length_hostBytes ..), hostVal_hostBytes _ hv]

/-- A pair in memory from its header to its name. -/
theorem nvpImage_fields (v : NvValue) :
    ∃ tail, nvpImage h noPtr name v = hostBytes h.littleEndian 4 (nvpSize name v)
      ++ (hostBytes h.littleEndian 2 (name.length + 1) ++ (hostBytes h.littleEndian 2 0
        ++ (hostBytes h.littleEndian 4 v.nelem ++ (hostBytes h.littleEndian 4 v.type.code
          ++ (name.bytes ++ 0 :: tail))))) := by
  refine ⟨replicate (nvpValoff name - (nvpHeader h name v ++ (name.bytes ++ [0])).length) 0
    ++ (valueImage h noPtr v ++ replicate (nvAlign v.size - v.size) 0), ?_⟩
  rw [nvpImage_eq, nvpFront, padTo]
  generalize replicate (nvpValoff name - _) 0 = pad
  simp only [nvpHeader, append_assoc, cons_append, nil_append]

section Head

variable {h : Host} {name : CStr} {v : NvValue}

theorem nvsNativeNvpair_image (hnvp : nvpSize name v ≤ int32Max) (s : Bytes) :
    nvsNativeNvpair h (nvpImage h noPtr name v ++ s)
      = some (nvpSize name v, nvpImage h noPtr name v ++ s) := by
  have hv : nvpSize name v < 256 ^ 4 := hnvp.trans_lt (by decide)
  have hok : ¬ (int32Max < nvpSize name v ∨
      (nvpImage h noPtr name v ++ s).length < nvpSize name v) := by
    rw [length_append, length_nvpImage]
    omega
  obtain ⟨rest, hrest⟩ : ∃ rest, nvpImage h noPtr name v ++ s
      = hostBytes h.littleEndian 4 (nvpSize name v) ++ rest := by
    obtain ⟨tail, hfields⟩ := nvpImage_fields h name v
    exact ⟨_, by rw [hfields, append_assoc]⟩
  have hsize : getBytes 4 (nvpImage h noPtr name v ++ s)
      = some (hostBytes h.littleEndian 4 (nvpSize name v), rest) := by
    rw [hrest, getBytes_append (length_hostBytes ..)]
  rw [nvsNativeNvpair, hsize]
  simp only [Option.bind_eq_bind, Option.bind_some, hostVal_hostBytes _ hv, if_neg hok,
    if_neg (nvpSize_ne_zero name v)]

theorem nvsNativeDecodeHead_image (hname : name.length < 32767) (hnvp : nvpSize name v ≤ int32Max)
    (s : Bytes) :
    nvsNativeDecodeHead h (nvpSize name v) (nvpImage h noPtr name v ++ s)
      = some (name, v.type, v.nelem,
      valueImage h noPtr v ++ replicate (nvAlign v.size - v.size) 0, s) := by
  have hnelem : v.nelem < 256 ^ 4 := lt_of_le_of_lt (nelem_le_of_nvpSize hnvp) (by decide)
  have hcode : v.type.code < 256 ^ 4 := v.type.code_lt.trans (by decide)
  have hnamesz : name.length + 1 < 256 ^ 2 := by omega
  obtain ⟨tail, hfields⟩ := nvpImage_fields h name v
  have hf4 : field h (nvpImage h noPtr name v) 4 2 = name.length + 1 := by
    rw [hfields]
    simp [field_append, field_hostBytes h hnamesz]
  have hf8 : field h (nvpImage h noPtr name v) 8 4 = v.nelem := by
    rw [hfields]
    simp [field_append, field_hostBytes h hnelem]
  have hf12 : field h (nvpImage h noPtr name v) 12 4 = v.type.code := by
    rw [hfields]
    simp [field_append, field_hostBytes h hcode]
  have hdrop : (nvpImage h noPtr name v).drop sizeofNvpair = name.bytes ++ 0 :: tail := by
    have hheader : nvpImage h noPtr name v = nvpHeader h name v ++ (name.bytes ++ 0 :: tail) := by
      rw [hfields, nvpHeader]
      simp only [append_assoc]
    rw [hheader, drop_left' (length_nvpHeader h name v)]
  have hnul : (nvpImage h noPtr name v)[sizeofNvpair + (name.length + 1) - 1]? = some 0 := by
    rw [Nat.add_sub_assoc (Nat.le_add_left 1 _), Nat.add_sub_cancel, ← getElem?_drop, hdrop,
      CStr.length, getElem?_append_right le_rfl, Nat.sub_self]
    rfl
  have hvalue : (nvpImage h noPtr name v).drop (nvpValoff name)
      = valueImage h noPtr v ++ replicate (nvAlign v.size - v.size) 0 := by
    rw [nvpImage_eq, drop_left' (length_nvpFront h name v)]
  have hmin : ¬ (name.length + 1 = 0 ∨ 2 ^ 15 ≤ name.length + 1
      ∨ nvpSize name v < nvpSizeCalc (name.length + 1) 0) := by
    have : nvpSizeCalc (name.length + 1) 0 ≤ nvpSize name v := by
      simp [nvpSize, nvpSizeCalc, nvAlign]
    omega
  have hcalc := nvpSize_ge_calc name v
  rw [nvsNativeDecodeHead, getBytes_append (length_nvpImage ..)]
  simp only [Option.bind_eq_bind, Option.bind_some, hf4, hf8, hf12, if_neg hmin, hdrop,
    cstr_append, hnul,
    Nat.add_sub_cancel, ne_eq, not_true_eq_false, or_self, if_false, DataType.ofCode_code,
    iGetValueSize_nil hnvp, if_neg hcalc, hvalue]

end Head

/-! ## Values without lists -/

/-- Equally long pieces: dropping whole pieces. -/
theorem drop_flatMap {α : Type} {f : α → Bytes} {w : ℕ} (hf : ∀ a, (f a).length = w)
    (as : List α) (i : ℕ) :
    (as.flatMap f).drop (i * w) = (as.drop i).flatMap f := by
  induction i generalizing as with
  | zero => simp
  | succ i ih =>
    cases as with
    | nil => simp
    | cons a as =>
      have hmul : (i + 1) * w = (f a).length + i * w := by rw [hf]; ring
      rw [flatMap_cons, hmul, drop_append, drop_of_length_le (by omega),
        nil_append, Nat.add_sub_cancel_left, ih, drop_succ_cons]

theorem field_flatMap (t : NvNum) {xs : List t.Val} (rest : Bytes) {i : ℕ} (hi : i < xs.length) :
    BitVec.ofNat (8 * t.size)
      (field h ((xs.flatMap fun x => hostBytes h.littleEndian t.size x.toNat) ++ rest)
        (i * t.size) t.size)
        = xs[i] := by
  have hlen : ∀ x : t.Val, (hostBytes h.littleEndian t.size x.toNat).length = t.size :=
    fun x => length_hostBytes ..
  have hle : i * t.size ≤ (xs.flatMap fun x => hostBytes h.littleEndian t.size x.toNat).length := by
    rw [length_flatMap]
    simp only [hlen, map_const', sum_replicate_nat]
    exact Nat.mul_le_mul_right _ hi.le
  have hpow : (2 : ℕ) ^ (8 * t.size) = 256 ^ t.size := by rw [Nat.pow_mul]
  have hx : (xs[i]).toNat < 256 ^ t.size := hpow ▸ isLt _
  rw [field, drop_append_of_le_length hle, drop_flatMap hlen, drop_eq_getElem_cons hi,
    flatMap_cons, append_assoc, take_left' (hlen _), hostVal_hostBytes _ hx,
    ofNat_toNat, setWidth_eq]

theorem nvpairNativeStringArray_append (rest : Bytes) (ss : List CStr) :
    nvpairNativeStringArray ss.length ((ss.flatMap fun s => s.bytes ++ [0]) ++ rest) = some ss := by
  induction ss with
  | nil => rfl
  | cons s ss ih =>
    have hbuf : ((s :: ss).flatMap fun s : CStr => s.bytes ++ [0]) ++ rest
        = s.bytes ++ 0 :: ((ss.flatMap fun s => s.bytes ++ [0]) ++ rest) := by
      simp [flatMap_cons]
    have hdrop : ∀ more : Bytes, (s.bytes ++ 0 :: more).drop (s.length + 1) = more := by
      intro more
      rw [CStr.length, drop_append, drop_of_length_le (by omega)]
      simp
    rw [hbuf, length_cons, nvpairNativeStringArray]
    simp only [cstr_append, hdrop, ih]
    simp

theorem nvsNativeDecodeFlat_image {v : NvValue} (hl : ∀ l, v ≠ .nvlist l)
    (hls : ∀ ls, v ≠ .nvlistArray ls) (rest : Bytes) :
    nvsNativeDecodeFlat h v.type v.nelem (valueImage h noPtr v ++ rest) = some v := by
  rcases v with _ | ⟨t, x⟩ | s | x | l | ⟨t, xs⟩ | ss | ls
  · rfl
  · have hpow : (2 : ℕ) ^ (8 * t.size) = 256 ^ t.size := by rw [Nat.pow_mul]
    have hx : x.toNat < 256 ^ t.size := hpow ▸ x.isLt
    simp only [type, nvsNativeDecodeFlat, valueImage, field_hostBytes h hx, ofNat_toNat,
      setWidth_eq]
  · simp only [type, nvsNativeDecodeFlat, valueImage, append_assoc, cons_append,
      nil_append, cstr_append]
    simp
  · have hx : x.toNat < 256 ^ 8 := x.isLt.trans_le (by decide)
    simp only [type, nvsNativeDecodeFlat, valueImage, field_hostBytes h hx, ofNat_toNat,
      setWidth_eq]
  · exact absurd rfl (hl l)
  · simp only [type, nvsNativeDecodeFlat, valueImage, nelem]
    congr 2
    apply ext_getElem
    · simp
    · intro i hi hi'
      rw [getElem_map, getElem_range]
      exact field_flatMap h t rest hi'
  · have hdrop : (valueImage h noPtr (.stringArray ss) ++ rest).drop (ss.length * 8)
        = (ss.flatMap fun s => s.bytes ++ [0]) ++ rest := by
      rw [valueImage, append_assoc, drop_left' (length_ptrBytes ..)]
    simp only [type, nvsNativeDecodeFlat, nelem, hdrop, nvpairNativeStringArray_append]
    rfl
  · exact absurd rfl (hls ls)

/-! ## Decoding -/

theorem and_three_of_lt {flag : BitVec 32} (h : flag.toNat < 4) : flag &&& 3 = flag := by
  apply eq_of_toNat_eq
  rw [toNat_and]
  change flag.toNat &&& 3 = flag.toNat
  generalize flag.toNat = n at h
  interval_cases n <;> rfl

theorem nvlistImage_flag (off : ℕ) (l : Nvlist) (rest : Bytes) :
    field h (nvlistImage h noPtr off l ++ rest) 0 4 = nvVersion
      ∧ BitVec.ofNat 32 (field h (nvlistImage h noPtr off l ++ rest) 4 4) = l.nvflag := by
  have hflag : l.nvflag.toNat < 256 ^ 4 := l.nvflag.isLt
  rw [nvlistImage_split, append_assoc, append_assoc]
  constructor
  · exact field_hostBytes h (by decide) _
  · rw [field_append h _ 4 (by simp), length_hostBytes, field_hostBytes h hflag, ofNat_toNat,
      setWidth_eq]

theorem nvsNativeNvpair_end (s : Bytes) : nvsNativeNvpair h (replicate 4 0 ++ s) = some (0, s) := by
  have hzero : hostVal h.littleEndian (replicate 4 0) = 0 := by
    cases h.littleEndian <;> rfl
  rw [nvsNativeNvpair, getBytes_append (length_replicate ..)]
  simp only [Option.bind_eq_bind, Option.bind_some, hzero, Nat.not_lt_zero, or_self,
    if_false, if_true]
  rfl

theorem nvsNativeDecodeValue_flat {v : NvValue} (hl : ∀ l, v ≠ .nvlist l)
    (hls : ∀ ls, v ≠ .nvlistArray ls) (fuel : ℕ) (rest s : Bytes) :
    nvsNativeDecodeValue h (fuel + 1) v.type v.nelem (valueImage h noPtr v ++ rest) s
      = some (v, s) := by
  have hflat := nvsNativeDecodeFlat_image h hl hls rest
  unfold nvsNativeDecodeValue
  cases v with
  | nvlist l => exact absurd rfl (hl l)
  | nvlistArray ls => exact absurd rfl (hls ls)
  | _ =>
    simp only [type] at hflat ⊢
    rw [hflat]
    rfl

mutual

theorem Nvlist.decode_native (l : Nvlist) (hl : l.Valid) (hshort : ShortNames l.allPairs)
    {fuel : ℕ} (hfuel : l.calls ≤ fuel) (off : ℕ) (rest s : Bytes) :
    nvsNativeEmbedded h fuel (nvlistImage h noPtr off l ++ rest) (l.native h ++ s)
      = some (l, s) := by
  obtain ⟨hversion, hflag⟩ := nvlistImage_flag h off l rest
  rcases l with ⟨flag, ps⟩
  rw [Nvlist.calls] at hfuel
  obtain _ | fuel := fuel
  · omega
  rw [nvsNativeEmbedded, hversion, hflag, Nvlist.native,
    Nvpairs.decode_native ps hl.2 hshort (by omega) s]
  simp only [Nvlist.nvflag, and_three_of_lt hl.1, ne_eq, not_true_eq_false, if_false,
    Option.bind_eq_bind, Option.bind_some]

/-- Packed pairs are read back. -/
theorem Nvpairs.decode_native (ps : Nvpairs) (hps : ps.Valid)
    (hshort : ShortNames ps.allPairs) {fuel : ℕ} (hfuel : ps.calls ≤ fuel) (s : Bytes) :
    nvsNativeDecodePairs h fuel (ps.native h ++ s) = some (ps, s) := by
  rcases ps with _ | ⟨name, v, ps⟩
  · rw [Nvpairs.calls] at hfuel
    obtain _ | fuel := fuel
    · omega
    rw [nvsNativeDecodePairs, Nvpairs.native, nvsNativeNvpair_end]
    rfl
  rw [Nvpairs.calls] at hfuel
  obtain _ | fuel := fuel
  · omega
  obtain ⟨-, hnvp, hvalid, hv, hps⟩ := hps
  obtain ⟨hname, hvshort, hpsshort⟩ := ShortNames.cons_iff.mp hshort
  have hmin := not_lt.mpr (nvpSize_ge name v)
  rw [nvsNativeDecodePairs, Nvpairs.native, append_assoc, append_assoc,
    nvsNativeNvpair_image hnvp]
  simp only [Option.bind_eq_bind, Option.bind_some, if_neg (nvpSize_ne_zero name v), if_neg hmin]
  rw [nvsNativeDecodeHead_image hname hnvp]
  simp only [Option.bind_some]
  rw [NvValue.decode_native v hv hvshort (by omega)]
  simp only [Option.bind_some, iValidateNvpair_self hname hnvp hvalid]
  rw [Nvpairs.decode_native ps hps hpsshort (by omega)]
  rfl

theorem NvValue.decode_native (v : NvValue) (hv : v.Valid) (hshort : ShortNames v.allPairs)
    {fuel : ℕ} (hfuel : v.calls ≤ fuel) (rest s : Bytes) :
    nvsNativeDecodeValue h fuel v.type v.nelem (valueImage h noPtr v ++ rest) (v.native h ++ s)
      = some (v, s) := by
  have : 1 ≤ v.calls := by cases v <;> simp [calls]
  obtain _ | fuel := fuel
  · omega
  cases v with
  | nvlist l =>
    rw [calls] at hfuel
    simp only [type, valueImage, native, nvsNativeDecodeValue]
    rw [Nvlist.decode_native l hv hshort (by omega)]
    rfl
  | nvlistArray ls =>
    rw [calls] at hfuel
    have hdrop : (valueImage h noPtr (.nvlistArray ls) ++ rest).drop (ls.length * 8)
        = nvlistImages h noPtr (ls.length * 8) ls ++ rest := by
      rw [valueImage, append_assoc, drop_left' (length_ptrBytes ..)]
    simp only [type, native, nelem, nvsNativeDecodeValue, hdrop]
    rw [Nvlists.decode_native ls hv hshort (by omega)]
    rfl
  | _ => apply nvsNativeDecodeValue_flat <;> nofun

theorem Nvlists.decode_native (ls : Nvlists) (hls : ls.Valid) (hshort : ShortNames ls.allPairs)
    {fuel : ℕ} (hfuel : ls.calls ≤ fuel) (off : ℕ) (rest s : Bytes) :
    nvsNativeDecodeArray h fuel ls.length (nvlistImages h noPtr off ls ++ rest) (ls.native h ++ s)
      = some (ls, s) := by
  rcases ls with _ | ⟨l, ls⟩
  · rw [Nvlists.calls] at hfuel
    obtain _ | fuel := fuel
    · omega
    rfl
  rw [Nvlists.calls] at hfuel
  obtain _ | fuel := fuel
  · omega
  rw [ShortNames, Nvlists.allPairs, forall_mem_append] at hshort
  rw [Nvlists.length, Nvlists.native, nvlistImages, append_assoc, append_assoc,
    nvsNativeDecodeArray, Nvlist.decode_native l hls.1 hshort.1 (by omega),
    drop_left' (length_nvlistImage ..)]
  simp only [Option.bind_eq_bind, Option.bind_some]
  rw [Nvlists.decode_native ls hls.2 hshort.2 (by omega)]
  rfl

end

mutual

/-- There are fewer calls than bytes. -/
theorem Nvlist.calls_le_native (l : Nvlist) : l.calls + 1 ≤ (l.native h).length := by
  rcases l with ⟨flag, ps⟩
  have ih := Nvpairs.calls_le_native ps
  simp only [Nvlist.calls, Nvlist.native]
  omega

theorem Nvpairs.calls_le_native (ps : Nvpairs) : ps.calls + 2 ≤ (ps.native h).length := by
  rcases ps with _ | ⟨name, v, ps⟩
  · simp [Nvpairs.calls, Nvpairs.native]
  have hv := NvValue.calls_le_native v
  have ih := Nvpairs.calls_le_native ps
  have hsize := sizeofNvpair_lt_nvpSize name v
  rw [sizeofNvpair] at hsize
  simp only [Nvpairs.calls, Nvpairs.native, length_append, length_nvpImage]
  omega

theorem NvValue.calls_le_native (v : NvValue) : v.calls ≤ (v.native h).length + 2 := by
  cases v with
  | nvlist l =>
    have ih := Nvlist.calls_le_native l
    simp only [calls, native]
    omega
  | nvlistArray ls =>
    have ih := Nvlists.calls_le_native ls
    simp only [calls, native]
    omega
  | _ => exact Nat.le_add_left 1 1

theorem Nvlists.calls_le_native (ls : Nvlists) : ls.calls ≤ (ls.native h).length + 1 := by
  rcases ls with _ | ⟨l, ls⟩
  · simp [Nvlists.calls, Nvlists.native]
  · have hl := Nvlist.calls_le_native l
    have ih := Nvlists.calls_le_native ls
    simp only [Nvlists.calls, Nvlists.native, length_append]
    omega

end

/-! ## Packing and unpacking -/

/-- A packed list: the version, the flags and the pairs. -/
def nativeBytes (h : Host) (l : Nvlist) : Bytes :=
  hostBytes h.littleEndian 4 nvVersion ++ hostBytes h.littleEndian 4 l.nvflag.toNat ++
    l.pairs.native h

theorem length_nativeBytes (l : Nvlist) :
    (nativeBytes h l).length = 8 + (l.pairs.native h).length := by
  simp only [nativeBytes, length_append, length_hostBytes]

theorem writes_nativeBytes {l : Nvlist} (hl : l.Valid)
    (hshort : ShortNames l.allPairs) : Writes (nvsNativeEncode h ptrs false l)
    (nativeBytes h l) := by
  rcases l with ⟨flag, ps⟩
  have hhead := (writes_put (hostBytes h.littleEndian 4 nvVersion)).bind
    (writes_put (hostBytes h.littleEndian 4 flag.toNat))
  apply (hhead.bind (Nvpairs.writes_native h ptrs ps hl.2 hshort)).of_eq
  intro o
  rw [nvsNativeEncode]
  simp only [Bool.false_eq_true, if_false, Option.bind_eq_bind, Option.bind_assoc]

theorem nvsNativeDecode_nativeBytes {l : Nvlist} (hl : l.Valid) (hshort : ShortNames l.allPairs)
    {fuel : ℕ} (hfuel : l.pairs.calls ≤ fuel) :
    nvsNativeDecode h fuel (nativeBytes h l) = some (l, []) := by
  rcases l with ⟨flag, ps⟩
  have hflag : flag.toNat < 256 ^ 4 := flag.isLt
  have hpairs := Nvpairs.decode_native h ps hl.2 hshort hfuel []
  rw [append_nil] at hpairs
  rw [nvsNativeDecode, nativeBytes, append_assoc, getBytes_append (length_hostBytes ..)]
  simp only [Option.bind_eq_bind, Option.bind_some]
  rw [getBytes_append (length_hostBytes ..)]
  simp only [Option.bind_some, Nvlist.nvflag, Nvlist.pairs]
  rw [hpairs, hostVal_hostBytes _ hflag]
  simp

theorem nvlistXunpack_of_native (s : Bytes) :
    nvlistXunpack h ([NvEncoding.native.code, h.endian, 0, 0] ++ s)
      = (nvsNativeDecode h (s.length + 4) s).map Prod.fst := by
  have hlen : ¬ s.length + 4 < 4 := by omega
  simp only [nvlistXunpack, cons_append, nil_append, length_cons, sizeofNvsHeader, hlen, if_false,
    drop_succ_cons, drop_zero, head?_cons, getElem?_cons_succ, getElem?_cons_zero, ne_eq,
    not_true_eq_false,
    if_true]
  cases nvsNativeDecode h (s.length + 4) s <;> rfl

/-- A list that is packed into a buffer of the size reported for it fills the buffer, and is
unpacked to the same list on the same machine. -/
theorem nvlistXunpack_native (h : Host) (ptrs : ℕ → ℕ → BitVec 8) (l : Nvlist) (hl : l.Valid)
    (hshort : ShortNames l.allPairs) {buf : Bytes}
    (hsize : nvlistSize l .native = some buf.length) :
    ∃ o, nvlistEncode h ptrs l .native buf.length = some o
      ∧ sizeofNvsHeader + o.bytes.length = buf.length
      ∧ ∃ packed, nvlistXpack h ptrs l .native buf = some packed ∧
        nvlistXunpack h packed = some l := by
  rw [nvlistSize_native h, fitsInt32_eq_some] at hsize
  obtain ⟨hbuf, -⟩ := hsize
  have hlen := length_nativeBytes h l
  have hcalls := l.pairs.calls_le_native h
  have hencode : nvlistEncode h ptrs l .native buf.length = some ⟨nativeBytes h l, 0⟩ := by
    have hfits : (nativeBytes h l).length ≤ buf.length - sizeofNvsHeader := by omega
    have hfull : buf.length - sizeofNvsHeader - (nativeBytes h l).length = 0 := by omega
    rw [nvlistEncode, writes_nativeBytes h ptrs hl hshort, Out.put, if_pos hfits, hfull]
    rfl
  have hpack : nvlistXpack h ptrs l .native buf
      = some ([NvEncoding.native.code, h.endian, 0, 0] ++ nativeBytes h l) := by
    have hhdr : ¬ buf.length < sizeofNvsHeader := by omega
    have hrest : buf.drop (sizeofNvsHeader + (nativeBytes h l).length) = [] :=
      drop_of_length_le (by omega)
    rw [nvlistXpack, hencode]
    simp [hhdr, hrest]
  refine ⟨_, hencode, by rw [hbuf]; exact congrArg (sizeofNvsHeader + ·) hlen, _, hpack, ?_⟩
  rw [nvlistXunpack_of_native, nvsNativeDecode_nativeBytes h hl hshort (by omega)]
  rfl

/-- A list with a list in it. -/
def nestedList : Nvlist := .mk 1 (.cons nameA (.nvlist stringList) .nil)

theorem nvlistXunpack_native_nested :
    ∃ o, nvlistEncode ⟨true, true⟩ (fun i j => BitVec.ofNat 8 (i + j)) nestedList .native 100
      = some o
      ∧ sizeofNvsHeader + o.bytes.length = 100
      ∧ ∃ packed, nvlistXpack ⟨true, true⟩ (fun i j => BitVec.ofNat 8 (i + j)) nestedList .native
          (List.replicate 100 0) = some packed
        ∧ nvlistXunpack ⟨true, true⟩ packed = some nestedList := by
  have hsize : nvlistSize nestedList .native = some (replicate 100 (0 : BitVec 8)).length := rfl
  have hshort : ShortNames nestedList.allPairs := by
    intro p hp
    simp only [nestedList, stringList, Nvlist.allPairs, Nvpairs.allPairs, allPairs,
      append_nil, mem_cons, not_mem_nil, or_false] at hp
    rcases hp with rfl | rfl <;> decide
  have hstring : stringList.Valid :=
    ⟨by decide, Or.inl (by decide), by decide, rfl, trivial, trivial⟩
  exact nvlistXunpack_native ⟨true, true⟩ (fun i j => BitVec.ofNat 8 (i + j)) nestedList
    ⟨by decide, Or.inl (by decide), by decide, rfl, hstring, trivial⟩ hshort hsize

end Polaris
