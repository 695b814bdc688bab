import Polaris.Nvpair.Pack
import Mathlib.Data.List.Count

/-!
# The packed form of a list

What the XDR operations compute, said as functions of the list alone: `Nvlist.xdr` is the byte
string that stands for a list, `Nvlist.packed` its size as the library counts it.  The stream
functions are shown to write the one and to compute the other; the two differ by four bytes for
every array of numbers without elements, for which a count is added but none is written.

## Main results

* `nvlistSize_xdr` — the reported size.
* `Nvlist.writes_xdr` — the bytes that encoding writes.
* `Nvlist.length_xdr` — the number of these bytes.
-/

namespace Polaris

open Xdr List Option NvValue

/-! ## The reported size -/

mutual

/-- The packed size of a list without the stream's header. -/
def Nvlist.packed : Nvlist → ℕ
  | .mk _ ps => 16 + ps.packed

/-- The packed size of some pairs. -/
def Nvpairs.packed : Nvpairs → ℕ
  | .nil => 0
  | .cons name v ps => nvsXdrHdrSize name + v.packed + ps.packed

/-- The packed size of a value. -/
def NvValue.packed : NvValue → ℕ
  | .boolean => 0
  | .num t _ => t.xdrUnit
  | .hrtime _ => 8
  | .string s => 4 + nvAlign4 s.length
  | .numArray t xs => if t = .byte then nvAlign4 xs.length else 4 + t.xdrUnit * xs.length
  | .stringArray ss => (ss.map fun s => 4 + nvAlign4 s.length).sum
  | .nvlist l => l.packed
  | .nvlistArray ls => ls.packed

/-- The packed size of the lists of an array. -/
def Nvlists.packed : Nvlists → ℕ
  | .nil => 0
  | .cons l ls => l.packed + ls.packed

end

variable {p : CStr × NvValue} {m : ℕ}

theorem fitsInt32_eq_some {n : ℕ} : fitsInt32 n = some m ↔ m = n ∧ n ≤ int32Max := by
  rw [fitsInt32]
  split
  · simp; omega
  · simp; omega

theorem fitsInt32_of_le {n : ℕ} (h : n ≤ int32Max) : fitsInt32 n = some n :=
  fitsInt32_eq_some.mpr ⟨rfl, h⟩

theorem fitsInt32_of_lt {n : ℕ} (h : int32Max < n) : fitsInt32 n = none := if_pos h

/-- Checking a part before the whole changes nothing. -/
theorem fitsInt32_bind (n m : ℕ) : ((fitsInt32 n).bind fun x => fitsInt32 (m + x))
    = fitsInt32 (m + n) := by
  by_cases h : n ≤ int32Max
  · rw [fitsInt32_of_le h, bind_some]
  · rw [fitsInt32_of_lt (by omega), fitsInt32_of_lt (by omega), bind_none]

/-- A step of a loop that adds up sizes and checks the sum each time. -/
theorem fitsInt32_step {acc n : ℕ} {f : ℕ → Option ℕ}
    (hf : ∀ k ≤ int32Max, f k = fitsInt32 (k + m)) :
    ((fitsInt32 n).bind fun x => (fitsInt32 (acc + x)).bind f) = fitsInt32 (acc + (n + m)) := by
  by_cases h : acc + n ≤ int32Max
  · rw [fitsInt32_of_le (n := n) (by omega), bind_some, fitsInt32_of_le h, bind_some,
      hf _ h, Nat.add_assoc]
  · rw [fitsInt32_of_lt (n := acc + (n + m)) (by omega)]
    by_cases hn : n ≤ int32Max
    · rw [fitsInt32_of_le hn, bind_some, fitsInt32_of_lt (by omega), bind_none]
    · rw [fitsInt32_of_lt (by omega), bind_none]

mutual

theorem nvsXdrGetsize_eq (l : Nvlist) {n : ℕ} (hn : n + 16 ≤ int32Max) :
    nvsXdrGetsize n l = fitsInt32 (n + l.packed) := by
  rcases l with ⟨flag, ps⟩
  rw [nvsXdrGetsize, nvsXdrGetsizePairs_eq ps hn, Nvlist.packed, Nat.add_assoc]

theorem nvsXdrGetsizePairs_eq (ps : Nvpairs) {n : ℕ} (hn : n ≤ int32Max) :
    nvsXdrGetsizePairs n ps = fitsInt32 (n + ps.packed) := by
  rcases ps with _ | ⟨name, v, ps⟩
  · rw [nvsXdrGetsizePairs, Nvpairs.packed, Nat.add_zero, fitsInt32_of_le hn]
  · rw [nvsXdrGetsizePairs, nvsXdrNvpSize_eq name v, Nvpairs.packed]
    exact fitsInt32_step fun k hk => nvsXdrGetsizePairs_eq ps hk

theorem nvsXdrNvpSize_eq (name : CStr) (v : NvValue) :
    nvsXdrNvpSize name v = fitsInt32 (nvsXdrHdrSize name + v.packed) := by
  cases v with
  | nvlist l =>
    rw [nvsXdrNvpSize, nvsXdrGetsize_eq l (by decide), packed, Nat.zero_add]
    exact fitsInt32_bind ..
  | numArray t xs =>
    rw [nvsXdrNvpSize, packed]
    split <;> rfl
  | nvlistArray ls =>
    rw [nvsXdrNvpSize, nvsXdrGetsizeArray_eq ls (by decide), packed, Nat.zero_add]
    exact fitsInt32_bind ..
  | _ => rfl

theorem nvsXdrGetsizeArray_eq (ls : Nvlists) {n : ℕ} (hn : n ≤ int32Max) :
    nvsXdrGetsizeArray n ls = fitsInt32 (n + ls.packed) := by
  rcases ls with _ | ⟨l, ls⟩
  · rw [nvsXdrGetsizeArray, Nvlists.packed, Nat.add_zero, fitsInt32_of_le hn]
  · rw [nvsXdrGetsizeArray, nvsXdrGetsize_eq l (by decide), Nvlists.packed, Nat.zero_add]
    exact fitsInt32_step fun k hk => nvsXdrGetsizeArray_eq ls hk

end

/-- The size `nvlist_size` reports. -/
theorem nvlistSize_xdr (l : Nvlist) : nvlistSize l .xdr = fitsInt32 (sizeofNvsHeader + l.packed) :=
  nvsXdrGetsize_eq l (by decide)

/-! ## The bytes -/

/-- The packed pair up to its value. -/
def xdrHead (name : CStr) (v : NvValue) : Bytes :=
  stringBytes name ++ beBytes 4 v.type.code ++ beBytes 4 v.nelem

mutual

/-- The bytes of a packed list. -/
def Nvlist.xdr (h : Host) : Nvlist → Bytes
  | .mk flag ps => beBytes 4 nvVersion ++ beBytes 4 flag.toNat ++ ps.xdr h

/-- The bytes of some packed pairs with their terminator. -/
def Nvpairs.xdr (h : Host) : Nvpairs → Bytes
  | .nil => beBytes 4 0 ++ beBytes 4 0
  | .cons name v ps =>
    beBytes 4 (nvsXdrHdrSize name + v.packed) ++ beBytes 4 (nvpSize name v) ++ xdrHead name v
      ++ v.xdr h ++ ps.xdr h

/-- The bytes of a packed value. -/
def NvValue.xdr (h : Host) : NvValue → Bytes
  | .boolean => []
  | .num t x => numBytes h t x
  | .string s => stringBytes s
  | .hrtime x => beBytes 8 x.toNat
  | .numArray t xs =>
    if xs.length = 0 then []
    else if t = .byte then opaqueBytes (xs.map fun x => BitVec.ofNat 8 x.toNat)
    else beBytes 4 xs.length ++ xs.flatMap (numBytes h t)
  | .stringArray ss => ss.flatMap stringBytes
  | .nvlist l => l.xdr h
  | .nvlistArray ls => ls.xdr h

/-- The bytes of the packed lists of an array. -/
def Nvlists.xdr (h : Host) : Nvlists → Bytes
  | .nil => []
  | .cons l ls => l.xdr h ++ ls.xdr h

end

/-- An array of numbers without elements, other than bytes. -/
def isEmptyNumArray : CStr × NvValue → Bool
  | (_, .numArray t xs) => t ≠ .byte && xs.length == 0
  | _ => false

variable (h : Host)

@[simp] theorem length_numBytes (t : NvNum) (x : t.Val) : (numBytes h t x).length = t.xdrUnit := by
  simp [numBytes]

@[simp] theorem length_xdrHead (name : CStr) (v : NvValue) :
    (xdrHead name v).length = 12 + align4 name.length := by
  simp [xdrHead]
  omega

mutual

/-- A packed list is shorter than reported by four bytes for every empty array of numbers. -/
theorem Nvlist.length_xdr (l : Nvlist) :
    (l.xdr h).length + 4 * l.allPairs.countP isEmptyNumArray = l.packed := by
  rcases l with ⟨flag, ps⟩
  have ih := Nvpairs.length_xdr ps
  simp only [Nvlist.xdr, Nvlist.allPairs, Nvlist.packed, length_append, length_beBytes]
  omega

theorem Nvpairs.length_xdr (ps : Nvpairs) :
    (ps.xdr h).length + 4 * ps.allPairs.countP isEmptyNumArray = ps.packed + 8 := by
  rcases ps with _ | ⟨name, v, ps⟩
  · simp [Nvpairs.xdr, Nvpairs.allPairs, Nvpairs.packed]
  have ih := Nvpairs.length_xdr ps
  have hv := NvValue.length_xdr name v
  simp only [Nvpairs.xdr, Nvpairs.allPairs, Nvpairs.packed, length_append, length_beBytes,
    length_xdrHead, countP_append, nvsXdrHdrSize]
  rw [nvAlign4]
  omega

theorem NvValue.length_xdr (name : CStr) (v : NvValue) :
    (v.xdr h).length + 4 * ((name, v) :: v.allPairs).countP isEmptyNumArray = v.packed := by
  rcases v with _ | ⟨t, x⟩ | s | x | l | ⟨t, xs⟩ | ss | ls
  · rfl
  · simp [xdr, allPairs, packed, isEmptyNumArray]
  · simp [xdr, allPairs, packed, isEmptyNumArray, nvAlign4]
  · simp [xdr, allPairs, packed, isEmptyNumArray]
  · have ih := Nvlist.length_xdr l
    simpa [xdr, allPairs, packed, isEmptyNumArray, countP_cons] using ih
  · rw [xdr, allPairs, packed]
    by_cases h0 : xs.length = 0
    · by_cases ht : t = .byte
      · simp [isEmptyNumArray, h0, ht, nvAlign4, align4]
      · simp [isEmptyNumArray, h0, ht]
    · by_cases ht : t = .byte
      · simp [isEmptyNumArray, h0, ht, nvAlign4]
      · simp [isEmptyNumArray, h0, ht, map_const', Nat.mul_comm]
  · simp [xdr, allPairs, packed, isEmptyNumArray, nvAlign4]
  · have ih := Nvlists.length_xdr ls
    simpa [xdr, allPairs, packed, isEmptyNumArray, countP_cons] using ih

theorem Nvlists.length_xdr (ls : Nvlists) :
    (ls.xdr h).length + 4 * ls.allPairs.countP isEmptyNumArray = ls.packed := by
  rcases ls with _ | ⟨l, ls⟩
  · rfl
  · have hl := Nvlist.length_xdr l
    have ih := Nvlists.length_xdr ls
    simp only [Nvlists.xdr, Nvlists.allPairs, Nvlists.packed, length_append, countP_append]
    omega

end

/-! ## Encoding writes them -/

section Fits

variable {name : CStr} {v : NvValue}

theorem name_le_nvpSize (name : CStr) (v : NvValue) :
    name.length ≤ nvpSize name v - sizeofNvpair - 1 := by
  have := nvAlign_spec (sizeofNvpair + (name.length + 1))
  rw [nvpSize_eq, nvpValoff]
  omega

theorem sizeofNvpair_lt_nvpSize (name : CStr) (v : NvValue) : sizeofNvpair < nvpSize name v := by
  have := nvAlign_spec (sizeofNvpair + (name.length + 1))
  rw [nvpSize_eq, nvpValoff]
  omega

@[simp] theorem nvpSize_sub_valoff (name : CStr) (v : NvValue) :
    nvpSize name v - nvpValoff name = nvAlign v.size :=
  Nat.add_sub_cancel_left ..

/-- The value of a pair fits behind its name. -/
theorem value_fits (name : CStr) (v : NvValue) :
    ¬ (v.nelem ≠ 0 ∧ (nvpSize name v ≤ nvpValoff name
      ∨ nvpSize name v - nvpValoff name < valueSz v.type [] v.nelem)) := by
  rintro ⟨hne, hle | hlt⟩
  · have hpos : v.size ≠ 0 := fun h => hne (size_eq_zero.mp h)
    have := nvAlign_spec v.size
    rw [nvpSize_eq] at hle
    omega
  · have := nvAlign_spec v.size
    have hle : valueSz v.type [] v.nelem ≤ v.size := valueSz_nil_le ..
    rw [nvpSize_sub_valoff] at hlt
    omega

theorem writes_xdrHead (h : nvpSize name v ≤ int32Max) :
    Writes (nvsXdrEncodeHead (nvpSize name v) name v) (xdrHead name v) := by
  have h1 := writes_put (stringBytes name)
  have h2 := writes_put (beBytes 4 v.type.code)
  have h3 := writes_put (beBytes 4 v.nelem)
  apply ((h1.bind (h2.bind h3)).congr (by rw [xdrHead, append_assoc])).of_eq
  intro o
  rw [nvsXdrEncodeHead, iGetValueSize_nil h]
  simp only [bind_eq_bind, bind_some, if_neg (not_le.mpr (sizeofNvpair_lt_nvpSize name v)),
    if_neg (not_lt.mpr (name_le_nvpSize name v)), if_neg (value_fits name v),
    bind_fun_some]

end Fits

theorem size_string (s : CStr) : (NvValue.string s).size = s.length + 1 := by
  simp [size, valueSz, type, strings]

/-- The strings of an array fit when there is room for all of them with their zero bytes. -/
theorem writes_strings {ss : List CStr} {len buflen : ℕ}
    (hfits : len + (ss.map fun s => s.length + 1).sum ≤ buflen) :
    Writes (nvsXdrEncodeStrings ss len buflen) (ss.flatMap stringBytes) := by
  induction ss generalizing len buflen with
  | nil => exact writes_nil
  | cons str ss ih =>
    simp only [map_cons, sum_cons] at hfits
    have hlen : ¬ buflen ≤ len := by omega
    have hstr : ¬ buflen - len - 1 < str.length := by omega
    have hrest : Writes (nvsXdrEncodeStrings ss (str.length + 1) (buflen - len))
      (ss.flatMap stringBytes) :=
      ih (by omega)
    apply ((writes_put (stringBytes str)).bind hrest).of_eq
    intro o
    rw [nvsXdrEncodeStrings]
    simp only [if_neg hlen, if_neg hstr, bind_eq_bind]

/-- The values without lists. -/
theorem writes_numArray (t : NvNum) (xs : List t.Val) :
    Writes (nvsXdrEncodeValue h (nvAlign (NvValue.numArray t xs).size) (.numArray t xs))
      ((NvValue.numArray t xs).xdr h) := by
  intro o
  have hfits : ¬ nvAlign (numArray t xs).size / t.size < xs.length := by
    rw [Nat.div_lt_iff_lt_mul t.size_pos]
    change ¬ nvAlign (xs.length * t.size) < xs.length * t.size
    exact not_lt.mpr (nvAlign_spec _).1
  rw [nvsXdrEncodeValue, xdr, if_neg hfits]
  by_cases h0 : xs.length = 0
  · simp only [if_pos h0, Out.put_nil]
  · by_cases ht : t = .byte
    · simp only [if_neg h0, if_pos ht]
    · simp only [if_neg h0, if_neg ht]

/-- The bytes of a packed pair. -/
def xdrPair (h : Host) (name : CStr) (v : NvValue) : Bytes :=
  beBytes 4 (nvsXdrHdrSize name + v.packed) ++ beBytes 4 (nvpSize name v)
    ++ xdrHead name v ++ v.xdr h

/-- Encoding a pair writes its packed form, when encoding its value does. -/
theorem writes_xdrPair {h : Host} {name : CStr} {v : NvValue}
    (hvalue : Writes (nvsXdrEncodeValue h (nvAlign v.size) v) (v.xdr h))
    (hnvp : nvpSize name v ≤ int32Max) (hsize : nvsXdrHdrSize name + v.packed ≤ int32Max) :
    Writes (nvsXdrEncodePair h name v) (xdrPair h name v) := by
  have hsizes := (writes_put (beBytes 4 (nvsXdrHdrSize name + v.packed))).bind
    (writes_put (beBytes 4 (nvpSize name v)))
  apply ((hsizes.bind (writes_xdrHead hnvp)).bind hvalue).of_eq
  intro o
  rw [nvsXdrEncodePair, nvsXdrNvpSize_eq, fitsInt32_of_le hsize]
  simp only [bind_eq_bind, bind_some, bind_assoc, nvpSize_sub_valoff]

mutual

/-- Encoding a list writes its packed form. -/
theorem Nvlist.writes_xdr (l : Nvlist) (hl : l.Valid) (hsize : l.packed ≤ int32Max) :
    Writes (nvsXdrEncode h l) (l.xdr h) := by
  rcases l with ⟨flag, ps⟩
  rw [Nvlist.packed] at hsize
  have hps := Nvpairs.writes_xdr ps hl.2 (by omega)
  have hhead := (writes_put (beBytes 4 nvVersion)).bind (writes_put (beBytes 4 flag.toNat))
  apply (hhead.bind hps).of_eq
  intro o
  rw [nvsXdrEncode]
  simp only [bind_eq_bind, bind_assoc]

theorem Nvpairs.writes_xdr (ps : Nvpairs) (hps : ps.Valid) (hsize : ps.packed ≤ int32Max) :
    Writes (nvsXdrEncodePairs h ps) (ps.xdr h) := by
  rcases ps with _ | ⟨name, v, ps⟩
  · exact (writes_put (beBytes 4 0)).bind (writes_put (beBytes 4 0))
  rw [Nvpairs.packed] at hsize
  obtain ⟨-, hnvp, -, hv, hps⟩ := hps
  have hpair := writes_xdrPair (NvValue.writes_xdr v hv (by omega)) hnvp (by omega)
  apply (hpair.bind (Nvpairs.writes_xdr ps hps (by omega))).of_eq
  intro o
  exact nvsXdrEncodePairs_cons h name v ps o

theorem NvValue.writes_xdr (v : NvValue) (hv : v.Valid) (hsize : v.packed ≤ int32Max) :
    Writes (nvsXdrEncodeValue h (nvAlign v.size) v) (v.xdr h) := by
  rcases v with _ | ⟨t, x⟩ | s | x | l | ⟨t, xs⟩ | ss | ls
  · exact writes_nil
  · exact writes_put _
  · intro o
    have hfits : ¬ nvAlign (string s).size - 1 < s.length := by
      have := nvAlign_spec (string s).size
      have hs := size_string s
      omega
    exact if_neg hfits
  · exact writes_put _
  · exact Nvlist.writes_xdr l hv hsize
  · exact writes_numArray h t xs
  · exact writes_strings (nvAlign_spec _).1
  · exact Nvlists.writes_xdr ls hv hsize

theorem Nvlists.writes_xdr (ls : Nvlists) (hls : ls.Valid) (hsize : ls.packed ≤ int32Max) :
    Writes (nvsXdrEncodeArray h ls) (ls.xdr h) := by
  rcases ls with _ | ⟨l, ls⟩
  · exact writes_nil
  · rw [Nvlists.packed] at hsize
    exact (Nvlist.writes_xdr l hls.1 (by omega)).bind (Nvlists.writes_xdr ls hls.2 (by omega))

end

/-! ## Reported and written sizes -/

/-- What holds of a pair that is somewhere in a list with `n` packed bytes. -/
structure PairIn (n : ℕ) (pairs : List (CStr × NvValue)) (p : CStr × NvValue) : Prop where
  nvpSize_le : nvpSize p.1 p.2 ≤ int32Max
  valid : p.2.Valid
  packed_le : nvsXdrHdrSize p.1 + p.2.packed ≤ n
  subset : p.2.allPairs ⊆ pairs

theorem PairIn.mono {n : ℕ} {pairs pairs' : List (CStr × NvValue)} (hp : PairIn n pairs p)
    (hn : n ≤ m) (hsub : pairs ⊆ pairs') : PairIn m pairs' p :=
  ⟨hp.nvpSize_le, hp.valid, hp.packed_le.trans hn, List.Subset.trans hp.subset hsub⟩

mutual

theorem Nvlist.pairIn {l : Nvlist} (hl : l.Valid) (hp : p ∈ l.allPairs) :
    PairIn l.packed l.allPairs p := by
  rcases l with ⟨flag, ps⟩
  rw [Nvlist.allPairs] at hp ⊢
  exact (Nvpairs.pairIn hl.2 hp).mono (by rw [Nvlist.packed]; omega) (List.Subset.refl _)

theorem Nvpairs.pairIn {ps : Nvpairs} (hps : ps.Valid) (hp : p ∈ ps.allPairs) :
    PairIn ps.packed ps.allPairs p := by
  rcases ps with _ | ⟨name, v, ps⟩
  · cases hp
  obtain ⟨-, hnvp, -, hv, hps⟩ := hps
  rw [Nvpairs.allPairs, Nvpairs.packed]
  rw [Nvpairs.allPairs, cons_append, mem_cons, mem_append] at hp
  have hleft : v.allPairs ⊆ (name, v) :: v.allPairs ++ ps.allPairs := by
    intro q hq
    simp [hq]
  rcases hp with rfl | hp | hp
  · exact ⟨hnvp, hv, Nat.le_add_right _ _, hleft⟩
  · exact (NvValue.pairIn hv hp).mono (by omega) hleft
  · exact (Nvpairs.pairIn hps hp).mono (by omega) (subset_append_right ..)

theorem NvValue.pairIn {v : NvValue} (hv : v.Valid) (hp : p ∈ v.allPairs) :
    PairIn v.packed v.allPairs p := by
  cases v with
  | nvlist l => exact Nvlist.pairIn (l := l) hv hp
  | nvlistArray ls =>
    have hls : ls.Valid := hv
    exact Nvlists.pairIn hls hp
  | _ => cases hp

theorem Nvlists.pairIn {ls : Nvlists} (hls : ls.Valid) (hp : p ∈ ls.allPairs) :
    PairIn ls.packed ls.allPairs p := by
  rcases ls with _ | ⟨l, ls⟩
  · cases hp
  rw [Nvlists.allPairs, Nvlists.packed]
  rw [Nvlists.allPairs, mem_append] at hp
  rcases hp with hp | hp
  · exact (Nvlist.pairIn hls.1 hp).mono (by omega) (subset_append_left ..)
  · exact (Nvlists.pairIn hls.2 hp).mono (by omega) (subset_append_right ..)

end

theorem take_four_xdrPair (name : CStr) (v : NvValue) :
    (xdrPair h name v).take 4 = beBytes 4 (nvsXdrHdrSize name + v.packed) := by
  rw [xdrPair, append_assoc, append_assoc]
  exact take_left' (length_beBytes 4 _)

/-- The size in front of a packed pair. -/
theorem beVal_take_xdrPair {name : CStr} {v : NvValue}
    (hsize : nvsXdrHdrSize name + v.packed ≤ int32Max) :
    beVal ((xdrPair h name v).take 4) = (xdrPair h name v).length
      + 4 * ((name, v) :: v.allPairs).countP isEmptyNumArray := by
  have hlt : nvsXdrHdrSize name + v.packed < 256 ^ 4 := hsize.trans_lt (by decide)
  have hlen := length_xdr h name v
  rw [take_four_xdrPair, beVal_beBytes_of_lt hlt]
  simp only [xdrPair, length_append, length_beBytes, length_xdrHead, nvsXdrHdrSize, nvAlign4]
  omega

/-- The size `nvlist_size` reports is the number of bytes packing writes, and the size in front of
each packed pair is the number of bytes the pair takes, just when no array of numbers at any level
is without elements; arrays of bytes do not matter. -/
theorem nvlistSize_xdr_eq_iff (h : Host) (ptrs : ℕ → ℕ → BitVec 8) (l : Nvlist)
    (hl : l.Valid) {n : ℕ} (hsize : nvlistSize l .xdr = some n) :
    ∃ o, nvlistEncode h ptrs l .xdr n = some o
      ∧ (n = sizeofNvsHeader + o.bytes.length ↔ ∀ p ∈ l.allPairs, ¬ isEmptyNumArray p)
      ∧ ((∀ p ∈ l.allPairs, ∀ bs, Writes (nvsXdrEncodePair h p.1 p.2) bs →
        beVal (bs.take 4) = bs.length)
        ↔ ∀ p ∈ l.allPairs, ¬ isEmptyNumArray p) := by
  rw [nvlistSize_xdr, fitsInt32_eq_some] at hsize
  obtain ⟨rfl, hle⟩ := hsize
  have hlen := l.length_xdr h
  have hcount : l.allPairs.countP isEmptyNumArray = 0 ↔ ∀ p ∈ l.allPairs, ¬ isEmptyNumArray p :=
    countP_eq_zero
  have hpair : ∀ p ∈ l.allPairs, Writes (nvsXdrEncodePair h p.1 p.2) (xdrPair h p.1 p.2)
      ∧ beVal ((xdrPair h p.1 p.2).take 4) = (xdrPair h p.1 p.2).length
        + 4 * (p :: p.2.allPairs).countP isEmptyNumArray := by
    intro p hp
    have hin := l.pairIn hl hp
    have hfits : nvsXdrHdrSize p.1 + p.2.packed ≤ int32Max := hin.packed_le.trans (by omega)
    have hvalue := p.2.writes_xdr h hin.valid (by omega)
    exact ⟨writes_xdrPair hvalue hin.nvpSize_le hfits, beVal_take_xdrPair h hfits⟩
  have hwrite : nvlistEncode h ptrs l .xdr (sizeofNvsHeader + l.packed)
      = some ⟨l.xdr h, l.packed - (l.xdr h).length⟩ := by
    have hfits : (l.xdr h).length ≤ l.packed := by omega
    rw [nvlistEncode, l.writes_xdr h hl (by omega)]
    simp [Out.put, hfits]
  refine ⟨_, hwrite, ?_, ?_⟩
  · rw [← hcount]
    change sizeofNvsHeader + l.packed = sizeofNvsHeader + (l.xdr h).length ↔ _
    omega
  · constructor
    · intro hall p hp hempty
      have hstored := hall p hp _ (hpair p hp).1
      rw [(hpair p hp).2, countP_cons_of_pos hempty] at hstored
      omega
    · intro hnone p hp bs hbs
      rw [Writes.unique hbs (hpair p hp).1, (hpair p hp).2]
      have hzero : (p :: p.2.allPairs).countP isEmptyNumArray = 0 := by
        rw [countP_eq_zero]
        exact forall_mem_cons.mpr ⟨hnone p hp, fun q hq => hnone q ((l.pairIn hl hp).subset hq)⟩
      rw [hzero]
      rfl

/-- One pair with the empty name and an array of no numbers. -/
def emptyArrayList : Nvlist := .mk 0 (.cons CStr.empty (.numArray .uint32 []) .nil)

/-- Four of the bytes reported are not written. -/
theorem nvlistSize_emptyArray :
    nvlistSize emptyArrayList .xdr = some 44
      ∧ (nvlistEncode ⟨false, true⟩ (fun _ _ => 0) emptyArrayList .xdr 44).map
        (fun o => sizeofNvsHeader + o.bytes.length) = some 40 := by
  constructor
  · rfl
  · decide

/-- The name `a` -/
def nameA : CStr := ⟨[97], by decide⟩

/-- One pair with a string. -/
def stringList : Nvlist := .mk 1 (.cons nameA (.string ⟨[98, 99], by decide⟩) .nil)

theorem nvlistSize_xdr_eq_iff_string :
    ∃ o, nvlistEncode ⟨true, true⟩ (fun _ _ => 0) stringList .xdr 52 = some o
      ∧ (52 = sizeofNvsHeader + o.bytes.length ↔ ∀ p ∈ stringList.allPairs, ¬ isEmptyNumArray p)
      ∧ ((∀ p ∈ stringList.allPairs, ∀ bs, Writes (nvsXdrEncodePair ⟨true, true⟩ p.1 p.2) bs →
          beVal (bs.take 4) = bs.length) ↔ ∀ p ∈ stringList.allPairs, ¬ isEmptyNumArray p) :=
  nvlistSize_xdr_eq_iff ⟨true, true⟩ (fun _ _ => 0) stringList
    ⟨by decide, Or.inl (by decide), by decide, rfl, trivial, trivial⟩ rfl

end Polaris
