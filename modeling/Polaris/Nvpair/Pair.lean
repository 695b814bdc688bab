import Polaris.Nvpair.List
import Polaris.Nvpair.NativeRoundTrip

/-!
# A pair in memory

What `nvlist_add_common` writes into the buffer of a new pair is found there again: the name behind
the header, the value at `NVP_VALUE`, the strings of an array through their pointers.  The name has
to be shorter than 32767 bytes, for `nvp_name_sz` to hold its size.

## Main results

* `nvpFill_spec` — the pair built for a name and a value holds them.
-/

namespace Polaris

open Xdr List Option

/-- The lists of an array. -/
def Nvlists.toList : Nvlists → List Nvlist
  | .nil => []
  | .cons l ls => l :: ls.toList

/-- The lists embedded in a value. -/
def NvValue.lists : NvValue → List Nvlist
  | .nvlist l => [l]
  | .nvlistArray ls => ls.toList
  | .boolean | .num .. | .string _ | .hrtime _ | .numArray .. | .stringArray _ => []

/-- The types whose value is copied byte for byte. -/
def DataType.isRaw : DataType → Bool
  | .num _ | .string | .hrtime | .numArray _ => true
  | .boolean | .nvlist | .stringArray | .nvlistArray => false

/-- A pointer to data with the value `v`; `RepE` says what list an embedded list stands for. -/
structure NvData.Holds {E : Type} (h : Host) (RepE : E → Nvlist → Prop) (d : NvData E)
    (v : NvValue) : Prop where
  type_eq : d.type = v.type
  nelem_eq : d.nelem = v.nelem
  raw : v.type.isRaw → valueImage h noPtr v <+: d.raw
  strs : v.type = .stringArray → d.strs = v.strings
  lists : Forall₂ RepE d.lists v.lists

/-- A pair in memory with this name and value. -/
structure Nvp.Holds {E : Type} (h : Host) (RepE : E → Nvlist → Prop) (p : Nvp E) (name : CStr)
    (v : NvValue) :
    Prop where
  short : name.length < 32767
  name_eq : p.name = name
  type_eq : p.nvpType = v.type
  data : ∃ d, p.data = some d ∧ d.Holds h RepE v

section

variable {E : Type} {h : Host} {RepE : E → Nvlist → Prop} {d : NvData E} {v : NvValue} {name : CStr}

theorem NvData.Holds.strings_eq (hd : d.Holds h RepE v) : d.strings = v.strings := by
  have htype := hd.type_eq
  have hraw := hd.raw
  have hstrs := hd.strs
  rw [NvData.strings, htype]
  cases v with
  | string s =>
    obtain ⟨rest, hrest⟩ := hraw rfl
    have hstr : cstr d.raw = s := by
      rw [← hrest, valueImage, append_assoc]
      exact cstr_append s rest
    simp only [NvValue.type, hstr, NvValue.strings]
  | stringArray ss => exact hstrs rfl
  | boolean => rfl
  | num t x => rfl
  | hrtime x => rfl
  | nvlist l => rfl
  | numArray t xs => rfl
  | nvlistArray ls => rfl

/-- The size computed from the data is that of the value. -/
theorem NvData.Holds.size_eq (hd : d.Holds h RepE v) {n : ℕ}
    (hn : iGetValueSize d.type d.strings d.nelem = some n) : n = v.size := by
  rw [hd.type_eq, hd.strings_eq, hd.nelem_eq, iGetValueSize] at hn
  split at hn
  · cases hn
  · split at hn
    · cases hn
    · exact (some.inj hn).symm

theorem nvpValueOff_eq (hname : name.length < 32767) :
    nvpValueOff (BitVec.ofNat 16 (name.length + 1)) = (nvpValoff name : ℤ) := by
  have hint : (BitVec.ofNat 16 (name.length + 1)).toInt = ((name.length + 1 : ℕ) : ℤ) := by
    rw [BitVec.toInt_eq_toNat_of_lt]
    · rw [BitVec.toNat_ofNat, Nat.mod_eq_of_lt (by omega)]
    · rw [BitVec.toNat_ofNat, Nat.mod_eq_of_lt (by omega)]
      omega
  rw [nvpValueOff, hint, nvpValoff, nvAlign, sizeofNvpair]
  push_cast
  rfl

theorem nvpBcopy_middle (x y z src : Bytes) (hlen : y.length = src.length) {off : ℤ}
    (hoff : off = x.length) :
    nvpBcopy (x ++ (y ++ z)) off src = some (x ++ (src ++ z)) := by
  subst hoff
  rw [nvpBcopy]
  by_cases hsrc : src = []
  · subst hsrc
    rw [length_nil, length_eq_zero_iff] at hlen
    rw [if_pos rfl, hlen]
  have hok : ¬ ((x.length : ℤ) < 0 ∨
      (x ++ (y ++ z)).length < (x.length : ℤ).toNat + src.length) := by
    simp only [length_append, Int.toNat_natCast]
    omega
  have hdrop : (x ++ (y ++ z)).drop (x.length + src.length) = z := by
    rw [← append_assoc, ← hlen, ← length_append, drop_left]
  rw [if_neg hsrc, if_neg hok, Int.toNat_natCast, take_left, hdrop, append_assoc]

/-- The strings of an array are written one after the other and found through their pointers. -/
theorem copyStrings_spec (ss : List CStr) (pre : Bytes) {m : ℕ}
    (hm : (ss.flatMap fun s => s.bytes ++ [0]).length ≤ m) {off : ℤ} (hoff : off = pre.length) :
    ∃ rest strp, copyStrings ss off (pre ++ replicate m 0) = some (pre ++ rest, strp)
      ∧ rest.length = m ∧ strp.map (fun off => cstr ((pre ++ rest).drop off)) = ss := by
  induction ss generalizing pre m off with
  | nil => exact ⟨replicate m 0, [], rfl, by simp, rfl⟩
  | cons s ss ih =>
    rw [flatMap_cons, length_append] at hm
    have hsplit : replicate m (0 : BitVec 8) = replicate (s.bytes ++ [0]).length 0
        ++ replicate (m - (s.bytes ++ [0]).length) 0 := by
      rw [replicate_append_replicate, Nat.add_sub_cancel' (by omega)]
    have hcopy : nvpBcopy (pre ++ replicate m 0) off (s.bytes ++ [0])
        = some ((pre ++ (s.bytes ++ [0])) ++ replicate (m - (s.bytes ++ [0]).length) 0) := by
      rw [hsplit, nvpBcopy_middle pre _ _ _ (by simp) hoff, append_assoc pre]
    have hnext : off + (s.length + 1) = ((pre ++ (s.bytes ++ [0])).length : ℤ) := by
      rw [hoff]
      simp [CStr.length]
    obtain ⟨rest, strp, hrest, hlen, hread⟩ :=
      ih (pre ++ (s.bytes ++ [0])) (m := m - (s.bytes ++ [0]).length) (by omega) hnext
    refine ⟨s.bytes ++ [0] ++ rest, off.toNat :: strp, ?_, ?_, ?_⟩
    · rw [copyStrings, hcopy]
      simp only [bind_eq_bind, bind_some, hrest]
      rw [append_assoc pre]
    · rw [length_append, hlen]
      omega
    · rw [map_cons, hoff, Int.toNat_natCast, drop_left, append_assoc, cons_append,
        nil_append, cstr_append]
      rw [append_assoc] at hread
      simp only [append_assoc, cons_append, nil_append] at hread
      rw [hread]

/-- The part of a new pair in front of its value. -/
def newFront (name : CStr) : Bytes :=
  replicate sizeofNvpair 0
    ++ (name.bytes ++ 0 :: replicate (nvpValoff name - (sizeofNvpair + (name.length + 1))) 0)

theorem length_newFront (name : CStr) : (newFront name).length = nvpValoff name := by
  have : sizeofNvpair + (name.length + 1) ≤ nvpValoff name := (nvAlign_spec _).1
  have hlen : name.length = name.bytes.length := rfl
  simp only [newFront, length_append, length_cons, length_replicate]
  omega

/-- The buffer of a new pair once the name has been copied. -/
theorem nvpBcopy_name (name : CStr) (valueSz : ℕ) :
    nvpBcopy (replicate (nvpSizeCalc (name.length + 1) valueSz) 0) sizeofNvpair (name.bytes ++ [0])
      = some (newFront name ++ replicate (nvAlign valueSz) 0) := by
  have hle : sizeofNvpair + (name.length + 1) ≤ nvpValoff name := (nvAlign_spec _).1
  have hsplit : replicate (nvpSizeCalc (name.length + 1) valueSz) (0 : BitVec 8)
      = replicate sizeofNvpair 0 ++ (replicate (name.bytes ++ [0]).length 0
        ++ (replicate (nvpValoff name - (sizeofNvpair + (name.length + 1))) 0
          ++ replicate (nvAlign valueSz) 0)) := by
    have hlen : (name.bytes ++ [(0 : BitVec 8)]).length = name.length + 1 := by simp [CStr.length]
    rw [hlen, replicate_append_replicate, replicate_append_replicate, replicate_append_replicate]
    congr 1
    rw [nvpSizeCalc]
    change nvpValoff name + nvAlign valueSz = _
    omega
  rw [hsplit, nvpBcopy_middle _ _ _ _ (by simp) (by simp)]
  simp only [newFront, append_assoc, cons_append, nil_append]

/-- A name in the buffer is found again. -/
theorem cstr_drop_newFront (name : CStr) (rest : Bytes) :
    cstr ((newFront name ++ rest).drop sizeofNvpair) = name := by
  rw [newFront, append_assoc, drop_left' (length_replicate ..), append_assoc,
    cons_append, cstr_append]

/-- A pair with the name in front of a value. -/
theorem Nvp.holds_of_front {p : Nvp E} {rest : Bytes} {lists : List E} (hname : name.length < 32767)
    (hsz : p.nvpNameSz = BitVec.ofNat 16 (name.length + 1)) (hnelem : p.nvpValueElem = v.nelem)
    (htype : p.nvpType = v.type) (hbuf : p.buf = newFront name ++ rest)
    (hraw : v.type.isRaw → valueImage h noPtr v <+: rest)
    (hstrs : v.type = .stringArray → p.strp.map (fun off => cstr (p.buf.drop off)) = v.strings)
    (hlists : p.lists = lists) (hrep : Forall₂ RepE lists v.lists) : p.Holds h RepE name v := by
  refine ⟨hname, ?_, htype, ?_⟩
  · rw [Nvp.name, hbuf, cstr_drop_newFront]
  · have hoff : nvpValueOff p.nvpNameSz = (nvpValoff name : ℤ) := by rw [hsz, nvpValueOff_eq hname]
    have hneg : ¬ ((nvpValoff name : ℤ) < 0) := by omega
    have hdrop : p.buf.drop (nvpValoff name) = rest := by
      rw [hbuf, drop_left' (length_newFront name)]
    refine ⟨_, by rw [Nvp.data, hoff, if_neg hneg], htype, hnelem, ?_, hstrs, ?_⟩
    · intro h'
      rw [Int.toNat_natCast, hdrop]
      exact hraw h'
    · exact hlists ▸ hrep

/-- The data is copied to the value: byte for byte, or string by string. -/
theorem nvpFillValue_spec (hd : d.Holds h RepE v) (hname : name.length < 32767) :
    ∃ rest strp, nvpFillValue d v.size (nvpValueOff (BitVec.ofNat 16 (name.length + 1)))
        (newFront name ++ replicate (nvAlign v.size) 0) = some (newFront name ++ rest, strp)
      ∧ (v.type.isRaw → valueImage h noPtr v <+: rest)
      ∧ (v.type = .stringArray → strp.map (fun off => cstr ((newFront name ++ rest).drop off))
        = v.strings) := by
  have hle := (nvAlign_spec v.size).1
  rw [nvpFillValue, hd.type_eq, nvpValueOff_eq hname]
  by_cases hraw : v.type.isRaw
  · obtain ⟨more, hmore⟩ := hd.raw hraw
    have htake : d.raw.take v.size = valueImage h noPtr v := by
      rw [← hmore, take_left' (length_valueImage ..)]
    have hsplit : replicate (nvAlign v.size) (0 : BitVec 8)
        = replicate (valueImage h noPtr v).length 0 ++ replicate (nvAlign v.size - v.size) 0 := by
      rw [length_valueImage, replicate_append_replicate, Nat.add_sub_cancel' hle]
    have hcopy : nvpBcopy (newFront name ++ replicate (nvAlign v.size) 0) (nvpValoff name)
        (d.raw.take v.size)
          = some (newFront name ++
            (valueImage h noPtr v ++ replicate (nvAlign v.size - v.size) 0)) := by
      rw [htake, hsplit]
      exact nvpBcopy_middle _ _ _ _ (by simp) (by rw [length_newFront])
    refine ⟨valueImage h noPtr v ++ replicate (nvAlign v.size - v.size) 0, [], ?_,
      fun _ => ⟨_, rfl⟩, ?_⟩
    · rw [hcopy]
      cases hv : v.type <;> first | rfl | (rw [hv] at hraw; cases hraw)
    · intro heq
      rw [heq] at hraw
      cases hraw
  · by_cases hstr : v.type = .stringArray
    · obtain ⟨ss, rfl⟩ : ∃ ss, v = .stringArray ss := by
        cases v <;> first | exact ⟨_, rfl⟩ | cases hstr
      have hsize : (NvValue.stringArray ss).size
        = ss.length * 8 + (ss.map fun s => s.length + 1).sum := rfl
      have hsplit : newFront name ++ replicate (nvAlign (NvValue.stringArray ss).size) 0
          = (newFront name ++ replicate (ss.length * 8) 0)
            ++ replicate (nvAlign (NvValue.stringArray ss).size - ss.length * 8) 0 := by
        rw [append_assoc, replicate_append_replicate, Nat.add_sub_cancel' (by omega)]
      have hoff : (nvpValoff name : ℤ) + d.nelem * 8
          = ((newFront name ++ replicate (ss.length * 8) 0).length : ℤ) := by
        rw [length_append, length_newFront, length_replicate, hd.nelem_eq]
        push_cast
        rfl
      have hfits : (ss.flatMap fun s => s.bytes ++ [0]).length
          ≤ nvAlign (NvValue.stringArray ss).size - ss.length * 8 := by
        rw [length_flatMap_cstr]
        omega
      obtain ⟨rest, strp, hcopy, -, hread⟩ := copyStrings_spec ss _ hfits hoff
      refine ⟨replicate (ss.length * 8) 0 ++ rest, strp, ?_, nofun, fun _ => ?_⟩
      · rw [hd.strs rfl, hsplit]
        simp only [NvValue.strings, NvValue.type, hcopy]
        rw [append_assoc]
      · rw [← append_assoc]
        exact hread
    · refine ⟨replicate (nvAlign v.size) 0, [], ?_, fun h' => absurd h' hraw,
        fun heq => absurd heq hstr⟩
      cases hv : v.type <;> first | rfl | exact absurd hv hstr | exact absurd (by rw [hv]; rfl) hraw

/-- The pair built for a name and data with a value holds both. -/
theorem nvpFill_spec (hd : d.Holds h RepE v) (hname : name.length < 32767) {lists : List E}
    (hrep : Forall₂ RepE lists v.lists) :
    ∃ p, nvpFill name d v.size lists = some p ∧ p.Holds h RepE name v := by
  obtain ⟨rest, strp, hfill, hraw, hstrs⟩ := nvpFillValue_spec hd hname
  have hp : nvpFill name d v.size lists = some ⟨BitVec.ofNat 16 (name.length + 1), d.nelem, d.type,
      newFront name ++ rest, strp, lists⟩ := by
    rw [nvpFill, nvpBcopy_name]
    simp only [bind_eq_bind, bind_some, hfill]
  exact ⟨_, hp, Nvp.holds_of_front hname rfl hd.nelem_eq hd.type_eq rfl hraw hstrs rfl hrep⟩

end

end Polaris
