import Polaris.Lib.Xdr

/-!
# Name-value lists

An nvlist is a sequence of pairs of a name and a typed value; a value can be an nvlist again, or an
array of them.  A pair is kept in one allocation: the header `nvpair_t`, the name with its zero
byte, and, from the next multiple of eight on, the value.  Where the value is a string array,
pointers to the strings stand before them; where it is an nvlist, the structure `nvlist_t` does, and
the pairs are elsewhere.

This file has the values and the sizes and checks of `nvpair.c` that packing and the list operations
share.  The ten types that are a number, and their ten array types, are one constructor each with
the number type as a parameter.

## Main definitions

* `NvNum`, `DataType`, `Nvlist`, `Nvpairs`, `NvValue`, `Nvlists`
* `iGetValueSize`, `nvpSizeCalc`, `nvpSize`
* `Nvlist.Valid`, `Nvlist.allPairs`, `ShortNames`
-/

namespace Polaris

open Xdr

/-- What the format depends on of the machine. -/
structure Host where
  littleEndian : Bool
  charSigned : Bool

/-- `INT32_MAX` -/
def int32Max : ℕ := 2 ^ 31 - 1

/-- `NV_ALIGN` -/
def nvAlign (x : ℕ) : ℕ := (x + 7) / 8 * 8

/-- `NV_ALIGN4` -/
def nvAlign4 (x : ℕ) : ℕ := align4 x

/-! ## Types -/

/-- The types of which a value is one number. -/
inductive NvNum where
  | booleanValue
  | byte
  | int8
  | uint8
  | int16
  | uint16
  | int32
  | uint32
  | int64
  | uint64
  deriving DecidableEq, Repr

/-- `sizeof` the C type of a number. -/
def NvNum.size : NvNum → ℕ
  | .booleanValue | .int32 | .uint32 => 4
  | .byte | .int8 | .uint8 => 1
  | .int16 | .uint16 => 2
  | .int64 | .uint64 => 8

/-- A number of the type, as its bits. -/
abbrev NvNum.Val (t : NvNum) := BitVec (8 * t.size)

/-- `data_type_t` without `DATA_TYPE_UNKNOWN`. -/
inductive DataType where
  | boolean
  | num (t : NvNum)
  | string
  | hrtime
  | nvlist
  | numArray (t : NvNum)
  | stringArray
  | nvlistArray
  deriving DecidableEq, Repr

/-- The number of a type in `data_type_t`. -/
def DataType.code : DataType → ℕ
  | .boolean => 1
  | .num .byte => 2
  | .num .int16 => 3
  | .num .uint16 => 4
  | .num .int32 => 5
  | .num .uint32 => 6
  | .num .int64 => 7
  | .num .uint64 => 8
  | .string => 9
  | .numArray .byte => 10
  | .numArray .int16 => 11
  | .numArray .uint16 => 12
  | .numArray .int32 => 13
  | .numArray .uint32 => 14
  | .numArray .int64 => 15
  | .numArray .uint64 => 16
  | .stringArray => 17
  | .hrtime => 18
  | .nvlist => 19
  | .nvlistArray => 20
  | .num .booleanValue => 21
  | .num .int8 => 22
  | .num .uint8 => 23
  | .numArray .booleanValue => 24
  | .numArray .int8 => 25
  | .numArray .uint8 => 26

/-- The type with a number in `data_type_t`; a switch on any other number takes its default. -/
def DataType.ofCode : ℕ → Option DataType
  | 1 => some .boolean
  | 2 => some (.num .byte)
  | 3 => some (.num .int16)
  | 4 => some (.num .uint16)
  | 5 => some (.num .int32)
  | 6 => some (.num .uint32)
  | 7 => some (.num .int64)
  | 8 => some (.num .uint64)
  | 9 => some .string
  | 10 => some (.numArray .byte)
  | 11 => some (.numArray .int16)
  | 12 => some (.numArray .uint16)
  | 13 => some (.numArray .int32)
  | 14 => some (.numArray .uint32)
  | 15 => some (.numArray .int64)
  | 16 => some (.numArray .uint64)
  | 17 => some .stringArray
  | 18 => some .hrtime
  | 19 => some .nvlist
  | 20 => some .nvlistArray
  | 21 => some (.num .booleanValue)
  | 22 => some (.num .int8)
  | 23 => some (.num .uint8)
  | 24 => some (.numArray .booleanValue)
  | 25 => some (.numArray .int8)
  | 26 => some (.numArray .uint8)
  | _ => none

/-! ## Lists -/

mutual

/-- `nvlist_t`: the flags and the pairs.  Its `nvl_version` is `NV_VERSION`. -/
inductive Nvlist where
  | mk (nvflag : BitVec 32) (pairs : Nvpairs)

/-- The pairs of a list in order. -/
inductive Nvpairs where
  | nil
  | cons (name : CStr) (value : NvValue) (rest : Nvpairs)

/-- The value of a pair, with its type. -/
inductive NvValue where
  | boolean
  | num (t : NvNum) (x : t.Val)
  | string (s : CStr)
  | hrtime (x : BitVec 64)
  | nvlist (l : Nvlist)
  | numArray (t : NvNum) (xs : List t.Val)
  | stringArray (ss : List CStr)
  | nvlistArray (ls : Nvlists)

/-- The elements of an array of lists. -/
inductive Nvlists where
  | nil
  | cons (l : Nvlist) (rest : Nvlists)

end

/-- `nvl_nvflag` -/
def Nvlist.nvflag : Nvlist → BitVec 32
  | .mk flag _ => flag

/-- The pairs of a list. -/
def Nvlist.pairs : Nvlist → Nvpairs
  | .mk _ ps => ps

/-- The number of lists in an array. -/
def Nvlists.length : Nvlists → ℕ
  | .nil => 0
  | .cons _ ls => ls.length + 1

/-- `NVP_TYPE` -/
def NvValue.type : NvValue → DataType
  | .boolean => .boolean
  | .num t _ => .num t
  | .string _ => .string
  | .hrtime _ => .hrtime
  | .nvlist _ => .nvlist
  | .numArray t _ => .numArray t
  | .stringArray _ => .stringArray
  | .nvlistArray _ => .nvlistArray

/-- `NVP_NELEM` -/
def NvValue.nelem : NvValue → ℕ
  | .boolean => 0
  | .num .. | .string _ | .hrtime _ | .nvlist _ => 1
  | .numArray _ xs => xs.length
  | .stringArray ss => ss.length
  | .nvlistArray ls => ls.length

/-- The strings a value holds. -/
def NvValue.strings : NvValue → List CStr
  | .string s => [s]
  | .stringArray ss => ss
  | _ => []

/-! ## Sizes and checks -/

/-- `i_validate_type_nelem` -/
def iValidateTypeNelem (type : DataType) (nelem : ℕ) : Bool :=
  match type with
  | .boolean => nelem == 0
  | .num _ | .string | .hrtime | .nvlist => nelem == 1
  | .numArray _ | .stringArray | .nvlistArray => true

/-- `sizeof (nvlist_t)` -/
def sizeofNvlist : ℕ := 24

/-- The value size that `i_get_value_size` computes; `strs` are the strings at `data`, which are not
there when `data` is `NULL`. -/
def valueSz (type : DataType) (strs : List CStr) (nelem : ℕ) : ℕ :=
  match type with
  | .boolean => 0
  | .num t => t.size
  | .string => (strs.map fun s => s.length + 1).sum
  | .hrtime => 8
  | .nvlist => nvAlign sizeofNvlist
  | .numArray t => nelem * t.size
  | .stringArray => nelem * 8 + (strs.map fun s => s.length + 1).sum
  | .nvlistArray => nelem * 8 + nelem * nvAlign sizeofNvlist

/-- `i_get_value_size`; `none` is its `-1`. -/
def iGetValueSize (type : DataType) (strs : List CStr) (nelem : ℕ) : Option ℕ :=
  if !iValidateTypeNelem type nelem then none
  else if int32Max < valueSz type strs nelem then none
  else some (valueSz type strs nelem)

/-- `i_validate_nvpair_value`: booleans are `B_TRUE` or `B_FALSE`. -/
def iValidateNvpairValue : NvValue → Bool
  | .num .booleanValue x => x.toNat < 2
  | .numArray .booleanValue xs => xs.all fun x => x.toNat < 2
  | _ => true

/-- `sizeof (nvpair_t)` -/
def sizeofNvpair : ℕ := 16

/-- `NVP_SIZE_CALC` -/
def nvpSizeCalc (nameLen dataLen : ℕ) : ℕ := nvAlign (sizeofNvpair + nameLen) + nvAlign dataLen

/-- `NVP_VALOFF` of a pair with this name. -/
def nvpValoff (name : CStr) : ℕ := nvAlign (sizeofNvpair + (name.length + 1))

/-- The size of a value with its strings. -/
def NvValue.size (v : NvValue) : ℕ := valueSz v.type v.strings v.nelem

/-- `NVP_SIZE` of a pair. -/
def nvpSize (name : CStr) (v : NvValue) : ℕ := nvpSizeCalc (name.length + 1) v.size

/-- `i_validate_nvpair` for a pair of `nvsize` bytes whose name is terminated. -/
def iValidateNvpair (nvsize : ℕ) (name : CStr) (v : NvValue) : Bool :=
  decide (name.length + 1 < 2 ^ 15)
    && decide (nvpSizeCalc (name.length + 1) 0 ≤ nvsize)
    && iValidateNvpairValue v
    && match iGetValueSize v.type v.strings v.nelem with
      | none => false
      | some size2 => nvsize - nvpValoff name == nvAlign size2

mutual

/-- A list as the library builds it: only the two persistent flags are set, booleans are zero or
one, and a pair fits its own size field.  The size of a name that is not shorter than 32767 bytes
does not fit `nvp_name_sz`; the value, should there be one, is then not where `NVP_VALUE` says. -/
def Nvlist.Valid : Nvlist → Prop
  | .mk flag ps => flag.toNat < 4 ∧ ps.Valid

def Nvpairs.Valid : Nvpairs → Prop
  | .nil => True
  | .cons name v ps =>
    (name.length < 32767 ∨ v.nelem = 0) ∧ nvpSize name v ≤ int32Max ∧ iValidateNvpairValue v
      ∧ v.Valid ∧ ps.Valid

def NvValue.Valid : NvValue → Prop
  | .nvlist l => l.Valid
  | .nvlistArray ls => ls.Valid
  | .boolean | .num .. | .string _ | .hrtime _ | .numArray .. | .stringArray _ => True

def Nvlists.Valid : Nvlists → Prop
  | .nil => True
  | .cons l ls => l.Valid ∧ ls.Valid

end

mutual

/-- The pairs of a list and of all lists embedded in it. -/
def Nvlist.allPairs : Nvlist → List (CStr × NvValue)
  | .mk _ ps => ps.allPairs

def Nvpairs.allPairs : Nvpairs → List (CStr × NvValue)
  | .nil => []
  | .cons name v ps => (name, v) :: v.allPairs ++ ps.allPairs

def NvValue.allPairs : NvValue → List (CStr × NvValue)
  | .nvlist l => l.allPairs
  | .nvlistArray ls => ls.allPairs
  | .boolean | .num .. | .string _ | .hrtime _ | .numArray .. | .stringArray _ => []

def Nvlists.allPairs : Nvlists → List (CStr × NvValue)
  | .nil => []
  | .cons l ls => l.allPairs ++ ls.allPairs

end

/-- All names are shorter than 32767 bytes. -/
def ShortNames (ps : List (CStr × NvValue)) : Prop := ∀ p ∈ ps, p.1.length < 32767

/-! ## Lemmas -/

theorem NvNum.size_pos (t : NvNum) : 0 < t.size := by
  cases t <;> decide

@[simp] theorem DataType.ofCode_code (t : DataType) : DataType.ofCode t.code = some t := by
  rcases t with _ | t | _ | _ | _ | t | _ | _
  all_goals first | rfl | (cases t <;> rfl)

theorem DataType.code_lt (t : DataType) : t.code < 27 := by
  rcases t with _ | t | _ | _ | _ | t | _ | _
  all_goals first | decide | (cases t <;> decide)

theorem nvAlign_spec (n : ℕ) : n ≤ nvAlign n ∧ nvAlign n < n + 8 ∧ nvAlign n % 8 = 0 := by
  rw [nvAlign]
  omega

@[simp] theorem iValidateTypeNelem_value (v : NvValue) :
    iValidateTypeNelem v.type v.nelem = true := by
  cases v <;> rfl

theorem nvpSize_eq (name : CStr) (v : NvValue) :
    nvpSize name v = nvpValoff name + nvAlign v.size := rfl

/-- There is a value exactly when there are elements. -/
theorem NvValue.size_eq_zero {v : NvValue} : v.size = 0 ↔ v.nelem = 0 := by
  cases v with
  | boolean => simp [NvValue.size, valueSz, NvValue.type, NvValue.nelem]
  | num t x =>
    have := t.size_pos
    simp [NvValue.size, valueSz, NvValue.type, NvValue.nelem]
    omega
  | string s => simp [NvValue.size, valueSz, NvValue.type, NvValue.strings, NvValue.nelem]
  | hrtime x => simp [NvValue.size, valueSz, NvValue.type, NvValue.nelem]
  | nvlist l => simp [NvValue.size, valueSz, NvValue.type, NvValue.nelem, nvAlign, sizeofNvlist]
  | numArray t xs =>
    have := t.size_pos
    simp [NvValue.size, valueSz, NvValue.type, NvValue.nelem]
    omega
  | stringArray ss =>
    simp only [NvValue.size, valueSz, NvValue.type, NvValue.strings, NvValue.nelem]
    constructor
    · intro h
      omega
    · intro h
      rw [List.length_eq_zero_iff] at h
      simp [h]
  | nvlistArray ls =>
    simp only [NvValue.size, valueSz, NvValue.type, NvValue.nelem, nvAlign, sizeofNvlist]
    omega

/-- No value has fewer bytes than elements. -/
theorem NvValue.nelem_le_size (v : NvValue) : v.nelem ≤ v.size := by
  cases v with
  | numArray t xs => exact Nat.le_mul_of_pos_right _ t.size_pos
  | stringArray ss =>
    simp only [NvValue.size, valueSz, NvValue.type, NvValue.nelem]
    omega
  | nvlistArray ls =>
    simp only [NvValue.size, valueSz, NvValue.type, NvValue.nelem]
    omega
  | boolean => exact Nat.zero_le _
  | num t x => exact t.size_pos
  | string s => simp [NvValue.size, valueSz, NvValue.type, NvValue.strings, NvValue.nelem]
  | hrtime x => exact (by decide : 1 ≤ 8)
  | nvlist l => exact (by decide : 1 ≤ nvAlign sizeofNvlist)

/-- Leaving the strings out only makes a value smaller. -/
theorem valueSz_nil_le (type : DataType) (strs : List CStr) (nelem : ℕ) :
    valueSz type [] nelem ≤ valueSz type strs nelem := by
  cases type <;> simp [valueSz]

section Pair

variable {name : CStr} {v : NvValue}

theorem size_le_of_nvpSize (h : nvpSize name v ≤ int32Max) : v.size ≤ int32Max := by
  have := nvAlign_spec v.size
  rw [nvpSize_eq] at h
  omega

theorem nelem_le_of_nvpSize (h : nvpSize name v ≤ int32Max) : v.nelem ≤ int32Max :=
  v.nelem_le_size.trans (size_le_of_nvpSize h)

theorem iGetValueSize_value (h : nvpSize name v ≤ int32Max) :
    iGetValueSize v.type v.strings v.nelem = some v.size := by
  rw [iGetValueSize, iValidateTypeNelem_value]
  exact if_neg (not_lt.mpr (size_le_of_nvpSize h))

/-- The value size that the stream functions ask for, without the strings. -/
theorem iGetValueSize_nil (h : nvpSize name v ≤ int32Max) :
    iGetValueSize v.type [] v.nelem = some (valueSz v.type [] v.nelem) := by
  have hle := (valueSz_nil_le v.type v.strings v.nelem).trans (size_le_of_nvpSize h)
  rw [iGetValueSize, iValidateTypeNelem_value]
  exact if_neg (not_lt.mpr hle)

/-- A pair as the library builds it passes the check after decoding. -/
theorem iValidateNvpair_self (hname : name.length < 32767) (h : nvpSize name v ≤ int32Max)
    (hv : iValidateNvpairValue v) : iValidateNvpair (nvpSize name v) name v = true := by
  have hcalc : nvpSizeCalc (name.length + 1) 0 ≤ nvpSize name v := by
    simp [nvpSize, nvpSizeCalc, nvAlign]
  have hname' : name.length + 1 < 2 ^ 15 := by omega
  have hval : nvpSize name v - nvpValoff name = nvAlign v.size := Nat.add_sub_cancel_left ..
  rw [iValidateNvpair, iGetValueSize_value h, hv, decide_eq_true hname', decide_eq_true hcalc]
  simp [hval]

theorem nvpSize_ge (name : CStr) (v : NvValue) : nvpSizeCalc 1 0 ≤ nvpSize name v := by
  simp only [nvpSize, nvpSizeCalc, nvAlign, sizeofNvpair]
  omega

end Pair

end Polaris
