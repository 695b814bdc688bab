import Polaris.Lib.DList
import Polaris.Nvpair.NativeStream

/-!
# Lists in memory

The operations of `nvpair.c` on a list that is not packed.  A list has the doubly linked pairs, of
which `nvpriv_t` points to the first, the last and the one `nvlist_next_nvpair` returned last.  A
pair is its buffer: the name stands behind the header, the value where the 16-bit field
`nvp_name_sz` says.

A list owns the lists embedded in its values, which are copied when they are added.  So the type of
lists has the type of the lists in it as a parameter `E`, and `Embedded n` is the type of lists that
are nested `n` deep at most; what is said for all `n` is said for every nesting.

`none` is a fault: a null pointer is followed, or memory outside of the pair is written.  Loops that
follow the links have a fuel argument.  The allocator is the argument `alloc`, whose answer `none`
is a failure.

## Main definitions

* `Nvp`, `Nvl`, `NvData`, `Embedded`
* `nvlistAddCommon`, `nvlistRemove`, `nvlistRemoveAll`, `nvlistLookupCommon`, `nvlistNextNvpair`
-/

namespace Polaris

open Xdr

/-- `errno` -/
inductive NvErrno where
  | einval
  | enomem
  | enoent
  | enotsup
  deriving DecidableEq, Repr

/-- `nvpair_t`: its fields, its `nvp_size` bytes, the strings a string array points to as places in
these bytes, and the lists whose `nvlist_t` are in the value. -/
structure Nvp (E : Type) where
  nvpNameSz : BitVec 16
  nvpValueElem : ℕ
  nvpType : DataType
  buf : Bytes
  strp : List ℕ
  lists : List E

/-- `nvlist_t` with its `nvpriv_t`: `nvp_list` and `nvp_last` are the ends of `pairs`. -/
structure Nvl (E : Type) where
  nvlNvflag : BitVec 32
  nvpCurr : Option ℕ
  pairs : DList (Nvp E)

/-- What a pointer to data of a type points to. -/
structure NvData (E : Type) where
  type : DataType
  nelem : ℕ
  raw : Bytes
  strs : List CStr
  lists : List E

section

variable {E : Type}

/-! ## Pairs -/

/-- `NVP_VALUE`, as an offset in the pair. -/
def nvpValueOff (nameSz : BitVec 16) : ℤ := (sizeofNvpair + nameSz.toInt + 7) / 8 * 8

/-- `bcopy` into the bytes of a pair. -/
def nvpBcopy (buf : Bytes) (off : ℤ) (src : Bytes) : Option Bytes :=
  if src = [] then some buf
  else if off < 0 ∨ buf.length < off.toNat + src.length then none
  else some (buf.take off.toNat ++ src ++ buf.drop (off.toNat + src.length))

/-- `NVP_NAME` -/
def Nvp.name (p : Nvp E) : CStr := cstr (p.buf.drop sizeofNvpair)

/-- The data at `NVP_VALUE`. -/
def Nvp.data (p : Nvp E) : Option (NvData E) :=
  if nvpValueOff p.nvpNameSz < 0 then none
  else some ⟨p.nvpType, p.nvpValueElem, p.buf.drop (nvpValueOff p.nvpNameSz).toNat,
    p.strp.map fun off => cstr (p.buf.drop off), p.lists⟩

/-- The strings at `data`. -/
def NvData.strings (d : NvData E) : List CStr :=
  match d.type with
  | .string => [cstr d.raw]
  | .stringArray => d.strs
  | .boolean | .num _ | .hrtime | .nvlist | .numArray _ | .nvlistArray => []

/-- `i_validate_nvpair_value` -/
def iValidateData (h : Host) (d : NvData E) : Bool :=
  match d.type with
  | .num .booleanValue => field h d.raw 0 4 < 2
  | .numArray .booleanValue => (List.range d.nelem).all fun i => field h d.raw (i * 4) 4 < 2
  | _ => true

/-- The loop that copies the strings of an array to `buf` and keeps the pointers. -/
def copyStrings : List CStr → ℤ → Bytes → Option (Bytes × List ℕ)
  | [], _, bytes => some (bytes, [])
  | s :: ss, buf, bytes => do
    let bytes ← nvpBcopy bytes buf (s.bytes ++ [0])
    let (bytes, strp) ← copyStrings ss (buf + (s.length + 1)) bytes
    some (bytes, buf.toNat :: strp)

/-- The switch of `nvlist_add_common` that copies the data to the value at `off`. -/
def nvpFillValue (d : NvData E) (valueSz : ℕ) (off : ℤ) (buf : Bytes) : Option (Bytes × List ℕ) :=
  match d.type with
  | .boolean | .nvlist | .nvlistArray => some (buf, [])
  | .stringArray => copyStrings d.strs (off + d.nelem * 8) buf
  | .num _ | .string | .hrtime | .numArray _ => do
    let buf ← nvpBcopy buf off (d.raw.take valueSz)
    some (buf, [])

/-- The pair of `nvlist_add_common`, of which the lists have been copied. -/
def nvpFill (name : CStr) (d : NvData E) (valueSz : ℕ) (lists : List E) : Option (Nvp E) := do
  let nameSz : BitVec 16 := BitVec.ofNat 16 (name.length + 1)
  let buf := List.replicate (nvpSizeCalc (name.length + 1) valueSz) 0
  let buf ← nvpBcopy buf sizeofNvpair (name.bytes ++ [0])
  let (buf, strp) ← nvpFillValue d valueSz (nvpValueOff nameSz) buf
  some ⟨nameSz, d.nelem, d.type, buf, strp, lists⟩

/-! ## The list -/

/-- `NV_UNIQUE_NAME` -/
def nvUniqueName : BitVec 32 := 1

/-- `NV_UNIQUE_NAME_TYPE` -/
def nvUniqueNameType : BitVec 32 := 2

/-- Whether a flag is set. -/
def hasFlag (flags flag : BitVec 32) : Bool := flags &&& flag ≠ 0

/-- `nvlist_init` with the ends and the cursor that are in `nvpriv_t` -/
def nvlistInit (nvflag : BitVec 32) (last curr : Option ℕ) : Nvl E :=
  ⟨nvflag &&& (nvUniqueName ||| nvUniqueNameType), curr, ⟨none, last, fun _ => none⟩⟩

/-- `nvlist_xalloc`.  `nv_priv_init` clears as many bytes as a pointer has, which is `nvp_list`
only; `last` and `curr` are what the memory held before. -/
def nvlistXalloc (nvflag : BitVec 32) (last curr : Option ℕ) : Nvl E := nvlistInit nvflag last curr

/-- `nvp_buf_unlink` and `nvp_buf_free` -/
def nvpBufUnlink (nvl : Nvl E) (a : ℕ) : Option (Nvl E) := do
  let nd ← nvl.pairs.node a
  let curr := if nvl.nvpCurr = some a then nd.next else nvl.nvpCurr
  let pairs ← nvl.pairs.unlink a
  some
    { nvl with
      nvpCurr := curr
      pairs := { pairs with node := Function.update pairs.node a none } }

/-- The loop of `nvlist_remove_all`; the flag says that a pair was removed. -/
def nvlistRemoveAllLoop (name : CStr) : ℕ → Option ℕ → Nvl E → Bool → Option (Nvl E × Bool)
  | _, none, nvl, found => some (nvl, found)
  | 0, some _, _, _ => none
  | fuel + 1, some a, nvl, found => do
    let nd ← nvl.pairs.node a
    if nd.val.name ≠ name then nvlistRemoveAllLoop name fuel nd.next nvl found
    else do
      let nvl ← nvpBufUnlink nvl a
      nvlistRemoveAllLoop name fuel nd.next nvl true

/-- `nvlist_remove_all` -/
def nvlistRemoveAll (fuel : ℕ) (nvl : Nvl E) (name : CStr) :
    Option (Nvl E × Except NvErrno Unit) := do
  let (nvl, found) ← nvlistRemoveAllLoop name fuel nvl.pairs.head nvl false
  some (nvl, if found then .ok () else .error .enoent)

/-- The loop of `nvlist_remove` -/
def nvlistRemoveLoop (name : CStr) (type : DataType) :
    ℕ → Option ℕ → Nvl E → Option (Nvl E × Except NvErrno Unit)
  | _, none, nvl => some (nvl, .error .enoent)
  | 0, some _, _ => none
  | fuel + 1, some a, nvl => do
    let nd ← nvl.pairs.node a
    if nd.val.name = name ∧ nd.val.nvpType = type then do
      let nvl ← nvpBufUnlink nvl a
      some (nvl, .ok ())
    else nvlistRemoveLoop name type fuel nd.next nvl

/-- `nvlist_remove` -/
def nvlistRemove (fuel : ℕ) (nvl : Nvl E) (name : CStr) (type : DataType) :
    Option (Nvl E × Except NvErrno Unit) :=
  nvlistRemoveLoop name type fuel nvl.pairs.head nvl

/-- `nvp_buf_link` of a pair in new memory at `a`. -/
def nvpBufLink (nvl : Nvl E) (a : ℕ) (p : Nvp E) : Option (Nvl E) := do
  let pairs := { nvl.pairs with node := Function.update nvl.pairs.node a (some ⟨none, none, p⟩) }
  let pairs ← pairs.link a
  some { nvl with pairs := pairs }

/-- Copy the lists of a value one after the other, up to the first error. -/
def copyLists (copy : E → Option (Except NvErrno E)) : List E → Option (Except NvErrno (List E))
  | [] => some (.ok [])
  | e :: es => do
    match ← copy e with
    | .error err => some (.error err)
    | .ok e' =>
      match ← copyLists copy es with
      | .error err => some (.error err)
      | .ok es' => some (.ok (e' :: es'))

/-- The end of `nvlist_add_common`: remove what the new pair replaces, and link it. -/
def nvlistAddPair (fuel : ℕ) (nvl : Nvl E) (a : ℕ) (p : Nvp E) (name : CStr) : Option (Nvl E) := do
  let nvl ← if hasFlag nvl.nvlNvflag nvUniqueName then (nvlistRemoveAll fuel nvl name).map Prod.fst
    else if hasFlag nvl.nvlNvflag nvUniqueNameType then
      (nvlistRemove fuel nvl name p.nvpType).map Prod.fst
    else some nvl
  nvpBufLink nvl a p

/-- `nvlist_add_common`; `alloc` is the answer of the allocator and `copy` is
`nvlist_copy_embedded`.  A pair of 2 GB or more is asked for as a negative number of bytes. -/
def nvlistAddCommon (h : Host) (copy : E → Option (Except NvErrno E)) (fuel : ℕ) (alloc : Option ℕ)
    (nvl : Nvl E) (name : CStr) (d : NvData E) : Option (Nvl E × Except NvErrno Unit) :=
  match iGetValueSize d.type d.strings d.nelem with
  | none => some (nvl, .error .einval)
  | some valueSz =>
    if !iValidateData h d then some (nvl, .error .einval)
    else if int32Max < nvpSizeCalc (name.length + 1) valueSz then some (nvl, .error .enomem)
    else match alloc with
      | none => some (nvl, .error .enomem)
      | some a => do
        match ← copyLists copy d.lists with
        | .error err => some (nvl, .error err)
        | .ok lists => do
          let p ← nvpFill name d valueSz lists
          let nvl ← nvlistAddPair fuel nvl a p name
          some (nvl, .ok ())

/-- The loop of `nvlist_copy_pairs`, with the answers of the allocator from `i` on. -/
def nvlistCopyPairs (h : Host) (copy : E → Option (Except NvErrno E)) (alloc : ℕ → Option ℕ)
    (snvl : Nvl E) : ℕ → Option ℕ → ℕ → Nvl E → Option (Except NvErrno (Nvl E))
  | _, none, _, dnvl => some (.ok dnvl)
  | 0, some _, _, _ => none
  | fuel + 1, some a, i, dnvl => do
    let nd ← snvl.pairs.node a
    let d ← nd.val.data
    match ← nvlistAddCommon h copy i (alloc i) dnvl nd.val.name d with
    | (_, .error err) => some (.error err)
    | (dnvl, .ok ()) => nvlistCopyPairs h copy alloc snvl fuel nd.next (i + 1) dnvl

/-- `nvlist_copy_embedded`; the new `nvpriv_t` is zeroed. -/
def nvlistCopyEmbedded (h : Host) (copy : E → Option (Except NvErrno E)) (alloc : ℕ → Option ℕ)
    (fuel : ℕ) (onvl : Nvl E) : Option (Except NvErrno (Nvl E)) :=
  nvlistCopyPairs h copy alloc onvl fuel onvl.pairs.head 0 (nvlistInit onvl.nvlNvflag none none)

/-! ## Reading -/

/-- `nvpair_value_common`: an array without elements is given as `NULL`. -/
def nvpairValueCommon (p : Nvp E) (type : DataType) : Option (Except NvErrno (NvData E)) :=
  if p.nvpType ≠ type then some (.error .einval)
  else do
    let d ← p.data
    some (.ok (if d.nelem = 0 then { d with raw := [] } else d))

/-- The loop of `nvlist_lookup_common` -/
def nvlistLookupLoop (nvl : Nvl E) (name : CStr) (type : DataType) :
    ℕ → Option ℕ → Option (Except NvErrno (NvData E))
  | _, none => some (.error .enoent)
  | 0, some _ => none
  | fuel + 1, some a => do
    let nd ← nvl.pairs.node a
    if nd.val.name = name ∧ nd.val.nvpType = type then nvpairValueCommon nd.val type
    else nvlistLookupLoop nvl name type fuel nd.next

/-- `nvlist_lookup_common` -/
def nvlistLookupCommon (fuel : ℕ) (nvl : Nvl E) (name : CStr) (type : DataType) :
    Option (Except NvErrno (NvData E)) :=
  if !hasFlag nvl.nvlNvflag (nvUniqueName ||| nvUniqueNameType) then some (.error .enotsup)
  else nvlistLookupLoop nvl name type fuel nvl.pairs.head

/-- `nvlist_contains_nvp` -/
def nvlistContainsNvp (nvl : Nvl E) (a : ℕ) : ℕ → Option ℕ → Option Bool
  | _, none => some false
  | 0, some _ => none
  | fuel + 1, some b => do
    let nd ← nvl.pairs.node b
    if b = a then some true else nvlistContainsNvp nvl a fuel nd.next

/-- `nvlist_next_nvpair` -/
def nvlistNextNvpair (fuel : ℕ) (nvl : Nvl E) (nvp : Option ℕ) : Option (Nvl E × Option ℕ) := do
  let curr ← match nvp with
    | none => some nvl.pairs.head
    | some a =>
      if nvl.nvpCurr = some a then do
        let nd ← nvl.pairs.node a
        some nd.next
      else do
        let contains ← nvlistContainsNvp nvl a fuel nvl.pairs.head
        some (if contains then some a else none)
  some ({ nvl with nvpCurr := curr }, curr)

end

/-- Lists that are embedded in lists: nested less than `n` deep. -/
def Embedded : ℕ → Type
  | 0 => Empty
  | n + 1 => Nvl (Embedded n)

/-- `nvlist_copy_embedded` for lists nested less than `n` deep. -/
def copyEmbedded (h : Host) (alloc : ℕ → Option ℕ) (fuel : ℕ) :
    (n : ℕ) → Embedded n → Option (Except NvErrno (Embedded n))
  | 0 => fun e => e.elim
  | n + 1 => fun e => nvlistCopyEmbedded h (copyEmbedded h alloc fuel n) alloc fuel e

end Polaris
