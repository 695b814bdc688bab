import Polaris.Nvpair.Basic

/-!
# Packing in external data representation

The three operations of an XDR stream on a list: the packed size, encoding and decoding.  Each is
the code of `nvs_operation` with the functions of `nvs_xdr_ops` in place.  Encoding writes to a
buffer that refuses what does not fit; decoding takes the bytes off a byte string, whose length is
what `XDR_GET_BYTES_AVAIL` answers.  An error of any kind is `none`.  `size_t` has 64 bits, so that
a negative length read from the stream is larger than every estimate.

Decoding has a fuel argument: the source bounds the recursion by the bytes there are.

## Main definitions

* `nvsXdrNvpSize`, `nvsXdrGetsize`
* `nvsXdrEncode`, `nvsXdrEncodePairs`, `nvsXdrEncodeValue`
* `nvsXdrMaxLen`, `nvsXdrDecode`, `nvsXdrDecodePairs`, `nvsXdrDecodeValue`
-/

namespace Polaris

open Xdr

/-- `NV_VERSION` -/
def nvVersion : ℕ := 0

/-! ## Numbers -/

/-- The bytes a number takes in the stream. -/
def NvNum.xdrUnit : NvNum → ℕ
  | .int64 | .uint64 => 8
  | .booleanValue | .byte | .int8 | .uint8 | .int16 | .uint16 | .int32 | .uint32 => 4

/-- Whether a number is widened with its sign.  The three byte types go through `xdr_char`. -/
def NvNum.signed (h : Host) : NvNum → Bool
  | .byte | .int8 | .uint8 => h.charSigned
  | .int16 => true
  | .uint16 | .booleanValue | .int32 | .uint32 | .int64 | .uint64 => false

/-- `xdr_char`, `xdr_short`, `xdr_int`, `xdr_longlong_t` and their unsigned fellows, encoding. -/
def numBytes (h : Host) (t : NvNum) (x : t.Val) : Bytes :=
  beBytes t.xdrUnit (if t.signed h then (x.signExtend (8 * t.xdrUnit)).toNat else x.toNat)

/-- The same, decoding. -/
def getNum (t : NvNum) (s : Bytes) : Option (t.Val × Bytes) := do
  let (b, s) ← getBytes t.xdrUnit s
  some (BitVec.ofNat _ (beVal b), s)

/-! ## The packed size -/

/-- A size that has to fit 31 bits. -/
def fitsInt32 (size : ℕ) : Option ℕ := if int32Max < size then none else some size

/-- The packed size of a pair without its value: the two sizes, the name, the type and the number of
elements. -/
def nvsXdrHdrSize (name : CStr) : ℕ := 4 + 4 + 4 + nvAlign4 name.length + 4 + 4

mutual

/-- `nvs_operation` for the packed size, from the size `buflen` on. -/
def nvsXdrGetsize (buflen : ℕ) : Nvlist → Option ℕ
  | .mk _ ps => nvsXdrGetsizePairs (buflen + (2 * 4 + 8)) ps

/-- `nvs_getsize_pairs` -/
def nvsXdrGetsizePairs (nvsize : ℕ) : Nvpairs → Option ℕ
  | .nil => some nvsize
  | .cons name v ps => do
    let size ← nvsXdrNvpSize name v
    let nvsize ← fitsInt32 (nvsize + size)
    nvsXdrGetsizePairs nvsize ps

/-- `nvs_xdr_nvp_size` -/
def nvsXdrNvpSize (name : CStr) : NvValue → Option ℕ
  | .boolean => fitsInt32 (nvsXdrHdrSize name)
  | .num t _ => fitsInt32 (nvsXdrHdrSize name + t.xdrUnit)
  | .hrtime _ => fitsInt32 (nvsXdrHdrSize name + 8)
  | .string s => fitsInt32 (nvsXdrHdrSize name + (4 + nvAlign4 s.length))
  | .numArray t xs =>
    if t = .byte then fitsInt32 (nvsXdrHdrSize name + nvAlign4 xs.length)
    else fitsInt32 (nvsXdrHdrSize name + (4 + t.xdrUnit * xs.length))
  | .stringArray ss => fitsInt32 (nvsXdrHdrSize name + (ss.map fun s => 4 + nvAlign4 s.length).sum)
  | .nvlist l => do
    let nvsize ← nvsXdrGetsize 0 l
    fitsInt32 (nvsXdrHdrSize name + nvsize)
  | .nvlistArray ls => do
    let nvsize ← nvsXdrGetsizeArray 0 ls
    fitsInt32 (nvsXdrHdrSize name + nvsize)

/-- `nvs_embedded_nvl_array` for the packed size. -/
def nvsXdrGetsizeArray (nvsize : ℕ) : Nvlists → Option ℕ
  | .nil => some nvsize
  | .cons l ls => do
    let nvpSz ← nvsXdrGetsize 0 l
    let nvsize ← fitsInt32 (nvsize + nvpSz)
    nvsXdrGetsizeArray nvsize ls

end

/-! ## Encoding -/

/-- The loop of `nvs_xdr_nvp_op` over the strings of an array, with `buflen` bytes from the last
string on and `len` bytes to the next one, encoding. -/
def nvsXdrEncodeStrings : List CStr → ℕ → ℕ → Out → Option Out
  | [], _, _, o => some o
  | str :: ss, len, buflen, o => do
    if buflen ≤ len then none
    if buflen - len - 1 < str.length then none
    let o ← o.put (stringBytes str)
    nvsXdrEncodeStrings ss (str.length + 1) (buflen - len) o

/-- `nvs_xdr_nvp_op` up to the value, encoding a pair of `nvsize` bytes. -/
def nvsXdrEncodeHead (nvsize : ℕ) (name : CStr) (v : NvValue) (o : Out) : Option Out := do
  if nvsize ≤ sizeofNvpair then none
  if nvsize - sizeofNvpair - 1 < name.length then none
  let o ← o.put (stringBytes name)
  let o ← o.put (beBytes 4 v.type.code)
  let o ← o.put (beBytes 4 v.nelem)
  let valueSz ← iGetValueSize v.type [] v.nelem
  if v.nelem ≠ 0 ∧ (nvsize ≤ nvpValoff name ∨ nvsize - nvpValoff name < valueSz) then none
  some o

mutual

/-- `nvs_operation`, encoding. -/
def nvsXdrEncode (h : Host) : Nvlist → Out → Option Out
  | .mk flag ps, o => do
    let o ← o.put (beBytes 4 nvVersion)
    let o ← o.put (beBytes 4 flag.toNat)
    nvsXdrEncodePairs h ps o

/-- `nvs_encode_pairs` with `nvs_xdr_nvpair` in its loop. -/
def nvsXdrEncodePairs (h : Host) : Nvpairs → Out → Option Out
  | .nil, o => do
    let o ← o.put (beBytes 4 0)
    o.put (beBytes 4 0)
  | .cons name v ps, o => do
    let nvsize ← nvsXdrNvpSize name v
    let o ← o.put (beBytes 4 nvsize)
    let o ← o.put (beBytes 4 (nvpSize name v))
    let o ← nvsXdrEncodeHead (nvpSize name v) name v o
    let o ← nvsXdrEncodeValue h (nvpSize name v - nvpValoff name) v o
    nvsXdrEncodePairs h ps o

/-- The switch of `nvs_xdr_nvp_op` for a value of `buflen` bytes, encoding; nothing is written for
no elements. -/
def nvsXdrEncodeValue (h : Host) (buflen : ℕ) : NvValue → Out → Option Out
  | .boolean, o => some o
  | .num t x, o => o.put (numBytes h t x)
  | .string s, o => if buflen - 1 < s.length then none else o.put (stringBytes s)
  | .hrtime x, o => o.put (beBytes 8 x.toNat)
  | .numArray t xs, o =>
    if xs.length = 0 then some o
    else if t = .byte then o.put (opaqueBytes (xs.map fun x => BitVec.ofNat 8 x.toNat))
    else if buflen / t.size < xs.length then none
    else o.put (beBytes 4 xs.length ++ xs.flatMap (numBytes h t))
  | .stringArray ss, o => nvsXdrEncodeStrings ss (ss.length * 8) buflen o
  | .nvlist l, o => nvsXdrEncode h l o
  | .nvlistArray ls, o => nvsXdrEncodeArray h ls o

/-- `nvs_embedded_nvl_array`, encoding. -/
def nvsXdrEncodeArray (h : Host) : Nvlists → Out → Option Out
  | .nil, o => some o
  | .cons l ls, o => do
    let o ← nvsXdrEncode h l o
    nvsXdrEncodeArray h ls o

end

/-- `nvs_xdr_nvpair`, encoding. -/
def nvsXdrEncodePair (h : Host) (name : CStr) (v : NvValue) (o : Out) : Option Out := do
  let nvsize ← nvsXdrNvpSize name v
  let o ← o.put (beBytes 4 nvsize)
  let o ← o.put (beBytes 4 (nvpSize name v))
  let o ← nvsXdrEncodeHead (nvpSize name v) name v o
  nvsXdrEncodeValue h (nvpSize name v - nvpValoff name) v o

/-- The loop of `nvs_encode_pairs` calls it for one pair after the other. -/
theorem nvsXdrEncodePairs_cons (h : Host) (name : CStr) (v : NvValue) (ps : Nvpairs) (o : Out) :
    nvsXdrEncodePairs h (.cons name v ps) o =
      (nvsXdrEncodePair h name v o).bind (nvsXdrEncodePairs h ps) := by
  rw [nvsXdrEncodePairs, nvsXdrEncodePair]
  simp only [Option.bind_eq_bind, Option.bind_assoc]

/-! ## Decoding -/

/-- `NVS_XDR_HDR_LEN` -/
def nvsXdrHdrLen : ℕ := 5 * 4

/-- `NVS_XDR_DATA_LEN` -/
def nvsXdrDataLen (y : ℕ) : ℕ := if y ≤ nvsXdrHdrLen then 0 else y - nvsXdrHdrLen

/-- `NVS_XDR_MAX_LEN` -/
def nvsXdrMaxLen (x : ℕ) : ℕ :=
  nvpSizeCalc 1 0 + nvsXdrDataLen x * 2 + nvAlign4 (nvsXdrDataLen x / 4)

/-- `nvs_xdr_nvpair`, decoding: the size of the next pair, zero at the end. -/
def nvsXdrNvpair (s : Bytes) : Option (ℕ × Bytes) := do
  let (_, s) ← getInt s
  let (decodeLen, s) ← getInt s
  if decodeLen = 0 then return (0, s)
  -- as a `size_t` a negative length is above the estimate
  if int32Max < decodeLen ∨ nvsXdrMaxLen s.length < decodeLen then none
  some (decodeLen, s)

/-- `nvs_xdr_nvp_op` up to the value, decoding a pair of `nvsize` bytes.  With a name whose size
does not fit `nvp_name_sz` the value pointer is off or the check of the name fails. -/
def nvsXdrDecodeHead (nvsize : ℕ) (s : Bytes) : Option (CStr × DataType × ℕ × Bytes) := do
  if nvsize ≤ sizeofNvpair then none
  let (name, s) ← getString (nvsize - sizeofNvpair - 1) s
  let (code, s) ← getInt s
  let (nelem, s) ← getInt s
  let type ← DataType.ofCode code
  let valueSz ← iGetValueSize type [] nelem
  if 2 ^ 15 ≤ name.length + 1 then none
  if nelem ≠ 0 ∧ (nvsize ≤ nvpValoff name ∨ nvsize - nvpValoff name < valueSz) then none
  some (name, type, nelem, s)

/-- The value of a pair without elements. -/
def emptyValue : DataType → NvValue
  | .numArray t => .numArray t []
  | .stringArray => .stringArray []
  | .nvlistArray => .nvlistArray .nil
  | .boolean | .num _ | .string | .hrtime | .nvlist => .boolean

/-- The loop of `nvs_xdr_nvp_op` over the strings of an array, decoding. -/
def nvsXdrDecodeStrings : ℕ → ℕ → ℕ → Bytes → Option (List CStr × Bytes)
  | 0, _, _, s => some ([], s)
  | nelem + 1, len, buflen, s => do
    if buflen ≤ len then none
    let (str, s) ← getString (buflen - len - 1) s
    let (ss, s) ← nvsXdrDecodeStrings nelem (str.length + 1) (buflen - len) s
    some (str :: ss, s)

/-- The switch of `nvs_xdr_nvp_op` for the values without lists, decoding.  An array in the stream
that is shorter than the pair says leaves zeros, and of a longer one the rest is padding. -/
def nvsXdrDecodeFlat (type : DataType) (nelem buflen : ℕ) (s : Bytes) : Option (NvValue × Bytes) :=
  match type with
  | .num t => do
    let (x, s) ← getNum t s
    some (.num t x, s)
  | .string => do
    let (str, s) ← getString (buflen - 1) s
    some (.string str, s)
  | .hrtime => do
    let (b, s) ← getBytes 8 s
    some (.hrtime (BitVec.ofNat 64 (beVal b)), s)
  | .numArray t =>
    if t = .byte then do
      let (bs, s) ← getOpaque nelem s
      some (.numArray t (bs.map fun b => BitVec.ofNat _ b.toNat), s)
    else do
      let (xs, s) ← getArray (getNum t) (buflen / t.size) s
      some (.numArray t ((xs ++ List.replicate nelem 0).take nelem), s)
  | .stringArray => do
    let (ss, s) ← nvsXdrDecodeStrings nelem (nelem * 8) buflen s
    some (.stringArray ss, s)
  | .boolean => some (.boolean, s)
  | .nvlist | .nvlistArray => none

mutual

/-- `nvs_operation`, decoding; the version is not looked at. -/
def nvsXdrDecode : ℕ → Bytes → Option (Nvlist × Bytes)
  | 0, _ => none
  | fuel + 1, s => do
    let (_, s) ← getInt s
    let (flag, s) ← getInt s
    let (ps, s) ← nvsXdrDecodePairs fuel s
    some (.mk (BitVec.ofNat 32 flag) ps, s)

/-- `nvs_decode_pairs` -/
def nvsXdrDecodePairs : ℕ → Bytes → Option (Nvpairs × Bytes)
  | 0, _ => none
  | fuel + 1, s => do
    let (nvsize, s) ← nvsXdrNvpair s
    if nvsize = 0 then return (.nil, s)
    if nvsize < nvpSizeCalc 1 0 then none
    let (name, type, nelem, s) ← nvsXdrDecodeHead nvsize s
    let (v, s) ← nvsXdrDecodeValue fuel type nelem (nvsize - nvpValoff name) s
    if !iValidateNvpair nvsize name v then none
    let (ps, s) ← nvsXdrDecodePairs fuel s
    some (.cons name v ps, s)

/-- The value of a pair, decoding. -/
def nvsXdrDecodeValue : ℕ → DataType → ℕ → ℕ → Bytes → Option (NvValue × Bytes)
  | 0, _, _, _, _ => none
  | fuel + 1, type, nelem, buflen, s =>
    if nelem = 0 then some (emptyValue type, s)
    else match type with
      | .nvlist => do
        let (l, s) ← nvsXdrDecode fuel s
        some (.nvlist l, s)
      | .nvlistArray => do
        let (ls, s) ← nvsXdrDecodeArray fuel nelem s
        some (.nvlistArray ls, s)
      | type => nvsXdrDecodeFlat type nelem buflen s

/-- `nvs_embedded_nvl_array`, decoding. -/
def nvsXdrDecodeArray : ℕ → ℕ → Bytes → Option (Nvlists × Bytes)
  | 0, _, _ => none
  | _ + 1, 0, s => some (.nil, s)
  | fuel + 1, nelem + 1, s => do
    let (l, s) ← nvsXdrDecode fuel s
    let (ls, s) ← nvsXdrDecodeArray fuel nelem s
    some (.cons l ls, s)

end

end Polaris
