import Polaris.Nvpair.XdrStream

/-!
# Packing in the format of the machine

The native operations on a list: the packed size, encoding and decoding.  A pair is copied to the
stream as it is in memory; the pointers in it are zeroed in the copy, and the pairs of an embedded
list follow it. The bytes in memory where a pointer stands are arbitrary: `ptrs at i` is byte `i` of
the value of the pair that is written at position `at` of the stream, should a pointer be there.

## Main definitions

* `nvpImage` — the bytes of a pair in memory.
* `nvsNativeGetsize`, `nvsNativeEncode`, `nvsNativeDecode`
-/

namespace Polaris

open Xdr

/-! ## Pairs in memory -/

/-- The bytes of some pointers. -/
def ptrBytes (ptr : ℕ → BitVec 8) (off n : ℕ) : Bytes := (List.range n).map fun i => ptr (off + i)

/-- An `nvlist_t` at offset `off` of a value. -/
def nvlistImage (h : Host) (ptr : ℕ → BitVec 8) (off : ℕ) (l : Nvlist) : Bytes :=
  hostBytes h.littleEndian 4 nvVersion ++ hostBytes h.littleEndian 4 l.nvflag.toNat
    ++ ptrBytes ptr (off + 8) 8 ++ hostBytes h.littleEndian 4 0 ++ hostBytes h.littleEndian 4 0

/-- The `nvlist_t` of an array, one after the other. -/
def nvlistImages (h : Host) (ptr : ℕ → BitVec 8) : ℕ → Nvlists → Bytes
  | _, .nil => []
  | off, .cons l ls => nvlistImage h ptr off l ++ nvlistImages h ptr (off + sizeofNvlist) ls

/-- The bytes of a value. -/
def valueImage (h : Host) (ptr : ℕ → BitVec 8) : NvValue → Bytes
  | .boolean => []
  | .num t x => hostBytes h.littleEndian t.size x.toNat
  | .string s => s.bytes ++ [0]
  | .hrtime x => hostBytes h.littleEndian 8 x.toNat
  | .nvlist l => nvlistImage h ptr 0 l
  | .numArray t xs => xs.flatMap fun x => hostBytes h.littleEndian t.size x.toNat
  | .stringArray ss => ptrBytes ptr 0 (ss.length * 8) ++ ss.flatMap fun s => s.bytes ++ [0]
  | .nvlistArray ls => ptrBytes ptr 0 (ls.length * 8) ++ nvlistImages h ptr (ls.length * 8) ls

/-- The fields of an `nvpair_t`. -/
def nvpHeader (h : Host) (name : CStr) (v : NvValue) : Bytes :=
  hostBytes h.littleEndian 4 (nvpSize name v) ++ hostBytes h.littleEndian 2 (name.length + 1)
    ++ hostBytes h.littleEndian 2 0 ++ hostBytes h.littleEndian 4 v.nelem
    ++ hostBytes h.littleEndian 4 v.type.code

/-- Bytes followed by zeros up to a size. -/
def padTo (n : ℕ) (bs : Bytes) : Bytes := bs ++ List.replicate (n - bs.length) 0

/-- The bytes of a pair. -/
def nvpImage (h : Host) (ptr : ℕ → BitVec 8) (name : CStr) (v : NvValue) : Bytes :=
  padTo (nvpValoff name) (nvpHeader h name v ++ (name.bytes ++ [0]))
    ++ padTo (nvAlign v.size) (valueImage h ptr v)

/-! ## The packed size -/

mutual

/-- `nvs_operation` for the packed size, from the size `buflen` on; `nflag` is `n_flag`. -/
def nvsNativeGetsize (nflag : Bool) (buflen : ℕ) : Nvlist → Option ℕ
  | .mk _ ps => nvsNativeGetsizePairs (if nflag then buflen + 4 else buflen + (2 * 4 + 4)) ps

/-- `nvs_getsize_pairs` -/
def nvsNativeGetsizePairs (nvsize : ℕ) : Nvpairs → Option ℕ
  | .nil => some nvsize
  | .cons name v ps => do
    let size ← nvsNativeNvpSize name v
    let nvsize ← fitsInt32 (nvsize + size)
    nvsNativeGetsizePairs nvsize ps

/-- `nvs_native_nvp_size` -/
def nvsNativeNvpSize (name : CStr) : NvValue → Option ℕ
  | .nvlist l => do
    let nvsize ← nvsNativeGetsize true 0 l
    fitsInt32 (nvpSize name (.nvlist l) + nvsize)
  | .nvlistArray ls => do
    let nvsize ← nvsNativeGetsizeArray 0 ls
    fitsInt32 (nvpSize name (.nvlistArray ls) + nvsize)
  | v => fitsInt32 (nvpSize name v)

/-- `nvs_embedded_nvl_array` for the packed size. -/
def nvsNativeGetsizeArray (nvsize : ℕ) : Nvlists → Option ℕ
  | .nil => some nvsize
  | .cons l ls => do
    let nvpSz ← nvsNativeGetsize true 0 l
    let nvsize ← fitsInt32 (nvsize + nvpSz)
    nvsNativeGetsizeArray nvsize ls

end

/-! ## Encoding -/

/-- The loop of `nvpair_native_embedded_array` over `n` packed lists. -/
def blankPrivs : ℕ → ℕ → Out → Out
  | 0, _, o => o
  | n + 1, packed, o => blankPrivs n (packed + sizeofNvlist) (o.bzero (packed + 8) 8)

/-- Zero the pointers of a value that was written from `value` on. -/
def blankPointers (value : ℕ) (o : Out) : NvValue → Out
  | .nvlist _ => o.bzero (value + 8) 8
  | .nvlistArray ls => blankPrivs ls.length (value + ls.length * 8) (o.bzero value (ls.length * 8))
  | .stringArray ss => o.bzero value (ss.length * 8)
  | .boolean | .num .. | .string _ | .hrtime _ | .numArray .. => o

/-- `nvs_native_nvp_op` up to the embedded lists, encoding. -/
def nvsNativeEncodeHead (h : Host) (ptrs : ℕ → ℕ → BitVec 8) (name : CStr) (v : NvValue) (o : Out) :
    Option Out := do
  let o ← o.put (nvpImage h (ptrs o.bytes.length) name v)
  if 2 ^ 15 ≤ name.length + 1 then none
  let valueSz ← iGetValueSize v.type [] v.nelem
  if nvpSize name v < nvpSizeCalc (name.length + 1) valueSz then none
  some (blankPointers (o.bytes.length - nvpSize name v + nvpValoff name) o v)

mutual

/-- `nvs_operation`, encoding. -/
def nvsNativeEncode (h : Host) (ptrs : ℕ → ℕ → BitVec 8) (nflag : Bool) : Nvlist → Out → Option Out
  | .mk flag ps, o => do
    let o ← if nflag then some o else do
      let o ← o.put (hostBytes h.littleEndian 4 nvVersion)
      o.put (hostBytes h.littleEndian 4 flag.toNat)
    nvsNativeEncodePairs h ptrs ps o

/-- `nvs_encode_pairs` -/
def nvsNativeEncodePairs (h : Host) (ptrs : ℕ → ℕ → BitVec 8) : Nvpairs → Out → Option Out
  | .nil, o => o.put (List.replicate 4 0)
  | .cons name v ps, o => do
    let o ← nvsNativeEncodeHead h ptrs name v o
    let o ← nvsNativeEncodeLists h ptrs v o
    nvsNativeEncodePairs h ptrs ps o

/-- The lists embedded in a value, encoding. -/
def nvsNativeEncodeLists (h : Host) (ptrs : ℕ → ℕ → BitVec 8) : NvValue → Out → Option Out
  | .nvlist l, o => nvsNativeEncode h ptrs true l o
  | .nvlistArray ls, o => nvsNativeEncodeArray h ptrs ls o
  | .boolean, o | .num .., o | .string _, o | .hrtime _, o | .numArray ..,
    o | .stringArray _, o => some o

/-- `nvs_embedded_nvl_array`, encoding. -/
def nvsNativeEncodeArray (h : Host) (ptrs : ℕ → ℕ → BitVec 8) : Nvlists → Out → Option Out
  | .nil, o => some o
  | .cons l ls, o => do
    let o ← nvsNativeEncode h ptrs true l o
    nvsNativeEncodeArray h ptrs ls o

end

/-! ## Decoding -/

/-- The number in `n` bytes from `off` on. -/
def field (h : Host) (bs : Bytes) (off n : ℕ) : ℕ := hostVal h.littleEndian ((bs.drop off).take n)

/-- `nvs_native_nvpair`, decoding: the size of the next pair, which is left in the stream. -/
def nvsNativeNvpair (h : Host) (s : Bytes) : Option (ℕ × Bytes) := do
  let (b, rest) ← getBytes 4 s
  let decodeLen := hostVal h.littleEndian b
  if int32Max < decodeLen ∨ s.length < decodeLen then none
  if decodeLen = 0 then return (0, rest)
  some (decodeLen, s)

/-- `nvs_native_nvp_op` up to the value, decoding a pair of `nvsize` bytes: the name, the type, the
number of elements, the bytes of the value and what follows in the stream. -/
def nvsNativeDecodeHead (h : Host) (nvsize : ℕ) (s : Bytes) :
    Option (CStr × DataType × ℕ × Bytes × Bytes) := do
  let (raw, s) ← getBytes nvsize s
  let nameSz := field h raw 4 2
  -- the size is a signed 16-bit number
  if nameSz = 0 ∨ 2 ^ 15 ≤ nameSz ∨ nvsize < nvpSizeCalc nameSz 0 then none
  let name := cstr (raw.drop sizeofNvpair)
  if raw[sizeofNvpair + nameSz - 1]? ≠ some 0 ∨ name.length ≠ nameSz - 1 then none
  let nelem := field h raw 8 4
  let type ← DataType.ofCode (field h raw 12 4)
  let valueSz ← iGetValueSize type [] nelem
  if nvsize < nvpSizeCalc nameSz valueSz then none
  some (name, type, nelem, raw.drop (nvpValoff name), s)

/-- `nvpair_native_string_array`, decoding; a string that does not end in the pair is none. -/
def nvpairNativeStringArray : ℕ → Bytes → Option (List CStr)
  | 0, _ => some []
  | nelem + 1, buf => do
    if (0 : BitVec 8) ∉ buf then none
    let ss ← nvpairNativeStringArray nelem (buf.drop ((cstr buf).length + 1))
    some (cstr buf :: ss)

/-- The values without lists, decoding. -/
def nvsNativeDecodeFlat (h : Host) (type : DataType) (nelem : ℕ) (value : Bytes) : Option NvValue :=
  match type with
  | .boolean => some .boolean
  | .num t => some (.num t (BitVec.ofNat _ (field h value 0 t.size)))
  | .string => if (0 : BitVec 8) ∈ value then some (.string (cstr value)) else none
  | .hrtime => some (.hrtime (BitVec.ofNat 64 (field h value 0 8)))
  | .numArray t =>
    some (.numArray t ((List.range nelem).map fun i =>
      BitVec.ofNat _ (field h value (i * t.size) t.size)))
  | .stringArray => do
    let ss ← nvpairNativeStringArray nelem (value.drop (nelem * 8))
    some (.stringArray ss)
  | .nvlist | .nvlistArray => none

mutual

/-- `nvs_decode_pairs` -/
def nvsNativeDecodePairs (h : Host) : ℕ → Bytes → Option (Nvpairs × Bytes)
  | 0, _ => none
  | fuel + 1, s => do
    let (nvsize, s) ← nvsNativeNvpair h s
    if nvsize = 0 then return (.nil, s)
    if nvsize < nvpSizeCalc 1 0 then none
    let (name, type, nelem, value, s) ← nvsNativeDecodeHead h nvsize s
    let (v, s) ← nvsNativeDecodeValue h fuel type nelem value s
    if !iValidateNvpair nvsize name v then none
    let (ps, s) ← nvsNativeDecodePairs h fuel s
    some (.cons name v ps, s)

/-- The value of a pair, decoding. -/
def nvsNativeDecodeValue (h : Host) :
    ℕ → DataType → ℕ → Bytes → Bytes → Option (NvValue × Bytes)
  | 0, _, _, _, _ => none
  | fuel + 1, type, nelem, value, s =>
    match type with
    | .nvlist => do
      let (l, s) ← nvsNativeEmbedded h fuel value s
      some (.nvlist l, s)
    | .nvlistArray => do
      let (ls, s) ← nvsNativeDecodeArray h fuel nelem (value.drop (nelem * 8)) s
      some (.nvlistArray ls, s)
    | type => do
      let v ← nvsNativeDecodeFlat h type nelem value
      some (v, s)

/-- `nvs_embedded`, decoding the list with the `nvlist_t` at `embedded`. -/
def nvsNativeEmbedded (h : Host) : ℕ → Bytes → Bytes → Option (Nvlist × Bytes)
  | 0, _, _ => none
  | fuel + 1, embedded, s => do
    if field h embedded 0 4 ≠ nvVersion then none
    let (ps, s) ← nvsNativeDecodePairs h fuel s
    some (.mk (BitVec.ofNat 32 (field h embedded 4 4) &&& 3) ps, s)

/-- `nvs_embedded_nvl_array`, decoding. -/
def nvsNativeDecodeArray (h : Host) : ℕ → ℕ → Bytes → Bytes → Option (Nvlists × Bytes)
  | 0, _, _, _ => none
  | _ + 1, 0, _, s => some (.nil, s)
  | fuel + 1, nelem + 1, embedded, s => do
    let (l, s) ← nvsNativeEmbedded h fuel embedded s
    let (ls, s) ← nvsNativeDecodeArray h fuel nelem (embedded.drop sizeofNvlist) s
    some (.cons l ls, s)

end

/-- `nvs_operation` of the whole list, decoding. -/
def nvsNativeDecode (h : Host) (fuel : ℕ) (s : Bytes) : Option (Nvlist × Bytes) := do
  let (_, s) ← getBytes 4 s
  let (b, s) ← getBytes 4 s
  let (ps, s) ← nvsNativeDecodePairs h fuel s
  some (.mk (BitVec.ofNat 32 (hostVal h.littleEndian b)) ps, s)

end Polaris
