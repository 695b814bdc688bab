import Polaris.Nvpair.NativeStream

/-!
# Packing and unpacking

`nvlist_size`, `nvlist_xpack` into a buffer and `nvlist_xunpack`.  The first four bytes of a packed
list say how it is encoded and the byte order of the machine that did it.
-/

namespace Polaris

open Xdr

/-- `NV_ENCODE_NATIVE`, `NV_ENCODE_XDR` -/
inductive NvEncoding where
  | native
  | xdr
  deriving DecidableEq, Repr

/-- `nvh_encoding` -/
def NvEncoding.code : NvEncoding → BitVec 8
  | .native => 0
  | .xdr => 1

/-- `sizeof (nvs_header_t)` -/
def sizeofNvsHeader : ℕ := 4

/-- `nvh_endian`: the byte order of the host. -/
def Host.endian (h : Host) : BitVec 8 := if h.littleEndian then 1 else 0

/-- `nvlist_size` -/
def nvlistSize (l : Nvlist) : NvEncoding → Option ℕ
  | .native => nvsNativeGetsize false sizeofNvsHeader l
  | .xdr => nvsXdrGetsize sizeofNvsHeader l

/-- `nvlist_common`, encoding: what is written behind the header. -/
def nvlistEncode (h : Host) (ptrs : ℕ → ℕ → BitVec 8) (l : Nvlist) (encoding : NvEncoding)
    (buflen : ℕ) :
    Option Out :=
  let o : Out := ⟨[], buflen - sizeofNvsHeader⟩
  match encoding with
  | .native => nvsNativeEncode h ptrs false l o
  | .xdr => nvsXdrEncode h l o

/-- `nvlist_xpack` into the buffer `buf`, whose rest stays as it was. -/
def nvlistXpack (h : Host) (ptrs : ℕ → ℕ → BitVec 8) (l : Nvlist) (encoding : NvEncoding)
    (buf : Bytes) :
    Option Bytes := do
  if buf.length < sizeofNvsHeader then none
  let o ← nvlistEncode h ptrs l encoding buf.length
  some ([encoding.code, h.endian, 0, 0] ++ o.bytes ++ buf.drop (sizeofNvsHeader + o.bytes.length))

/-- `nvlist_xunpack`.  No more calls are nested than there are bytes. -/
def nvlistXunpack (h : Host) (buf : Bytes) : Option Nvlist := do
  if buf.length < sizeofNvsHeader then none
  let s := buf.drop sizeofNvsHeader
  if buf.head? = some NvEncoding.native.code then
    if buf[1]? ≠ some h.endian then none
    let (l, _) ← nvsNativeDecode h buf.length s
    some l
  else if buf.head? = some NvEncoding.xdr.code then
    let (l, _) ← nvsXdrDecode buf.length s
    some l
  else none

end Polaris
