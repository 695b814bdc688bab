import Polaris.Lib.Words
import Polaris.Raidz.Map

/-!
# RAID-Z parity

The first parity column is the exclusive or of the data columns, the second the polynomial whose
coefficients they are, evaluated at `2` in the field of 256 elements.  Short columns count as though
they were filled up with zeros.  A lost data column is solved for from either parity column, two
lost ones from both.

The columns do not overlap in memory, so a loop that runs over several columns at once is written as
one loop for each column that it writes.

## Main definitions

* `vdevRaidzPow2`, `vdevRaidzLog2`, `vdevRaidzExp2` — the tables and the product made of them.
* `raidzMul2Word` — eight bytes doubled at once.
* `vdevRaidzGenerateParityP`, `vdevRaidzGenerateParityPq` — parity of the data columns.
* `vdevRaidzReconstructP`, `vdevRaidzReconstructQ`, `vdevRaidzReconstructPq` — lost columns back.
-/

namespace Polaris

/-! ## Field arithmetic -/

/-- The table `vdev_raidz_pow2`. -/
def vdevRaidzPow2Table : List ℕ :=
  [ 0x01, 0x02, 0x04, 0x08, 0x10, 0x20, 0x40, 0x80, 0x1d, 0x3a, 0x74, 0xe8, 0xcd, 0x87, 0x13, 0x26,
    0x4c, 0x98, 0x2d, 0x5a, 0xb4, 0x75, 0xea, 0xc9, 0x8f, 0x03, 0x06, 0x0c, 0x18, 0x30, 0x60, 0xc0,
    0x9d, 0x27, 0x4e, 0x9c, 0x25, 0x4a, 0x94, 0x35, 0x6a, 0xd4, 0xb5, 0x77, 0xee, 0xc1, 0x9f, 0x23,
    0x46, 0x8c, 0x05, 0x0a, 0x14, 0x28, 0x50, 0xa0, 0x5d, 0xba, 0x69, 0xd2, 0xb9, 0x6f, 0xde, 0xa1,
    0x5f, 0xbe, 0x61, 0xc2, 0x99, 0x2f, 0x5e, 0xbc, 0x65, 0xca, 0x89, 0x0f, 0x1e, 0x3c, 0x78, 0xf0,
    0xfd, 0xe7, 0xd3, 0xbb, 0x6b, 0xd6, 0xb1, 0x7f, 0xfe, 0xe1, 0xdf, 0xa3, 0x5b, 0xb6, 0x71, 0xe2,
    0xd9, 0xaf, 0x43, 0x86, 0x11, 0x22, 0x44, 0x88, 0x0d, 0x1a, 0x34, 0x68, 0xd0, 0xbd, 0x67, 0xce,
    0x81, 0x1f, 0x3e, 0x7c, 0xf8, 0xed, 0xc7, 0x93, 0x3b, 0x76, 0xec, 0xc5, 0x97, 0x33, 0x66, 0xcc,
    0x85, 0x17, 0x2e, 0x5c, 0xb8, 0x6d, 0xda, 0xa9, 0x4f, 0x9e, 0x21, 0x42, 0x84, 0x15, 0x2a, 0x54,
    0xa8, 0x4d, 0x9a, 0x29, 0x52, 0xa4, 0x55, 0xaa, 0x49, 0x92, 0x39, 0x72, 0xe4, 0xd5, 0xb7, 0x73,
    0xe6, 0xd1, 0xbf, 0x63, 0xc6, 0x91, 0x3f, 0x7e, 0xfc, 0xe5, 0xd7, 0xb3, 0x7b, 0xf6, 0xf1, 0xff,
    0xe3, 0xdb, 0xab, 0x4b, 0x96, 0x31, 0x62, 0xc4, 0x95, 0x37, 0x6e, 0xdc, 0xa5, 0x57, 0xae, 0x41,
    0x82, 0x19, 0x32, 0x64, 0xc8, 0x8d, 0x07, 0x0e, 0x1c, 0x38, 0x70, 0xe0, 0xdd, 0xa7, 0x53, 0xa6,
    0x51, 0xa2, 0x59, 0xb2, 0x79, 0xf2, 0xf9, 0xef, 0xc3, 0x9b, 0x2b, 0x56, 0xac, 0x45, 0x8a, 0x09,
    0x12, 0x24, 0x48, 0x90, 0x3d, 0x7a, 0xf4, 0xf5, 0xf7, 0xf3, 0xfb, 0xeb, 0xcb, 0x8b, 0x0b, 0x16,
    0x2c, 0x58, 0xb0, 0x7d, 0xfa, 0xe9, 0xcf, 0x83, 0x1b, 0x36, 0x6c, 0xd8, 0xad, 0x47, 0x8e, 0x01]

/-- The table `vdev_raidz_log2`. -/
def vdevRaidzLog2Table : List ℕ :=
  [ 0x00, 0x00, 0x01, 0x19, 0x02, 0x32, 0x1a, 0xc6, 0x03, 0xdf, 0x33, 0xee, 0x1b, 0x68, 0xc7, 0x4b,
    0x04, 0x64, 0xe0, 0x0e, 0x34, 0x8d, 0xef, 0x81, 0x1c, 0xc1, 0x69, 0xf8, 0xc8, 0x08, 0x4c, 0x71,
    0x05, 0x8a, 0x65, 0x2f, 0xe1, 0x24, 0x0f, 0x21, 0x35, 0x93, 0x8e, 0xda, 0xf0, 0x12, 0x82, 0x45,
    0x1d, 0xb5, 0xc2, 0x7d, 0x6a, 0x27, 0xf9, 0xb9, 0xc9, 0x9a, 0x09, 0x78, 0x4d, 0xe4, 0x72, 0xa6,
    0x06, 0xbf, 0x8b, 0x62, 0x66, 0xdd, 0x30, 0xfd, 0xe2, 0x98, 0x25, 0xb3, 0x10, 0x91, 0x22, 0x88,
    0x36, 0xd0, 0x94, 0xce, 0x8f, 0x96, 0xdb, 0xbd, 0xf1, 0xd2, 0x13, 0x5c, 0x83, 0x38, 0x46, 0x40,
    0x1e, 0x42, 0xb6, 0xa3, 0xc3, 0x48, 0x7e, 0x6e, 0x6b, 0x3a, 0x28, 0x54, 0xfa, 0x85, 0xba, 0x3d,
    0xca, 0x5e, 0x9b, 0x9f, 0x0a, 0x15, 0x79, 0x2b, 0x4e, 0xd4, 0xe5, 0xac, 0x73, 0xf3, 0xa7, 0x57,
    0x07, 0x70, 0xc0, 0xf7, 0x8c, 0x80, 0x63, 0x0d, 0x67, 0x4a, 0xde, 0xed, 0x31, 0xc5, 0xfe, 0x18,
    0xe3, 0xa5, 0x99, 0x77, 0x26, 0xb8, 0xb4, 0x7c, 0x11, 0x44, 0x92, 0xd9, 0x23, 0x20, 0x89, 0x2e,
    0x37, 0x3f, 0xd1, 0x5b, 0x95, 0xbc, 0xcf, 0xcd, 0x90, 0x87, 0x97, 0xb2, 0xdc, 0xfc, 0xbe, 0x61,
    0xf2, 0x56, 0xd3, 0xab, 0x14, 0x2a, 0x5d, 0x9e, 0x84, 0x3c, 0x39, 0x53, 0x47, 0x6d, 0x41, 0xa2,
    0x1f, 0x2d, 0x43, 0xd8, 0xb7, 0x7b, 0xa4, 0x76, 0xc4, 0x17, 0x49, 0xec, 0x7f, 0x0c, 0x6f, 0xf6,
    0x6c, 0xa1, 0x3b, 0x52, 0x29, 0x9d, 0x55, 0xaa, 0xfb, 0x60, 0x86, 0xb1, 0xbb, 0xcc, 0x3e, 0x5a,
    0xcb, 0x59, 0x5f, 0xb0, 0x9c, 0xa9, 0xa0, 0x51, 0x0b, 0xf5, 0x16, 0xeb, 0x7a, 0x75, 0x2c, 0xd7,
    0x4f, 0xae, 0xd5, 0xe9, 0xe6, 0xe7, 0xad, 0xe8, 0x74, 0xd6, 0xf4, 0xea, 0xa8, 0x50, 0x58, 0xaf]

/-- `vdev_raidz_pow2[i]`. -/
def vdevRaidzPow2 (i : ℕ) : BitVec 8 := BitVec.ofNat 8 (vdevRaidzPow2Table.getD i 0)

/-- `vdev_raidz_log2[a]`. -/
def vdevRaidzLog2 (a : BitVec 8) : ℕ := vdevRaidzLog2Table.getD a.toNat 0

/-- `vdev_raidz_exp2`. -/
def vdevRaidzExp2 (a : BitVec 8) (exp : ℕ) : BitVec 8 :=
  if a = 0#8 then 0#8
  else
    let exp := exp + vdevRaidzLog2 a
    vdevRaidzPow2 (if 255 < exp then exp - 255 else exp)

/-- The eight bytes of a word, each multiplied by two: the mask has every bit of a byte set whose
high bit is shifted out. -/
def raidzMul2Word (w : BitVec 64) : BitVec 64 :=
  let mask := w &&& 0x8080808080808080#64
  let mask := (mask <<< 1) - (mask >>> 7)
  ((w <<< 1) &&& 0xfefefefefefefefe#64) ^^^ (mask &&& 0x1d1d1d1d1d1d1d1d#64)

/-! ## Generating parity -/

/-- `VDEV_RAIDZ_P`. -/
def vdevRaidzP : ℕ := 0

/-- `VDEV_RAIDZ_Q`. -/
def vdevRaidzQ : ℕ := 1

namespace RaidzMap

/-- New contents for column `c`. -/
def setData (rm : RaidzMap) (c : ℕ) (data : ℕ → BitVec 8) : RaidzMap :=
  { rm with rmCol := Function.update rm.rmCol c { rm.rmCol c with rcData := data } }

/-- A new length for column `c`. -/
def setSize (rm : RaidzMap) (c size : ℕ) : RaidzMap :=
  { rm with rmCol := Function.update rm.rmCol c { rm.rmCol c with rcSize := size } }

/-- The contents of column `c`. -/
def data (rm : RaidzMap) (c : ℕ) : ℕ → BitVec 8 := (rm.rmCol c).rcData

/-- The length of column `c` in bytes. -/
def size (rm : RaidzMap) (c : ℕ) : ℕ := (rm.rmCol c).rcSize

/-- The length of column `c` in words. -/
def count (rm : RaidzMap) (c : ℕ) : ℕ := rm.size c / 8

/-- The numbers of the data columns. -/
def dataCols (rm : RaidzMap) : List ℕ :=
  List.range' rm.rmFirstdatacol (rm.rmCols - rm.rmFirstdatacol)

end RaidzMap

/-- One round of `vdev_raidz_generate_parity_p`. -/
def raidzParityP (rm : RaidzMap) (c : ℕ) : RaidzMap :=
  let src := rm.data c
  let p := rm.data vdevRaidzP
  if c = rm.rmFirstdatacol then
    rm.setData vdevRaidzP (wordLoop (fun i _ => load64 src i) 0 (rm.count c) p)
  else
    rm.setData vdevRaidzP (wordLoop (fun i w => w ^^^ load64 src i) 0 (rm.count c) p)

/-- `vdev_raidz_generate_parity_p`. -/
def vdevRaidzGenerateParityP (rm : RaidzMap) : RaidzMap := rm.dataCols.foldl raidzParityP rm

/-- One round of `vdev_raidz_generate_parity_pq`; `pcount` is the length of the parity columns. -/
def raidzParityPq (pcount : ℕ) (rm : RaidzMap) (c : ℕ) : RaidzMap :=
  let src := rm.data c
  let p := rm.data vdevRaidzP
  let q := rm.data vdevRaidzQ
  let ccount := rm.count c
  if c = rm.rmFirstdatacol then
    let copy := fun m => wordLoop (fun _ _ => 0#64) ccount (pcount - ccount)
      (wordLoop (fun i _ => load64 src i) 0 ccount m)
    (rm.setData vdevRaidzQ (copy q)).setData vdevRaidzP (copy p)
  else
    let q := wordLoop (fun i w => raidzMul2Word w ^^^ load64 src i) 0 ccount q
    -- short columns are treated as though they were full of zeros
    let q := wordLoop (fun _ w => raidzMul2Word w) ccount (pcount - ccount) q
    let p := wordLoop (fun i w => w ^^^ load64 src i) 0 ccount p
    (rm.setData vdevRaidzQ q).setData vdevRaidzP p

/-- `vdev_raidz_generate_parity_pq`. -/
def vdevRaidzGenerateParityPq (rm : RaidzMap) : RaidzMap :=
  rm.dataCols.foldl (raidzParityPq (rm.count vdevRaidzP)) rm

/-! ## Reconstructing columns -/

/-- One round of `vdev_raidz_reconstruct_p`. -/
def raidzReconstructP (x : ℕ) (rm : RaidzMap) (c : ℕ) : RaidzMap :=
  if c = x then rm
  else
    let count := min (rm.count c) (rm.count x)
    rm.setData x (wordLoop (fun i w => w ^^^ load64 (rm.data c) i) 0 count (rm.data x))

/-- `vdev_raidz_reconstruct_p`. -/
def vdevRaidzReconstructP (rm : RaidzMap) (x : ℕ) : RaidzMap :=
  let p := rm.data vdevRaidzP
  let rm := rm.setData x (wordLoop (fun i _ => load64 p i) 0 (rm.count x) (rm.data x))
  rm.dataCols.foldl (raidzReconstructP x) rm

/-- One round of `vdev_raidz_reconstruct_q`. -/
def raidzReconstructQ (x : ℕ) (rm : RaidzMap) (c : ℕ) : RaidzMap :=
  let src := rm.data c
  let dst := rm.data x
  let xcount := rm.count x
  let ccount := if c = x then 0 else rm.count c
  let count := min ccount xcount
  if c = rm.rmFirstdatacol then
    let dst := wordLoop (fun i _ => load64 src i) 0 count dst
    rm.setData x (wordLoop (fun _ _ => 0#64) count (xcount - count) dst)
  else
    let dst := wordLoop (fun i w => raidzMul2Word w ^^^ load64 src i) 0 count dst
    rm.setData x (wordLoop (fun _ w => raidzMul2Word w) count (xcount - count) dst)

/-- `vdev_raidz_reconstruct_q`. -/
def vdevRaidzReconstructQ (rm : RaidzMap) (x : ℕ) : RaidzMap :=
  let rm := rm.dataCols.foldl (raidzReconstructQ x) rm
  let exp := 255 - (rm.rmCols - 1 - x)
  let src := rm.data vdevRaidzQ
  rm.setData x (wordLoop (fun i w => mapBytes (vdevRaidzExp2 · exp) (w ^^^ load64 src i)) 0
    (rm.count x) (rm.data x))

/-- The parity of the columns other than `x` and `y`, in fresh buffers that hold `fresh`: the two
columns are given length zero for the time being. -/
def raidzParityWithout (rm : RaidzMap) (fresh : ℕ → ℕ → BitVec 8) (x y : ℕ) : RaidzMap :=
  let rm := (rm.setData vdevRaidzP (fresh vdevRaidzP)).setData vdevRaidzQ (fresh vdevRaidzQ)
  vdevRaidzGenerateParityPq ((rm.setSize x 0).setSize y 0)

/-- `vdev_raidz_reconstruct_pq`. -/
def vdevRaidzReconstructPq (rm : RaidzMap) (fresh : ℕ → ℕ → BitVec 8) (x y : ℕ) : RaidzMap :=
  let p := rm.data vdevRaidzP
  let q := rm.data vdevRaidzQ
  let pxy := (raidzParityWithout rm fresh x y).data vdevRaidzP
  let qxy := (raidzParityWithout rm fresh x y).data vdevRaidzQ
  let a := vdevRaidzPow2 (255 + x - y)
  let b := vdevRaidzPow2 (255 - (rm.rmCols - 1 - x))
  let tmp := 255 - vdevRaidzLog2 (a ^^^ 1#8)
  let aexp := vdevRaidzLog2 (vdevRaidzExp2 a tmp)
  let bexp := vdevRaidzLog2 (vdevRaidzExp2 b tmp)
  let xd := fun i => vdevRaidzExp2 (p i ^^^ pxy i) aexp ^^^ vdevRaidzExp2 (q i ^^^ qxy i) bexp
  let yd := fun i => p i ^^^ pxy i ^^^ xd i
  let rm' := rm.setData x (byteLoop xd (rm.size x) (rm.data x))
  rm'.setData y (byteLoop yd (min (rm.size x) (rm.size y)) (rm.data y))

end Polaris
