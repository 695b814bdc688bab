import Mathlib.Algebra.Order.BigOperators.Group.Finset

/-!
# The columns of a RAID-Z I/O

`vdev_raidz_map_alloc` spreads one I/O on a RAID-Z device over its children.  The logical sectors of
the device are numbered row by row over the children, and an I/O that starts at logical sector `b`
takes the sectors from `b` on: column `c` of the map is the child of sector `b + c`, and its further
sectors are the ones below that on the same child.  The first `nparity` columns hold parity, the
others the buffer of the I/O, cut into consecutive pieces.

Offsets and sizes are natural numbers: an I/O whose allocated space ends within 64 bits
(`RaidzIo.Aligned`) has no sum that leaves them.

## Main definitions

* `RaidzCol`, `RaidzMap` — a column and the map of an I/O, with the source's fields.
* `vdevRaidzMapAlloc` — the map of an I/O.
* `vdevRaidzAsize` — the space that is allocated for a block of a given size.
-/

namespace Polaris

/-- What the read of a column ended with: the error numbers the code tells apart, and the others. -/
inductive IoErr where
  | eio
  | enxio
  | estale
  | ecksum
  | other (errno : ℕ)
  deriving DecidableEq, Repr

/-- Where `rc_data` points: a parity column has a buffer of its own, a data column is a piece of
`io_data` that begins at the given byte. -/
inductive RaidzBuf where
  | own
  | ioData (start : ℕ)
  deriving DecidableEq, Repr

/-- `raidz_col_t`.  `rcBuf` is the pointer `rc_data`, `rcData` the bytes it points to. -/
structure RaidzCol where
  rcDevidx : ℕ
  rcOffset : ℕ
  rcSize : ℕ
  rcBuf : RaidzBuf
  rcData : ℕ → BitVec 8
  rcError : Option IoErr
  rcTried : Bool
  rcSkipped : Bool

/-- `raidz_map_t`; the columns are `rmCol 0`, …, `rmCol (rmCols - 1)`. -/
structure RaidzMap where
  rmCols : ℕ
  rmBigcols : ℕ
  rmAsize : ℕ
  rmMissingdata : ℕ
  rmMissingparity : ℕ
  rmFirstdatacol : ℕ
  rmCol : ℕ → RaidzCol

/-- The macro `roundup`. -/
def roundup (x y : ℕ) : ℕ := (x + (y - 1)) / y * y

/-- What `vdev_raidz_map_alloc` reads of a zio, and the contents of its buffer. -/
structure RaidzIo where
  ioOffset : ℕ
  ioSize : ℕ
  ioData : ℕ → BitVec 8

section MapAlloc

variable (zio : RaidzIo) (unitShift dcols nparity : ℕ)

/-- The number of full rows of data. -/
def raidzRows : ℕ := (zio.ioSize >>> unitShift) / (dcols - nparity)

/-- `bc`: the number of columns that have a sector in the last, partial row. -/
def raidzBigcols : ℕ :=
  let s := zio.ioSize >>> unitShift
  let r := s - raidzRows zio unitShift dcols nparity * (dcols - nparity)
  if r = 0 then 0 else r + nparity

/-- `acols`: the number of columns. -/
def raidzAcols : ℕ :=
  if raidzRows zio unitShift dcols nparity = 0 then raidzBigcols zio unitShift dcols nparity
  else dcols

/-- `rc_size` of column `c`. -/
def raidzColSize (c : ℕ) : ℕ :=
  (raidzRows zio unitShift dcols nparity
    + if c < raidzBigcols zio unitShift dcols nparity then 1 else 0) <<< unitShift

/-- `rc_data` of column `c`: the first data column is at the start of `io_data`, each later one
where the column before it ends. -/
def raidzDataStart : ℕ → ℕ
  | 0 => 0
  | c + 1 =>
    if c + 1 ≤ nparity then 0
    else raidzDataStart c + raidzColSize zio unitShift dcols nparity c

/-- Column `c` before parity is switched.  `garbage` is what the fresh buffers of the parity columns
hold. -/
def raidzCol (garbage : ℕ → ℕ → BitVec 8) (c : ℕ) : RaidzCol :=
  let b := zio.ioOffset >>> unitShift
  let f := b % dcols
  let o := (b / dcols) <<< unitShift
  let col := f + c
  let start := raidzDataStart zio unitShift dcols nparity c
  { rcDevidx := if dcols ≤ col then col - dcols else col
    rcOffset := if dcols ≤ col then o + 1 <<< unitShift else o
    rcSize := raidzColSize zio unitShift dcols nparity c
    rcBuf := if c < nparity then .own else .ioData start
    rcData := if c < nparity then garbage c else fun k => zio.ioData (start + k)
    rcError := none
    rcTried := false
    rcSkipped := false }

/-- The exchange of the first two columns, which single-parity devices make every megabyte. -/
def raidzSwap (rmCol : ℕ → RaidzCol) : ℕ → RaidzCol
  | 0 => { rmCol 0 with rcDevidx := (rmCol 1).rcDevidx, rcOffset := (rmCol 1).rcOffset }
  | 1 => { rmCol 1 with rcDevidx := (rmCol 0).rcDevidx, rcOffset := (rmCol 0).rcOffset }
  | c => rmCol c

/-- `vdev_raidz_map_alloc`. -/
def vdevRaidzMapAlloc (garbage : ℕ → ℕ → BitVec 8) : RaidzMap :=
  let acols := raidzAcols zio unitShift dcols nparity
  let total := (List.range acols).foldl
    (fun asize c => asize + raidzColSize zio unitShift dcols nparity c) 0
  let cols := raidzCol zio unitShift dcols nparity garbage
  { rmCols := acols
    rmBigcols := raidzBigcols zio unitShift dcols nparity
    rmAsize := roundup total ((nparity + 1) <<< unitShift)
    rmMissingdata := 0
    rmMissingparity := 0
    rmFirstdatacol := nparity
    rmCol := if nparity = 1 ∧ zio.ioOffset &&& (1 <<< 20) ≠ 0 then raidzSwap cols else cols }

end MapAlloc

/-- `vdev_raidz_asize`. -/
def vdevRaidzAsize (ashift cols nparity psize : ℕ) : ℕ :=
  let asize := (psize - 1) >>> ashift + 1
  let asize := asize + nparity * ((asize + cols - nparity - 1) / (cols - nparity))
  roundup asize (nparity + 1) <<< ashift

end Polaris
