import Mathlib.Data.List.TakeDrop
import Mathlib.Data.List.TakeWhile
import Mathlib.Tactic.Ring

/-!
# Byte streams and external data representation

Numbers as bytes in either order, a buffer that is written front to back and refuses what does not
fit, readers that take a value off the front of a byte string, and the items of external data
representation: big-endian words, opaque data padded to whole words, counted strings and counted
arrays.

A writer is described by the bytes it writes: `Writes f bs` says that `f` does on every buffer what
writing `bs` in one piece does, also where the buffer is too short.  A reader `r` inverts bytes `bs`
when it takes `v` off `bs ++ rest` and leaves `rest`, for every `rest`.

## Main definitions

* `beBytes`, `beVal`, `hostBytes`, `hostVal`
* `CStr`, `cstr` — strings up to a zero byte.
* `Out`, `Out.put`, `Writes`
* `getBytes`, `getInt`, `getOpaque`, `getString`, `getArray`
-/

namespace Polaris.Xdr

open List Option

/-- A byte string. -/
abbrev Bytes := List (BitVec 8)

/-! ## Numbers -/

/-- The lowest `n` bytes of a number, most significant first. -/
def beBytes : ℕ → ℕ → Bytes
  | 0, _ => []
  | n + 1, v => beBytes n (v / 256) ++ [BitVec.ofNat 8 v]

/-- The number some bytes stand for, most significant first. -/
def beVal (bs : Bytes) : ℕ := bs.foldl (fun a b => a * 256 + b.toNat) 0

/-- The lowest `n` bytes of a number in the order of the host. -/
def hostBytes (little : Bool) (n v : ℕ) : Bytes :=
  if little then (beBytes n v).reverse else beBytes n v

/-- The number some bytes stand for in the order of the host. -/
def hostVal (little : Bool) (bs : Bytes) : ℕ :=
  if little then beVal bs.reverse else beVal bs

@[simp] theorem length_beBytes (n v : ℕ) : (beBytes n v).length = n := by
  induction n generalizing v with
  | zero => rfl
  | succ n ih => simp [beBytes, ih]

@[simp] theorem length_hostBytes (little : Bool) (n v : ℕ) : (hostBytes little n v).length = n := by
  cases little <;> simp [hostBytes]

theorem beVal_concat (bs : Bytes) (b : BitVec 8) :
    beVal (bs ++ [b]) = beVal bs * 256 + b.toNat := by
  simp [beVal]

theorem beVal_beBytes (n v : ℕ) : beVal (beBytes n v) = v % 256 ^ n := by
  induction n generalizing v with
  | zero => simp [beBytes, beVal, Nat.mod_one]
  | succ n ih =>
    rw [beBytes, beVal_concat, ih, BitVec.toNat_ofNat, Nat.pow_succ 256, Nat.mul_comm (256 ^ n),
      Nat.mod_mul]
    omega

variable {n v : ℕ} {f : Out → Option Out} {a b bs : Bytes}

theorem beVal_beBytes_of_lt (h : v < 256 ^ n) : beVal (beBytes n v) = v := by
  rw [beVal_beBytes, Nat.mod_eq_of_lt h]

theorem hostVal_hostBytes (little : Bool) (h : v < 256 ^ n) :
    hostVal little (hostBytes little n v) = v := by
  cases little
  · exact beVal_beBytes_of_lt h
  · simp only [hostVal, hostBytes, if_true, reverse_reverse]
    exact beVal_beBytes_of_lt h

/-! ## Strings -/

/-- A string without its terminating zero byte. -/
@[ext] structure CStr where
  bytes : Bytes
  zero_notMem : (0 : BitVec 8) ∉ bytes
  deriving DecidableEq

/-- `strlen` -/
def CStr.length (s : CStr) : ℕ := s.bytes.length

/-- The empty string. -/
def CStr.empty : CStr := ⟨[], by simp⟩

/-- The string at the front of some bytes: what comes before the first zero byte. -/
def cstr (bs : Bytes) : CStr :=
  ⟨bs.takeWhile (· ≠ 0), fun h => by simpa using List.mem_takeWhile_imp h⟩

variable (s : CStr)

theorem CStr.ne_zero {b : BitVec 8} (hb : b ∈ s.bytes) : b ≠ 0 := by
  rintro rfl
  exact s.zero_notMem hb

/-- A string is read back up to its terminator, whatever follows. -/
theorem cstr_append (rest : Bytes) : cstr (s.bytes ++ 0 :: rest) = s := by
  apply CStr.ext
  change (s.bytes ++ 0 :: rest).takeWhile (· ≠ 0) = s.bytes
  rw [takeWhile_append_of_pos fun b hb => by simpa using s.ne_zero hb]
  simp

@[simp] theorem cstr_bytes : cstr s.bytes = s := by
  apply CStr.ext
  change s.bytes.takeWhile (· ≠ 0) = s.bytes
  rw [takeWhile_eq_self_iff]
  intro b hb
  simpa using s.ne_zero hb

/-! ## Writing -/

/-- A buffer that is written front to back: what was written and the room that is left. -/
structure Out where
  bytes : Bytes
  handy : ℕ

/-- Append bytes, or fail when there is no room for all of them. -/
def Out.put (o : Out) (bs : Bytes) : Option Out :=
  if bs.length ≤ o.handy then some ⟨o.bytes ++ bs, o.handy - bs.length⟩ else none

/-- Zero `n` bytes that were written from `off` on. -/
def Out.bzero (o : Out) (off n : ℕ) : Out :=
  { o with bytes := o.bytes.take off ++ List.replicate n 0 ++ o.bytes.drop (off + n) }

/-- `f` writes `bs`. -/
def Writes (f : Out → Option Out) (bs : Bytes) : Prop := ∀ o, f o = o.put bs

@[simp] theorem Out.put_nil (o : Out) : o.put [] = some o := by
  simp [Out.put]

theorem Out.put_put (o : Out) (a b : Bytes) : (o.put a).bind (·.put b) = o.put (a ++ b) := by
  by_cases ha : a.length ≤ o.handy
  · by_cases hb : b.length ≤ o.handy - a.length
    · have hab : (a ++ b).length ≤ o.handy := by simp; omega
      simp only [Out.put, if_pos ha, if_pos hb, if_pos hab, bind_some]
      simp [Nat.sub_add_eq]
    · have hab : ¬ (a ++ b).length ≤ o.handy := by simp; omega
      simp only [Out.put, if_pos ha, if_neg hb, if_neg hab, bind_some]
  · have hab : ¬ (a ++ b).length ≤ o.handy := by simp; omega
    simp only [Out.put, if_neg ha, if_neg hab, bind_none]

/-- Zeroing a part in the middle. -/
theorem Out.bzero_middle (a b c : Bytes) (handy : ℕ) {off : ℕ} (hoff : a.length = off)
    (hn : b.length = n) :
    Out.bzero ⟨a ++ (b ++ c), handy⟩ off n = ⟨a ++ (replicate n 0 ++ c), handy⟩ := by
  subst hoff hn
  have hdrop : (a ++ (b ++ c)).drop (a.length + b.length) = c := by
    rw [← append_assoc, ← length_append, drop_left]
  simp only [Out.bzero, take_left, hdrop, append_assoc]

theorem writes_put (bs : Bytes) : Writes (·.put bs) bs := fun _ => rfl

theorem writes_nil : Writes some [] := fun o => (o.put_nil).symm

theorem Writes.bind {g : Out → Option Out} (hf : Writes f a) (hg : Writes g b) :
    Writes (fun o => (f o).bind g) (a ++ b) := by
  intro o
  have hg' : g = (·.put b) := funext hg
  change (f o).bind g = o.put (a ++ b)
  rw [hf o, hg', Out.put_put]

theorem Writes.congr (hf : Writes f a) (h : a = b) :
    Writes f b := h ▸ hf

theorem Writes.of_eq {g : Out → Option Out} (hf : Writes f bs) (h : ∀ o, g o = f o) :
    Writes g bs := fun o => (h o).trans (hf o)

/-- The bytes a writer writes are determined by what it does on a large buffer. -/
theorem Writes.unique (ha : Writes f a) (hb : Writes f b) : a = b := by
  have h := (ha ⟨[], a.length + b.length⟩).symm.trans (hb ⟨[], a.length + b.length⟩)
  have hab : a = b ∧ b.length = a.length := by simpa [Out.put] using h
  exact hab.1

/-! ## Items -/

/-- Whole words that hold `n` bytes, in bytes. -/
def align4 (n : ℕ) : ℕ := (n + 3) / 4 * 4

/-- Bytes padded to whole words. -/
def opaqueBytes (bs : Bytes) : Bytes := bs ++ List.replicate (align4 bs.length - bs.length) 0

/-- A string: its length and its bytes. -/
def stringBytes (s : CStr) : Bytes := beBytes 4 s.length ++ opaqueBytes s.bytes

/-- Take `n` bytes off the front. -/
def getBytes (n : ℕ) (s : Bytes) : Option (Bytes × Bytes) :=
  if n ≤ s.length then some (s.take n, s.drop n) else none

/-- `xdr_int`, `xdr_u_int` -/
def getInt (s : Bytes) : Option (ℕ × Bytes) := do
  let (b, s) ← getBytes 4 s
  some (beVal b, s)

/-- `xdr_opaque` -/
def getOpaque (n : ℕ) (s : Bytes) : Option (Bytes × Bytes) := do
  let (b, s) ← getBytes n s
  let (_, s) ← getBytes (align4 n - n) s
  some (b, s)

/-- `xdr_string` for at most `max` bytes; the bytes may not hold a zero byte. -/
def getString (max : ℕ) (s : Bytes) : Option (CStr × Bytes) := do
  let (size, s) ← getInt s
  if max < size then none
  let (b, s) ← getOpaque size s
  if (cstr b).length ≠ size then none
  some (cstr b, s)

/-- `n` items in a row. -/
def getList {α : Type} (item : Bytes → Option (α × Bytes)) : ℕ → Bytes → Option (List α × Bytes)
  | 0, s => some ([], s)
  | n + 1, s => do
    let (a, s) ← item s
    let (as, s) ← getList item n s
    some (a :: as, s)

/-- `xdr_array` for at most `max` elements. -/
def getArray {α : Type} (item : Bytes → Option (α × Bytes)) (max : ℕ) (s : Bytes) :
    Option (List α × Bytes) := do
  let (c, s) ← getInt s
  if max < c then none
  getList item c s

theorem align4_spec (n : ℕ) : n ≤ align4 n ∧ align4 n < n + 4 ∧ align4 n % 4 = 0 := by
  rw [align4]
  omega

@[simp] theorem length_opaqueBytes (bs : Bytes) : (opaqueBytes bs).length = align4 bs.length := by
  have := align4_spec bs.length
  simp [opaqueBytes]
  omega

@[simp] theorem length_stringBytes : (stringBytes s).length = 4 + align4 s.length := by
  simp [stringBytes, CStr.length]

theorem getBytes_append (h : bs.length = n) (s : Bytes) : getBytes n (bs ++ s) = some (bs, s) := by
  have hle : n ≤ (bs ++ s).length := by simp; omega
  rw [getBytes, if_pos hle, take_left' h, drop_left' h]

theorem getInt_append (h : v < 2 ^ 32) (s : Bytes) : getInt (beBytes 4 v ++ s) = some (v, s) := by
  have hv : v < 256 ^ 4 := by omega
  simp [getInt, getBytes_append (length_beBytes 4 v), beVal_beBytes_of_lt hv]

theorem getOpaque_append (h : bs.length = n) (s : Bytes) :
    getOpaque n (opaqueBytes bs ++ s) = some (bs, s) := by
  subst h
  rw [opaqueBytes, append_assoc, getOpaque, getBytes_append rfl]
  simp [getBytes_append (length_replicate (n := align4 bs.length - bs.length))]

theorem getString_append {max : ℕ} {str : CStr} (h : str.length ≤ max) (h32 : str.length < 2 ^ 32)
    (s : Bytes) : getString max (stringBytes str ++ s) = some (str, s) := by
  rw [stringBytes, append_assoc, getString, getInt_append h32]
  simp only [bind_eq_bind, bind_some, if_neg (not_lt.mpr h)]
  rw [getOpaque_append (n := str.length) rfl]
  simp

section

variable {α : Type} {item : Bytes → Option (α × Bytes)} {bytes : α → Bytes} {as : List α}
  (h : ∀ a ∈ as, ∀ s, item (bytes a ++ s) = some (a, s))

include h

/-- Items in a row are read back when each item is. -/
theorem getList_append (s : Bytes) :
    getList item as.length (as.flatMap bytes ++ s) = some (as, s) := by
  induction as with
  | nil => rfl
  | cons a as ih =>
    rw [flatMap_cons, append_assoc, length_cons, getList, h a (mem_cons_self ..)]
    simp only [bind_eq_bind, bind_some]
    rw [ih fun a' ha' => h a' (mem_cons_of_mem _ ha')]
    rfl

theorem getArray_append {max : ℕ} (hmax : as.length ≤ max) (h32 : as.length < 2 ^ 32) (s : Bytes) :
    getArray item max (beBytes 4 as.length ++ as.flatMap bytes ++ s) = some (as, s) := by
  rw [append_assoc, getArray, getInt_append h32]
  simp only [bind_eq_bind, bind_some, if_neg (not_lt.mpr hmax)]
  exact getList_append h s

end

end Polaris.Xdr
