import Polaris.Lib.Memory

/-!
# Zeroing and copying memory in the PowerPC kernel

`bzero`, `ovbcopy`, `bcopy` and `copystr` of `os/copy.c` over a memory of 32-bit addresses.  The
loops are written as they run: a loop that counts `cnt` down returns the memory together with what
its pointers and its count have become.  Word accesses need no alignment, as on the hardware.

## Main definitions

* `bzero32`, `bzero` — zeroing.
* `bcopy32`, `ovbcopy`, `bcopy` — copying.
* `copystr`, `copystrNofault` — copying a string.
* `Zeroed` — what `bzero` is for; what the copies are for is `Mem.Moved`.
-/

namespace Polaris

open Mem
open BitVec hiding fill not_or

/-! ## The routines -/

/-- The loop of `bzero32`. -/
def bzero32 : ℕ → Mem 32 → BitVec 32 → Mem 32
  | 0, m, _ => m
  | wcnt + 1, m, addr => bzero32 wcnt (m.store32 addr 0#32) (off addr 4)

/-- `while (cnt != 0) { *buf++ = 0; --cnt; }`: the memory, `buf` and `cnt` after it. -/
def bzeroBytes : ℕ → Mem 32 → BitVec 32 → Mem 32 × BitVec 32 × ℕ
  | 0, m, buf => (m, buf, 0)
  | cnt + 1, m, buf => bzeroBytes cnt (m.store8 buf 0#8) (off buf 1)

def bzero (m : Mem 32) (addr _count : BitVec 32) : Mem 32 :=
  -- `cnt` is the phase of the address, and it is what is left of it that the word loop gets
  let (m, buf, cnt) := bzeroBytes (addr &&& 3#32).toNat m addr
  let (m, cnt) :=
    if 4 ≤ cnt then
      let wcnt := cnt / 4
      (bzero32 wcnt m buf, cnt - wcnt * 4)
    else (m, cnt)
  (bzeroBytes cnt m buf).1

/-- `*to = *from` for words. -/
def copyWord (m : Mem 32) (src dst : BitVec 32) : Mem 32 :=
  m.store32 dst (m.load32 src)

/-- One round of the unrolled loop of `bcopy32`. -/
def copyFourWords (m : Mem 32) (myfrom myto : BitVec 32) : Mem 32 :=
  let m := copyWord m (off myfrom 0) (off myto 0)
  let m := copyWord m (off myfrom 4) (off myto 4)
  let m := copyWord m (off myfrom 8) (off myto 8)
  copyWord m (off myfrom 12) (off myto 12)

/-- The unrolled loop of `bcopy32`, with the word count it leaves.  It does not move its pointers.
-/
def bcopy32Unrolled (myfrom myto : BitVec 32) : ℕ → Mem 32 → Mem 32 × ℕ
  | wcnt + 4, m => bcopy32Unrolled myfrom myto wcnt (copyFourWords m myfrom myto)
  | wcnt, m => (m, wcnt)

/-- The second loop of `bcopy32`. -/
def bcopy32Words : ℕ → Mem 32 → BitVec 32 → BitVec 32 → Mem 32
  | 0, m, _, _ => m
  | wcnt + 1, m, myfrom, myto =>
    bcopy32Words wcnt (copyWord m myfrom myto) (off myfrom 4) (off myto 4)

def bcopy32 (m : Mem 32) (src dst : BitVec 32) (wcnt : ℕ) : Mem 32 :=
  let (m, wcnt) := bcopy32Unrolled src dst wcnt m
  bcopy32Words wcnt m src dst

/-- `while (cnt != 0) { *myto++ = *myfrom++; --cnt; }`: the memory and the pointers after it. -/
def copyBytes : ℕ → Mem 32 → BitVec 32 → BitVec 32 → Mem 32 × BitVec 32 × BitVec 32
  | 0, m, myfrom, myto => (m, myfrom, myto)
  | cnt + 1, m, myfrom, myto =>
    copyBytes cnt (m.store8 myto (m myfrom)) (off myfrom 1) (off myto 1)

def ovbcopy (m : Mem 32) (src dst count : BitVec 32) : Mem 32 :=
  let phaseFrom := src &&& 3#32
  let phaseTo := dst &&& 3#32
  if phaseTo = phaseFrom then
    let (m, myfrom, myto) := copyBytes phaseFrom.toNat m src dst
    let cnt := (count - phaseFrom).toNat
    if 4 ≤ cnt then
      let wcnt := cnt / 4
      let m := bcopy32 m myfrom myto wcnt
      (copyBytes (cnt - wcnt * 4) m myfrom myto).1
    else (copyBytes cnt m myfrom myto).1
  else (copyBytes count.toNat m src dst).1

def bcopy (m : Mem 32) (src dst count : BitVec 32) : Mem 32 :=
  ovbcopy m src dst count

/-! ## Zeroing -/

/-- In `m'` the `n` bytes at `a` are zero, and all other bytes are as in `m`. -/
structure Zeroed (m m' : Mem 32) (a : BitVec 32) (n : ℕ) : Prop where
  zero : ∀ k < n, m' (off a k) = 0#8
  frame : ∀ x, (∀ k < n, x ≠ off a k) → m' x = m x

variable (m : Mem 32)

theorem bzeroBytes_eq (cnt : ℕ) (m : Mem 32) (buf : BitVec 32) :
    bzeroBytes cnt m buf = (fill 0#8 cnt m buf, off buf cnt, 0) := by
  induction cnt generalizing m buf with
  | zero => simp [bzeroBytes, fill]
  | succ cnt ih => rw [bzeroBytes, ih, fill, off_off, Nat.add_comm]

/-- `bzero` looks at its count nowhere: it zeroes as many bytes as its address is past a word. -/
theorem bzero_eq (addr count : BitVec 32) :
    bzero m addr count = fill 0#8 (addr.toNat % 4) m addr := by
  rw [bzero, bzeroBytes_eq, toNat_and_three]
  rfl

/-- Zeroing `p` bytes in place of `n`. -/
theorem zeroed_fill_iff {n p : ℕ} (hn : n < 2 ^ 32) (hp : p < 2 ^ 32) (m : Mem 32) (a : BitVec 32) :
    Zeroed m (fill 0#8 p m a) a n ↔ ∀ k, min n p ≤ k → k < max n p → m (off a k) = 0#8 := by
  have hin {j k : ℕ} (hj : j < 2 ^ 32) (hk : k < 2 ^ 32) : off a k = off a j ↔ k = j :=
    ⟨off_injective a hk hj, fun h => h ▸ rfl⟩
  have hfill {k : ℕ} (hk : k < 2 ^ 32) :
      fill 0#8 p m a (off a k) = if k < p then 0#8 else m (off a k) := by
    rw [fill_apply]
    refine if_congr ⟨fun ⟨j, hj, heq⟩ => ?_, fun h => ⟨k, h, rfl⟩⟩ rfl rfl
    rwa [(hin (by omega) hk).mp heq]
  constructor
  · intro h k hmin hmax
    by_cases hkn : k < n
    · have hzero := h.zero k hkn
      rwa [hfill (by omega), if_neg (by omega)] at hzero
    · rw [← h.frame (off a k), hfill (by omega), if_pos (by omega)]
      intro j hj heq
      have := (hin (by omega) (by omega)).mp heq
      omega
  · intro h
    constructor
    · intro k hk
      rw [hfill (by omega)]
      split
      next => rfl
      next hkp => exact h k (by omega) (by omega)
    · intro x hx
      rw [fill_apply]
      split
      next hex =>
        obtain ⟨k, hk, rfl⟩ := hex
        have hkn : ¬ k < n := fun hlt => hx k hlt rfl
        exact (h k (by omega) (by omega)).symm
      next => rfl

/-- **What `bzero` zeroes.**  It does what it is for exactly when the bytes that lie in one of the
two ranges, the one asked for and the one as long as the phase of the address, but not in the other
are zero already; whatever the memory holds, only if the count is that phase. -/
theorem bzero_zeroed_iff (addr count : BitVec 32) :
    (∀ m, Zeroed m (bzero m addr count) addr count.toNat ↔
      ∀ k, min count.toNat (addr.toNat % 4) ≤ k → k < max count.toNat (addr.toNat % 4) →
        m (off addr k) = 0#8) ∧
    ((∀ m, Zeroed m (bzero m addr count) addr count.toNat) ↔ count.toNat = addr.toNat % 4) := by
  have hcount := count.isLt
  have hiff (m : Mem 32) := zeroed_fill_iff hcount (by omega : addr.toNat % 4 < 2 ^ 32) m addr
  simp only [bzero_eq]
  refine ⟨hiff, fun h => ?_, fun heq m => (hiff m).mpr fun k hmin hmax => by omega⟩
  by_contra hne
  -- a memory without a zero byte
  have hone := (hiff fun _ => 1#8).mp (h _) (min count.toNat (addr.toNat % 4)) le_rfl (by omega)
  exact absurd hone (by decide)

/-- Four bytes at a word boundary stay as they are. -/
theorem not_zeroed_bzero_word :
    ¬ Zeroed (fun _ => 1#8) (bzero (fun _ => 1#8) 0x1000#32 4#32) 0x1000#32 4 :=
  fun h => absurd (h.zero 0 (by decide)) (by decide)

/-! ## Copying -/

variable (src dst : BitVec 32)

theorem copyBytes_eq (cnt : ℕ) (m : Mem 32) (src dst : BitVec 32) :
    copyBytes cnt m src dst = (copy cnt m src dst, off src cnt, off dst cnt) := by
  induction cnt generalizing m src dst with
  | zero => simp [copyBytes, copy]
  | succ cnt ih => rw [copyBytes, ih, copy, off_off, off_off, Nat.add_comm]

/-- Moving both pointers keeps them as far apart as they are. -/
theorem off_sub_off (k : ℕ) : off dst k - off src k = dst - src := by
  rw [off, off]
  bv_omega

section Words

variable {src dst : BitVec 32} (h : src = dst ∨ 4 ≤ (dst - src).toNat)

include h

theorem copyWord_eq (m : Mem 32) (k : ℕ) :
    copyWord m (off src k) (off dst k) = copy 4 m (off src k) (off dst k) := by
  refine store32_load32 m ?_
  rw [off_sub_off]
  exact h.imp (congrArg (off · k)) id

theorem copyFourWords_eq (m : Mem 32) : copyFourWords m src dst = copy 16 m src dst := by
  rw [copyFourWords, copyWord_eq h, copyWord_eq h, copyWord_eq h, copyWord_eq h, off_zero, off_zero,
    copy_add 4 12, copy_add 4 8, copy_add 4 4, off_off, off_off, off_off, off_off]

theorem bcopy32Words_eq (wcnt : ℕ) (m : Mem 32) (j : ℕ) :
    bcopy32Words wcnt m (off src j) (off dst j) = copy (4 * wcnt) m (off src j) (off dst j) := by
  induction wcnt generalizing m j with
  | zero => rfl
  | succ wcnt ih =>
    rw [bcopy32Words, copyWord_eq h, off_off, off_off, ih, Nat.mul_succ, Nat.add_comm (4 * wcnt) 4,
      copy_add, off_off, off_off]

/-- The unrolled loop writes the same four words in every round. -/
theorem bcopy32Unrolled_frame (wcnt : ℕ) (m : Mem 32) {a : BitVec 32}
    (ha : 4 ≤ wcnt → ∀ k < 16, a ≠ off dst k) :
    (bcopy32Unrolled src dst wcnt m).1 a = m a ∧ (bcopy32Unrolled src dst wcnt m).2 = wcnt % 4 := by
  fun_induction bcopy32Unrolled src dst wcnt m with
  | case1 wcnt m ih =>
    have hround := ha (Nat.le_add_left 4 wcnt)
    obtain ⟨hmem, hcnt⟩ := ih fun _ => hround
    rw [hmem, hcnt, copyFourWords_eq h, copy_frame 16 m src dst hround]
    exact ⟨rfl, by omega⟩
  | case2 wcnt m hlt =>
    refine ⟨rfl, (Nat.mod_eq_of_lt ?_).symm⟩
    by_contra hge
    exact hlt (wcnt - 4) (by omega)

/-- No more than four words are written. -/
theorem bcopy32_frame (wcnt : ℕ) (m : Mem 32) {a : BitVec 32}
    (ha : ∀ k < min 16 (4 * wcnt), a ≠ off dst k) : bcopy32 m src dst wcnt a = m a := by
  obtain ⟨hmem, hcnt⟩ := bcopy32Unrolled_frame h wcnt m (a := a) fun h4 k hk => ha k (by omega)
  have hwords := bcopy32Words_eq h (bcopy32Unrolled src dst wcnt m).2
    (bcopy32Unrolled src dst wcnt m).1 0
  rw [off_zero, off_zero] at hwords
  rw [bcopy32]
  dsimp only
  rw [hwords, hcnt, copy_frame _ _ _ _ fun k hk => ha k (by omega), hmem]

/-- Up to four words are copied. -/
theorem bcopy32_eq {wcnt : ℕ} (hw : wcnt ≤ 4) (m : Mem 32) :
    bcopy32 m src dst wcnt = copy (4 * wcnt) m src dst := by
  have hwords (wcnt : ℕ) (m : Mem 32) := bcopy32Words_eq h wcnt m 0
  simp only [off_zero] at hwords
  match wcnt, hw with
  | 0, _ => rfl
  | 1, _ | 2, _ | 3, _ =>
    rw [bcopy32, bcopy32Unrolled]
    · exact hwords _ m
    · omega
  | 4, _ =>
    rw [bcopy32, bcopy32Unrolled, bcopy32Unrolled]
    · exact copyFourWords_eq h m
    · omega

end Words

theorem bcopy32_self (wcnt : ℕ) (m : Mem 32) : bcopy32 m src src wcnt = m := by
  have hunrolled : (bcopy32Unrolled src src wcnt m).1 = m := by
    fun_induction bcopy32Unrolled src src wcnt m with
    | case1 wcnt m ih => rw [ih, copyFourWords_eq (.inl rfl), copy_self]
    | case2 wcnt m hlt => rfl
  have hwords := bcopy32Words_eq (.inl rfl : src = src ∨ _) (bcopy32Unrolled src src wcnt m).2 m 0
  rw [off_zero, copy_self] at hwords
  rw [bcopy32]
  dsimp only
  rw [hunrolled, hwords]

theorem ovbcopy_self (count : BitVec 32) : ovbcopy m src src count = m := by
  simp only [ovbcopy, copyBytes_eq, copy_self, bcopy32_self, ite_self]

/-- The counts `ovbcopy` serves when both addresses have the phase `p`: the first bytes and no whole
word, or the first bytes and up to four words. -/
def WholeWords (p count : ℕ) : Prop :=
  p ≤ count ∧ (count - p < 4 ∨ (count - p) % 4 = 0 ∧ count - p ≤ 16)

section Phase

variable {src dst : BitVec 32}

theorem toNat_sub_phase {count : BitVec 32} (hle : src.toNat % 4 ≤ count.toNat) :
    (count - (src &&& 3#32)).toNat = count.toNat - src.toNat % 4 := by
  rw [toNat_sub_of_le, toNat_and_three]
  rwa [le_def, toNat_and_three]

/-- Addresses of one phase are some words apart. -/
theorem words_apart (h : dst.toNat % 4 = src.toNat % 4) : src = dst ∨ 4 ≤ (dst - src).toNat := by
  by_contra hnear
  obtain ⟨hne, hlt⟩ := not_or.mp hnear
  refine hne (eq_of_toNat_eq ?_)
  rw [toNat_sub] at hlt
  omega

theorem off_words_apart (h : dst.toNat % 4 = src.toNat % 4) (k : ℕ) :
    off src k = off dst k ∨ 4 ≤ (off dst k - off src k).toNat := by
  rw [off_sub_off]
  exact (words_apart h).imp (congrArg (off · _)) id

/-- When `ovbcopy` copies its bytes upwards. -/
theorem ovbcopy_eq_copy {count : BitVec 32}
    (h : dst.toNat % 4 = src.toNat % 4 → WholeWords (src.toNat % 4) count.toNat) :
    ovbcopy m src dst count = copy count.toNat m src dst := by
  rw [ovbcopy]
  simp only [copyBytes_eq, ← toNat_inj, toNat_and_three]
  split
  next hphase =>
    have hapart := off_words_apart hphase (src.toNat % 4)
    obtain ⟨hle, hwhole⟩ := h hphase
    rw [toNat_sub_phase hle]
    split
    next h4 =>
      have hw : 4 * ((count.toNat - src.toNat % 4) / 4) = count.toNat - src.toNat % 4 := by omega
      rw [bcopy32_eq hapart (by omega), hw, Nat.mul_comm _ 4, hw, Nat.sub_self, copy, ← copy_add,
        Nat.add_sub_cancel' hle]
    next => rw [← copy_add, Nat.add_sub_cancel' hle]
  next => rfl

section Broken

variable (hphase : dst.toNat % 4 = src.toNat % 4)

include hphase

/-- After the first bytes, up to a whole word is copied, or up to four words. -/
theorem ovbcopy_frame (m : Mem 32) {count a : BitVec 32}
    (ha : ∀ k, (k < min 16 (4 * ((count - (src &&& 3#32)).toNat / 4)) ∨
      k < (count - (src &&& 3#32)).toNat ∧ k < 4) → a ≠ off dst (src.toNat % 4 + k)) :
    ovbcopy m src dst count a = copy (src.toNat % 4) m src dst a := by
  have hapart := off_words_apart hphase (src.toNat % 4)
  have hand : dst &&& 3#32 = src &&& 3#32 := by
    rw [← toNat_inj, toNat_and_three, toNat_and_three, hphase]
  simp only [← off_off] at ha
  simp only [ovbcopy, if_pos hand, copyBytes_eq, toNat_and_three]
  generalize (count - (src &&& 3#32)).toNat = cnt at ha
  split
  next h4 =>
    rw [copy_frame _ _ _ _ fun k hk => ha k (by omega),
      bcopy32_frame hapart _ _ fun k hk => ha k (by omega)]
  next h4 => exact copy_frame cnt _ _ _ fun k hk => ha k (by omega)

/-- Otherwise a byte past the end is written, or the last byte is not. -/
theorem exists_not_moved (hne : src ≠ dst) {count : BitVec 32}
    (hcount : ¬ WholeWords (src.toNat % 4) count.toNat) :
    ∃ m, ¬ Moved m (ovbcopy m src dst count) src dst count.toNat := by
  have hoff (k : ℕ) : off dst k ≠ off src k := fun heq =>
    hne ((BitVec.add_left_inj (BitVec.ofNat 32 k)).mp heq).symm
  have hfar {j k : ℕ} (hj : j < 2 ^ 32) (hk : k < 2 ^ 32) (hjk : j ≠ k) : off dst j ≠ off dst k :=
    fun heq => hjk (off_injective dst hj hk heq)
  by_cases hle : src.toNat % 4 ≤ count.toNat
  · have hcnt := toNat_sub_phase hle
    rw [WholeWords] at hcount
    refine ⟨fun x => if x = off src (count.toNat - 1) then 1#8 else 0#8, fun hmoved => ?_⟩
    have hlast := hmoved.copied (count.toNat - 1) (by omega)
    rw [ovbcopy_frame hphase _ fun k hk => hfar (by omega) (by omega) (by omega),
      copy_frame _ _ _ _ fun k hk => hfar (by omega) (by omega) (by omega), if_pos rfl,
      if_neg (hoff _)] at hlast
    exact absurd hlast (by decide)
  · refine ⟨fun x => if x = off src count.toNat then 1#8 else 0#8, fun hmoved => ?_⟩
    have hpast := hmoved.frame (off dst count.toNat) fun k hk => hfar (by omega)
      (by omega) (by omega)
    have hd := (words_apart hphase).resolve_left hne
    rw [ovbcopy_frame hphase _ fun k hk => hfar (by omega) (by omega) (by omega),
      copy_apply (by omega) _ hne (by omega), Nat.mod_eq_of_lt (by omega), if_pos rfl,
      if_neg (hoff _)] at hpast
    exact absurd hpast (by decide)

end Broken

end Phase

/-- **What `ovbcopy` and `bcopy` move.**  Whatever the memory holds, they do what they are for
exactly when source and destination are the same, or the destination does not begin inside the
source and, if both have the same phase, the count is one of the few that are served. -/
theorem ovbcopy_moved_iff (src dst count : BitVec 32) :
    ((∀ m, Moved m (ovbcopy m src dst count) src dst count.toNat) ↔
      src = dst ∨ count.toNat ≤ (dst - src).toNat ∧
        (dst.toNat % 4 = src.toNat % 4 → WholeWords (src.toNat % 4) count.toNat)) ∧
    ((∀ m, Moved m (bcopy m src dst count) src dst count.toNat) ↔
      src = dst ∨ count.toNat ≤ (dst - src).toNat ∧
        (dst.toNat % 4 = src.toNat % 4 → WholeWords (src.toNat % 4) count.toNat)) := by
  refine and_self_iff.mpr ?_
  by_cases hne : src = dst
  · subst hne
    simp only [ovbcopy_self, true_or, iff_true]
    exact fun m => ⟨fun _ _ => rfl, fun _ _ => rfl⟩
  rw [or_iff_right hne]
  by_cases hwhole : dst.toNat % 4 = src.toNat % 4 → WholeWords (src.toNat % 4) count.toNat
  · simp only [ovbcopy_eq_copy _ hwhole]
    rw [moved_copy_iff (Nat.le_of_lt count.isLt), or_iff_right hne]
    exact (and_iff_left hwhole).symm
  · obtain ⟨hphase, hcount⟩ := Classical.not_imp.mp hwhole
    obtain ⟨m, hm⟩ := exists_not_moved hphase hne hcount
    exact iff_of_false (fun h => hm (h m)) fun h => hwhole h.2

/-- Eight words: the last ones stay behind. -/
theorem not_moved_eight_words :
    ¬ ∀ m, Moved m (bcopy m 0x1000#32 0x2000#32 32#32) 0x1000#32 0x2000#32 32 := by
  intro h
  have hbyte := (h fun x => if x = 0x1010#32 then 1#8 else 0#8).copied 16 (by decide)
  exact absurd hbyte (by decide)

/-! ## Copying strings -/

/-- The loop of `copystr`, with the bytes it may still look at and `i`. -/
def copystrLoop : ℕ → Mem 32 → BitVec 32 → BitVec 32 → ℕ → Mem 32 × ℕ
  | 0, m, _, _, i => (m, i)
  | n + 1, m, myfrom, myto, i =>
    if m myfrom = 0#8 then (m, i)
    else copystrLoop n (m.store8 myto (m myfrom)) (off myfrom 1) (off myto 1) (i + 1)

/-- `copystr`: the memory after it and what it returns; `none` where it stores through a null
pointer. -/
def copystr (m : Mem 32) (src dst maxlength lencopied : BitVec 32) : Option (Mem 32 × BitVec 32) :=
  let (m, i) := copystrLoop maxlength.toNat m src dst 0
  if lencopied = 0#32 then none
  else some (m.store32 lencopied (BitVec.ofNat 32 i), BitVec.ofNat 32 i)

/-- `ENAMETOOLONG`. -/
def enametoolong : BitVec 32 := 78#32

/-- The loop of `copystr_nofault` with `leftover` to go: the memory, `leftover` and `error` after
it. -/
def nofaultLoop : ℕ → Mem 32 → BitVec 32 → BitVec 32 → Mem 32 × ℕ × BitVec 32
  | 0, m, _, _ => (m, 0, enametoolong)
  | leftover + 1, m, src, dst =>
    let m' := m.store8 dst (m src)
    if m src = 0#8 then (m', leftover, 0#32)
    else nofaultLoop leftover m' (off src 1) (off dst 1)

/-- `copystr_nofault` of `os/copy_subr.c`. -/
def copystrNofault (m : Mem 32) (src dst maxlength lencopied : BitVec 32) : Mem 32 × BitVec 32 :=
  let (m, leftover, error) := nofaultLoop maxlength.toNat m src dst
  if lencopied = 0#32 then (m, error)
  else (m.store32 lencopied (maxlength - BitVec.ofNat 32 leftover), error)

/-- The `i`-th byte of the string, as an upward copy finds it. -/
def strByte (m : Mem 32) (src dst : BitVec 32) (i : ℕ) : BitVec 8 :=
  copy i m src dst (off src i)

theorem strByte_succ (i : ℕ) :
    strByte (m.store8 dst (m src)) (off src 1) (off dst 1) i = strByte m src dst (i + 1) := by
  rw [strByte, strByte, copy, off_off, Nat.add_comm 1 i]

/-- Both loops meet the same bytes.  At a NUL the one stops before it and the other after it. -/
theorem copystr_loops (n : ℕ) (m : Mem 32) (src dst : BitVec 32) (i : ℕ) :
    (∀ j < n, strByte m src dst j ≠ 0#8) ∧
      copystrLoop n m src dst i = (copy n m src dst, i + n) ∧
      nofaultLoop n m src dst = (copy n m src dst, 0, enametoolong) ∨
    ∃ j < n, strByte m src dst j = 0#8 ∧
      copystrLoop n m src dst i = (copy j m src dst, i + j) ∧
      nofaultLoop n m src dst = (copy (j + 1) m src dst, n - (j + 1), 0#32) := by
  induction n generalizing m src dst i with
  | zero => exact .inl ⟨fun j hj => absurd hj (Nat.not_lt_zero j), rfl, rfl⟩
  | succ n ih =>
    rw [copystrLoop, nofaultLoop]
    by_cases hnul : m src = 0#8
    · refine .inr ⟨0, Nat.succ_pos n, by rwa [strByte, off_zero], ?_⟩
      rw [if_pos hnul, if_pos hnul]
      exact ⟨rfl, rfl⟩
    rw [if_neg hnul, if_neg hnul]
    rcases ih (m.store8 dst (m src)) (off src 1) (off dst 1) (i + 1) with
      ⟨hno, hloop, hnofault⟩ | ⟨j, hj, hzero, hloop, hnofault⟩
    · refine .inl ⟨fun j hj => ?_, ?_, ?_⟩
      · cases j with
        | zero => rwa [strByte, off_zero]
        | succ j => exact strByte_succ m src dst j ▸ hno j (by omega)
      · rw [hloop, copy, Nat.add_assoc, Nat.add_comm 1 n]
      · rw [hnofault, copy]
    · refine .inr ⟨j + 1, by omega, strByte_succ m src dst j ▸ hzero, ?_, ?_⟩
      · rw [hloop, copy, Nat.add_assoc, Nat.add_comm 1 j]
      · rw [hnofault, Nat.add_sub_add_right, ← copy]

/-- **When `copystr` is `copystr_nofault`.**  Only where the string is too long for a `maxlength`
that happens to be `ENAMETOOLONG`: `copystr` returns the count, and neither copies nor counts the
NUL. -/
theorem copystr_nofault_iff (m : Mem 32) (src dst maxlength lencopied : BitVec 32) :
    copystr m src dst maxlength lencopied = some (copystrNofault m src dst maxlength lencopied) ↔
      lencopied ≠ 0#32 ∧ maxlength = enametoolong ∧ ∀ i < 78, strByte m src dst i ≠ 0#8 := by
  by_cases hnull : lencopied = 0#32
  · simp [copystr, hnull]
  have hmax : maxlength = enametoolong ↔ maxlength.toNat = 78 := by rw [← toNat_inj]; rfl
  simp only [copystr, copystrNofault, ne_eq, hnull, if_false, not_false_eq_true, true_and,
    Option.some.injEq, Prod.mk.injEq]
  rcases copystr_loops maxlength.toNat m src dst 0 with
    ⟨hno, hloop, hnofault⟩ | ⟨j, hj, hzero, hloop, hnofault⟩
  · rw [hloop, hnofault]
    simp only [Nat.zero_add, ofNat_toNat, setWidth_eq, BitVec.sub_zero, true_and]
    refine ⟨fun h => ⟨h, ?_⟩, And.left⟩
    rwa [← hmax.mp h]
  rw [hloop, hnofault]
  refine iff_of_false (fun h => ?_) fun h => ?_
  · -- the counts differ, and are stored
    have hcount := congrArg (fun m : Mem 32 => m.load32 lencopied) h.1
    simp only [load32_store32 _ (by decide : 4 ≤ 2 ^ 32)] at hcount
    have hto := congrArg BitVec.toNat hcount
    rw [toNat_sub, toNat_ofNat, toNat_ofNat] at hto
    omega
  · exact h.2 j (hmax.mp h.1 ▸ hj) hzero

/-- An empty string: its NUL is not copied, and the count is 0. -/
theorem copystr_ne_nofault : copystr (fun _ => 0#8) 0x1000#32 0x2000#32 16#32 0x3000#32 ≠
    some (copystrNofault (fun _ => 0#8) 0x1000#32 0x2000#32 16#32 0x3000#32) := by
  intro h
  have hcount := congrArg (Option.map fun r => r.1.load32 0x3000#32) h
  exact absurd hcount (by decide)

end Polaris
