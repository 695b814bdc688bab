import Polaris.Bignum.Mul

/-!
# Results that are operands

The sum, the difference and the product of big numbers as they run on memory, where the object of
the result may be one of the operands and growing it may move its words.  Three objects are enough
for a call; which of them are the same is a matter of the names it is given.

`big_sub_pos` and `big_mul` take their pointers after the result has grown.  `big_add_abs` takes the
one of its second loop before: if the result is the longer operand and is moved, that loop reads
storage which has been given back.

## Main definitions

* `BigHeap`, `BigHeap.Valid`, `BigHeap.view` — objects in memory, and the number each of them stands
  for.
* `Growth` — what `big_extend` leaves behind.
* `bigAddAt`, `bigSubAt`, `bigMulAt`
* `BigOp.Stale` — the calls that read storage given back.
* `bigSubInto` — `big_sub` into its first operand, as the other routines use it.

## Main results

* `bignumAliased_iff` — the other calls, and no others, give what they give in a fresh object.
-/

namespace Polaris

open List BigNum Function

/-! ## Memory -/

/-- A `BIGNUM` in memory. -/
structure BigObj where
  size : ℕ
  len : ℕ
  neg : Bool
  malloced : Bool
  /-- The storage of its words. -/
  value : ℕ

/-- The words of each storage. -/
abbrev BigStore := ℕ → ℕ → BigWord

variable {m m' : BigStore} {p i n shorter longer : ℕ} {as bs : List BigWord}

namespace BigStore

def set (m : BigStore) (p i : ℕ) (w : BigWord) : BigStore :=
  fun q j => if q = p ∧ j = i then w else m q j

/-- `n` words, from the `i`th on. -/
def words (m : BigStore) (p i n : ℕ) : List BigWord := (List.range' i n).map (m p)

variable (m p)

theorem set_of_ne {j : ℕ} (w : BigWord) (q : ℕ) (h : j ≠ i) :
    m.set p i w q j = m q j := if_neg fun hij => h hij.2

variable (i n)

@[simp] theorem set_same (w : BigWord) : m.set p i w p i = w := if_pos ⟨rfl, rfl⟩

@[simp] theorem words_zero : m.words p i 0 = [] := rfl

theorem words_succ : m.words p i (n + 1) = m p i :: m.words p (i + 1) n := rfl

@[simp] theorem length_words : (m.words p i n).length = n := by
  rw [words, length_map, length_range']

theorem words_add (k : ℕ) : m.words p i (n + k) = m.words p i n ++ m.words p (i + n) k := by
  induction n generalizing i with
  | zero => simp
  | succ n ih =>
    rw [Nat.succ_add, words_succ, words_succ, ih, cons_append, Nat.add_right_comm, Nat.add_assoc]

theorem words_split {n k : ℕ} (h : k ≤ n) :
    m.words p 0 n = m.words p 0 k ++ m.words p k (n - k) := by
  have hadd := m.words_add p 0 k (n - k)
  rwa [Nat.add_sub_cancel' h, Nat.zero_add] at hadd

variable {m p i n} in
theorem words_congr {q : ℕ} (h : ∀ j, i ≤ j → j < i + n → m p j = m' q j) :
    m.words p i n = m'.words q i n := by
  refine map_congr_left ?_
  intro j hj
  obtain ⟨hle, hlt⟩ := mem_range'_1.mp hj
  exact h j hle hlt

theorem words_set_above (w : BigWord) (q n : ℕ) :
    (m.set p i w).words q (i + 1) n = m.words q (i + 1) n := by
  refine words_congr ?_
  intro j hle _
  exact m.set_of_ne p w q (by omega)

end BigStore

open BigStore

/-- What may be written: the words of one storage from the `i`th on, `n` of them. -/
def OnlyWrites (m m' : BigStore) (p i n : ℕ) : Prop :=
  ∀ q j, (q ≠ p ∨ j < i ∨ i + n ≤ j) → m' q j = m q j

theorem OnlyWrites.refl (m : BigStore) (p i n : ℕ) : OnlyWrites m m p i n := fun _ _ _ => rfl

theorem OnlyWrites.step {w : BigWord} (h : OnlyWrites (m.set p i w) m' p (i + 1) n) :
    OnlyWrites m m' p i (n + 1) := by
  intro q j hj
  rw [h q j (by omega)]
  refine if_neg ?_
  rintro ⟨rfl, rfl⟩
  omega

/-- The first word written stays. -/
theorem OnlyWrites.words_first {w : BigWord} (h : OnlyWrites (m.set p i w) m' p (i + 1) n) (k : ℕ) :
    m'.words p i (k + 1) = w :: m'.words p (i + 1) k := by
  rw [words_succ, h p i (.inr (.inl (Nat.lt_succ_self i))), set_same]

/-- The words below those written are as they were. -/
theorem OnlyWrites.words_below (h : OnlyWrites m m' p i n) (q : ℕ) :
    m'.words q 0 i = m.words q 0 i := by
  refine words_congr ?_
  intro j _ hlt
  exact h q j (.inr (.inl (by omega)))

/-- So are those above. -/
theorem OnlyWrites.words_above (h : OnlyWrites m m' p 0 n) (q k : ℕ) :
    m'.words q n k = m.words q n k := by
  refine words_congr ?_
  intro j hle _
  exact h q j (.inr (.inr (by omega)))

/-- Three objects in memory. -/
structure BigHeap where
  obj : Fin 3 → BigObj
  store : BigStore
  /-- Where storage not in use starts. -/
  next : ℕ

namespace BigHeap

/-- The number an object stands for. -/
def view (h : BigHeap) (x : Fin 3) : BigNum :=
  ⟨(h.obj x).size, (h.obj x).neg, h.store.words (h.obj x).value 0 (h.obj x).len⟩

/-- Each object has storage of its own for its words. -/
structure Valid (h : BigHeap) : Prop where
  len_le : ∀ x, (h.obj x).len ≤ (h.obj x).size
  used : ∀ x, (h.obj x).value < h.next
  apart : ∀ x y, (h.obj x).value = (h.obj y).value → x = y

/-- The memory after an operation has written its result. -/
def put (h : BigHeap) (r : Fin 3) (store : BigStore) (len : ℕ) (neg : Bool) : BigHeap :=
  { h with
    store := store
    obj := update h.obj r { h.obj r with len := len, neg := neg } }

variable (h : BigHeap) (r x : Fin 3)

@[simp] theorem length_view : (h.view x).value.length = (h.obj x).len :=
  h.store.length_words _ _ _

theorem neg_view : (h.view x).neg = (h.obj x).neg := rfl

@[simp] theorem view_put (store : BigStore) (len : ℕ) (neg : Bool) :
    (h.put r store len neg).view r = ⟨(h.obj r).size, neg, store.words (h.obj r).value 0 len⟩ := by
  simp [view, put]

/-- `result->sign = …`. -/
def setSign (h : BigHeap) (r : Fin 3) (neg : Bool) : BigHeap :=
  { h with obj := update h.obj r { h.obj r with neg := neg } }

@[simp] theorem view_setSign (neg : Bool) :
    (h.setSign r neg).view r = { h.view r with neg := neg } := by
  simp [view, setSign]

end BigHeap

open BigHeap

/-! ## Growing -/

/-- What an allocation does that nobody decides. -/
structure Growth where
  /-- The storage is made larger where it is. -/
  inPlace : Bool
  /-- The words above the old ones. -/
  above : ℕ → BigWord
  /-- What is found in storage that has been given back. -/
  freed : ℕ → BigWord

/-- `big_extend`, when there is memory. -/
def bigExtendAt (g : Growth) (h : BigHeap) (number : Fin 3) (size : ℕ) : BigHeap :=
  let n := h.obj number
  let grown : ℕ → BigWord := fun i => if i < n.size then h.store n.value i else g.above i
  if n.size ≥ size then h
  else if n.malloced = true ∧ g.inPlace = true then
    { h with
      obj := update h.obj number { n with size := size }
      store := update h.store n.value grown }
  else
    { obj := update h.obj number { n with size := size, malloced := true, value := h.next }
      store := update (if n.malloced = true then update h.store n.value g.freed else h.store)
        h.next grown
      next := h.next + 1 }

section Extend

variable (g : Growth) {h : BigHeap} (hv : h.Valid) (r : Fin 3) (size : ℕ)

/-- Growing changes neither lengths nor signs. -/
theorem shape_bigExtendAt (h : BigHeap) (x : Fin 3) :
    ((bigExtendAt g h r size).obj x).len = (h.obj x).len ∧
      ((bigExtendAt g h r size).obj x).neg = (h.obj x).neg := by
  rw [bigExtendAt]
  by_cases hx : x = r
  · subst hx
    split <;> [skip; split] <;> simp
  · split <;> [skip; split] <;> simp [hx]

include hv

/-- The words of every object are found through its pointer. -/
theorem store_bigExtendAt (x : Fin 3) (hi : i < (h.obj x).size) :
    (bigExtendAt g h r size).store ((bigExtendAt g h r size).obj x).value i
      = h.store (h.obj x).value i := by
  have hused (y : Fin 3) : (h.obj y).value ≠ h.next := Nat.ne_of_lt (hv.used y)
  rw [bigExtendAt]
  by_cases hx : x = r
  · subst hx
    split <;> [skip; split] <;> simp [hi]
  · have hapart : (h.obj x).value ≠ (h.obj r).value := fun he => hx (hv.apart x r he)
    split <;> [skip; split] <;> simp [hx, hused, hapart]
    split <;> simp [hapart]

theorem words_bigExtendAt (x : Fin 3) (hn : i + n ≤ (h.obj x).len) :
    (bigExtendAt g h r size).store.words ((bigExtendAt g h r size).obj x).value i n
      = h.store.words (h.obj x).value i n := by
  refine words_congr ?_
  intro j _ hlt
  have := hv.len_le x
  exact store_bigExtendAt g hv r size x (by omega)

/-- A pointer taken before is good unless it is that of the result and the result is moved. -/
theorem store_bigExtendAt_old (x : Fin 3)
    (hlive : x = r → (h.obj r).malloced = true → size ≤ (h.obj r).size) :
    (bigExtendAt g h r size).store (h.obj x).value i = h.store (h.obj x).value i := by
  have hused : (h.obj x).value ≠ h.next := Nat.ne_of_lt (hv.used x)
  rw [bigExtendAt]
  by_cases hx : x = r
  · subst hx
    by_cases hsize : size ≤ (h.obj x).size
    · simp [hsize]
    have hmalloced : (h.obj x).malloced = false := by
      cases hm : (h.obj x).malloced with
      | false => rfl
      | true => exact absurd (hlive rfl hm) hsize
    simp [hsize, hmalloced, hused]
  · have hapart : (h.obj x).value ≠ (h.obj r).value := fun he => hx (hv.apart x r he)
    split <;> [skip; split] <;> simp [hused, hapart]
    split <;> simp [hapart]

/-- Storage that has been given back. -/
theorem store_bigExtendAt_freed (hmalloced : (h.obj r).malloced = true)
    (hsize : (h.obj r).size < size)
    (hmoved : g.inPlace = false) : (bigExtendAt g h r size).store (h.obj r).value i
      = g.freed i := by
  have hused : (h.obj r).value ≠ h.next := Nat.ne_of_lt (hv.used r)
  rw [bigExtendAt]
  simp [not_le.mpr hsize, hmalloced, hmoved, hused]

end Extend

/-! ## Adding -/

/-- A loop along both operands; `term` is taken of each word of the second one. -/
def lowLoopAt (term : BigWord → BigWord) (r a b : ℕ) : ℕ → ℕ → BigStore → BigWord →
    BigStore × BigWord
  | 0, _, m, cy => (m, cy)
  | n + 1, i, m, cy =>
    let ai := m a i
    let ri := ai + term (m b i) + cy
    lowLoopAt term r a b n (i + 1) (m.set r i ri) (carryOf ri ai cy)

/-- The first loop of `big_add_abs`. -/
def addLowAt (r a b n : ℕ) (m : BigStore) : BigStore × BigWord := lowLoopAt id r a b n 0 m 0#32

/-- A loop along one operand, from the `i`th word on; `step` gives the word and the next carry. -/
def highLoopAt (step : BigWord → BigWord → BigWord × BigWord) (r c : ℕ) :
    ℕ → ℕ → BigStore → BigWord → BigStore × BigWord
  | 0, _, m, cy => (m, cy)
  | n + 1, i, m, cy =>
    let ri := step (m c i) cy
    highLoopAt step r c n (i + 1) (m.set r i ri.1) ri.2

/-- A round of the second loop of `big_add_abs`. -/
def addStep (ai cy : BigWord) : BigWord × BigWord :=
  (ai + cy, if ai + cy ≥ ai then 0#32 else cy)

/-- That loop, along the pointer `c`. -/
def addHighAt (r c n i : ℕ) (m : BigStore) (cy : BigWord) : BigStore × BigWord :=
  highLoopAt addStep r c n i m cy

/-- `big_add_abs` once `shorter`, `longer` and `c` are known. -/
def addAbsFrom (g : Growth) (h : BigHeap) (r a b : Fin 3) (shorter longer c : ℕ) : BigHeap :=
  let h := bigExtendAt g h r (longer + 1)
  let p := (h.obj r).value
  let low := addLowAt p (h.obj a).value (h.obj b).value shorter h.store
  let high := addHighAt p c (longer - shorter) shorter low.1 low.2
  if high.2 = 1#32 then h.put r (high.1.set p longer high.2) (longer + 1) false
  else h.put r high.1 longer false

def bigAddAbsAt (g : Growth) (h : BigHeap) (r a b : Fin 3) : BigHeap :=
  if (h.obj a).len > (h.obj b).len then
    addAbsFrom g h r a b (h.obj b).len (h.obj a).len (h.obj a).value
  else addAbsFrom g h r a b (h.obj a).len (h.obj b).len (h.obj b).value

variable (cy : BigWord)

/-- Whether the result is one of the operands makes no difference to the loop: a word is read before
it is written. -/
theorem lowLoopAt_spec (term : BigWord → BigWord) (r a b n i : ℕ) (m : BigStore) (cy : BigWord) :
    (lowLoopAt term r a b n i m cy).1.words r i n
        = (addWords cy (m.words a i n) ((m.words b i n).map term)).1 ∧
      (lowLoopAt term r a b n i m cy).2
        = (addWords cy (m.words a i n) ((m.words b i n).map term)).2 ∧
      OnlyWrites m (lowLoopAt term r a b n i m cy).1 r i n := by
  induction n generalizing i m cy with
  | zero => exact ⟨rfl, rfl, OnlyWrites.refl m r i 0⟩
  | succ n ih =>
    obtain ⟨hwords, hcarry, hframe⟩ :=
      ih (i + 1) (m.set r i (m a i + term (m b i) + cy))
        (carryOf (m a i + term (m b i) + cy) (m a i) cy)
    rw [words_set_above, words_set_above] at hwords hcarry
    simp only [lowLoopAt, hframe.words_first, words_succ m, map_cons, addWords, hwords]
    exact ⟨trivial, hcarry, hframe.step⟩

/-- What the loop along one operand computes. -/
def tailWords (step : BigWord → BigWord → BigWord × BigWord) (cy : BigWord) :
    List BigWord → List BigWord × BigWord
  | [] => ([], cy)
  | a :: as =>
    let rest := tailWords step (step a cy).2 as
    ((step a cy).1 :: rest.1, rest.2)

theorem highLoopAt_spec (step : BigWord → BigWord → BigWord × BigWord) (r c n i : ℕ) (m : BigStore)
    (cy : BigWord) :
    (highLoopAt step r c n i m cy).1.words r i n = (tailWords step cy (m.words c i n)).1 ∧
      (highLoopAt step r c n i m cy).2 = (tailWords step cy (m.words c i n)).2 ∧
      OnlyWrites m (highLoopAt step r c n i m cy).1 r i n := by
  induction n generalizing i m cy with
  | zero => exact ⟨rfl, rfl, OnlyWrites.refl m r i 0⟩
  | succ n ih =>
    obtain ⟨hwords, hcarry, hframe⟩ := ih (i + 1) (m.set r i (step (m c i) cy).1)
      (step (m c i) cy).2
    rw [words_set_above] at hwords hcarry
    simp only [highLoopAt, hframe.words_first, words_succ m, tailWords, hwords]
    exact ⟨trivial, hcarry, hframe.step⟩

/-- Both loops, one after the other. -/
theorem loops_spec (term : BigWord → BigWord) (step : BigWord → BigWord → BigWord × BigWord)
    (p a b c : ℕ) (hle : shorter ≤ longer) (m : BigStore) (cy : BigWord) :
    let low := lowLoopAt term p a b shorter 0 m cy
    let high := highLoopAt step p c (longer - shorter) shorter low.1 low.2
    let sum := addWords cy (m.words a 0 shorter) ((m.words b 0 shorter).map term)
    let rest := tailWords step sum.2 (m.words c shorter (longer - shorter))
    high.1.words p 0 longer = sum.1 ++ rest.1 ∧ high.2 = rest.2 := by
  intro low high sum rest
  obtain ⟨hlow, hcarry, hframe⟩ := lowLoopAt_spec term p a b shorter 0 m cy
  obtain ⟨hhigh, hcarry', hframe'⟩ :=
    highLoopAt_spec step p c (longer - shorter) shorter low.1 low.2
  have hrest : tailWords step low.2 (low.1.words c shorter (longer - shorter)) = rest :=
    congrArg₂ (tailWords step) hcarry (hframe.words_above c (longer - shorter))
  rw [hrest] at hhigh hcarry'
  refine ⟨?_, hcarry'⟩
  rw [words_split _ _ hle, hframe'.words_below, hhigh]
  exact congrArg (· ++ rest.1) hlow

theorem tailWords_addStep (as : List BigWord) : tailWords addStep cy as = addTail cy as := by
  induction as generalizing cy with
  | nil => rfl
  | cons a as ih => rw [tailWords, addTail, ih, addStep]

theorem addTail_eq (as : List BigWord) : addWords cy as [] = addTail cy as := by
  cases as <;> rfl

theorem addTail_eq' (bs : List BigWord) : addWords cy [] bs = addTail cy bs := by
  cases bs <;> rfl

variable (cs : List BigWord)

/-- Along what one operand has above the other the carry is carried on. -/
theorem addWords_append (hlen : as.length = bs.length) :
    let sum := ((addWords cy as bs).1 ++ (addTail (addWords cy as bs).2 cs).1,
      (addTail (addWords cy as bs).2 cs).2)
    addWords cy (as ++ cs) bs = sum ∧ addWords cy as (bs ++ cs) = sum := by
  induction as generalizing bs cy with
  | nil =>
    cases bs with
    | nil => exact ⟨addTail_eq cy cs, addTail_eq' cy cs⟩
    | cons b bs => cases hlen
  | cons a as ih =>
    cases bs with
    | nil => cases hlen
    | cons b bs => simp only [cons_append, addWords, ih _ (Nat.succ.inj hlen), and_self]

/-- The carry out of the words is one more word. -/
theorem view_put_sum (h : BigHeap) (r : Fin 3) {high : BigStore × BigWord} {words : List BigWord}
    {cy : BigWord} (hwords : high.1.words (h.obj r).value 0 longer = words) (hcarry : high.2 = cy) :
    let h' :=
      if high.2 = 1#32 then h.put r (high.1.set (h.obj r).value longer high.2) (longer + 1) false
      else h.put r high.1 longer false
    (h'.view r).value = if cy = 1#32 then words ++ [cy] else words := by
  subst hwords hcarry
  by_cases hone : high.2 = 1#32
  · simp only [if_pos hone, view_put]
    rw [words_add _ _ 0 longer 1, Nat.zero_add, words_succ, words_zero, set_same]
    congr 1
    refine words_congr ?_
    intro j _ hlt
    exact set_of_ne _ _ _ _ (by omega)
  · simp only [if_neg hone, view_put]

/-- The words of the result, whatever is found along `c`. -/
theorem addAbsFrom_view (g : Growth) (hv : h.Valid) (r a b : Fin 3) (c : ℕ)
    (ha : shorter ≤ (h.obj a).len) (hb : shorter ≤ (h.obj b).len) (hle : shorter ≤ longer)
    (hsum :
      let low := addWords 0#32 (h.store.words (h.obj a).value 0 shorter)
        (h.store.words (h.obj b).value 0 shorter)
      let high :=
        addTail low.2 ((bigExtendAt g h r (longer + 1)).store.words c shorter (longer - shorter))
      addWords 0#32 as bs = (low.1 ++ high.1, high.2)) :
    ((addAbsFrom g h r a b shorter longer c).view r).value = addAbsWords as bs := by
  have hwords (x : Fin 3) (hx : shorter ≤ (h.obj x).len) :=
    words_bigExtendAt g hv r (longer + 1) x (i := 0) (n := shorter) (by omega)
  simp only [← hwords a ha, ← hwords b hb] at hsum
  rw [addAbsFrom, addAbsWords, hsum]
  generalize bigExtendAt g h r (longer + 1) = h'
  obtain ⟨hwords, hcarry⟩ :=
    loops_spec id addStep (h'.obj r).value (h'.obj a).value (h'.obj b).value c hle h'.store 0#32
  rw [map_id, tailWords_addStep] at hwords hcarry
  exact view_put_sum h' r hwords hcarry

/-- The second loop of `big_add_abs` reads storage that has been given back. -/
def StaleRead (h : BigHeap) (r a b : Fin 3) : Prop :=
  (h.obj r).malloced = true ∧ (h.obj r).size < max (h.obj a).len (h.obj b).len + 1 ∧
    ((h.obj b).len < (h.obj a).len ∧ r = a ∨ (h.obj a).len < (h.obj b).len ∧ r = b)

instance (h : BigHeap) (r a b : Fin 3) : Decidable (StaleRead h r a b) :=
  inferInstanceAs (Decidable (_ ∧ _ ∧ _))

/-- The words of the longer operand as the loops find them: the lower ones through its pointer, the
others along the pointer taken before the result has grown. -/
def longerFound (g : Growth) (h : BigHeap) (r x : Fin 3) (shorter : ℕ) : List BigWord :=
  let longer := (h.obj x).len
  h.store.words (h.obj x).value 0 shorter
    ++ (bigExtendAt g h r (longer + 1)).store.words (h.obj x).value shorter (longer - shorter)

section Add

variable (g : Growth) {h : BigHeap} (hv : h.Valid) (r a b : Fin 3)

include hv

theorem bigAddAbsAt_view :
    ((bigAddAbsAt g h r a b).view r).value =
      if (h.obj a).len > (h.obj b).len then
        addAbsWords (longerFound g h r a (h.obj b).len) (h.view b).value
      else addAbsWords (h.view a).value (longerFound g h r b (h.obj a).len) := by
  rw [bigAddAbsAt]
  by_cases hlen : (h.obj a).len > (h.obj b).len
  · rw [if_pos hlen, if_pos hlen]
    exact addAbsFrom_view g hv r a b _ hlen.le le_rfl hlen.le (addWords_append _ _ (by simp)).1
  · rw [if_neg hlen, if_neg hlen]
    have hle := not_lt.mp hlen
    exact addAbsFrom_view g hv r a b _ le_rfl hle hle (addWords_append _ _ (by simp)).2

theorem longerFound_live (x : Fin 3) (hle : shorter ≤ (h.obj x).len)
    (hlive : shorter < (h.obj x).len → x = r → (h.obj r).malloced = true →
      (h.obj x).len + 1 ≤ (h.obj r).size) : longerFound g h r x shorter = (h.view x).value := by
  have hrest : (bigExtendAt g h r ((h.obj x).len + 1)).store.words (h.obj x).value shorter
      ((h.obj x).len - shorter)
        = h.store.words (h.obj x).value shorter ((h.obj x).len - shorter) := by
    refine words_congr ?_
    intro j hj hlt
    exact store_bigExtendAt_old g hv r _ x (hlive (by omega))
  rw [longerFound, hrest, ← words_split _ _ hle]
  rfl

/-- A call that reads nothing given back. -/
theorem bigAddAbsAt_live (hlive : ¬ StaleRead h r a b) :
    ((bigAddAbsAt g h r a b).view r).abs = (h.view a).abs + (h.view b).abs := by
  rw [BigNum.abs, bigAddAbsAt_view g hv]
  by_cases hlen : (h.obj a).len > (h.obj b).len
  · rw [if_pos hlen, wordsVal_addAbsWords, longerFound_live g hv r a hlen.le]
    · rfl
    intro _ hr hmalloced
    by_contra hsize
    exact hlive ⟨hmalloced, by omega, .inl ⟨hlen, hr.symm⟩⟩
  · rw [if_neg hlen, wordsVal_addAbsWords, longerFound_live g hv r b (not_lt.mp hlen)]
    · rfl
    intro hlt hr hmalloced
    by_contra hsize
    exact hlive ⟨hmalloced, by omega, .inr ⟨hlt, hr.symm⟩⟩

end Add

/-- Moves the result and leaves other words than it had behind. -/
def spoils (h : BigHeap) (r : Fin 3) : Growth where
  inPlace := false
  above := fun _ => 0#32
  freed := fun i => h.store (h.obj r).value i + 1#32

theorem longerFound_stale (hv : h.Valid) (r : Fin 3) (hlt : shorter < (h.obj r).len)
    (hmalloced : (h.obj r).malloced = true) (hsize : (h.obj r).size < (h.obj r).len + 1) :
    wordsVal (longerFound (spoils h r) h r r shorter) ≠ (h.view r).abs := by
  intro heq
  have hlen : (longerFound (spoils h r) h r r shorter).length = (h.view r).value.length := by
    simp [longerFound, view, Nat.add_sub_cancel' hlt.le]
  have hwords := limbVal_injective hlen heq
  have hview : (h.view r).value = h.store.words (h.obj r).value 0 (h.obj r).len := rfl
  rw [hview, words_split _ _ hlt.le, longerFound, append_cancel_left_eq] at hwords
  obtain ⟨k, hk⟩ : ∃ k, (h.obj r).len - shorter = k + 1 := ⟨(h.obj r).len - shorter - 1, by omega⟩
  rw [hk, words_succ, words_succ, cons.injEq,
    store_bigExtendAt_freed _ hv r _ hmalloced hsize rfl] at hwords
  have hne := hwords.1
  simp [spoils] at hne

theorem bigAddAbsAt_stale (hv : h.Valid) {r a b : Fin 3} (hstale : StaleRead h r a b) :
    ((bigAddAbsAt (spoils h r) h r a b).view r).abs ≠ (h.view a).abs + (h.view b).abs := by
  obtain ⟨hmalloced, hsize, hcase⟩ := hstale
  rw [BigNum.abs, bigAddAbsAt_view (spoils h r) hv]
  rcases hcase with ⟨hlen, hr⟩ | ⟨hlen, hr⟩
  · subst hr
    have hne := longerFound_stale hv r hlen hmalloced (by omega)
    rw [if_pos hlen, wordsVal_addAbsWords]
    intro heq
    exact hne (Nat.add_right_cancel heq)
  · subst hr
    have hne := longerFound_stale hv r hlen hmalloced (by omega)
    rw [if_neg (by omega), wordsVal_addAbsWords]
    intro heq
    exact hne (Nat.add_left_cancel heq)

/-! ## Subtracting -/

/-- The first loop of `big_sub_pos`. -/
def subLowAt (r a b n : ℕ) (m : BigStore) : BigStore × BigWord := lowLoopAt (~~~·) r a b n 0 m 1#32

/-- A round of the second loop. -/
def subStep (ai cy : BigWord) : BigWord × BigWord :=
  (ai + ~~~0#32 + cy, if ai + ~~~0#32 + cy < ai then 1#32 else cy)

def subHighAt (r a n i : ℕ) (m : BigStore) (cy : BigWord) : BigStore × BigWord :=
  highLoopAt subStep r a n i m cy

/-- `big_sub_pos`: the memory, and whether the result is `BIG_OK`. -/
def bigSubPosAt (g : Growth) (h : BigHeap) (r a b : Fin 3) : BigHeap × Bool :=
  let len := (h.obj a).len
  let shorter := if (h.obj a).len > (h.obj b).len then (h.obj b).len else (h.obj a).len
  let h := bigExtendAt g h r len
  let p := (h.obj r).value
  let low := subLowAt p (h.obj a).value (h.obj b).value shorter h.store
  let high := subHighAt p (h.obj a).value (len - shorter) shorter low.1 low.2
  (h.put r high.1 len false, high.2 ≠ 0#32)

theorem tailWords_subStep (as : List BigWord) : tailWords subStep cy as = subTail cy as := by
  induction as generalizing cy with
  | nil => rfl
  | cons a as ih => rw [tailWords, subTail, ih, subStep]

theorem subTail_eq (as : List BigWord) : subWords cy as [] = subTail cy as := by
  cases as <;> rfl

/-- Along the shorter operand it is a sum with the complements; then the borrow is carried on. -/
theorem subWords_append_left (hlen : as.length = bs.length) :
    subWords cy (as ++ cs) bs = ((addWords cy as (bs.map (~~~·))).1
        ++ (subTail (addWords cy as (bs.map (~~~·))).2 cs).1,
      (subTail (addWords cy as (bs.map (~~~·))).2 cs).2) := by
  induction as generalizing bs cy with
  | nil =>
    cases bs with
    | nil => rw [nil_append, subTail_eq]; rfl
    | cons b bs => cases hlen
  | cons a as ih =>
    cases bs with
    | nil => cases hlen
    | cons b bs => simp only [cons_append, map_cons, subWords, addWords, ih _ (Nat.succ.inj hlen)]

/-- What the second operand has above the first one is not read. -/
theorem subWords_append_right (hlen : as.length = bs.length) :
    subWords cy as (bs ++ cs) = subWords cy as bs := by
  induction as generalizing bs cy with
  | nil =>
    cases bs with
    | nil => cases cs <;> rfl
    | cons b bs => cases hlen
  | cons a as ih =>
    cases bs with
    | nil => cases hlen
    | cons b bs => simp only [cons_append, subWords, ih _ (Nat.succ.inj hlen)]

theorem subLoops_spec (p a b : ℕ) {len : ℕ} (hle : shorter ≤ len) (m : BigStore) :
    let low := subLowAt p a b shorter m
    let high := subHighAt p a (len - shorter) shorter low.1 low.2
    high.1.words p 0 len = (subWords 1#32 (m.words a 0 len) (m.words b 0 shorter)).1 ∧
      high.2 = (subWords 1#32 (m.words a 0 len) (m.words b 0 shorter)).2 := by
  have hlen : (m.words a 0 shorter).length = (m.words b 0 shorter).length := by simp
  have hsum := subWords_append_left 1#32 (m.words a shorter (len - shorter)) hlen
  rw [words_split m a hle, hsum, ← tailWords_subStep]
  exact loops_spec (~~~·) subStep p a b a hle m 1#32

theorem bigSubPosAt_view (g : Growth) (hv : h.Valid) (r a b : Fin 3) :
    let diff := subWords 1#32 (h.view a).value (h.view b).value
    ((bigSubPosAt g h r a b).1.view r).value = diff.1 ∧ (bigSubPosAt g h r a b).2
      = decide (diff.2 ≠ 0#32) := by
  intro diff
  have hdiff (shorter : ℕ) (hshorter : shorter = min (h.obj a).len (h.obj b).len) :
      diff = subWords 1#32 (h.view a).value (h.store.words (h.obj b).value 0 shorter) := by
    by_cases hlen : (h.obj a).len > (h.obj b).len
    · rw [hshorter, Nat.min_eq_right hlen.le]
      rfl
    have hle := not_lt.mp hlen
    rw [hshorter, Nat.min_eq_left hle]
    refine Eq.trans (congrArg (subWords 1#32 _) (words_split _ _ hle)) ?_
    exact subWords_append_right 1#32 _ (by simp)
  have hshorter : (if (h.obj a).len > (h.obj b).len then (h.obj b).len else (h.obj a).len)
      = min (h.obj a).len (h.obj b).len := by
    split <;> omega
  rw [hdiff _ rfl, bigSubPosAt, hshorter]
  have hloops := subLoops_spec ((bigExtendAt g h r (h.obj a).len).obj r).value
    ((bigExtendAt g h r (h.obj a).len).obj a).value ((bigExtendAt g h r (h.obj a).len).obj b).value
    (Nat.min_le_left (h.obj a).len (h.obj b).len) (bigExtendAt g h r (h.obj a).len).store
  rw [words_bigExtendAt g hv r _ a (by omega), words_bigExtendAt g hv r _ b (by omega)] at hloops
  simp only [view_put]
  refine ⟨hloops.1, ?_⟩
  rw [hloops.2]
  rfl

/-! ## With signs -/

def bigSubPosOkAt (g : Growth) (h : BigHeap) (r a b : Fin 3) (neg : Bool) : BigM BigHeap :=
  let diff := bigSubPosAt g h r a b
  if diff.2 then .ok (diff.1.setSign r neg) else .error (.err .invalidArgs)

/-- The difference of absolute values, with the sign it has when `a` is not below `b`. -/
def bigSubAbsAt (g : Growth) (h : BigHeap) (r a b : Fin 3) (neg : Bool) : BigM BigHeap :=
  if bigCmpAbs (h.view a).value (h.view b).value ≠ .lt then bigSubPosOkAt g h r a b neg
  else bigSubPosOkAt g h r b a !neg

def bigSubAt (g : Growth) (h : BigHeap) (r a b : Fin 3) : BigM BigHeap :=
  if (h.obj b).neg && !(h.obj a).neg then .ok ((bigAddAbsAt g h r a b).setSign r false)
  else if (h.obj a).neg && !(h.obj b).neg then .ok ((bigAddAbsAt g h r a b).setSign r true)
  else if !(h.obj a).neg && !(h.obj b).neg then bigSubAbsAt g h r a b false
  else bigSubAbsAt g h r a b true

def bigAddAt (g : Growth) (h : BigHeap) (r a b : Fin 3) : BigM BigHeap :=
  if (h.obj b).neg && (h.obj a).neg then .ok ((bigAddAbsAt g h r a b).setSign r true)
  else if !(h.obj a).neg && !(h.obj b).neg then .ok ((bigAddAbsAt g h r a b).setSign r false)
  else if !(h.obj a).neg && (h.obj b).neg then bigSubAbsAt g h r a b false
  else bigSubAbsAt g h r a b true

/-- An object of no room. -/
def freshBig : BigNum := ⟨0, false, []⟩

/-- The value a call leaves in the result. -/
def valueAt (run : BigM BigHeap) (r : Fin 3) : BigM ℤ := run.map fun h => (h.view r).toInt

/-- The value of a call with the result in an object of its own. -/
def valueOf (run : BigM BigNum) : BigM ℤ := run.map BigNum.toInt

theorem bigExtend_true (number : BigNum) (size : ℕ) :
    bigExtend true number size = .ok { number with size := max number.size size } := by
  rw [bigExtend]
  by_cases hsize : number.size ≥ size
  · rw [if_pos hsize, Nat.max_eq_left hsize]
  · rw [if_neg hsize, Nat.max_eq_right (Nat.le_of_not_le hsize)]
    rfl

/-- A sum of absolute values with a sign is right if the absolute value is. -/
theorem valueAt_bigAddAbsAt (g : Growth) (h : BigHeap) (r a b : Fin 3) (neg : Bool)
    (aa bb : BigNum) :
    valueAt (.ok ((bigAddAbsAt g h r a b).setSign r neg)) r
        = valueOf (bigAddAbs true freshBig aa bb >>= fun x => .ok { x with neg := neg }) ↔
      ((bigAddAbsAt g h r a b).view r).abs = aa.abs + bb.abs := by
  rw [bigAddAbs, bigExtend_true]
  change Except.ok (toInt _) = Except.ok (toInt _) ↔ _
  rw [view_setSign, toInt_mk, toInt_mk, wordsVal_addAbsWords, Except.ok.injEq]
  cases neg with
  | true => exact Int.neg_inj.trans Int.ofNat_inj
  | false => exact Int.ofNat_inj

section Signs

variable (g : Growth) {h : BigHeap} (hv : h.Valid) (r a b : Fin 3)

include hv

theorem bigSubPosOkAt_eq (neg : Bool) :
    valueAt (bigSubPosOkAt g h r a b neg) r
      = valueOf (bigSubPosOk true freshBig (h.view a) (h.view b) >>= fun x =>
        .ok { x with neg := neg }) := by
  obtain ⟨hwords, hok⟩ := bigSubPosAt_view g hv r a b
  rw [bigSubPosOkAt, bigSubPosOk, bigSubPos, bigExtend_true]
  simp only [hok]
  cases hdiff : decide ((subWords 1#32 (h.view a).value (h.view b).value).2 ≠ 0#32) with
  | true =>
    change Except.ok (toInt _) = Except.ok (toInt _)
    rw [view_setSign, toInt_mk, hwords]
    rfl
  | false => rfl

theorem bigSubAbsAt_eq (neg : Bool) :
    valueAt (bigSubAbsAt g h r a b neg) r
      = valueOf (bigSubAbs true freshBig (h.view a) (h.view b) neg) := by
  rw [bigSubAbsAt, bigSubAbs]
  split
  · exact bigSubPosOkAt_eq g hv r a b neg
  · exact bigSubPosOkAt_eq g hv r b a !neg

theorem bigAddAbsAt_iff (neg : Bool) :
    (∀ g, valueAt (.ok ((bigAddAbsAt g h r a b).setSign r neg)) r
      = valueOf (bigAddAbs true freshBig (h.view a) (h.view b) >>= fun x =>
        .ok { x with neg := neg })) ↔ ¬ StaleRead h r a b := by
  simp only [valueAt_bigAddAbsAt]
  constructor
  · intro hall hstale
    exact bigAddAbsAt_stale hv hstale (hall (spoils h r))
  · intro hlive g
    exact bigAddAbsAt_live g hv r a b hlive

end Signs

/-! ## Multiplying -/

/-- `for (i = 0; i < n; i++) r[i] = b[i]`. -/
def copyLoopAt (r b : ℕ) : ℕ → ℕ → BigStore → BigStore
  | 0, _, m => m
  | n + 1, i, m => copyLoopAt r b n (i + 1) (m.set r i (m b i))

/-- Writes words one after the other. -/
def writeLoopAt (r : ℕ) : List BigWord → ℕ → BigStore → BigStore
  | [], _, m => m
  | w :: ws, i, m => writeLoopAt r ws (i + 1) (m.set r i w)

/-- `while ((len > 1) && (value[len - 1] == 0)) len--`, of an object. -/
def BigHeap.trim (h : BigHeap) (x : Fin 3) : BigHeap :=
  { h with obj := update h.obj x { h.obj x with len := (trimWords (h.view x).value).length } }

/-- `big_mul` after the operands have been put in order.  The product is computed in storage of its
own, and the result has room for it when it is copied. -/
def bigMulOrderedAt (impl : MulImpl) (g : Growth) (h : BigHeap) (r a b : Fin 3) (same : Bool) :
    BigM BigHeap :=
  let h := (h.trim a).trim b
  let rsize := (h.obj a).len + (h.obj b).len
  let h := bigExtendAt g h r rsize
  let p := (h.obj r).value
  let x := (h.view a).value
  let y := (h.view b).value
  if x = [0#32] ∨ y = [0#32] then .ok (h.put r (h.store.set p 0 0#32) 1 false)
  else
    let neg := (h.obj a).neg ^^ (h.obj b).neg
    if x = [1#32] then .ok (h.put r (copyLoopAt p (h.obj b).value (h.obj b).len 0 h.store)
      (h.obj b).len neg)
    else if y = [1#32] then
      .ok (h.put r (copyLoopAt p (h.obj a).value (h.obj a).len 0 h.store) (h.obj a).len neg)
    else
      let t :=
        if same ∧ x.length > 2 then sqrVec impl x
        else if y.length > 0 then mulVec impl x y
        else List.replicate rsize 0#32
      if t = [] then .error .undefined
      else
        let t := trimWords (if t.getLast? = some 0#32 then t.dropLast else t)
        .ok (h.put r (writeLoopAt p t 0 h.store) t.length neg)

/-- `big_mul`.  An object compares equal to itself. -/
def bigMulAt (impl : MulImpl) (g : Growth) (h : BigHeap) (r a b : Fin 3) : BigM BigHeap :=
  let diff := bigCmpAbs (h.view a).value (h.view b).value
  if diff = .lt then bigMulOrderedAt impl g h r b a false
  else bigMulOrderedAt impl g h r a b (diff = .eq)

theorem copyLoopAt_spec (r b n i : ℕ) (m : BigStore) :
    (copyLoopAt r b n i m).words r i n = m.words b i n ∧
      OnlyWrites m (copyLoopAt r b n i m) r i n := by
  induction n generalizing i m with
  | zero => exact ⟨rfl, OnlyWrites.refl m r i 0⟩
  | succ n ih =>
    obtain ⟨hwords, hframe⟩ := ih (i + 1) (m.set r i (m b i))
    rw [words_set_above] at hwords
    simp only [copyLoopAt, hframe.words_first, words_succ m, hwords]
    exact ⟨trivial, hframe.step⟩

theorem writeLoopAt_spec (r i : ℕ) (ws : List BigWord) (m : BigStore) :
    (writeLoopAt r ws i m).words r i ws.length = ws ∧
      OnlyWrites m (writeLoopAt r ws i m) r i ws.length := by
  induction ws generalizing i m with
  | nil => exact ⟨rfl, OnlyWrites.refl m r i 0⟩
  | cons w ws ih =>
    obtain ⟨hwords, hframe⟩ := ih (i + 1) (m.set r i w)
    simp only [writeLoopAt, length_cons, hframe.words_first, hwords]
    exact ⟨trivial, hframe.step⟩

section Mul

variable (h : BigHeap) (x : Fin 3)

theorem BigHeap.words_trim :
    h.store.words (h.obj x).value 0 (trimWords (h.view x).value).length
      = trimWords (h.view x).value := by
  obtain ⟨k, hk⟩ := trimWords_eq (h.view x).value
  have hlen := congrArg length hk
  rw [length_view, length_append, length_replicate] at hlen
  have hsplit := h.store.words_add (h.obj x).value 0 (trimWords (h.view x).value).length k
  rw [← hlen] at hsplit
  have hview : (h.view x).value = h.store.words (h.obj x).value 0 (h.obj x).len := rfl
  exact (append_inj' (hsplit.symm.trans (hview.symm.trans hk)) (by simp)).1

theorem trimWords_trimWords (words : List BigWord) :
    trimWords (trimWords words) = trimWords words := by
  by_cases hne : words = []
  · rw [hne]
    rfl
  · exact (tight_trimWords hne).trimWords_eq

theorem BigHeap.view_trim_same : ((h.trim x).view x) = (h.view x).trim := by
  have hwords := h.words_trim x
  simp [view, trim, BigNum.trim] at *
  exact hwords

theorem BigHeap.view_trim_other {x y : Fin 3} (hne : y ≠ x) : (h.trim x).view y = h.view y := by
  simp [view, trim, hne]

theorem BigHeap.obj_trim (y : Fin 3) : (h.trim x).obj y
    = { h.obj y with
        len := if y = x then (trimWords (h.view y).value).length else (h.obj y).len } := by
  by_cases hy : y = x
  · subst hy
    simp [trim]
  · simp [trim, hy]

variable {h}

theorem BigHeap.Valid.trim (hv : h.Valid) : (h.trim x).Valid := by
  constructor
  · intro y
    have hle := length_trimWords_le (h.view y).value
    rw [length_view] at hle
    have := hv.len_le y
    rw [obj_trim]
    dsimp only
    split <;> omega
  · intro y
    rw [obj_trim]
    exact hv.used y
  · intro y z heq
    rw [obj_trim, obj_trim] at heq
    exact hv.apart y z heq

theorem BigHeap.value_trim_trim (a b : Fin 3) (hx : x = a ∨ x = b) :
    (((h.trim a).trim b).view x).value = trimWords (h.view x).value := by
  by_cases hb : x = b
  · subst hb
    rw [view_trim_same]
    by_cases ha : x = a
    · subst ha
      rw [view_trim_same]
      exact trimWords_trimWords _
    · rw [view_trim_other h ha]
      rfl
  · have ha : x = a := hx.resolve_right hb
    subst ha
    rw [view_trim_other _ hb, view_trim_same]
    rfl

theorem bigInit1_true (size : ℕ) (buf : Option ℕ) :
    ∃ n, bigInit1 true size buf = .ok ⟨n, false, []⟩ := by
  cases buf with
  | none => exact ⟨size, rfl⟩
  | some bufsize =>
    rw [bigInit1]
    split
    · exact ⟨size, rfl⟩
    · exact ⟨bufsize, rfl⟩

theorem bigCopy_true (dest src : BigNum) :
    ∃ n, bigCopy true dest src = .ok ⟨n, src.neg, trimWords src.value⟩ := by
  rw [bigCopy]
  split
  · exact ⟨_, rfl⟩
  · exact ⟨_, rfl⟩

theorem bigMulOrderedAt_eq (impl : MulImpl) (g : Growth) (hv : h.Valid) (r a b : Fin 3)
    (same : Bool) :
    valueAt (bigMulOrderedAt impl g h r a b same) r
      = valueOf (bigMulOrdered impl (fun _ => true) freshBig (h.view a) (h.view b) same) := by
  have htrim (x : Fin 3) (hx : x = a ∨ x = b) := h.value_trim_trim x a b hx
  have hneg (x : Fin 3) : (((h.trim a).trim b).obj x).neg = (h.obj x).neg := by
    rw [obj_trim, obj_trim]
  have hv' := (hv.trim a).trim b
  rw [bigMulOrderedAt, bigMulOrdered, bigExtend_true]
  simp only
  generalize (h.trim a).trim b = h' at *
  have hlen (x : Fin 3) (hx : x = a ∨ x = b) : (h'.obj x).len
      = (trimWords (h.view x).value).length := by
    rw [← htrim x hx, length_view]
  have hwords (x : Fin 3) (hx : x = a ∨ x = b) :
      ((bigExtendAt g h' r ((h'.obj a).len + (h'.obj b).len)).view x).value
        = trimWords (h.view x).value := by
    rw [← htrim x hx, view, (shape_bigExtendAt ..).1]
    exact words_bigExtendAt g hv' r _ x (by omega)
  have hneg' (x : Fin 3) :
      ((bigExtendAt g h' r ((h'.obj a).len + (h'.obj b).len)).obj x).neg = (h.view x).neg := by
    rw [(shape_bigExtendAt ..).2]
    exact hneg x
  rw [hlen a (.inl rfl), hlen b (.inr rfl)] at *
  generalize bigExtendAt g h' r _ = h'' at *
  have hcopy (x : Fin 3) (hx : x = a ∨ x = b) (neg : Bool) :
      valueAt (.ok (h''.put r (copyLoopAt (h''.obj r).value (h''.obj x).value
        (h''.obj x).len 0 h''.store)
        (h''.obj x).len neg)) r = .ok (if neg then -(wordsVal (trimWords (h.view x).value) : ℤ)
          else wordsVal (trimWords (h.view x).value)) := by
    change Except.ok (toInt _) = _
    rw [view_put, toInt_mk, (copyLoopAt_spec _ _ _ _ _).1, ← hwords x hx]
    rfl
  have hcopya := hcopy a (.inl rfl)
  have hcopyb := hcopy b (.inr rfl)
  rw [hwords a (.inl rfl), hwords b (.inr rfl), hneg', hneg']
  generalize trimWords (h.view a).value = x at *
  generalize trimWords (h.view b).value = y at *
  change _ = valueOf (if _ then _ else _)
  by_cases hzero : x = [0#32] ∨ y = [0#32]
  · rw [if_pos hzero, if_pos hzero]
    change Except.ok (toInt _) = Except.ok (toInt _)
    rw [view_put, words_succ, words_zero, set_same]
    rfl
  rw [if_neg hzero, if_neg hzero]
  by_cases hx : x = [1#32]
  · rw [if_pos hx, if_pos hx, hcopyb]
    rfl
  rw [if_neg hx, if_neg hx]
  by_cases hy : y = [1#32]
  · rw [if_pos hy, if_pos hy, hcopya]
    rfl
  rw [if_neg hy, if_neg hy]
  obtain ⟨n, hinit⟩ := bigInit1_true (x.length + y.length) (some bigTmpsize)
  rw [hinit]
  generalize (if same = true ∧ x.length > 2 then sqrVec impl x
    else if y.length > 0 then mulVec impl x y else replicate (x.length + y.length) 0#32) = t
  cases htop : t.getLast? with
  | none =>
    rw [getLast?_eq_none_iff] at htop
    rw [if_pos htop]
    rfl
  | some top =>
    have hne : t ≠ [] := by
      rintro rfl
      cases htop
    rw [if_neg hne]
    simp only [bind, Except.bind, Option.some.injEq]
    generalize (if top = 0#32 then t.dropLast else t) = t'
    obtain ⟨k, hresult⟩ := bigCopy_true
      { size := max freshBig.size (x.length + y.length), neg := freshBig.neg,
        value := freshBig.value }
      { size := n, neg := false, value := t' }
    rw [hresult]
    change Except.ok (toInt _) = Except.ok (toInt _)
    rw [view_put, (writeLoopAt_spec _ _ _ _).1]
    rfl

theorem bigMulAt_eq (impl : MulImpl) (g : Growth) (hv : h.Valid) (r a b : Fin 3) :
    valueAt (bigMulAt impl g h r a b) r
      = valueOf (bigMul impl (fun _ => true) freshBig (h.view a) (h.view b)) := by
  rw [bigMulAt, bigMul]
  cases bigCmpAbs (h.view a).value (h.view b).value with
  | lt => exact bigMulOrderedAt_eq impl g hv r b a false
  | eq => exact bigMulOrderedAt_eq impl g hv r a b true
  | gt => exact bigMulOrderedAt_eq impl g hv r a b false

end Mul

/-! ## Aliased calls -/

inductive BigOp
  | add
  | sub
  | mul (impl : MulImpl)

namespace BigOp

/-- A call with the objects `r`, `a` and `b`, some of which may be the same. -/
def runAt (op : BigOp) (g : Growth) (h : BigHeap) (r a b : Fin 3) : BigM BigHeap :=
  match op with
  | add => bigAddAt g h r a b
  | sub => bigSubAt g h r a b
  | mul impl => bigMulAt impl g h r a b

/-- The call with a fresh object for the result. -/
def runFresh (op : BigOp) (aa bb : BigNum) : BigM BigNum :=
  match op with
  | add => bigAdd true freshBig aa bb
  | sub => bigSub true freshBig aa bb
  | mul impl => bigMul impl (fun _ => true) freshBig aa bb

/-- The call adds absolute values and reads storage that has been given back. -/
def Stale (op : BigOp) (h : BigHeap) (r a b : Fin 3) : Prop :=
  match op with
  | add => (h.obj a).neg = (h.obj b).neg ∧ StaleRead h r a b
  | sub => (h.obj a).neg ≠ (h.obj b).neg ∧ StaleRead h r a b
  | mul _ => False

end BigOp

section Aliased

variable {h : BigHeap} (hv : h.Valid) (r a b : Fin 3)

include hv

theorem bigAddAt_iff : (∀ g, valueAt (bigAddAt g h r a b) r
      = valueOf (bigAdd true freshBig (h.view a) (h.view b))) ↔ ¬ BigOp.add.Stale h r a b := by
  cases ha : (h.obj a).neg <;> cases hb : (h.obj b).neg <;>
    simp only [bigAddAt, bigAdd, neg_view, BigOp.Stale, ha, hb]
  · simpa using bigAddAbsAt_iff hv r a b false
  · exact iff_of_true (bigSubAbsAt_eq · hv r a b false) (by simp)
  · exact iff_of_true (bigSubAbsAt_eq · hv r a b true) (by simp)
  · simpa using bigAddAbsAt_iff hv r a b true

theorem bigSubAt_iff : (∀ g, valueAt (bigSubAt g h r a b) r
      = valueOf (bigSub true freshBig (h.view a) (h.view b))) ↔ ¬ BigOp.sub.Stale h r a b := by
  cases ha : (h.obj a).neg <;> cases hb : (h.obj b).neg <;>
    simp only [bigSubAt, bigSub, neg_view, BigOp.Stale, ha, hb]
  · exact iff_of_true (bigSubAbsAt_eq · hv r a b false) (absurd rfl ·.1)
  · simpa using bigAddAbsAt_iff hv r a b false
  · simpa using bigAddAbsAt_iff hv r a b true
  · exact iff_of_true (bigSubAbsAt_eq · hv r a b true) (absurd rfl ·.1)

end Aliased

/-- `big_sub` into its first operand; not defined where that reads storage given back. -/
def bigSubInto (succeeds : Bool) (aa bb : BigNum) : BigM BigNum :=
  if aa.neg ≠ bb.neg ∧ bb.value.length < aa.value.length ∧
    aa.size < aa.value.length + 1 then .error .undefined
  else bigSub succeeds aa aa bb

/-- Where it is defined it does what the call does on memory. -/
theorem bigSubInto_at (hv : h.Valid) (g : Growth) (a b : Fin 3)
    (hdefined : bigSubInto true (h.view a) (h.view b) ≠ .error .undefined) :
    valueAt (bigSubAt g h a a b) a = valueOf (bigSubInto true (h.view a) (h.view b)) := by
  have hgood : True → Alloc.Good fun _ => true := fun _ _ => rfl
  have hvalue (result : BigNum) :
      valueOf (bigSub true result (h.view a) (h.view b))
        = .ok ((h.view a).toInt - (h.view b).toInt) := by
    obtain ⟨r, hr, hint⟩ := (runs_bigSub hgood [] result (h.view a) (h.view b)).returns trivial
    rw [hr, ← hint]
    rfl
  rw [bigSubInto] at hdefined ⊢
  by_cases hstale : (h.view a).neg ≠ (h.view b).neg ∧
    (h.view b).value.length < (h.view a).value.length ∧
      (h.view a).size < (h.view a).value.length + 1
  · rw [if_pos hstale] at hdefined
    exact absurd rfl hdefined
  rw [if_neg hstale, hvalue, ← hvalue freshBig]
  refine (bigSubAt_iff hv a a b).mpr ?_ g
  rintro ⟨hneg, -, hsize, hlen⟩
  rw [length_view, length_view] at hstale
  have hlen' : (h.obj b).len < (h.obj a).len := by
    rcases hlen with ⟨hlt, -⟩ | ⟨hlt, hab⟩
    · exact hlt
    · rw [hab] at hlt
      omega
  rw [Nat.max_eq_left hlen'.le] at hsize
  exact hstale ⟨hneg, hlen', hsize⟩

/-- Whatever growing the result leaves behind, a call gives what it gives in a fresh object; except
for the calls that read storage given back. -/
theorem bignumAliased_iff (op : BigOp) (h : BigHeap) (hv : h.Valid) (r a b : Fin 3) :
    (∀ g, valueAt (op.runAt g h r a b) r = valueOf (op.runFresh (h.view a) (h.view b))) ↔
      ¬ op.Stale h r a b := by
  cases op with
  | add => exact bigAddAt_iff hv r a b
  | sub => exact bigSubAt_iff hv r a b
  | mul impl => exact iff_of_true (bigMulAt_eq impl · hv r a b) not_false

/-- A number of two words that fills its storage, and one of a single word. -/
def exactFit : BigHeap where
  obj := fun x => ⟨if x.val = 0 then 2 else 1, if x.val = 0 then 2 else 1, false, true, x⟩
  store := fun _ _ => 5#32
  next := 3

theorem valid_exactFit : exactFit.Valid :=
  ⟨by decide, by decide, by decide⟩

theorem bignumAliased_exactFit :
    exactFit.Valid ∧
      ((∀ g, valueAt (BigOp.add.runAt g exactFit 1 0 1) 1
        = valueOf (BigOp.add.runFresh (exactFit.view 0) (exactFit.view 1))) ↔
          ¬ BigOp.add.Stale exactFit 1 0 1) :=
  ⟨valid_exactFit, bignumAliased_iff .add exactFit valid_exactFit 1 0 1⟩

/-- The sum is put where the longer number is: its upper word is read from storage that has been
given back and holds zeros by then. -/
theorem bigAdd_stale :
    exactFit.Valid ∧
      valueOf (BigOp.add.runFresh (exactFit.view 0) (exactFit.view 1)) = .ok (5 * 2 ^ 32 + 10) ∧
      valueAt (BigOp.add.runAt ⟨false, fun _ => 0#32, fun _ => 0#32⟩ exactFit 0 0 1) 0
        = .ok 10 := by
  refine ⟨valid_exactFit, ?_, ?_⟩ <;> decide

end Polaris
