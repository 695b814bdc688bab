import Polaris.Nvpair.ListSpec

/-!
# Runs of list operations

A list is allocated, and then pairs are added to it, removed from it, and walked over with
`nvlist_next_nvpair`, in any order.  What the list then is, what a lookup answers, and what the next
pair is.

## Main results

* `NvRun.rows` — after any run, the list in memory is the sequence of pairs of the operations.
* `nvRun_refines` — with what lookups answer.
* `nvlistNextNvpair_eq_iff` — the pair after a pair is returned only when the list's cursor is at
  that pair.
-/

namespace Polaris

open Xdr List Option

/-- An operation that changes the pairs. -/
inductive NvOp where
  | add (name : CStr) (v : NvValue)
  | remove (name : CStr) (type : DataType)
  | removeAll (name : CStr)

/-- What an operation does to the pairs. -/
def specOp (flag : BitVec 32) (ps : List (CStr × NvValue)) : NvOp → List (CStr × NvValue)
  | .add name v => specAdd flag ps name v
  | .remove name type => ps.eraseP (isPair name type)
  | .removeAll name => ps.filter fun p => decide (p.1 ≠ name)

/-- The pairs after some operations. -/
def specRun (flag : BitVec 32) (ops : List NvOp) :
    List (CStr × NvValue) := ops.foldl (specOp flag) []

/-- The answer to a lookup. -/
def specLookup (flag : BitVec 32) (ps : List (CStr × NvValue)) (name : CStr) (type : DataType) :
    Except NvErrno NvValue :=
  if !hasFlag flag (nvUniqueName ||| nvUniqueNameType) then .error .enotsup
  else ((ps.find? (isPair name type)).map Prod.snd).elim (.error .enoent) .ok

/-- The list a run stands for. -/
def specList (flag : BitVec 32) (ps : List (CStr × NvValue)) : Nvlist :=
  .mk (flag &&& (nvUniqueName ||| nvUniqueNameType)) (ps.foldr (fun p ps => .cons p.1 p.2 ps) .nil)

/-- An answer in memory is this answer. -/
def Answers {E : Type} (h : Host) (RepE : E → Nvlist → Prop) :
    Except NvErrno (NvData E) → Except NvErrno NvValue → Prop
  | .ok d, .ok v => d.Holds h RepE v
  | .error err, .error err' => err = err'
  | .ok _, .error _ | .error _, .ok _ => False

/-- The loop over the pairs of a list that callers write: the addresses it visits. -/
def nvlistWalk {E : Type} : ℕ → Nvl E → Option ℕ → Option (List ℕ)
  | 0, _, _ => none
  | fuel + 1, nvl, nvp => do
    let (nvl, elem) ← nvlistNextNvpair fuel nvl nvp
    match elem with
    | none => some []
    | some a => (nvlistWalk fuel nvl (some a)).map (a :: ·)

/-- The lists that calls lead to, starting with `nvlist_alloc`, with the operations that succeeded.
What the allocator returns is free and the same twice only for different lists; a loop returns with
enough fuel. -/
inductive NvRun (h : Host) (n : ℕ) (flag : BitVec 32) : Nvl (Embedded n) → List NvOp → Prop
  | alloc (last curr : Option ℕ) : NvRun h n flag (nvlistXalloc flag last curr) []
  | add {nvl nvl' ops} (alloc : Option ℕ) (calloc : ℕ → Option ℕ) (d : NvData (Embedded n))
      (name : CStr) (v : NvValue) (res : Except NvErrno Unit) (f : ℕ) : NvRun h n flag nvl ops →
      d.Holds h (RepEmb h n) v → name.length < 32767 →
      (∀ a, alloc = some a → nvl.pairs.node a = none) →
      (∀ i j a, calloc i = some a → calloc j = some a → i = j) →
      (∀ fuel, f ≤ fuel → nvlistAddCommon h (copyEmbedded h calloc fuel n) fuel alloc nvl name d
        = some (nvl', res)) →
      NvRun h n flag nvl' (if res = .ok () then ops ++ [.add name v] else ops)
  | remove {nvl nvl' ops res} (name : CStr) (type : DataType) (f : ℕ) : NvRun h n flag nvl ops →
      (∀ fuel, f ≤ fuel → nvlistRemove fuel nvl name type = some (nvl', res)) →
      NvRun h n flag nvl' (ops ++ [.remove name type])
  | removeAll {nvl nvl' ops res} (name : CStr) (f : ℕ) : NvRun h n flag nvl ops →
      (∀ fuel, f ≤ fuel → nvlistRemoveAll fuel nvl name = some (nvl', res)) →
      NvRun h n flag nvl' (ops ++ [.removeAll name])
  | next {nvl nvl' ops res} (nvp : Option ℕ) (f : ℕ) : NvRun h n flag nvl ops →
      (∀ fuel, f ≤ fuel → nvlistNextNvpair fuel nvl nvp = some (nvl', res)) →
      NvRun h n flag nvl' ops

section

variable {h : Host} {n : ℕ} {flag : BitVec 32} {nvl nvl' : Nvl (Embedded n)} {ops : List NvOp}

@[simp] theorem specRun_append (op : NvOp) :
    specRun flag (ops ++ [op]) = specOp flag (specRun flag ops) op := by
  rw [specRun, foldl_append]
  rfl

theorem UniqueNames.run {ps : List (CStr × NvValue)} (hu : UniqueNames flag ps) (ops : List NvOp) :
    UniqueNames flag (ops.foldl (specOp flag) ps) := by
  induction ops generalizing ps with
  | nil => exact hu
  | cons op ops ih =>
    apply ih
    cases op with
    | add name v => exact hu.add name v
    | remove name type => exact hu.sublist eraseP_sublist
    | removeAll name => exact hu.sublist filter_sublist

/-! ## The flags that are kept -/

theorem hasFlag_and (flag mask f : BitVec 32) (hf : mask &&& f = f) :
    hasFlag (flag &&& mask) f = hasFlag flag f := by
  rw [hasFlag, hasFlag, BitVec.and_assoc, hf]

theorem specAdd_and (flag : BitVec 32) (ps : List (CStr × NvValue)) (name : CStr) (v : NvValue) :
    specAdd (flag &&& (nvUniqueName ||| nvUniqueNameType)) ps name v = specAdd flag ps name v := by
  rw [specAdd, specAdd, specDrop, specDrop, hasFlag_and _ _ _ rfl, hasFlag_and _ _ _ rfl]

theorem uniqueNames_and (flag : BitVec 32) (ps : List (CStr × NvValue)) :
    UniqueNames (flag &&& (nvUniqueName ||| nvUniqueNameType)) ps ↔ UniqueNames flag ps := by
  rw [UniqueNames, UniqueNames, hasFlag_and _ _ _ rfl, hasFlag_and _ _ _ rfl]

/-! ## Runs -/

theorem nvlistNextNvpair_cursor {E : Type} {fuel : ℕ} {nvl nvl' : Nvl E} {nvp res : Option ℕ}
    (hnext : nvlistNextNvpair fuel nvl nvp = some (nvl', res)) :
      nvl' = { nvl with nvpCurr := res } := by
  unfold nvlistNextNvpair at hnext
  cases nvp with
  | none =>
    cases hnext
    rfl
  | some a =>
    simp only at hnext
    split at hnext
    · obtain ⟨nd, -, heq⟩ := bind_eq_some_iff.mp hnext
      cases heq
      rfl
    · obtain ⟨contains, -, heq⟩ := bind_eq_some_iff.mp hnext
      cases heq
      rfl

/-- After any run, the list is the pairs of the operations. -/
theorem NvRun.rows (hrun : NvRun h n flag nvl ops) :
    ∃ rs, nvl.Rows h (RepEmb h n) rs ∧ rs.map Row.pair = specRun flag ops
      ∧ nvl.nvlNvflag = flag &&& (nvUniqueName ||| nvUniqueNameType) := by
  induction hrun with
  | alloc last curr => exact ⟨[], rows_nvlistInit flag last curr, rfl, rfl⟩
  | @add nvl nvl' ops alloc calloc d name v res f hrun hd hname halloc hinj hadd ih =>
    obtain ⟨rs, hrows, hpairs, hflag⟩ := ih
    -- fuel for the call, for the walk over the pairs, and for copying the value
    obtain ⟨fuel, hf, hlen, hv⟩ : ∃ fuel, f ≤ fuel ∧ rs.length ≤ fuel ∧ v.allPairs.length ≤ fuel :=
      ⟨f + rs.length + v.allPairs.length, by omega, by omega, by omega⟩
    obtain ⟨nvl1, res1, hadd1, herr, hok⟩ :=
      nvlistAddCommon_spec (copyEmbedded_spec h fuel n hinj) hrows hlen halloc hname hd hv
    rw [hadd fuel hf, some.injEq, Prod.mk.injEq] at hadd1
    obtain ⟨rfl, rfl⟩ := hadd1
    by_cases hres : res = .ok ()
    · obtain ⟨a, rs', -, hrows', hpairs', -, hflag'⟩ := hok hres
      refine ⟨rs', hrows', ?_, hflag'.trans hflag⟩
      rw [if_pos hres, specRun_append, hpairs', hflag, specAdd_and, hpairs]
      rfl
    · rw [if_neg hres, herr hres]
      exact ⟨rs, hrows, hpairs, hflag⟩
  | @remove nvl nvl' ops res name type f hrun hrem ih =>
    obtain ⟨rs, hrows, hpairs, hflag⟩ := ih
    obtain ⟨nvl1, hrem1, hrows1, hflag1⟩ :=
      nvlistRemove_spec name type hrows (Nat.le_add_left rs.length f)
    rw [hrem _ (Nat.le_add_right f _), some.injEq, Prod.mk.injEq] at hrem1
    rw [hrem1.1]
    refine ⟨_, hrows1, ?_, hflag1.trans hflag⟩
    rw [specRun_append, map_pair_eraseP, hpairs]
    rfl
  | @removeAll nvl nvl' ops res name f hrun hrem ih =>
    obtain ⟨rs, hrows, hpairs, hflag⟩ := ih
    obtain ⟨nvl1, hrem1, hrows1, hflag1⟩ :=
      nvlistRemoveAll_spec name hrows (Nat.le_add_left rs.length f)
    rw [hrem _ (Nat.le_add_right f _), some.injEq, Prod.mk.injEq] at hrem1
    rw [hrem1.1]
    refine ⟨_, hrows1, ?_, hflag1.trans hflag⟩
    rw [specRun_append, map_pair_filter, hpairs]
    rfl
  | @next nvl nvl' ops res nvp f hrun hnext ih =>
    obtain ⟨rs, hrows, hpairs, hflag⟩ := ih
    rw [nvlistNextNvpair_cursor (hnext f le_rfl)]
    exact ⟨rs, ⟨hrows.linked, hrows.holds, hrows.free⟩, hpairs, hflag⟩

/-! ## Lookups -/

variable {E : Type} {RepE : E → Nvlist → Prop}

/-- An array without elements is returned without its address. -/
theorem NvData.Holds.of_nelem_zero {d : NvData E} {v : NvValue} (hd : d.Holds h RepE v)
    (hzero : d.nelem = 0) : NvData.Holds h RepE { d with raw := [] } v := by
  refine ⟨hd.type_eq, hd.nelem_eq, ?_, hd.strs, hd.lists⟩
  intro hraw
  have hnelem : v.nelem = 0 := hd.nelem_eq.symm.trans hzero
  cases v with
  | num | string | hrtime => cases hnelem
  | numArray t xs =>
    rw [eq_nil_of_length_eq_zero hnelem]
    exact prefix_rfl
  | _ => cases hraw

theorem nvpairValueCommon_spec {p : Nvp E} {name : CStr} {v : NvValue}
    (hp : p.Holds h RepE name v) :
    ∃ d, nvpairValueCommon p v.type = some (.ok d) ∧ d.Holds h RepE v := by
  obtain ⟨d, hdata, hd⟩ := hp.data
  refine ⟨if d.nelem = 0 then { d with raw := [] } else d, ?_, ?_⟩
  · rw [nvpairValueCommon, if_neg (not_not_intro hp.type_eq), hdata]
    rfl
  · split
    · exact hd.of_nelem_zero (by assumption)
    · exact hd

theorem nvlistLookupLoop_spec {nvl : Nvl E} (name : CStr) (type : DataType) (done : List (Row E))
    {todo : List (Row E)} {fuel : ℕ}
    (hrows : nvl.Rows h RepE (done ++ todo)) (hfuel : todo.length ≤ fuel) :
    ∃ res, nvlistLookupLoop nvl name type fuel (todo.map Row.addr).head? = some res
      ∧ Answers h RepE res
        ((((todo.map Row.pair).find? (isPair name type)).map Prod.snd).elim
          (.error .enoent) .ok) := by
  induction todo generalizing done fuel with
  | nil =>
    refine ⟨.error .enoent, ?_, rfl⟩
    cases fuel <;> rfl
  | cons r todo ih =>
    obtain _ | fuel := fuel
    · cases hfuel
    obtain ⟨prev, hnode⟩ := hrows.node_eq
    have hholds := hrows.holds r (mem_append_right _ (mem_cons_self ..))
    simp only [map_cons, head?_cons, nvlistLookupLoop, hnode, bind_eq_bind,
      bind_some, hholds.name_eq, hholds.type_eq]
    by_cases hpair : r.name = name ∧ r.value.type = type
    · rw [if_pos hpair, find?_cons_of_pos (isPair_iff.mpr hpair)]
      obtain ⟨d, hvalue, hd⟩ := nvpairValueCommon_spec hholds
      rw [hpair.2] at hvalue
      exact ⟨.ok d, hvalue, hd⟩
    · rw [if_neg hpair, find?_cons_of_neg (fun hp => hpair (isPair_iff.mp hp))]
      rw [append_cons] at hrows
      exact ih (done ++ [r]) hrows (Nat.le_of_succ_le_succ hfuel)

theorem nvlistLookupCommon_spec {nvl : Nvl E} {rs : List (Row E)} (name : CStr) (type : DataType)
    {fuel : ℕ} (hrows : nvl.Rows h RepE rs) (hfuel : rs.length ≤ fuel) :
    ∃ res, nvlistLookupCommon fuel nvl name type = some res
      ∧ Answers h RepE res (specLookup nvl.nvlNvflag (rs.map Row.pair) name type) := by
  rw [nvlistLookupCommon, specLookup]
  split
  · exact ⟨.error .enotsup, rfl, rfl⟩
  · rw [hrows.head_eq]
    exact nvlistLookupLoop_spec name type [] hrows hfuel

theorem toList_specList (flag : BitVec 32) (ps : List (CStr × NvValue)) :
    (specList flag ps).pairs.toList = ps := by
  rw [specList, Nvlist.pairs]
  induction ps with
  | nil => rfl
  | cons p ps ih =>
    rw [foldr_cons, Nvpairs.toList, ih]

/-- After any run the list in memory stands for the list of the operations. -/
theorem NvRun.rep (hrun : NvRun h n flag nvl ops) :
    RepEmb h (n + 1) nvl (specList flag (specRun flag ops)) := by
  obtain ⟨rs, hrows, hpairs, hflag⟩ := hrun.rows
  refine ⟨rs, hrows, ?_, hflag, ?_, ?_⟩
  · rw [toList_specList, hpairs]
  · change flag &&& _ &&& _ = flag &&& _
    rw [BitVec.and_assoc, BitVec.and_self]
  · rw [toList_specList]
    exact (uniqueNames_and flag _).mpr ((uniqueNames_nil flag).run ops)

/-- After any run the list in memory stands for the list of the operations, so that it can itself be
embedded, and a lookup answers with what is in it; the operations return. -/
theorem nvRun_refines (hrun : NvRun h n flag nvl ops) :
    RepEmb h (n + 1) nvl (specList flag (specRun flag ops))
      ∧ (∀ fuel name type, (specRun flag ops).length ≤ fuel →
        ∃ res, nvlistLookupCommon fuel nvl name type = some res
          ∧ Answers h (RepEmb h n) res (specLookup flag (specRun flag ops) name type))
      ∧ (∀ fuel alloc calloc name d v, (specRun flag ops).length ≤ fuel → v.allPairs.length ≤ fuel →
        (∀ a, alloc = some a → nvl.pairs.node a = none) →
        (∀ i j a, calloc i = some a → calloc j = some a → i = j) →
        name.length < 32767 → d.Holds h (RepEmb h n) v →
        ∃ nvl' res, nvlistAddCommon h (copyEmbedded h calloc fuel n) fuel alloc nvl name d
        = some (nvl', res)
          ∧ (res ≠ .ok () → nvl' = nvl))
      ∧ (∀ fuel name type, (specRun flag ops).length ≤ fuel →
        ∃ nvl', nvlistRemove fuel nvl name type
          = some (nvl', if (specRun flag ops).any (isPair name type) then .ok ()
          else .error .enoent))
      ∧ ∀ fuel name, (specRun flag ops).length ≤ fuel →
        ∃ nvl', nvlistRemoveAll fuel nvl name
          = some (nvl', if (specRun flag ops).any (fun p => decide (p.1 = name)) then .ok ()
          else .error .enoent) := by
  obtain ⟨rs, hrows, hpairs, hflag⟩ := hrun.rows
  have hlen : (specRun flag ops).length = rs.length := by rw [← hpairs, length_map]
  refine ⟨hrun.rep, ?_, ?_, ?_, ?_⟩
  · intro fuel name type hfuel
    obtain ⟨res, hres, hans⟩ := nvlistLookupCommon_spec name type hrows (hlen ▸ hfuel)
    rw [hpairs, hflag, specLookup, hasFlag_and _ _ _ rfl] at hans
    exact ⟨res, hres, hans⟩
  · intro fuel alloc calloc name d v hfuel hv halloc hinj hname hd
    obtain ⟨nvl', res, hadd, herr, -⟩ :=
      nvlistAddCommon_spec (copyEmbedded_spec h fuel n hinj) hrows
      (hlen ▸ hfuel) halloc hname hd hv
    exact ⟨nvl', res, hadd, herr⟩
  · intro fuel name type hfuel
    obtain ⟨nvl', hrem, -⟩ := nvlistRemove_spec name type hrows (hlen ▸ hfuel)
    refine ⟨nvl', ?_⟩
    rw [hrem, ← hpairs, List.any_map]
    rfl
  · intro fuel name hfuel
    obtain ⟨nvl', hrem, -⟩ := nvlistRemoveAll_spec name hrows (hlen ▸ hfuel)
    refine ⟨nvl', ?_⟩
    rw [hrem, ← hpairs, List.any_map]
    rfl

end

/-- What is passed for a `DATA_TYPE_BOOLEAN`. -/
def booleanData {n : ℕ} : NvData (Embedded n) := ⟨.boolean, 0, [], [], []⟩

theorem booleanData_holds (h : Host) {n : ℕ} : booleanData.Holds h (RepEmb h n) .boolean :=
  ⟨rfl, rfl, nofun, nofun, List.Forall₂.nil⟩

/-- An allocator that gives the `i`th pair the address `i`. -/
theorem some_injective : ∀ i j a : ℕ, some i = some a → some j = some a → i = j := by
  intro i j a hi hj
  cases hi
  cases hj
  rfl

/-- A list without flags is not searched. -/
theorem nvlistLookupCommon_enotsup : ∃ nvl, NvRun ⟨true, true⟩ 0 0 nvl [.add nameA .boolean]
    ∧ (specRun 0 [.add nameA .boolean]).any (isPair nameA .boolean)
    ∧ nvlistLookupCommon 1 nvl nameA .boolean = some (.error .enotsup) := by
  refine ⟨_, NvRun.add (some 1) some booleanData nameA .boolean (.ok ()) 0
    (NvRun.alloc (some 7) (some 8)) (booleanData_holds _) (by decide) (fun _ _ => rfl)
    some_injective (fun _ _ => rfl), by decide, rfl⟩

/-- The name `b` -/
def nameB : CStr := ⟨[98], by decide⟩

/-- A result that more fuel does not change. -/
theorem of_fuel {α : Type} {F : ℕ → Option α} {x : α} (f : ℕ) (hres : F f = some x)
    (hmore : ∀ k, F (k + f + 1) = some x) : ∀ fuel, f ≤ fuel → F fuel = some x := by
  intro fuel hfuel
  rcases hfuel.eq_or_lt with rfl | hlt
  · exact hres
  · rw [← Nat.sub_add_cancel hlt]
    exact hmore _

/-- A list with one pair, as memory has it. -/
def innerList : Embedded 1 :=
  ((nvlistAddCommon ⟨true, true⟩ (copyEmbedded ⟨true, true⟩ some 1 0) 1 (some 1)
    (nvlistXalloc 0 none none) nameA booleanData).map Prod.fst).getD (nvlistXalloc 0 none none)

theorem nvRun_innerList : NvRun ⟨true, true⟩ 0 0 innerList [.add nameA .boolean] :=
  NvRun.add (some 1) some booleanData nameA .boolean (.ok ()) 0 (NvRun.alloc none none)
    (booleanData_holds _) (by decide) (fun _ _ => rfl) some_injective (fun _ _ => rfl)

/-- Two pairs without a value, of which the second is removed.  A string takes its name, and an
embedded list replaces the first. -/
def nestedOps : List NvOp :=
  [.add nameA .boolean, .add nameB .boolean, .remove nameB .boolean, .add nameB (.string nameA),
    .add nameA (.nvlist (specList 0 [(nameA, .boolean)]))]

/-- The operations lead to a list with the pairs at 3 and 4, and the cursor at the first. -/
theorem nvRun_nested : ∃ nvl, NvRun ⟨true, true⟩ 1 nvUniqueName nvl nestedOps ∧ nvl.nvpCurr = some 3
    ∧ nvlistWalk 3 nvl none = some [3, 4] := by
  have hstring : NvData.Holds ⟨true, true⟩ (RepEmb ⟨true, true⟩ 1) ⟨.string, 1, [97, 0], [], []⟩
      (.string nameA) := ⟨rfl, rfl, fun _ => List.prefix_rfl, nofun, List.Forall₂.nil⟩
  have hlist : NvData.Holds ⟨true, true⟩ (RepEmb ⟨true, true⟩ 1) ⟨.nvlist, 1, [], [], [innerList]⟩
      (.nvlist (specList 0 [(nameA, .boolean)])) :=
    ⟨rfl, rfl, nofun, nofun, List.Forall₂.cons nvRun_innerList.rep List.Forall₂.nil⟩
  have h₀ : NvRun ⟨true, true⟩ 1 nvUniqueName (nvlistXalloc nvUniqueName (some 7) (some 8))
    [] := .alloc _ _
  have h₁ := NvRun.add (some 1) some booleanData nameA .boolean (.ok ()) 2 h₀ (booleanData_holds _)
    (by decide) (fun _ _ => rfl) some_injective (of_fuel 2 rfl fun _ => rfl)
  have h₂ := NvRun.add (some 2) some booleanData nameB .boolean (.ok ()) 2 h₁ (booleanData_holds _)
    (by decide) (by rintro a ⟨⟩; rfl) some_injective (of_fuel 2 rfl fun _ => rfl)
  have h₃ := NvRun.remove nameB .boolean 2 h₂ (of_fuel 2 rfl fun _ => rfl)
  have h₄ := NvRun.add (some 3) some _ nameB _ (.ok ()) 2 h₃ hstring
    (by decide) (by rintro a ⟨⟩; rfl) some_injective (of_fuel 2 rfl fun _ => rfl)
  have h₅ := NvRun.add (some 4) some _ nameA _ (.ok ()) 2 h₄ hlist
    (by decide) (by rintro a ⟨⟩; rfl) some_injective (of_fuel 2 rfl fun _ => rfl)
  exact ⟨_, NvRun.next none 0 h₅ fun _ _ => rfl, rfl, rfl⟩

theorem nvRun_refines_nested : ∃ nvl, NvRun ⟨true, true⟩ 1 nvUniqueName nvl nestedOps
    ∧ RepEmb ⟨true, true⟩ 2 nvl (specList nvUniqueName
      [(nameB, .string nameA), (nameA, .nvlist (specList 0 [(nameA, .boolean)]))])
    ∧ (∃ res, nvlistLookupCommon 2 nvl nameB .string = some res
      ∧ Answers ⟨true, true⟩ (RepEmb ⟨true, true⟩ 1) res (.ok (.string nameA)))
    ∧ (∃ res, nvlistLookupCommon 2 nvl nameA .nvlist = some res
      ∧ Answers ⟨true, true⟩ (RepEmb ⟨true, true⟩ 1) res
      (.ok (.nvlist (specList 0 [(nameA, .boolean)]))))
    ∧ ∃ res, nvlistLookupCommon 2 nvl nameA .boolean = some res
      ∧ Answers ⟨true, true⟩ (RepEmb ⟨true, true⟩ 1) res (.error .enoent) := by
  obtain ⟨nvl, hrun, -⟩ := nvRun_nested
  obtain ⟨hrep, hlookup, -⟩ := nvRun_refines hrun
  exact ⟨nvl, hrun, hrep, hlookup 2 nameB .string le_rfl, hlookup 2 nameA .nvlist le_rfl,
    hlookup 2 nameA .boolean le_rfl⟩

/-! ## The next pair -/

section

variable {E : Type} {h : Host} {RepE : E → Nvlist → Prop} {nvl : Nvl E}
  {rs rs' done todo : List (Row E)}
  {r : Row E} {fuel : ℕ}

theorem nvlistContainsNvp_spec (hrows : nvl.Rows h RepE (done ++ todo)) (hr : r ∈ todo)
    (hfuel : todo.length ≤ fuel) :
    nvlistContainsNvp nvl r.addr fuel (todo.map Row.addr).head? = some true := by
  induction todo generalizing done fuel with
  | nil => cases hr
  | cons x todo ih =>
    obtain _ | fuel := fuel
    · cases hfuel
    obtain ⟨prev, hnode⟩ := hrows.node_eq
    simp only [map_cons, head?_cons, nvlistContainsNvp, hnode, bind_eq_bind, bind_some]
    by_cases heq : x.addr = r.addr
    · rw [if_pos heq]
    rw [if_neg heq]
    rcases mem_cons.mp hr with rfl | hr
    · exact absurd rfl heq
    · rw [append_cons] at hrows
      exact ih hrows hr (Nat.le_of_succ_le_succ hfuel)

/-- From the pair at the cursor, the next pair is returned. -/
theorem nvlistNextNvpair_curr (fuel : ℕ) (hrows : nvl.Rows h RepE (rs ++ r :: rs'))
    (hcurr : nvl.nvpCurr = some r.addr) :
    nvlistNextNvpair fuel nvl (some r.addr)
      = some ({ nvl with nvpCurr := (rs'.map Row.addr).head? }, (rs'.map Row.addr).head?) := by
  obtain ⟨prev, hnode⟩ := hrows.node_eq
  unfold nvlistNextNvpair
  simp only
  rw [if_pos hcurr, hnode]
  rfl

/-- From any other pair of the list, the pair itself is returned. -/
theorem nvlistNextNvpair_some (hrows : nvl.Rows h RepE (rs ++ r :: rs'))
    (hfuel : (rs ++ r :: rs').length ≤ fuel) :
    ∃ res, nvlistNextNvpair fuel nvl (some r.addr) = some ({ nvl with nvpCurr := res }, res)
      ∧ res = if nvl.nvpCurr = some r.addr then (rs'.map Row.addr).head? else some r.addr := by
  refine ⟨_, ?_, rfl⟩
  split
  next hcurr => exact nvlistNextNvpair_curr fuel hrows hcurr
  next hcurr =>
    have hrows' : nvl.Rows h RepE ([] ++ (rs ++ r :: rs')) := hrows
    unfold nvlistNextNvpair
    simp only
    rw [if_neg hcurr, hrows.head_eq, nvlistContainsNvp_spec hrows' (by simp) hfuel]
    rfl

theorem Nvl.Rows.ne_head (hrows : nvl.Rows h RepE (rs ++ r :: rs')) :
    some r.addr ≠ (rs'.map Row.addr).head? := by
  intro heq
  have hnd := hrows.nodup
  rw [map_append, map_cons, nodup_append, nodup_cons] at hnd
  exact hnd.2.1.1 (mem_of_head? heq.symm)

/-- The cursor is no part of the pairs. -/
theorem Nvl.Rows.cursor (hrows : nvl.Rows h RepE rs) (curr : Option ℕ) :
    Nvl.Rows h RepE { nvl with nvpCurr := curr } rs :=
  ⟨hrows.linked, hrows.holds, hrows.free⟩

theorem nvlistWalk_some (hrows : nvl.Rows h RepE (done ++ r :: todo))
    (hcurr : nvl.nvpCurr = some r.addr) (hfuel : todo.length < fuel) :
    nvlistWalk fuel nvl (some r.addr) = some (todo.map Row.addr) := by
  induction todo generalizing done r nvl fuel with
  | nil =>
    obtain _ | fuel := fuel
    · cases hfuel
    rw [nvlistWalk, nvlistNextNvpair_curr fuel hrows hcurr]
    rfl
  | cons x todo ih =>
    obtain _ | fuel := fuel
    · cases hfuel
    rw [nvlistWalk, nvlistNextNvpair_curr fuel hrows hcurr]
    rw [append_cons] at hrows
    have hrest := ih (hrows.cursor (some x.addr)) rfl (Nat.lt_of_succ_lt_succ hfuel)
    simp only [map_cons, head?_cons, bind_eq_bind, bind_some, hrest]
    rfl

theorem nvlistWalk_none (hrows : nvl.Rows h RepE rs) (hfuel : rs.length < fuel) :
    nvlistWalk fuel nvl none = some (rs.map Row.addr) := by
  obtain _ | fuel := fuel
  · cases hfuel
  have hnext : nvlistNextNvpair fuel nvl none
      = some ({ nvl with nvpCurr := (rs.map Row.addr).head? }, (rs.map Row.addr).head?) := by
    rw [← hrows.head_eq]
    rfl
  rw [nvlistWalk, hnext]
  cases rs with
  | nil => rfl
  | cons r todo =>
    have hrows' : nvl.Rows h RepE ([] ++ r :: todo) := hrows
    have hrest := nvlistWalk_some (hrows'.cursor (some r.addr)) rfl (Nat.lt_of_succ_lt_succ hfuel)
    simp only [map_cons, head?_cons, bind_eq_bind, bind_some, hrest]
    rfl

end

/-- After any run, the pair that follows `r` is returned for `r` exactly when the cursor of the list
is at `r`. A loop over the pairs sees each once when nothing else moves the cursor. -/
theorem nvlistNextNvpair_eq_iff {h : Host} {n : ℕ} {flag : BitVec 32} {nvl : Nvl (Embedded n)}
    {ops : List NvOp} (hrun : NvRun h n flag nvl ops) :
    ∃ rs, nvl.Rows h (RepEmb h n) rs ∧ rs.map Row.pair = specRun flag ops
      ∧ (∀ done r todo fuel, rs = done ++ r :: todo → rs.length ≤ fuel →
        ∃ res, nvlistNextNvpair fuel nvl (some r.addr) = some ({ nvl with nvpCurr := res }, res)
          ∧ (res = (todo.map Row.addr).head? ↔ nvl.nvpCurr = some r.addr))
      ∧ ∀ fuel, rs.length < fuel → nvlistWalk fuel nvl none = some (rs.map Row.addr) := by
  obtain ⟨rs, hrows, hpairs, -⟩ := hrun.rows
  refine ⟨rs, hrows, hpairs, ?_, fun fuel hfuel => nvlistWalk_none hrows hfuel⟩
  rintro done r todo fuel rfl hfuel
  obtain ⟨res, hnext, hres⟩ := nvlistNextNvpair_some hrows hfuel
  refine ⟨res, hnext, ?_⟩
  rw [hres]
  constructor
  · intro heq
    by_contra hcurr
    rw [if_neg hcurr] at heq
    exact hrows.ne_head heq
  · intro hcurr
    rw [if_pos hcurr]

/-- A second iteration that starts over and asks for the pair after the first one is given the first
one again: the cursor is at the second pair by then. -/
theorem nvlistNextNvpair_repeats :
    (do
      let (nvl, _) ← nvlistAddCommon ⟨true, true⟩ (copyEmbedded ⟨true, true⟩ some 2 0) 2 (some 1)
        (nvlistXalloc 0 none none) nameA booleanData
      let (nvl, _) ← nvlistAddCommon ⟨true, true⟩ (copyEmbedded ⟨true, true⟩ some 2 0) 2 (some 2)
        nvl nameB booleanData
      let (nvl, a) ← nvlistNextNvpair 2 nvl none
      let (nvl, b) ← nvlistNextNvpair 2 nvl a
      let (_, c) ← nvlistNextNvpair 2 nvl a
      some (a, b, c)) = some (some 1, some 2, some 1) := by
  rfl

theorem nvlistNextNvpair_eq_iff_nested : ∃ nvl, NvRun ⟨true, true⟩ 1 nvUniqueName nvl nestedOps
    ∧ nvlistWalk 3 nvl none = some [3, 4] ∧ nvl.nvpCurr = some 3
    ∧ nvlistNextNvpair 2 nvl (some 3) = some ({ nvl with nvpCurr := some 4 }, some 4)
    ∧ ∃ res, nvlistNextNvpair 2 nvl (some 4) = some ({ nvl with nvpCurr := res }, res) ∧
      res ≠ none := by
  obtain ⟨nvl, hrun, hcurr, hwalk⟩ := nvRun_nested
  obtain ⟨rs, -, hpairs, hnext, hrs⟩ := nvlistNextNvpair_eq_iff hrun
  have hlen : rs.length = 2 := by
    rw [← length_map Row.pair, hpairs]
    rfl
  rw [hrs 3 (by omega), some_inj] at hwalk
  obtain ⟨r, r', rfl⟩ := length_eq_two.mp hlen
  simp only [map_cons, map_nil, cons.injEq, and_true] at hwalk
  obtain ⟨res, hres, hiff⟩ := hnext [] r [r'] 2 rfl le_rfl
  obtain ⟨res', hres', hiff'⟩ := hnext [r] r' [] 2 rfl le_rfl
  rw [hwalk.1] at hres hiff
  rw [hwalk.2] at hres' hiff'
  have hfour : res = some 4 := (hiff.mpr hcurr).trans (congrArg some hwalk.2)
  refine ⟨nvl, hrun, ?_, hcurr, hfour ▸ hres, res', hres', ?_⟩
  · rw [hrs 3 (by simp), map_cons, map_cons, map_nil, hwalk.1, hwalk.2]
  · intro hnone
    rw [hiff'.mp hnone] at hcurr
    cases hcurr

end Polaris
