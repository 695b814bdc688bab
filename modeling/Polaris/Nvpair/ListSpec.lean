import Polaris.Nvpair.Pair

/-!
# The list operations

Each operation on a list in memory against what it does to the sequence of pairs the list stands
for.  The pairs in memory are given as rows: the address of a pair, the pair, and its name and
value.

## Main results

* `Nvl.Rows.unlink`, `Nvl.Rows.link` — one pair less and one more.
* `nvlistRemove_spec`, `nvlistRemoveAll_spec`, `nvlistAddCommon_spec`
* `copyEmbedded_spec` — copies stand for the same lists, at every nesting.
-/

namespace Polaris

open Xdr Function List Option

/-- A pair of a list: where it is, what is there, and its name and value. -/
structure Row (E : Type) where
  addr : ℕ
  nvp : Nvp E
  name : CStr
  value : NvValue

/-- The node of a row. -/
def Row.node {E : Type} (r : Row E) : ℕ × Nvp E := (r.addr, r.nvp)

/-- The name and the value of a row. -/
def Row.pair {E : Type} (r : Row E) : CStr × NvValue := (r.name, r.value)

/-- The list holds the rows in order, and no other pairs are allocated. -/
structure Nvl.Rows {E : Type} (h : Host) (RepE : E → Nvlist → Prop) (nvl : Nvl E)
    (rs : List (Row E)) :
    Prop where
  linked : nvl.pairs.Linked (rs.map Row.node)
  holds : ∀ r ∈ rs, r.nvp.Holds h RepE r.name r.value
  free : ∀ a, a ∉ rs.map Row.addr → nvl.pairs.node a = none

/-- A pair has this name and type. -/
def isPair (name : CStr) (type : DataType) (p : CStr × NvValue) : Bool :=
  decide (p.1 = name) && decide (p.2.type = type)

theorem isPair_iff {name : CStr} {type : DataType} {p : CStr × NvValue} :
    isPair name type p = true ↔ p.1 = name ∧ p.2.type = type := by
  rw [isPair, Bool.and_eq_true, decide_eq_true_eq, decide_eq_true_eq]

/-- The pairs that stay when one with this name and type is added. -/
def specDrop (flag : BitVec 32) (name : CStr) (type : DataType) (ps : List (CStr × NvValue)) :
    List (CStr × NvValue) :=
  if hasFlag flag nvUniqueName then ps.filter fun p => decide (p.1 ≠ name)
  else if hasFlag flag nvUniqueNameType then ps.eraseP (isPair name type)
  else ps

/-- The pairs after one is added. -/
def specAdd (flag : BitVec 32) (ps : List (CStr × NvValue)) (name : CStr) (v : NvValue) :
    List (CStr × NvValue) := specDrop flag name v.type ps ++ [(name, v)]

variable {flag : BitVec 32} {ps : List (CStr × NvValue)}

section

variable {E : Type} {h : Host} {RepE : E → Nvlist → Prop} {nvl : Nvl E}
  {rs rs' done todo : List (Row E)} {r : Row E} {name : CStr} {type : DataType} {v : NvValue}
  {fuel : ℕ} {copy : E → Option (Except NvErrno E)}

@[simp] theorem map_fst_node (rs : List (Row E)) : (rs.map Row.node).map Prod.fst
    = rs.map Row.addr := by
  simp [Row.node, comp_def]

/-! ## One pair less, one more -/

theorem Nvl.Rows.head_eq (hrows : nvl.Rows h RepE rs) :
    nvl.pairs.head = (rs.map Row.addr).head? := by
  rw [hrows.linked.head_eq, map_fst_node]

/-- The node of a row. -/
theorem Nvl.Rows.node_eq (hrows : nvl.Rows h RepE (rs ++ r :: rs')) :
    ∃ prev, nvl.pairs.node r.addr = some ⟨(rs'.map Row.addr).head?, prev, r.nvp⟩ := by
  have hlinked := hrows.linked
  rw [map_append, map_cons] at hlinked
  obtain ⟨prev, hnode⟩ := hlinked.node_eq
  rw [map_fst_node] at hnode
  exact ⟨prev, hnode⟩

/-- What is free is not a row. -/
theorem Nvl.Rows.not_mem {a : ℕ} (hrows : nvl.Rows h RepE rs) (ha : nvl.pairs.node a = none) :
    a ∉ rs.map Row.addr := by
  intro hmem
  obtain ⟨r, hr, rfl⟩ := mem_map.mp hmem
  obtain ⟨rs1, rs2, rfl⟩ := append_of_mem hr
  obtain ⟨prev, hnode⟩ := hrows.node_eq
  rw [ha] at hnode
  cases hnode

theorem Nvl.Rows.nodup (hrows : nvl.Rows h RepE rs) : (rs.map Row.addr).Nodup := by
  rw [← map_fst_node]
  exact hrows.linked.nodup

theorem Nvl.Rows.unlink (hrows : nvl.Rows h RepE (rs ++ r :: rs')) :
    ∃ nvl', nvpBufUnlink nvl r.addr = some nvl' ∧ nvl'.Rows h RepE (rs ++ rs')
      ∧ nvl'.nvlNvflag = nvl.nvlNvflag := by
  have hlinked := hrows.linked
  rw [map_append, map_cons] at hlinked
  obtain ⟨prev, hnode⟩ := hrows.node_eq
  obtain ⟨l', hunlink, hlinked', hframe⟩ := hlinked.unlink
  rw [← map_append] at hlinked' hframe
  have hnotin : r.addr ∉ (rs ++ rs').map Row.addr := by
    have hnd := hrows.nodup
    rw [map_append, map_cons, nodup_middle, ← map_append, nodup_cons] at hnd
    exact hnd.1
  refine ⟨{ nvl with
      nvpCurr := if nvl.nvpCurr = some r.addr then (rs'.map Row.addr).head? else nvl.nvpCurr
      pairs := { l' with node := update l'.node r.addr none } }, ?_, ⟨?_, ?_, ?_⟩, rfl⟩
  · rw [nvpBufUnlink, hnode, hunlink]
    rfl
  · obtain ⟨s, hpath, hlast⟩ := hlinked'.path
    refine ⟨hlinked'.nodup, s, hpath.of_update ?_, hlast⟩
    rw [map_fst_node]
    exact hnotin
  · intro x hx
    apply hrows.holds
    rw [mem_append] at hx ⊢
    exact hx.imp_right (mem_cons_of_mem _)
  · intro a ha
    by_cases heq : a = r.addr
    · rw [heq]
      exact update_self ..
    change update l'.node r.addr none a = none
    rw [update_of_ne heq, hframe a (by rw [map_fst_node]; exact ha)]
    apply hrows.free
    rw [map_append, map_cons, perm_middle.mem_iff, ← map_append, mem_cons, not_or]
    exact ⟨heq, ha⟩

theorem Nvl.Rows.link (hrows : nvl.Rows h RepE rs) {a : ℕ} {p : Nvp E}
    (ha : nvl.pairs.node a = none) (hp : p.Holds h RepE name v) :
    ∃ nvl', nvpBufLink nvl a p = some nvl' ∧ nvl'.Rows h RepE (rs ++ [⟨a, p, name, v⟩])
      ∧ nvl'.nvlNvflag = nvl.nvlNvflag := by
  have hnotin : a ∉ (rs.map Row.node).map Prod.fst := by
    rw [map_fst_node]
    exact hrows.not_mem ha
  have hlinked : ({ nvl.pairs with
      node := update nvl.pairs.node a (some ⟨none, none, p⟩) } : DList (Nvp E)).Linked
        (rs.map Row.node) := by
    obtain ⟨s, hpath, hlast⟩ := hrows.linked.path
    exact ⟨hrows.linked.nodup, s, hpath.of_update hnotin, hlast⟩
  obtain ⟨l', hlink, hlinked', hframe⟩ := hlinked.link (v := p) (update_self ..) hnotin
  refine ⟨{ nvl with pairs := l' }, ?_, ⟨?_, ?_, ?_⟩, rfl⟩
  · rw [nvpBufLink]
    simp only [hlink, bind_eq_bind, bind_some]
  · rw [map_append]
    exact hlinked'
  · intro r hr
    rw [mem_append, mem_singleton] at hr
    rcases hr with hr | rfl
    · exact hrows.holds r hr
    · exact hp
  · intro b hb
    rw [map_append, mem_append, not_or, map_singleton, mem_singleton] at hb
    obtain ⟨hbrs, hba⟩ := hb
    refine (hframe b hba ?_).trans ?_
    · rwa [map_fst_node]
    · exact (update_of_ne hba ..).trans (hrows.free b hbrs)

/-! ## Removing -/

theorem nvlistRemoveAllLoop_spec (name : CStr) (done : List (Row E)) (found : Bool)
    (hrows : nvl.Rows h RepE (done ++ todo)) (hfuel : todo.length ≤ fuel) :
    ∃ nvl', nvlistRemoveAllLoop name fuel (todo.map Row.addr).head? nvl found
        = some (nvl', found || todo.any fun r => decide (r.name = name))
      ∧ nvl'.Rows h RepE (done ++ todo.filter fun r => decide (r.name ≠ name))
      ∧ nvl'.nvlNvflag = nvl.nvlNvflag := by
  induction todo generalizing nvl done fuel found with
  | nil =>
    refine ⟨nvl, ?_, hrows, rfl⟩
    rw [nvlistRemoveAllLoop.eq_def]
    simp
  | cons r todo ih =>
    obtain ⟨prev, hnode⟩ := hrows.node_eq
    obtain _ | fuel := fuel
    · simp at hfuel
    rw [length_cons, Nat.add_le_add_iff_right] at hfuel
    have hname := (hrows.holds r (by simp)).name_eq
    rw [map_cons, head?_cons, nvlistRemoveAllLoop, hnode]
    simp only [bind_eq_bind, bind_some, hname]
    by_cases heq : r.name = name
    · obtain ⟨nvl1, hunlink, hrows1, hflag1⟩ := hrows.unlink
      obtain ⟨nvl2, hloop, hrows2, hflag2⟩ := ih done true hrows1 hfuel
      refine ⟨nvl2, ?_, ?_, hflag2.trans hflag1⟩
      · rw [if_neg (not_not_intro heq), hunlink]
        simp only [bind_some, hloop]
        simp [heq]
      · simpa [heq] using hrows2
    · rw [append_cons] at hrows
      obtain ⟨nvl2, hloop, hrows2, hflag2⟩ := ih (done ++ [r]) found hrows hfuel
      refine ⟨nvl2, ?_, ?_, hflag2⟩
      · rw [if_pos heq, hloop]
        simp [heq]
      · simpa [heq] using hrows2

/-- `nvlist_remove_all` takes out all pairs with the name. -/
theorem nvlistRemoveAll_spec (name : CStr) (hrows : nvl.Rows h RepE rs) (hfuel : rs.length ≤ fuel) :
    ∃ nvl', nvlistRemoveAll fuel nvl name
        = some (nvl', if rs.any (fun r => decide (r.name = name)) then .ok () else .error .enoent)
      ∧ nvl'.Rows h RepE (rs.filter fun r => decide (r.name ≠ name)) ∧
        nvl'.nvlNvflag = nvl.nvlNvflag := by
  obtain ⟨nvl', hloop, hrows', hflag⟩ :=
    nvlistRemoveAllLoop_spec name [] false hrows hfuel
  refine ⟨nvl', ?_, hrows', hflag⟩
  rw [nvlistRemoveAll, hrows.head_eq, hloop]
  rfl

theorem nvlistRemoveLoop_spec (name : CStr) (type : DataType) (done : List (Row E))
    (hrows : nvl.Rows h RepE (done ++ todo)) (hfuel : todo.length ≤ fuel) :
    ∃ nvl', nvlistRemoveLoop name type fuel (todo.map Row.addr).head? nvl
        = some (nvl', if todo.any (fun r => isPair name type r.pair) then .ok ()
          else .error .enoent)
      ∧ nvl'.Rows h RepE (done ++ todo.eraseP fun r => isPair name type r.pair)
      ∧ nvl'.nvlNvflag = nvl.nvlNvflag := by
  induction todo generalizing nvl done fuel with
  | nil =>
    refine ⟨nvl, ?_, hrows, rfl⟩
    rw [nvlistRemoveLoop.eq_def]
    simp
  | cons r todo ih =>
    obtain ⟨prev, hnode⟩ := hrows.node_eq
    obtain _ | fuel := fuel
    · simp at hfuel
    rw [length_cons, Nat.add_le_add_iff_right] at hfuel
    have hholds := hrows.holds r (by simp)
    rw [map_cons, head?_cons, nvlistRemoveLoop, hnode]
    simp only [bind_eq_bind, bind_some, hholds.name_eq, hholds.type_eq]
    by_cases heq : r.name = name ∧ r.value.type = type
    · have hpair : isPair name type r.pair = true := isPair_iff.mpr heq
      obtain ⟨nvl1, hunlink, hrows1, hflag1⟩ := hrows.unlink
      refine ⟨nvl1, ?_, ?_, hflag1⟩
      · rw [if_pos heq, hunlink]
        simp [hpair]
      · simpa [eraseP_cons, hpair] using hrows1
    · have hpair : isPair name type r.pair = false := by
        rw [← Bool.not_eq_true, isPair_iff]
        exact heq
      rw [append_cons] at hrows
      obtain ⟨nvl2, hloop, hrows2, hflag2⟩ := ih (done ++ [r]) hrows hfuel
      refine ⟨nvl2, ?_, ?_, hflag2⟩
      · rw [if_neg heq, hloop]
        simp [hpair]
      · simpa [eraseP_cons, hpair] using hrows2

/-- `nvlist_remove` takes out the first pair with the name and type. -/
theorem nvlistRemove_spec (name : CStr) (type : DataType) (hrows : nvl.Rows h RepE rs)
    (hfuel : rs.length ≤ fuel) :
    ∃ nvl', nvlistRemove fuel nvl name type
        = some (nvl', if rs.any (fun r => isPair name type r.pair) then .ok () else .error .enoent)
      ∧ nvl'.Rows h RepE (rs.eraseP fun r => isPair name type r.pair)
      ∧ nvl'.nvlNvflag = nvl.nvlNvflag := by
  obtain ⟨nvl', hloop, hrows', hflag⟩ := nvlistRemoveLoop_spec name type [] hrows hfuel
  refine ⟨nvl', ?_, hrows', hflag⟩
  rw [nvlistRemove, hrows.head_eq]
  exact hloop

/-! ## Adding -/

theorem map_pair_filter (rs : List (Row E)) (name : CStr) :
    (rs.filter fun r => decide (r.name ≠ name)).map Row.pair
      = (rs.map Row.pair).filter fun p => decide (p.1 ≠ name) := by
  rw [List.filter_map]
  rfl

theorem map_pair_eraseP (rs : List (Row E)) (name : CStr) (type : DataType) :
    (rs.eraseP fun r => isPair name type r.pair).map Row.pair
      = (rs.map Row.pair).eraseP (isPair name type) := by
  rw [eraseP_map]
  rfl

/-- The end of `nvlist_add_common` on the sequence of pairs. -/
theorem nvlistAddPair_spec {a : ℕ} {p : Nvp E} (hrows : nvl.Rows h RepE rs)
    (hfuel : rs.length ≤ fuel) (ha : nvl.pairs.node a = none) (hp : p.Holds h RepE name v) :
    ∃ nvl' rs', nvlistAddPair fuel nvl a p name = some nvl' ∧ nvl'.Rows h RepE rs'
      ∧ rs'.map Row.pair = specAdd nvl.nvlNvflag (rs.map Row.pair) name v
      ∧ (∀ r ∈ rs', r.addr = a ∨ r ∈ rs) ∧ nvl'.nvlNvflag = nvl.nvlNvflag := by
  obtain ⟨nvl1, rs1, hdrop, hrows1, hpairs1, hsub, hflag1⟩ : ∃ nvl1 rs1,
      nvlistAddPair fuel nvl a p name = nvpBufLink nvl1 a p ∧ nvl1.Rows h RepE rs1
      ∧ rs1.map Row.pair = specDrop nvl.nvlNvflag name v.type (rs.map Row.pair)
      ∧ rs1 ⊆ rs ∧ nvl1.nvlNvflag = nvl.nvlNvflag := by
    rw [nvlistAddPair, specDrop]
    split
    · obtain ⟨nvl1, hrem, hrows1, hflag⟩ := nvlistRemoveAll_spec name hrows hfuel
      refine ⟨nvl1, _, by rw [hrem]; rfl, hrows1, map_pair_filter rs name, ?_, hflag⟩
      intro r hr
      exact mem_of_mem_filter hr
    · split
      · obtain ⟨nvl1, hrem, hrows1, hflag⟩ := nvlistRemove_spec name v.type hrows hfuel
        refine ⟨nvl1, _,
          by rw [hp.type_eq, hrem]; rfl, hrows1, map_pair_eraseP rs name v.type, ?_, hflag⟩
        exact eraseP_subset
      · exact ⟨nvl, rs, rfl, hrows, rfl, List.Subset.refl _, rfl⟩
  have ha1 : nvl1.pairs.node a = none :=
    hrows1.free a fun hmem => hrows.not_mem ha (map_subset _ hsub hmem)
  obtain ⟨nvl2, hlink, hrows2, hflag2⟩ := hrows1.link ha1 hp
  refine ⟨nvl2, _, hdrop.trans hlink, hrows2, ?_, ?_, hflag2.trans hflag1⟩
  · rw [map_append, hpairs1]
    rfl
  · intro r hr
    rw [mem_append, mem_singleton] at hr
    rcases hr with hr | rfl
    · exact Or.inr (hsub hr)
    · exact Or.inl rfl

/-- A way to copy embedded lists of at most `n` pairs that faithfully copies when it succeeds. -/
def CopyOk (RepE : E → Nvlist → Prop) (copy : E → Option (Except NvErrno E)) (n : ℕ) : Prop :=
  ∀ e t, RepE e t → t.allPairs.length ≤ n → ∃ res, copy e = some res ∧
    ∀ e', res = .ok e' → RepE e' t

theorem copyLists_spec {n : ℕ} (hcopy : CopyOk RepE copy n)
    {es : List E} {ts : List Nvlist} (hrep : Forall₂ RepE es ts)
    (hts : ∀ t ∈ ts, t.allPairs.length ≤ n) :
    ∃ res, copyLists copy es = some res ∧ ∀ es', res = .ok es' → Forall₂ RepE es' ts := by
  induction hrep with
  | nil =>
    refine ⟨.ok [], rfl, ?_⟩
    intro es' heq
    cases heq
    exact Forall₂.nil
  | @cons e t es ts he hes ih =>
    rw [forall_mem_cons] at hts
    obtain ⟨res, hres, hok⟩ := hcopy e t he hts.1
    obtain ⟨res', hres', hok'⟩ := ih hts.2
    rw [copyLists, hres, hres']
    cases res with
    | error err => exact ⟨.error err, rfl, nofun⟩
    | ok e' =>
      cases res' with
      | error err => exact ⟨.error err, rfl, nofun⟩
      | ok es' =>
        refine ⟨.ok (e' :: es'), rfl, ?_⟩
        intro es'' heq
        cases heq
        exact Forall₂.cons (hok e' rfl) (hok' es' rfl)

theorem Nvlists.length_allPairs_le {ls : Nvlists} {l : Nvlist} (hl : l ∈ ls.toList) :
    l.allPairs.length ≤ ls.allPairs.length := by
  rcases ls with _ | ⟨l', ls⟩
  · cases hl
  rw [Nvlists.allPairs, length_append]
  rw [Nvlists.toList, mem_cons] at hl
  rcases hl with rfl | hl
  · omega
  · have := Nvlists.length_allPairs_le hl
    omega

theorem NvValue.length_allPairs_le {l : Nvlist} (hl : l ∈ v.lists) :
    l.allPairs.length ≤ v.allPairs.length := by
  cases v with
  | nvlist l' =>
    rw [NvValue.lists, mem_singleton] at hl
    rw [hl, NvValue.allPairs]
  | nvlistArray ls => exact Nvlists.length_allPairs_le hl
  | _ => cases hl

/-- `nvlist_add_common` adds the pair, or fails and leaves the list as it was. -/
theorem nvlistAddCommon_spec {n : ℕ} {alloc : Option ℕ}
    {d : NvData E} (hcopy : CopyOk RepE copy n) (hrows : nvl.Rows h RepE rs)
    (hfuel : rs.length ≤ fuel) (halloc : ∀ a, alloc = some a → nvl.pairs.node a = none)
    (hname : name.length < 32767) (hd : d.Holds h RepE v) (hn : v.allPairs.length ≤ n) :
    ∃ nvl' res, nvlistAddCommon h copy fuel alloc nvl name d = some (nvl', res)
      ∧ (res ≠ .ok () → nvl' = nvl)
      ∧ (res = .ok () → ∃ a rs', alloc = some a ∧ nvl'.Rows h RepE rs'
        ∧ rs'.map Row.pair = specAdd nvl.nvlNvflag (rs.map Row.pair) name v
        ∧ (∀ r ∈ rs', r.addr = a ∨ r ∈ rs) ∧ nvl'.nvlNvflag = nvl.nvlNvflag) := by
  rw [nvlistAddCommon]
  cases hsize : iGetValueSize d.type d.strings d.nelem with
  | none => exact ⟨nvl, _, rfl, fun _ => rfl, nofun⟩
  | some valueSz =>
    obtain rfl := hd.size_eq hsize
    simp only
    split
    · exact ⟨nvl, _, rfl, fun _ => rfl, nofun⟩
    split
    · exact ⟨nvl, _, rfl, fun _ => rfl, nofun⟩
    cases alloc with
    | none => exact ⟨nvl, _, rfl, fun _ => rfl, nofun⟩
    | some a =>
      have hts : ∀ t ∈ v.lists, t.allPairs.length ≤ n :=
        fun t ht => (NvValue.length_allPairs_le ht).trans hn
      obtain ⟨res, hres, hok⟩ := copyLists_spec hcopy hd.lists hts
      simp only [hres, bind_eq_bind, bind_some]
      cases res with
      | error err => exact ⟨nvl, _, rfl, fun _ => rfl, nofun⟩
      | ok lists =>
        obtain ⟨p, hfill, hp⟩ := nvpFill_spec hd hname (hok lists rfl)
        obtain ⟨nvl', rs', hadd, hrows', hpairs, hsub, hflag⟩ :=
          nvlistAddPair_spec hrows hfuel (halloc a rfl) hp
        refine ⟨nvl', .ok (), ?_, fun hne => absurd rfl hne, fun _ =>
          ⟨a, rs', rfl, hrows', hpairs, hsub, hflag⟩⟩
        simp only [hfill, bind_some, hadd]

/-! ## Uniqueness -/

/-- What the flags of a list say about its pairs. -/
def UniqueNames (flag : BitVec 32) (ps : List (CStr × NvValue)) : Prop :=
  if hasFlag flag nvUniqueName then (ps.map Prod.fst).Nodup
  else if hasFlag flag nvUniqueNameType then (ps.map fun p => (p.1, p.2.type)).Nodup
  else True

theorem UniqueNames.sublist {qs : List (CStr × NvValue)} (hu : UniqueNames flag ps)
    (hsub : qs.Sublist ps) : UniqueNames flag qs := by
  rw [UniqueNames] at hu ⊢
  split_ifs at hu ⊢
  · exact hu.sublist (hsub.map _)
  · exact hu.sublist (hsub.map _)

theorem map_eraseP_isPair (ps : List (CStr × NvValue)) (name : CStr) (type : DataType) :
    (ps.eraseP (isPair name type)).map (fun p => (p.1, p.2.type))
      = (ps.map fun p => (p.1, p.2.type)).erase (name, type) := by
  induction ps with
  | nil => rfl
  | cons p ps ih =>
    by_cases hp : isPair name type p
    · rw [eraseP_cons_of_pos hp]
      obtain ⟨rfl, rfl⟩ := isPair_iff.mp hp
      rw [map_cons, erase_cons_head]
    · rw [eraseP_cons_of_neg hp, map_cons, map_cons, erase_cons_tail, ih]
      rw [beq_iff_eq, Prod.mk.injEq]
      exact fun heq => hp (isPair_iff.mpr heq)

theorem UniqueNames.add (hu : UniqueNames flag ps) (name : CStr) (v : NvValue) :
    UniqueNames flag (specAdd flag ps name v) := by
  rw [specAdd, specDrop]
  rw [UniqueNames] at hu ⊢
  split_ifs at hu ⊢
  · rw [map_append, nodup_append]
    refine ⟨hu.sublist (filter_sublist.map _), nodup_singleton _, ?_⟩
    intro a ha b hb heq
    obtain ⟨p, hp, rfl⟩ := mem_map.mp ha
    rw [map_singleton, mem_singleton] at hb
    exact of_decide_eq_true (mem_filter.mp hp).2 (heq.trans hb)
  · rw [map_append, nodup_append, map_eraseP_isPair]
    refine ⟨hu.erase _, nodup_singleton _, ?_⟩
    intro a ha b hb heq
    rw [map_singleton, mem_singleton] at hb
    rw [heq, hb] at ha
    exact hu.not_mem_erase ha

/-- Nothing is dropped when the pair is new. -/
theorem UniqueNames.specAdd_eq {name : CStr} (hu : UniqueNames flag (ps ++ [(name, v)])) :
    specAdd flag ps name v = ps ++ [(name, v)] := by
  rw [UniqueNames] at hu
  rw [specAdd, specDrop]
  split_ifs at hu ⊢
  · rw [map_append, nodup_append] at hu
    rw [filter_eq_self.mpr]
    intro p hp
    rw [decide_eq_true_eq]
    exact hu.2.2 p.1 (mem_map_of_mem hp) name (mem_singleton_self _)
  · rw [map_append, nodup_append] at hu
    rw [eraseP_of_forall_not]
    intro p hp hpair
    rw [isPair_iff] at hpair
    refine hu.2.2 (p.1, p.2.type) (mem_map_of_mem hp) (name, v.type) (mem_singleton_self _) ?_
    rw [hpair.1, hpair.2]
  · rfl

/-! ## Copying -/

/-- The pairs as a list. -/
def Nvpairs.toList : Nvpairs → List (CStr × NvValue)
  | .nil => []
  | .cons name v ps => (name, v) :: ps.toList

theorem Nvpairs.length_toList_le (ps : Nvpairs) : ps.toList.length ≤ ps.allPairs.length := by
  rcases ps with _ | ⟨name, v, ps⟩
  · exact le_rfl
  · have := Nvpairs.length_toList_le ps
    rw [Nvpairs.toList, Nvpairs.allPairs, length_cons, length_append, length_cons]
    omega

theorem Nvpairs.length_allPairs_le {ps : Nvpairs} {p : CStr × NvValue} (hp : p ∈ ps.toList) :
    p.2.allPairs.length ≤ ps.allPairs.length := by
  rcases ps with _ | ⟨name, v, ps⟩
  · cases hp
  rw [Nvpairs.allPairs, length_append, length_cons]
  rw [Nvpairs.toList, mem_cons] at hp
  rcases hp with rfl | hp
  · change v.allPairs.length ≤ _
    omega
  · have := Nvpairs.length_allPairs_le hp
    omega

/-- Copying the pairs that are left gives all pairs, or an error. -/
theorem nvlistCopyPairs_spec {alloc : ℕ → Option ℕ} {n : ℕ}
    {snvl dnvl : Nvl E} (hcopy : CopyOk RepE copy n)
    (hinj : ∀ i j a, alloc i = some a → alloc j = some a → i = j)
    (hs : snvl.Rows h RepE (done ++ todo)) (hd : dnvl.Rows h RepE rs)
    (hpairs : rs.map Row.pair = done.map Row.pair)
    (hu : UniqueNames dnvl.nvlNvflag ((done ++ todo).map Row.pair))
    (haddr : ∀ r ∈ rs, ∃ j < done.length, alloc j = some r.addr)
    (hn : ∀ r ∈ todo, r.value.allPairs.length ≤ n) (hfuel : todo.length ≤ fuel) :
    ∃ res, nvlistCopyPairs h copy alloc snvl fuel (todo.map Row.addr).head? done.length dnvl
      = some res
      ∧ ∀ dnvl', res = .ok dnvl' → ∃ rs', dnvl'.Rows h RepE rs'
        ∧ rs'.map Row.pair = (done ++ todo).map Row.pair ∧ dnvl'.nvlNvflag = dnvl.nvlNvflag := by
  induction todo generalizing done dnvl rs fuel with
  | nil =>
    refine ⟨.ok dnvl, by cases fuel <;> rfl, ?_⟩
    intro dnvl' heq
    cases heq
    exact ⟨rs, hd, by rw [append_nil, hpairs], rfl⟩
  | cons r todo ih =>
    obtain _ | fuel := fuel
    · cases hfuel
    obtain ⟨prev, hnode⟩ := hs.node_eq
    have hholds := hs.holds r (mem_append_right _ (mem_cons_self ..))
    obtain ⟨d, hdata, hdholds⟩ := hholds.data
    have hlen : rs.length = done.length := by
      rw [← length_map Row.pair, hpairs, length_map]
    have hfresh : ∀ a, alloc done.length = some a → dnvl.pairs.node a = none := by
      intro a ha
      apply hd.free
      intro hmem
      obtain ⟨x, hx, rfl⟩ := mem_map.mp hmem
      obtain ⟨j, hj, hja⟩ := haddr x hx
      exact hj.ne (hinj _ _ _ hja ha)
    obtain ⟨dnvl1, res, hadd, -, hok⟩ := nvlistAddCommon_spec hcopy hd hlen.le hfresh hholds.short
      hdholds (hn r (mem_cons_self ..))
    rw [map_cons, head?_cons]
    simp only [nvlistCopyPairs, hnode, hdata, hholds.name_eq, hadd, bind_eq_bind, bind_some]
    cases res with
    | error err => exact ⟨.error err, rfl, nofun⟩
    | ok _ =>
      obtain ⟨a, rs', ha, hrows', hpairs', hsub, hflag⟩ := hok rfl
      rw [append_cons] at hs hu ⊢
      have hu1 := hu
      rw [map_append] at hu1
      have hu2 := hu1.sublist (sublist_append_left ..)
      rw [map_append, map_singleton, Row.pair] at hu2
      rw [hpairs, hu2.specAdd_eq] at hpairs'
      have hnext := ih hs hrows' (by rw [hpairs', map_append]; rfl) (by rw [hflag]; exact hu)
        ?_ (fun x hx => hn x (mem_cons_of_mem _ hx)) (Nat.le_of_succ_le_succ hfuel)
      · rw [length_append, length_singleton, hflag] at hnext
        exact hnext
      · intro x hx
        rw [length_append, length_singleton]
        rcases hsub x hx with rfl | hx
        · exact ⟨done.length, Nat.lt_succ_self _, ha⟩
        · obtain ⟨j, hj, hja⟩ := haddr x hx
          exact ⟨j, hj.trans (Nat.lt_succ_self _), hja⟩

end

/-- A list in memory, with the lists embedded in it, stands for this list.  Its flags are the two
that are kept, and its pairs are unique where they say so. -/
def RepEmb (h : Host) : (n : ℕ) → Embedded n → Nvlist → Prop
  | 0 => fun e _ => e.elim
  | n + 1 => fun nvl l => ∃ rs, Nvl.Rows h (RepEmb h n) nvl rs ∧ rs.map Row.pair = l.pairs.toList
      ∧ Nvl.nvlNvflag nvl = l.nvflag ∧ l.nvflag &&& (nvUniqueName ||| nvUniqueNameType) = l.nvflag
      ∧ UniqueNames l.nvflag l.pairs.toList

/-- A list without pairs, whatever its `nvp_last` and its cursor hold. -/
theorem rows_nvlistInit {E : Type} {h : Host} {RepE : E → Nvlist → Prop} (flag : BitVec 32)
    (last curr : Option ℕ) :
    (nvlistInit flag last curr : Nvl E).Rows h RepE [] :=
  ⟨DList.linked_nil_iff.mpr rfl, nofun, fun _ _ => rfl⟩

theorem uniqueNames_nil (flag : BitVec 32) : UniqueNames flag [] := by
  simp [UniqueNames]

/-- `nvlist_copy_embedded` gives a list that stands for the same list, at every nesting. -/
theorem copyEmbedded_spec (h : Host) {alloc : ℕ → Option ℕ} (fuel n : ℕ)
    (hinj : ∀ i j a, alloc i = some a → alloc j = some a → i = j) :
    CopyOk (RepEmb h n) (copyEmbedded h alloc fuel n) fuel := by
  induction n with
  | zero =>
    intro e
    exact e.elim
  | succ n ih =>
    rintro e ⟨flag, ps⟩ ⟨rs, hrows, hpairs, hflag, hmask, hu⟩ hfuel
    have hlen : rs.length ≤ fuel := by
      have := ps.length_toList_le
      rw [← length_map Row.pair, hpairs]
      exact this.trans hfuel
    have hinit : (nvlistInit (Nvl.nvlNvflag e) none none : Nvl (Embedded n)).nvlNvflag = flag := by
      rw [nvlistInit, hflag]
      exact hmask
    have hsmall : ∀ r ∈ rs, r.value.allPairs.length ≤ fuel := by
      intro r hr
      have hmem : r.pair ∈ ps.toList := by
        change r.pair ∈ (Nvlist.mk flag ps).pairs.toList
        rw [← hpairs]
        exact mem_map_of_mem hr
      exact (Nvpairs.length_allPairs_le hmem).trans hfuel
    have hsource : Nvl.Rows h (RepEmb h n) e ([] ++ rs) := hrows
    obtain ⟨res, hres, hok⟩ := nvlistCopyPairs_spec ih hinj hsource
      (rows_nvlistInit (Nvl.nvlNvflag e) none none) rfl
      (by rw [nil_append, hinit, hpairs]; exact hu) nofun hsmall hlen
    rw [← hrows.head_eq] at hres
    refine ⟨res, hres, ?_⟩
    intro e' heq
    obtain ⟨rs', hrows', hpairs', hflag'⟩ := hok e' heq
    exact ⟨rs', hrows', hpairs'.trans hpairs, hflag'.trans hinit, hmask, hu⟩

end Polaris
