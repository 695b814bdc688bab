import Polaris.Lib.Bitfield
import Mathlib.Data.Fintype.Basic

/-!
# The hashed page table of the PowerPC kernel

`hat_ppcmmu.c`: translations live in a hashed page table of groups of eight entries; an entry may
stand in the group its hash selects or in the complementary one.  A pointer to an entry is the
number of its group and its place there, and the base of the table is aligned to its size, as the
macros that compute with such pointers assume.

One caller runs at a time.  `none` stands for a panic, for waiting until a VSID range is given back,
and for a loop that has run out of fuel.

## Main definitions

* `Pte`, `pte0New`, `pte1New` — entries and their fields.
* `Mmu` — the page table and what the kernel keeps about it.
* `findFreePte`, `stealPte`, `ppcmmuPteload`, `ppcmmuMemload` — loading a translation.
* `ppcmmuPtefind`, `hatGetpfnum` — looking it up.
-/

namespace Polaris

open Bitfield Function

/-! ## Entries -/

/-- A page table entry. -/
structure Pte where
  w0 : BitVec 32
  w1 : BitVec 32
  deriving DecidableEq

def pte0New (v vsid h api : BitVec 32) : BitVec 32 :=
  valtofld v 31 1 ||| valtofld vsid 7 24 ||| valtofld h 6 1 ||| valtofld api 0 6

def pte1New (rpn xpn r c wimg x pp : BitVec 32) : BitVec 32 :=
  valtofld rpn 12 20 ||| valtofld xpn 9 3 ||| valtofld r 8 1 ||| valtofld c 7 1 |||
    valtofld wimg 3 4
    ||| valtofld x 2 1 ||| valtofld pp 0 2

/-- `PTE0_V_FLD_MASK`. -/
def pte0VFldMask : BitVec 32 :=
  valmask 32 1 <<< 31

/-- `PTE1_R_FLD_MASK | PTE1_C_FLD_MASK`. -/
def refchgMask : BitVec 32 :=
  valmask 32 1 <<< 8 ||| valmask 32 1 <<< 7

/-- `PTE1_RPN_VAL_MASK`. -/
def pte1RpnValMask : BitVec 32 :=
  valmask 32 20

namespace Pte

def getV (p : Pte) : BitVec 32 := extract p.w0 31 1

def getVsid (p : Pte) : BitVec 32 := extract p.w0 7 24

def getH (p : Pte) : BitVec 32 := extract p.w0 6 1

def getRpn (p : Pte) : BitVec 32 := extract p.w1 12 20

def setVsid (p : Pte) (fld : BitVec 32) : Pte := { p with w0 := deposit p.w0 fld 7 24 }

def setH (p : Pte) (fld : BitVec 32) : Pte := { p with w0 := deposit p.w0 fld 6 1 }

def setWimg (p : Pte) (fld : BitVec 32) : Pte := { p with w1 := deposit p.w1 fld 3 4 }

end Pte

/-- `WIMG(c, g)`. -/
def wimg (c : Bool) (g : BitVec 32) : BitVec 32 :=
  if c then 2#32 else 6#32 ||| g

/-- `VADDR_TO_API`. -/
def vaddrToApi (vaddr : BitVec 32) : BitVec 32 :=
  (vaddr >>> 22) &&& 0x3F#32

/-- `VSID(range, a)`. -/
def vsidOf (range vaddr : BitVec 32) : BitVec 32 :=
  (range <<< 4) ||| (vaddr >>> 28)

/-! ## The machine -/

/-- The address of an entry: its group and its place in it. -/
structure PteAddr where
  pteg : BitVec 32
  slot : Fin 8
  deriving DecidableEq

/-- What the HAT looks at in a page: its frame, whether it is not cached, and the lock its mapping
list hashes to. -/
structure Page where
  pagenum : BitVec 32
  isNC : Bool
  mml : ℕ

/-- A block address translation. -/
structure BatInfo where
  batValid : Bool
  batVaddr : BitVec 32
  batPaddr : BitVec 32
  batSize : BitVec 32

/-- What does not change when translations are loaded. -/
structure MmuEnv where
  htabmask : BitVec 32
  pfIsMemory : BitVec 32 → Bool
  /-- `page_numtopp_nolock`. -/
  pageNumtopp : BitVec 32 → Option Page
  kernelbase : BitVec 32
  segkmapBase : BitVec 32
  segkmapSize : BitVec 32
  /-- `&khat - hats`, as it is kept in the 16 bits of `hme_hat`: `khat` is no element of `hats`. -/
  khatIndex : ℕ
  ptelockHashtabSize : ℕ
  ibats : List BatInfo
  dbats : List BatInfo

namespace MmuEnv

variable (env : MmuEnv)

def nptegp : BitVec 32 := 512#32 * (env.htabmask + 1#32)

def nptegmask : BitVec 32 := 2#32 * env.nptegp - 1#32

def hashPtegMask : BitVec 32 := (env.htabmask <<< 10) ||| 0x3FF#32

/-- `pte >= mptes`. -/
def upper (pteg : BitVec 32) : Bool := env.nptegp ≤ pteg

/-- `pte_to_ptegp`. -/
def pteToPtegp (pteg : BitVec 32) : BitVec 32 :=
  let i := pteg &&& env.nptegmask
  if env.nptegp ≤ i then ~~~i &&& env.nptegmask else i

end MmuEnv

/-- An address space: the kernel's, or one of `hats`. -/
inductive HatId
  | khat
  | hats (i : ℕ)
  deriving DecidableEq

/-- `hat - hats`. -/
def MmuEnv.hatIndex (env : MmuEnv) : HatId → ℕ
  | .khat => env.khatIndex % 2 ^ 16
  | .hats i => i % 2 ^ 16

/-- The mapping entry that goes with a page table entry. -/
structure Hme where
  hmeHat : ℕ
  busy : Bool
  stolen : Bool
  nosync : Bool
  valid : Bool

/-- What is kept about a pair of groups. -/
structure Ptegp where
  validmap : BitVec 16
  lockmap : BitVec 32

/-- The page table, the mapping entries, the pairs of groups, the lock counts that do not fit into
`ptegp_lockmap`, the VSID ranges of the address spaces, which of them are in use, and the free ones
as `vsid_alloc_set`s. -/
structure Mmu where
  pte : PteAddr → Pte
  hme : PteAddr → Hme
  ptegp : BitVec 32 → Ptegp
  ptelock : List (PteAddr × ℕ)
  vsidr : HatId → BitVec 32
  vsidInUse : BitVec 32 → Bool
  vsidAlloc : List (ℕ × BitVec 32)

section Tables

variable (env : MmuEnv) (s : Mmu)

def Mmu.setPte (p : PteAddr) (e : Pte) : Mmu :=
  { s with pte := update s.pte p e }

def Mmu.setHme (p : PteAddr) (hme : Hme) : Mmu :=
  { s with hme := update s.hme p hme }

def Mmu.setPtegp (i : BitVec 32) (g : Ptegp) : Mmu :=
  { s with ptegp := update s.ptegp i g }

/-- `(pte & PTEOFFSET) >> PTESHIFT`.  `PTEGSIZE` is the size of two groups, not of one. -/
def pteOffset (p : PteAddr) : ℕ :=
  p.pteg.toNat % 2 * 8 + p.slot

/-- The bit of an entry in `ptegp_validmap`. -/
def validmapMask (p : PteAddr) : BitVec 16 :=
  ((if env.upper p.pteg then 0x100#32 else 1#32) <<< pteOffset p).setWidth 16

/-- `lkcnt_shift`. -/
def lkcntShift (p : PteAddr) : ℕ :=
  (if env.upper p.pteg then 16 else 0) + pteOffset p * 2

/-- The lock count of an entry in `ptegp_lockmap`; 3 says that it is in the hash table. -/
def lkcnt (p : PteAddr) : BitVec 32 :=
  ((s.ptegp (env.pteToPtegp p.pteg)).lockmap >>> lkcntShift env p) &&& 3#32

/-- A new lock count for an entry. -/
def setLkcnt (p : PteAddr) (count : BitVec 32) : Mmu :=
  let g := s.ptegp (env.pteToPtegp p.pteg)
  s.setPtegp (env.pteToPtegp p.pteg)
    { g with lockmap := (g.lockmap &&& ~~~(3#32 <<< lkcntShift env p))
      ||| (count <<< lkcntShift env p) }

/-- `ptelock`; the hash table has no entry for the count, or no room for one, when it panics. -/
def ptelock (p : PteAddr) : Option Mmu :=
  if lkcnt env s p = 3#32 then
    if s.ptelock.any (·.1 = p) then
      some { s with ptelock := s.ptelock.map fun e => if e.1 = p then (p, e.2 + 1) else e }
    else none
  else
    let count := lkcnt env s p + 1#32
    let s := setLkcnt env s p count
    if count = 3#32 then
      if s.ptelock.length < env.ptelockHashtabSize then
        some { s with ptelock := (p, count.toNat) :: s.ptelock }
      else none
    else some s

/-- `ppcmmu_pteunload`: invalidates an entry. -/
def ppcmmuPteunload (p : PteAddr) : Option Mmu :=
  let s := s.setPte p { s.pte p with w0 := (s.pte p).w0 &&& ~~~pte0VFldMask }
  let s := s.setHme p { s.hme p with valid := false, nosync := false, busy := false }
  let g := s.ptegp (env.pteToPtegp p.pteg)
  let s := s.setPtegp (env.pteToPtegp p.pteg)
    { g with validmap := g.validmap &&& ~~~validmapMask env p }
  if lkcnt env s p = 3#32 then
    if s.ptelock.any (·.1 = p) then
      some (setLkcnt env { s with ptelock := s.ptelock.filter (·.1 ≠ p) } p 0#32)
    else none
  else some (setLkcnt env s p 0#32)

/-! ## Lookup -/

/-- `fqva_to_hash1`. -/
def fqvaToHash1 (vsid vaddr : BitVec 32) : BitVec 32 :=
  (vsid &&& 0x7FFFF#32) ^^^ ((vaddr >>> 12) &&& 0xFFFF#32)

/-- `hash_get_primary`. -/
def hashGetPrimary (hash : BitVec 32) : BitVec 32 :=
  hash &&& env.hashPtegMask

/-- `hash_get_secondary`. -/
def hashGetSecondary (pteg : BitVec 32) : BitVec 32 :=
  env.hashPtegMask ^^^ pteg

def hPrimary : BitVec 32 := 0#32

def hSecondary : BitVec 32 := 1#32

def findPte (pteg vsid api h : BitVec 32) : Option PteAddr :=
  ((List.finRange 8).map (PteAddr.mk pteg)).find? fun p => pte0New 1#32 vsid h api = (s.pte p).w0

def fqvaPtefind (vsid vaddr : BitVec 32) : Option PteAddr :=
  let api := (vaddr >>> 22) &&& 0x3F#32
  let primary := hashGetPrimary env (fqvaToHash1 vsid vaddr)
  (findPte s primary vsid api hPrimary).or
    (findPte s (hashGetSecondary env primary) vsid api hSecondary)

/-- `vsid_valid`. -/
def vsidValid (range : BitVec 32) : Bool :=
  range ≠ 0#32

def ppcmmuPtefind (hat : HatId) (vaddr : BitVec 32) : Option PteAddr :=
  if vsidValid (s.vsidr hat) then fqvaPtefind env s ((s.vsidr hat <<< 4) + (vaddr >>> 28)) vaddr
  else none

def pfnInvalid : BitVec 32 := -1#32

def ppcmmuGetpfnum (hat : HatId) (vaddr : BitVec 32) : BitVec 32 :=
  match ppcmmuPtefind env s hat vaddr with
  | some p => (s.pte p).getRpn
  | none => pfnInvalid

/-- `ppcmmu_find_bat`: the instruction BATs first. -/
def ppcmmuFindBat (vaddr : BitVec 32) : Option BatInfo :=
  (env.ibats ++ env.dbats).find? fun bat =>
    bat.batValid && (bat.batVaddr ≤ vaddr && vaddr < bat.batVaddr + bat.batSize)

/-- The frame that a block translation gives. -/
def BatInfo.frame (bat : BatInfo) (vaddr : BitVec 32) : BitVec 32 :=
  (bat.batPaddr + (vaddr - bat.batVaddr)) >>> 12

def ppcmmuGetkpfnum (vaddr : BitVec 32) : BitVec 32 :=
  match ppcmmuFindBat env vaddr with
  | some bat => bat.frame vaddr
  | none => ppcmmuGetpfnum env s .khat vaddr

def hatGetpfnum (hat : HatId) (vaddr : BitVec 32) : BitVec 32 :=
  if hat = .khat then ppcmmuGetkpfnum env s vaddr else ppcmmuGetpfnum env s hat vaddr

end Tables

/-! ## Places for new entries -/

section Load

variable (env : MmuEnv)

/-- A place that the bits of the group in `ptegp_validmap` show as free. -/
def freeSlot (s : Mmu) (pteg : BitVec 32) : Option PteAddr :=
  ((List.finRange 8).map (PteAddr.mk pteg)).find? fun p =>
    !(s.ptegp (env.pteToPtegp pteg)).validmap.getLsbD ((if env.upper pteg then 8 else 0) + p.slot)

/-- A mapping whose VSID range is not in use any more. -/
def staleSlot (s : Mmu) (pteg : BitVec 32) : Option PteAddr :=
  ((List.finRange 8).map (PteAddr.mk pteg)).find? fun p => !s.vsidInUse ((s.pte p).getVsid >>> 4)

/-- `find_free_pte`: a stale mapping is unloaded before the next try, and `rep` is how often to try
again when there is none. -/
def findFreePte : ℕ → ℕ → Mmu → BitVec 32 → Option (Option PteAddr × Mmu)
  | 0, _, _, _ => none
  | fuel + 1, rep, s, pteg =>
    match freeSlot env s pteg with
    | some p => some (some p, s)
    | none =>
      match staleSlot s pteg with
      | some p =>
        if (s.hme p).valid then
          (ppcmmuPteunload env s p).bind fun s => findFreePte fuel rep s pteg
        else findFreePte fuel rep s pteg
      | none => if rep = 0 then some (none, s) else findFreePte fuel (rep - 1) s pteg

/-- `ptep_to_pp`. -/
def ptepToPp (s : Mmu) (p : PteAddr) : Option Page :=
  if (s.pte p).getV = 0#32 then none else env.pageNumtopp (s.pte p).getRpn

/-- The mask that `steal_pte` moves along `ptegp_lockmap` hits a lock count. -/
def slotLocked (s : Mmu) (p : PteAddr) : Bool :=
  ((s.ptegp (env.pteToPtegp p.pteg)).lockmap >>> ((if env.upper p.pteg then 16 else 0)
    + 2 * p.slot.val))
    &&& 3#32 ≠ 0#32

/-- Takes an entry away from whoever has it. -/
def stealHere (hat : HatId) (s : Mmu) (p : PteAddr) : Option Mmu :=
  let hme := s.hme p
  let pp := ptepToPp env s p
  let s := s.setHme p { hme with busy := true }
  let unload := (pp.isNone && hat == .hats hme.hmeHat) || hme.valid
  (if unload then ppcmmuPteunload env s p else some s).map fun s =>
    s.setHme p { s.hme p with busy := false, stolen := true }

/-- The loop of `steal_pte` over a group: the place that was stolen, and whether one was passed over
only because it had been stolen before.  `mml` is the mapping list lock the caller holds. -/
def stealScan (hat : HatId) (mml : Option ℕ) (pteg : BitVec 32) :
    List (Fin 8) → Bool → Mmu → Option (Option PteAddr × Bool × Mmu)
  | [], tryAgain, s => some (none, tryAgain, s)
  | i :: rest, tryAgain, s =>
    let p : PteAddr := ⟨pteg, i⟩
    let hme := s.hme p
    if slotLocked env s p then stealScan hat mml pteg rest tryAgain s
    else if hme.busy then stealScan hat mml pteg rest tryAgain s
    else if hme.stolen then
      stealScan hat mml pteg rest true (s.setHme p { hme with stolen := false })
    else if (ptepToPp env s p).isSome ∧ (ptepToPp env s p).map Page.mml = mml then
      stealScan hat mml pteg rest tryAgain s
    else (stealHere env hat s p).map fun s => (some p, tryAgain, s)

def stealPte (hat : HatId) (mml : Option ℕ) : ℕ → Mmu → BitVec 32 → Option (Option PteAddr × Mmu)
  | 0, _, _ => none
  | fuel + 1, s, pteg =>
    match stealScan env hat mml pteg (List.finRange 8) false s with
    | none => none
    | some (some p, _, s) => some (some p, s)
    | some (none, tryAgain, s) => if tryAgain then stealPte hat mml fuel s pteg else some (none, s)

/-- The place for a new entry and its H bit: free in the primary or in the secondary group, or
stolen from one of them. -/
def pickPte (fuel : ℕ) (s : Mmu) (hat : HatId) (mml : Option ℕ) (ppteg : BitVec 32) :
    Option (PteAddr × BitVec 32 × Mmu) :=
  let spteg := hashGetSecondary env ppteg
  (findFreePte env fuel 1 s ppteg).bind fun
    | (some p, s) => some (p, hPrimary, s)
    | (none, s) => (findFreePte env fuel 1 s spteg).bind fun
      | (some p, s) => some (p, hSecondary, s)
      | (none, s) => (stealPte env hat mml fuel s ppteg).bind fun
        | (some p, s) => some (p, hPrimary, s)
        | (none, s) => (stealPte env hat mml fuel s spteg).bind fun
          | (some p, s) => some (p, hSecondary, s)
          | (none, _) => none

/-! ## Loading -/

/-- `ppcmmu_alloc`: a VSID range for an address space that has none. -/
def ppcmmuAlloc (s : Mmu) (hat : HatId) : Mmu :=
  if vsidValid (s.vsidr hat) then s
  else
    match s.vsidAlloc with
    | [] => { s with vsidr := update s.vsidr hat 0#32 }
    | (n, id) :: rest =>
      { s with
        vsidr := update s.vsidr hat id
        vsidInUse := update s.vsidInUse id true
        vsidAlloc := if n - 1 = 0 then rest else (n - 1, id + 1#32) :: rest }

/-- `mmu_update_pte`: a remap keeps the R and C bits of the old entry. -/
def mmuUpdatePte (s : Mmu) (p : PteAddr) (new : Pte) (remap : Bool) : Mmu :=
  s.setPte p { new with w1 := if remap then new.w1 ||| ((s.pte p).w1 &&& refchgMask) else new.w1 }

/-- The end of `ppcmmu_pteload`, from the update of the entry on. -/
def loadAt (s : Mmu) (hat : HatId) (p : PteAddr) (new : Pte) (remap : Bool)
    (flags attr : BitVec 32) : Option Mmu :=
  let s := mmuUpdatePte s p new remap
  (if flags &&& 1#32 ≠ 0#32 then ptelock env s p else some s).map fun s =>
    let nosync := decide (attr &&& 0x20#32 ≠ 0#32)
    if remap then s.setHme p { s.hme p with busy := false, nosync := nosync }
    else
      let g := s.ptegp (env.pteToPtegp p.pteg)
      let s := s.setPtegp (env.pteToPtegp p.pteg)
        { g with validmap := g.validmap ||| validmapMask env p }
      s.setHme p
        { s.hme p with hmeHat := env.hatIndex hat, valid := true, busy := false, nosync := nosync }

def ppcmmuPteload (fuel : ℕ) (s : Mmu) (hat : HatId) (vaddr : BitVec 32)
    (pp : Option Page) (new : Pte) (flags attr : BitVec 32) : Option Mmu :=
  let s := ppcmmuAlloc s hat
  if vsidValid (s.vsidr hat) then
    let new := new.setVsid (vsidOf (s.vsidr hat) vaddr)
    let new := (pp.map fun pp => new.setWimg (wimg (!pp.isNC) 1#32)).getD new
    match ppcmmuPtefind env s hat vaddr with
    | some p =>
      -- another page must not take the place of the one that is mapped
      if pp.isSome ∧ (s.pte p).getRpn ≠ new.getRpn then none
      else loadAt env s hat p (new.setH (s.pte p).getH) true flags attr
    | none =>
      (pickPte env fuel s hat (pp.map Page.mml)
        (hashGetPrimary env (fqvaToHash1 new.getVsid vaddr))).bind fun (p, hbit, s) =>
          loadAt env s hat p (new.setH hbit) false flags attr
  else none

/-- `ppcmmu_vtop_prot`. -/
def ppcmmuVtopProt (vaddr vprot : BitVec 32) : Option (BitVec 32) :=
  if vprot &&& 0xF#32 ≠ vprot then none
  else if vprot &&& 8#32 ≠ 0#32 then
    if env.kernelbase ≤ vaddr then none
    else if vprot = 8#32 then some 0#32
    else if vprot &&& 2#32 ≠ 0#32 then some 2#32
    else some 3#32
  else if vprot = 1#32 ∧ env.segkmapBase ≤ vaddr ∧ vaddr < env.segkmapBase + env.segkmapSize then
    some 3#32
  else some 0#32

/-- `pfn_to_wimg`. -/
def pfnToWimg (pfn : BitVec 32) : BitVec 32 :=
  if env.pfIsMemory pfn then 2#32 else 7#32

/-- `ppcmmu_mempte`.  Nothing assigns to its variable `pfn`; the argument is whatever it holds. -/
def ppcmmuMempte (pfn : BitVec 32) (s : Mmu) (hat : HatId) (_pp : Page) (vprot vaddr : BitVec 32) :
    Option Pte :=
  if pte1RpnValMask < pfn then none
  else
    (ppcmmuVtopProt env vaddr vprot).map fun prot =>
      { w0 := pte0New 1#32 (vsidOf (s.vsidr hat) vaddr) 0#32 (vaddrToApi vaddr)
        w1 := pte1New pfn 0#32 0#32 0#32 (pfnToWimg env pfn) 0#32 prot }

/-- `ppcmmu_memload`, which is all that `hat_memload` calls. -/
def ppcmmuMemload (fuel : ℕ) (pfn : BitVec 32) (s : Mmu) (hat : HatId)
    (vaddr : BitVec 32) (pp : Page) (attr flags : BitVec 32) : Option Mmu :=
  (ppcmmuMempte env pfn s hat pp (attr &&& 0xF#32) vaddr).bind fun apte =>
    ppcmmuPteload env fuel s hat vaddr (some pp) apte flags attr

end Load

end Polaris
