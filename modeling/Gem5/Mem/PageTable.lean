import Gem5.Base.Types
import Gem5.Lib.FrontCache
import Gem5.Lib.Loop
import Gem5.Lib.Region
import Gem5.Lib.Run

/-!
# Page tables

`PageTable` of the system-call emulation mode: a map from pages to entries of the machine's
translation buffer, with the three pages used last in front of it. The machine is a
parameter. Checkpoints are left out.
-/

namespace Gem5

open Lib Function Option

class TlbEntry (E : Type) where
  make (asn vaddr paddr : Nat) : E
  updateVaddr : E → Nat → E
  pageStart : E → Nat
  Fits : Nat → Prop
  pageStart_make {asn vaddr paddr : Nat} : Fits paddr → pageStart (make asn vaddr paddr) = paddr
  pageStart_updateVaddr {e : E} {vaddr : Nat} : pageStart (updateVaddr e vaddr) = pageStart e

structure X86TlbEntry where
  paddr : Nat
  vaddr : Nat
  logBytes : Nat := 12
  writable : Bool := true
  user : Bool := true
  uncacheable : Bool := false
  global : Bool := false
  patBit : Bool := false
  noExec : Bool := false
  deriving DecidableEq

instance : TlbEntry X86TlbEntry where
  make _ vaddr paddr := { paddr, vaddr }
  updateVaddr e vaddr := { e with vaddr }
  pageStart := (·.paddr)
  Fits _ := True
  pageStart_make _ := rfl
  pageStart_updateVaddr := rfl

structure ArmTlbEntry where
  pfn : Nat
  size : Nat := 2 ^ 12 - 1
  vpn : Nat
  asid : Nat
  global : Bool := false
  valid : Bool := true
  nonCacheable : Bool := false
  sNp : Bool := false
  xn : Bool := false
  ap : Nat := 0
  domain : Nat := 1
  deriving DecidableEq

theorem frame_of_aligned (h : paddr % 2 ^ 12 = 0 ∧ paddr < 2 ^ 64) :
    wrap64 (paddr >>> 12 <<< 12) = paddr := by
  rw [wrap64, Nat.shiftLeft_eq, Nat.shiftRight_eq_div_pow]
  omega

instance : TlbEntry ArmTlbEntry where
  make asn vaddr paddr := { pfn := paddr >>> 12, vpn := vaddr >>> 12, asid := asn % 2 ^ 32 }
  updateVaddr e vaddr := { e with vpn := vaddr >>> 12 }
  pageStart e := wrap64 (e.pfn <<< 12)
  Fits paddr := paddr % 2 ^ 12 = 0 ∧ paddr < 2 ^ 64
  pageStart_make h := frame_of_aligned h
  pageStart_updateVaddr := rfl

/-- The constructor of an entry without arguments sets nothing; `blank` is what was there. -/
structure PageTable (E : Type) where
  blank : E
  shift : Fin 64
  pid : Nat
  pTable : Nat → Option E
  pTableCache : List (Nat × E)

namespace PageTable

variable {E : Type} [TlbEntry E]

def create (blank : E) (shift : Fin 64) (pid : Nat) : PageTable E :=
  { blank, shift, pid, pTable := fun _ => none, pTableCache := List.replicate 3 (0, blank) }

section Addresses

variable (pt : PageTable E)

def pageSize : Nat := 2 ^ pt.shift.val

def pageOffset (a : Nat) : Nat := a % pt.pageSize

def pageAlign (a : Nat) : Nat := a - a % pt.pageSize

/-- The rounds of `for (; size > 0; size -= pageSize)`. -/
def rounds (size : Int) : Nat := ((size + pt.pageSize - 1) / pt.pageSize).toNat

def pageAt (start : Nat) (i : Nat) : Nat := wrap64 (start + i * pt.pageSize)

end Addresses

def updateCache (pt : PageTable E) (vaddr : Nat) (entry : E) : PageTable E :=
  { pt with pTableCache := pushFront 2 pt.pTableCache vaddr entry }

def mapPage (pt : PageTable E) (vaddr paddr : Nat) (clobber : Bool) : Chk (PageTable E) := do
  refuse (!clobber && (pt.pTable vaddr).isSome)
    (.fatal ("PageTable::allocate: address 0x" ++ String.ofList (Nat.toDigits 16 vaddr) ++
      " already mapped"))
  let entry := TlbEntry.make pt.pid vaddr paddr
  return { pt with pTable := update pt.pTable vaddr (some entry) }.updateCache vaddr entry

def map (pt : PageTable E) (vaddr paddr : Nat) (size : Int) (clobber : Bool) : Chk (PageTable E) := do
  ensure (pt.pageOffset vaddr == 0) "pageOffset(vaddr) == 0"
  (List.range (pt.rounds size)).foldlM
    (fun pt' i => pt'.mapPage (pt.pageAt vaddr i) (pt.pageAt paddr i) clobber) pt

def remapPage (pt : PageTable E) (vaddr newVaddr : Nat) : Chk (PageTable E) := do
  let entry ← need (pt.pTable vaddr) (.assertion "pTable.find(vaddr) != pTable.end()")
  let pTable := update pt.pTable newVaddr (some entry)
  let pTable := update pTable vaddr none
  -- `pTable[new_vaddr]` makes an entry where there is none
  let entry := TlbEntry.updateVaddr ((pTable newVaddr).getD pt.blank) newVaddr
  return { pt with pTable := update pTable newVaddr (some entry) }.updateCache newVaddr entry

def remap (pt : PageTable E) (vaddr : Nat) (size : Int) (newVaddr : Nat) : Chk (PageTable E) := do
  ensure (pt.pageOffset vaddr == 0) "pageOffset(vaddr) == 0"
  ensure (pt.pageOffset newVaddr == 0) "pageOffset(new_vaddr) == 0"
  (List.range (pt.rounds size)).foldlM
    (fun pt' i => pt'.remapPage (pt.pageAt vaddr i) (pt.pageAt newVaddr i)) pt

def unmapPage (pt : PageTable E) (vaddr : Nat) : Chk (PageTable E) := do
  ensure (pt.pTable vaddr).isSome "pTable.find(vaddr) != pTable.end()"
  return { pt with pTable := update pt.pTable vaddr none }

def unmap (pt : PageTable E) (vaddr : Nat) (size : Int) : Chk (PageTable E) := do
  ensure (pt.pageOffset vaddr == 0) "pageOffset(vaddr) == 0"
  (List.range (pt.rounds size)).foldlM (fun pt' i => pt'.unmapPage (pt.pageAt vaddr i)) pt

def lookup (pt : PageTable E) (vaddr : Nat) : Option E × PageTable E :=
  let pageAddr := pt.pageAlign vaddr
  match hit pt.pTableCache pageAddr with
  | some entry => (some entry, pt)
  | none =>
    match pt.pTable pageAddr with
    | none => (none, pt)
    | some entry => (some entry, pt.updateCache pageAddr entry)

def translate (pt : PageTable E) (vaddr : Nat) : Option Nat × PageTable E :=
  let (entry, pt') := pt.lookup vaddr
  (entry.map fun entry => wrap64 (pt.pageOffset vaddr + TlbEntry.pageStart entry), pt')

end PageTable

structure PageWorld (E : Type) where
  table : PageTable E
  mapped : Nat → Option (E × Nat)

inductive PageEvent
  | map (vaddr paddr : Nat) (size : Int) (clobber : Bool)
  | remap (vaddr : Nat) (size : Int) (newVaddr : Nat)
  | unmap (vaddr : Nat) (size : Int)
  | lookup (vaddr : Nat)
  | translate (vaddr : Nat)

namespace PageWorld

variable {E : Type} [TlbEntry E]

def create (blank : E) (shift : Fin 64) (pid : Nat) : PageWorld E :=
  { table := .create blank shift pid, mapped := fun _ => none }

def retarget (newVaddr : Nat) (x : E × Nat) : E × Nat := (TlbEntry.updateVaddr x.1 newVaddr, x.2)

def apply (w : PageWorld E) : PageEvent → Chk (PageWorld E)
  | .map vaddr paddr size clobber => do
    let table ← w.table.map vaddr paddr size clobber
    let value i := (TlbEntry.make w.table.pid (w.table.pageAt vaddr i) (w.table.pageAt paddr i),
      w.table.pageAt paddr i)
    return { table, mapped := assign (w.table.pageAt vaddr) (w.table.rounds size) value w.mapped }
  | .remap vaddr size newVaddr => do
    let table ← w.table.remap vaddr size newVaddr
    return {
      table
      mapped := move (w.table.pageAt vaddr) (w.table.pageAt newVaddr) (w.table.rounds size) retarget
        w.mapped }
  | .unmap vaddr size => do
    let table ← w.table.unmap vaddr size
    return { table, mapped := clear (w.table.pageAt vaddr) (w.table.rounds size) w.mapped }
  | .lookup vaddr => return { w with table := (w.table.lookup vaddr).2 }
  | .translate vaddr => return { w with table := (w.table.translate vaddr).2 }

/-- Addresses are page aligned and 64 bits wide, sizes are 64-bit integers, and only mapped
regions are moved or unmapped. -/
def Admits (w : PageWorld E) : PageEvent → Prop
  | .map vaddr paddr size _ => w.table.pageOffset vaddr = 0 ∧ vaddr < 2 ^ 64 ∧
      paddr < 2 ^ 64 ∧ size < 2 ^ 63
  | .remap vaddr size newVaddr =>
    w.table.pageOffset vaddr = 0 ∧ w.table.pageOffset newVaddr = 0 ∧ vaddr < 2 ^ 64 ∧
      newVaddr < 2 ^ 64 ∧ size < 2 ^ 63 ∧
      ∀ i < w.table.rounds size, (w.mapped (w.table.pageAt vaddr i)).isSome
  | .unmap vaddr size => w.table.pageOffset vaddr = 0 ∧ vaddr < 2 ^ 64 ∧ size < 2 ^ 63 ∧
      ∀ i < w.table.rounds size, (w.mapped (w.table.pageAt vaddr i)).isSome
  | .lookup vaddr | .translate vaddr => vaddr < 2 ^ 64

/-- No page that is taken out of the table is among the three used last, and no page is
moved onto itself or onto one that is still to be moved. -/
def Uncached (w : PageWorld E) : PageEvent → Prop
  | .remap vaddr size newVaddr => ∀ i < w.table.rounds size,
      hit w.table.pTableCache (w.table.pageAt vaddr i) = none ∧
      ∀ j ≤ i, w.table.pageAt newVaddr j ≠ w.table.pageAt vaddr i
  | .unmap vaddr size => ∀ i < w.table.rounds size,
      hit w.table.pTableCache (w.table.pageAt vaddr i) = none
  | _ => True

instance (w : PageWorld E) : DecidablePred w.Admits := fun e => by
  rcases e <;> unfold Admits <;> infer_instance

instance (w : PageWorld E) : DecidablePred w.Uncached := fun e => by
  rcases e <;> unfold Uncached <;> infer_instance

/-- The page is not the first one, or it is mapped, or the slots that claim it from the
start are gone. -/
def Asks (w : PageWorld E) (vaddr : Nat) : Prop :=
  w.table.pageAlign vaddr ≠ 0 ∨ (w.mapped 0).isSome ∨ hit w.table.pTableCache 0 = none

structure Answers (w : PageWorld E) (vaddr : Nat) : Prop where
  lookup : (w.table.lookup vaddr).1 = (w.mapped (w.table.pageAlign vaddr)).map Prod.fst
  translate : (w.table.translate vaddr).1 = (w.mapped (w.table.pageAlign vaddr)).map fun x =>
    wrap64 (w.table.pageOffset vaddr + TlbEntry.pageStart x.1)
  frame : ∀ x, w.mapped (w.table.pageAlign vaddr) = some x → TlbEntry.Fits E x.2 →
    TlbEntry.pageStart x.1 = x.2

def Clobbers (w : PageWorld E) : PageEvent → Prop
  | .map vaddr _ size clobber => clobber = false ∧ ∃ i < w.table.rounds size,
      (w.mapped (w.table.pageAt vaddr i)).isSome
  | _ => False

variable {w w' : PageWorld E} {e : PageEvent} {pt pt' : PageTable E}
  {vaddr paddr page : Nat} {entry : E}

/-- What the front of the table answers is in the table, except for the first page, which
the slots claim from the start. -/
def Fronts (pt : PageTable E) : Prop :=
  ∀ page entry, hit pt.pTableCache page = some entry → pt.pTable page = some entry ∨ page = 0 ∧
    pt.pTable page = none

structure Agrees (pt : PageTable E) (mapped : Nat → Option (E × Nat)) : Prop where
  pTable : ∀ page, pt.pTable page = (mapped page).map Prod.fst
  fronts : Fronts pt

omit [TlbEntry E] in
theorem Fronts.updateCache (h : Fronts pt) (hpage : pTable page = some entry)
    (hother : ∀ page', page' ≠ page → hit pt.pTableCache page' ≠ none →
      pTable page' = pt.pTable page') :
    Fronts ({ pt with pTable }.updateCache page entry) := by
  intro page' entry' hhit
  by_cases hpage' : page' = page
  · subst hpage'
    have hsame := hit_pushFront_self.symm.trans hhit
    cases hsame
    exact .inl hpage
  · have hold := hit_pushFront_of_ne hpage' hhit
    have hsame := hother page' hpage' (by simp [hold])
    rcases h page' entry' hold with hin | ⟨hzero, hout⟩
    · exact .inl (hsame.trans hin)
    · exact .inr ⟨hzero, hsame.trans hout⟩

omit [TlbEntry E] in
theorem Fronts.erase (h : Fronts pt) (hnone : hit pt.pTableCache page = none) :
    Fronts { pt with pTable := update pt.pTable page none } := by
  intro page' entry' hhit
  have hne : page' ≠ page := by
    rintro rfl
    rw [hnone] at hhit
    nomatch hhit
  dsimp only
  rw [update_of_ne hne]
  exact h page' entry' hhit

variable {mapped : Nat → Option (E × Nat)}

theorem mapPage_meets (h : Agrees pt mapped) (vaddr paddr : Nat) (clobber : Bool) :
    Meets (fun pt' => pt'.shift = pt.shift ∧ pt'.pid = pt.pid ∧
        Agrees pt' (update mapped vaddr (some (TlbEntry.make pt.pid vaddr paddr, paddr))))
      (fun _ => clobber = false ∧ (mapped vaddr).isSome) (pt.mapPage vaddr paddr clobber) := by
  rw [PageTable.mapPage]
  cases hrefuse : !clobber && (pt.pTable vaddr).isSome with
  | true =>
    rw [h.pTable, isSome_map, Bool.and_eq_true, Bool.not_eq_true'] at hrefuse
    exact hrefuse
  | false =>
    refine ⟨rfl, rfl, fun page => ?_, h.fronts.updateCache (update_self ..) fun page' hne _ =>
      update_of_ne hne ..⟩
    rw [update_apply]
    split
    · subst vaddr
      exact update_self ..
    · rename_i hpage
      rw [← h.pTable]
      exact update_of_ne hpage ..

theorem remapPage_meets {newVaddr : Nat} {x : E × Nat} (h : Agrees pt mapped)
    (hmapped : mapped vaddr = some x) (hne : newVaddr ≠ vaddr)
    (hnone : hit pt.pTableCache vaddr = none) :
    Meets (fun pt' => pt'.shift = pt.shift ∧
      (∀ page ≠ newVaddr, hit pt.pTableCache page = none → hit pt'.pTableCache page = none) ∧
        Agrees pt' (update (update mapped vaddr none) newVaddr (some (retarget newVaddr x))))
      (fun _ => False) (pt.remapPage vaddr newVaddr) := by
  have hentry : pt.pTable vaddr = some x.1 := by rw [h.pTable, hmapped, map_some]
  rw [PageTable.remapPage, hentry]
  dsimp only [need]
  rw [ok_bind, update_of_ne hne, update_self, getD_some]
  refine ⟨rfl, fun page hpage => hit_pushFront_eq_none hpage, fun page => ?_,
    h.fronts.updateCache (update_self ..) fun page' hpage' hhit => ?_⟩
  · by_cases hnew : page = newVaddr
    · rw [hnew, update_self]
      exact update_self ..
    · refine (update_of_ne hnew ..).trans ?_
      rw [update_of_ne hnew, update_apply]
      split
      · subst vaddr
        rw [update_self, map_none]
      · rename_i hold
        rw [update_of_ne hnew, update_of_ne hold, h.pTable]
  · have hold : page' ≠ vaddr := fun heq => hhit (heq ▸ hnone)
    rw [update_of_ne hpage', update_of_ne hold, update_of_ne hpage']

omit [TlbEntry E] in
theorem unmapPage_meets (h : Agrees pt mapped) (hmapped : (mapped vaddr).isSome)
    (hnone : hit pt.pTableCache vaddr = none) :
    Meets (fun pt' => pt'.shift = pt.shift ∧ pt'.pTableCache = pt.pTableCache ∧
      Agrees pt' (update mapped vaddr none))
      (fun _ => False) (pt.unmapPage vaddr) := by
  rw [PageTable.unmapPage, ensure_of (by rw [h.pTable, isSome_map, hmapped]), ok_bind]
  refine ⟨rfl, rfl, fun page => ?_, h.fronts.erase hnone⟩
  dsimp only
  rw [update_apply, update_apply]
  split
  · rw [map_none]
  · rw [h.pTable]

omit [TlbEntry E] in
theorem lt_of_lt_rounds (hi : i < pt.rounds size) : (i * pt.pageSize : Int) < size := by
  have hpos : (0 : Int) < pt.pageSize := by exact_mod_cast Nat.two_pow_pos _
  rw [PageTable.rounds, Int.lt_toNat] at hi
  have hle := (Int.le_ediv_iff_mul_le hpos).mp (Int.add_one_le_of_lt hi)
  linarith

omit [TlbEntry E] in
theorem pageAt_ne (hsize : size < 2 ^ 63) (hij : i < j) (hj : j < pt.rounds size) :
    pt.pageAt start i ≠ pt.pageAt start j := by
  have hpos : 0 < pt.pageSize := Nat.two_pow_pos _
  have hlt : i * pt.pageSize < j * pt.pageSize := Nat.mul_lt_mul_of_pos_right hij hpos
  have hle : ((j * pt.pageSize : Nat) : Int) < 2 ^ 63 := by
    exact (lt_of_lt_rounds hj).trans hsize
  rw [PageTable.pageAt, PageTable.pageAt, wrap64, wrap64]
  omega

theorem map_meets {size : Int} (h : Agrees pt mapped) (halign : pt.pageOffset vaddr = 0)
    (hsize : size < 2 ^ 63) (clobber : Bool) :
    Meets (fun pt' => Agrees pt' (assign (pt.pageAt vaddr) (pt.rounds size)
        (fun i => (TlbEntry.make pt.pid (pt.pageAt vaddr i) (pt.pageAt paddr i),
          pt.pageAt paddr i)) mapped))
      (fun _ => clobber = false ∧ ∃ i < pt.rounds size, (mapped (pt.pageAt vaddr i)).isSome)
      (pt.map vaddr paddr size clobber) := by
  rw [PageTable.map, ensure_of (by rw [halign]; rfl), ok_bind]
  set value : Nat → E × Nat := fun i =>
    (TlbEntry.make pt.pid (pt.pageAt vaddr i) (pt.pageAt paddr i), pt.pageAt paddr i)
  refine (Meets.forRange (P := fun i pt' => pt'.pid = pt.pid ∧
    Agrees pt' (assign (pt.pageAt vaddr) i value mapped))
    ?_ ⟨rfl, h⟩).mono fun pt' hpt' => hpt'.2
  rintro i hi pt' ⟨hpid, hpt'⟩
  have hfresh : ∀ k < i, pt.pageAt vaddr k ≠ pt.pageAt vaddr i := fun k hk => pageAt_ne hsize hk hi
  refine (mapPage_meets hpt' (pt.pageAt vaddr i) (pt.pageAt paddr i) clobber).imp
    (fun pt'' hpt'' => ?_) fun _ hfault => ?_
  · rw [hpid] at hpt''
    rw [assign_succ hfresh]
    exact hpt''.2
  · rw [assign_of_ne hfresh] at hfault
    exact ⟨hfault.1, i, hi, hfault.2⟩

theorem remap_meets {size : Int} {newVaddr : Nat} (h : Agrees pt mapped)
    (halign : pt.pageOffset vaddr = 0) (halign' : pt.pageOffset newVaddr = 0) (hsize : size < 2 ^ 63)
    (hmapped : ∀ i < pt.rounds size, (mapped (pt.pageAt vaddr i)).isSome)
    (hcond : ∀ i < pt.rounds size, hit pt.pTableCache (pt.pageAt vaddr i) = none ∧ ∀ j ≤ i,
      pt.pageAt newVaddr j ≠ pt.pageAt vaddr i) :
    Meets (fun pt' => Agrees pt'
      (move (pt.pageAt vaddr) (pt.pageAt newVaddr) (pt.rounds size) retarget mapped))
        (fun _ => False) (pt.remap vaddr size newVaddr) := by
  rw [PageTable.remap, ensure_of (by rw [halign]; rfl), ok_bind,
    ensure_of (by rw [halign']; rfl), ok_bind]
  -- the pages still to be moved are neither in front nor changed yet
  refine (Meets.forRange (P := fun i pt' =>
    (∀ k < pt.rounds size, i ≤ k → hit pt'.pTableCache (pt.pageAt vaddr k) = none) ∧
    Agrees pt' (move (pt.pageAt vaddr) (pt.pageAt newVaddr) i retarget mapped))
    ?_ ⟨fun k hk _ => (hcond k hk).1, h⟩).mono fun pt' hpt' => hpt'.2
  rintro i hi pt' ⟨hfront, hpt'⟩
  obtain ⟨x, hx⟩ := isSome_iff_exists.mp (hmapped i hi)
  have hold : ∀ k < i, pt.pageAt vaddr k ≠ pt.pageAt vaddr i := fun k hk => pageAt_ne hsize hk hi
  have hnew : ∀ k < i, pt.pageAt newVaddr k ≠ pt.pageAt newVaddr i := fun k hk => pageAt_ne hsize hk hi
  have hsome : move (pt.pageAt vaddr) (pt.pageAt newVaddr) i retarget mapped
      (pt.pageAt vaddr i) = some x := by
    rw [move_of_ne (fun k hk => (hcond i hi).2 k hk.le) hold, hx]
  refine (remapPage_meets hpt' hsome ((hcond i hi).2 i le_rfl) (hfront i hi le_rfl)).mono
    fun pt'' hpt'' => ⟨fun k hk hik => ?_, ?_⟩
  · exact hpt''.2.1 _ ((hcond k hk).2 i (by omega)).symm (hfront k hk (by omega))
  · rw [move_succ hnew (hcond i hi).2, hx, map_some]
    exact hpt''.2.2

omit [TlbEntry E] in
theorem unmap_meets {size : Int} (h : Agrees pt mapped) (halign : pt.pageOffset vaddr = 0)
    (hsize : size < 2 ^ 63) (hmapped : ∀ i < pt.rounds size, (mapped (pt.pageAt vaddr i)).isSome)
    (hcond : ∀ i < pt.rounds size, hit pt.pTableCache (pt.pageAt vaddr i) = none) :
    Meets (fun pt' => Agrees pt' (clear (pt.pageAt vaddr) (pt.rounds size) mapped)) (fun _ => False)
      (pt.unmap vaddr size) := by
  rw [PageTable.unmap, ensure_of (by rw [halign]; rfl), ok_bind]
  refine (Meets.forRange (P := fun i pt' => pt'.pTableCache = pt.pTableCache ∧
    Agrees pt' (clear (pt.pageAt vaddr) i mapped))
    ?_ ⟨rfl, h⟩).mono fun pt' hpt' => hpt'.2
  rintro i hi pt' ⟨hcache, hpt'⟩
  have hold : ∀ k < i, pt.pageAt vaddr k ≠ pt.pageAt vaddr i := fun k hk => pageAt_ne hsize hk hi
  refine (unmapPage_meets hpt' (by rw [clear_of_ne hold]; exact hmapped i hi)
    (by rw [hcache]; exact hcond i hi)).mono
    fun pt'' hpt'' => ⟨hpt''.2.1.trans hcache, ?_⟩
  rw [clear_succ]
  exact hpt''.2.2

omit [TlbEntry E] in
theorem lookup_agrees (h : Agrees pt mapped) : Agrees (pt.lookup vaddr).2 mapped := by
  rw [PageTable.lookup]
  split
  · exact h
  · split
    · exact h
    · rename_i entry hentry
      exact ⟨h.pTable, h.fronts.updateCache hentry fun _ _ _ => rfl⟩

omit [TlbEntry E] in
theorem lookup_eq (h : Agrees pt mapped)
    (hasks : pt.pageAlign vaddr ≠ 0 ∨ (mapped 0).isSome ∨ hit pt.pTableCache 0 = none) :
    (pt.lookup vaddr).1 = (mapped (pt.pageAlign vaddr)).map Prod.fst := by
  rw [PageTable.lookup, ← h.pTable]
  cases hhit : hit pt.pTableCache (pt.pageAlign vaddr) with
  | some entry =>
    rcases h.fronts _ _ hhit with hin | ⟨hzero, hout⟩
    · exact hin.symm
    · rw [hzero] at hhit hout
      rw [h.pTable, map_eq_none_iff] at hout
      rcases hasks with hne | hsome | hgone
      · exact absurd hzero hne
      · rw [hout] at hsome
        nomatch hsome
      · rw [hgone] at hhit
        nomatch hhit
  | none =>
    cases hentry : pt.pTable (pt.pageAlign vaddr) with
    | none => rfl
    | some entry => rfl

def Framed (mapped : Nat → Option (E × Nat)) : Prop :=
  ∀ page x, mapped page = some x → TlbEntry.Fits E x.2 → TlbEntry.pageStart x.1 = x.2

structure Inv (w : PageWorld E) : Prop where
  agrees : Agrees w.table w.mapped
  framed : Framed w.mapped

theorem Inv.answers (h : w.Inv) (hasks : w.Asks vaddr) : w.Answers vaddr where
  lookup := lookup_eq h.agrees hasks
  translate := by
    rw [PageTable.translate]
    dsimp only
    rw [lookup_eq h.agrees hasks, map_map]
    rfl
  frame x hx := h.framed _ x hx

theorem create_inv (blank : E) (shift : Fin 64) (pid : Nat) : (create blank shift pid).Inv where
  agrees := ⟨fun _ => rfl, fun page entry hhit => by
    refine .inr ⟨?_, rfl⟩
    by_contra hne
    have hnone : hit (create blank shift pid).table.pTableCache page = none := by
      simp [hit, create, PageTable.create, Ne.symm hne]
    rw [hnone] at hhit
    cases hhit⟩
  framed page x hx := by cases hx

theorem apply_meets (h : w.Inv) (hadmits : w.Admits e) (hcond : w.Uncached e) :
    Meets Inv (fun _ => w.Clobbers e) (w.apply e) := by
  cases e with
  | map vaddr paddr size clobber =>
    refine (map_meets h.agrees hadmits.1 hadmits.2.2.2 clobber).bind fun pt' hpt' =>
      ⟨hpt', fun page x hx hfits => ?_⟩
    rcases assign_eq_some hx with ⟨i, -, rfl⟩ | hx
    · exact TlbEntry.pageStart_make hfits
    · exact h.framed page x hx hfits
  | remap vaddr size newVaddr =>
    obtain ⟨halign, halign', -, -, hsize, hmapped⟩ := hadmits
    refine ((remap_meets h.agrees halign halign' hsize hmapped hcond).imp (fun _ => id) fun _ =>
      False.elim).bind fun pt' hpt' =>
      ⟨hpt', fun page x hx hfits => ?_⟩
    rcases move_eq_some hx with ⟨page', y, hy, rfl⟩ | hx
    · exact TlbEntry.pageStart_updateVaddr.trans (h.framed page' y hy hfits)
    · exact h.framed page x hx hfits
  | unmap vaddr size =>
    obtain ⟨halign, -, hsize, hmapped⟩ := hadmits
    refine ((unmap_meets h.agrees halign hsize hmapped hcond).imp (fun _ => id) fun _ =>
      False.elim).bind fun pt' hpt' =>
      ⟨hpt', fun page x hx hfits => ?_⟩
    exact h.framed page x (clear_eq_some hx) hfits
  | lookup vaddr | translate vaddr => exact ⟨lookup_agrees h.agrees, h.framed⟩

/-- After any calls that take no page out of the table while it is among those used last,
the answers are exact, and a further such call fails only where it has to. -/
theorem run_answers {blank : E} {shift : Fin 64} {pid : Nat} {events : List PageEvent}
    (hrun : Runs (fun w e w' => (w.Admits e ∧ w.Uncached e) ∧ w.apply e = .ok w')
      (create blank shift pid) events w) :
    (∀ vaddr, w.Asks vaddr → w.Answers vaddr) ∧
      ∀ e, w.Admits e → w.Uncached e → ¬ w.Clobbers e → ∃ w', w.apply e = .ok w' := by
  have hinv : w.Inv := hrun.invariant (create_inv blank shift pid) fun w e w' h hstep =>
    (apply_meets h hstep.1.1 hstep.1.2).result hstep.2
  refine ⟨fun vaddr hasks => hinv.answers hasks, fun e hadmits hcond hclobbers => ?_⟩
  obtain ⟨w', heq, -⟩ :=
    ((apply_meets hinv hadmits hcond).imp (fun _ => id) fun _ => hclobbers).exists_ok
  exact ⟨w', heq⟩

def sampleBlank : X86TlbEntry := { paddr := 0x7000, vaddr := 0x3000 }

theorem run_answers_moved : ∃ w : PageWorld X86TlbEntry,
    Runs (fun w e w' => (w.Admits e ∧ w.Uncached e) ∧ w.apply e = .ok w') (create sampleBlank 12 1)
      [.map 0x1000 0x5000 0x1000 false, .map 0x8000 0x9000 0x3000 false, .lookup 0x9abc,
        .remap 0x1000 0x1000 0x20000] w ∧
      w.Answers 0x20010 ∧ w.Answers 0x1010 := by
  obtain ⟨w, hrun, hasks⟩ : ∃ w : PageWorld X86TlbEntry,
      Runs (fun w e w' => (w.Admits e ∧ w.Uncached e) ∧ w.apply e = .ok w')
        (create sampleBlank 12 1) [.map 0x1000 0x5000 0x1000 false,
          .map 0x8000 0x9000 0x3000 false, .lookup 0x9abc, .remap 0x1000 0x1000 0x20000] w ∧
        w.table.pageAlign 0x20010 ≠ 0 ∧ w.table.pageAlign 0x1010 ≠ 0 :=
    runs_of_play (fun (w : PageWorld X86TlbEntry) e => w.Admits e ∧ w.Uncached e) apply
      (by decide +kernel)
  exact ⟨w, hrun, (run_answers hrun).1 _ (.inl hasks.1), (run_answers hrun).1 _ (.inl hasks.2)⟩

/-- A new table answers for the first page, and a page that was unmapped is still found. -/
theorem lookup_finds_unmapped :
    (create sampleBlank 12 1).mapped 0 = none ∧
    ((create sampleBlank 12 1).table.lookup 0x10).1.isSome ∧
    ∃ w, Runs (fun w e w' => w.Admits e ∧ w.apply e = .ok w') (create sampleBlank 12 1)
      [.map 0x1000 0x5000 0x1000 false, .unmap 0x1000 0x1000] w ∧
      w.mapped 0x1000 = none ∧ (w.table.translate 0x1010).1 = some 0x5010 :=
  ⟨rfl, by decide +kernel, runs_of_play Admits apply (by decide +kernel)⟩

end PageWorld

end Gem5
