import Gem5.Lib.Run
import Gem5.Base.Types

/-!
# Cache arrays of the Ruby caches

`mem/ruby/system/CacheMemory.cc`: an array of slots, and an index that says in which way
of its set an address is. A slot whose entry is `NotPresent` counts as free, and is given
to another address with the index left as it is. Data, locks, replacement and profiling
are left out.
-/

namespace Gem5

open Lib Function

inductive AccessPermission
  | readOnly
  | readWrite
  | maybeStale
  | backingStore
  | invalid
  | notPresent
  | busy
  deriving DecidableEq, Repr

namespace Ruby

/-- `Address::bitSelect`, both ends included. -/
def bitSelect (address small big : Nat) : Nat :=
  if 63 ≤ big then address >>> small else (address % 2 ^ (big + 1)) >>> small

def lineAddress (bits address : Nat) : Nat := if 63 ≤ bits then address else address >>> bits <<< bits

end Ruby

structure CacheEntry where
  address : Nat
  permission : AccessPermission
  deriving DecidableEq, Repr

/-- What `init` makes of the parameters of a cache. -/
structure CacheGeometry where
  numSets : Nat
  numSetBits : Nat
  assoc : Nat
  startIndexBit : Nat
  blockSizeBits : Nat
  numSets_le : 2 ^ numSetBits ≤ numSets
  numSetBits_pos : 0 < numSetBits

def CacheGeometry.init (size assoc startIndexBit blockSizeBits : Nat) : Chk CacheGeometry :=
  let numSets := size / assoc / 2 ^ blockSizeBits
  if hsets : 1 < numSets then
    if hbits : 0 < numSets.log2 then
      return ⟨numSets, numSets.log2, assoc, startIndexBit, blockSizeBits,
        Nat.log2_self_le (by omega), hbits⟩
    else .error (.assertion "m_cache_num_set_bits > 0")
  else .error (.assertion "m_cache_num_sets > 1")

structure CacheMemory where
  geom : CacheGeometry
  cache : Nat → Nat → Option CacheEntry := fun _ _ => none
  tagIndex : Nat → Option Nat := fun _ => none

namespace CacheMemory

def isLine (c : CacheMemory) (address : Nat) : Bool :=
  address == Ruby.lineAddress c.geom.blockSizeBits address

/-- The callers have checked that this is the address of a line. -/
def addressToCacheSet (c : CacheMemory) (address : Nat) : Nat :=
  Ruby.bitSelect address c.geom.startIndexBit (c.geom.startIndexBit + c.geom.numSetBits - 1)

def slot (c : CacheMemory) (set way : Nat) : Chk (Option CacheEntry) :=
  if set < c.geom.numSets ∧ way < c.geom.assoc then return c.cache set way
    else .error (.undefined "m_cache")

def findTagInSet (c : CacheMemory) (cacheSet tag : Nat) : Chk (Option Nat) := do
  ensure (c.isLine tag) "tag == line_address(tag)"
  match c.tagIndex tag with
  | none => return none
  | some way =>
    let entry ← c.slot cacheSet way
    let entry ← need entry (.undefined "m_cache[cacheSet][it->second]")
    return if entry.permission ≠ .notPresent then some way else none

def isTagPresent (c : CacheMemory) (address : Nat) : Chk Bool := do
  ensure (c.isLine address) "address == line_address(address)"
  let loc ← c.findTagInSet (c.addressToCacheSet address) address
  return loc.isSome

def cacheAvail (c : CacheMemory) (address : Nat) : Chk Bool := do
  ensure (c.isLine address) "address == line_address(address)"
  return (List.range c.geom.assoc).any fun way =>
    match c.cache (c.addressToCacheSet address) way with
    | none => true
    | some entry => entry.address = address || entry.permission = .notPresent

def isOpen (c : CacheMemory) (set way : Nat) : Bool :=
  match c.cache set way with
  | none => true
  | some entry => entry.permission = .notPresent

def openWay (c : CacheMemory) (address : Nat) : Option Nat :=
  (List.range c.geom.assoc).find? (c.isOpen (c.addressToCacheSet address))

def setSlot (c : CacheMemory) (set way : Nat) (entry : Option CacheEntry) : CacheMemory :=
  { c with cache := Function.update c.cache set (Function.update (c.cache set) way entry) }

def allocate (c : CacheMemory) (address : Nat) : Chk CacheMemory := do
  ensure (c.isLine address) "address == line_address(address)"
  let present ← c.isTagPresent address
  ensure (!present) "!isTagPresent(address)"
  let avail ← c.cacheAvail address
  ensure avail "cacheAvail(address)"
  match c.openWay address with
  | none => .error (.panic "Allocate didn't find an available entry")
  | some way =>
    let c := c.setSlot (c.addressToCacheSet address) way (some ⟨address, .invalid⟩)
    return { c with tagIndex := Function.update c.tagIndex address (some way) }

def deallocate (c : CacheMemory) (address : Nat) : Chk CacheMemory := do
  ensure (c.isLine address) "address == line_address(address)"
  let present ← c.isTagPresent address
  ensure present "isTagPresent(address)"
  match ← c.findTagInSet (c.addressToCacheSet address) address with
  | none => return c
  | some way =>
    let c := c.setSlot (c.addressToCacheSet address) way none
    return { c with tagIndex := Function.update c.tagIndex address none }

def lookup (c : CacheMemory) (address : Nat) : Chk (Option CacheEntry) := do
  ensure (c.isLine address) "address == line_address(address)"
  match ← c.findTagInSet (c.addressToCacheSet address) address with
  | none => return none
  | some way => c.slot (c.addressToCacheSet address) way

def changePermission (c : CacheMemory) (set way : Nat) (permission : AccessPermission) : CacheMemory :=
  c.setSlot set way ((c.cache set way).map ({ · with permission := permission }))

section Slots

variable {c : CacheMemory} {address set way : Nat} {entry : CacheEntry} {e : Option CacheEntry}

theorem addressToCacheSet_lt (c : CacheMemory) (h : address < 2 ^ 64) :
    c.addressToCacheSet address < c.geom.numSets := by
  refine lt_of_lt_of_le ?_ c.geom.numSets_le
  have hbits := c.geom.numSetBits_pos
  unfold addressToCacheSet Ruby.bitSelect
  split
  · rename_i hbig
    rw [Nat.shiftRight_eq_div_pow]
    refine Nat.div_lt_of_lt_mul (h.trans_le ?_)
    rw [← pow_add]
    exact Nat.pow_le_pow_right (by decide) (by omega)
  · rw [Nat.shiftRight_eq_div_pow]
    refine Nat.div_lt_of_lt_mul ((Nat.mod_lt _ (by positivity)).trans_le ?_)
    rw [← pow_add]
    exact Nat.pow_le_pow_right (by decide) (by omega)

theorem setSlot_same : (c.setSlot set way e).cache set way = e := by
  simp [setSlot]

theorem setSlot_of_ne (h : ¬ (set' = set ∧ way' = way)) :
    (c.setSlot set way e).cache set' way' = c.cache set' way' := by
  by_cases hset : set' = set
  · subst hset
    have hway : way' ≠ way := fun hway => h ⟨rfl, hway⟩
    simp [setSlot, hway]
  · simp [setSlot, hset]

theorem setSlot_cases (h : (c.setSlot set way e).cache set' way' = some entry) :
    (set' = set ∧ way' = way ∧ e = some entry) ∨
    (¬ (set' = set ∧ way' = way) ∧ c.cache set' way' = some entry) := by
  by_cases hslot : set' = set ∧ way' = way
  · obtain ⟨rfl, rfl⟩ := hslot
    exact .inl ⟨rfl, rfl, setSlot_same.symm.trans h⟩
  · exact .inr ⟨hslot, (setSlot_of_ne hslot).symm.trans h⟩

end Slots

structure Agrees (c : CacheMemory) : Prop where
  bounds : ∀ set way entry, c.cache set way = some entry → set < c.geom.numSets ∧ way < c.geom.assoc
  slot : ∀ set way entry, c.cache set way = some entry →
    c.addressToCacheSet entry.address = set ∧ c.tagIndex entry.address = some way
  key : ∀ address way, c.tagIndex address = some way →
    ∃ entry, c.cache (c.addressToCacheSet address) way = some entry ∧ entry.address = address
  present : ∀ set way entry, c.cache set way = some entry → entry.permission ≠ .notPresent

namespace Agrees

variable {c : CacheMemory} {address way : Nat}

variable (h : c.Agrees)
include h

theorem findTagInSet (hline : c.isLine address) :
    c.findTagInSet (c.addressToCacheSet address) address = .ok (c.tagIndex address) := by
  rw [CacheMemory.findTagInSet, ensure_of hline, ok_bind]
  cases hkey : c.tagIndex address with
  | none => rfl
  | some way =>
    obtain ⟨entry, hslot, -⟩ := h.key _ _ hkey
    have hin := h.bounds _ _ _ hslot
    have hpresent := h.present _ _ _ hslot
    simp [CacheMemory.slot, hin, hslot, need, hpresent]

theorem isTagPresent (hline : c.isLine address) :
    c.isTagPresent address = .ok (c.tagIndex address).isSome := by
  rw [CacheMemory.isTagPresent, ensure_of hline, ok_bind, h.findTagInSet hline]
  rfl

theorem lookup (hline : c.isLine address) :
    ∃ entry, c.lookup address = .ok entry ∧ entry.isSome = (c.tagIndex address).isSome ∧
      ∀ e ∈ entry, e.address = address := by
  rw [CacheMemory.lookup, ensure_of hline, ok_bind, h.findTagInSet hline, ok_bind]
  cases hkey : c.tagIndex address with
  | none => exact ⟨none, rfl, rfl, by simp⟩
  | some way =>
    obtain ⟨entry, hslot, haddress⟩ := h.key _ _ hkey
    refine ⟨some entry, ?_, rfl, by simpa using haddress⟩
    simp [CacheMemory.slot, h.bounds _ _ _ hslot, hslot]

theorem isOpen {set : Nat} (hopen : c.isOpen set way) : c.cache set way = none := by
  unfold CacheMemory.isOpen at hopen
  split at hopen
  · assumption
  · exact absurd (of_decide_eq_true hopen) (h.present _ _ _ ‹_›)

theorem openWay (hline : c.isLine address) (hkey : c.tagIndex address = none)
    (havail : c.cacheAvail address = .ok true) :
    ∃ way, c.openWay address = some way ∧ way < c.geom.assoc ∧
      c.cache (c.addressToCacheSet address) way = none := by
  rw [cacheAvail, ensure_of hline, ok_bind, pure_eq_ok, List.any_eq_true] at havail
  obtain ⟨way, hway, havail⟩ := havail
  have hopen : c.isOpen (c.addressToCacheSet address) way := by
    unfold CacheMemory.isOpen
    split at havail
    · simp [*]
    · rename_i entry hslot
      have haddress : entry.address ≠ address := by
        rintro rfl
        simp [(h.slot _ _ _ hslot).2] at hkey
      simpa [hslot, haddress] using havail
  obtain ⟨first, hfirst⟩ := Option.isSome_iff_exists.mp (List.find?_isSome.mpr ⟨way, hway, hopen⟩)
  exact ⟨first, hfirst, List.mem_range.mp (List.mem_of_find?_eq_some hfirst),
    h.isOpen (List.find?_some hfirst)⟩

theorem put (x : Option CacheEntry)
    (hnew : ∀ e ∈ x, address < 2 ^ 64 ∧ way < c.geom.assoc ∧ e.address = address ∧
      e.permission ≠ .notPresent)
    (hkey : ∀ way' ∈ c.tagIndex address, way' = way)
    (hslot : ∀ e ∈ c.cache (c.addressToCacheSet address) way, e.address = address) :
    Agrees { c.setSlot (c.addressToCacheSet address) way x with
      tagIndex := update c.tagIndex address (x.map fun _ => way) } where
  bounds set way' entry hentry := by
    obtain ⟨rfl, rfl, rfl⟩ | ⟨-, hold⟩ := setSlot_cases hentry
    · exact ⟨c.addressToCacheSet_lt (hnew _ rfl).1, (hnew _ rfl).2.1⟩
    · exact h.bounds _ _ _ hold
  slot set way' entry hentry := by
    obtain ⟨rfl, rfl, rfl⟩ | ⟨hother, hold⟩ := setSlot_cases hentry
    · obtain ⟨-, -, rfl, -⟩ := hnew _ rfl
      exact ⟨rfl, update_self ..⟩
    · obtain ⟨hset, hindex⟩ := h.slot _ _ _ hold
      have hne : entry.address ≠ address := by
        rintro rfl
        exact hother ⟨hset.symm, hkey _ hindex⟩
      exact ⟨hset, (update_of_ne hne ..).trans hindex⟩
  key address' way' hindex := by
    by_cases hne : address' = address
    · subst hne
      simp only [update_self, Option.map_eq_some_iff] at hindex
      obtain ⟨entry, rfl, rfl⟩ := hindex
      exact ⟨entry, setSlot_same, (hnew _ rfl).2.2.1⟩
    · obtain ⟨entry, hentry, hname⟩ := h.key _ _ ((update_of_ne hne ..).symm.trans hindex)
      refine ⟨entry, (setSlot_of_ne ?_).trans hentry, hname⟩
      rintro ⟨hset, rfl⟩
      exact hne (hname.symm.trans (hslot _ (hset ▸ hentry)))
  present set way' entry hentry := by
    obtain ⟨-, -, rfl⟩ | ⟨-, hold⟩ := setSlot_cases hentry
    · exact (hnew _ rfl).2.2.2
    · exact h.present _ _ _ hold

theorem remove (hkey : c.tagIndex address = some way) :
    Agrees { c.setSlot (c.addressToCacheSet address) way none with
      tagIndex := update c.tagIndex address none } := by
  refine h.put none nofun (by simp [hkey]) fun e he => ?_
  obtain ⟨entry, hentry, hname⟩ := h.key _ _ hkey
  cases he.symm.trans hentry
  exact hname

theorem changePermission {set : Nat}
    (hpermission : permission ≠ .notPresent) : Agrees (c.changePermission set way permission) := by
  have hback : ∀ set' way' entry,
    (c.changePermission set way permission).cache set' way' = some entry →
      ∃ old, c.cache set' way' = some old ∧ entry.address = old.address ∧
        entry.permission ≠ .notPresent := by
    intro set' way' entry hentry
    obtain ⟨rfl, rfl, hnew⟩ | ⟨-, hold⟩ := setSlot_cases hentry
    · obtain ⟨old, hold, rfl⟩ := Option.map_eq_some_iff.mp hnew
      exact ⟨old, hold, rfl, hpermission⟩
    · exact ⟨entry, hold, rfl, h.present _ _ _ hold⟩
  refine ⟨fun set' way' entry hentry => ?_, fun set' way' entry hentry => ?_,
    fun address way' hindex => ?_, fun set' way' entry hentry => ?_⟩
  · obtain ⟨old, hold, -⟩ := hback _ _ _ hentry
    exact h.bounds _ _ _ hold
  · obtain ⟨old, hold, haddress, -⟩ := hback _ _ _ hentry
    rw [haddress]
    exact h.slot _ _ _ hold
  · obtain ⟨entry, hentry, hname⟩ := h.key _ _ hindex
    by_cases hslot : c.addressToCacheSet address = set ∧ way' = way
    · obtain ⟨rfl, rfl⟩ := hslot
      exact ⟨{ entry with permission }, setSlot_same.trans (by rw [hentry]; rfl), hname⟩
    · exact ⟨entry, (setSlot_of_ne hslot).trans hentry, hname⟩
  · obtain ⟨old, -, -, hpresent⟩ := hback _ _ _ hentry
    exact hpresent

end Agrees

end CacheMemory

/-- A cache array and the addresses that were given a slot and have it still. -/
structure CacheMemoryHistory where
  memory : CacheMemory
  live : List Nat := []

inductive CacheMemoryEvent
  | allocate (address : Nat)
  | deallocate (address : Nat)
  | changePermission (set way : Nat) (permission : AccessPermission)
  deriving Repr

namespace CacheMemoryHistory

def create (geom : CacheGeometry) : CacheMemoryHistory := { memory := { geom } }

def overwrites (w : CacheMemoryHistory) (address : Nat) : Option Nat := do
  let way ← w.memory.openWay address
  let entry ← w.memory.cache (w.memory.addressToCacheSet address) way
  return entry.address

def apply (w : CacheMemoryHistory) : CacheMemoryEvent → Chk CacheMemoryHistory
  | .allocate address => do
    let memory ← w.memory.allocate address
    return ⟨memory, address :: w.live.filter (w.overwrites address ≠ some ·)⟩
  | .deallocate address => do
    let memory ← w.memory.deallocate address
    return ⟨memory, w.live.filter (· ≠ address)⟩
  | .changePermission set way permission =>
      return { w with memory := w.memory.changePermission set way permission }

def Admits (w : CacheMemoryHistory) : CacheMemoryEvent → Prop
  | .allocate address => address < 2 ^ 64 ∧ w.memory.isLine address ∧
    w.memory.isTagPresent address = .ok false ∧ w.memory.cacheAvail address = .ok true
  | .deallocate address => address < 2 ^ 64 ∧ w.memory.isLine address ∧
      w.memory.isTagPresent address = .ok true
  | .changePermission set way _ => set < w.memory.geom.numSets ∧ way < w.memory.geom.assoc ∧
    (w.memory.cache set way).isSome

def Step (w : CacheMemoryHistory) (e : CacheMemoryEvent) (w' : CacheMemoryHistory) : Prop :=
  w.Admits e ∧ w.apply e = .ok w'

def Keeps : CacheMemoryEvent → Bool
  | .changePermission _ _ permission => permission ≠ .notPresent
  | _ => true

structure Exact (w : CacheMemoryHistory) : Prop where
  slot : ∀ set way entry, w.memory.cache set way = some entry →
    w.memory.addressToCacheSet entry.address = set ∧ w.memory.tagIndex entry.address = some way
  key : ∀ address way, w.memory.tagIndex address = some way →
    ∃ entry, w.memory.cache (w.memory.addressToCacheSet address) way = some entry ∧
      entry.address = address
  unique : ∀ set way entry set' way' entry', w.memory.cache set way = some entry →
    w.memory.cache set' way' = some entry' → entry.address = entry'.address → set = set' ∧ way = way'
  isTagPresent : ∀ address, w.memory.isLine address →
    w.memory.isTagPresent address = .ok (address ∈ w.live)
  lookup : ∀ address, w.memory.isLine address →
    ∃ entry, w.memory.lookup address = .ok entry ∧ (entry.isSome ↔ address ∈ w.live) ∧
      ∀ e ∈ entry, e.address = address
  serves : ∀ e, w.Admits e → ∃ w', w.apply e = .ok w'

structure Inv (w : CacheMemoryHistory) : Prop where
  agrees : w.memory.Agrees
  live : ∀ address, (w.memory.tagIndex address).isSome ↔ address ∈ w.live

theorem inv_create (geom : CacheGeometry) : (create geom).Inv where
  agrees := ⟨nofun, nofun, nofun, nofun⟩
  live address := by simp [create]

section Events

variable {w w' : CacheMemoryHistory} {e : CacheMemoryEvent} {address : Nat}

theorem allocate_spec (h : w.Inv) (hadmits : w.Admits (.allocate address)) :
    ∃ w', w.apply (.allocate address) = .ok w' ∧ w'.Inv := by
  obtain ⟨hlt, hline, hpresent, havail⟩ := hadmits
  have hkey : w.memory.tagIndex address = none := by
    have := Except.ok.inj ((h.agrees.isTagPresent hline).symm.trans hpresent)
    simpa using this
  obtain ⟨way, hopen, hway, hslot⟩ := h.agrees.openWay hline hkey havail
  have hover : w.overwrites address = none := by simp [overwrites, hopen, hslot]
  have hnew : ∀ e ∈ some (CacheEntry.mk address .invalid),
      address < 2 ^ 64 ∧ way < w.memory.geom.assoc ∧ e.address = address ∧
        e.permission ≠ .notPresent := by
    rintro _ ⟨⟩
    exact ⟨hlt, hway, rfl, by simp⟩
  refine ⟨⟨_, address :: w.live⟩, ?_, h.agrees.put _ hnew (by simp [hkey]) (by simp [hslot]),
    fun address' => ?_⟩
  · simp [apply, CacheMemory.allocate, ensure_of hline, hpresent, havail, hopen, hover]
    rfl
  · by_cases hne : address' = address
    · simp [hne]
    · simpa [hne] using h.live address'

theorem deallocate_spec (h : w.Inv) (hadmits : w.Admits (.deallocate address)) :
    ∃ w', w.apply (.deallocate address) = .ok w' ∧ w'.Inv := by
  obtain ⟨-, hline, hpresent⟩ := hadmits
  have hkey : (w.memory.tagIndex address).isSome :=
    Except.ok.inj ((h.agrees.isTagPresent hline).symm.trans hpresent)
  obtain ⟨way, hkey⟩ := Option.isSome_iff_exists.mp hkey
  have hfind := (h.agrees.findTagInSet hline).trans (congrArg _ hkey)
  refine ⟨⟨_, w.live.filter (· ≠ address)⟩, ?_, h.agrees.remove hkey, fun address' => ?_⟩
  · simp [apply, CacheMemory.deallocate, ensure_of hline, hpresent, hfind]
    rfl
  · by_cases hne : address' = address
    · simp [hne]
    · simpa [hne] using h.live address'

theorem apply_spec (h : w.Inv) (hadmits : w.Admits e) (hkeeps : Keeps e) :
    ∃ w', w.apply e = .ok w' ∧ w'.Inv := by
  cases e with
  | allocate address => exact allocate_spec h hadmits
  | deallocate address => exact deallocate_spec h hadmits
  | changePermission set way permission =>
    exact ⟨_, rfl, h.agrees.changePermission (of_decide_eq_true hkeeps), h.live⟩

theorem Inv.serves (h : w.Inv) (e : CacheMemoryEvent) (hadmits : w.Admits e) :
    ∃ w', w.apply e = .ok w' := by
  cases e with
  | allocate address => exact (allocate_spec h hadmits).imp fun _ => And.left
  | deallocate address => exact (deallocate_spec h hadmits).imp fun _ => And.left
  | changePermission set way permission => exact ⟨_, rfl⟩

theorem Inv.exact (h : w.Inv) : w.Exact where
  slot := h.agrees.slot
  key := h.agrees.key
  unique set way entry set' way' entry' hentry hentry' haddress := by
    obtain ⟨hset, hway⟩ := h.agrees.slot _ _ _ hentry
    obtain ⟨hset', hway'⟩ := h.agrees.slot _ _ _ hentry'
    rw [haddress] at hset hway
    exact ⟨hset.symm.trans hset', Option.some.inj (hway.symm.trans hway')⟩
  isTagPresent address hline := by
    rw [h.agrees.isTagPresent hline]
    simp [← h.live address]
  lookup address hline := by
    obtain ⟨entry, hlookup, hsome, haddress⟩ := h.agrees.lookup hline
    exact ⟨entry, hlookup, hsome ▸ h.live address, haddress⟩
  serves := h.serves

end Events

/-- As long as no entry becomes `NotPresent` in its slot, the array finds an address exactly
if it has a slot. -/
theorem run_exact {geom : CacheGeometry} {es : List CacheMemoryEvent} {w : CacheMemoryHistory}
    (h : Runs (fun w e w' => Step w e w' ∧ Keeps e) (create geom) es w) : w.Exact := by
  refine Inv.exact (h.invariant (inv_create geom) fun w e w' hw hstep => ?_)
  exact of_returns (apply_spec hw hstep.1.1 hstep.2) hstep.1.2

instance (w : CacheMemoryHistory) (e : CacheMemoryEvent) : Decidable (w.Admits e) := by
  rcases e <;> unfold Admits <;> infer_instance

def twoLines : CacheGeometry := ⟨2, 1, 1, 6, 6, by decide, Nat.one_pos⟩

example : CacheGeometry.init 128 1 6 6 = .ok twoLines := rfl

/-- The entry of line 0 becomes `NotPresent` and line 128 gets its slot: looking up line 0
then finds the entry of line 128. -/
theorem lookup_after_notPresent :
    ∃ w, Runs Step (create twoLines) [.allocate 0, .changePermission 0 0 .notPresent,
      .allocate 128] w ∧
      w.memory.lookup 0 = .ok (some ⟨128, .invalid⟩) ∧
        w.memory.isTagPresent 0 = .ok true ∧ 0 ∉ w.live :=
  runs_of_play Admits apply (by decide +kernel)

theorem run_exact_reallocated :
    ∃ w, Runs (fun w e w' => Step w e w' ∧ Keeps e) (create twoLines)
      [.allocate 0, .changePermission 0 0 .readWrite, .deallocate 0, .allocate 128] w ∧
      w.live = [128] ∧ w.Exact :=
  runs_of_play_under Admits apply (fun _ e => Keeps e) (by decide +kernel) fun _ => run_exact

end CacheMemoryHistory

end Gem5
