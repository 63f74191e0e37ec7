import Gem5.Lib.Recency
import Gem5.Mem.Cache.Tags.Base

/-!
# The LRU tag store

`mem/cache/tags/lru.cc` and `cacheset.cc`. The blocks are numbered; each set
keeps an array of its blocks, most recently used first, and rearranges it with
a loop that shifts blocks until it meets the one it moves.

The memory is divided into blocks of `blkSize` bytes, and block `n` belongs to
set `n % numSets`. The store refines a family of bounded sets of blocks, one for
each cache set, that forget the block used least recently.
-/

namespace Gem5

open Lib Nat Function
open List hiding next

namespace CacheSet

/-- The loop of `moveToHead` and `moveToTail`: swap `next` with each block in
turn, until the block swapped out is `blk`. -/
def shift (text : String) (blk next : Nat) : List Nat → Chk (List Nat)
  | [] => .error (.assertion text)
  | b :: bs =>
    if b = blk then return next :: bs
    else do
      let bs ← shift text blk b bs
      return next :: bs

def moveToHead (blks : List Nat) (blk : Nat) : Chk (List Nat) :=
  if blks.head? = some blk then return blks
  else shift "i < assoc" blk blk blks

def moveToTail (blks : List Nat) (blk : Nat) : Chk (List Nat) :=
  if blks.getLast? = some blk then return blks
  else do
    let blks ← shift "i >= 0" blk blk blks.reverse
    return blks.reverse

theorem shift_spec (h : blk ∉ l₁) :
    shift text blk next (l₁ ++ blk :: l₂) = .ok (next :: (l₁ ++ l₂)) := by
  induction l₁ generalizing next with
  | nil => simp [shift]
  | cons b bs ih =>
    obtain ⟨hb, hbs⟩ := ne_and_not_mem_of_not_mem_cons h
    rw [cons_append, shift, if_neg (Ne.symm hb), ih hbs]
    rfl

theorem moveToHead_spec (h : blk ∈ l) :
    moveToHead l blk = .ok (blk :: l.erase blk) := by
  obtain ⟨l₁, l₂, hnot, rfl, herase⟩ := exists_erase_eq h
  rw [moveToHead, herase]
  split
  · rename_i hhead
    cases l₁ with
    | nil => rfl
    | cons b bs =>
      rw [cons_append, head?_cons, Option.some.injEq] at hhead
      exact absurd (mem_cons.mpr (.inl hhead.symm)) hnot
  · exact shift_spec hnot

theorem moveToTail_spec (h : blk ∈ l) (hn : l.Nodup) :
    moveToTail l blk = .ok (l.erase blk ++ [blk]) := by
  obtain ⟨l₁, l₂, -, rfl, herase⟩ := exists_erase_eq h
  have hnot : blk ∉ l₂ := fun hm =>
    (nodup_cons.mp (perm_middle.nodup_iff.mp hn)).1 (mem_append_right _ hm)
  rw [moveToTail, herase]
  split
  · rename_i hlast
    rcases eq_nil_or_concat' l₂ with rfl | ⟨bs, b, rfl⟩
    · simp
    · have hb : b = blk := by
        rw [← cons_append, ← append_assoc, getLast?_append] at hlast
        simpa using hlast
      simp [hb] at hnot
  · rw [reverse_append, reverse_cons, append_assoc, singleton_append, shift_spec (by simpa using hnot)]
    simp

theorem shift_perm (h : shift text blk next l = .ok l') :
    blk ∈ l ∧ l'.Perm (next :: l.erase blk) := by
  induction l generalizing next l' with
  | nil => cases h
  | cons b bs ih =>
    rw [shift] at h
    split at h
    · rename_i hb
      subst hb
      cases h
      exact ⟨mem_cons_self, by rw [erase_cons_head]⟩
    · rename_i hb
      obtain ⟨bs', hbs, h⟩ := bind_eq_ok.mp h
      cases h
      obtain ⟨hmem, hperm⟩ := ih hbs
      refine ⟨mem_cons_of_mem _ hmem, ?_⟩
      rw [erase_cons_tail (by simpa using hb)]
      exact .cons _ hperm

theorem moveToHead_perm (h : moveToHead l blk = .ok l') :
    l'.head? = some blk ∧ l'.Perm l := by
  have hmem : blk ∈ l := by
    unfold moveToHead at h
    split at h
    · rename_i hhead
      exact mem_of_mem_head? hhead
    · exact (shift_perm h).1
  rw [moveToHead_spec hmem] at h
  cases h
  exact ⟨rfl, (perm_cons_erase hmem).symm⟩

theorem moveToTail_perm (h : moveToTail l blk = .ok l') : l'.Perm l := by
  unfold moveToTail at h
  split at h
  · cases h
    exact .refl _
  · obtain ⟨bs, hbs, h⟩ := bind_eq_ok.mp h
    cases h
    obtain ⟨hmem, hperm⟩ := shift_perm hbs
    exact bs.reverse_perm.trans ((hperm.trans (perm_cons_erase hmem).symm).trans l.reverse_perm)

end CacheSet

/-- The parameters the constructor lets pass. The array of block data is
indexed with `unsigned`. -/
structure LRUGeometry where
  numSets : Nat
  blkSize : Nat
  assoc : Nat
  hitLatency : Nat
  blkSize_ge : 4 ≤ blkSize
  blkSize_pow : isPowerOf2 blkSize = true
  numSets_pow : isPowerOf2 numSets = true
  assoc_pos : 0 < assoc
  hitLatency_pos : 0 < hitLatency
  data_lt : numSets * assoc * blkSize < 2 ^ 32

namespace LRUGeometry

def check (numSets blkSize assoc hitLatency : Nat) : Chk LRUGeometry :=
  if hblk : 4 ≤ blkSize ∧ isPowerOf2 blkSize = true then
    if hsets : isPowerOf2 numSets = true then
      if hassoc : 0 < assoc then
        if hlat : 0 < hitLatency then
          if hdata : numSets * assoc * blkSize < 2 ^ 32 then
            return ⟨numSets, blkSize, assoc, hitLatency, hblk.1, hblk.2, hsets, hassoc, hlat, hdata⟩
          else .error (.undefined "block data outside dataBlks")
        else .error (.fatal "access latency must be greater than zero")
      else .error (.fatal "associativity must be greater than zero")
    else .error (.fatal "# of sets must be non-zero and a power of 2")
  else .error (.fatal "Block size must be at least 4 and a power of 2")

def setShift (g : LRUGeometry) : Nat := g.blkSize.log2
def setMask (g : LRUGeometry) : Nat := g.numSets - 1
def tagShift (g : LRUGeometry) : Nat := g.setShift + g.numSets.log2
def blkMask (g : LRUGeometry) : Nat := g.blkSize - 1

def extractTag (g : LRUGeometry) (addr : Nat) : Nat := addr >>> g.tagShift
def extractSet (g : LRUGeometry) (addr : Nat) : Nat := (addr >>> g.setShift) &&& g.setMask
def blkAlign (g : LRUGeometry) (addr : Nat) : Nat := addr &&& (2 ^ 64 - 1 - g.blkMask)

def extractBlkOffset (g : LRUGeometry) (addr : Nat) : Nat := addr &&& g.blkMask

def regenerateBlkAddr (g : LRUGeometry) (tag set : Nat) : Nat :=
  wrap64 (tag <<< g.tagShift) ||| (set <<< g.setShift)

section

variable (g : LRUGeometry)

theorem numSets_pos : 0 < g.numSets := by
  have h := g.numSets_pow
  simp only [isPowerOf2, Bool.and_eq_true, bne_iff_ne] at h
  exact pos_of_ne_zero h.1

theorem extractSet_lt (addr : Nat) : g.extractSet addr < g.numSets := by
  have hpos := g.numSets_pos
  have hle : g.extractSet addr ≤ g.setMask := and_le_right
  unfold setMask at hle
  omega

theorem sizes_lt : g.numSets < 2 ^ 32 ∧ g.blkSize < 2 ^ 32 := by
  have hblk : 0 < g.blkSize := (Nat.zero_lt_succ 3).trans_le g.blkSize_ge
  constructor
  · refine lt_of_le_of_lt ?_ g.data_lt
    rw [Nat.mul_assoc]
    exact Nat.le_mul_of_pos_right _ (Nat.mul_pos g.assoc_pos hblk)
  · exact lt_of_le_of_lt (Nat.le_mul_of_pos_left _ (Nat.mul_pos g.numSets_pos g.assoc_pos)) g.data_lt

theorem blkSize_eq : g.blkSize = 2 ^ g.setShift :=
  isPowerOf2_log2 g.blkSize_pow g.sizes_lt.2

theorem blkAlign_eq (h : addr < 2 ^ 64) : g.blkAlign addr = addr >>> g.setShift <<< g.setShift := by
  have hk : g.setShift < 32 := (Nat.pow_lt_pow_iff_right (by decide)).mp (g.blkSize_eq ▸ g.sizes_lt.2)
  rw [blkAlign, blkMask, blkSize_eq, and_not_lowBits (by omega) h]

theorem numSets_eq : g.numSets = 2 ^ g.numSets.log2 :=
  isPowerOf2_log2 g.numSets_pow g.sizes_lt.1

theorem extractTag_eq (addr : Nat) : g.extractTag addr = addr >>> g.setShift >>> g.numSets.log2 := by
  rw [extractTag, tagShift, shiftRight_add]

theorem extractSet_eq (addr : Nat) :
    g.extractSet addr = (addr >>> g.setShift) % 2 ^ g.numSets.log2 := by
  rw [extractSet, setMask, numSets_eq, log2_two_pow, and_two_pow_sub_one_eq_mod]

theorem extractSet_eq_mod (addr : Nat) : g.extractSet addr = addr / g.blkSize % g.numSets := by
  rw [extractSet_eq, ← numSets_eq, shiftRight_eq_div_pow, ← blkSize_eq]

theorem extractTag_eq_div (addr : Nat) : g.extractTag addr = addr / g.blkSize / g.numSets := by
  rw [extractTag_eq, shiftRight_eq_div_pow, shiftRight_eq_div_pow, ← blkSize_eq, ← numSets_eq]

def blkNumber (blk : CacheBlk) : Nat := blk.tag * g.numSets + blk.set

theorem blkNumber_eq_iff {blk : CacheBlk} (hset : blk.set = g.extractSet addr) :
    g.blkNumber blk = addr / g.blkSize ↔ blk.tag = g.extractTag addr := by
  have hpos := g.numSets_pos
  rw [blkNumber, hset, extractSet_eq_mod, extractTag_eq_div]
  constructor
  · intro h
    rw [← h, Nat.add_comm, add_mul_div_right _ _ hpos, div_eq_of_lt (mod_lt _ hpos), Nat.zero_add]
  · rintro h
    rw [h, div_add_mod']

theorem blkAlign_eq_iff (ha : a < 2 ^ 64) (hb : b < 2 ^ 64) : g.blkAlign a = g.blkAlign b ↔
      g.extractSet a = g.extractSet b ∧ g.extractTag a = g.extractTag b := by
  rw [blkAlign_eq g ha, blkAlign_eq g hb, shiftRight_shiftLeft_inj, extractSet_eq, extractSet_eq,
    extractTag_eq, extractTag_eq]
  constructor
  · intro h
    rw [h]
    exact ⟨rfl, rfl⟩
  · rintro ⟨hset, htag⟩
    rw [shiftRight_eq_div_pow _ g.numSets.log2, shiftRight_eq_div_pow _ g.numSets.log2] at htag
    rw [← div_add_mod (a >>> g.setShift) (2 ^ g.numSets.log2), hset, htag, div_add_mod]

theorem regenerateBlkAddr_extract (h : addr < 2 ^ 64) :
    g.regenerateBlkAddr (g.extractTag addr) (g.extractSet addr) = g.blkAlign addr := by
  have hlt : addr >>> g.tagShift <<< g.tagShift < 2 ^ 64 := by
    refine lt_of_le_of_lt ?_ h
    rw [shiftLeft_eq, shiftRight_eq_div_pow]
    exact div_mul_le_self ..
  rw [blkAlign_eq g h, regenerateBlkAddr, wrap64, extractTag, mod_eq_of_lt hlt, extractSet_eq]
  refine eq_of_testBit_eq fun i => ?_
  simp only [testBit_or, testBit_shiftLeft, testBit_shiftRight, testBit_mod_two_pow, tagShift]
  by_cases hi : g.setShift + g.numSets.log2 ≤ i
  · have h1 : g.setShift ≤ i := by omega
    have h2 : ¬ i - g.setShift < g.numSets.log2 := by omega
    simp only [hi, h1, h2, decide_true, decide_false, Bool.true_and, Bool.false_and,
      Bool.and_false, Bool.or_false]
    congr 1
    omega
  · simp only [hi, decide_false, Bool.false_and, Bool.false_or]
    by_cases h1 : g.setShift ≤ i
    · have h2 : i - g.setShift < g.numSets.log2 := by omega
      simp [h1, h2]
    · simp [h1]

end

end LRUGeometry

structure LRU where
  geom : LRUGeometry
  maxMasters : Nat
  sets : Nat → List Nat
  blks : Nat → CacheBlk
  warmedUp : Bool := false
  warmupCycle : Nat := 0
  tagsInUse : Int := 0
  replacements : Nat := 0
  totalRefs : Int := 0
  sampledRefs : Nat := 0
  occupancies : Nat → Int := fun _ => 0

namespace LRU

def create (numSets blkSize assoc hitLatency maxMasters : Nat) : Chk LRU := do
  let g ← LRUGeometry.check numSets blkSize assoc hitLatency
  return { geom := g
           maxMasters := maxMasters
           sets := fun i => List.range' (i * assoc) assoc
           blks := fun b => { tag := b % assoc, set := b / assoc } }

def findBlock (t : LRU) (addr : Nat) : Option Nat :=
  (t.sets (t.geom.extractSet addr)).find? fun b =>
    (t.blks b).tag == t.geom.extractTag addr && (t.blks b).isValid

def accessBlock (t : LRU) (now addr : Nat) : Chk (LRU × Option Nat × Int) :=
  let set := t.geom.extractSet addr
  match t.findBlock addr with
  | none => return (t, none, int32 t.geom.hitLatency)
  | some b => do
    let blks ← CacheSet.moveToHead (t.sets set) b
    let blk := t.blks b
    let lat := if blk.whenReady > now ∧ blk.whenReady - now > t.geom.hitLatency
      then blk.whenReady - now else t.geom.hitLatency
    return ({ t with
      sets := update t.sets set blks
      blks := update t.blks b { blk with refCount := blk.refCount + 1 } },
      some b, int32 lat)

def findVictim (t : LRU) (addr : Nat) : Chk Nat :=
  need (t.sets (t.geom.extractSet addr))[t.geom.assoc - 1]? (.undefined "blks[assoc-1]")

def countTouched (t : LRU) (now b : Nat) : LRU :=
  if (t.blks b).isTouched then t
  else
    let tagsInUse := t.tagsInUse + 1
    if !t.warmedUp && tagsInUse ≥ ((t.geom.numSets * t.geom.assoc : Nat) : Int) then
      { t with tagsInUse := tagsInUse, warmedUp := true, warmupCycle := now }
    else { t with tagsInUse := tagsInUse }

def countReplaced (t : LRU) (b : Nat) : Chk LRU :=
  let blk := t.blks b
  if blk.isValid then do
    ensure (blk.srcMasterId < t.maxMasters) "blk->srcMasterId < cache->system->maxMasters()"
    return { t with
      replacements := t.replacements + 1
      totalRefs := t.totalRefs + blk.refCount
      sampledRefs := t.sampledRefs + 1
      occupancies := update t.occupancies blk.srcMasterId
        (t.occupancies blk.srcMasterId - 1) }
  else return t

def insertBlock (t : LRU) (now addr b master : Nat) : Chk LRU := do
  let set := t.geom.extractSet addr
  let t ← (t.countTouched now b).countReplaced b
  let blk := t.blks b
  let blk := if blk.isValid then { blk with refCount := 0 }.invalidate else blk
  ensure (master < t.maxMasters) "master_id < cache->system->maxMasters()"
  let blks ← CacheSet.moveToHead (t.sets set) b
  return { t with
    sets := update t.sets set blks
    blks := update t.blks b { blk with
      isTouched := true
      tag := t.geom.extractTag addr
      srcMasterId := master }
    occupancies := update t.occupancies master (t.occupancies master + 1) }

def invalidate (t : LRU) (b : Nat) : Chk LRU := do
  let blk := t.blks b
  ensure blk.isValid "blk->isValid()"
  ensure (blk.srcMasterId < t.maxMasters) "blk->srcMasterId < cache->system->maxMasters()"
  let blks ← CacheSet.moveToTail (t.sets blk.set) b
  return { t with
    sets := update t.sets blk.set blks
    blks := update t.blks b { blk with srcMasterId := Request.invldMasterId }
    tagsInUse := t.tagsInUse - 1
    occupancies := update t.occupancies blk.srcMasterId
      (t.occupancies blk.srcMasterId - 1) }

def setBlk (t : LRU) (b : Nat) (blk : CacheBlk) : LRU :=
  { t with blks := update t.blks b blk }

/-- What the cache does on a miss: the victim takes the address, and the status
the cache gives it. -/
def fill (t : LRU) (now addr master : Nat) (status : BlkStatus) : Chk LRU := do
  let b ← t.findVictim addr
  let t ← t.insertBlock now addr b master
  return t.setBlk b { t.blks b with status := status }

def evict (t : LRU) (b : Nat) : Chk LRU := do
  let t ← t.invalidate b
  return t.setBlk b (t.blks b).invalidate

def clearLocks (t : LRU) : LRU :=
  { t with blks := fun b =>
      if b < t.geom.numSets * t.geom.assoc then (t.blks b).clearLoadLocks else t.blks b }

instance : TagStore LRU where
  numBlks t := t.geom.numSets * t.geom.assoc
  blk t := t.blks
  setBlk := setBlk
  blkAlign t := t.geom.blkAlign
  extractTag t := t.geom.extractTag
  extractSet t := t.geom.extractSet
  extractBlkOffset t := t.geom.extractBlkOffset
  regenerateBlkAddr t := t.geom.regenerateBlkAddr
  accessBlock := accessBlock
  findBlock t addr := return t.findBlock addr
  findVictim t _ addr := do
    let b ← t.findVictim addr
    return (t, b, [])
  insertBlock := insertBlock
  invalidate := invalidate
  clearLocks := clearLocks

variable {t t' : LRU} {b : Nat} {blk : CacheBlk}

def SetInOrder (g : LRUGeometry) (blks : Nat → CacheBlk) (l : List Nat) (r : Recency Nat) : Prop :=
  ∃ v w, l = v ++ w ∧ (∀ b ∈ v, (blks b).isValid = true) ∧ (∀ b ∈ w, (blks b).isValid = false) ∧
    r.InOrder (v.map fun b => g.blkNumber (blks b))

def Owned (t : LRU) (s : Nat) (blk : CacheBlk) : Prop :=
  blk.set = s ∧ (blk.isValid = true → blk.srcMasterId < t.maxMasters)

structure Refines (t : LRU) (spec : Nat → Recency Nat) : Prop where
  frames : ∀ s < t.geom.numSets,
    (t.sets s).Perm (List.range' (s * t.geom.assoc) t.geom.assoc)
  owned : ∀ s < t.geom.numSets, ∀ b ∈ t.sets s, t.Owned s (t.blks b)
  order : ∀ s < t.geom.numSets, SetInOrder t.geom t.blks (t.sets s) (spec s)

theorem Refines.nodup (h : t.Refines spec) (hs : s < t.geom.numSets) : (t.sets s).Nodup :=
  (h.frames s hs).nodup_iff.mpr nodup_range'

theorem Refines.length (h : t.Refines spec) (hs : s < t.geom.numSets) :
    (t.sets s).length = t.geom.assoc := by
  rw [(h.frames s hs).length_eq, length_range']

theorem SetInOrder.congr {blks blks' : Nat → CacheBlk} (h : SetInOrder g blks l r)
    (hb : ∀ b ∈ l, blks' b = blks b) : SetInOrder g blks' l r := by
  obtain ⟨v, w, rfl, hv, hw, hr⟩ := h
  refine ⟨v, w, rfl, fun b hm => ?_, fun b hm => ?_, ?_⟩
  · rw [hb b (mem_append_left w hm)]
    exact hv b hm
  · rw [hb b (mem_append_right v hm)]
    exact hw b hm
  · rw [map_congr_left fun b hm => by rw [hb b (mem_append_left w hm)]]
    exact hr

theorem Refines.update (h : t.Refines spec) (blk : CacheBlk)
    (hs : s < t.geom.numSets) (hb : b ∈ t.sets s) (hl : l.Perm (t.sets s)) (how : t.Owned s blk)
    (horder : SetInOrder t.geom (update t.blks b blk) l r) (hgeom : t'.geom = t.geom)
    (hmax : t'.maxMasters = t.maxMasters) (hsets : t'.sets = update t.sets s l)
    (hblks : t'.blks = update t.blks b blk) :
    t'.Refines (update spec s r) := by
  have hother : ∀ s' < t.geom.numSets, s' ≠ s → ∀ b' ∈ t.sets s', b' ≠ b := by
    rintro s' hs' hne b' hb' rfl
    exact hne ((h.owned s' hs' b' hb').1.symm.trans (h.owned s hs b' hb).1)
  refine ⟨fun s' hs' => ?_, fun s' hs' b' hb' => ?_, fun s' hs' => ?_⟩
  all_goals rw [hgeom] at hs'
  all_goals by_cases hss : s' = s
  · subst hss
    rw [hsets, update_self, hgeom]
    exact hl.trans (h.frames s' hs')
  · rw [hsets, update_of_ne hss, hgeom]
    exact h.frames s' hs'
  · subst hss
    rw [hsets, update_self, hl.mem_iff] at hb'
    rw [Owned, hmax, hblks, update_apply]
    split
    · exact how
    · exact h.owned s' hs' b' hb'
  · rw [hsets, update_of_ne hss] at hb'
    rw [Owned, hmax, hblks, update_of_ne (hother s' hs' hss b' hb')]
    exact h.owned s' hs' b' hb'
  · subst hss
    rw [hgeom, hsets, update_self, update_self, hblks]
    exact horder
  · rw [hgeom, hsets, update_of_ne hss, update_of_ne hss, hblks]
    refine (h.order s' hs').congr fun b' hb' => ?_
    rw [update_of_ne (hother s' hs' hss b' hb')]

variable {g : LRUGeometry} {blks : Nat → CacheBlk} {l : List Nat} {r : Recency Nat} {k : Nat}

section

variable (h : SetInOrder g blks l r)
include h

theorem SetInOrder.remove (hb : b ∈ l)
    (hv : (blks b).isValid = true) :
    SetInOrder g blks (l.erase b) (r.drop (g.blkNumber (blks b))) := by
  obtain ⟨v, w, rfl, hvalid, hw, hr⟩ := h
  have hbv : b ∈ v := (mem_append.mp hb).resolve_right fun hbw => by
    rw [hw b hbw] at hv
    cases hv
  obtain ⟨v1, v2, -, rfl, herase⟩ := exists_erase_eq hbv
  refine ⟨v1 ++ v2, w, ?_, fun a ha => hvalid a ?_, hw, ?_⟩
  · rw [erase_append_left _ hbv, herase]
  · exact perm_middle.mem_iff.mpr (mem_cons_of_mem _ ha)
  · rw [map_append, map_cons] at hr
    rw [map_append]
    exact hr.drop

theorem SetInOrder.removeInvalid (hb : b ∈ l) (hv : (blks b).isValid = false) :
    SetInOrder g blks (l.erase b) r := by
  obtain ⟨v, w, rfl, hvalid, hw, hr⟩ := h
  have hbv : b ∉ v := fun hbv => by
    rw [hvalid b hbv] at hv
    cases hv
  rw [erase_append_right _ hbv]
  exact ⟨v, w.erase b, rfl, hvalid, fun a ha => hw a (mem_of_mem_erase ha), hr⟩

theorem SetInOrder.update_other (blk : CacheBlk) (hb : b ∉ l) :
    SetInOrder g (update blks b blk) l r := by
  refine h.congr fun a ha => update_of_ne ?_ ..
  rintro rfl
  exact hb ha

theorem SetInOrder.cons (hb : b ∉ l) (hv : blk.isValid = true)
    (hk : g.blkNumber blk ∉ r.resident) :
    SetInOrder g (update blks b blk) (b :: l) (r.use (g.blkNumber blk)) := by
  obtain ⟨v, w, rfl, hvalid, hw, hr⟩ := h.update_other blk hb
  refine ⟨b :: v, w, rfl, fun a ha => ?_, hw, ?_⟩
  · rcases mem_cons.mp ha with rfl | ha
    · rw [update_self]
      exact hv
    · exact hvalid a ha
  · rw [map_cons, update_self]
    exact hr.enter fun hm => hk ((hr.mem _).mp hm)

theorem SetInOrder.snoc (hb : b ∉ l) (hv : blk.isValid = false) :
    SetInOrder g (update blks b blk) (l ++ [b]) r := by
  obtain ⟨v, w, rfl, hvalid, hw, hr⟩ := h.update_other blk hb
  refine ⟨v, w ++ [b], append_assoc .., hvalid, fun a ha => ?_, hr⟩
  rcases mem_append.mp ha with ha | ha
  · exact hw a ha
  · rw [mem_singleton.mp ha, update_self]
    exact hv

theorem SetInOrder.touch (hn : l.Nodup) (hb : b ∈ l)
    (hv : (blks b).isValid = true) (hblk : blk.isValid = true)
    (hsame : g.blkNumber blk = g.blkNumber (blks b)) :
    SetInOrder g (update blks b blk) (b :: l.erase b) (r.use (g.blkNumber (blks b))) := by
  have hin := (h.remove hb hv).cons hn.not_mem_erase hblk
    (by rw [hsame, Recency.mem_resident_drop]; exact fun hm => hm.1 rfl)
  rw [hsame, Recency.use_drop] at hin
  exact hin

end

section

variable (h : SetInOrder g blks (l ++ [b]) r)
include h

theorem SetInOrder.full (hv : (blks b).isValid = true) :
    (∀ a ∈ l ++ [b], (blks a).isValid = true) ∧
      r.InOrder ((l.map fun a => g.blkNumber (blks a)) ++ [g.blkNumber (blks b)]) := by
  obtain ⟨v, w, hl, hvalid, hw, hr⟩ := h
  rcases eq_nil_or_concat' w with rfl | ⟨w', a, rfl⟩
  · rw [append_nil] at hl
    subst hl
    exact ⟨hvalid, by simpa using hr⟩
  · rw [← append_assoc] at hl
    obtain ⟨-, hba⟩ := append_inj' hl rfl
    rw [singleton_inj.mp hba, hw a (by simp)] at hv
    cases hv

theorem SetInOrder.notFull (hv : (blks b).isValid = false) :
    r.resident.ncard < (l ++ [b]).length := by
  obtain ⟨v, w, hl, hvalid, -, hr⟩ := h
  rw [hr.ncard, hl, length_map, length_append]
  have hw : w ≠ [] := by
    rintro rfl
    rw [append_nil] at hl
    rw [hvalid b (hl ▸ by simp)] at hv
    cases hv
  exact Nat.lt_add_of_pos_right (length_pos_of_ne_nil hw)

theorem SetInOrder.enter (blk : CacheBlk) (hn : (l ++ [b]).Nodup)
    (hblk : blk.isValid = true) (hk : g.blkNumber blk ∉ r.resident) :
    ∃ r', Recency.Step (l ++ [b]).length r (.enter (g.blkNumber blk)) r' ∧
      SetInOrder g (update blks b blk) (b :: l) r' := by
  have hmem : b ∈ l ++ [b] := by simp
  have hnot : b ∉ l := fun hm => (nodup_append.mp hn).2.2 b hm b (by simp) rfl
  have herase : (l ++ [b]).erase b = l := by
    rw [erase_append_right _ hnot, erase_cons_head, append_nil]
  cases hv : (blks b).isValid with
  | true =>
    have hin := h.remove hmem hv
    rw [herase] at hin
    have hfull := (h.full hv).2
    refine ⟨_, ⟨hk, .inr ⟨?_, _, hfull.oldest, rfl⟩⟩, hin.cons hnot hblk fun hm =>
      hk (Recency.mem_resident_drop.mp hm).2⟩
    rw [hfull.ncard]
    simp
  | false =>
    have hin := h.removeInvalid hmem hv
    rw [herase] at hin
    exact ⟨_, ⟨hk, .inl ⟨h.notFull hv, rfl⟩⟩, hin.cons hnot hblk hk⟩

end

section

variable (h : t.Refines spec)

include h

theorem Refines.mem_resident (hs : s < t.geom.numSets) : k ∈ (spec s).resident ↔
    ∃ b ∈ t.sets s, (t.blks b).isValid = true ∧ t.geom.blkNumber (t.blks b) = k := by
  obtain ⟨v, w, hl, hvalid, hw, hr⟩ := h.order s hs
  rw [← hr.mem k, mem_map, hl]
  constructor
  · rintro ⟨b, hb, rfl⟩
    exact ⟨b, mem_append_left w hb, hvalid b hb, rfl⟩
  · rintro ⟨b, hb, hv, rfl⟩
    refine ⟨b, (mem_append.mp hb).resolve_right fun hbw => ?_, rfl⟩
    rw [hw b hbw] at hv
    cases hv

omit h in
theorem findBlock_some (hf : t.findBlock addr = some b) :
    b ∈ t.sets (t.geom.extractSet addr) ∧ (t.blks b).tag = t.geom.extractTag addr ∧
      (t.blks b).isValid = true := by
  have hp := find?_some hf
  simp only [Bool.and_eq_true, beq_iff_eq] at hp
  exact ⟨mem_of_find?_eq_some hf, hp⟩

theorem Refines.findBlock_isSome (addr : Nat) : (t.findBlock addr).isSome = true ↔
    addr / t.geom.blkSize ∈ (spec (t.geom.extractSet addr)).resident := by
  have hs := t.geom.extractSet_lt addr
  rw [h.mem_resident hs, findBlock, find?_isSome]
  refine exists_congr fun b => and_congr_right fun hb => ?_
  rw [t.geom.blkNumber_eq_iff (h.owned _ hs b hb).1, and_comm]
  simp

theorem Refines.findBlock_eq (hs : t.geom.extractSet addr = s) (hb : b ∈ t.sets s)
    (hv : (t.blks b).isValid = true) (hk : t.geom.blkNumber (t.blks b) = addr / t.geom.blkSize) :
    t.findBlock addr = some b := by
  subst hs
  have hs := t.geom.extractSet_lt addr
  obtain ⟨c, hc⟩ := Option.isSome_iff_exists.mp
    ((h.findBlock_isSome addr).mpr ((h.mem_resident hs).mpr ⟨b, hb, hv, hk⟩))
  obtain ⟨hmem, htag, hvalid⟩ := findBlock_some hc
  have hck := (t.geom.blkNumber_eq_iff (h.owned _ hs c hmem).1).mpr htag
  -- both are valid, and no two valid blocks hold the same
  obtain ⟨v, w, hl, -, hw, hr⟩ := h.order _ hs
  have hin : ∀ a ∈ t.sets (t.geom.extractSet addr), (t.blks a).isValid = true → a ∈ v := by
    intro a ha hav
    refine (mem_append.mp (hl ▸ ha)).resolve_right fun haw => ?_
    rw [hw a haw] at hav
    cases hav
  rw [hc, inj_on_of_nodup_map hr.nodup (hin c hmem hvalid) (hin b hb hv) (hck.trans hk.symm)]

theorem Refines.accessBlock (now addr : Nat) :
    ∃ t' lat, t.accessBlock now addr = .ok (t', t.findBlock addr, lat) ∧ t'.geom = t.geom ∧
      ∃ spec', Recency.StepAt t.geom.assoc (· % t.geom.numSets) spec
        (.touch (addr / t.geom.blkSize)) spec' ∧ t'.Refines spec' := by
  have hs := t.geom.extractSet_lt addr
  have hset := t.geom.extractSet_eq_mod addr
  unfold LRU.accessBlock
  cases hf : t.findBlock addr with
  | none =>
    refine ⟨t, _, rfl, rfl, _, Recency.Step.stepAt (.inr ⟨?_, rfl⟩) hset.symm, ?_⟩
    · rw [← h.findBlock_isSome addr, hf]
      exact Bool.false_ne_true
    · rw [Function.update_eq_self]
      exact h
  | some b =>
    obtain ⟨hb, htag, hv⟩ := findBlock_some hf
    have hk := (t.geom.blkNumber_eq_iff (h.owned _ hs b hb).1).mpr htag
    have hres := (h.findBlock_isSome addr).mp (by rw [hf]; rfl)
    simp only [CacheSet.moveToHead_spec hb, ok_bind]
    refine ⟨_, _, rfl, rfl, _, Recency.Step.stepAt (.inl ⟨hres, rfl⟩) hset.symm, ?_⟩
    refine h.update _ hs hb ?_ ?_ ?_ rfl rfl rfl rfl
    · exact (perm_cons_erase hb).symm
    · exact h.owned _ hs b hb
    · rw [← hk]
      exact (h.order _ hs).touch (h.nodup hs) hb hv hv rfl

def SameBlocks (t t' : LRU) : Prop :=
  t'.geom = t.geom ∧ t'.maxMasters = t.maxMasters ∧ t'.sets = t.sets ∧ t'.blks = t.blks

omit h in
theorem sameBlocks_countTouched (t : LRU) (now b : Nat) : t.SameBlocks (t.countTouched now b) := by
  unfold countTouched
  split
  · exact ⟨rfl, rfl, rfl, rfl⟩
  · dsimp only
    split <;> exact ⟨rfl, rfl, rfl, rfl⟩

omit h in
theorem countReplaced_spec
    (h : (t.blks b).isValid = true → (t.blks b).srcMasterId < t.maxMasters) :
    ∃ t', t.countReplaced b = .ok t' ∧ t.SameBlocks t' := by
  unfold countReplaced
  dsimp only
  split
  · rename_i hv
    rw [ensure_of (decide_eq_true (h hv))]
    exact ⟨_, rfl, rfl, rfl, rfl, rfl⟩
  · exact ⟨t, rfl, rfl, rfl, rfl, rfl⟩

omit h in
theorem insertBlock_spec (now : Nat) (how : t.Owned s (t.blks b))
    (hb : b ∈ t.sets (t.geom.extractSet addr)) (hm : master < t.maxMasters) :
    ∃ t' blk, t.insertBlock now addr b master = .ok t' ∧ t'.geom = t.geom ∧
      t'.maxMasters = t.maxMasters ∧
      t'.sets = update t.sets (t.geom.extractSet addr)
        (b :: (t.sets (t.geom.extractSet addr)).erase b) ∧ t'.blks = update t.blks b blk ∧
      blk.tag = t.geom.extractTag addr ∧ blk.isValid = false ∧ blk.set = (t.blks b).set ∧
      blk.srcMasterId = master := by
  obtain ⟨hg1, hmax1, hsets1, hblks1⟩ := sameBlocks_countTouched t now b
  obtain ⟨t2, ht2, hg2, hmax2, hsets2, hblks2⟩ :=
    countReplaced_spec (t := t.countTouched now b) (b := b)
    (by rw [hblks1, hmax1]; exact how.2)
  rw [hg1] at hg2
  rw [hmax1] at hmax2
  rw [hsets1] at hsets2
  rw [hblks1] at hblks2
  simp only [insertBlock, ht2, ok_bind, hmax2, decide_eq_true hm, ensure_true, hsets2, hblks2, hg2,
    CacheSet.moveToHead_spec hb]
  refine ⟨_, _, rfl, rfl, rfl, rfl, rfl, rfl, ?_, ?_, rfl⟩
  all_goals cases hv : (t.blks b).isValid
  all_goals first | rfl | exact hv

theorem Refines.findVictim (addr : Nat) :
    ∃ b l, t.findVictim addr = .ok b ∧ t.sets (t.geom.extractSet addr) = l ++ [b] ∧
      b ∈ t.sets (t.geom.extractSet addr) := by
  have hlen := h.length (t.geom.extractSet_lt addr)
  have hpos := t.geom.assoc_pos
  rcases eq_nil_or_concat' (t.sets (t.geom.extractSet addr)) with hnil | ⟨l, b, hl⟩
  · rw [hnil, length_nil] at hlen
    omega
  · refine ⟨b, l, ?_, hl, by simp [hl]⟩
    rw [hl, length_append, length_singleton] at hlen
    rw [LRU.findVictim, hl, ← hlen]
    simp [need]

theorem Refines.fill (hmiss : t.findBlock addr = none)
    (hm : master < t.maxMasters) (hstatus : status.valid = true) (now : Nat) :
    ∃ t', t.fill now addr master status = .ok t' ∧ t'.geom = t.geom ∧
      ∃ spec', Recency.StepAt t.geom.assoc (· % t.geom.numSets) spec
        (.enter (addr / t.geom.blkSize)) spec' ∧ t'.Refines spec' := by
  have hs := t.geom.extractSet_lt addr
  obtain ⟨b, l, hvictim, hl, hb⟩ := h.findVictim addr
  obtain ⟨t', blk, hins, hgeom, hmax, hsets, hblks, htag, -, hset, hsrc⟩ :=
    insertBlock_spec now (h.owned _ hs b hb) hb hm
  have hset := hset.trans (h.owned _ hs b hb).1
  have hnum : t.geom.blkNumber { blk with status := status } = addr / t.geom.blkSize :=
    (t.geom.blkNumber_eq_iff hset).mpr htag
  have hk : addr / t.geom.blkSize ∉ (spec (t.geom.extractSet addr)).resident := by
    rw [← h.findBlock_isSome addr, hmiss]
    exact Bool.false_ne_true
  have hn := h.nodup hs
  have horder := h.order _ hs
  have hlen := h.length hs
  have hperm := (perm_cons_erase hb).symm
  have herase : (l ++ [b]).erase b = l := by
    rw [hl] at hn
    have hnot : b ∉ l := fun hm => (nodup_append.mp hn).2.2 b hm b (by simp) rfl
    rw [erase_append_right _ hnot, erase_cons_head, append_nil]
  rw [hl] at hn horder hlen
  obtain ⟨r, hstep, hin⟩ := horder.enter { blk with status := status } hn hstatus
    (by rw [hnum]; exact hk)
  rw [hnum, hlen] at hstep
  simp only [LRU.fill, hvictim, ok_bind, hins]
  refine ⟨_, rfl, hgeom, _, hstep.stepAt (t.geom.extractSet_eq_mod addr).symm, ?_⟩
  refine h.update { blk with status := status } hs hb hperm ?_ ?_ hgeom hmax hsets ?_
  · exact ⟨hset, fun _ => hsrc ▸ hm⟩
  · rw [hl, herase]
    exact hin
  · simp [setBlk, hblks]

theorem Refines.evict (hs : s < t.geom.numSets) (hb : b ∈ t.sets s)
    (hv : (t.blks b).isValid = true) :
    ∃ t', t.evict b = .ok t' ∧ t'.geom = t.geom ∧
      ∃ spec', Recency.StepAt t.geom.assoc (· % t.geom.numSets) spec
        (.drop (t.geom.blkNumber (t.blks b))) spec' ∧ t'.Refines spec' := by
  obtain ⟨hset, hmaster⟩ := h.owned s hs b hb
  have hres := (h.mem_resident hs).mpr ⟨b, hb, hv, rfl⟩
  have hplace : t.geom.blkNumber (t.blks b) % t.geom.numSets = s := by
    rw [LRUGeometry.blkNumber, hset, mul_add_mod_of_lt hs]
  simp only [LRU.evict, LRU.invalidate, hv, ensure_true, decide_eq_true (hmaster hv), ok_bind, hset,
    CacheSet.moveToTail_spec hb (h.nodup hs)]
  refine ⟨_, rfl, rfl, _, Recency.Step.stepAt ⟨hres, rfl⟩ hplace,
    h.update (CacheBlk.invalidate { t.blks b with srcMasterId := Request.invldMasterId })
      hs hb ?_ ?_ ?_ rfl rfl rfl ?_⟩
  · exact (perm_append_singleton ..).trans (perm_cons_erase hb).symm
  · exact ⟨hset, nofun⟩
  · exact ((h.order s hs).remove hb hv).snoc (h.nodup hs).not_mem_erase rfl
  · simp [setBlk, hset]

/-- What the cache does to the store, named by the number of the block of memory it is about: an
access, a fill after a miss, or giving up a block that is there. -/
def Step (t : LRU) : RecencyOp Nat → LRU → Prop
  | .touch n, t' => ∃ now addr r, addr / t.geom.blkSize = n ∧ t.accessBlock now addr = .ok (t', r)
  | .enter n, t' => ∃ now addr master status, addr / t.geom.blkSize = n ∧
      t.findBlock addr = none ∧ status.valid = true ∧ t.fill now addr master status = .ok t'
  | .drop n, t' => ∃ addr b, addr / t.geom.blkSize = n ∧
      t.findBlock addr = some b ∧ t.evict b = .ok t'

omit h in
theorem create_geom (hc : create numSets blkSize assoc hitLatency masters = .ok t) :
    t.geom.numSets = numSets ∧ t.geom.assoc = assoc ∧ t.geom.blkSize = blkSize := by
  simp only [create, LRUGeometry.check, bind_eq_ok] at hc
  obtain ⟨g, hg, hc⟩ := hc
  split_ifs at hg
  cases hg
  cases hc
  exact ⟨rfl, rfl, rfl⟩

omit h in
theorem create_refines (hc : create numSets blkSize assoc hitLatency masters = .ok t) :
    t.Refines fun _ => .empty := by
  obtain ⟨-, hassoc, -⟩ := create_geom hc
  obtain ⟨g, -, hc⟩ := bind_eq_ok.mp hc
  cases hc
  have hassoc : g.assoc = assoc := hassoc
  subst hassoc
  refine ⟨fun s hs => .refl _, fun s hs b hb => ⟨?_, nofun⟩, fun s hs => ?_⟩
  · obtain ⟨hle, hlt⟩ := mem_range'_1.mp hb
    exact Nat.div_eq_of_lt_le hle (by rw [Nat.succ_mul]; exact hlt)
  · exact ⟨[], _, rfl, nofun, fun b _ => rfl, .empty⟩

theorem fill_master (hf : t.fill now addr master status = .ok t') :
    master < t.maxMasters := by
  have hs := t.geom.extractSet_lt addr
  obtain ⟨b, l, hvictim, hl, hb⟩ := h.findVictim addr
  obtain ⟨-, hmax1, -, hblks1⟩ := sameBlocks_countTouched t now b
  obtain ⟨t2, ht2, -, hmax2, -⟩ := countReplaced_spec (t := t.countTouched now b) (b := b)
    (by rw [hblks1, hmax1]; exact (h.owned _ hs b hb).2)
  simp only [LRU.fill, hvictim, ok_bind, insertBlock, ht2, bind_eq_ok, ensure_eq_ok] at hf
  obtain ⟨_, ⟨_, hm, -⟩, -⟩ := hf
  rw [← hmax1, ← hmax2]
  exact of_decide_eq_true hm

theorem Refines.step (hs : t.Step op t') :
    t'.geom = t.geom ∧ ∃ spec', Recency.StepAt t.geom.assoc (· % t.geom.numSets) spec op spec' ∧
      t'.Refines spec' := by
  cases op with
  | touch n =>
    obtain ⟨now, addr, r, rfl, hacc⟩ := hs
    obtain ⟨t1, lat, hacc', hgeom, hspec⟩ := h.accessBlock now addr
    cases hacc'.symm.trans hacc
    exact ⟨hgeom, hspec⟩
  | enter n =>
    obtain ⟨now, addr, master, status, rfl, hmiss, hstatus, hfill⟩ := hs
    obtain ⟨t1, hfill', hgeom, hspec⟩ := h.fill hmiss (fill_master h hfill) hstatus now
    cases hfill'.symm.trans hfill
    exact ⟨hgeom, hspec⟩
  | drop n =>
    obtain ⟨addr, b, rfl, hfind, hevict⟩ := hs
    obtain ⟨hb, htag, hv⟩ := findBlock_some hfind
    have hset := t.geom.extractSet_lt addr
    obtain ⟨t1, hevict', hgeom, hspec⟩ := h.evict hset hb hv
    cases hevict'.symm.trans hevict
    rw [(t.geom.blkNumber_eq_iff (h.owned _ hset b hb).1).mpr htag] at hspec
    exact ⟨hgeom, hspec⟩

end

/-- Every run of the store is a run of the family of sets that forget the block used least
recently. In the state it reaches, each set's array holds the blocks of the set, the valid ones
first and in order of use; a lookup finds the blocks of memory that the family holds; the victim
is an invalid block if there is one and otherwise the one used least recently; and no operation
fails. -/
theorem run_refines (hc : create numSets blkSize assoc hitLatency masters = .ok t₀)
    (hr : Runs Step t₀ ops t) :
    ∃ spec, Runs (Recency.StepAt assoc (· % numSets)) (fun _ => .empty) ops spec ∧
      (∀ s < numSets, (t.sets s).Perm (List.range' (s * assoc) assoc) ∧
        ∃ v w, t.sets s = v ++ w ∧ (∀ b ∈ v, (t.blks b).isValid = true) ∧
          (∀ b ∈ w, (t.blks b).isValid = false) ∧ (v.map fun b => (t.blks b).tag).Nodup ∧
          (spec s).InOrder (v.map fun b => (t.blks b).tag * numSets + s)) ∧
      (∀ addr, (t.findBlock addr).isSome = true ↔
        addr / blkSize ∈ (spec (addr / blkSize % numSets)).resident) ∧
      (∀ now addr, ∃ t' lat, t.accessBlock now addr = .ok (t', t.findBlock addr, lat)) ∧
      (∀ addr, ∃ b, t.findVictim addr = .ok b ∧ b ∈ t.sets (addr / blkSize % numSets) ∧
        ((t.blks b).isValid = true →
          (∀ a ∈ t.sets (addr / blkSize % numSets), (t.blks a).isValid = true) ∧
            (spec (addr / blkSize % numSets)).Oldest
              ((t.blks b).tag * numSets + addr / blkSize % numSets))) ∧
      (∀ now addr master status, t.findBlock addr = none → master < t.maxMasters →
        status.valid = true → ∃ t', t.fill now addr master status = .ok t') ∧
      ∀ s < numSets, ∀ b ∈ t.sets s, (t.blks b).isValid = true →
        t.findBlock (((t.blks b).tag * numSets + s) * blkSize) = some b ∧
          ∃ t', t.evict b = .ok t' := by
  obtain ⟨hsets, hassoc, hblk⟩ := create_geom hc
  obtain ⟨spec, hspec, hgeom, h⟩ := hr.simulate (R := fun t spec => t.geom = t₀.geom ∧ t.Refines spec)
    ⟨rfl, create_refines hc⟩ fun u op u' spec hu hs => by
      obtain ⟨hgeom, spec', hstep, hR⟩ := hu.2.step hs
      rw [hu.1] at hgeom hstep
      exact ⟨spec', hstep, hgeom, hR⟩
  rw [← hgeom] at hsets hassoc hblk
  subst hsets hassoc hblk
  rw [← hgeom] at hspec
  have hnum : ∀ s < t.geom.numSets, ∀ b ∈ t.sets s,
      t.geom.blkNumber (t.blks b) = (t.blks b).tag * t.geom.numSets + s := by
    intro s hs b hb
    rw [LRUGeometry.blkNumber, (h.owned s hs b hb).1]
  simp only [← t.geom.extractSet_eq_mod]
  refine ⟨spec, hspec, fun s hs => ⟨h.frames s hs, ?_⟩, h.findBlock_isSome, ?_, ?_, ?_, ?_⟩
  · obtain ⟨v, w, hl, hv, hw, hr⟩ := h.order s hs
    rw [map_congr_left fun b hb => hnum s hs b (hl ▸ mem_append_left w hb)] at hr
    refine ⟨v, w, hl, hv, hw, ?_, hr⟩
    exact Nodup.of_map (· * t.geom.numSets + s) (by rw [map_map]; exact hr.nodup)
  · intro now addr
    obtain ⟨t', lat, hacc, -⟩ := h.accessBlock now addr
    exact ⟨t', lat, hacc⟩
  · intro addr
    have hs := t.geom.extractSet_lt addr
    obtain ⟨b, l, hvictim, hl, hb⟩ := h.findVictim addr
    refine ⟨b, hvictim, hb, fun hv => ?_⟩
    have horder := h.order _ hs
    rw [← hnum _ hs b hb]
    rw [hl] at horder ⊢
    exact ⟨(horder.full hv).1, (horder.full hv).2.oldest⟩
  · intro now addr master status hmiss hm hstatus
    obtain ⟨t', hfill, -⟩ := h.fill hmiss hm hstatus now
    exact ⟨t', hfill⟩
  · intro s hs b hb hv
    have haddr : ((t.blks b).tag * t.geom.numSets + s) * t.geom.blkSize / t.geom.blkSize =
        (t.blks b).tag * t.geom.numSets + s :=
      Nat.mul_div_cancel _ ((Nat.zero_lt_succ 3).trans_le t.geom.blkSize_ge)
    obtain ⟨t', hevict, -⟩ := h.evict hs hb hv
    refine ⟨h.findBlock_eq ?_ hb hv ?_, t', hevict⟩
    · rw [t.geom.extractSet_eq_mod, haddr, mul_add_mod_of_lt hs]
    · rw [haddr, hnum s hs b hb]

def sampleStore : LRU where
  geom := ⟨1, 4, 2, 1, by decide, by decide, by decide, by decide, by decide, by decide⟩
  maxMasters := 1
  sets := fun i => List.range' (i * 2) 2
  blks := fun b => { tag := b % 2, set := b / 2 }

def twoSets : LRU where
  geom := ⟨2, 4, 2, 1, by decide, by decide, by decide, by decide, by decide, by decide⟩
  maxMasters := 1
  sets := fun i => List.range' (i * 2) 2
  blks := fun b => { tag := b % 2, set := b / 2 }

theorem run_refines_replacement :
    ∃ t, create 2 4 2 1 1 = .ok twoSets ∧
      Runs Step twoSets [.enter 0, .enter 1, .enter 2, .touch 0, .enter 4, .drop 1] t ∧
      [0, 4, 8, 16].map (fun addr => (t.findBlock addr).isSome) = [true, false, false, true] ∧
      ∃ spec, Runs (Recency.StepAt 2 (· % 2)) (fun _ => .empty)
          [.enter 0, .enter 1, .enter 2, .touch 0, .enter 4, .drop 1] spec ∧
        2 ∉ (spec 0).resident ∧ 4 ∈ (spec 0).resident := by
  let status : BlkStatus := ⟨true, false, true, false, false, false⟩
  -- the calls as one computation, with what the steps ask of the store before each
  obtain ⟨t, ht⟩ : ∃ t, (do
      let t1 ← twoSets.fill 0 0 0 status
      ensure ((t1.findBlock 4).isNone && t1.geom.blkSize == 4) "miss"
      let t2 ← t1.fill 0 4 0 status
      ensure ((t2.findBlock 8).isNone && t2.geom.blkSize == 4) "miss"
      let t3 ← t2.fill 0 8 0 status
      ensure (t3.geom.blkSize == 4) "hit"
      let t4 ← t3.accessBlock 0 0
      ensure ((t4.1.findBlock 16).isNone && t4.1.geom.blkSize == 4) "miss"
      let t5 ← t4.1.fill 0 16 0 status
      ensure (t5.findBlock 4 == some 3 && t5.geom.blkSize == 4) "hit"
      let t6 ← t5.evict 3
      ensure ([0, 4, 8, 16].map (fun addr => (t6.findBlock addr).isSome) ==
        [true, false, false, true]) "found"
      return t6) = .ok t := ok_of_isSome (by decide +kernel)
  simp only [bind_eq_ok, ensure_eq_ok, pure_eq_ok, Bool.and_eq_true, beq_iff_eq,
    Option.isNone_iff_eq_none] at ht
  obtain ⟨t1, h1, _, ⟨hm1, hg1⟩, t2, h2, _, ⟨hm2, hg2⟩, t3, h3, _, hg3, t4, h4, _, ⟨hm4, hg4⟩,
    t5, h5, _, ⟨hm5, hg5⟩, t6, h6, _, hfound, rfl⟩ := ht
  have hr1 : Runs Step twoSets [.enter 0] t1 := .single ⟨0, 0, 0, status, rfl, rfl, rfl, h1⟩
  have hr2 := hr1.snoc (a := RecencyOp.enter 1) ⟨0, 4, 0, status, by rw [hg1], hm1, rfl, h2⟩
  have hr3 := hr2.snoc (a := RecencyOp.enter 2) ⟨0, 8, 0, status, by rw [hg2], hm2, rfl, h3⟩
  have hr4 := hr3.snoc (a := RecencyOp.touch 0) ⟨0, 0, _, by rw [hg3], h4⟩
  have hr5 := hr4.snoc (a := RecencyOp.enter 4) ⟨0, 16, 0, status, by rw [hg4], hm4, rfl, h5⟩
  have hr6 := hr5.snoc (a := RecencyOp.drop 1) ⟨4, 3, by rw [hg5], hm5, h6⟩
  obtain ⟨spec, hspec, -, hhits, -⟩ :=
    run_refines (show create 2 4 2 1 1 = .ok twoSets from rfl) hr6
  have hhit8 := hhits 8
  have hhit16 := hhits 16
  simp only [map_cons, map_nil, cons.injEq] at hfound
  rw [hfound.2.2.1] at hhit8
  rw [hfound.2.2.2.1] at hhit16
  exact ⟨t6, rfl, hr6, by simp [hfound], spec, hspec, by simpa using hhit8, by simpa using hhit16⟩

end LRU

end Gem5
