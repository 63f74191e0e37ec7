import Gem5.Mem.Cache.Tags.Base

/-!
# The fully associative LRU tag store

`mem/cache/tags/fa_lru.cc`. One doubly linked list of blocks, most recently used
first, with a hash table from block addresses to blocks. Bit `i` of a block's
`inCache` says whether the block would be in a cache of `2 ^ (17 + i)` bytes;
`cacheBoundaries` holds the last block of each such cache.

A block's own `isTouched`, which nothing reads, is left out.
-/

namespace Gem5

open Lib

structure FALRUBlk extends CacheBlk where
  prev : Option Nat := none
  next : Option Nat := none
  inCache : Nat := 0

/-- The parameters for which the constructor's arithmetic and its pointers to
the first and last blocks are defined. -/
structure FALRUGeometry where
  blkSize : Nat
  size : Nat
  hitLatency : Nat
  blkSize_pow : isPowerOf2 blkSize = true
  size_pow : isPowerOf2 size = true
  hitLatency_pos : 0 < hitLatency
  size_ge : 2 ^ 17 ≤ size
  size_lt : size < 2 ^ 32
  numBlocks_ge : 2 ≤ size / blkSize

namespace FALRUGeometry

def check (blkSize size hitLatency : Nat) : Chk FALRUGeometry :=
  if hblk : isPowerOf2 blkSize = true then
    if hlat : 0 < hitLatency then
      if hsize : isPowerOf2 size = true then
        if hlt : 2 ^ 17 ≤ size ∧ size < 2 ^ 32 then
          if hnum : 2 ≤ size / blkSize then
            return ⟨blkSize, size, hitLatency, hblk, hsize, hlat, hlt.1, hlt.2, hnum⟩
          else .error (.undefined "blks[numBlocks-2]")
        else .error (.undefined "1 << numCaches")
      else .error (.fatal "Cache Size must be power of 2 for now")
    else .error (.fatal "Access latency in cycles must be at least one cycle")
  else .error (.fatal s!"cache block size (in bytes) `{blkSize}' must be a power of two")

def numCaches (g : FALRUGeometry) : Nat := g.size.log2 - 17
def cacheMask (g : FALRUGeometry) : Nat := 1 <<< g.numCaches - 1
def numBlocks (g : FALRUGeometry) : Nat := g.size / g.blkSize

def blkAlign (g : FALRUGeometry) (addr : Nat) : Nat := addr &&& (2 ^ 64 - 1 - (g.blkSize - 1))
def extractTag (g : FALRUGeometry) (addr : Nat) : Nat := g.blkAlign addr
def extractBlkOffset (g : FALRUGeometry) (addr : Nat) : Nat := addr &&& (g.blkSize - 1)

end FALRUGeometry

structure FALRU where
  geom : FALRUGeometry
  cacheBoundaries : Nat → Option Nat
  blks : Nat → FALRUBlk
  head : Nat
  tail : Nat
  tagHash : Nat → Option Nat := fun _ => none
  warmedUp : Bool := false
  warmupCycle : Nat := 0
  tagsInUse : Int := 0
  replacements : Nat := 0
  hits : Nat → Nat := fun _ => 0
  misses : Nat → Nat := fun _ => 0
  accesses : Nat := 0

namespace FALRU

def clearBit (x i : Nat) : Nat := x ^^^ (x &&& 1 <<< i)

structure Linking where
  index : Nat
  j : Nat := 0
  flags : Nat
  cacheBoundaries : Nat → Option Nat := fun _ => none
  inCache : Nat → Nat := fun _ => 0

def Linking.link (s : Linking) (i : Nat) : Linking :=
  let s := { s with inCache := Function.update s.inCache i s.flags }
  if i + 1 = s.index then
    { s with
      cacheBoundaries := Function.update s.cacheBoundaries s.j (some i)
      flags := clearBit s.flags s.j
      j := s.j + 1
      index := s.index <<< 1 % 2 ^ 32 }
  else s

def create (blkSize size hitLatency : Nat) : Chk FALRU := do
  let g ← FALRUGeometry.check blkSize size hitLatency
  let last := g.numBlocks - 1
  let s := (List.range' 1 (last - 1)).foldl Linking.link
    { index := 1 <<< 17 / g.blkSize
      flags := g.cacheMask
      inCache := fun i => if i = 0 then g.cacheMask else 0 }
  ensure (s.j == g.numCaches) "j == numCaches"
  ensure (s.index == g.numBlocks) "index == numBlocks"
  return {
    geom := g
    cacheBoundaries := s.cacheBoundaries
    blks := fun i =>
      { prev := if i = 0 then none else some (i - 1)
        next := if i < last then some (i + 1) else none
        inCache := s.inCache i }
    head := 0
    tail := last }

def modifyBlk (t : FALRU) (b : Nat) (f : FALRUBlk → FALRUBlk) : FALRU :=
  { t with blks := Function.update t.blks b (f (t.blks b)) }

def shiftBoundary (b updateMask : Nat) (t : FALRU) (i : Nat) : Chk FALRU :=
  if updateMask.testBit i then do
    let last ← need (t.cacheBoundaries i) (.undefined "cacheBoundaries[i]->inCache")
    let t := t.modifyBlk last fun blk => { blk with inCache := clearBit blk.inCache i }
    return { t with cacheBoundaries := Function.update t.cacheBoundaries i (t.blks last).prev }
  else if t.cacheBoundaries i = some b then
    return { t with cacheBoundaries := Function.update t.cacheBoundaries i (t.blks b).prev }
  else return t

def unlink (t : FALRU) (b : Nat) : Chk FALRU :=
  if b = t.tail then do
    ensure ((t.blks b).next == none) "blk->next == NULL"
    let prev ← need (t.blks b).prev (.undefined "tail->next")
    let t := { t with tail := prev }
    return t.modifyBlk prev fun blk => { blk with next := none }
  else do
    let prev ← need (t.blks b).prev (.undefined "blk->prev->next")
    let t := t.modifyBlk prev fun blk => { blk with next := (t.blks b).next }
    let next ← need (t.blks b).next (.undefined "blk->next->prev")
    return t.modifyBlk next fun blk => { blk with prev := (t.blks b).prev }

def linkHead (t : FALRU) (b : Nat) : FALRU :=
  let t := t.modifyBlk b fun blk => { blk with next := some t.head, prev := none }
  let t := t.modifyBlk t.head fun blk => { blk with prev := some b }
  { t with head := b }

def moveToHead (t : FALRU) (b : Nat) : Chk FALRU := do
  let updateMask := (t.blks b).inCache ^^^ t.geom.cacheMask
  let t ← (List.range t.geom.numCaches).foldlM (shiftBoundary b updateMask) t
  let t := t.modifyBlk b fun blk => { blk with inCache := t.geom.cacheMask }
  if b = t.head then return t
  else do
    let t ← t.unlink b
    return t.linkHead b

def touch (t : FALRU) (b : Nat) : Chk FALRU := if b = t.head then return t else t.moveToHead b

def hashLookup (t : FALRU) (addr : Nat) : Option Nat := t.tagHash addr

def lookup (t : FALRU) (addr : Nat) : Chk (Option Nat) :=
  let blkAddr := t.geom.blkAlign addr
  match t.hashLookup blkAddr with
  | none => return none
  | some b =>
    if (t.blks b).isValid then do
      ensure ((t.blks b).tag == blkAddr) "blk->tag == blkAddr"
      return some b
    else return none

def findBlock (t : FALRU) (addr : Nat) : Chk (Option Nat) := t.lookup addr

def countAccess (t : FALRU) (hit : Nat → Bool) : FALRU :=
  let counted i n := n + if i ≤ t.geom.numCaches then 1 else 0
  { t with
    hits := fun i => if hit i then counted i (t.hits i) else t.hits i
    misses := fun i => if hit i then t.misses i else counted i (t.misses i) }

def accessBlock (t : FALRU) (addr : Nat) : Chk (FALRU × Option Nat × Int × Nat) := do
  let t := { t with accesses := t.accesses + 1 }
  let found ← t.lookup addr
  match found with
  | none => return (t.countAccess fun _ => false, none, int32 t.geom.hitLatency, 0)
  | some b =>
    let inCache := (t.blks b).inCache
    let t := t.countAccess fun i => i = t.geom.numCaches || inCache.testBit i
    let t ← t.touch b
    return (t, some b, int32 t.geom.hitLatency, inCache)

def countVictim (t : FALRU) (now b : Nat) : FALRU :=
  if (t.blks b).isValid then { t with replacements := t.replacements + 1 }
  else
    let tagsInUse := t.tagsInUse + 1
    if !t.warmedUp && tagsInUse ≥ ((t.geom.size / t.geom.blkSize : Nat) : Int) then
      { t with tagsInUse := tagsInUse, warmedUp := true, warmupCycle := now }
    else { t with tagsInUse := tagsInUse }

def rehash (t : FALRU) (b addr : Nat) : FALRU :=
  let tagHash := Function.update t.tagHash (t.blks b).tag none
  { t with tagHash := Function.update tagHash (t.geom.blkAlign addr) (some b) }

def findVictim (t : FALRU) (now addr : Nat) : Chk (FALRU × Nat) := do
  let b := t.tail
  ensure ((t.blks b).inCache == 0) "blk->inCache == 0"
  let t ← t.moveToHead b
  return ((t.rehash b addr).countVictim now b, b)

def invalidate (t : FALRU) : FALRU := { t with tagsInUse := t.tagsInUse - 1 }

def setBlk (t : FALRU) (b : Nat) (blk : CacheBlk) : FALRU :=
  t.modifyBlk b fun old => { old with toCacheBlk := blk }

def clearLocks (t : FALRU) : FALRU :=
  { t with blks := fun b =>
      if b < t.geom.numBlocks then { t.blks b with toCacheBlk := (t.blks b).clearLoadLocks }
      else t.blks b }

/-- The victim takes the address in `findVictim`; `insertBlock` is empty. -/
instance : TagStore FALRU where
  numBlks t := t.geom.numBlocks
  blk t b := (t.blks b).toCacheBlk
  setBlk := setBlk
  blkAlign t := t.geom.blkAlign
  extractTag t := t.geom.extractTag
  extractSet _ _ := 0
  extractBlkOffset t := t.geom.extractBlkOffset
  regenerateBlkAddr _ tag _ := tag
  accessBlock t _ addr := do
    let (t, b, lat, _) ← t.accessBlock addr
    return (t, b, lat)
  findBlock := findBlock
  findVictim t now addr := do
    let (t, b) ← t.findVictim now addr
    return (t, b, [])
  insertBlock t _ _ _ _ := return t
  invalidate t _ := return t.invalidate
  clearLocks := clearLocks

end FALRU

end Gem5
