import Gem5.Lib.Linked
import Gem5.Mem.Cache.Tags.GenRepl
import Gem5.Mem.Cache.Tags.LRU

/-!
# The indirect-index tag store

`mem/cache/tags/iic.cc`. Tags are numbered; those below `primaryBound` are the
ways of the hash sets, the others are on the chain a set overflows into or on
the free list, and `tagNull` ends a chain. A tag holds references to the data
blocks of its sub-blocks; the replacement policy decides which tag is freed.

The statistics, the lookup depths they sample, and `trivialData`, which
nothing uses, are left out.
-/

namespace Gem5

open Lib

/-- Only the first `numData` of `dataPtr` mean anything. -/
structure IICTag extends CacheBlk where
  chainPtr : Nat := 0
  dataPtr : Nat → Nat := fun _ => 0
  re : Option Nat := none
  numData : Nat := 0

/-- Assignment leaves the fields the operators do not mention. -/
def IICTag.assign (dst src : IICTag) : IICTag :=
  { src with isTouched := dst.isTouched, srcMasterId := dst.srcMasterId, lockList := dst.lockList }

def IICTag.clear (x : IICTag) : IICTag := { x with status := {}, numData := 0, re := none }

def IICTag.occupy (x : IICTag) (set : Nat) (ds : List Nat) (tagNull : Nat) : IICTag :=
  { x with set := set, dataPtr := fun k => ds.getD k (x.dataPtr k), numData := ds.length
           chainPtr := tagNull }

structure IICSet where
  chainPtr : Nat
  tags : List Nat

structure IICParams where
  size : Nat
  numSets : Nat
  blkSize : Nat
  assoc : Nat
  hashDelay : Nat
  hitLatency : Nat
  subblockSize : Nat

/-- The parameters the constructor lets pass, with room for the data of all
blocks and tags. -/
structure IICGeometry extends IICParams where
  blkSize_ge : 4 ≤ blkSize
  blkSize_pow : isPowerOf2 blkSize = true
  numSets_pow : isPowerOf2 numSets = true
  assoc_pos : 0 < assoc
  hitLatency_pos : 0 < hitLatency
  subblocks : blkSize / subblockSize * subblockSize = blkSize
  numSecondary_pos : 0 < size / blkSize
  data_lt : (size / subblockSize + numSets * assoc + size / blkSize) * blkSize < 2 ^ 32

namespace IICGeometry

def check (p : IICParams) : Chk IICGeometry :=
  if p.subblockSize = 0 then .error (.undefined "blkSize/subSize")
  else if hblk : 4 ≤ p.blkSize ∧ isPowerOf2 p.blkSize = true then
    if hsets : isPowerOf2 p.numSets = true then
      if hassoc : 0 < p.assoc then
        if hlat : 0 < p.hitLatency then
          if hsub : p.blkSize / p.subblockSize * p.subblockSize = p.blkSize then
            if hdata : 0 < p.size / p.blkSize ∧
                (p.size / p.subblockSize + p.numSets * p.assoc + p.size / p.blkSize) * p.blkSize <
                  2 ^ 32 then
              return ⟨p, hblk.1, hblk.2, hsets, hassoc, hlat, hsub, hdata.1, hdata.2⟩
            else .error (.undefined "dataStore")
          else .error (.fatal "blocksize must be evenly divisible by subblock size")
        else .error (.fatal "access latency must be greater than zero")
      else .error (.fatal "associativity must be greater than zero")
    else .error (.fatal "# of hashsets must be non-zero and a power of 2")
  else .error (.fatal "Block size must be at least 4 and a power of 2")

def hashSets (g : IICGeometry) : Nat := g.numSets
def numSub (g : IICGeometry) : Nat := g.blkSize / g.subblockSize
def tagShift (g : IICGeometry) : Nat := g.blkSize.log2
def blkMask (g : IICGeometry) : Nat := g.blkSize - 1
def numSecondary (g : IICGeometry) : Nat := g.size / g.blkSize
def primaryBound (g : IICGeometry) : Nat := g.hashSets * g.assoc
def numTags (g : IICGeometry) : Nat := g.primaryBound + g.numSecondary - 1
def tagNull (g : IICGeometry) : Nat := g.numTags
def numBlocks (g : IICGeometry) : Nat := g.size / g.subblockSize

def extractTag (g : IICGeometry) (addr : Nat) : Nat := addr >>> g.tagShift
def extractBlkOffset (g : IICGeometry) (addr : Nat) : Nat := addr &&& g.blkMask
def blkAlign (g : IICGeometry) (addr : Nat) : Nat := addr &&& (2 ^ 64 - 1 - g.blkMask)
def regenerateBlkAddr (g : IICGeometry) (tag : Nat) : Nat := wrap64 (tag <<< g.tagShift)

/-- The quotient of logarithms in the source is exact for every power of two an
`unsigned` holds. -/
def hash (g : IICGeometry) (addr : Nat) : Nat :=
  let tag := g.extractTag addr
  let mask := g.hashSets - 1
  (tag &&& mask) ^^^ ((tag >>> g.hashSets.log2) &&& mask)

end IICGeometry

structure IIC where
  geom : IICGeometry
  repl : GenRepl
  tagStore : Nat → IICTag
  freelist : Nat
  blkFreelist : List Nat
  sets : Nat → IICSet
  dataReferenceCount : Nat → Int := fun _ => 0
  freeSecond : Int

namespace IIC

def create (p : IICParams) (repl : GenRepl) : Chk IIC := do
  let g ← IICGeometry.check p
  return {
    geom := g
    repl := repl
    tagStore := fun i =>
      if i < g.primaryBound then { set := i / g.assoc, chainPtr := g.tagNull }
      else { chainPtr := i + 1 }
    freelist := g.primaryBound
    -- each data block is freed in turn
    blkFreelist := (List.range g.numBlocks).reverse
    sets := fun i => ⟨g.tagNull, List.range' (i * g.assoc) g.assoc⟩
    freeSecond := g.numSecondary }

def modifyTag (t : IIC) (i : Nat) (f : IICTag → IICTag) : IIC :=
  { t with tagStore := Function.update t.tagStore i (f (t.tagStore i)) }

def modifySet (t : IIC) (s : Nat) (f : IICSet → IICSet) : IIC :=
  { t with sets := Function.update t.sets s (f (t.sets s)) }

def isTag (t : IIC) (tag i : Nat) : Bool := (t.tagStore i).tag == tag && (t.tagStore i).isValid

def findTag (t : IIC) (set tag : Nat) : Option Nat := (t.sets set).tags.find? (t.isTag tag)

def findFree (t : IIC) (set : Nat) : Option Nat :=
  (t.sets set).tags.find? fun i => !(t.tagStore i).isValid

def secondaryChain (t : IIC) (tag : Nat) : Nat → Nat → Nat → Chk (Option Nat × Nat)
  | 0, _, _ => .error .fuel
  | n + 1, chainPtr, depth =>
    if chainPtr = t.geom.tagNull then return (none, depth)
    else if t.isTag tag chainPtr then return (some chainPtr, depth)
    else t.secondaryChain tag n (t.tagStore chainPtr).chainPtr (depth + 1)

def findBlock (t : IIC) (addr : Nat) : Chk (Option Nat) := do
  let tag := t.geom.extractTag addr
  let set := t.geom.hash addr
  match t.findTag set tag with
  | some i => return some i
  | none =>
    -- no chain has more tags than there are
    let (found, _) ← t.secondaryChain tag (t.geom.numTags + 1) (t.sets set).chainPtr 0
    return found

def tagSwap (t : IIC) (index₁ index₂ : Nat) : Chk IIC := do
  let tag₁ := t.tagStore index₁
  let tag₂ := t.tagStore index₂
  let tagStore := Function.update t.tagStore index₁ (tag₁.assign tag₂)
  let t := { t with tagStore := Function.update tagStore index₂ (tag₂.assign tag₁) }
  let fix (repl : GenRepl) (i j : Nat) : Chk GenRepl :=
    if (t.tagStore i).isValid then repl.fixTag (t.tagStore i).re j i else return repl
  let repl ← fix t.repl index₁ index₂
  let repl ← fix repl index₂ index₁
  return { t with repl := repl }

def lastTag (t : IIC) (set : Nat) : Chk Nat :=
  need (t.sets set).tags[t.geom.assoc - 1]? (.undefined "tags[assoc-1]")

def setMoveToHead (t : IIC) (set i : Nat) : Chk IIC := do
  let tags ← CacheSet.moveToHead (t.sets set).tags i
  return t.modifySet set fun s => { s with tags := tags }

def setMoveToTail (t : IIC) (set i : Nat) : Chk IIC := do
  let tags ← CacheSet.moveToTail (t.sets set).tags i
  return t.modifySet set fun s => { s with tags := tags }

/-- The lookup of an access: a tag found on the chain changes places with the
last way of its set. The number is the latency in lookups. -/
def promote (t : IIC) (set tag : Nat) : Chk (IIC × Option Nat × Nat) :=
  match t.findTag set tag with
  | some i => return (t, some i, 1)
  | none =>
    if (t.sets set).chainPtr = t.geom.tagNull then return (t, none, 1)
    else do
      let (found, depth) ← t.secondaryChain tag (t.geom.numTags + 1) (t.sets set).chainPtr 0
      match found with
      | none => return (t, none, 1 + depth)
      | some i =>
        let last ← t.lastTag set
        let t := t.modifyTag last fun x => { x with chainPtr := (t.tagStore i).chainPtr }
        let t ← t.tagSwap i last
        let j ← need (t.findTag set tag) (.assertion "tag_ptr!=NULL")
        return (t, some j, 1 + depth)

def accessBlock (t : IIC) (now addr : Nat) : Chk (IIC × Option Nat × Int) := do
  let set := t.geom.hash addr
  let (t, found, lookups) ← t.promote set (t.geom.extractTag addr)
  let lat := int32 (lookups * t.geom.hashDelay + t.geom.hitLatency)
  match found with
  | none => return (t, none, lat)
  | some i =>
    let t ← t.setMoveToHead set i
    let whenReady := (t.tagStore i).whenReady
    let t := t.modifyTag i fun x =>
      { x with status := { x.status with referenced := true }, refCount := x.refCount + 1 }
    let lat := if whenReady > now ∧ whenReady - now > toTick lat then int32 (whenReady - now) else lat
    return (t, some i, lat)

def freeDataBlock (t : IIC) (d : Nat) : Chk IIC := do
  ensure (t.dataReferenceCount d == 0) "dataReferenceCount[data_ptr] == 0"
  return { t with blkFreelist := d :: t.blkFreelist }

def dropData (t : IIC) (d : Nat) : Chk IIC :=
  let count := t.dataReferenceCount d - 1
  let t := { t with dataReferenceCount := Function.update t.dataReferenceCount d count }
  if count = 0 then t.freeDataBlock d else return t

def findBefore (t : IIC) (target : Nat) : Nat → Nat → Chk Nat
  | 0, _ => .error .fuel
  | n + 1, i =>
    if i ≠ t.geom.tagNull ∧ (t.tagStore i).chainPtr ≠ target
    then t.findBefore target n (t.tagStore i).chainPtr
    else return i

def pushFree (t : IIC) (i : Nat) : IIC :=
  { t.modifyTag i fun x => { x with chainPtr := t.freelist } with
    freelist := i, freeSecond := t.freeSecond + 1 }

def cutChain (t : IIC) (i : Nat) : Chk IIC :=
  let set := t.geom.hash (wrap64 ((t.tagStore i).tag <<< t.geom.tagShift))
  if (t.sets set).chainPtr = i then
    return t.modifySet set fun s => { s with chainPtr := t.geom.tagNull }
  else do
    let before ← t.findBefore i (t.geom.numTags + 1) (t.sets set).chainPtr
    ensure (before != t.geom.tagNull) "tmp_index != tagNull"
    return t.modifyTag before fun x => { x with chainPtr := t.geom.tagNull }

/-- Free a tag of the secondary store. Unless it is the last of its chain, the
next one takes its place. -/
def freeSecondaryTag (t : IIC) (i : Nat) : Chk IIC := do
  ensure (i < t.geom.tagNull) "tag_index < tagNull"
  if (t.tagStore i).chainPtr = t.geom.tagNull then
    let t ← t.cutChain i
    return t.pushFree i
  else
    let next := (t.tagStore i).chainPtr
    let t ← t.tagSwap next i
    return t.pushFree next

/-- Free a way of a hash set. If the set the tag hashes to has a chain, the first
tag of the chain takes its place. -/
def freePrimaryTag (t : IIC) (i : Nat) : Chk IIC :=
  let set := t.geom.hash (wrap64 ((t.tagStore i).tag <<< t.geom.tagShift))
  let first := (t.sets set).chainPtr
  if first = t.geom.tagNull then return t
  else do
    let t ← t.tagSwap i first
    let t := t.pushFree first
    let t := t.modifySet set fun s => { s with chainPtr := (t.tagStore i).chainPtr }
    t.setMoveToTail set i

def freeTag (t : IIC) (i : Nat) : Chk IIC :=
  let t := t.modifyTag i IICTag.clear
  if i ≥ t.geom.primaryBound then t.freeSecondaryTag i else t.freePrimaryTag i

def clearRef (i : Nat) (tags : Nat → IICTag) : Bool × (Nat → IICTag) :=
  let status := (tags i).status
  (status.referenced,
    Function.update tags i { tags i with status := { status with referenced := false } })

def invalidate (t : IIC) (i : Nat) : Chk IIC := do
  let x := t.tagStore i
  let t ← ((List.range x.numData).map x.dataPtr).foldlM dropData t
  let repl ← t.repl.removeEntry x.re
  { t with repl := repl }.freeTag i

def writebackOf (t : IIC) (i : Nat) : Packet :=
  let addr := t.geom.regenerateBlkAddr (t.tagStore i).tag
  let size := t.geom.blkSize
  { id := 0, cmd := .writeback, req := { paddr := addr, size, masterId := Request.wbMasterId }
    addr, size, data := (t.tagStore i).data }

def dropHeldData (t : IIC) (d : Nat) : Chk IIC := do
  ensure (0 < t.dataReferenceCount d) "dataReferenceCount[data_ptr]>0"
  t.dropData d

def freeReplacementBlock (t : IIC) (writebacks : List Packet) : Chk (IIC × List Packet) := do
  let (repl, tagStore, i) ← t.repl.getRepl clearRef t.tagStore
  let t := { t with repl := repl, tagStore := tagStore }
  ensure (t.tagStore i).isValid "tag_ptr->isValid()"
  let t := t.modifyTag i fun x => { x with refCount := 0 }
  let x := t.tagStore i
  let writebacks := if x.isDirty then writebacks ++ [t.writebackOf i] else writebacks
  let t ← ((List.range x.numData).map x.dataPtr).foldlM dropHeldData t
  let t ← t.freeTag i
  return (t, writebacks)

def freeUntil (enough : IIC → Bool) : Nat → IIC → List Packet → Chk (IIC × List Packet)
  | 0, _, _ => .error .fuel
  | n + 1, t, writebacks =>
    if enough t then return (t, writebacks)
    else do
      let (t, writebacks) ← t.freeReplacementBlock writebacks
      freeUntil enough n t writebacks

def getFreeDataBlock (t : IIC) (writebacks : List Packet) : Chk (IIC × List Packet × Nat) := do
  let (t, writebacks) ← freeUntil (fun t => !t.blkFreelist.isEmpty)
    (t.repl.numPoolEntries.toNat + 2) t writebacks
  let d ← need t.blkFreelist.head? (.undefined "blkFreelist.front()")
  return ({ t with blkFreelist := t.blkFreelist.tail }, writebacks, d)

def getFreeTag (t : IIC) (set : Nat) (writebacks : List Packet) :
    Chk (IIC × List Packet × Nat) :=
  match t.findFree set with
  | some i => return (t, writebacks, i)
  | none => do
    let (t, writebacks) ← freeUntil (fun t => t.freelist != t.geom.tagNull)
      (t.repl.numPoolEntries.toNat + 2) t writebacks
    let i := t.freelist
    let t := { t with freelist := (t.tagStore i).chainPtr, freeSecond := t.freeSecond - 1 }
    let last ← t.lastTag set
    let t ← t.tagSwap i last
    let t := t.modifyTag i fun x => { x with chainPtr := (t.sets set).chainPtr }
    let t := t.modifySet set fun s => { s with chainPtr := i }
    return (t, writebacks, last)

def getFreeDataBlocks : Nat → IIC → List Packet → Chk (IIC × List Packet × List Nat)
  | 0, t, writebacks => return (t, writebacks, [])
  | n + 1, t, writebacks => do
    let (t, writebacks, d) ← t.getFreeDataBlock writebacks
    ensure (t.dataReferenceCount d == 0) "dataReferenceCount[tmp_data[i]]==0"
    let (t, writebacks, ds) ← getFreeDataBlocks n t writebacks
    return (t, writebacks, d :: ds)

def addData (t : IIC) (d : Nat) : IIC :=
  { t with dataReferenceCount :=
      Function.update t.dataReferenceCount d (t.dataReferenceCount d + 1) }

def findVictim (t : IIC) (addr : Nat) : Chk (IIC × Nat × List Packet) := do
  let set := t.geom.hash addr
  let (t, writebacks, ds) ← getFreeDataBlocks t.geom.numSub t []
  let (t, writebacks, i) ← t.getFreeTag set writebacks
  let t := ds.foldl addData t
  ensure (i < t.geom.primaryBound) "tag_ptr - tagStore < primaryBound"
  let t := t.modifyTag i (·.occupy set ds t.geom.tagNull)
  let t ← t.setMoveToHead set i
  let (repl, tagStore) ← t.repl.doAdvance clearRef t.tagStore
  let (repl, re) := repl.add i
  let t := { t with repl := repl, tagStore := tagStore }
  return (t.modifyTag i fun x => { x with re := some re }, i, writebacks)

def setBlk (t : IIC) (i : Nat) (blk : CacheBlk) : IIC :=
  t.modifyTag i fun x => { x with toCacheBlk := blk }

def clearLocks (t : IIC) : IIC :=
  { t with tagStore := fun i =>
      if i < t.geom.numTags then { t.tagStore i with toCacheBlk := (t.tagStore i).clearLoadLocks }
      else t.tagStore i }

/-- The victim takes its set in `findVictim`; `insertBlock` is empty. -/
instance : TagStore IIC where
  numBlks t := t.geom.numTags
  blk t i := (t.tagStore i).toCacheBlk
  setBlk := setBlk
  blkAlign t := t.geom.blkAlign
  extractTag t := t.geom.extractTag
  extractSet _ _ := 0
  extractBlkOffset t := t.geom.extractBlkOffset
  regenerateBlkAddr t tag _ := t.geom.regenerateBlkAddr tag
  accessBlock := accessBlock
  findBlock := findBlock
  findVictim t _ addr := t.findVictim addr
  insertBlock t _ _ _ _ := return t
  invalidate := invalidate
  clearLocks := clearLocks

end IIC

end Gem5
