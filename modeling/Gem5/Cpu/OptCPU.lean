import Gem5.Base.Types
import Gem5.Lib.Belady
import Gem5.Lib.Heap

/-!
# The optimal cache

`cpu/trace/opt_cpu.cc` and `opt_cpu.hh`. The constructor reads a trace, divides
it into sets and notes for each reference when its block is referenced next;
`tick` then runs each set's references through a cache that is kept as a heap,
with the block referenced last on top. A table says where a block is in the
heap.

Indices are `int` in the source: the index of a child in the heap must not
overflow.
-/

namespace Gem5

open Lib Function

/-- Of the table's three levels, the third is allocated on demand. -/
structure LookupTable where
  level3 : Nat → Nat → Option (Nat → Int)

namespace LookupTable

def l1Index (addr : Nat) : Nat := (addr >>> 32) &&& 0xf
def l2Index (addr : Nat) : Nat := (addr >>> 16) &&& 0xffff
def l3Index (addr : Nat) : Nat := addr &&& 0xffff

def checkIndex (addr : Nat) : Chk Unit := ensure (l1Index addr == addr >>> 32) "l1_index == addr >> 32"

def lookupValue (t : LookupTable) (addr : Nat) : Chk Int := do
  checkIndex addr
  let row ← need (t.level3 (l1Index addr) (l2Index addr)) (.undefined "lookupTable[l1][l2][l3]")
  return row (l3Index addr)

def setRow (t : LookupTable) (addr : Nat) (row : Nat → Int) : LookupTable :=
  ⟨update t.level3 (l1Index addr)
    (update (t.level3 (l1Index addr)) (l2Index addr) (some row))⟩

def setValue (t : LookupTable) (addr : Nat) (index : Int) : Chk LookupTable := do
  checkIndex addr
  let row ← need (t.level3 (l1Index addr) (l2Index addr)) (.undefined "lookupTable[l1][l2][l3]")
  return t.setRow addr (update row (l3Index addr) index)

def initTable (t : LookupTable) (addr : Nat) (index : Int) : Chk LookupTable := do
  checkIndex addr
  match t.level3 (l1Index addr) (l2Index addr) with
  | some _ => return t
  | none => return t.setRow addr fun _ => index

def reset (t : LookupTable) : LookupTable :=
  ⟨fun j k => (t.level3 j k).map fun _ _ => -1⟩

end LookupTable

structure RefInfo where
  addr : Nat
  nextRefTime : Int := 0

def infiniteRef : Int := 0x7fffffff

structure OptCPU where
  refInfo : Nat → List RefInfo
  lookupTable : LookupTable
  cacheHeap : Nat → Nat
  assoc : Nat
  numSets : Nat
  misses : Nat
  hits : Nat

namespace OptCPU

def addRef (logBlockSize setMask : Nat) (refInfo : Nat → List RefInfo) (paddr : Nat) :
    Nat → List RefInfo :=
  let addr := paddr >>> logBlockSize
  let set := addr &&& setMask
  update refInfo set (refInfo set ++ [{ addr := addr }])

def annotate (t : LookupTable) (i : Nat) : List RefInfo → Chk (LookupTable × List RefInfo)
  | [] => return (t, [])
  | r :: rs => do
    let (t, rs) ← annotate t (i + 1) rs
    let t ← t.initTable r.addr infiniteRef
    let next ← t.lookupValue r.addr
    let t ← t.setValue r.addr i
    return (t, { r with nextRefTime := next } :: rs)

/-- How many references the loop over a set of `size` comes to: it starts from `size - 1` as an
`int`. -/
def reached (size : Nat) : Nat := (int32 (size + (2 ^ 64 - 1)) + 1).toNat

def annotateSets (t : LookupTable) (refInfo : Nat → List RefInfo) :
    List Nat → Chk (LookupTable × (Nat → List RefInfo))
  | [] => return (t, refInfo)
  | k :: ks => do
    let n := reached (refInfo k).length
    let (t, rs) ← annotate t 0 ((refInfo k).take n)
    annotateSets t (update refInfo k (rs ++ (refInfo k).drop n)) ks

def readTrace (trace : List Nat) (logBlockSize numSets : Nat) :
    Chk (LookupTable × (Nat → List RefInfo)) :=
  if numSets = 0 ∧ trace ≠ [] then .error (.undefined "refInfo[set]")
  else
    let refInfo := trace.foldl (addRef logBlockSize (numSets - 1)) fun _ => []
    annotateSets ⟨fun _ _ => none⟩ refInfo (List.range numSets)

def create (trace : List Nat) (blockSize cacheSize assoc : Nat) : Chk OptCPU :=
  if blockSize = 0 ∨ assoc = 0 then .error (.undefined "division by zero")
  else do
    let numSets := cacheSize / blockSize / assoc
    let logBlockSize := blockSize.log2
    ensure (1 <<< logBlockSize == blockSize) "1<<log_block_size == block_size"
    let (t, refInfo) ← readTrace trace logBlockSize numSets
    return { refInfo := refInfo
             lookupTable := t.reset
             cacheHeap := fun _ => 0
             assoc := assoc
             numSets := numSets
             misses := 0
             hits := 0 }

def lookupValue (cpu : OptCPU) (addr : Nat) : Chk Int := cpu.lookupTable.lookupValue addr

def setValue (cpu : OptCPU) (addr : Nat) (index : Int) : Chk OptCPU := do
  let t ← cpu.lookupTable.setValue addr index
  return { cpu with lookupTable := t }

def refAt (cpu : OptCPU) (set i : Nat) : Chk RefInfo :=
  need (cpu.refInfo set)[i]? (.undefined "refInfo[set][i]")

def heapAt (cpu : OptCPU) (index : Nat) : Chk Nat :=
  if index < cpu.assoc then return cpu.cacheHeap index
  else .error (.undefined "cacheHeap[index]")

def int (n : Nat) : Chk Nat :=
  if n < 2 ^ 31 then return n else .error (.undefined "signed overflow")

def heapLeft (index : Nat) : Chk Nat := int (index + index + 1)
def heapRight (index : Nat) : Chk Nat := int (index + index + 2)
def heapParent (index : Nat) : Nat := (index - 1) / 2

def heapSwap (cpu : OptCPU) (set a b : Nat) : Chk OptCPU := do
  let i ← cpu.heapAt a
  let j ← cpu.heapAt b
  let cpu := { cpu with cacheHeap := swapAt cpu.cacheHeap a b }
  let r ← cpu.refAt set j
  let cpu ← cpu.setValue r.addr a
  let r ← cpu.refAt set i
  cpu.setValue r.addr b

def heapRank (cpu : OptCPU) (set index : Nat) : Chk Int := do
  let i ← cpu.heapAt index
  let r ← cpu.refAt set i
  return r.nextRefTime

def larger (cpu : OptCPU) (set max child : Nat) : Chk Nat :=
  if child < cpu.assoc then do
    let rankChild ← cpu.heapRank set child
    let rankMax ← cpu.heapRank set max
    return if rankChild > rankMax then child else max
  else return max

def heapify (set : Nat) : Nat → OptCPU → Nat → Chk OptCPU
  | 0, _, _ => .error .fuel
  | fuel + 1, cpu, start => do
    let left ← heapLeft start
    let right ← heapRight start
    let max ← cpu.larger set start left
    let max ← cpu.larger set max right
    if max ≠ start then do
      let cpu ← cpu.heapSwap set start max
      heapify set fuel cpu max
    else return cpu

def processRankIncrease (set : Nat) : Nat → OptCPU → Nat → Chk OptCPU
  | 0, _, _ => .error .fuel
  | fuel + 1, cpu, start =>
    let parent := heapParent start
    if start > 0 then do
      let rankParent ← cpu.heapRank set parent
      let rankStart ← cpu.heapRank set start
      if rankParent < rankStart then do
        let cpu ← cpu.heapSwap set parent start
        processRankIncrease set fuel cpu parent
      else return cpu
    else return cpu

def fillRef (cpu : OptCPU) (blksInCache i : Nat) (r : RefInfo) : Chk (OptCPU × Nat) := do
  let cacheIndex ← cpu.lookupValue r.addr
  if cacheIndex = -1 then do
    let cpu ← cpu.setValue r.addr blksInCache
    return ({ cpu with
      misses := cpu.misses + 1
      cacheHeap := update cpu.cacheHeap blksInCache i }, blksInCache + 1)
  else
    return ({ cpu with
      hits := cpu.hits + 1
      cacheHeap := update cpu.cacheHeap cacheIndex.toNat i }, blksInCache)

/-- The references from number `i` on, until the frames are all in use; the
result has the references that are left, or none if the method returns here. -/
def fillLoop (cpu : OptCPU) (blksInCache i : Nat) :
    List RefInfo → Chk (OptCPU × Option (Nat × List RefInfo))
  | [] => .error (.undefined "refInfo[set][i]")
  | r :: rs =>
    if blksInCache < cpu.assoc then do
      let (cpu, blksInCache) ← cpu.fillRef blksInCache i r
      match rs with
      | [] => return (cpu, none)
      | r' :: rs => fillLoop cpu blksInCache (i + 1) (r' :: rs)
    else return (cpu, some (i, r :: rs))

def buildHeap (set : Nat) (cpu : OptCPU) : Nat → Chk OptCPU
  | 0 => heapify set (cpu.assoc + 1) cpu 0
  | start + 1 => do
    let cpu ← heapify set (cpu.assoc + 1) cpu (start + 1)
    buildHeap set cpu start

def checkCached (cpu : OptCPU) (r : RefInfo) : Chk OptCPU := do
  let cacheIndex ← cpu.lookupValue r.addr
  ensure (cacheIndex != -1) "lookupValue(refInfo[set][i].addr) != -1"
  return cpu

def replaceRef (cpu : OptCPU) (set i : Nat) (r : RefInfo) : Chk OptCPU := do
  let cacheIndex ← cpu.lookupValue r.addr
  if cacheIndex = -1 then do
    let top ← cpu.heapAt 0
    let old ← cpu.refAt set top
    let cpu ← cpu.setValue old.addr (-1)
    let cpu ← cpu.setValue r.addr 0
    let cpu ← heapify set (cpu.assoc + 1) { cpu with
      misses := cpu.misses + 1
      cacheHeap := update cpu.cacheHeap 0 i } 0
    cpu.checkCached r
  else do
    let index := cacheIndex.toNat
    let last ← cpu.heapAt index
    let old ← cpu.refAt set last
    ensure (old.addr == r.addr)
      "refInfo[set][cacheHeap[cache_index]].addr == refInfo[set][i].addr"
    ensure (old.nextRefTime == i) "refInfo[set][cacheHeap[cache_index]].nextRefTime == i"
    let left ← heapLeft index
    ensure (cpu.assoc ≤ left) "heapLeft(cache_index) >= assoc"
    let cpu ← processRankIncrease set (index + 1) { cpu with
      hits := cpu.hits + 1
      cacheHeap := update cpu.cacheHeap index i } index
    cpu.checkCached r

def replaceLoop (set : Nat) (cpu : OptCPU) (i : Nat) : List RefInfo → Chk OptCPU
  | [] => return cpu
  | r :: rs => do
    let cpu ← cpu.replaceRef set i r
    replaceLoop set cpu (i + 1) rs

def processSet (cpu : OptCPU) (set : Nat) : Chk OptCPU := do
  let (cpu, rest) ← fillLoop { cpu with cacheHeap := fun _ => 0 } 0 0 (cpu.refInfo set)
  match rest with
  | none => return cpu
  | some (i, rs) => do
    let cpu ← buildHeap set cpu (cpu.assoc / 2)
    replaceLoop set cpu i rs

def tickSets (cpu : OptCPU) (references : Nat) : List Nat → Chk (OptCPU × Nat)
  | [] => return (cpu, references)
  | set :: sets =>
    let references := references + (cpu.refInfo set).length
    if (cpu.refInfo set).isEmpty then tickSets cpu references sets
    else do
      let cpu ← cpu.processSet set
      tickSets cpu references sets

def tick (cpu : OptCPU) : Chk (OptCPU × Nat) := cpu.tickSets 0 (List.range cpu.numSets)

end OptCPU

end Gem5
