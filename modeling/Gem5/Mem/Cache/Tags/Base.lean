import Gem5.Lib.Run
import Gem5.Mem.Cache.Blk

/-!
# Tag stores

What `Cache<TagStore>` asks of the store it is built with. A pointer to a block
is the number of the block; the cache reads and writes the block through it.

What the cache does with a store on a miss, and what it relies on afterwards,
is stated here for all stores at once.
-/

namespace Gem5

open Lib

/-- `accessBlock` also returns the latency, and `findVictim` the writebacks the
store itself asks for. -/
class TagStore (σ : Type) where
  numBlks : σ → Nat
  blk : σ → Nat → CacheBlk
  setBlk : σ → Nat → CacheBlk → σ
  blkAlign : σ → Nat → Nat
  extractTag : σ → Nat → Nat
  extractSet : σ → Nat → Nat
  extractBlkOffset : σ → Nat → Nat
  regenerateBlkAddr : σ → (tag set : Nat) → Nat
  accessBlock : σ → (now addr : Nat) → Chk (σ × Option Nat × Int)
  findBlock : σ → (addr : Nat) → Chk (Option Nat)
  findVictim : σ → (now addr : Nat) → Chk (σ × Nat × List Packet)
  insertBlock : σ → (now addr b master : Nat) → Chk σ
  invalidate : σ → (b : Nat) → Chk σ
  clearLocks : σ → σ

inductive TagOp
  | access (now addr : Nat)
  | victim (now addr : Nat)
  | fill (now addr master : Nat) (status : BlkStatus)
  | evict (b : Nat)
  | write (b : Nat) (blk : CacheBlk)
  | clearLocks

def CacheBlk.Rewrites (old new : CacheBlk) : Prop :=
  new.isValid = true ∧
    new = { old with data := new.data, status := new.status, whenReady := new.whenReady
                     lockList := new.lockList }

namespace TagStore

variable {σ : Type} [TagStore σ]

def insert (t : σ) (now addr master : Nat) : Chk (σ × Nat) := do
  let (t, b, _) ← findVictim t now addr
  let t ← insertBlock t now addr b master
  return (t, b)

def setStatus (t : σ) (b : Nat) (status : BlkStatus) : σ :=
  setBlk t b { blk t b with status := status }

def evict (t : σ) (b : Nat) : Chk σ := do
  let t ← invalidate t b
  return setBlk t b (blk t b).invalidate

/-- The uses the cache makes of a store. A victim that is valid is not replaced
if the cache has a request for it on its way. -/
def Step (t : σ) : TagOp → σ → Prop
  | .access now addr, t' => addr < 2 ^ 64 ∧ ∃ r, accessBlock t now addr = .ok (t', r)
  | .victim now addr, t' => addr < 2 ^ 64 ∧ findBlock t addr = .ok none ∧
      ∃ b wb, findVictim t now addr = .ok (t', b, wb) ∧ (blk t' b).isValid = true
  | .fill now addr master status, t' => addr < 2 ^ 64 ∧ findBlock t addr = .ok none ∧
      status.valid = true ∧ ∃ t₁ b, insert t now addr master = .ok (t₁, b) ∧
        t' = setStatus t₁ b status
  | .evict b, t' => b < numBlks t ∧ (blk t b).isValid = true ∧ evict t b = .ok t'
  | .write b new, t' => b < numBlks t ∧ (blk t b).isValid = true ∧ (blk t b).Rewrites new ∧
      t' = setBlk t b new
  | .clearLocks, t' => t' = clearLocks t

/-- What the cache relies on after it put `addr` into the block `b` of the store
`t`, which is then `t'`, and gave the block its status. -/
structure Agrees (t : σ) (addr : Nat) (t' : σ) (b : Nat) (status : BlkStatus) : Prop where
  notValid : (blk t' b).isValid = false
  blkAddr : regenerateBlkAddr t' (blk t' b).tag (blk t' b).set = blkAlign t' addr
  found : ∀ a < 2 ^ 64, blkAlign t a = blkAlign t addr →
    findBlock (setStatus t' b status) a = .ok (some b)
  others : ∀ a < 2 ^ 64, blkAlign t a ≠ blkAlign t addr → findBlock t a ≠ .ok (some b) →
    findBlock (setStatus t' b status) a = findBlock t a

end TagStore

end Gem5
