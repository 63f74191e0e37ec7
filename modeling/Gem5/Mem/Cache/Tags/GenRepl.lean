import Gem5.Base.Types

/-!
# Generational replacement

`mem/cache/tags/iic_repl/gen.cc`. Entries wait in a fresh pool, numbered
`numPools`, and then in the pools of their priority. Ages are kept as differences between
neighbours in a pool. The policy asks the tag store whether a tag has been
referenced, and clears the mark, with `clearRef`; what it is asked on is a
parameter here.

An entry is a cell of a heap. Deleting one leaves the cell behind, as its number
is not used again. The sizes of the pools and the statistics, which decide
nothing, are left out.
-/

namespace Gem5

open Lib

structure GenReplEntry where
  valid : Bool
  delta : Int := 0
  tagPtr : Nat

structure GenPool where
  newest : Nat := 0
  oldest : Nat := 0
  entries : List Nat := []

structure GenRepl where
  numPools : Nat
  freshRes : Int
  poolRes : Int
  numEntries : Int := 0
  numPoolEntries : Int := 0
  misses : Nat := 0
  pools : Nat → GenPool := fun _ => {}
  heap : Nat → GenReplEntry := fun _ => ⟨false, 0, 0⟩
  heapSize : Nat := 0

def toTick (z : Int) : Nat := (z % 2 ^ 64).toNat

namespace GenRepl

def push (r : GenRepl) (i re : Nat) : GenRepl :=
  let pool := r.pools i
  let now := r.misses
  let first := pool.entries.isEmpty
  let delta := if first then 0 else int32 (wrap64 (now + 2 ^ 64 - pool.newest))
  { r with
    heap := Function.update r.heap re { r.heap re with delta := delta }
    pools := Function.update r.pools i
      { newest := now
        oldest := if first then now else pool.oldest
        entries := pool.entries ++ [re] } }

def pop (r : GenRepl) (i : Nat) : Option (Nat × GenRepl) :=
  match (r.pools i).entries with
  | [] => none
  | re :: entries =>
    let oldest := wrap64 ((r.pools i).oldest + toTick (r.heap re).delta)
    some (re, { r with pools := Function.update r.pools i { r.pools i with oldest, entries } })

variable {σ : Type} (clearRef : Nat → σ → Bool × σ)

def above (r : GenRepl) (i : Nat) : Nat := if i + 1 = r.numPools then i else i + 1

def scanPool (i : Nat) : Nat → GenRepl → σ → Chk (GenRepl × σ × Option Nat)
  | 0, _, _ => .error .fuel
  | n + 1, r, s =>
    match r.pop i with
    | none => return (r, s, none)
    | some (re, r) =>
      let entry := r.heap re
      if !entry.valid then scanPool i n r s
      else
        let (referenced, s) := clearRef entry.tagPtr s
        if referenced then scanPool i n (r.push (r.above i) re) s
        else return (r, s, some entry.tagPtr)

def scanPools : List Nat → GenRepl → σ → Chk (GenRepl × σ × Nat)
  | [], _, _ => .error (.fatal "No replacement found")
  | i :: rest, r, s => do
    -- the last pool takes back the entries it passes over, once
    let (r, s, found) ← scanPool clearRef i (2 * (r.pools i).entries.length + 2) r s
    match found with
    | some tagPtr => return (r, s, tagPtr)
    | none => scanPools rest r s

def getRepl (r : GenRepl) (s : σ) : Chk (GenRepl × σ × Nat) :=
  if r.numPoolEntries > 0 then
    let r := { r with numEntries := r.numEntries - 1, numPoolEntries := r.numPoolEntries - 1 }
    scanPools clearRef (List.range r.numPools) r s
  else .error (.fatal "No blks available to replace")

/-- The loops of `doAdvance`: entries of pool `i` older than `limit` go to
`up` if they have been referenced and to `down` if not. Entries that leave
the fresh pool are counted. -/
def advancePool (i limit up : Nat) (down : Option Nat) (fresh : Bool) :
    Nat → GenRepl → σ → Chk (GenRepl × σ)
  | 0, _, _ => .error .fuel
  | n + 1, r, s =>
    if wrap64 (r.misses + 2 ^ 64 - (r.pools i).oldest) > limit then
      match r.pop i with
      | none => return (r, s)
      | some (re, r) => do
        let r := { r with numPoolEntries := r.numPoolEntries + if fresh then 1 else 0 }
        let (referenced, s) := clearRef (r.heap re).tagPtr s
        if referenced then advancePool i limit up down fresh n (r.push up re) s
        else
          let pool ← need down (.undefined "pools[num_pools/2-1]")
          advancePool i limit up down fresh n (r.push pool re) s
    else return (r, s)

def advancePools : List Nat → GenRepl → σ → Chk (GenRepl × σ)
  | [], r, s => return (r, s)
  | i :: rest, r, s => do
    let (r, s) ← advancePool clearRef i (toTick r.poolRes) (r.above i) (some (i - 1)) false
      (2 * (r.pools i).entries.length + 2) r s
    advancePools rest r s

def doAdvance (r : GenRepl) (s : σ) : Chk (GenRepl × σ) := do
  let r := { r with misses := wrap64 (r.misses + 1) }
  let (r, s) ← advancePools clearRef (List.range r.numPools) r s
  let half := r.numPools / 2
  advancePool clearRef r.numPools (toTick r.freshRes) half (if half = 0 then none else some (half - 1))
    true (2 * (r.pools r.numPools).entries.length + 2) r s

def add (r : GenRepl) (tagIndex : Nat) : GenRepl × Nat :=
  let re := r.heapSize
  let r := { r with
    heap := Function.update r.heap re { valid := true, tagPtr := tagIndex }
    heapSize := re + 1
    numEntries := r.numEntries + 1 }
  (r.push r.numPools re, re)

def fixTag (r : GenRepl) (re : Option Nat) (oldIndex newIndex : Nat) : Chk GenRepl := do
  let re ← need re (.undefined "re->valid")
  ensure (r.heap re).valid "re->valid"
  if (r.heap re).tagPtr = oldIndex then
    return { r with heap := Function.update r.heap re { r.heap re with tagPtr := newIndex } }
  else .error (.fatal "Repl entry: tag ptrs do not match")

def removeEntry (r : GenRepl) (re : Option Nat) : Chk GenRepl := do
  let re ← need re (.undefined "re->valid")
  return { r with heap := Function.update r.heap re { r.heap re with valid := false } }

variable {clearRef} {P : σ → Prop} {s s' : σ} {r r' : GenRepl}

variable (hP : ∀ i s, P s → P (clearRef i s).2)
include hP

theorem scanPool_keeps (h : scanPool clearRef i n r s = .ok (r', s', found)) (hs : P s) : P s' := by
  induction n generalizing r s with
  | zero => cases h
  | succ n ih =>
    rw [scanPool] at h
    split at h
    · cases h
      exact hs
    · dsimp only at h
      split at h
      · exact ih h hs
      · split at h
        · exact ih h (hP _ _ hs)
        · cases h
          exact hP _ _ hs

theorem getRepl_keeps (h : getRepl clearRef r s = .ok (r', s', tagPtr)) (hs : P s) : P s' := by
  have hpools : ∀ l r s, scanPools clearRef l r s = .ok (r', s', tagPtr) → P s → P s' := by
    intro l
    induction l with
    | nil => intro r s h; cases h
    | cons i l ih =>
      intro r s h hs
      rw [scanPools] at h
      obtain ⟨⟨r1, s1, found⟩, hscan, h⟩ := bind_eq_ok.mp h
      have hs1 := scanPool_keeps hP hscan hs
      cases found with
      | some tagPtr => cases h; exact hs1
      | none => exact ih _ _ h hs1
  unfold getRepl at h
  split at h
  · exact hpools _ _ _ h hs
  · cases h

theorem advancePool_keeps
    (h : advancePool clearRef i limit up down fresh n r s = .ok (r', s')) (hs : P s) : P s' := by
  induction n generalizing r s with
  | zero => cases h
  | succ n ih =>
    rw [advancePool] at h
    split at h
    · split at h
      · cases h
        exact hs
      · dsimp only at h
        split at h
        · exact ih h (hP _ _ hs)
        · obtain ⟨b, -, h⟩ := bind_eq_ok.mp h
          exact ih h (hP _ _ hs)
    · cases h
      exact hs

theorem doAdvance_keeps (h : doAdvance clearRef r s = .ok (r', s')) (hs : P s) : P s' := by
  have hpools : ∀ l r s r' s', advancePools clearRef l r s = .ok (r', s') → P s → P s' := by
    intro l
    induction l with
    | nil =>
      intro r s r' s' h hs
      cases h
      exact hs
    | cons i l ih =>
      intro r s r' s' h hs
      obtain ⟨⟨r1, s1⟩, hadv, h⟩ := bind_eq_ok.mp h
      exact ih _ _ _ _ h (advancePool_keeps hP hadv hs)
  obtain ⟨⟨r1, s1⟩, hadv, h⟩ := bind_eq_ok.mp h
  exact advancePool_keeps hP h (hpools _ _ _ _ _ hadv hs)

end GenRepl

end Gem5
