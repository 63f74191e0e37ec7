import Mathlib.Data.List.AList
import Gem5.Base.SignedInt
import Gem5.Lib.Loop
import Gem5.Lib.Walk

/-!
# The topology of a Ruby network

`mem/ruby/network/Topology.cc` turns the links of a network into matrices, relaxes the
matrix of weights to the shortest distances between the switches, carrying the latency and
the number of intermediate switches along, and gives every link the set of the endpoints
that it is on a shortest path to.

The first `2 * m_nodes` switches stand for the endpoints: the first half for the links into
the network, the second half for those out of it.
-/

namespace Gem5

open Lib

structure BasicLink where
  weight : Int
  latency : Int
  deriving DecidableEq

inductive LinkDirection
  | inward
  | outward
  deriving DecidableEq

structure LinkEntry where
  link : BasicLink
  direction : LinkDirection
  deriving DecidableEq

abbrev LinkMap := AList fun _ : Nat × Nat => LinkEntry

def infiniteLatency : Int := 10000

abbrev IntMatrix (n : Nat) := Fin n → Fin n → Int

def setEntry (m : IntMatrix n) (i j : Nat) (x : Int) : IntMatrix n := fun i' j' =>
  if i'.val = i ∧ j'.val = j then x else m i' j'

namespace Topology

structure PathMatrices (n : Nat) where
  change : Bool
  currentDist : IntMatrix n
  latencies : IntMatrix n
  interSwitches : IntMatrix n

/-- What the loop over the intermediate switches keeps; `intermediate_switch` is `none`
where the source has -1. -/
structure Scan (n : Nat) where
  minimum : Int
  intermediateSwitch : Option (Fin n)
  interSwitches : IntMatrix n

def scan (currentDist : IntMatrix n) (i j : Fin n) (s : Scan n) (k : Fin n) : Chk (Scan n) := do
  let minimum := min s.minimum (← signed 32 (currentDist i k + currentDist k j))
  if s.minimum ≠ minimum then
    let inter ← signed 32 ((← signed 32 (s.interSwitches i k + s.interSwitches k j)) + 1)
    return ⟨minimum, some k, setEntry s.interSwitches i j inter⟩
  else return s

def relax (s : PathMatrices n) (p : Fin n × Fin n) : Chk (PathMatrices n) := do
  let ⟨i, j⟩ := p
  let r ← (List.finRange n).foldlM (scan s.currentDist i j) ⟨s.currentDist i j, none, s.interSwitches⟩
  if s.currentDist i j ≠ r.minimum then
    let k ← need r.intermediateSwitch (.assertion "intermediate_switch >= 0")
    let latency ← signed 32 (s.latencies i k + s.latencies k j)
    return ⟨true, setEntry s.currentDist i j r.minimum,
      setEntry s.latencies i j latency, r.interSwitches⟩
  else return { s with interSwitches := r.interSwitches }

def sweep (s : PathMatrices n) : Chk (PathMatrices n) :=
  (List.finRange n ×ˢ List.finRange n).foldlM relax { s with change := false }

def total (m : IntMatrix n) : Nat := ∑ p : Fin n × Fin n, (m p.1 p.2).toNat

/-- Every round but the last lowers a distance, so the sum of the distances bounds the rounds. -/
def extendShortestPath (currentDist latencies interSwitches : IntMatrix n) : Chk (PathMatrices n) :=
  whileChk (fun s => s.change = true) sweep (2 * total currentDist + 2) ⟨true, currentDist,
    latencies, interSwitches⟩

def shortestPath (weights latencies interSwitches : IntMatrix n) : Chk (PathMatrices n) :=
  extendShortestPath weights latencies interSwitches

structure MachineID where
  type : Nat
  num : Nat
  deriving DecidableEq

abbrev NetDest := Finset MachineID

/-- The machines in the order of the two loops of `shortest_path_to_node`, from the number
of machines of each type (`MachineType_base_count`). -/
def machineIDs (machines : List Nat) : List MachineID :=
  machines.zipIdx.flatMap fun p => (List.range p.1).map (⟨p.2, ·⟩)

def linkIsShortestPathToNode (src next final : Fin n) (weights dist : IntMatrix n) : Chk Bool := do
  return (← signed 32 (weights src next + dist next final)) == dist src final

/-- The body of the loops of `shortest_path_to_node` for a machine and its number `d`;
`max_machines` is how many machines there are. -/
def addDestination (machines : List Nat) (src next : Fin n) (weights dist : IntMatrix n)
    (result : NetDest) (p : MachineID × Nat) : Chk NetDest := do
  if h : p.2 + machines.sum < n then
    let isShortest ← linkIsShortestPathToNode src next ⟨p.2 + machines.sum, h⟩ weights dist
    return if isShortest then insert p.1 result else result
  else .error (.undefined "vector index")

def shortestPathToNode (machines : List Nat) (src next : Fin n)
    (weights dist : IntMatrix n) : Chk NetDest :=
  (machineIDs machines).zipIdx.foldlM (addDestination machines src next weights dist) ∅

def maxSwitchId (links : LinkMap) : Nat :=
  links.entries.foldl (fun id e => max (max id e.1.1) e.1.2) 0

def numSwitches (links : LinkMap) : Nat := maxSwitchId links + 1

instance neZero_numSwitches (links : LinkMap) : NeZero (numSwitches links) := ⟨Nat.succ_ne_zero _⟩

def fill (links : LinkMap) (value : BasicLink → Int) (m : IntMatrix n) : IntMatrix n :=
  links.entries.foldl (fun m e => setEntry m e.1.1 e.1.2 (value e.2.link)) m

def topologyWeights (links : LinkMap) : IntMatrix (numSwitches links) :=
  fill links (·.weight) fun i j => if i = j then 0 else infiniteLatency

def componentLatencies (links : LinkMap) : IntMatrix (numSwitches links) :=
  fill links (·.latency) fun _ _ => -1

def componentPaths (links : LinkMap) : Chk (PathMatrices (numSwitches links)) :=
  shortestPath (topologyWeights links) (componentLatencies links) fun _ _ => 0

inductive NetworkLink
  | inLink (src dest : Nat) (entry : LinkEntry) (routingTableEntry : NetDest)
  | outLink (src dest : Nat) (entry : LinkEntry) (routingTableEntry : NetDest)
  | internalLink (src dest : Nat) (entry : LinkEntry) (routingTableEntry : NetDest)

def makeLink (mNodes : Nat) (links : LinkMap) (src dest : Nat) (routingTableEntry : NetDest) :
    Chk NetworkLink := do
  ensure (2 * mNodes ≤ src ∨ 2 * mNodes ≤ dest) "src >= 2 * m_nodes || dest >= 2 * m_nodes"
  if src < mNodes then
    let entry ← need (links.lookup (src, dest)) (.undefined "link")
    return .inLink src (dest - 2 * mNodes) entry routingTableEntry
  else if dest < 2 * mNodes then
    ensure (mNodes ≤ dest) "dest >= m_nodes"
    let entry ← need (links.lookup (src, dest)) (.undefined "link")
    return .outLink (src - 2 * mNodes) (dest - mNodes) entry routingTableEntry
  else
    ensure (2 * mNodes ≤ src ∧ 2 * mNodes ≤ dest) "(src >= 2 * m_nodes) && (dest >= 2 * m_nodes)"
    let entry ← need (links.lookup (src, dest)) (.undefined "link")
    return .internalLink (src - 2 * mNodes) (dest - 2 * mNodes) entry routingTableEntry

def linked (links : LinkMap) : List (Fin (numSwitches links) × Fin (numSwitches links)) :=
  (List.finRange _ ×ˢ List.finRange _).filter fun p =>
    0 < topologyWeights links p.1 p.2 ∧ topologyWeights links p.1 p.2 ≠ infiniteLatency

def createLinks (machines : List Nat) (links : LinkMap) :
    Chk (PathMatrices (numSwitches links) × List NetworkLink) := do
  let paths ← componentPaths links
  let made ← (linked links).mapM fun p => do
    let destinationSet ← shortestPathToNode machines p.1 p.2 (topologyWeights links) paths.currentDist
    makeLink machines.sum links p.1 p.2 destinationSet
  return (paths, made)

end Topology

end Gem5
