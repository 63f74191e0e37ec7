import Gem5.Mem.Ruby.ShortestPath

/-!
# Routing along shortest paths

The matrices `createLinks` computes from a set of links are those of the shortest paths over
these links. A link's destination set is the set of the endpoints that some shortest path
leads to over this link, so a message that only takes links with its destination in their
set comes closer with every link and arrives.
-/

namespace Gem5.Topology

open Lib List

def Step (links : LinkMap) (i j : Fin (numSwitches links)) (c : Int × Int) : Prop :=
  ∃ e, links.lookup (i.val, j.val) = some e ∧ c = (e.link.weight, e.link.latency)

def Reaches (links : LinkMap) (i j : Fin (numSwitches links)) : Prop :=
  ∃ m c, Walk (Step links) i j m c

def IsLeastWeight (links : LinkMap) (i j : Fin (numSwitches links)) (x : Int) : Prop :=
  IsLeast {x | ∃ m c, Walk (Step links) i j m c ∧ c.1 = x} x

/-- Some path of least weight from `i` to `f` starts with the link from `i` to `k`. -/
def Starts (links : LinkMap) (i k f : Fin (numSwitches links)) : Prop :=
  ∃ c₁ m c₂, Step links i k c₁ ∧ Walk (Step links) k f m c₂ ∧ IsLeastWeight links i f (c₁ + c₂).1

def IsEndpoint (machines : List Nat) (mach : MachineID) (f : Fin n) : Prop :=
  ∃ d, (machineIDs machines)[d]? = some mach ∧ f.val = d + machines.sum

/-- The links: their weights are positive, every least path is below `INFINITE_LATENCY`, and
`w` and `l` bound the weights and latencies so that no `int` overflows. The endpoints are
among the switches and have no link to themselves. -/
structure Admissible (links : LinkMap) (machines : List Nat) (w l : Int) : Prop where
  weight_pos : ∀ p e, links.lookup p = some e → 0 < e.link.weight
  weight_le : ∀ p e, links.lookup p = some e → e.link.weight ≤ w
  latency_le : ∀ p e, links.lookup p = some e → |e.link.latency| ≤ l
  short : ∀ i j, Reaches links i j → ∃ m c, Walk (Step links) i j m c ∧ c.1 < infiniteLatency
  infinite_le : infiniteLatency ≤ w
  one_le : 1 ≤ l
  sum : 2 * w < 2 ^ 31
  product : w * l < 2 ^ 31
  endpoints : 2 * machines.sum ≤ numSwitches links
  no_loop : ∀ d < machines.sum, links.lookup (d + machines.sum, d + machines.sum) = none

structure ExactPaths (links : LinkMap) (s : PathMatrices (numSwitches links)) : Prop where
  least : ∀ i j, i ≠ j → Reaches links i j → s.currentDist i j < infiniteLatency ∧
    IsLeastWeight links i j (s.currentDist i j)
  infinite : ∀ i j, i ≠ j → (s.currentDist i j = infiniteLatency ↔ ¬ Reaches links i j)
  path : ∀ i j, i ≠ j → Reaches links i j →
    ∃ m : Nat, Walk (Step links) i j (m + 1) (s.currentDist i j, s.latencies i j) ∧
      s.interSwitches i j = m
  diagonal : ∀ i : Fin (numSwitches links), links.lookup (i.val, i.val) = none →
    IsLeastWeight links i i (s.currentDist i i) ∧ s.currentDist i i = 0 ∧ s.latencies i i = -1 ∧
      s.interSwitches i i = 0

structure Routed (links : LinkMap) (machines : List Nat) (dist : IntMatrix (numSwitches links))
    (sets : Fin (numSwitches links) → Fin (numSwitches links) → NetDest) : Prop where
  exact : ∀ i k, (i, k) ∈ linked links → ∀ mach f, IsEndpoint machines mach f →
    (mach ∈ sets i k ↔ Starts links i k f)
  only : ∀ i k, (i, k) ∈ linked links → ∀ mach ∈ sets i k, ∃ f : Fin (numSwitches links),
    IsEndpoint machines mach f
  unmade : ∀ i k c, Step links i k c → (i, k) ∉ linked links → ∀ f, ¬ Starts links i k f
  covered : ∀ i mach f, IsEndpoint machines mach f → i ≠ f → Reaches links i f →
    ∃ k, (i, k) ∈ linked links ∧ mach ∈ sets i k
  closer : ∀ i k mach f, (i, k) ∈ linked links → IsEndpoint machines mach f → mach ∈ sets i k →
    dist k f < dist i f
  arrives : ∀ mach f, IsEndpoint machines mach f → ∀ route : Nat → Fin (numSwitches links),
    (∀ t, route t = f ∨ (route t, route (t + 1)) ∈ linked links ∧
      mach ∈ sets (route t) (route (t + 1))) → ∃ t, route t = f

section Matrices

variable {links : LinkMap} {machines : List Nat} {w l : Int}

theorem foldl_setEntry {value : BasicLink → Int} {n : Nat} (i j : Fin n)
    (es : List (Sigma fun _ : Nat × Nat => LinkEntry)) (hnodup : es.NodupKeys) (m : IntMatrix n) :
    es.foldl (fun m e => setEntry m e.1.1 e.1.2 (value e.2.link)) m i j =
      ((es.dlookup (i.val, j.val)).map fun e => value e.link).getD (m i j) := by
  induction es generalizing m with
  | nil => rfl
  | cons e es ih =>
    obtain ⟨hnew, hrest⟩ := nodupKeys_cons.mp hnodup
    rw [foldl_cons, ih hrest]
    by_cases he : (i.val, j.val) = e.1
    · obtain ⟨⟨i', j'⟩, entry⟩ := e
      cases he
      rw [dlookup_cons_eq, dlookup_eq_none.mpr hnew]
      exact setEntry_self m _
    · rw [dlookup_cons_ne _ _ he, setEntry, if_neg]
      rintro ⟨hi, hj⟩
      exact he (Prod.ext hi hj)

theorem topologyWeights_eq (links : LinkMap) (i j : Fin (numSwitches links)) :
    topologyWeights links i j =
      ((links.lookup (i.val, j.val)).map fun e => e.link.weight).getD
      (if i = j then 0 else infiniteLatency) :=
  foldl_setEntry i j links.entries links.nodupKeys _

theorem componentLatencies_eq (links : LinkMap) (i j : Fin (numSwitches links)) :
    componentLatencies links i j = ((links.lookup (i.val, j.val)).map fun e =>
      e.link.latency).getD (-1) :=
  foldl_setEntry i j links.entries links.nodupKeys _

theorem weights_of_step (h : Step links i j c) :
    topologyWeights links i j = c.1 ∧ componentLatencies links i j = c.2 := by
  obtain ⟨e, he, rfl⟩ := h
  rw [topologyWeights_eq, componentLatencies_eq, he]
  exact ⟨rfl, rfl⟩

theorem step_of_ne (hpos : 0 < topologyWeights links i j)
    (hne : topologyWeights links i j ≠ infiniteLatency) :
    Step links i j (topologyWeights links i j, componentLatencies links i j) := by
  rw [topologyWeights_eq] at hpos hne ⊢
  rw [componentLatencies_eq]
  cases he : links.lookup (i.val, j.val) with
  | some e => exact ⟨e, he, rfl⟩
  | none =>
    rw [he] at hpos hne
    by_cases hij : i = j
    · simp [hij] at hpos
    · simp [hij] at hne

theorem mem_linked : (i, j) ∈ linked links ↔ 0 < topologyWeights links i j ∧
    topologyWeights links i j ≠ infiniteLatency := by
  simp [linked, mem_finRange]

theorem dist_le_walk (hs : Sound (topologyWeights links) (componentLatencies links) s)
    (htriangle : Triangle s.currentDist) (hne : i ≠ j) (hw : Walk (Step links) i j m c) :
    s.currentDist i j ≤ c.1 := by
  refine hw.dist_le (AddMonoidHom.fst Int Int) (hw.pos_of_ne hne) (fun i j c hc => ?_) htriangle
  exact (hs.le i j).trans (weights_of_step hc).1.le

namespace Admissible

variable (h : Admissible links machines w l)

include h

theorem step_pos (i j : Fin (numSwitches links)) (c : Int × Int) (hs : Step links i j c) :
    1 ≤ AddMonoidHom.fst Int Int c := by
  obtain ⟨e, he, rfl⟩ := hs
  exact h.weight_pos _ e he

theorem walk_nonneg (hw : Walk (Step links) i j m c) : 0 ≤ c.1 :=
  hw.weight_nonneg (AddMonoidHom.fst Int Int) fun i j c hs =>
    le_trans (by decide) (h.step_pos i j c hs)

theorem moderate : Moderate w l (topologyWeights links) (componentLatencies links) := by
  have hinf := h.infinite_le
  have hone := h.one_le
  refine ⟨fun i j hne => ?_, fun i j => ?_, fun i j => ?_, fun i j => ?_, h.sum, h.product⟩
  · rw [topologyWeights_eq]
    cases he : links.lookup (i.val, j.val) with
    | some e => exact h.weight_pos _ e he
    | none => simp [hne, infiniteLatency]
  · rw [topologyWeights_eq]
    cases he : links.lookup (i.val, j.val) with
    | some e => exact (h.weight_pos _ e he).le
    | none =>
      split <;> decide
  · rw [topologyWeights_eq]
    cases he : links.lookup (i.val, j.val) with
    | some e => exact h.weight_le _ e he
    | none =>
      split
      · exact le_trans (by decide) hinf
      · exact hinf
  · rw [componentLatencies_eq]
    cases he : links.lookup (i.val, j.val) with
    | some e => exact h.latency_le _ e he
    | none => exact hone

theorem walk_of_lt (hs : Sound (topologyWeights links) (componentLatencies links) s) (hne : i ≠ j)
    (hlt : s.currentDist i j < infiniteLatency) :
    ∃ m : Nat, Walk (Step links) i j (m + 1) (s.currentDist i j, s.latencies i j) ∧
      s.interSwitches i j = m := by
  obtain ⟨m, hwalk, hinter⟩ := hs.walk i j (h.moderate.pos i j hne)
  refine ⟨m, hwalk.of_below (AddMonoidHom.fst Int Int) (fun i j c hc => ?_) hlt
    fun i j c hc hc' => ?_, hinter⟩
  · exact le_trans (by decide) (one_le_of_entry i j c hc)
  · obtain ⟨hpos, rfl⟩ := hc
    exact step_of_ne hpos (ne_of_lt hc')

theorem exactPaths (hs : Sound (topologyWeights links) (componentLatencies links) s)
    (htriangle : Triangle s.currentDist) :
    ExactPaths links s := by
  have hfinite : ∀ i j, i ≠ j → Reaches links i j → s.currentDist i j < infiniteLatency := by
    intro i j hne hreach
    obtain ⟨m, c, hw, hlt⟩ := h.short i j hreach
    exact (dist_le_walk hs htriangle hne hw).trans_lt hlt
  refine ⟨fun i j hne hreach => ?_, fun i j hne => ?_, fun i j hne hreach => ?_, fun i hi => ?_⟩
  · obtain ⟨m, hw, -⟩ := h.walk_of_lt hs hne (hfinite i j hne hreach)
    refine ⟨hfinite i j hne hreach, ⟨m + 1, _, hw, rfl⟩, ?_⟩
    rintro x ⟨m, c, hw, rfl⟩
    exact dist_le_walk hs htriangle hne hw
  · refine ⟨fun heq hreach => (hfinite i j hne hreach).ne heq, fun hnone => ?_⟩
    -- without a path there is no link, so the entry began at the bound
    have htop : topologyWeights links i j = infiniteLatency := by
      rw [topologyWeights_eq]
      cases he : links.lookup (i.val, j.val) with
      | some e => exact absurd ⟨1, _, .single ⟨e, he, rfl⟩⟩ hnone
      | none => simp [hne]
    refine le_antisymm ((hs.le i j).trans htop.le) (not_lt.mp fun hlt => hnone ?_)
    obtain ⟨m, hw, -⟩ := h.walk_of_lt hs hne hlt
    exact ⟨m + 1, _, hw⟩
  · exact h.walk_of_lt hs hne (hfinite i j hne hreach)
  · have hzero : topologyWeights links i i = 0 := by
      rw [topologyWeights_eq, hi]
      simp
    obtain ⟨hdist, hlatency, hinter⟩ := hs.idle i hzero
    refine ⟨⟨⟨0, 0, .nil i, hdist.symm⟩, ?_⟩, hdist, ?_, hinter⟩
    · rintro x ⟨m, c, hw, rfl⟩
      rw [hdist]
      exact h.walk_nonneg hw
    · rw [hlatency, componentLatencies_eq, hi]
      rfl

end Admissible

end Matrices

section Machines

theorem length_machineIDs (machines : List Nat) : (machineIDs machines).length = machines.sum := by
  simp [machineIDs, length_flatMap]

theorem nodup_machineIDs (machines : List Nat) : (machineIDs machines).Nodup := by
  refine nodup_flatMap.mpr ⟨fun p _ => ?_, ?_⟩
  · exact nodup_range.map fun a b hab => by injection hab
  · have hindex : machines.zipIdx.Pairwise fun p q => p.2 ≠ q.2 := by
      rw [← pairwise_map, zipIdx_map_snd]
      exact nodup_range'
    refine hindex.imp fun hne => disjoint_left.mpr fun mach hp hq => ?_
    obtain ⟨a, -, rfl⟩ := mem_map.mp hp
    obtain ⟨b, -, hb⟩ := mem_map.mp hq
    injection hb with htype
    exact hne htype.symm

theorem IsEndpoint.unique (h : IsEndpoint machines mach f)
    (h' : IsEndpoint machines mach f') : f = f' := by
  obtain ⟨d, hd, hf⟩ := h
  obtain ⟨d', hd', hf'⟩ := h'
  obtain ⟨hlt, hget⟩ := List.getElem?_eq_some_iff.mp hd
  obtain ⟨hlt', hget'⟩ := List.getElem?_eq_some_iff.mp hd'
  have heq := (nodup_machineIDs machines).getElem_inj_iff.mp (hget.trans hget'.symm)
  exact Fin.ext (by rw [hf, hf', heq])

end Machines

section Sets

variable {links : LinkMap} {machines : List Nat} {w l : Int} {s : PathMatrices (numSwitches links)}
  (h : Admissible links machines w l)

include h

abbrev Tight (s : PathMatrices (numSwitches links)) (i k f : Fin (numSwitches links)) : Prop :=
  topologyWeights links i k + s.currentDist k f = s.currentDist i f

theorem Admissible.lookup_endpoint (hf : IsEndpoint machines mach f) :
    links.lookup (f.val, f.val) = none := by
  obtain ⟨d, hd, hf⟩ := hf
  obtain ⟨hlt, -⟩ := List.getElem?_eq_some_iff.mp hd
  rw [length_machineIDs] at hlt
  rw [hf]
  exact h.no_loop d hlt

section

variable (hs : Sound (topologyWeights links) (componentLatencies links) s)
include hs

theorem Admissible.addDestination_meets
    (before : List (MachineID × Nat)) (p : MachineID × Nat) (hp : p ∈ (machineIDs machines).zipIdx)
    (result : NetDest) (hresult : ∀ mach, mach ∈ result ↔ ∃ d, (mach, d) ∈ before ∧ ∃ f,
      f.val = d + machines.sum ∧ Tight s i k f) :
    Meets (fun result => ∀ mach, mach ∈ result ↔ ∃ d, (mach, d) ∈ before ++ [p] ∧ ∃ f,
      f.val = d + machines.sum ∧ Tight s i k f)
      (fun _ => False) (addDestination machines i k (topologyWeights links)
        s.currentDist result p) := by
  obtain ⟨hlt, -⟩ := List.getElem?_eq_some_iff.mp (mem_zipIdx_iff_getElem?.mp hp)
  rw [length_machineIDs] at hlt
  have hin : p.2 + machines.sum < numSwitches links := by linarith [h.endpoints]
  have hm := h.moderate
  have hsum : signed 32 (topologyWeights links i k + s.currentDist k ⟨p.2 + machines.sum, hin⟩) =
      .ok (topologyWeights links i k + s.currentDist k ⟨p.2 + machines.sum, hin⟩) := by
    have hdist := hs.dist_nonneg hm k ⟨p.2 + machines.sum, hin⟩
    refine signed_int ?_
    rw [abs_of_nonneg (add_nonneg (hm.nonneg i k) hdist)]
    linarith [hm.le i k, (hs.le k ⟨p.2 + machines.sum, hin⟩).trans (hm.le _ _), hm.sum]
  rw [addDestination, dif_pos hin, linkIsShortestPathToNode, hsum, ok_bind]
  refine .pure fun mach => ?_
  have hnext : (∃ d, (mach, d) ∈ before ++ [p] ∧ ∃ f, f.val = d + machines.sum ∧ Tight s i k f) ↔
      mach ∈ result ∨ mach = p.1 ∧ Tight s i k ⟨p.2 + machines.sum, hin⟩ := by
    rw [hresult]
    constructor
    · rintro ⟨d, hd, f, hf, htest⟩
      rcases mem_append.mp hd with hd | hd
      · exact .inl ⟨d, hd, f, hf, htest⟩
      · cases mem_singleton.mp hd
        obtain rfl : f = ⟨d + machines.sum, hin⟩ := Fin.ext hf
        exact .inr ⟨rfl, htest⟩
    · rintro (⟨d, hd, hd'⟩ | ⟨rfl, htest⟩)
      · exact ⟨d, mem_append_left _ hd, hd'⟩
      · exact ⟨p.2, mem_append_right _ (mem_singleton_self p), _, rfl, htest⟩
  rw [hnext]
  by_cases htest : topologyWeights links i k + s.currentDist k ⟨p.2 + machines.sum, hin⟩ =
      s.currentDist i ⟨p.2 + machines.sum, hin⟩
  · simp [Tight, htest, or_comm]
  · simp [Tight, htest]

theorem Admissible.shortestPathToNode_spec (i k : Fin (numSwitches links)) :
    ∃ set, shortestPathToNode machines i k (topologyWeights links) s.currentDist = .ok set ∧
      ∀ mach, mach ∈ set ↔ ∃ f, IsEndpoint machines mach f ∧ Tight s i k f := by
  obtain ⟨set, heq, hset⟩ :=
    (Meets.forList (t := ∅) (h.addDestination_meets (i := i) (k := k) hs) (by simp)).exists_ok
  refine ⟨set, heq, fun mach => (hset mach).trans ⟨?_, ?_⟩⟩
  · rintro ⟨d, hd, f, hf, htest⟩
    exact ⟨f, ⟨d, mem_zipIdx_iff_getElem?.mp hd, hf⟩, htest⟩
  · rintro ⟨f, ⟨d, hd, hf⟩, htest⟩
    exact ⟨d, mem_zipIdx_iff_getElem?.mpr hd, f, hf, htest⟩

omit hs in
theorem Admissible.to_endpoint (hx : ExactPaths links s) (hf : IsEndpoint machines mach f)
    (i : Fin (numSwitches links)) :
    Reaches links i f ∧ s.currentDist i f < infiniteLatency ∧
      IsLeastWeight links i f (s.currentDist i f) ∨
      ¬ Reaches links i f ∧ s.currentDist i f = infiniteLatency := by
  by_cases hreach : Reaches links i f
  · refine .inl ⟨hreach, ?_⟩
    by_cases hif : i = f
    · subst hif
      obtain ⟨hleast, hzero, -, -⟩ := hx.diagonal i (h.lookup_endpoint hf)
      exact ⟨hzero.trans_lt (by decide), hleast⟩
    · exact hx.least i f hif hreach
  · have hif : i ≠ f := by
      rintro rfl
      exact hreach ⟨0, 0, .nil i⟩
    exact .inr ⟨hreach, (hx.infinite i f hif).mpr hreach⟩

omit hs in
theorem Admissible.starts_iff (hx : ExactPaths links s) (hlink : (i, k) ∈ linked links)
    (hf : IsEndpoint machines mach f) :
    Tight s i k f ↔ Starts links i k f := by
  obtain ⟨hpos, hne⟩ := mem_linked.mp hlink
  have hstep := step_of_ne hpos hne
  have hthrough : Reaches links k f → Reaches links i f := by
    rintro ⟨m, c, hw⟩
    exact ⟨m + 1, _, .cons hstep hw⟩
  constructor
  · intro htest
    rcases h.to_endpoint hx hf k with ⟨hkf, -, ⟨m, c, hw, hc⟩, -⟩ | ⟨-, hkf⟩
    · rcases h.to_endpoint hx hf i with ⟨-, -, hleast⟩ | ⟨hif, -⟩
      · refine ⟨_, m, c, hstep, hw, ?_⟩
        rwa [Prod.fst_add, hc, htest]
      · exact absurd (hthrough hkf) hif
    · -- from `i` the distance is at most the bound, and so is it from `k`
      rcases h.to_endpoint hx hf i with ⟨-, hlt, -⟩ | ⟨-, hif⟩
      · linarith
      · linarith
  · rintro ⟨c1, m, c2, hstep', hw, hleast⟩
    have hreach : Reaches links k f := ⟨m, c2, hw⟩
    rcases h.to_endpoint hx hf i with ⟨-, -, hdist⟩ | ⟨hif, -⟩
    · rcases h.to_endpoint hx hf k with ⟨-, -, ⟨m', c, hw', hc⟩, hlow⟩ | ⟨hkf, -⟩
      · have hle : s.currentDist k f ≤ c2.1 := hlow ⟨m, c2, hw, rfl⟩
        have hge : (c1 + c2).1 ≤ (c1 + c).1 := hleast.2 ⟨m' + 1, _, .cons hstep' hw', rfl⟩
        have hsame := hdist.unique hleast
        rw [Prod.fst_add, Prod.fst_add] at hge
        rw [Prod.fst_add] at hsame
        rw [Tight, (weights_of_step hstep').1]
        linarith
      · exact absurd hreach hkf
    · exact absurd (hthrough hreach) hif

theorem Admissible.routed (hx : ExactPaths links s)
    (hsets : ∀ i k mach, mach ∈ sets i k ↔ ∃ f, IsEndpoint machines mach f ∧ Tight s i k f) :
    Routed links machines s.currentDist sets := by
  have hmem : ∀ i k mach f, IsEndpoint machines mach f →
      (mach ∈ sets i k ↔ Tight s i k f) := by
    intro i k mach f hf
    rw [hsets]
    refine ⟨?_, fun htest => ⟨f, hf, htest⟩⟩
    rintro ⟨f', hf', htest⟩
    rwa [hf.unique hf']
  have hcloser : ∀ i k mach f, (i, k) ∈ linked links → IsEndpoint machines mach f → mach ∈ sets i k →
      s.currentDist k f < s.currentDist i f := by
    intro i k mach f hlink hf hin
    linarith [(hmem i k mach f hf).mp hin, (mem_linked.mp hlink).1]
  refine ⟨fun i k hlink mach f hf => ?_, fun i k _ mach hin => ?_, fun i k c hstep hno f => ?_,
    fun i mach f hf hif hreach => ?_, hcloser, fun mach f hf route hroute => ?_⟩
  · rw [hmem i k mach f hf, h.starts_iff hx hlink hf]
  · obtain ⟨f, hf, -⟩ := (hsets i k mach).mp hin
    exact ⟨f, hf⟩
  · -- only a link of the infinite weight is not made, and no shortest path has that weight
    rintro ⟨c1, m, c2, hstep', hw, hleast⟩
    have hinf : topologyWeights links i k = infiniteLatency := by
      by_contra hne
      refine hno (mem_linked.mpr ⟨?_, hne⟩)
      rw [(weights_of_step hstep).1]
      exact h.step_pos i k c hstep
    obtain ⟨m', c', hw', hlt⟩ := h.short i f ⟨m + 1, _, .cons hstep' hw⟩
    have hle : (c1 + c2).1 ≤ c'.1 := hleast.2 ⟨m', c', hw', rfl⟩
    rw [Prod.fst_add, ← (weights_of_step hstep').1] at hle
    linarith [h.walk_nonneg hw]
  · -- the first link of a shortest path
    obtain ⟨hlt, hleast⟩ := hx.least i f hif hreach
    obtain ⟨m, c, hw, hc⟩ := hleast.1
    obtain ⟨k, c1, m', c2, hstep, hrest, rfl⟩ := hw.first hif
    have hweight := (weights_of_step hstep).1
    have hfirst := h.step_pos i k c1 hstep
    have hrest' := h.walk_nonneg hrest
    rw [Prod.fst_add] at hc
    have hlink : (i, k) ∈ linked links := by
      refine mem_linked.mpr ⟨?_, ?_⟩
      · rw [hweight]
        exact hfirst
      · rw [hweight]
        exact ne_of_lt (by linarith)
    refine ⟨k, hlink, ?_⟩
    rw [hmem i k mach f hf, h.starts_iff hx hlink hf]
    refine ⟨c1, m', c2, hstep, hrest, ?_⟩
    rwa [Prod.fst_add, hc]
  · refine reaches_of_decreasing (fun v => v = f) (fun v => s.currentDist v f)
      (fun v => hs.dist_nonneg h.moderate v f) fun t => (hroute t).imp_right fun hhop => ?_
    exact hcloser _ _ mach f hhop.1 hf hhop.2

end

theorem createLinks_routes_shortest :
    ∃ s sets, componentPaths links = .ok s ∧ ExactPaths links s ∧
      Routed links machines s.currentDist sets ∧
      createLinks machines links = (do
        let made ← (linked links).mapM fun p => makeLink machines.sum links p.1 p.2 (sets p.1 p.2)
        return (s, made)) := by
  obtain ⟨s, heq, hs, htriangle⟩ := shortestPath_spec h.moderate
  choose sets hsets hmem using h.shortestPathToNode_spec hs
  have hx := h.exactPaths hs htriangle
  refine ⟨s, sets, heq, hx, h.routed hs hx hmem, ?_⟩
  rw [createLinks, componentPaths, heq, ok_bind]
  simp [hsets]

end Sets

def crossbar : LinkMap :=
  List.toAList [⟨(0, 4), ⟨1, 1⟩, .inward⟩, ⟨(4, 2), ⟨1, 1⟩, .outward⟩, ⟨(1, 4), ⟨1, 1⟩, .inward⟩,
    ⟨(4, 3), ⟨1, 1⟩, .outward⟩]

theorem mem_of_lookup {links : LinkMap} {P : (Sigma fun _ : Nat × Nat => LinkEntry) → Prop}
    (hall : ∀ x ∈ links.entries, P x) (h : links.lookup p = some e) : P ⟨p, e⟩ :=
  hall _ (AList.mem_lookup_iff.mp h)

theorem weight_le_rank (rank : Nat → Int)
    (hrank : ∀ x ∈ links.entries, x.2.link.weight ≤ rank x.1.1 - rank x.1.2)
    (h : Walk (Step links) i j m c) : c.1 ≤ rank i - rank j := by
  induction h with
  | nil => simp
  | cons hs _ ih =>
    obtain ⟨e, he, rfl⟩ := hs
    have hfirst := mem_of_lookup hrank he
    rw [Prod.fst_add]
    linarith

theorem crossbar_admissible : Admissible crossbar [2] infiniteLatency 1 where
  weight_pos _ _ := mem_of_lookup (P := fun x => 0 < x.2.link.weight) (by decide)
  weight_le _ _ := mem_of_lookup (P := fun x => x.2.link.weight ≤ infiniteLatency) (by decide)
  latency_le _ _ := mem_of_lookup (P := fun x => |x.2.link.latency| ≤ 1) (by decide)
  short i j := by
    rintro ⟨m, c, hw⟩
    have hle := weight_le_rank (fun i => if i < 2 then 2 else if i = 4 then 1 else 0) (by decide) hw
    refine ⟨m, c, hw, hle.trans_lt ?_⟩
    split_ifs <;> decide
  infinite_le := le_rfl
  one_le := le_rfl
  sum := by decide
  product := by decide
  endpoints := by decide
  no_loop := by decide

theorem createLinks_routes_shortest_crossbar :
    ∃ s sets, componentPaths crossbar = .ok s ∧ ExactPaths crossbar s ∧
      Routed crossbar [2] s.currentDist sets := by
  obtain ⟨s, sets, heq, hexact, hrouted, -⟩ := createLinks_routes_shortest crossbar_admissible
  exact ⟨s, sets, heq, hexact, hrouted⟩

def oneLink : LinkMap := List.toAList [⟨(0, 1), ⟨1, 1⟩, .inward⟩]

def ownLink : LinkMap := List.toAList [⟨(0, 0), ⟨3, 1⟩, .inward⟩]

def heavyLink : LinkMap :=
  List.toAList [⟨(0, 1), ⟨2 ^ 31 - 1, 1⟩, .inward⟩, ⟨(0, 2), ⟨1, 1⟩, .inward⟩,
    ⟨(2, 1), ⟨1, 1⟩, .inward⟩]

theorem heavyLink_short (i j : Fin (numSwitches heavyLink)) (h : Reaches heavyLink i j) :
    ∃ m c, Walk (Step heavyLink) i j m c ∧ c.1 < infiniteLatency := by
  obtain ⟨m, c, hw⟩ := h
  have h02 : Step heavyLink 0 2 (1, 1) := ⟨⟨⟨1, 1⟩, .inward⟩, by decide, rfl⟩
  have h21 : Step heavyLink 2 1 (1, 1) := ⟨⟨⟨1, 1⟩, .inward⟩, by decide, rfl⟩
  have hpairs : i = j ∨ i = 0 ∨ i = 2 ∧ j = 1 := by
    induction hw with
    | nil => exact .inl rfl
    | @cons i k c j m d hs _ ih =>
      obtain ⟨e, he, -⟩ := hs
      have hends := mem_of_lookup (P := fun x => x.1 = (0, 1) ∨ x.1 = (0, 2) ∨
        x.1 = (2, 1)) (by decide) he
      have htable : ∀ i k j : Fin (numSwitches heavyLink), (i.val, k.val) = (0, 1) ∨
        (i.val, k.val) = (0, 2) ∨
          (i.val, k.val) = (2, 1) → (k = j ∨ k = 0 ∨ k = 2 ∧ j = 1) → i = j ∨ i = 0 ∨ i = 2 ∧
            j = 1 := by decide
      exact htable i k j hends ih
  rcases hpairs with rfl | rfl | ⟨rfl, rfl⟩
  · exact ⟨0, 0, .nil i, by decide⟩
  · have hall : ∀ j : Fin (numSwitches heavyLink), j = 0 ∨ j = 2 ∨ j = 1 := by decide
    rcases hall j with rfl | rfl | rfl
    · exact ⟨0, 0, .nil 0, by decide⟩
    · exact ⟨1, _, .single h02, by decide⟩
    · exact ⟨2, _, .cons h02 (.single h21), by decide⟩
  · exact ⟨1, _, .single h21, by decide⟩

/-- The latency of the empty path, the weight of the empty path at a switch with a link to
itself, and a sum of a weight that no shortest path has. -/
theorem diagonal_and_overflow :
    (Walk (Step oneLink) 0 0 0 0 ∧
      (componentPaths oneLink).toOption.map
      (fun s => (s.currentDist 0 0, s.latencies 0 0)) = some (0, -1)) ∧
    (Walk (Step ownLink) 0 0 0 0 ∧
      (componentPaths ownLink).toOption.map (fun s => s.currentDist 0 0) = some 3) ∧
    ((∀ i j, Reaches heavyLink i j → ∃ m c, Walk (Step heavyLink) i j m c ∧ c.1 < infiniteLatency) ∧
      componentPaths heavyLink = .error (.undefined "signed overflow")) :=
  ⟨⟨.nil 0, by decide +kernel⟩, ⟨.nil 0, by decide +kernel⟩, heavyLink_short, by decide +kernel⟩

end Gem5.Topology
