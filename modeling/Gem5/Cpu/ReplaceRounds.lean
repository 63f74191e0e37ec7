import Gem5.Cpu.Optimality

/-!
# The rounds of the second loop

Once all frames are in use, `processSet` takes one reference a round. In every
round the heap is in order of the next references and the table is its inverse,
so no check of the round fails.
-/

namespace Gem5.OptCPU

open Lib

variable {cpu cpu' : OptCPU} {set i : Nat} {refs : List RefInfo}

def Latest (refs : List RefInfo) (i a j : Nat) : Prop :=
  j < i ∧ block refs j = a ∧ ∀ x, j < x → x < i → block refs x ≠ a

def Resident (cpu : OptCPU) (set a : Nat) : Prop :=
  a ∈ blocks (cpu.refInfo set) cpu.cacheHeap cpu.assoc

def Leaves (cpu : OptCPU) (set start : Nat) (filled : OptCPU) : Prop :=
  ∃ rest, fillLoop { cpu with cacheHeap := fun _ => 0 } 0 0 (cpu.refInfo set) =
    .ok (filled, some (start, rest))

/-- From `cpu` the second loop of `processSet` comes to reference `i` in state `cpu'`. -/
def AtRound (cpu : OptCPU) (set i : Nat) (cpu' : OptCPU) : Prop :=
  ∃ start filled built, cpu.Leaves set start filled ∧
    buildHeap set filled (filled.assoc / 2) = .ok built ∧
    replaceLoop set built start (((cpu.refInfo set).drop start).take (i - start)) = .ok cpu'

structure Round (cpu : OptCPU) (set i : Nat) : Prop where
  heap : HeapFrom (rank (cpu.refInfo set)) cpu.cacheHeap cpu.assoc 0
  lookup : ∀ a ∈ addrs (cpu.refInfo set), ∀ p : Nat, cpu.lookupValue a = .ok (p : Int) ↔
    p < cpu.assoc ∧ Latest (cpu.refInfo set) i a (cpu.cacheHeap p)
  absent : ∀ a ∈ addrs (cpu.refInfo set), cpu.lookupValue a = .ok (-1) ↔ ¬ cpu.Resident set a
  distinct : (blocks (cpu.refInfo set) cpu.cacheHeap cpu.assoc).card = cpu.assoc
  later : ∀ p < cpu.assoc, (i : Int) ≤ rank (cpu.refInfo set) (cpu.cacheHeap p)
  leaf : ∀ p : Nat, cpu.lookupValue (block (cpu.refInfo set) i) = .ok (p : Int) → cpu.assoc ≤ p + p + 1
  passes : ∃ next, cpu.replaceRef set i (ref (cpu.refInfo set) i) = .ok next

theorem Cached.lookup_iff (hc : Cached cpu set refs cpu.assoc i) (hlt : ∀ a ∈ addrs refs, a < 2 ^ 36)
    {a p : Nat} (ha : a ∈ addrs refs) :
    cpu.lookupValue a = .ok (p : Int) ↔ p < cpu.assoc ∧ block refs (cpu.cacheHeap p) = a := by
  have hval : ∀ c < cpu.assoc, block refs (cpu.cacheHeap c) = a → cpu.lookupValue a = .ok (c : Int) :=
    fun c hcn hb => LookupTable.lookupValue_ok (hlt a ha) (hb ▸ hc.table c hcn)
  refine ⟨fun h => ?_, fun h => hval p h.1 h.2⟩
  by_cases hin : a ∈ blocks refs cpu.cacheHeap cpu.assoc
  · obtain ⟨c, hcn, hb⟩ := mem_blocks.mp hin
    have := (hval c hcn hb).symm.trans h
    obtain rfl : c = p := by simpa using this
    exact ⟨hcn, hb⟩
  · have := (LookupTable.lookupValue_ok (hlt a ha) (hc.absent a ha hin)).symm.trans h
    simp only [Except.ok.injEq] at this
    omega

theorem Cached.round (hc : Cached cpu set refs cpu.assoc i) (hlt : ∀ a ∈ addrs refs, a < 2 ^ 36)
    (hann : Annotated 0 refs) (hlen : (refs.length : Int) < infiniteRef) (hpos : 0 < cpu.assoc)
    (hsmall : cpu.assoc < 2 ^ 30) (hheap : HeapFrom (rank refs) cpu.cacheHeap cpu.assoc 0)
    (hi : i < refs.length) : cpu.Round set i := by
  obtain ⟨next, -, hrun, -⟩ := hc.replaces hlt hann hlen rfl hsmall hheap hi hpos
  obtain rfl := hc.here
  refine ⟨hheap, fun a ha p => ?_, fun a ha => ⟨fun h hin => ?_, fun h => ?_⟩, hc.card,
    fun p hp => ?_, fun p h => ?_, next, hrun⟩
  · rw [hc.lookup_iff hlt ha]
    refine ⟨fun ⟨hp, hb⟩ => ⟨hp, hc.bound p hp, hb, ?_⟩, fun ⟨hp, _, hb, _⟩ => ⟨hp, hb⟩⟩
    exact hb ▸ hc.recent p hp
  · obtain ⟨c, hcn, hb⟩ := mem_blocks.mp hin
    have := ((hc.lookup_iff hlt ha).mpr ⟨hcn, hb⟩).symm.trans h
    simp only [Except.ok.injEq] at this
    omega
  · exact LookupTable.lookupValue_ok (hlt a ha) (hc.absent a ha h)
  · rw [hc.rank_eq hann hp]
    exact nextRef_ge (by omega)
  · obtain ⟨hp, hb⟩ := (hc.lookup_iff hlt (block_mem hi)).mp h
    exact hc.leaf hann hlen hheap hi hp hb

theorem Cached.rounds (hlt : ∀ a ∈ addrs refs, a < 2 ^ 36) (hann : Annotated 0 refs)
    (hlen : (refs.length : Int) < infiniteRef) (hpos : 0 < n) (hsmall : n < 2 ^ 30) (k : Nat)
    (hc : Cached cpu set refs n i) (hn : n = cpu.assoc)
    (hheap : HeapFrom (rank refs) cpu.cacheHeap n 0) (hk : i + k ≤ refs.length) :
    ∃ cpu', OptCPU.replaceLoop set cpu i ((refs.drop i).take k) = .ok cpu' ∧
      Cached cpu' set refs n (i + k) ∧ n = cpu'.assoc ∧ HeapFrom (rank refs) cpu'.cacheHeap n 0 := by
  induction k generalizing cpu i with
  | zero => exact ⟨cpu, rfl, hc, hn, hheap⟩
  | succ k ih =>
    obtain ⟨next, _, hrun, hc', hheap', -, hkeeps, -⟩ :=
      hc.replaces hlt hann hlen hn hsmall hheap (by omega) hpos
    have := ih hc' (hn.trans hkeeps.assoc.symm) hheap' (by omega)
    rw [drop_refs (by omega), List.take_succ_cons, OptCPU.replaceLoop, hrun]
    rwa [Nat.add_right_comm] at this

theorem Ready.round (h : cpu.Ready (k :: ks))
    (hleaves : cpu.Leaves k start filled) (hstart : start ≤ i) (hi : i < (cpu.refInfo k).length) :
    ∃ cpu', cpu.AtRound k i cpu' ∧ cpu'.Round k i := by
  have hann := h.annotated k (by simp)
  have hne : cpu.refInfo k ≠ [] := List.ne_nil_of_length_pos (by omega)
  obtain ⟨rest, hfill⟩ := hleaves
  obtain ⟨cpu1, m, ⟨h1, -⟩ | ⟨built, i0, h1, h2, hc, hheap, -, hk, -⟩⟩ :=
    processSet_start (h.addr k) rfl h.pos h.small hne (h.absent k (by simp))
  · rw [h1] at hfill
    cases hfill
  · rw [h1] at hfill
    cases hfill
    obtain ⟨cpu', hrun, hc', hn, hheap'⟩ := hc.rounds (h.addr k) hann (h.short k) h.pos h.small
      (i - start) hk.assoc.symm hheap (by omega)
    rw [Nat.add_sub_cancel' hstart, hn] at hc'
    rw [hn] at hheap'
    exact ⟨cpu', ⟨start, _, built, ⟨_, h1⟩, h2, hrun⟩,
      hc'.round (h.addr k) hann (h.short k) (hn ▸ h.pos) (hn ▸ h.small) hheap' hi⟩

/-- For every trace and every set: `processSet` ends, and comes to each round of its second
loop with the heap in order, the table as its inverse and checks that pass. -/
theorem processSet_rounds {trace : List Nat} {b cacheSize assoc numSets k : Nat} (hassoc : 1 ≤ assoc)
    (hsmall : assoc < 2 ^ 30) (hnum : cacheSize / 2 ^ b / assoc = numSets) (hk : k < numSets)
    (haddr : ∀ p ∈ trace, p >>> b < 2 ^ 36) (hlen : trace.length < 2 ^ 31 - 1) :
    ∃ created cpu references, create trace (2 ^ b) cacheSize assoc = .ok created ∧
      created.tickSets 0 (List.range k) = .ok (cpu, references) ∧ cpu.assoc = assoc ∧
      addrs (cpu.refInfo k) = (trace.map (· >>> b)).filter (fun a => setOf numSets a = k) ∧
      (cpu.refInfo k ≠ [] → ∃ done, cpu.processSet k = .ok done) ∧
      ∀ start filled, cpu.Leaves k start filled → ∀ i, start ≤ i → i < (cpu.refInfo k).length →
        ∃ cpu', cpu.AtRound k i cpu' ∧ cpu'.Round k i := by
  obtain ⟨created, hcreate, ⟨rfl, rfl, -, -, haddrs, -⟩, hready⟩ :=
    create_ready hassoc hnum (by omega) haddr hsmall hlen
  obtain ⟨r, hr⟩ : ∃ r, created.numSets = k + (r + 1) := ⟨created.numSets - k - 1, by omega⟩
  have hrange : List.range created.numSets = List.range k ++ k :: (List.range r).map (k + 1 + ·) := by
    rw [hr, List.range_add, List.range_succ_eq_map]
    simp [Function.comp_def, Nat.add_assoc, Nat.add_comm 1]
  have hnodup : (List.range created.numSets).Nodup := List.nodup_range
  rw [hrange] at hready hnodup
  obtain ⟨cpu, -, htick, -, -, -, hcpu, hrefs, hsame⟩ := hready.tickSets hnodup 0
  refine ⟨created, cpu, _, hcreate, htick, hsame, ?_, fun hne => ?_,
    fun start filled hleaves i => hcpu.round hleaves⟩
  · rw [hrefs, haddrs]
  · obtain ⟨done, -, hrun, -⟩ := processSet_spec (hcpu.addr k) (hcpu.annotated k (by simp))
      (hcpu.short k) rfl hcpu.pos hcpu.small hne (hcpu.absent k (by simp))
    exact ⟨done, hrun⟩

theorem processSet_rounds_small :
    ∃ created cpu', create [0, 1, 2, 0, 1] (2 ^ 0) 2 2 = .ok created ∧ created.AtRound 0 4 cpu' ∧
      cpu'.Round 0 4 := by
  obtain ⟨created, cpu, references, hcreate, htick, -, haddrs, -, hrounds⟩ :=
    @processSet_rounds [0, 1, 2, 0, 1] 0 2 2 1 0 (by decide) (by decide) rfl (by decide) (by decide)
      (by decide)
  cases htick
  have hfill : ((create [0, 1, 2, 0, 1] (2 ^ 0) 2 2).toOption.bind fun cpu =>
      (fillLoop { cpu with cacheHeap := fun _ => 0 } 0 0 (cpu.refInfo 0)).toOption.map
        fun r => r.2.map Prod.fst) = some (some 2) := by
    decide +kernel
  rw [hcreate] at hfill
  obtain ⟨⟨filled, rest⟩, hrun, hrest⟩ := Option.map_eq_some_iff.mp hfill
  obtain ⟨⟨start, rest⟩, rfl, rfl⟩ := Option.map_eq_some_iff.mp hrest
  have hlength : (created.refInfo 0).length = 5 := by
    rw [← List.length_map, ← addrs, haddrs]
    decide
  have hleaves : created.Leaves 0 2 filled := by
    refine ⟨rest, ?_⟩
    cases h : fillLoop { created with cacheHeap := fun _ => 0 } 0 0 (created.refInfo 0) with
    | error e => rw [h] at hrun; cases hrun
    | ok a => rw [h] at hrun; cases hrun; rfl
  obtain ⟨cpu', hround⟩ := hrounds 2 filled hleaves 4 (by decide) (by omega)
  exact ⟨created, cpu', hcreate, hround⟩

/-- With `2 ^ 30` frames the heap is not built: the index of a child overflows. -/
theorem processSet_rounds_overflow :
    (∀ p ∈ overflowTrace (2 ^ 30), p >>> 0 < 2 ^ 36) ∧ (overflowTrace (2 ^ 30)).length < 2 ^ 31 - 1 ∧
    2 ^ 30 / 2 ^ 0 / 2 ^ 30 = 1 ∧
    ∃ cpu, create (overflowTrace (2 ^ 30)) (2 ^ 0) (2 ^ 30) (2 ^ 30) = .ok cpu ∧
      cpu.tickSets 0 (List.range 0) = .ok (cpu, 0) ∧ cpu.refInfo 0 ≠ [] ∧
      cpu.processSet 0 = .error (.undefined "signed overflow") := by
  obtain ⟨n, hn⟩ : ∃ n, n = 2 ^ 30 := ⟨_, rfl⟩
  rw [← hn]
  obtain ⟨hlt, hlen, hnum⟩ := overflowTrace_fits hn
  obtain ⟨cpu, hcreate, -, hne, hrun⟩ := create_overflow hn
  exact ⟨hlt, hlen, hnum, cpu, hcreate, rfl, hne, hrun⟩

end Gem5.OptCPU
