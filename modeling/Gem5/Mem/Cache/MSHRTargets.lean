import Gem5.Mem.Cache.MSHRQueue

/-!
# The targets of a register

What the functions of `mem/cache/mshr.cc` do to the targets a register holds,
whichever of its two lists they are on: how many there are, how many of them
came from the CPU, and which requests wait here for their response.
-/

namespace Gem5

open Lib List TargetList Target Function

namespace Target

def isCPU (t : Target) : Bool := t.source == .fromCPU

def awaited (t : Target) : Bool := t.isCPU && t.pkt.needsResponse

def replaceUpgrade (t : Target) : Target := { t with pkt := Gem5.replaceUpgrade t.pkt }

end Target

@[simp] theorem replaceUpgrade_id (pkt : Packet) : (replaceUpgrade pkt).id = pkt.id := by
  unfold replaceUpgrade
  split <;> rfl

@[simp] theorem replaceUpgrade_needsResponse (pkt : Packet) :
    (replaceUpgrade pkt).needsResponse = pkt.needsResponse := by
  unfold replaceUpgrade
  split <;> simp_all [Packet.needsResponse] <;> rfl

@[simp] theorem Target.awaited_replaceUpgrade (t : Target) :
    t.replaceUpgrade.awaited = t.awaited := by
  simp [awaited, replaceUpgrade, isCPU]

@[simp] theorem Target.id_replaceUpgrade (t : Target) : t.replaceUpgrade.pkt.id = t.pkt.id :=
  replaceUpgrade_id t.pkt

def waitingIds (ts : List Target) : List Nat := (ts.filter Target.awaited).map (·.pkt.id)

@[simp] theorem waitingIds_nil : waitingIds [] = [] := rfl

@[simp] theorem waitingIds_append (ts us : List Target) :
    waitingIds (ts ++ us) = waitingIds ts ++ waitingIds us := by
  simp [waitingIds]

@[simp] theorem waitingIds_replaceUpgrade (ts : List Target) :
    waitingIds (ts.map Target.replaceUpgrade) = waitingIds ts := by
  simp [waitingIds, filter_map, Function.comp_def]

namespace TargetList

theorem list_replaceUpgrades (l : TargetList) :
    l.replaceUpgrades.list = if l.hasUpgrade then l.list.map Target.replaceUpgrade else l.list := by
  unfold replaceUpgrades
  split <;> rfl

@[simp] theorem waiting_replaceUpgrades (l : TargetList) :
    waitingIds l.replaceUpgrades.list = waitingIds l.list := by
  rw [list_replaceUpgrades]
  split <;> simp

@[simp] theorem length_replaceUpgrades (l : TargetList) :
    l.replaceUpgrades.list.length = l.list.length := by
  rw [list_replaceUpgrades]
  split <;> simp

@[simp] theorem countP_replaceUpgrades (l : TargetList) :
    l.replaceUpgrades.list.countP Target.isCPU = l.list.countP Target.isCPU := by
  rw [list_replaceUpgrades]
  split
  · rw [countP_map]
    rfl
  · rfl

def Upgraded (l : TargetList) (ts : List Target) : Prop := ts = l.list ∨ ts = l.replaceUpgrades.list

namespace Upgraded

variable {l : TargetList} {ts : List Target}

variable (h : l.Upgraded ts)
include h

theorem length : ts.length = l.list.length := by
  rcases h with rfl | rfl <;> simp

theorem waiting : waitingIds ts = waitingIds l.list := by
  rcases h with rfl | rfl <;> simp

theorem countP : ts.countP Target.isCPU = l.list.countP Target.isCPU := by
  rcases h with rfl | rfl <;> simp

theorem isCPU (hl : ∀ t ∈ l.list, t.isCPU = true) : ∀ t ∈ ts, t.isCPU = true := by
  rcases h with rfl | rfl
  · exact hl
  · rw [list_replaceUpgrades]
    split
    · intro t ht
      obtain ⟨u, hu, rfl⟩ := mem_map.mp ht
      exact hl u hu
    · exact hl

end Upgraded

end TargetList

namespace MSHR

variable {m m' : MSHR}

def allTargets (m : MSHR) : List Target := m.targets.list ++ m.deferredTargets.list

def waiting (m : MSHR) : List Nat := waitingIds m.allTargets

def cpuTargets (m : MSHR) : Nat := m.allTargets.countP Target.isCPU

/-- The counter counts, and targets are deferred only while a request is on its
way, and only if they are from the CPU. -/
structure Sound (m : MSHR) : Prop where
  count : m.ntargets = ushort m.allTargets.length
  deferred : m.inService = false → m.deferredTargets.list = []
  fromCPU : ∀ t ∈ m.deferredTargets.list, t.isCPU = true

def Empty (m : MSHR) : Prop := m.allTargets = []

theorem Empty.lists (h : m.Empty) : m.targets.list = [] ∧ m.deferredTargets.list = [] :=
  append_eq_nil_iff.mp h

theorem ushort_add (n : Nat) : ushort (ushort n + 1) = ushort (n + 1) := by
  simp [ushort]

theorem allocate_targets {now addr size tick order : Nat} {pkt : Packet} (he : m.Empty)
    (h : m.allocate now addr size pkt tick order = .ok m') :
    m'.Sound ∧ m'.inService = false ∧ m'.ntargets = 1 ∧ m'.deferredTargets.list = [] ∧
      m'.waiting = (if pkt.cmd ≠ .hardPFReq ∧ pkt.needsResponse = true then [pkt.id] else []) ∧
      m'.cpuTargets = (if pkt.cmd = .hardPFReq then 0 else 1) ∧ m'.addr = addr ∧
      ∃ t, m'.targets.list = [t] ∧ t.pkt = pkt := by
  obtain ⟨ht, hd⟩ := he.lists
  simp only [allocate, bind_eq_ok, pure_eq_ok] at h
  obtain ⟨_, -, _, -, rfl⟩ := h
  refine ⟨⟨?_, fun _ => hd, ?_⟩, rfl, rfl, hd, ?_, ?_, rfl, ?_⟩
  · simp [allTargets, add, ht, hd, ushort]
  · simp [hd]
  · simp only [waiting, allTargets, add, ht, hd, nil_append, append_nil]
    by_cases hpf : pkt.cmd = .hardPFReq
    · simp [waitingIds, awaited, isCPU, hpf]
    · by_cases hr : pkt.needsResponse = true <;>
        simp [waitingIds, awaited, isCPU, hpf, hr]
  · simp only [cpuTargets, allTargets, add, ht, hd, nil_append, append_nil]
    by_cases hpf : pkt.cmd = .hardPFReq <;> simp [isCPU, hpf]
  · simp [add, ht]

theorem allocateTarget_targets {now whenReady order : Nat} {pkt : Packet} (hs : m.Sound)
    (h : m.allocateTarget now pkt whenReady order = .ok m') :
    m'.Sound ∧ m'.inService = m.inService ∧
      m'.allTargets.length = m.allTargets.length + 1 ∧ m'.cpuTargets = m.cpuTargets + 1 ∧
      m'.waiting.Perm ((if pkt.needsResponse = true then [pkt.id] else []) ++ m.waiting) ∧
      m.targets.list.length ≤ m'.targets.list.length := by
  simp only [allocateTarget, bind_eq_ok, ensure_eq_ok] at h
  obtain ⟨_, -, h⟩ := h
  have hids : ∀ q : Packet, q.id = pkt.id → q.needsResponse = pkt.needsResponse →
      ∀ a b c d, waitingIds [⟨a, b, c, q, .fromCPU, d⟩] = if pkt.needsResponse = true then [pkt.id]
        else [] := by
    intro q hq hq' a b c d
    by_cases hr : pkt.needsResponse = true <;>
      simp [waitingIds, awaited, isCPU, hq, hq', hr]
  split at h
  · rename_i hdefer
    have hserv : m.inService = true := by
      simp only [mustDefer, Bool.and_eq_true] at hdefer
      exact hdefer.1
    cases h
    refine ⟨⟨?_, ?_, ?_⟩, rfl, ?_, ?_, ?_, Nat.le_refl _⟩
    · simp [hs.count, allTargets, add, ushort_add, Nat.add_assoc]
    · intro hn
      simp [hserv] at hn
    · intro t ht
      rcases mem_append.mp ht with ht | ht
      · exact hs.fromCPU t ht
      · rw [mem_singleton.mp ht]
        rfl
    · simp [allTargets, add]
      omega
    · simp [cpuTargets, allTargets, add, isCPU]
      omega
    · simp only [waiting, allTargets, add, waitingIds_append]
      rw [hids _ (by split <;> simp) (by split <;> simp)]
      exact (append_assoc .. ▸ perm_append_comm)
  · cases h
    refine ⟨⟨?_, hs.deferred, hs.fromCPU⟩, rfl, ?_, ?_, ?_, by simp [add]⟩
    · simp only [hs.count, allTargets, add, ushort_add, length_append, length_singleton]
      congr 1
      omega
    · simp [allTargets, add]
      omega
    · simp [cpuTargets, allTargets, add, isCPU]
      omega
    · simp only [waiting, allTargets, add, waitingIds_append]
      rw [hids pkt rfl rfl, ← append_assoc]
      exact perm_append_comm.append_right _

theorem handleSnoop_cases {now order : Nat} {pkt : Packet}
    (hm' : (m.handleSnoop now pkt order).1 = m') :
    ∃ ts ds, m.targets.Upgraded ts ∧ m.deferredTargets.Upgraded ds ∧
      m'.inService = m.inService ∧ m'.deferredTargets.list = ds ∧
        (m'.targets.list = ts ∧ m'.ntargets = m.ntargets ∨
        m.inService = true ∧ m'.ntargets = ushort (m.ntargets + 1) ∧
          ∃ t : Target, t.source = .fromSnoop ∧ m'.targets.list = ts ++ [t]) := by
  subst hm'
  unfold handleSnoop
  by_cases hserv : (!m.inService || (pkt.expressSnoop && m.downstreamPending)) = true
  · simp only [hserv, if_true]
    split
    · exact ⟨_, _, .inr rfl, .inr rfl, rfl, rfl, .inl ⟨rfl, rfl⟩⟩
    · exact ⟨_, _, .inl rfl, .inl rfl, rfl, rfl, .inl ⟨rfl, rfl⟩⟩
  · have hin : m.inService = true := by
      cases hm : m.inService with
      | false => simp [hm] at hserv
      | true => rfl
    simp only [hserv, Bool.false_eq_true, if_false]
    -- what the deferred targets become is decided first
    obtain ⟨m1, hm1, hds⟩ : ∃ m1, m1 = (if pkt.needsExclusive = true then
        { m with deferredTargets := m.deferredTargets.replaceUpgrades } else m) ∧
        m.deferredTargets.Upgraded m1.deferredTargets.list := by
      refine ⟨_, rfl, ?_⟩
      split
      · exact .inr rfl
      · exact .inl rfl
    have hsame : m1.inService = m.inService ∧ m1.targets = m.targets ∧ m1.ntargets = m.ntargets := by
      subst hm1
      split <;> exact ⟨rfl, rfl, rfl⟩
    rw [← hm1]
    obtain ⟨hin1, hts1, hn1⟩ := hsame
    refine ⟨m.targets.list, m1.deferredTargets.list, .inl rfl, hds, ?_⟩
    rw [← hts1, ← hn1, ← hin1]
    split_ifs
    all_goals first
      | exact ⟨rfl, rfl, .inl ⟨rfl, rfl⟩⟩
      | exact ⟨rfl, rfl, .inr ⟨hin1.trans hin, rfl, _, rfl, rfl⟩⟩

theorem handleSnoop_targets {now order : Nat} {pkt : Packet} (hs : m.Sound)
    (hm' : (m.handleSnoop now pkt order).1 = m') :
    m'.Sound ∧ m'.inService = m.inService ∧ m'.waiting = m.waiting ∧ m'.cpuTargets = m.cpuTargets := by
  obtain ⟨ts, ds, hts, hds, hserv, hd, hcases⟩ := handleSnoop_cases hm'
  have hdef := hds.length
  have hcount := hs.count
  simp only [allTargets, length_append, ← hts.length, ← hdef] at hcount
  have hlater : m'.inService = false → m'.deferredTargets.list = [] := by
    intro h
    rw [hd, ← length_eq_zero_iff, hdef, length_eq_zero_iff]
    exact hs.deferred (hserv ▸ h)
  rcases hcases with ⟨ht, hn⟩ | ⟨hin, hn, t, hsrc, ht⟩
  · refine ⟨⟨?_, hlater, hd ▸ hds.isCPU hs.fromCPU⟩, hserv, ?_, ?_⟩
    · simp only [allTargets, ht, hd, hn, hcount, length_append]
    · simp only [waiting, allTargets, ht, hd, waitingIds_append, hts.waiting, hds.waiting]
    · simp only [cpuTargets, allTargets, ht, hd, countP_append, hts.countP, hds.countP]
  · refine ⟨⟨?_, hlater, hd ▸ hds.isCPU hs.fromCPU⟩, hserv, ?_, ?_⟩
    · simp only [allTargets, ht, hd, hn, hcount, length_append, length_singleton, ushort_add]
      congr 1
      omega
    · have hsnoop : waitingIds [t] = [] := by simp [waitingIds, awaited, isCPU, hsrc]
      simp only [waiting, allTargets, ht, hd, waitingIds_append, hts.waiting, hds.waiting,
        hsnoop, append_nil]
    · simp [cpuTargets, allTargets, ht, hd, hts.countP, hds.countP, isCPU, hsrc]

theorem handleFill_targets {pkt : Packet} (hs : m.Sound) (h : m.handleFill pkt = .ok m') :
    m'.Sound ∧ m'.inService = m.inService ∧ m'.allTargets = m.allTargets ∧
      m'.deferredTargets.list.length ≤ m.deferredTargets.list.length ∧
      m.targets.list.length ≤ m'.targets.list.length := by
  unfold handleFill at h
  split at h
  · cases h
    exact ⟨hs, rfl, rfl, Nat.le_refl _, Nat.le_refl _⟩
  · obtain ⟨inv, -, h⟩ := bind_eq_ok.mp h
    split at h
    · simp only [bind_eq_ok, pure_eq_ok] at h
      obtain ⟨_, -, _, -, rfl⟩ := h
      have hcount := hs.count
      refine ⟨⟨?_, ?_, ?_⟩, ?_, ?_, ?_, ?_⟩ <;> simp [allTargets, hcount]
    · cases h
      exact ⟨hs, rfl, rfl, Nat.le_refl _, Nat.le_refl _⟩

theorem popTarget_targets (hs : m.Sound) (hm : m.targets.list = t :: ts) :
    m.popTarget.Sound ∧ m.popTarget.inService = m.inService ∧ m.popTarget.targets.list = ts ∧
      m.popTarget.deferredTargets = m.deferredTargets := by
  have hcount := hs.count
  have hdeferred := hs.deferred
  have hcpu := hs.fromCPU
  simp only [allTargets, hm, length_append, length_cons, ushort] at hcount
  simp only [popTarget, hm, tail_cons, and_self, and_true]
  refine ⟨?_, hdeferred, hcpu⟩
  simp only [allTargets, length_append, ushort]
  omega

theorem promoteDeferredTargets_targets (hs : m.Sound)
    (h : m.promoteDeferredTargets now = .ok (m', promoted)) :
    m'.Sound ∧ m'.inService = m.inService ∧ m'.allTargets = m.allTargets ∧
      m'.deferredTargets.list = [] ∧ m.targets.list = [] ∧
        (promoted = true ↔ m.deferredTargets.list ≠ []) := by
  obtain ⟨_, hempty, h⟩ := bind_eq_ok.mp h
  have hempty : m.targets.list = [] := by simpa using ensure_eq_ok.mp hempty
  split at h
  · rename_i hd
    cases h
    exact ⟨hs, rfl, rfl, hd, hempty, by simp [hd]⟩
  · rename_i t ts hd
    obtain ⟨_, hlen, h⟩ := bind_eq_ok.mp h
    have hlen : ts.length + 1 = m.ntargets := by simpa using ensure_eq_ok.mp hlen
    cases h
    refine ⟨⟨?_, ?_, ?_⟩, rfl, ?_, hempty, hempty, by simp [hd]⟩
    · have hlt : m.ntargets = ushort m.ntargets := by
        rw [hs.count]
        simp [ushort]
      simpa [allTargets, resetFlags, hempty, hd, hlen] using hlt
    · intro _
      exact hempty
    · simp [resetFlags, hempty]
    · simp [allTargets, resetFlags, hempty]

theorem isForwardNoResponse_spec (h : m.isForwardNoResponse = .ok b) (hb : b = true) :
    ∃ t ts, m.targets.list = t :: ts ∧ t.isCPU = true ∧ t.pkt.needsResponse = false := by
  unfold isForwardNoResponse at h
  split at h
  · cases h
    cases hb
  · obtain ⟨t, ht, h⟩ := bind_eq_ok.mp h
    subst hb
    have hhead := need_eq_ok.mp ht
    have hp := pure_eq_ok.mp h
    simp only [Bool.and_eq_true, Bool.not_eq_true'] at hp
    obtain ⟨ts, hts⟩ := List.head?_eq_some_iff.mp hhead
    exact ⟨t, ts, hts, hp.1, hp.2⟩

theorem isForwardNoResponse_false (hs : m.Sound) (h : m.isForwardNoResponse = .ok false) :
    ¬ ∃ t, m.allTargets = [t] ∧ t.isCPU = true ∧ t.pkt.needsResponse = false := by
  rintro ⟨t, hall, hcpu, hneeds⟩
  have hn : m.ntargets = 1 := by rw [hs.count, hall]; rfl
  unfold isForwardNoResponse at h
  rw [if_neg (not_not.mpr hn)] at h
  obtain ⟨t', ht', h⟩ := bind_eq_ok.mp h
  obtain ⟨ts, hts⟩ := List.head?_eq_some_iff.mp (need_eq_ok.mp ht')
  have ht : t' = t := by
    rw [allTargets, hts, cons_append] at hall
    exact (List.cons.inj hall).1
  subst ht
  have hp := pure_eq_ok.mp h
  simp [isCPU] at hcpu
  simp [hcpu, hneeds] at hp

theorem markInService_targets {pkt : Packet} (hs : m.Sound)
    (h : m.markInService pkt = .ok (m', noResponse)) :
    m.inService = false ∧ (noResponse = true ∧ m' = m.popTarget ∧
      (∃ t ts, m.targets.list = t :: ts ∧ t.isCPU = true ∧
          t.pkt.needsResponse = false) ∨ noResponse = false ∧ m'.inService = true ∧
            m'.allTargets = m.allTargets ∧
          m'.ntargets = m.ntargets ∧ m'.deferredTargets.list = [] ∧ m'.addr = m.addr ∧ m'.Sound) := by
  obtain ⟨_, hserv, h⟩ := bind_eq_ok.mp h
  have hserv : m.inService = false := by simpa using ensure_eq_ok.mp hserv
  obtain ⟨nr, hnr, h⟩ := bind_eq_ok.mp h
  refine ⟨hserv, ?_⟩
  split at h
  · rename_i hb
    replace h := of_guard h
    cases h
    obtain ⟨t, ts, hts, hcpu, hresp⟩ := isForwardNoResponse_spec hnr hb
    exact .inl ⟨rfl, rfl, t, ts, hts, hcpu, hresp⟩
  · cases h
    have hd := hs.deferred hserv
    exact .inr ⟨rfl, rfl, rfl, rfl, hd, rfl, hs.count, fun _ => hd, hs.fromCPU⟩

theorem deallocate_targets (h : m.deallocate = .ok m') :
    m.targets.list = [] ∧ m'.targets.list = [] ∧ m'.deferredTargets = m.deferredTargets ∧
      m'.inService = false := by
  simp only [deallocate, bind_eq_ok, ensure_eq_ok, pure_eq_ok, List.isEmpty_iff, beq_iff_eq] at h
  obtain ⟨_, ht, _, -, _, -, rfl⟩ := h
  exact ⟨ht, ht, rfl, rfl⟩

end MSHR

namespace MSHRQueue

variable {q q' : MSHRQueue} {i : Nat}

abbrev live (q : MSHRQueue) : List Nat := q.allocatedList.values

structure Good (q : MSHRQueue) : Prop where
  book : ∃ h : MSHRHistory, h.queue = q ∧ h.Inv
  sound : ∀ i ∈ q.live, (q.registers i).Sound
  empty : ∀ i ∈ q.freeList, (q.registers i).Empty

def gather (f : MSHR → List α) (q : MSHRQueue) : List α := q.live.flatMap fun i => f (q.registers i)

def waiting (q : MSHRQueue) : List Nat := q.gather MSHR.waiting

def SameSize (q q' : MSHRQueue) : Prop :=
  q'.numEntries = q.numEntries ∧ q'.numReserve = q.numReserve

structure Changed (q q' : MSHRQueue) (i : Nat) : Prop where
  live : q'.live = q.live
  free : q'.freeList = q.freeList
  others : ∀ j, j ≠ i → q'.registers j = q.registers j
  size : q.SameSize q'

structure Taken (q q' : MSHRQueue) (i : Nat) : Prop where
  live : q'.live = q.live ++ [i]
  free : q.freeList = i :: q'.freeList
  others : ∀ j, j ≠ i → q'.registers j = q.registers j
  size : q.SameSize q'

structure Freed (q q' : MSHRQueue) (i : Nat) : Prop where
  live : q'.live = q.live.erase i
  free : q'.freeList = i :: q.freeList
  others : ∀ j, j ≠ i → q'.registers j = q.registers j
  size : q.SameSize q'

namespace Good

variable (h : q.Good)
include h

theorem nodup : q.live.Nodup := by
  obtain ⟨h, rfl, hi⟩ := h.book
  exact hi.nodup.2.1

theorem not_live (hi : i ∈ q.freeList) : i ∉ q.live := by
  obtain ⟨h, rfl, hinv⟩ := h.book
  exact hinv.nodup.2.2 i hi

theorem length : q.freeList.length + q.live.length = q.numEntries := by
  obtain ⟨h, rfl, hi⟩ := h.book
  have hlen := hi.partition.length_eq
  simpa using hlen

theorem allocated : q.allocated = q.live.length := by
  obtain ⟨h, rfl, hi⟩ := h.book
  exact hi.allocated

theorem isFull_iff : q.isFull = true ↔ (q.numEntries : Int) - q.numReserve < q.live.length := by
  obtain ⟨h, rfl, hi⟩ := h.book
  simp [isFull, hi.allocated]

theorem pending (hi : i ∈ q.readyList.values) : i ∈ q.live ∧ (q.registers i).inService = false := by
  obtain ⟨h, rfl, hinv⟩ := h.book
  exact (hinv.ready i).mp hi

omit h in
theorem create (numEntries reserve : Nat) : (MSHRQueue.create numEntries reserve).Good :=
  ⟨⟨_, rfl, MSHRHistory.inv_create ..⟩, nofun, fun _ _ => rfl⟩

theorem changed (hi : i ∈ q.live) (hc : q.Changed q' i)
    (hbook : ∃ h : MSHRHistory, h.queue = q' ∧ h.Inv) (hm : (q'.registers i).Sound) : q'.Good := by
  refine ⟨hbook, fun j hj => ?_, fun j hj => ?_⟩
  · by_cases hji : j = i
    · exact hji ▸ hm
    · rw [hc.others j hji]
      exact h.sound j (hc.live ▸ hj)
  · have hfree : j ∈ q.freeList := hc.free ▸ hj
    have hji : j ≠ i := by
      rintro rfl
      exact h.not_live hfree hi
    rw [hc.others j hji]
    exact h.empty j hfree

theorem set (hi : i ∈ q.live) (hs : MSHRHistory.SamePlace (q.registers i) m) (hm : m.Sound) :
    (q.set i m).Good ∧ q.Changed (q.set i m) i := by
  have hc : q.Changed (q.set i m) i := ⟨rfl, rfl, fun j hj => update_of_ne hj .., rfl, rfl⟩
  refine ⟨h.changed hi hc ?_ ?_, hc⟩
  · obtain ⟨hist, rfl, hinv⟩ := h.book
    exact ⟨_, rfl, hinv.set hi hs⟩
  · simpa [MSHRQueue.set] using hm

theorem allocate {now addr size tick order : Nat} {pkt : Packet}
    (ha : q.allocate now addr size pkt tick order = .ok (q', i)) :
    q'.Good ∧ q.Taken q' i ∧ (q.registers i).Empty ∧
      ∃ m, (q.registers i).allocate now addr size pkt tick order = .ok m ∧
        ∃ a r, q'.registers i = { m with allocIter := a, readyIter := r } := by
  obtain ⟨m, a, r, hm, hregs, hlive, hfree, hsize⟩ := MSHRHistory.allocate_eq ha
  have hmem : i ∈ q.freeList := hfree ▸ mem_cons_self
  have hempty := h.empty i hmem
  have hself : q'.registers i = { m with allocIter := a, readyIter := r } := by
    rw [hregs, update_self]
  have hother : ∀ j, j ≠ i → q'.registers j = q.registers j := fun j hj => by
    rw [hregs, update_of_ne hj]
  refine ⟨⟨?_, fun j hj => ?_, fun j hj => ?_⟩, ⟨hlive, hfree, hother, hsize⟩, hempty,
    m, hm, a, r, hself⟩
  · obtain ⟨hist, rfl, hinv⟩ := h.book
    obtain ⟨q2, hq2, hinv2⟩ := hinv.allocate hfree now addr size pkt tick order
    rw [hq2] at ha
    cases ha
    exact ⟨_, rfl, hinv2⟩
  · by_cases hji : j = i
    · subst hji
      have hs := (MSHR.allocate_targets hempty hm).1
      rw [hself]
      exact { hs with }
    · rw [hother j hji]
      have hj : j ∈ q.live ++ [i] := hlive ▸ hj
      simp only [mem_append, mem_singleton, hji, or_false] at hj
      exact h.sound j hj
  · have hji : j ≠ i := by
      rintro rfl
      have hn : q.freeList.Nodup := by
        obtain ⟨hist, rfl, hinv⟩ := h.book
        exact hinv.nodup.1
      rw [hfree] at hn
      exact (nodup_cons.mp hn).1 hj
    rw [hother j hji]
    exact h.empty j (hfree ▸ mem_cons_of_mem _ hj)

theorem allocate_ok (hfree : q.freeList ≠ []) (now addr size : Nat) (pkt : Packet)
    (tick order : Nat) : ∃ r, q.allocate now addr size pkt tick order = .ok r := by
  obtain ⟨hist, rfl, hinv⟩ := h.book
  obtain ⟨i, rest, hfree⟩ := exists_cons_of_ne_nil hfree
  obtain ⟨q2, hq2, -⟩ := hinv.allocate hfree now addr size pkt tick order
  exact ⟨_, hq2⟩

theorem deallocate (hi : i ∈ q.live) (hd : q.deallocate i = .ok q')
    (hdef : (q.registers i).deferredTargets.list = []) :
    q'.Good ∧ q.Freed q' i ∧ (q.registers i).targets.list = [] := by
  obtain ⟨m, hm, hq⟩ := MSHRHistory.deallocateOne_ok hd
  obtain ⟨htargets, hempty, hsame, hserv⟩ := MSHR.deallocate_targets hm
  have hnodup := h.nodup
  have hlive : q'.live = q.live.erase i := by
    obtain ⟨hist, rfl, hinv⟩ := h.book
    subst hq
    exact IterList.values_erase (hinv.allocIter i hi) hnodup
  have hregs : q'.registers = update q.registers i m := by rw [hq]
  have hfree : q'.freeList = i :: q.freeList := by rw [hq]
  have hother : ∀ j, j ≠ i → q'.registers j = q.registers j := fun j hj => by
    rw [hregs, update_of_ne hj]
  refine ⟨⟨?_, fun j hj => ?_, fun j hj => ?_⟩,
    ⟨hlive, hfree, hother, by rw [hq], by rw [hq]⟩, htargets⟩
  · obtain ⟨hist, rfl, hinv⟩ := h.book
    exact ⟨_, rfl, hinv.deallocate hi hd⟩
  · rw [hlive, hnodup.mem_erase_iff] at hj
    rw [hother j hj.1]
    exact h.sound j hj.2
  · rw [hfree, mem_cons] at hj
    by_cases hji : j = i
    · subst hji
      rw [hregs, update_self, MSHR.Empty, MSHR.allTargets, hempty, hsame, hdef]
      rfl
    · rw [hother j hji]
      exact h.empty j (hj.resolve_left hji)

theorem markInService {pkt : Packet} (hi : i ∈ q.live) (hs : q.markInService i pkt = .ok q') :
    q'.Good ∧ (q.registers i).inService = false ∧
      (q.Freed q' i ∧ (∃ t, (q.registers i).allTargets = [t] ∧ t.isCPU = true ∧
        t.pkt.needsResponse = false) ∨
        q.Changed q' i ∧ (q'.registers i).inService = true ∧
          (q'.registers i).allTargets = (q.registers i).allTargets ∧
          (q'.registers i).ntargets = (q.registers i).ntargets ∧
          (q'.registers i).deferredTargets.list = []) := by
  have hsound := h.sound i hi
  obtain ⟨⟨m, noResponse⟩, hmark, hs⟩ := bind_eq_ok.mp hs
  obtain ⟨hpend, hcases⟩ := MSHR.markInService_targets hsound hmark
  have hdef := hsound.deferred hpend
  rcases hcases with ⟨rfl, rfl, t, ts, hts, hawait⟩ | ⟨rfl, hserv, hall, hn, hmdef, -, hm⟩
  · obtain ⟨hpop, hin, hrest, hsamedef⟩ := MSHR.popTarget_targets hsound hts
    obtain ⟨hgood, hchanged⟩ := h.set hi (MSHRHistory.samePlace_popTarget _) hpop
    have hself : (q.set i (q.registers i).popTarget).registers i = (q.registers i).popTarget :=
      update_self ..
    obtain ⟨hgood', hfreed, htargets⟩ := hgood.deallocate hi hs (by rw [hself, hsamedef, hdef])
    have hnil : ts = [] := by
      rw [hself, hrest] at htargets
      exact htargets
    refine ⟨hgood', hpend, .inl ⟨⟨hfreed.live, hfreed.free, fun j hj => ?_, hfreed.size⟩, t,
      ?_, hawait⟩⟩
    · rw [hfreed.others j hj, hchanged.others j hj]
    · simp [MSHR.allTargets, hts, hnil, hdef]
  · simp only [Bool.false_eq_true, if_false] at hs
    obtain ⟨l, hl, hs⟩ := bind_eq_ok.mp hs
    cases MSHRHistory.eraseNode_ok hl
    cases hs
    have hself : (q.set i m).registers i = m := update_self ..
    refine ⟨h.changed hi ?hc ?_ (hself.symm ▸ hm), hpend, .inr ⟨?hc, ?_, ?_, ?_, ?_⟩⟩
    case hc => exact ⟨rfl, rfl, fun j hj => update_of_ne hj .., rfl, rfl⟩
    · obtain ⟨hist, rfl, hinv⟩ := h.book
      refine ⟨_, rfl, hinv.markInService hi hpend (?_ : hist.queue.markInService i pkt = _)⟩
      simp only [markInService, hmark, ok_bind, Bool.false_eq_true, if_false, hl]
      rfl
    · exact hself.symm ▸ hserv
    · exact hself.symm ▸ hall
    · exact hself.symm ▸ hn
    · exact hself.symm ▸ hmdef

theorem markPending (hi : i ∈ q.live) (hs : q.markPending i = .ok q')
    (hdef : (q.registers i).deferredTargets.list = []) :
    q'.Good ∧ q.Changed q' i ∧ (q.registers i).inService = true ∧ (q'.registers i).inService = false ∧
      (q'.registers i).allTargets = (q.registers i).allTargets ∧
      (q'.registers i).ntargets = (q.registers i).ntargets ∧
      (q'.registers i).deferredTargets.list = [] := by
  have hok := hs
  simp only [MSHRQueue.markPending, addToReadyList, bind_eq_ok, ensure_eq_ok, pure_eq_ok] at hs
  obtain ⟨_, hserv, ⟨q1, r⟩, ⟨k, -, hadd⟩, hs⟩ := hs
  cases hadd
  cases hs
  have hsound := h.sound i hi
  refine ⟨h.changed hi ?hc ?_ ?_, ?hc, hserv, ?_, ?_, ?_, ?_⟩
  case hc => exact ⟨rfl, rfl, fun j hj => by simp [MSHRQueue.set, update_of_ne hj], rfl, rfl⟩
  · obtain ⟨hist, rfl, hinv⟩ := h.book
    obtain ⟨q2, hq2, hinv2⟩ := hinv.markPending hi hserv
    rw [hq2] at hok
    cases hok
    exact ⟨_, rfl, hinv2⟩
  · simp only [MSHRQueue.set, update_self, update_idem]
    exact ⟨hsound.count, fun _ => hdef, hsound.fromCPU⟩
  all_goals simp [MSHRQueue.set, MSHR.allTargets, hdef]

end Good

theorem gather_congr {f : MSHR → List α} {l : List Nat}
    (h : ∀ j ∈ l, q'.registers j = q.registers j) :
    (l.flatMap fun j => f (q'.registers j)) = l.flatMap fun j => f (q.registers j) :=
  flatMap_congr fun j hj => by rw [h j hj]

theorem Taken.gather {f : MSHR → List α} (h : q.Taken q' i) (hi : i ∉ q.live) :
    q'.gather f = q.gather f ++ f (q'.registers i) := by
  have hrest : ∀ j ∈ q.live, q'.registers j = q.registers j := by
    intro j hj
    refine h.others j ?_
    rintro rfl
    exact hi hj
  simp [MSHRQueue.gather, h.live, List.flatMap_append, gather_congr hrest]

theorem gather_perm (hi : i ∈ q.live) :
    (q.gather f).Perm (f (q.registers i) ++ (q.live.erase i).flatMap fun j => f (q.registers j)) := by
  have h := (perm_cons_erase hi).flatMap_right fun j => f (q.registers j)
  simpa [MSHRQueue.gather] using h

theorem Freed.gather (h : q.Freed q' i) (hn : q.live.Nodup) (hi : i ∈ q.live) :
    (q.gather f).Perm (f (q.registers i) ++ q'.gather f) := by
  have hrest : ∀ j ∈ q.live.erase i, q'.registers j = q.registers j := fun j hj =>
    h.others j (hn.mem_erase_iff.mp hj).1
  have hgather : q'.gather f = (q.live.erase i).flatMap fun j => f (q.registers j) := by
    rw [MSHRQueue.gather, h.live, gather_congr hrest]
  rw [hgather]
  exact gather_perm hi

theorem Changed.gather {f : MSHR → List α} (h : q.Changed q' i) (hn : q.live.Nodup) (hi : i ∈ q.live) :
    ∃ rest, (q.gather f).Perm (f (q.registers i) ++ rest) ∧
      (q'.gather f).Perm (f (q'.registers i) ++ rest) := by
  have hrest : ∀ j ∈ q.live.erase i, q'.registers j = q.registers j := fun j hj =>
    h.others j (hn.mem_erase_iff.mp hj).1
  refine ⟨_, gather_perm hi, ?_⟩
  rw [← gather_congr hrest, ← h.live]
  exact gather_perm (h.live ▸ hi)

end MSHRQueue

end Gem5
