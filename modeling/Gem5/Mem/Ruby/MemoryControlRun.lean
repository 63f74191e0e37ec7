import Gem5.Lib.Run
import Gem5.Lib.Window
import Gem5.Mem.Ruby.MemoryControl

/-!
# Legal schedules of the memory controller

Two invariants that share no field carry the proof. The clocks: the counters of the banks
and of the bus and the shift registers agree with the list of past activates, of which there
is at most one per cycle because every activate occupies the bus. The queues: for every bank
the requests sent back, queued and still to be moved are those that arrived, in order.
-/

namespace Gem5

open Lib List Nat Function RubyMemoryControl

namespace MemoryControlConfig

variable {c : MemoryControlConfig} {bank : Nat}

theorem getBank_lt (c : MemoryControlConfig) (addr : Nat) : c.getBank addr < c.totalBanks := by
  simp only [getBank, totalBanks, banksPerRank, ranksPerDimm, dimmsPerChannel,
    Nat.and_two_pow_sub_one_eq_mod]
  have hdimm := Nat.mod_lt (addr >>> c.dimmBit0.val) (Nat.two_pow_pos c.dimmsPerChannelBits)
  have hrank := Nat.mod_lt (addr >>> c.rankBit0.val) (Nat.two_pow_pos c.ranksPerDimmBits)
  have hbank := Nat.mod_lt (addr >>> c.bankBit0.val) (Nat.two_pow_pos c.banksPerRankBits)
  nlinarith [Nat.mul_le_mul_right (2 ^ c.ranksPerDimmBits * 2 ^ c.banksPerRankBits)
    (Nat.succ_le_of_lt hdimm), Nat.mul_le_mul_right (2 ^ c.banksPerRankBits) (Nat.succ_le_of_lt hrank)]

theorem totalBanks_pos (c : MemoryControlConfig) : 0 < c.totalBanks :=
  (c.getBank_lt 0).pos

theorem getRank_eq (h : bank < c.totalBanks) : c.getRank bank = .ok (bank / c.banksPerRank) := by
  have hrank : bank / c.banksPerRank < c.ranksPerDimm * c.dimmsPerChannel := by
    rw [Nat.div_lt_iff_lt_mul (show 0 < c.banksPerRank from Nat.two_pow_pos _)]
    calc bank < c.totalBanks := h
      _ = c.ranksPerDimm * c.dimmsPerChannel * c.banksPerRank := by rw [totalBanks]; ring
  rw [getRank, decide_eq_true hrank]
  rfl

end MemoryControlConfig

section Clocks

variable (c : MemoryControlConfig)

def stampsOf (activates : List (Nat × Nat)) (rank : Nat) : List Nat :=
  (activates.filter (·.2 / c.banksPerRank = rank)).map Prod.fst

structure Clocked (cycle : Nat) (activates : List (Nat × Nat)) (busy : Nat → Nat) (basic : Nat)
    (shift : Nat → Nat) (count : Nat → Int) : Prop where
  sorted : activates.Pairwise (·.1 < ·.1)
  past : ∀ a ∈ activates, a.1 ≤ cycle
  bus : ∀ a ∈ activates, a.1 = cycle → 0 < basic
  cooling : ∀ a ∈ activates, a.1 + c.bankBusyTime ≤ cycle + busy a.2
  spaced : activates.Pairwise fun a b => a.2 = b.2 → a.1 + c.bankBusyTime ≤ b.1
  register : ∀ rank, Register c.tFaw cycle (stampsOf c activates rank) (shift rank)
  counted : ∀ rank, count rank = (inWindow c.tFaw cycle (stampsOf c activates rank)).length
  limit : 0 < c.tFaw → ∀ rank, count rank ≤ activatePerTfaw

def markedShift (shift : Nat → Nat) (rank : Nat) : Nat → Nat :=
  if c.tFaw = 0 then shift else update shift rank (shift rank ||| 2 ^ (c.tFaw - 1))

def markedCount (count : Nat → Int) (rank : Nat) : Nat → Int :=
  if c.tFaw = 0 then count else update count rank (count rank + 1)

variable {c} {cycle : Nat} {activates : List (Nat × Nat)} {busy : Nat → Nat} {basic : Nat}
  {shift : Nat → Nat} {count : Nat → Int}

theorem clocked_start (c : MemoryControlConfig) :
    Clocked c 0 [] (fun _ => 0) 0 (fun _ => 0) (fun _ => 0) where
  sorted := .nil
  past := forall_mem_nil _
  bus := forall_mem_nil _
  cooling := forall_mem_nil _
  spaced := .nil
  register _ := register_nil _ _
  counted _ := rfl
  limit _ _ := by decide

theorem stampsOf_append (a : Nat × Nat) (rank : Nat) :
    stampsOf c (activates ++ [a]) rank = if a.2 / c.banksPerRank = rank then
      stampsOf c activates rank ++ [a.1] else stampsOf c activates rank := by
  by_cases h : a.2 / c.banksPerRank = rank
  · simp [stampsOf, h]
  · simp [stampsOf, h]

namespace Clocked

variable (h : Clocked c cycle activates busy basic shift count)

include h

theorem stamps_le (rank : Nat) : ∀ stamp ∈ stampsOf c activates rank, stamp ≤ cycle := by
  intro stamp hstamp
  obtain ⟨a, ha, rfl⟩ := mem_map.mp hstamp
  exact h.past a (mem_of_mem_filter ha)

theorem stamps_nodup (rank : Nat) : (stampsOf c activates rank).Nodup := by
  refine pairwise_map.mpr ((h.sorted.sublist filter_sublist).imp fun hlt => ?_)
  exact hlt.ne

theorem advance : Clocked c (cycle + 1) activates (fun b => busy b - 1) (basic - 1)
    (fun r => shift r >>> 1) (fun r => if (shift r).testBit 0 then count r - 1 else count r) := by
  have hcount : ∀ r, (if (shift r).testBit 0 then count r - 1 else count r) =
      (inWindow c.tFaw (cycle + 1) (stampsOf c activates r)).length := by
    intro r
    have hlength := (h.register r).length_inWindow (h.stamps_nodup r) (h.stamps_le r)
    rw [h.counted r, hlength]
    cases (shift r).testBit 0 <;> simp
  refine ⟨h.sorted, fun a ha => (h.past a ha).trans (le_succ _), fun a ha heq => ?_,
    fun a ha => ?_, h.spaced, fun r => (h.register r).advance (h.stamps_le r),
    hcount, fun hpos r => ?_⟩
  · have := h.past a ha
    omega
  · have := h.cooling a ha
    omega
  · refine le_trans ?_ (h.limit hpos r)
    split
    · omega
    · exact le_rfl

theorem activate (hbusy : busy bank = 0) (hbasic : basic = 0)
    (hcount : count (bank / c.banksPerRank) < activatePerTfaw) (hbus : 1 ≤ c.basicBusBusyTime) :
    Clocked c cycle (activates ++ [(cycle, bank)]) (update busy bank c.bankBusyTime) c.basicBusBusyTime
      (markedShift c shift (bank / c.banksPerRank)) (markedCount c count (bank / c.banksPerRank)) := by
  have hbefore : ∀ a ∈ activates, a.1 < cycle := by
    intro a ha
    refine lt_of_le_of_ne (h.past a ha) fun heq => ?_
    have := h.bus a ha heq
    omega
  refine ⟨?_, ?_, fun _ _ _ => hbus, ?_, ?_, fun r => ?_, fun r => ?_, fun hpos r => ?_⟩
  · refine pairwise_append.mpr ⟨h.sorted, pairwise_singleton _ _, fun a ha b hb => ?_⟩
    rw [mem_singleton.mp hb]
    exact hbefore a ha
  · intro a ha
    rcases mem_append.mp ha with ha | ha
    · exact h.past a ha
    · rw [mem_singleton.mp ha]
  · intro a ha
    rw [update_apply]
    split
    · rcases mem_append.mp ha with ha | ha
      · have := hbefore a ha
        omega
      · rw [mem_singleton.mp ha]
    · rename_i hbank
      rcases mem_append.mp ha with ha | ha
      · exact h.cooling a ha
      · rw [mem_singleton.mp ha] at hbank
        exact absurd rfl hbank
  · refine pairwise_append.mpr ⟨h.spaced, pairwise_singleton _ _, fun a ha b hb hsame => ?_⟩
    rw [mem_singleton.mp hb] at hsame ⊢
    have hlast := h.cooling a ha
    rw [hsame, hbusy] at hlast
    exact hlast
  · rw [stampsOf_append, markedShift]
    by_cases hzero : c.tFaw = 0
    · rw [if_pos hzero]
      intro i
      have hbit := h.register r i
      rw [hzero] at hbit ⊢
      simpa using hbit
    · rw [if_neg hzero]
      by_cases hr : bank / c.banksPerRank = r
      · subst hr
        rw [if_pos rfl, update_self]
        exact (h.register _).mark (pos_of_ne_zero hzero)
      · rw [if_neg hr, update_of_ne (Ne.symm hr)]
        exact h.register r
  · rw [stampsOf_append, markedCount]
    by_cases hzero : c.tFaw = 0
    · rw [if_pos hzero, h.counted r, hzero]
      split
      · simp [inWindow]
      · rfl
    · rw [if_neg hzero]
      by_cases hr : bank / c.banksPerRank = r
      · subst hr
        rw [if_pos rfl, update_self, h.counted, length_inWindow_mark (pos_of_ne_zero hzero)]
        rfl
      · rw [if_neg hr, update_of_ne (Ne.symm hr)]
        exact h.counted r
  · rw [markedCount, if_neg hpos.ne', update_apply]
    split
    · exact hcount
    · exact h.limit hpos r

end Clocked

end Clocks

def MemoryNode.untimed (n : MemoryNode) : MemoryNode := { n with time := 0 }

section Queues

variable (c : MemoryControlConfig)

def requests (bank : Nat) (l : List MemoryNode) : List MemoryNode :=
  (l.filter (c.getBank ·.addr = bank)).map (·.untimed)

structure Queued (now : Nat) (arrivals sent input : List MemoryNode)
    (queues : Nat → List MemoryNode) : Prop where
  order : ∀ b, requests c b sent ++ (queues b).map (·.untimed) ++ requests c b input =
    requests c b arrivals
  sorted : sent.Pairwise (·.time ≤ ·.time)
  past : ∀ n ∈ sent, n.time ≤ RubyMemoryControl.responseTime c now c.memCtlLatency

variable {c} {now : Nat} {arrivals sent input : List MemoryNode} {queues : Nat → List MemoryNode}

theorem requests_append (l l' : List MemoryNode) :
    requests c bank (l ++ l') = requests c bank l ++ requests c bank l' := by
  simp [requests]

theorem requests_singleton (n : MemoryNode) :
    requests c bank [n] = if c.getBank n.addr = bank then [n.untimed] else [] := by
  by_cases h : c.getBank n.addr = bank
  · simp [requests, h]
  · simp [requests, h]

theorem getBank_of_mem_requests (arrivals : List MemoryNode) {n : MemoryNode}
    (h : n.untimed ∈ requests c bank arrivals) : c.getBank n.addr = bank := by
  obtain ⟨m, hm, heq⟩ := mem_map.mp h
  have haddr : m.untimed.addr = n.untimed.addr := congrArg MemoryNode.addr heq
  dsimp only [MemoryNode.untimed] at haddr
  rw [← haddr]
  simpa using (mem_filter.mp hm).2

namespace Queued

variable (h : Queued c now arrivals sent input queues)

include h

theorem home (hreq : req ∈ queues bank) : c.getBank req.addr = bank := by
  refine getBank_of_mem_requests arrivals ?_
  rw [← h.order bank]
  exact mem_append_left _ (mem_append_right _ (mem_map_of_mem hreq))

theorem later (hnow : now ≤ now') : Queued c now' arrivals sent input queues where
  order := h.order
  sorted := h.sorted
  past n hn := (h.past n hn).trans (Nat.div_le_div_right (Nat.add_le_add_right hnow _))

theorem arrive (n : MemoryNode) : Queued c now (arrivals ++ [n]) sent (input ++ [n]) queues where
  order b := by rw [requests_append, requests_append, ← append_assoc, h.order b]
  sorted := h.sorted
  past := h.past

theorem issue (hqueue : queues bank = req :: rest) :
    Queued c now arrivals (sent ++
      [{ req with time := RubyMemoryControl.responseTime c now c.memCtlLatency }]) input
      (update queues bank rest) := by
  have hreq : req ∈ queues bank := by
    rw [hqueue]
    exact mem_cons_self
  have hhome := h.home hreq
  refine ⟨fun b => ?_, ?_, ?_⟩
  · rw [← h.order b, requests_append, requests_singleton]
    by_cases hb : b = bank
    · subst hb
      rw [if_pos hhome, update_self, hqueue]
      simp [MemoryNode.untimed]
    · rw [if_neg (by rw [hhome]; exact Ne.symm hb), update_of_ne hb, append_nil]
  · refine pairwise_append.mpr ⟨h.sorted, pairwise_singleton _ _, fun a ha b hb => ?_⟩
    rw [mem_singleton.mp hb]
    exact h.past a ha
  · intro n hn
    rcases mem_append.mp hn with hn | hn
    · exact h.past n hn
    · rw [mem_singleton.mp hn]

end Queued

theorem Queued.move (h : Queued c now arrivals sent (req :: rest) queues) :
    Queued c now arrivals sent rest
      (update queues (c.getBank req.addr) (queues (c.getBank req.addr) ++ [req])) where
  order b := by
    rw [← h.order b, show requests c b (req :: rest) = _ from requests_append [req] rest,
      requests_singleton]
    by_cases hb : b = c.getBank req.addr
    · subst hb
      rw [if_pos rfl, update_self]
      simp
    · rw [if_neg (Ne.symm hb), update_of_ne hb, nil_append]
  sorted := h.sorted
  past := h.past

end Queues

namespace RubyMemoryControl

section Issue

variable {c : MemoryControlConfig} {s : RubyMemoryControl} {now bank : Nat}

theorem markTfaw_eq (h : c.tFaw ≤ 31) (s : RubyMemoryControl) (rank : Nat) :
    markTfaw c s rank =
      .ok { s with tfawShift := markedShift c s.tfawShift rank,
                   tfawCount := markedCount c s.tfawCount rank } := by
  rw [markTfaw, markedShift, markedCount]
  by_cases hzero : c.tFaw = 0
  · simp only [hzero, ne_eq, not_true_eq_false, if_false, if_true]
    rfl
  · rw [if_pos hzero, intShift, if_pos (by omega)]
    simp only [if_neg hzero]
    rfl

def refreshed (c : MemoryControlConfig) (s : RubyMemoryControl) (bank : Nat) : RubyMemoryControl :=
  { s with
    needRefresh := s.needRefresh - 1
    refreshBank := if c.totalBanks ≤ s.refreshBank + 1 then 0 else s.refreshBank + 1
    bankBusyCounter := update s.bankBusyCounter bank c.bankBusyTime
    busBusyCounterBasic := c.basicBusBusyTime
    busBusyCounterWrite := c.basicBusBusyTime
    busBusyCounterReadNewRank := c.basicBusBusyTime
    tfawShift := markedShift c s.tfawShift (bank / c.banksPerRank)
    tfawCount := markedCount c s.tfawCount (bank / c.banksPerRank) }

def Free (c : MemoryControlConfig) (s : RubyMemoryControl) (bank : Nat) : Prop :=
  s.bankBusyCounter bank = 0 ∧ s.busBusyCounterBasic = 0 ∧
    s.tfawCount (bank / c.banksPerRank) < activatePerTfaw

theorem issueRefresh_cases (htfaw : c.tFaw ≤ 31) (hb : bank < c.totalBanks) :
    issueRefresh c s bank = .ok (false, s) ∨ Free c s bank ∧
      issueRefresh c s bank = .ok (true, refreshed c s bank) := by
  rw [issueRefresh]
  by_cases hdue : s.needRefresh = 0 ∨ s.refreshBank ≠ bank
  · rw [if_pos hdue]
    exact .inl rfl
  rw [if_neg hdue]
  by_cases hbusy : 0 < s.bankBusyCounter bank
  · rw [if_pos hbusy]
    exact .inl rfl
  rw [if_neg hbusy]
  by_cases hbasic : 0 < s.busBusyCounterBasic
  · rw [if_pos hbasic]
    exact .inl rfl
  rw [if_neg hbasic, c.getRank_eq hb, ok_bind]
  by_cases hfull : activatePerTfaw ≤ s.tfawCount (bank / c.banksPerRank)
  · rw [if_pos hfull]
    exact .inl rfl
  rw [if_neg hfull, markTfaw_eq htfaw]
  exact .inr ⟨⟨by omega, by omega, by omega⟩, rfl⟩

theorem queueReady_cases (hfixed : c.memFixedDelay = 0) (hb : bank < c.totalBanks)
    (hqueue : s.bankQueues bank ≠ []) :
    ∃ ready, queueReady c s bank = .ok ready ∧ (ready = true → Free c s bank) := by
  obtain ⟨req, rest, hreq⟩ := exists_cons_of_ne_nil hqueue
  rw [queueReady, hfixed]
  by_cases hbusy : 0 < s.bankBusyCounter bank
  · exact ⟨false, by rw [if_pos ⟨hbusy, rfl⟩]; rfl, by simp⟩
  rw [if_neg (by simp [hbusy]), if_neg (by simp)]
  by_cases hage : 2 * c.bankBusyTime < s.ageCounter ∧ s.oldRequest bank = false
  · exact ⟨false, by rw [if_pos hage]; rfl, by simp⟩
  rw [if_neg hage]
  by_cases hsame : s.busBusyCounterBasic = c.basicBusBusyTime
  · exact ⟨false, by rw [if_pos hsame]; rfl, by simp⟩
  rw [if_neg hsame]
  by_cases hbasic : 0 < s.busBusyCounterBasic
  · exact ⟨false, by rw [if_pos hbasic]; rfl, by simp⟩
  rw [if_neg hbasic, c.getRank_eq hb, ok_bind]
  by_cases hfull : activatePerTfaw ≤ s.tfawCount (bank / c.banksPerRank)
  · exact ⟨false, by rw [if_pos hfull]; rfl, by simp⟩
  rw [if_neg hfull, hreq]
  have hfree : Free c s bank := ⟨by omega, by omega, by omega⟩
  dsimp only [List.head?_cons, need]
  rw [ok_bind]
  split
  · exact ⟨false, rfl, by simp⟩
  · split
    · exact ⟨false, rfl, by simp⟩
    · exact ⟨true, rfl, fun _ => hfree⟩

theorem issueRequest_spec (now : Nat) (htfaw : c.tFaw ≤ 31) (hfixed : c.memFixedDelay = 0)
    (hb : bank < c.totalBanks) (hqueue : s.bankQueues bank = req :: rest) :
    ∃ s', issueRequest c s now bank = .ok s' ∧
      s'.bankBusyCounter = update s.bankBusyCounter bank c.bankBusyTime ∧
      s'.busBusyCounterBasic = c.basicBusBusyTime ∧
        s'.tfawShift = markedShift c s.tfawShift (bank / c.banksPerRank) ∧
      s'.tfawCount = markedCount c s.tfawCount (bank / c.banksPerRank) ∧
      s'.responseQueue = s.responseQueue ++ [{ req with time := responseTime c now c.memCtlLatency }] ∧
      s'.bankQueues = update s.bankQueues bank rest ∧ s'.inputQueue = s.inputQueue ∧
      s'.roundRobin = s.roundRobin ∧ s'.idleCount = s.idleCount ∧ s'.event = s.event ∧
      s'.msgCounter = s.msgCounter := by
  rw [issueRequest, c.getRank_eq hb, ok_bind, hqueue]
  dsimp only [List.head?_cons, need]
  rw [ok_bind, markTfaw_eq htfaw, ok_bind, hfixed]
  split
  · exact ⟨_, rfl, rfl, rfl, rfl, rfl, rfl, rfl, rfl, rfl, rfl, rfl, rfl⟩
  · exact ⟨_, rfl, rfl, rfl, rfl, rfl, rfl, rfl, rfl, rfl, rfl, rfl, rfl⟩

end Issue

end RubyMemoryControl

namespace MemoryControlWorld

variable {c : MemoryControlConfig} {w : MemoryControlWorld} {now bank : Nat} {visited : Nat → Prop}
  {p : RubyMemoryControl × List Nat} {s : RubyMemoryControl} {activates : List Nat}

structure Scanning (c : MemoryControlConfig) (w : MemoryControlWorld) (now : Nat)
    (visited : Nat → Prop) (bank : Nat) (p : RubyMemoryControl × List Nat) : Prop where
  clocked : Clocked c (w.cycle + 1) (w.activates ++ p.2.map (w.cycle + 1, ·)) p.1.bankBusyCounter
    p.1.busBusyCounterBasic
    p.1.tfawShift p.1.tfawCount
  queued : Queued c now w.arrivals (w.taken ++ p.1.responseQueue) p.1.inputQueue p.1.bankQueues
  awake : ∀ b, visited b → p.1.bankQueues b ≠ [] → p.1.idleCount = idleCountMaxValue
  robin : p.1.roundRobin = bank
  event : p.1.event = none
  counter : p.1.msgCounter = w.control.msgCounter

structure Fits (c : MemoryControlConfig) : Prop where
  tFaw : c.tFaw ≤ 31
  bus : 1 ≤ c.basicBusBusyTime
  fixed : c.memFixedDelay = 0

theorem serveQueue_meets (hc : Fits c) (hb : bank < c.totalBanks)
    (h : Scanning c w now visited bank (s, activates)) :
    Meets (Scanning c w now (fun b => visited b ∨ b = bank) bank) (fun _ => False)
      (s.serveQueue c now bank activates) := by
  rw [serveQueue]
  by_cases hempty : s.bankQueues bank = []
  · rw [if_pos hempty]
    refine .pure { h with awake := fun b hb hne => ?_ }
    rcases hb with hb | rfl
    · exact h.awake b hb hne
    · exact absurd hempty hne
  rw [if_neg hempty]
  dsimp only
  obtain ⟨ready, hready, hfree⟩ :=
    queueReady_cases (s := { s with idleCount := idleCountMaxValue }) hc.fixed hb hempty
  rw [hready, ok_bind]
  cases ready with
  | false => exact .pure { h with awake := fun _ _ _ => rfl }
  | true =>
    obtain ⟨req, rest, hqueue⟩ := exists_cons_of_ne_nil hempty
    obtain ⟨s', heq, hbusy, hbasic, hshift, hcount, hresponse, hqueues, hinput, hrobin, hidle,
        hevent, hcounter⟩ :=
      issueRequest_spec (s := { s with idleCount := idleCountMaxValue }) now hc.tFaw hc.fixed hb hqueue
    obtain ⟨hfree, hbus, hroom⟩ := hfree rfl
    rw [if_pos rfl, heq, ok_bind]
    refine .pure ⟨?_, ?_, fun _ _ _ => hidle, hrobin.trans h.robin, hevent.trans h.event,
      hcounter.trans h.counter⟩
    · dsimp only
      rw [hbusy, hbasic, hshift, hcount, map_append, ← append_assoc]
      exact h.clocked.activate hfree hbus hroom hc.bus
    · dsimp only
      rw [hresponse, hqueues, hinput, ← append_assoc]
      exact h.queued.issue hqueue

theorem scanBank_meets (hc : Fits c) (h : Scanning c w now visited bank p) :
    Meets (Scanning c w now (fun b => visited b ∨ b = nextBank c bank) (nextBank c bank))
      (fun _ => False) (scanBank c now p) := by
  have hb : nextBank c bank < c.totalBanks := by
    have := c.totalBanks_pos
    rw [nextBank]
    split <;> omega
  rw [scanBank, h.robin]
  rcases issueRefresh_cases (s := { p.1 with roundRobin := nextBank c bank }) hc.tFaw
    hb with heq | ⟨hfree, heq⟩
  · rw [heq, ok_bind]
    exact serveQueue_meets hc hb { h with robin := rfl }
  · rw [heq, ok_bind]
    obtain ⟨hfree, hbus, hroom⟩ := hfree
    refine serveQueue_meets hc hb { h with clocked := ?_, robin := rfl }
    rw [if_pos rfl, map_append, ← append_assoc]
    exact h.clocked.activate hfree hbus hroom hc.bus

theorem iterate_nextBank (start i : Nat) (h : start < c.totalBanks) :
    (nextBank c)^[i] start = (start + i) % c.totalBanks := by
  induction i with
  | zero => exact (mod_eq_of_lt h).symm
  | succ i ih =>
    rw [Function.iterate_succ_apply', ih, nextBank, ← add_assoc, ← mod_add_mod (start + i)]
    have hlt := mod_lt (start + i) c.totalBanks_pos
    split
    · rw [show (start + i) % c.totalBanks + 1 = c.totalBanks by omega, mod_self]
    · exact (mod_eq_of_lt (by omega)).symm

theorem exists_iterate_nextBank (hstart : start < c.totalBanks) (hb : bank < c.totalBanks) :
    ∃ i < c.totalBanks, bank = (nextBank c)^[i + 1] start := by
  by_cases hle : start < bank
  · refine ⟨bank - start - 1, by omega, ?_⟩
    rw [iterate_nextBank _ _ hstart, show start + (bank - start - 1 + 1) = bank by omega,
      mod_eq_of_lt hb]
  · refine ⟨bank + c.totalBanks - start - 1, by omega, ?_⟩
    rw [iterate_nextBank _ _ hstart, show start + (bank + c.totalBanks - start - 1 + 1) = bank +
      c.totalBanks by omega, add_mod_right, mod_eq_of_lt hb]

structure Inv (c : MemoryControlConfig) (w : MemoryControlWorld) : Prop where
  clocked : Clocked c w.cycle w.activates w.control.bankBusyCounter w.control.busBusyCounterBasic
    w.control.tfawShift
    w.control.tfawCount
  queued : Queued c w.now w.arrivals (w.taken ++ w.control.responseQueue) w.control.inputQueue
    w.control.bankQueues
  robin : w.control.roundRobin < c.totalBanks
  counter : w.arrivals.map (·.msgCounter) = List.range' 1 w.control.msgCounter
  scheduled : w.control.inputQueue ≠ [] ∨ (∃ b, w.control.bankQueues b ≠ []) → w.control.event.isSome
  ahead : ∀ e ∈ w.control.event, w.now ≤ e

theorem create_inv (c : MemoryControlConfig) : Inv c (create {}) where
  clocked := clocked_start c
  queued := ⟨fun _ => rfl, .nil, forall_mem_nil _⟩
  robin := c.totalBanks_pos
  counter := rfl
  scheduled h := by simp [create] at h
  ahead e he := by cases he

theorem init_eq (hc : Fits c) : RubyMemoryControl.init c = .ok {} := by
  have hfits : c.tFaw ≤ 62 := hc.tFaw.trans (by decide)
  simp [RubyMemoryControl.init, hfits]

def RefreshOverrun (e : Fault) : Prop := e = .assertion "m_need_refresh < 10"

theorem latchRefresh_meets (hc : Fits c) (s : RubyMemoryControl) :
    Meets (fun s' => ∃ count need, s' = { s with refreshCount := count, needRefresh := need })
      RefreshOverrun
      (s.latchRefresh c) := by
  rw [latchRefresh, hc.fixed]
  refine .ite (fun _ => (Meets.ensure (E := RefreshOverrun) rfl).bind fun _ _ => .pure ⟨_, _, rfl⟩)
    fun _ => .pure ⟨_, _, rfl⟩

theorem makeBatch_eq (s : RubyMemoryControl) :
    ∃ old age, s.makeBatch c = { s with oldRequest := old, ageCounter := age } := by
  rw [makeBatch]
  split
  · exact ⟨_, _, rfl⟩
  · exact ⟨_, _, rfl⟩

structure Cycled (c : MemoryControlConfig) (w : MemoryControlWorld) (now : Nat)
    (p : RubyMemoryControl × List Nat) : Prop where
  clocked : Clocked c (w.cycle + 1) (w.activates ++ p.2.map (w.cycle + 1, ·)) p.1.bankBusyCounter
    p.1.busBusyCounterBasic
    p.1.tfawShift p.1.tfawCount
  queued : Queued c now w.arrivals (w.taken ++ p.1.responseQueue) p.1.inputQueue p.1.bankQueues
  awake : p.1.inputQueue ≠ [] ∨ (∃ b, p.1.bankQueues b ≠ []) → p.1.idleCount = idleCountMaxValue
  robin : p.1.roundRobin < c.totalBanks
  event : p.1.event = none
  counter : p.1.msgCounter = w.control.msgCounter

theorem moveInput_cycled (h : Scanning c w now (· < c.totalBanks) bank (s, activates))
    (hb : bank < c.totalBanks) :
    Cycled c w now (s.moveInput c, activates) := by
  have hclocked := h.clocked
  have hqueued := h.queued
  have hrobin : s.roundRobin < c.totalBanks := by
    rw [h.robin]
    exact hb
  rw [moveInput]
  cases hinput : s.inputQueue with
  | nil =>
    refine ⟨hclocked, hqueued, fun hsome => ?_, hrobin, h.event, h.counter⟩
    rcases hsome with hsome | ⟨b, hb⟩
    · exact absurd hinput hsome
    · obtain ⟨req, rest, hqueue⟩ := exists_cons_of_ne_nil hb
      have hreq : req ∈ s.bankQueues b := by
        rw [hqueue]
        exact mem_cons_self
      refine h.awake b ?_ hb
      rw [← hqueued.home hreq]
      exact c.getBank_lt _
  | cons req rest =>
    rw [hinput] at hqueued
    dsimp only
    split
    · exact ⟨hclocked, hqueued.move, fun _ => rfl, hrobin, h.event, h.counter⟩
    · exact ⟨hclocked, hqueued, fun _ => rfl, hrobin, h.event, h.counter⟩

theorem executeCycle_meets (hc : Fits c) (h : Inv c w) (hevent : w.control.event = some now) :
    Meets (Cycled c w now) RefreshOverrun (executeCycle c { w.control with event := none } now) := by
  rw [executeCycle]
  refine (latchRefresh_meets hc _).bind fun s hs => ?_
  obtain ⟨count, need, rfl⟩ := hs
  obtain ⟨old, age, hbatch⟩ := makeBatch_eq (c := c)
    { ({ w.control with event := none } : RubyMemoryControl).countDown with
      refreshCount := count, needRefresh := need }
  rw [hbatch]
  have hnow := h.ahead now hevent
  have hstart : Scanning c w now (fun b => ∃ i < 0, b = (nextBank c)^[i + 1] w.control.roundRobin)
      ((nextBank c)^[0] w.control.roundRobin)
      ({ ({ w.control with event := none } : RubyMemoryControl).countDown with
        refreshCount := count, needRefresh := need, oldRequest := old, ageCounter := age }, []) := by
    refine ⟨?_, h.queued.later hnow, ?_, rfl, rfl, rfl⟩
    · have hadvance := h.clocked.advance
      rw [← append_nil w.activates] at hadvance
      exact hadvance
    · rintro b ⟨i, hi, -⟩
      exact absurd hi (Nat.not_lt_zero _)
  refine (Meets.forRange (P := fun i =>
    Scanning c w now (fun b => ∃ j < i, b = (nextBank c)^[j + 1] w.control.roundRobin)
      ((nextBank c)^[i] w.control.roundRobin)) (fun i _ p hp => ?_) hstart).bind fun p hp => ?_
  · refine ((scanBank_meets hc hp).imp (fun p' hp' => ?_) fun _ => False.elim)
    rw [← Function.iterate_succ_apply' (nextBank c)] at hp'
    refine { hp' with awake := fun b hb => hp'.awake b ?_ }
    obtain ⟨j, hj, rfl⟩ := hb
    rcases Nat.lt_succ_iff_lt_or_eq.mp hj with hj | rfl
    · exact .inl ⟨j, hj, rfl⟩
    · exact .inr rfl
  · refine .pure (moveInput_cycled { hp with awake := fun b hb => hp.awake b ?_ } ?_)
    · exact exists_iterate_nextBank h.robin hb
    · rw [iterate_nextBank _ _ h.robin]
      exact Nat.mod_lt _ c.totalBanks_pos

theorem enqueue_inv (h : Inv c w) (hnow : w.now ≤ now) (hahead : ∀ e ∈ w.control.event, now ≤ e)
    (memRef : MemoryNode) :
    Inv c { w with
      control := w.control.enqueueMemRef c now memRef
      now
      arrivals := w.arrivals ++ [{ memRef with msgCounter := w.control.msgCounter + 1 }] } where
  clocked := h.clocked
  queued := (h.queued.later hnow).arrive _
  robin := h.robin
  counter := by
    dsimp only [enqueueMemRef]
    rw [map_append, h.counter, range'_1_concat, add_comm 1]
    rfl
  scheduled _ := by
    dsimp only [enqueueMemRef]
    cases w.control.event <;> rfl
  ahead e he := by
    dsimp only [enqueueMemRef] at he
    cases hevent : w.control.event with
    | none =>
      rw [hevent, Option.none_or] at he
      cases he
      exact le_clockEdge c.clock.pos
    | some t =>
      rw [hevent, Option.some_or] at he
      exact hahead e (hevent ▸ he)

theorem dequeue_meets (h : Inv c w) (hnow : w.now ≤ now) (hahead : ∀ e ∈ w.control.event, now ≤ e)
    (hready : w.control.isReady c now = true) :
    Meets (Inv c) RefreshOverrun (w.apply c (.dequeue now)) := by
  rw [apply, dequeue, hready, ensure_true]
  rw [isReady] at hready
  have hqueued := h.queued.later hnow
  cases hresponse : w.control.responseQueue with
  | nil => simp [hresponse] at hready
  | cons req rest =>
    refine .pure { h with queued := ?_, ahead := hahead }
    rwa [hresponse, ← singleton_append, ← append_assoc] at hqueued

theorem wakeup_meets (hc : Fits c) (h : Inv c w) (hevent : w.control.event = some now) :
    Meets (Inv c) RefreshOverrun (w.apply c .wakeup) := by
  rw [apply, hevent, need, ok_bind, RubyMemoryControl.wakeup, bind_assoc]
  refine (executeCycle_meets hc h hevent).bind fun p hp => ?_
  have hcounter : w.arrivals.map (·.msgCounter) = List.range' 1 p.1.msgCounter :=
    hp.counter ▸ h.counter
  dsimp only
  by_cases hidle : 0 < p.1.idleCount - 1
  · rw [if_pos hidle, hp.event]
    refine .pure ⟨hp.clocked, hp.queued, hp.robin, hcounter, fun _ => rfl, fun e he => ?_⟩
    cases he
    exact le_add_right _ _
  · rw [if_neg hidle]
    refine .pure ⟨hp.clocked, hp.queued, hp.robin, hcounter, fun hsome => ?_, fun e he => ?_⟩
    · -- what is queued has kept the counter away from zero
      rw [hp.awake hsome] at hidle
      exact absurd (by decide) hidle
    · dsimp only at he
      rw [hp.event] at he
      cases he

theorem apply_meets (hc : Fits c) (h : Inv c w) (e : MemoryControlEvent) (hadmits : w.Admits c e) :
    Meets (Inv c) RefreshOverrun (w.apply c e) := by
  cases e with
  | enqueue now message addr isMemRead latency =>
    rw [apply]
    dsimp only [enqueue]
    have hlast : (w.control.enqueueMemRef c now
      { time := curCycle c.rubyClock now + latency, msgCounter := 0, message, addr,
        isMemRead }).inputQueue.getLast? =
        some { time := curCycle c.rubyClock now + latency, msgCounter := w.control.msgCounter + 1,
               message, addr, isMemRead } :=
      List.getLast?_concat
    rw [hlast]
    exact .pure (enqueue_inv h hadmits.1 hadmits.2 _)
  | dequeue now => exact dequeue_meets h hadmits.1 hadmits.2.1 hadmits.2.2
  | wakeup =>
    obtain ⟨now, hnow⟩ := Option.isSome_iff_exists.mp hadmits
    exact wakeup_meets hc h hnow

structure Legal (c : MemoryControlConfig) (w : MemoryControlWorld) : Prop where
  once : ∀ n ∈ w.arrivals, ((w.taken ++ w.control.responseQueue).map (·.untimed)).count n.untimed +
    ((w.control.bankQueues (c.getBank n.addr)).map (·.untimed)).count n.untimed +
    (w.control.inputQueue.map (·.untimed)).count n.untimed = 1
  only : ∀ n ∈ w.taken ++ w.control.responseQueue, n.untimed ∈ w.arrivals.map (·.untimed)
  scheduled : w.control.inputQueue ≠ [] ∨ (∃ b, w.control.bankQueues b ≠ []) → w.control.event.isSome
  order : ∀ b, requests c b (w.taken ++ w.control.responseQueue) <+: requests c b w.arrivals
  cooled : w.activates.Pairwise fun a b => a.2 = b.2 → a.1 + c.bankBusyTime ≤ b.1
  window : ∀ rank, w.control.tfawCount rank =
    (inWindow c.tFaw w.cycle (stampsOf c w.activates rank)).length
  limit : 0 < c.tFaw → ∀ rank, w.control.tfawCount rank ≤ activatePerTfaw
  times : (w.taken ++ w.control.responseQueue).Pairwise (·.time ≤ ·.time)

theorem requests_eq (c : MemoryControlConfig) (b : Nat) (l : List MemoryNode) :
    requests c b l = (l.map (·.untimed)).filter (c.getBank ·.addr = b) := by
  rw [filter_map]
  rfl

theorem count_requests (c : MemoryControlConfig) (n : MemoryNode) (l : List MemoryNode) :
    (requests c (c.getBank n.addr) l).count n.untimed = (l.map (·.untimed)).count n.untimed := by
  rw [requests_eq]
  exact count_filter (by simp [MemoryNode.untimed])

theorem Inv.legal (h : Inv c w) : w.Legal c where
  once n hn := by
    have hnodup : (w.arrivals.map (·.untimed)).Nodup := by
      refine List.Nodup.of_map (·.msgCounter) ?_
      rw [map_map]
      exact h.counter ▸ nodup_range'
    have hcount := congrArg (List.count n.untimed) (h.queued.order (c.getBank n.addr))
    rw [count_append, count_append, count_requests, count_requests, count_requests,
      count_eq_one_of_mem hnodup (mem_map_of_mem hn)] at hcount
    exact hcount
  only n hn := by
    have hin : n.untimed ∈ requests c (c.getBank n.addr) w.arrivals := by
      rw [← h.queued.order]
      refine mem_append_left _ (mem_append_left _ (mem_map_of_mem (mem_filter.mpr ⟨hn, ?_⟩)))
      simp
    rw [requests_eq] at hin
    exact mem_of_mem_filter hin
  scheduled := h.scheduled
  order b := by
    rw [← h.queued.order b, append_assoc]
    exact prefix_append _ _
  cooled := h.clocked.spaced
  window := h.clocked.counted
  limit := h.clocked.limit
  times := h.queued.sorted

def oneBank (tFaw : Nat) : MemoryControlConfig where
  banksPerRankBits := 0
  ranksPerDimmBits := 0
  dimmsPerChannelBits := 0
  bankBit0 := 6
  rankBit0 := 6
  dimmBit0 := 6
  bankQueueSize := 12
  bankBusyTime := 2
  rankRankDelay := 1
  readWriteDelay := 2
  basicBusBusyTime := 1
  memCtlLatency := 3
  refreshPeriod := 100
  tFaw
  memFixedDelay := 0
  clock := 3
  rubyClock := 1

end MemoryControlWorld

end Gem5
