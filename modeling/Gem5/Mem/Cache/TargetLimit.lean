import Gem5.Mem.Cache.TagStores
import Gem5.Mem.Cache.TimingRun

/-!
# The limit on targets

A register is to take no more requests of the CPU than it has slots for targets.
The cache blocks when a request fills the last slot; snoops take slots as well,
and nothing is done about these.
-/

namespace Gem5

open Lib MissPath List

namespace MissPath

variable {p p' : MissPath} {r : MSHRRef} {n : Nat} {but : Option MSHRRef}

structure Within (n : Nat) (m : MSHR) : Prop where
  cpu : m.cpuTargets ≤ n
  deferred : m.deferredTargets.list.length < n

def Open (n : Nat) (p : MissPath) (r : MSHRRef) : Prop :=
  ((p.register r).allTargets.length < n ∨ p.noTargetMSHR = some r) ∧ (p.register r).targets.list ≠ []

structure Limited (n : Nat) (but : Option MSHRRef) (p : MissPath) : Prop where
  within : ∀ r, p.Live r → Within n (p.register r)
  slots : ∀ r, p.Live r → but ≠ some r → Open n p r

theorem Limited.update (h : Limited n but p) (helse : Elsewhere r p p')
    (hno : ∀ r', r' ≠ r → p.noTargetMSHR = some r' → p'.noTargetMSHR = some r')
    (hbut : ∀ r', r' ≠ r → but' ≠ some r' → but ≠ some r')
    (hself : p'.Live r → Within n (p'.register r) ∧ (but' ≠ some r → Open n p' r)) :
    Limited n but' p' := by
  constructor
  · intro r' hr'
    by_cases hne : r' = r
    · subst hne
      exact (hself hr').1
    · obtain ⟨hlive, hreg⟩ := helse r' hne hr'
      exact hreg ▸ h.within r' hlive
  · intro r' hr' hbut'
    by_cases hne : r' = r
    · subst hne
      exact (hself hr').2 hbut'
    · obtain ⟨hlive, hreg⟩ := helse r' hne hr'
      obtain ⟨hslot, htargets⟩ := h.slots r' hlive (hbut r' hne hbut')
      rw [Open, hreg]
      exact ⟨hslot.imp id (hno r' hne), htargets⟩

theorem cpuTargets_le (m : MSHR) : m.cpuTargets ≤ m.allTargets.length := countP_le_length

theorem limited_enqueue (hn : 2 ≤ n)
    (h : p.Inv) (hl : Limited n none p) (hs : p.Step (.enqueue now ix addr size pkt time) p') :
    Limited n none p' := by
  obtain ⟨-, honly, hno, i, htaken, hfresh⟩ := step_spec h hs
  obtain ⟨t, ht, -⟩ := hfresh.target
  have hall : ((p'.queue ix).registers i).allTargets = [t] := by
    rw [MSHR.allTargets, ht, hfresh.deferred, append_nil]
  refine hl.update (r := ⟨ix, i⟩) (elsewhere_of_taken honly.queue htaken)
    (fun r' _ hr' => hno.trans hr')
    (fun _ _ => id) fun _ => ⟨⟨?_, ?_⟩, fun _ => ⟨.inl ?_, ?_⟩⟩
  · exact (cpuTargets_le _).trans (by rw [register, hall]; exact Nat.le_of_succ_le hn)
  · rw [register, hfresh.deferred]
    exact Nat.zero_lt_of_lt hn
  · rw [register, hall]
    exact hn
  · rw [register, ht]
    exact cons_ne_nil _ _

theorem count_mshr (h : p.Inv) (hi : i ∈ p.mshrQueue.live) :
    (p.mshrQueue.registers i).ntargets = ushort (p.mshrQueue.registers i).allTargets.length :=
  ((h.good .mshrs).sound i hi).count

theorem limited_join (hn : n ≤ 65535) (h : p.Inv) (hl : Limited n none p)
    (hopen : p.noTargetMSHR = none) (hs : p.Step (.join n now i pkt time) p') : Limited n none p' := by
  have hlive : p.Live ⟨.mshrs, i⟩ := hs.1
  obtain ⟨hinv, honly, hchanged, hno, hjoined⟩ := step_spec h hs
  obtain ⟨hslot, htargets⟩ := hl.slots _ hlive nofun
  have hless : (p.mshrQueue.registers i).allTargets.length < n := by
    refine hslot.resolve_right fun hr => ?_
    rw [hopen] at hr
    cases hr
  have hlen := hjoined.length
  have hpos : 0 < (p'.mshrQueue.registers i).targets.list.length :=
    (length_pos_of_ne_nil htargets).trans_le hjoined.targets
  refine hl.update (r := ⟨.mshrs, i⟩) (elsewhere_of_changed honly.queue hchanged) (fun r' _ hr' => ?_)
    (fun _ _ => id) fun hlive' => ⟨⟨?_, ?_⟩, fun _ => ⟨?_, ?_⟩⟩
  · rw [hopen] at hr'
    cases hr'
  · exact (cpuTargets_le _).trans (hlen.trans_le hless)
  · have hsplit : (p'.mshrQueue.registers i).allTargets.length = _ := length_append
    change (p'.mshrQueue.registers i).deferredTargets.list.length < n
    omega
  · rcases Nat.lt_or_eq_of_le (hlen.trans_le hless) with hlt | heq
    · exact .inl hlt
    · refine .inr (hno.trans (if_pos ?_))
      rw [count_mshr hinv hlive', heq, ushort]
      exact Nat.mod_eq_of_lt (Nat.lt_succ_of_le hn)
  · exact ne_nil_of_length_pos hpos

/-- The register is to answer the snoop once it has its response: its request is on its way past
the caches below, it does not lose the block already, and it will own the block dirty or the snoop
takes the block away. -/
def AnswersLater (m : MSHR) (pkt : Packet) : Prop :=
  m.inService = true ∧ ¬ (pkt.expressSnoop = true ∧ m.downstreamPending = true) ∧
    m.postInvalidate = false ∧ (m.pendingDirty = true ∨ pkt.isInvalidate = true)

instance (m : MSHR) (pkt : Packet) : Decidable (AnswersLater m pkt) :=
  inferInstanceAs (Decidable (_ ∧ _ ∧ _ ∧ _))

/-- A snoop that takes a slot finds the cache blocked for the register already, or leaves a slot. -/
def SnoopFits (n : Nat) (pkt : Packet) (p : MissPath) (i : Nat) : Prop :=
  AnswersLater (p.mshrQueue.registers i) pkt →
    p.noTargetMSHR = some ⟨.mshrs, i⟩ ∨ (p.mshrQueue.registers i).ntargets + 1 < n

instance (n : Nat) (pkt : Packet) (p : MissPath) (i : Nat) : Decidable (SnoopFits n pkt p i) :=
  inferInstanceAs (Decidable (_ → _))

theorem ntargets_handleSnoop (m : MSHR) (now : Nat) (pkt : Packet) (order : Nat) :
    (m.handleSnoop now pkt order).1.ntargets =
      if AnswersLater m pkt then ushort (m.ntargets + 1) else m.ntargets := by
  unfold MSHR.handleSnoop
  by_cases hserv : (!m.inService || (pkt.expressSnoop && m.downstreamPending)) = true
  · have hnot : ¬ AnswersLater m pkt := by
      rintro ⟨hin, hbelow, -⟩
      simp_all
    rw [if_pos hserv, if_neg hnot]
    split <;> rfl
  · rw [if_neg hserv]
    have hserv : m.inService = true ∧ ¬ (pkt.expressSnoop = true ∧ m.downstreamPending = true) := by
      simpa using hserv
    cases hpost : m.postInvalidate <;> cases hex : pkt.needsExclusive <;>
      cases hdirty : m.pendingDirty <;> cases hinv : pkt.isInvalidate <;>
      simp_all [AnswersLater, Packet.needsExclusive]

theorem Limited.alike (hl : Limited n but p) (hr : p.Live r) (hbut : but ≠ some r)
    (helse : Elsewhere r p p') (hno : p'.noTargetMSHR = p.noTargetMSHR)
    (halike : Alike (p.register r) (p'.register r)) (hlen : (p'.register r).allTargets.length < n ∨
      p'.noTargetMSHR = some r) : Limited n but p' := by
  have hwithin := hl.within r hr
  refine hl.update helse (fun r' _ hr' => hno.trans hr') (fun _ _ => id) fun _ =>
    ⟨⟨halike.cpuTargets.trans_le hwithin.cpu, halike.deferred.trans_lt hwithin.deferred⟩,
      fun _ => ⟨hlen, ?_⟩⟩
  have htargets := (hl.slots r hr hbut).2
  exact ne_nil_of_length_pos ((length_pos_of_ne_nil htargets).trans_le halike.targets)

theorem snoop_register (hs : p.Step (.snoop now i pkt) p') :
    ((p.mshrQueue.registers i).handleSnoop now pkt p.order).1 = p'.mshrQueue.registers i := by
  cases hs.2
  exact (register_setRegister p ⟨.mshrs, i⟩ _).symm

theorem limited_snoop (hn : n ≤ 65535) (h : p.Inv) (hl : Limited n none p)
    (hfits : SnoopFits n pkt p i) (hs : p.Step (.snoop now i pkt) p') : Limited n none p' := by
  have hlive : p.Live ⟨.mshrs, i⟩ := hs.1
  obtain ⟨hinv, honly, hchanged, hno, halike, hlen⟩ := step_spec h hs
  refine hl.alike (r := ⟨.mshrs, i⟩) hlive nofun
    (elsewhere_of_changed honly.queue hchanged) hno halike ?_
  rcases (hl.slots _ hlive nofun).1 with hless | hblocked
  · -- the counter has not wrapped around
    have hcount := count_mshr h hlive
    have hcount' := count_mshr hinv ((congrArg (i ∈ ·) hchanged.live).mpr hlive)
    have hntargets := ntargets_handleSnoop (p.mshrQueue.registers i) now pkt p.order
    rw [snoop_register hs, hcount'] at hntargets
    have hless : (p.mshrQueue.registers i).allTargets.length < n := hless
    change (p'.mshrQueue.registers i).allTargets.length < n ∨ _
    split at hntargets
    · rename_i hlater
      rcases hfits hlater with hblocked | hroom
      · exact .inr (hno.trans hblocked)
      · left
        simp only [ushort] at hcount hntargets
        omega
    · left
      simp only [ushort] at hcount hntargets
      omega
  · exact .inr (hno.trans hblocked)

theorem limited_serving (h : p.Inv) (hl : Limited n (some r) p) (hs : p.Step op p')
    (hop : op.Serving r) : Limited n (some r) p' := by
  have hlimit : ∀ helse : Elsewhere r p p',
    (∀ r', r' ≠ r → p.noTargetMSHR = some r' → p'.noTargetMSHR = some r') →
      (p'.Live r → Within n (p'.register r)) → Limited n (some r) p' := fun helse hno hself =>
    hl.update helse hno (fun _ _ => id) fun hr => ⟨hself hr, fun hne => absurd rfl hne⟩
  obtain ⟨hallow, -⟩ := id hs
  obtain ⟨-, heffect⟩ := step_spec h hs
  rcases hop with rfl | ⟨pkt, rfl⟩ | ⟨response, rfl⟩
  · obtain ⟨hqueue, -, hno⟩ := heffect
    refine hlimit (elsewhere_of_queue hqueue r) (fun r' hne hr' => ?_) fun hr => ?_
    · rw [hno, hr', if_neg fun he => hne (Option.some.inj he)]
    · rw [Live, hqueue] at hr
      rw [register, hqueue]
      exact hl.within r hr
  · obtain ⟨honly, hchanged, hno, halike, -⟩ := heffect
    have hwithin := hl.within r hallow
    exact hlimit (elsewhere_of_changed honly.queue hchanged) (fun r' _ hr' => hno.trans hr') fun _ =>
      ⟨halike.cpuTargets.trans_le hwithin.cpu, halike.deferred.trans_lt hwithin.deferred⟩
  · obtain ⟨hother, -, hchanged, hno, -, hdef, t, ht, -⟩ := heffect
    have hwithin := hl.within r hallow.1
    refine hlimit (elsewhere_of_changed hother hchanged)
      (fun r' _ hr' => hno.trans hr') fun _ => ⟨?_, ?_⟩
    · refine le_trans ?_ hwithin.cpu
      simp [MSHR.cpuTargets, MSHR.allTargets, ht, hdef, countP_cons]
    · exact hdef ▸ hwithin.deferred

theorem limited_retire (h : p.Inv) (hl : Limited n (some r) p)
    (hs : p.Step (.retire now wasFull r) p') : Limited n none p' := by
  have hlive : p.Live r := hs.1.1
  obtain ⟨-, honly, hno, ⟨hfreed, -⟩ | ⟨hchanged, hpromoted⟩⟩ := step_spec h hs
  · exact hl.update (elsewhere_of_freed honly.queue hfreed) (fun r' _ hr' => hno.trans hr')
      (fun r' hne _ he => hne (Option.some.inj he).symm) fun hr =>
        absurd hr (not_live_of_freed h hfreed)
  · have hwithin := hl.within r hlive
    have hall : (p'.register r).allTargets = (p.register r).deferredTargets.list := by
      rw [hpromoted.allTargets, MSHR.allTargets, hpromoted.targets, nil_append]
    have htargets : (p'.register r).targets.list = (p.register r).deferredTargets.list := by
      rw [← hall, MSHR.allTargets, hpromoted.promoted, append_nil]
    refine hl.update (elsewhere_of_changed honly.queue hchanged) (fun r' _ hr' => hno.trans hr')
      (fun r' hne _ he => hne (Option.some.inj he).symm) fun _ =>
        ⟨⟨?_, ?_⟩, fun _ => ⟨.inl (hall ▸ hwithin.deferred), htargets ▸ hpromoted.deferred⟩⟩
    · exact (congrArg (List.countP Target.isCPU) hpromoted.allTargets).trans_le hwithin.cpu
    · rw [hpromoted.promoted]
      exact Nat.zero_lt_of_lt hwithin.deferred

def Plain : PathOp → Prop
  | .answer .. | .enqueue .. | .issue .. | .forward .. | .downstream .. | .amend .. | .refuse => True
  | _ => False

theorem limited_plain (hn : 2 ≤ n) (h : p.Inv) (hl : Limited n none p) (hop : Plain op)
    (hs : p.Step op p') : Limited n none p' := by
  have hidle : (∀ ix, p'.queue ix = p.queue ix) → p'.noTargetMSHR = p.noTargetMSHR →
      Limited n none p' :=
    fun hqueue hno => by
      have hreg : ∀ r, p'.register r = p.register r := fun r => by rw [register, hqueue]; rfl
      have hlive : ∀ r, p'.Live r → p.Live r := fun r hr => by rwa [Live, hqueue] at hr
      refine ⟨fun r hr => hreg r ▸ hl.within r (hlive r hr), fun r hr hbut => ?_⟩
      rw [Open, hreg, hno]
      exact hl.slots r (hlive r hr) hbut
  have hkeep : ∀ r, p.Live r → Elsewhere r p p' → p'.noTargetMSHR = p.noTargetMSHR →
      Alike (p.register r) (p'.register r) →
      (p'.register r).allTargets.length = (p.register r).allTargets.length → Limited n none p' :=
    fun r hr helse hno halike hlen =>
      hl.alike hr (by rintro ⟨⟩) helse hno halike
        ((hl.slots r hr (by rintro ⟨⟩)).1.imp hlen.trans_lt hno.trans)
  obtain ⟨hallow, -⟩ := id hs
  obtain ⟨-, heffect⟩ := step_spec h hs
  cases op with
  | answer pkt time | refuse =>
    cases heffect
    exact hidle (fun ix => by cases ix <;> rfl) rfl
  | enqueue now ix addr size pkt time => exact limited_enqueue hn h hl hs
  | issue r pkt =>
    obtain ⟨honly, hno, -, ⟨hfreed, -⟩ | ⟨hchanged, hissued⟩⟩ := heffect
    · exact hl.update (elsewhere_of_freed honly.queue hfreed)
        (fun r' _ hr' => hno.trans hr') (fun _ _ => id)
        fun hr => absurd hr (not_live_of_freed h hfreed)
    · have htargets : (p'.register r).targets.list = (p.register r).allTargets := by
        rw [← hissued.allTargets, MSHR.allTargets, hissued.deferred, append_nil]
      obtain ⟨hslot, hne⟩ := hl.slots r hallow (by rintro ⟨⟩)
      refine hl.update (elsewhere_of_changed honly.queue hchanged) (fun r' _ hr' => hno.trans hr')
        (fun _ _ => id) fun _ => ⟨⟨?_, ?_⟩, fun _ => ⟨?_, ?_⟩⟩
      · exact (congrArg (List.countP Target.isCPU) hissued.allTargets).trans_le
          (hl.within r hallow).cpu
      · rw [hissued.deferred]
        exact Nat.zero_lt_of_lt hn
      · exact hslot.imp (fun hlt => hissued.allTargets ▸ hlt) hno.trans
      · rw [htargets]
        exact append_ne_nil_of_left_ne_nil hne _
  | forward r b | downstream r b =>
    obtain ⟨honly, hchanged, hno, halike, hall⟩ := heffect
    exact hkeep r hallow (elsewhere_of_changed honly.queue hchanged) hno halike
      (congrArg List.length hall)
  | amend i b =>
    obtain ⟨honly, hchanged, hno, halike, hlen⟩ := heffect
    exact hkeep ⟨.writeBuffer, i⟩ hallow (elsewhere_of_changed honly.queue hchanged) hno halike hlen
  | _ => exact absurd hop id

section

variable (hr : Runs Step p ops p') (h : p.Inv) (hl : Limited n none p)
include hr h hl

theorem limited_plains (hn : 2 ≤ n) (hops : ∀ op ∈ ops, Plain op) : Limited n none p' := by
  induction hr with
  | nil => exact hl
  | snoc hr hs ih =>
    have hl := ih fun op hop => hops op (mem_append_left _ hop)
    exact limited_plain hn (run_inv hr h) hl (hops _ (by simp)) hs

omit hr h hl in
theorem writebackOps_plain : ∀ op ∈ writebackOps now time pkts, Plain op := by
  simp only [writebackOps, mem_map]
  rintro _ ⟨pkt, -, rfl⟩
  exact trivial

theorem limited_servings (hops : ∀ op ∈ ops, op.Serving r) : Limited n (some r) p' := by
  induction hr with
  | nil => exact ⟨hl.within, fun r' hr' _ => hl.slots r' hr' nofun⟩
  | snoc hr hs ih =>
    have hl := ih fun op hop => hops op (mem_append_left _ hop)
    exact limited_serving (run_inv hr h) hl hs (hops _ (by simp))

theorem limited_response {quiet : Prop} (hn : 2 ≤ n) (hresp : Cache.Response quiet now r ops) :
    Limited n none p' := by
  obtain ⟨serving, wasFull, time, pkts, rfl, hserving, -⟩ := hresp
  obtain ⟨p1, hr1, hr⟩ := hr.split
  obtain ⟨p2, hretire, hr⟩ := hr.head
  have hinv := run_inv hr1 h
  have hl2 := limited_retire hinv (limited_servings hr1 h hl hserving) hretire
  exact limited_plains hr (step_spec hinv hretire).1 hl2 hn writebackOps_plain

theorem limited_sending {quiet : Prop} (hn : 2 ≤ n)
    (hsend : Cache.Sending quiet now offer ops out) : Limited n none p' := by
  have hfirst : ∀ {first p1}, Cache.Prefetched now offer first → Runs Step p first p1 →
      Limited n none p1 := by
    intro first p1 hpre hr
    refine limited_plains hr h hl hn ?_
    rcases hpre with rfl | ⟨addr, size, pkt, -, rfl⟩ <;> simp [Plain]
  have hsent : ∀ {first rest p1 r out}, Cache.Prefetched now offer first →
    Cache.Sent quiet now r rest out →
      Runs Step p (first ++ rest) p1 → Limited n none p1 := by
    intro first rest p2 r out hpre hsent hr
    obtain ⟨p1, hr1, hr⟩ := hr.split
    have hl1 := hfirst hpre hr1
    have hinv := run_inv hr1 h
    cases hsent with
    | failed hresp => exact limited_response hr hinv hl1 hn hresp
    | above pkt | made b pkt => exact limited_plains hr hinv hl1 hn (by simp [Plain])
    | passed pkt => exact limited_plains hr hinv hl1 hn (by simp)
  cases hsend with
  | idle hpre => exact hfirst hpre hr
  | settled hpre hsends _ | refused hpre hsends => exact hsent hpre hsends hr
  | issued pkt' hpre hsends =>
    obtain ⟨p1, hr1, hs⟩ := hr.last
    refine limited_plain hn (run_inv hr1 h) (hsent hpre hsends hr1) ?_ hs
    exact trivial

end

theorem supplied_spec (hr : Runs Step p ops p') (h : p.Inv) (hops : Cache.Supplied ops) :
    p'.mshrQueue = p.mshrQueue ∧ p'.noTargetMSHR = p.noTargetMSHR := by
  have hamend : ∀ {i b p1}, p.Step (.amend i b) p1 →
      p1.mshrQueue = p.mshrQueue ∧ p1.noTargetMSHR = p.noTargetMSHR ∧ p1.Inv := by
    intro i b p1 hs
    obtain ⟨hinv, honly, -, hno, -⟩ := step_spec h hs
    exact ⟨honly.queue .mshrs nofun, hno, hinv⟩
  cases hops with
  | missed => exact hr.eq_of_nil ▸ ⟨rfl, rfl⟩
  | supplied i b =>
    obtain ⟨hqueue, hno, -⟩ := hamend hr.step_of_single
    exact ⟨hqueue, hno⟩
  | taken i b pkt =>
    obtain ⟨p1, hs, hr⟩ := hr.head
    obtain ⟨hqueue, hno, hinv⟩ := hamend hs
    obtain ⟨-, honly, hno', -⟩ := step_spec hinv hr.step_of_single
    exact ⟨(honly.queue .mshrs nofun).trans hqueue, hno'.trans hno⟩

end MissPath

namespace CacheWorld

variable {σ : Type} {quiet : Prop} {w w' : CacheWorld σ} {e : CacheEvent} {ops : List PathOp}

def numTarget (w : CacheWorld σ) : Nat := w.cache.params.numTarget

def Fits (w : CacheWorld σ) : CacheEvent → Prop
  | .snoop _ pkt _ => ∀ i, w.cache.snooped pkt = some i → SnoopFits w.numTarget pkt w.cache.path i
  | _ => True

instance (w : CacheWorld σ) : (e : CacheEvent) → Decidable (w.Fits e)
  | .snoop _ pkt _ => inferInstanceAs (Decidable (∀ i ∈ w.cache.snooped pkt, _))
  | .request .. | .response .. | .snoopResponse .. | .downstream .. | .send .. => .isTrue trivial

/-- No register has more targets from the CPU than slots, and the cache is blocked
for one without a free slot. -/
def TargetsLimited (w : CacheWorld σ) : Prop :=
  ∀ r, w.cache.path.Live r → (w.cache.path.register r).cpuTargets ≤ w.numTarget ∧
    (w.numTarget ≤ (w.cache.path.register r).ntargets →
      w.cache.path.noTargetMSHR = some r ∧ w.cache.path.portBlocked = true)

section

variable (h : w.Sane)
include h

theorem portBlocked_of_noTarget (hr : w.cache.path.noTargetMSHR = some r) :
    w.cache.path.portBlocked = true := by
  rw [h.path.port, BlockedMask.any_eq_true]
  exact ⟨.noTargets, h.path.targets.trans (by rw [hr]; rfl)⟩

theorem noTarget_of_open (hport : w.cache.path.portBlocked = false) :
    w.cache.path.noTargetMSHR = none := by
  cases hno : w.cache.path.noTargetMSHR with
  | none => rfl
  | some r =>
    rw [portBlocked_of_noTarget h hno] at hport
    cases hport

section

variable (hl : Limited w.numTarget none w.cache.path)
include hl

theorem targetsLimited_of_limited : w.TargetsLimited := by
  intro r hr
  refine ⟨(hl.within r hr).cpu, fun hge => ?_⟩
  have hcount : (w.cache.path.register r).ntargets =
      ushort (w.cache.path.register r).allTargets.length :=
    ((h.path.good r.queue).sound r.index hr).count
  rcases (hl.slots r hr nofun).1 with hlt | hno
  · rw [hcount] at hge
    exact absurd hge (Nat.not_le_of_lt ((Nat.mod_le _ _).trans_lt hlt))
  · exact ⟨hno, portBlocked_of_noTarget h hno⟩

theorem limited_request (h2 : 2 ≤ w.numTarget) (hn : w.numTarget ≤ 65535)
    (hr : w.cache.Reaches ops w'.cache) (hport : w.cache.path.portBlocked = false)
    (hops : Cache.Request quiet w.numTarget now pkt ops) :
    Limited w.numTarget none w'.cache.path := by
  obtain ⟨own, time, pkts, rfl, hasked, -⟩ := hops
  obtain ⟨p1, hr1, hr⟩ := hr.runs.split
  refine limited_plains hr (run_inv hr1 h.path) ?_ h2 writebackOps_plain
  cases hasked with
  | silent _ => exact limited_plains hr1 h.path hl h2 (by simp)
  | answered resp time _ _ | allocated ix addr size pkt' time _ =>
    exact limited_plains hr1 h.path hl h2 (by simp [Plain])
  | joined i pkt' time _ =>
      exact limited_join hn h.path hl (noTarget_of_open h hport) hr1.step_of_single

theorem limited_step (h2 : 2 ≤ w.numTarget) (hn : w.numTarget ≤ 65535) (hfits : w.Fits e)
    (hh : Happens quiet w e ops w') :
    Limited w.numTarget none w'.cache.path := by
  have hruns := hh.reaches.runs
  have hops := hh.operations
  cases e with
  | request now pkt =>
    simp only [Operations] at hops
    split at hops
    · exact limited_plains hruns h.path hl h2 (by simp [hops])
    · split at hops
      · exact limited_plains hruns h.path hl h2 (by simp [hops, Plain])
      · rename_i hport
        exact limited_request h hl h2 hn hh.reaches (by simpa using hport) hops
  | response now pkt replies =>
    obtain ⟨r, -, hresp⟩ := hops
    exact limited_response hruns h.path hl h2 hresp
  | snoopResponse now pkt replies =>
    obtain rfl | ⟨r, -, hresp⟩ := hops
    · exact limited_plains hruns h.path hl h2 (by simp)
    · exact limited_response hruns h.path hl h2 hresp
  | snoop now pkt reply =>
    obtain ⟨rest, hsupplied, rfl⟩ := hops
    obtain ⟨p1, hr1, hr⟩ := hruns.split
    refine limited_plains hr (run_inv hr1 h.path) ?_ h2 (by cases hsupplied <;> simp [Plain])
    cases hi : w.cache.snooped pkt with
    | none =>
      rw [hi] at hr1
      exact limited_plains hr1 h.path hl h2 (by simp)
    | some i =>
      rw [hi] at hr1
      exact limited_snoop hn h.path hl (hfits i hi) hr1.step_of_single
  | downstream r b =>
    cases hops
    exact limited_plains hruns h.path hl h2 (by simp [Plain])
  | send now offer above replies sent reply =>
    obtain ⟨out, hsend, -⟩ := hops
    exact limited_sending hruns h.path hl h2 hsend

theorem fits_of_targetsLimited (hn : w.numTarget ≤ 65535) (hh : Happens quiet w e ops w')
    (hl' : w'.TargetsLimited) : w.Fits e := by
  have hruns := hh.reaches.runs
  have hops := hh.operations
  cases e with
  | snoop now pkt reply =>
    intro i hi hlater
    obtain ⟨rest, hsupplied, rfl⟩ := hops
    rw [hi] at hruns
    obtain ⟨p1, hr1, hr⟩ := hruns.split
    have hs := hr1.step_of_single
    obtain ⟨hinv, -, hchanged, hno, -⟩ := step_spec h.path hs
    obtain ⟨hqueue, hno'⟩ := supplied_spec hr hinv hsupplied
    have hlive : w'.cache.path.Live ⟨.mshrs, i⟩ := by
      change i ∈ w'.cache.path.mshrQueue.live
      rw [hqueue, hchanged.live]
      exact hs.1
    rcases (hl.slots ⟨.mshrs, i⟩ hs.1 nofun).1 with hless | hblocked
    · have hless : (w.cache.path.mshrQueue.registers i).allTargets.length < w.numTarget := hless
      have hcount := count_mshr h.path hs.1
      have hntargets := ntargets_handleSnoop (w.cache.path.mshrQueue.registers i) now pkt
        w.cache.path.order
      rw [snoop_register hs, if_pos hlater, ← hqueue] at hntargets
      have hsize : w'.numTarget = w.numTarget := congrArg CacheParams.numTarget hh.reaches.params
      rw [← hno, ← hno']
      rcases Nat.lt_or_ge (w'.cache.path.mshrQueue.registers i).ntargets w'.numTarget with hlt | hge
      · -- the counter has not wrapped around
        right
        simp only [ushort] at hcount hntargets
        omega
      · exact .inl ((hl' _ hlive).2 hge).1
    · exact .inl hblocked
  | _ => exact trivial

end

end

variable [TagStore σ]

/-- Runs in which what snoops add fits in keep the limit, and the next event keeps it
exactly if what it adds fits in, too. -/
theorem run_targetsLimited {params : CacheParams} {tags : σ} {mshrs writeBuffers : Nat}
    {events : List CacheEvent} (hσ : TagStore.Behaves σ (fun _ => True) quiet)
    (h2 : 2 ≤ params.numTarget) (hn : params.numTarget ≤ 65535)
    (hr : Runs (fun w e w' => Step w e w' ∧ w.Fits e)
      (create params tags mshrs writeBuffers) events w) :
    w.TargetsLimited ∧ ∀ e w', w.Step e w' → (w'.TargetsLimited ↔ w.Fits e) := by
  obtain ⟨hsane, hparams, hl⟩ : w.Sane ∧ w.numTarget = params.numTarget ∧
      Limited params.numTarget none w.cache.path := by
    refine hr.invariant (P := fun w => w.Sane ∧ w.numTarget = params.numTarget ∧
      Limited params.numTarget none w.cache.path)
        ⟨create_sane params tags mshrs writeBuffers, rfl, ?_⟩ ?_
    · constructor
      · rintro ⟨_ | _, i⟩ hr <;>
          simp [Live, create, MissPath.create, queue, MSHRQueue.create, MSHRQueue.live] at hr
      · rintro ⟨_ | _, i⟩ hr <;>
          simp [Live, create, MissPath.create, queue, MSHRQueue.create, MSHRQueue.live] at hr
    · rintro w e w' ⟨hsane, hparams, hl⟩ ⟨hs, hfits⟩
      obtain ⟨ops, hh⟩ := step_happens hσ hsane hs
      rw [← hparams] at hl ⊢
      exact ⟨hh.sane, congrArg CacheParams.numTarget hh.reaches.params,
        limited_step hsane hl (hparams ▸ h2) (hparams ▸ hn) hfits hh⟩
  rw [← hparams] at hl h2 hn
  refine ⟨targetsLimited_of_limited hsane hl, fun e w' hs => ?_⟩
  obtain ⟨ops, hh⟩ := step_happens hσ hsane hs
  refine ⟨fits_of_targetsLimited hsane hl hn hh, fun hfits => ?_⟩
  have hsize : w'.numTarget = w.numTarget := congrArg CacheParams.numTarget hh.reaches.params
  refine targetsLimited_of_limited hh.sane ?_
  rw [hsize]
  exact limited_step hsane hl h2 hn hfits hh

def snoopedEvents : List CacheEvent :=
  [.request 0 (sampleRequest 1 .readReq 0), .send 10 none {} (fun _ => {}) true {},
    .snoop 11 (sampleRequest 9 .readExReq 0) {}, .request 12 (sampleRequest 2 .readReq 0),
    .request 13 (sampleRequest 3 .readReq 0)]

/-- The snoop takes the last slot of the register, and nothing keeps requests from
joining it. -/
theorem not_targetsLimited_snooped :
    ∃ w, Runs Step (create sampleParams LRU.sampleStore 2 2) snoopedEvents w ∧ w.numTarget = 2 ∧
      (w.cache.path.register ⟨.mshrs, 0⟩).cpuTargets = 3 ∧ w.cache.path.noTargetMSHR = none ∧
      ¬ w.TargetsLimited := by
  obtain ⟨w, hr, hn, hcpu, hno, hlive⟩ : ∃ w,
    Runs Step (create sampleParams LRU.sampleStore 2 2) snoopedEvents w ∧
      w.numTarget = 2 ∧ (w.cache.path.register ⟨.mshrs, 0⟩).cpuTargets = 3 ∧
      w.cache.path.noTargetMSHR = none ∧ 0 ∈ w.cache.path.mshrQueue.live :=
    runs_of_play Admits apply (by decide +kernel)
  refine ⟨w, hr, hn, hcpu, hno, fun hl => ?_⟩
  have hle := (hl ⟨.mshrs, 0⟩ hlive).1
  rw [hcpu, hn] at hle
  exact absurd hle (by decide)

theorem run_targetsLimited_shared :
    (∃ events w,
      Runs (fun w e w' => Step w e w' ∧ w.Fits e) (create sampleParams LRU.sampleStore 2 2) events w ∧
      w.cache.path.noTargetMSHR = some ⟨.mshrs, 0⟩ ∧ w.TargetsLimited) ∧
    (∃ tags events w, FALRU.create 65536 131072 1 = .ok tags ∧
      Runs (fun w e w' => Step w e w' ∧ w.Fits e)
        (create { sampleParams with blkSize := 65536 } tags 2 2) events w ∧
      TagStore.findBlock w.cache.store.tags 0 = .ok (some 1) ∧ w.TargetsLimited) ∧
    ∃ tags events w, IIC.create ⟨8, 1, 4, 1, 1, 1, 4⟩
        { numPools := 2, freshRes := 1, poolRes := 1 } = .ok tags ∧
      Runs (fun w e w' => Step w e w' ∧ w.Fits e) (create sampleParams tags 2 2) events w ∧
      TagStore.findBlock w.cache.store.tags 0 = .ok (some 0) ∧ w.TargetsLimited := by
  have hmild : Mild fun _ => True := fun _ _ _ => trivial
  refine ⟨⟨[.request 0 (sampleRequest 1 .readReq 0), .send 10 none {} (fun _ => {}) true {},
      .downstream ⟨.mshrs, 0⟩ true,
      .snoop 11 { sampleRequest 9 .readExReq 0 with expressSnoop := true } {},
      .request 12 (sampleRequest 2 .readReq 0)],
    runs_of_play_under Admits apply Fits (by decide +kernel)
      fun _ hrun => (run_targetsLimited (LRU.behaves hmild) (by decide) (by decide) hrun).1⟩, ?_, ?_⟩
  · obtain ⟨tags, hmade, hplay⟩ := ok_of_any_bind (x := FALRU.create 65536 131072 1)
      (f := fun tags => play (fun (w : CacheWorld FALRU) e => w.Admits e ∧ w.Fits e) apply
        (create { sampleParams with blkSize := 65536 } tags 2 2)
        [.request 0 (sampleRequest 1 .readReq 0), .send 10 none {} (fun _ => {}) true {},
          .response 20 { sampleResponse .readResp 0 0 with size := 65536 } (fun _ => {})])
      (p := fun w => decide (TagStore.findBlock w.cache.store.tags 0 = .ok (some 1)))
      (by decide +kernel)
    obtain ⟨w, hrun⟩ := runs_of_play_under Admits apply Fits hplay
      fun _ hrun => (run_targetsLimited (FALRU.behaves hmild) (by decide) (by decide) hrun).1
    exact ⟨tags, _, w, hmade, hrun⟩
  · obtain ⟨tags, hmade, hplay⟩ := ok_of_any_bind (x := IIC.create ⟨8, 1, 4, 1, 1, 1, 4⟩
        { numPools := 2, freshRes := 1, poolRes := 1 })
      (f := fun tags => play (fun (w : CacheWorld IIC) e => w.Admits e ∧ w.Fits e) apply
        (create sampleParams tags 2 2)
        [.request 0 (sampleRequest 1 .readReq 0), .send 10 none {} (fun _ => {}) true {},
          .response 20 (sampleResponse .readResp 0 0) (fun _ => {})])
      (p := fun w => decide (TagStore.findBlock w.cache.store.tags 0 = .ok (some 0)))
      (by decide +kernel)
    obtain ⟨w, hrun⟩ := runs_of_play_under Admits apply Fits hplay
      fun _ hrun => (run_targetsLimited IIC.behaves (by decide) (by decide) hrun).1
    exact ⟨tags, _, w, hmade, hrun⟩

end CacheWorld

end Gem5
