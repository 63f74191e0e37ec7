import Gem5.Mem.Cache.TempFill

/-!
# Steps of the handlers

Each handler of the timing mode takes the miss path through operations of its
own, in a fixed order: a request is answered, joins a register or gets one; a
response makes room, serves the targets and retires its register. The writebacks
come last.
-/

namespace Gem5

open Lib MissPath CacheStore List

def writebackOps (now time : Nat) (pkts : List Packet) : List PathOp :=
  pkts.map fun pkt => .enqueue now .writeBuffer pkt.addr pkt.size pkt time

namespace MissPath

variable {p : MissPath} {E : Fault → Prop} {quiet : Prop}

def Room (E : Fault → Prop) (quiet : Prop) (p : MissPath) (ix : MSHRQueueIndex) : Prop :=
  E (.assertion "!freeList.empty()") ∨ quiet ∧ (p.queue ix).freeList ≠ []

variable (hE : Mild E)

theorem enqueue_meets (h : p.Inv) (ix : MSHRQueueIndex)
    (hroom : E (.assertion "!freeList.empty()") ∨ (p.queue ix).freeList ≠ []) (addr size time : Nat) :
    Meets (fun a => a.2.queue = ix ∧ p.Step (.enqueue now ix addr size pkt time) a.1) E
      (p.allocateBufferInternal now ix addr size pkt time) := by
  refine ((allocateBufferInternal_meets h hroom).and fun _ ha => ha).mono fun a ha => ?_
  exact ⟨ha.1.2.2.2.1, trivial, by simp only [apply, ha.2, ok_bind]; rfl⟩

include hE in
theorem allocateWriteBuffer_meets (h : p.Inv)
    (hroom : E (.assertion "!freeList.empty()") ∨ p.writeBuffer.freeList ≠ []) (time : Nat) :
    Meets (p.Step (.enqueue now .writeBuffer pkt.addr pkt.size pkt time)) E
      (p.allocateWriteBuffer now pkt time) := by
  refine hE.guard rfl fun _ => ?_
  exact (enqueue_meets h .writeBuffer hroom ..).bind fun a ha => ha.2

include hE in
theorem bufferWritebacks_meets (h : p.Inv)
    (hroom : E (.assertion "!freeList.empty()") ∨
      pkts.length ≤ 1 ∧ (pkts ≠ [] → p.writeBuffer.freeList ≠ [])) (time : Nat) :
    Meets (Runs Step p (writebackOps now time pkts)) E (p.bufferWritebacks now time pkts) := by
  induction pkts generalizing p with
  | nil => exact .nil
  | cons pkt pkts ih =>
    refine (allocateWriteBuffer_meets hE h (hroom.imp id fun h => h.2 nofun) time).bind fun p1 hs => ?_
    refine (ih (step_spec h hs).1 (hroom.imp id fun hlen => ?_)).mono fun p2 hr =>
      (Runs.single hs).append hr
    have hnil : pkts = [] := length_eq_zero_iff.mp (Nat.le_zero.mp (Nat.le_of_succ_le_succ hlen.1))
    exact ⟨by simp [hnil], fun h => absurd hnil h⟩

end MissPath

namespace Cache

variable {σ : Type} [TagStore σ] {E : Fault → Prop} {quiet : Prop} {c : Cache σ}
  {r : MSHRRef} {now : Nat} {pkt : Packet}

structure Reaches (c : Cache σ) (ops : List PathOp) (c' : Cache σ) : Prop where
  runs : Runs Step c.path ops c'.path
  params : c'.params = c.params

omit [TagStore σ] in
theorem Reaches.trans (h : c.Reaches ops c')
    (h' : c'.Reaches ops' c'') : c.Reaches (ops ++ ops') c'' :=
  ⟨h.runs.append h'.runs, h'.params.trans h.params⟩

variable (hE : Mild E) (hσ : TagStore.Behaves σ E quiet)

variable {blk : Option BlkRef} {initialOffset : Nat} {replies : List Target → SnoopReply}
  {offer : Option Packet} {above reply : SnoopReply} {sent : Bool}

include hE hσ in
theorem snoopBlock_meets (ht : blk = some .temp → pkt.isInvalidate = true → E tempFault)
    (isDeferred pendingInval : Bool) :
    Meets (fun a => c.store.Snooped blk a.1.store ∧ a.1.path = c.path) E
      (c.snoopBlock now pkt blk isDeferred pendingInval reply) := by
  refine (handleSnoop_meets hE hσ ht ..).bind fun ⟨store, pkt, resp⟩ hsnoop => ?_
  cases resp with
  | none | some resp => exact ⟨hsnoop, rfl⟩

include hE hσ in
theorem fill_meets (hr : c.path.Live r) (hfill : c.isFill r pkt = true)
    (herror : pkt.isError = false) (hfind : c.store.findBlock pkt.addr = .ok blk) :
    Meets (fun a => (c.Reaches [.absorb r pkt] a.1 ∧ CacheStore.Writebacks quiet a.2.2 ∧
        (quiet → a.2.1 = some .temp → a.2.2 = [])) ∧
          (a.1.path.register r).targets.list = c.served r pkt ∧
      (a.1.path.register r).postInvalidate = (c.path.register r).postInvalidate ∧
      (a.2.1 = some .temp ↔ c.fillsTemp now r pkt = true) ∧
      (a.2.1 ≠ some .temp → c.SameTemp a.1) ∧ (a.2.1 = some .temp → c.FilledTemp r pkt a.1)) E
      (c.fill now r pkt blk) := by
  refine ((handleFill_faults hE).and fun m hm => hm).bind fun m hm => ?_
  obtain ⟨b, hb, hblk⟩ := bind_eq_ok.mp hfind
  cases hblk
  have hframe : b.map BlkRef.frame ≠ some .temp := by cases b <;> simp
  refine ((handleFill_meets hE hσ _ hframe).and fun a ha => ha).bind
    fun ⟨store, b', writebacks⟩ ⟨hstore, heq⟩ => ?_
  obtain ⟨haddr, hpost, htargets⟩ := MSHR.handleFill_same hm.2
  have hmatch : ∀ addr, (c.path.setRegister r m).mshrQueue.findMatch addr =
      c.path.mshrQueue.findMatch addr := by
    intro addr
    obtain ⟨queue, i⟩ := r
    cases queue with
    | mshrs => exact MSHRQueue.findMatch_set haddr
    | writeBuffer => rfl
  obtain ⟨htemp, hdata⟩ := handleFill_refuses heq hframe
  rw [refuses_congr hmatch] at htemp
  refine ⟨⟨⟨.single ⟨hr, ?_⟩, hstore.params⟩, hstore.writebacks,
    fun hq hb => hstore.none hq (Option.some.inj hb)⟩, ?_, ?_, ?_,
      fun h => hstore.other fun hb => h (congrArg some hb), fun h => ?_⟩
  · simp only [apply, hm.2, ok_bind]
    rfl
  · rw [register_setRegister, htargets]
    rfl
  · rw [register_setRegister, hpost]
  · simp only [Option.some.injEq, htemp, fillsTemp, hfill, herror, hb]
    cases b <;> simp
  · have h := Option.some.inj h
    obtain ⟨hvalid, hline⟩ := hstore.temp h
    exact ⟨hvalid, hline, hdata h⟩

structure Completes (store : CacheStore σ) (blk : Option BlkRef) (isFill : Bool) (target : Packet)
    (a : CacheStore σ × Packet × Nat) : Prop where
  params : a.1.params = store.params
  same : target.Same a.2.1
  other : blk ≠ some .temp ∨ isFill = false → a.1.tempBlock = store.tempBlock
  line : blk = some .temp → isFill = true → a.1.tags = store.tags ∧
    CacheStore.Satisfied store.params.blkSize (TagStore.extractBlkOffset store.tags target.addr) target
      store.tempBlock a.1.tempBlock

include hE hσ in
theorem completeTarget_meets {store : CacheStore σ} {m : MSHR} {isFill : Bool} {target : Packet}
    (ht : blk = some .temp → isFill = true →
      CacheStore.takesBlock store.params.blkSize target = true → E tempFault) :
    Meets (Completes store blk isFill target) E
      (completeTarget store m pkt blk isFill initialOffset target) := by
  unfold completeTarget
  split
  · rename_i hfill
    refine (Meets.need (hE.pass rfl)).bind fun r hr => ?_
    subst hr
    refine (hE.guard rfl fun _ => trivial :
      Meets (fun _ => True) E m.hasPostDowngrade).bind fun downgrade _ => ?_
    refine (satisfyCpuSideRequest_meets hE hσ (fun h => ht (congrArg some h) hfill) true
      downgrade fun _ => rfl).bind fun result hdone => ?_
    refine hE.guard rfl fun _ => ?_
    refine (countAccess_meets hE).bind fun _ _ => ?_
    refine ⟨hdone.keeps.params, hdone.same, ?_, fun h _ => ?_⟩
    · rintro (h | h)
      · exact hdone.keeps.temp fun hr => h (congrArg some hr)
      · exact absurd hfill (by simp [h])
    · have hr := Option.some.inj h
      exact ⟨hdone.keeps.tags hr, hdone.line hr⟩
  · rename_i hfill
    have hfill : isFill = false := by simpa using hfill
    split
    · refine hE.guard rfl fun _ => ?_
      exact ⟨rfl, ⟨rfl, rfl, rfl, rfl⟩, fun _ => rfl, fun _ h => absurd h (by simp [hfill])⟩
    · refine ⟨rfl, ?_, fun _ => rfl, fun _ h => absurd h (by simp [hfill])⟩
      split
      · exact ⟨rfl, rfl, rfl, rfl⟩
      · exact .refl _

omit [TagStore σ] in
include hE in
theorem targetResponse_meets :
    Meets (fun resp => resp.id = target.id ∧ target.needsResponse = true) E
      (targetResponse m pkt target) := by
  set P : Packet → Prop := fun resp => resp.id = target.id ∧ target.needsResponse = true
  have hmake : Meets P E target.makeResponse := by
    refine hE.guard rfl fun hneeds => ?_
    exact hE.guard rfl fun _ => ⟨rfl, hneeds⟩
  have hlast : ∀ resp, P resp → Meets P E
        (if resp.cmd = .readResp then do
          let inval ← if pkt.isInvalidate then pure true else m.hasPostInvalidate
          return if inval then { resp with cmd := .readRespWithInvalidate } else resp
        else return resp) := by
    intro resp hresp
    have hinval : ∀ inval : Bool, Meets P E
        (pure (if inval then { resp with cmd := .readRespWithInvalidate }
          else resp) : Chk Packet) := by
      intro inval
      cases inval <;> exact hresp
    refine .ite (fun _ => .ite (fun _ => hinval true) fun _ => ?_) fun _ => hresp
    refine (hE.guard rfl fun _ => trivial :
      Meets (fun _ => True) E m.hasPostInvalidate).bind fun inval _ => hinval inval
  refine hmake.bind fun resp hresp => ?_
  refine .ite (fun _ => ?_) fun _ => hlast resp hresp
  refine (hE.guard rfl fun _ => hresp : Meets P E (resp.copyError pkt)).bind hlast

def Answers (t : Target) : Option (Packet × Nat) → Prop
  | none => t.isCPU = false
  | some (pkt, _) => t.awaited = true ∧ pkt.id = t.pkt.id

include hE hσ in
theorem serveTarget_meets {isFill : Bool} (hfill : blk = some .temp → isFill = true)
    (ht : blk = some .temp → t.givesUp c.params.blkSize = true → E tempFault) :
    Meets (fun c' => (∃ response, c'.path = c.path.respond response ∧ Answers t response) ∧
      c.Serves blk r c' ∧
      (blk = some .temp → if t.isCPU then
          CacheStore.Satisfied c.params.blkSize
          (TagStore.extractBlkOffset c.store.tags t.pkt.addr) t.pkt
            c.store.tempBlock c'.store.tempBlock
        else CacheStore.SameLine c.store.tempBlock c'.store.tempBlock)) E
      (c.serveTarget now r pkt blk isFill initialOffset reply t) := by
  unfold serveTarget
  cases hsource : t.source with
  | fromCPU =>
    refine (completeTarget_meets hE hσ (fun hb _ htakes => ht hb ?_)).bind
      fun result hdone => ?_
    · rwa [Target.givesUp, hsource]
    obtain ⟨store, target, time⟩ := result
    have hcpu : t.isCPU = true := by simp [Target.isCPU, hsource]
    refine (targetResponse_meets hE).bind fun resp hresp =>
      ⟨⟨some (resp, time), rfl, ?_, hresp.1.trans hdone.same.id⟩, ⟨hdone.params,
        fun hb => hdone.other (.inl hb), fun hb => (hdone.line hb (hfill hb)).1, ?_⟩, fun hb => ?_⟩
    · simp [Target.awaited, hcpu, ← hdone.same.needsResponse, hresp.2]
    · rcases r with ⟨_ | _, i⟩ <;> rfl
    · rw [if_pos hcpu]
      exact (hdone.line hb (hfill hb)).2
  | fromPrefetcher =>
    refine hE.guard rfl fun _ => ?_
    have hcpu : t.isCPU = false := by simp [Target.isCPU, hsource]
    rw [hcpu]
    cases blk with
    | none => exact ⟨⟨none, rfl, hcpu⟩, ⟨rfl, fun _ => rfl, fun _ => rfl, rfl⟩, fun _ => .refl _⟩
    | some b =>
      have hkeeps := c.store.keeps_setBlk b
        { c.store.blk b with status := { (c.store.blk b).status with hwPrefetched := true } }
      refine ⟨⟨none, rfl, hcpu⟩, ⟨hkeeps.params, fun hb => hkeeps.temp fun h => hb (congrArg some h),
        fun hb => hkeeps.tags (Option.some.inj hb), rfl⟩, fun hb => ?_⟩
      cases hb
      exact ⟨rfl, rfl, rfl, rfl, rfl⟩
  | fromSnoop =>
    have hcpu : t.isCPU = false := by simp [Target.isCPU, hsource]
    rw [hcpu]
    refine hE.guard rfl fun _ => ?_
    refine (hasPost_faults hE).1.bind fun inval _ => ?_
    refine hE.guard rfl fun _ => ?_
    refine (snoopBlock_meets hE hσ (fun hb hinv => ht hb ?_) ..).bind ?_
    · rwa [Target.givesUp, hsource]
    · rintro a ⟨hsnoop, hpath⟩
      exact ⟨⟨none, hpath, hcpu⟩, ⟨hsnoop.params, hsnoop.other, hsnoop.tags, by rw [hpath]⟩,
        fun _ => hsnoop.line⟩

include hE hσ in
theorem serveTargets_meets {isFill : Bool} (hfill : blk = some .temp → isFill = true)
    (ht : blk = some .temp → ∀ t ∈ ts, t.givesUp c.params.blkSize = true → E tempFault)
    (h : c.path.Inv) (hr : c.path.Live r) (hts : (c.path.register r).targets.list = ts) :
    Meets (fun c' => (∃ ops, c.Reaches ops c' ∧ ∀ op ∈ ops, ∃ response, op = .serve r response) ∧
      c.Serves blk r c' ∧ (blk = some .temp → c.Writes ts c')) E
      (c.serveTargets now r pkt blk isFill initialOffset replies ts) := by
  induction ts generalizing c with
  | nil => exact ⟨⟨[], ⟨.nil, rfl⟩, by simp⟩, ⟨rfl, fun _ => rfl, fun _ => rfl, rfl⟩,
      fun _ => ⟨[], .nil (.refl _)⟩⟩
  | cons t ts ih =>
    refine (serveTarget_meets hE hσ hfill (fun hb => ht hb t mem_cons_self)).bind
      fun c₁ ⟨⟨response, hpath, hanswers⟩, hserves, hline⟩ => ?_
    -- serving and popping the target is one operation
    have hreg : c₁.path.register r = c.path.register r := by
      rw [hpath, register, (c.path.respond_rest response).1]
      rfl
    have hstep : c.path.Step (.serve r response)
        (c₁.path.setRegister r (c₁.path.register r).popTarget) := by
      refine ⟨⟨hr, t, ts, hts, ?_⟩, ?_⟩
      · cases response with
        | none | some resp => exact hanswers
      · rw [hreg, hpath]
        rfl
    obtain ⟨hinv, heffect⟩ := step_spec h hstep
    obtain ⟨-, -, hchanged, -, -, -, t', ht', -⟩ := heffect
    have hfirst : c.Reaches [.serve r response]
        { c₁ with path := c₁.path.setRegister r (c₁.path.register r).popTarget } :=
          ⟨.single hstep, hserves.params⟩
    have hserves := hserves.trans
      (e := { c₁ with path := c₁.path.setRegister r (c₁.path.register r).popTarget })
      ⟨rfl, fun _ => rfl, fun _ => rfl, by rw [register_setRegister, MSHR.popTarget]⟩
    refine (ih (fun hb t' ht' hgives => ht hb t' (mem_cons_of_mem _ ht') ?_) hinv ?_ ?_).mono ?_
    · rwa [hserves.params] at hgives
    · exact (congrArg (r.index ∈ ·) hchanged.live).mpr hr
    · rw [hts] at ht'
      exact (List.cons.inj ht').2.symm
    · rintro c2 ⟨⟨ops, hreach, hops⟩, hserves2, hwrites⟩
      refine ⟨⟨.serve r response :: ops, hfirst.trans hreach, fun op hop => ?_⟩,
        hserves.trans hserves2, fun hb => ?_⟩
      · rcases mem_cons.mp hop with rfl | hop
        · exact ⟨response, rfl⟩
        · exact hops op hop
      · obtain ⟨written, hwritten⟩ := hwrites hb
        rw [hserves.params, hserves.tags hb] at hwritten
        have hline := hline hb
        split at hline
        · exact hwritten.satisfied hline
        · rename_i hcpu
          exact ⟨_, hwritten.skip hline (by simp [Target.writes, hcpu])⟩

include hE hσ in
theorem settleBlock_meets {store : CacheStore σ} {m : MSHR}
    (ht : blk = some .temp → pkt.isInvalidate = true ∨ m.postInvalidate = true → E tempFault) :
    Meets (store.Snooped blk) E (settleBlock store m pkt blk) := by
  have hkept : store.Snooped blk store := ⟨rfl, fun _ => rfl, .refl _, fun _ => rfl⟩
  unfold settleBlock
  split
  · exact hkept
  · rename_i b hblk
    have hblk := Option.eq_some_of_filter_eq_some hblk
    subst hblk
    have hpost : Meets (fun inval => inval = m.postInvalidate) E m.hasPostInvalidate :=
      hE.guard rfl fun _ => rfl
    have hdown : Meets (fun _ => True) E m.hasPostDowngrade := hE.guard rfl fun _ => trivial
    have hrest : ∀ inval : Bool, (inval = true → pkt.isInvalidate = true ∨ m.postInvalidate = true) →
        Meets (store.Snooped (some b)) E (do
          if inval then store.giveUp b
          else
            let downgrade ← m.hasPostDowngrade
            return if downgrade then store.setStatus b ({ · with writable := false }) else store) := by
      intro inval hinval
      cases inval with
      | true =>
        refine (giveUp_meets hσ fun h => ht (congrArg some h) (hinval rfl)).mono ?_
        rintro store' ⟨hkeeps, hne⟩
        have hne' : some b ≠ some .temp := fun h => hne (Option.some.inj h)
        have htemp := hkeeps.temp hne
        exact ⟨hkeeps.params, fun _ => htemp, htemp ▸ .refl _, fun h => absurd h hne'⟩
      | false =>
        refine hdown.bind fun downgrade _ => ?_
        cases downgrade with
        | false => exact hkept
        | true => exact .setWritable store b
    refine .ite (fun hinv => hrest true fun _ => .inl hinv) fun _ => ?_
    exact hpost.bind fun inval hinval => hrest inval fun h => .inr (hinval ▸ h)

omit hσ in
include hE in
theorem clearTemp_meets (h : c.path.Inv)
    (hroom : E (.assertion "!freeList.empty()") ∨
      (blk = some .temp → c.path.writeBuffer.freeList ≠ [])) :
    Meets (fun c' => (∃ pkts, c.Reaches (writebackOps now (c.ready now) pkts) c' ∧
      (∀ pkt ∈ pkts, pkt.cmd = .writeback) ∧ pkts.length ≤ 1 ∧ (blk ≠ some .temp → pkts = [])) ∧
        c.Clears blk c') E
      (c.clearTemp now blk) := by
  unfold clearTemp
  refine .ite (fun hblk => .ite (fun _ => ?_) fun hdirty => ?_) fun hblk => ?_
  · have hwrite : Meets (fun a => a.1 = c.store.setStatus .temp ({ · with dirty := false }) ∧
        LineWriteback c.store c.store.tempBlock a.2) E (c.store.writebackBlk .temp) := by
      refine hE.guard rfl fun _ => ⟨rfl, rfl, rfl, rfl, fun i hi => ?_⟩
      change memcpy (fun _ => 0) 0 c.store.tempBlock.data c.store.params.blkSize i = _
      rw [memcpy_of_mem (Nat.zero_le i) (by simpa using hi), Nat.sub_zero]
    refine hwrite.bind fun ⟨store, wb⟩ ⟨hstore, hwb⟩ => ?_
    subst hstore
    refine (allocateWriteBuffer_meets hE h (hroom.imp id fun hroom => hroom hblk) (c.ready now)).bind
      fun path hs => ⟨⟨[wb], ⟨.single hs, rfl⟩, by simpa using hwb.cmd, Nat.le_refl 1,
        fun hne => absurd hblk hne⟩, ?_⟩
    exact ⟨rfl, fun hb => absurd hblk hb, fun _ => rfl, fun _ => rfl,
      fun _ _ => ⟨wb, hs.buffers h, hwb⟩⟩
  · exact ⟨⟨[], ⟨.nil, rfl⟩, by simp, by simp, fun _ => rfl⟩,
      rfl, fun hb => absurd hblk hb, fun _ => rfl, fun _ => rfl, fun _ h => absurd h hdirty⟩
  · exact ⟨⟨[], ⟨.nil, rfl⟩, by simp, by simp, fun _ => rfl⟩,
      rfl, fun _ => rfl, fun hb => absurd hb hblk, fun hb => absurd hb hblk, fun hb => absurd hb hblk⟩

include hE hσ in
theorem finishResponse_meets {wasFull : Bool} {writebacks : List Packet}
    (h : c.path.Inv) (hr : c.path.Live r) (hfull : wasFull = (c.path.queue r.queue).isFull)
    (hwb : CacheStore.Writebacks quiet writebacks) (hnone : quiet → blk = some .temp → writebacks = [])
    (hroom : c.path.Room E quiet .writeBuffer)
    (ht : blk = some .temp → pkt.isInvalidate = true ∨
      (c.path.register r).postInvalidate = true → E tempFault) :
    Meets (fun c' => (∃ pkts,
      c.Reaches (.retire now wasFull r :: writebackOps now (c.ready now) pkts) c' ∧
      CacheStore.Writebacks quiet pkts) ∧ c.Clears blk c') E
        (c.finishResponse now wasFull r pkt blk writebacks) := by
  have hretire : Meets (fun a => c.path.Step (.retire now wasFull r) a.1) E
      (c.path.retire now wasFull r) := by
    have hstep := step_meets (.retire now wasFull r) hE h ⟨hr, hfull⟩ (by simp)
    cases ha : c.path.retire now wasFull r with
    | error e => exact hstep.fault (by simp [apply, ha])
    | ok a => exact ⟨⟨hr, hfull⟩, by simp only [apply, ha, ok_bind]; rfl⟩
  unfold finishResponse
  refine (settleBlock_meets hE hσ ht).bind fun store hstore => hretire.bind fun result hs => ?_
  obtain ⟨path, promoted⟩ := result
  have hinv := (step_spec h hs).1
  have hfree : E (.assertion "!freeList.empty()") ∨ quiet ∧ path.writeBuffer.freeList ≠ [] :=
    hroom.imp id fun hroom => ⟨hroom.1, run_free (.single hs) h .writeBuffer
      (by simp [PathOp.fills]) hroom.2⟩
  have hbuffer : Meets (Runs Step path (writebackOps now (c.ready now) writebacks)) E
      (path.bufferWritebacks now (c.ready now) writebacks) :=
    bufferWritebacks_meets hE hinv (hfree.imp id fun hfree => ⟨hwb.2 hfree.1, fun _ => hfree.2⟩) _
  have hlast : ∀ store' : CacheStore σ, c.store.Snooped blk store' →
      Meets (fun c' => (∃ pkts,
        c.Reaches (.retire now wasFull r :: writebackOps now (c.ready now) pkts) c' ∧
        CacheStore.Writebacks quiet pkts) ∧ c.Clears blk c') E (do
          let path ← path.bufferWritebacks now (c.ready now) writebacks
          let c := { c with store := store', path := path }
          c.clearTemp now blk) := by
    intro store' hsnooped
    refine hbuffer.bind fun path' hrun => ?_
    have hinv' := run_inv hrun hinv
    have hreach : c.Reaches (.retire now wasFull r :: writebackOps now (c.ready now) writebacks)
        { c with store := store', path := path' } := ⟨(Runs.single hs).append hrun, hsnooped.params⟩
    refine (clearTemp_meets hE hinv' (hfree.imp id fun hfree hblk => ?_)).mono ?_
    · -- a fill into the temporary block has asked for no writeback yet
      rw [hnone hfree.1 hblk] at hrun
      have hsame : path' = path := hrun.eq_of_nil
      rw [hsame]
      exact hfree.2
    · rintro c' ⟨⟨pkts, hreach', hcmd, hlen, hother⟩, hclears⟩
      refine ⟨⟨writebacks ++ pkts, ?_, ?_, fun hq => ?_⟩, hclears.of_snooped hsnooped⟩
      · have hready : ready { c with store := store', path := path' } now = c.ready now := by
          rw [ready, ready, hreach.params]
        rw [hready] at hreach'
        simpa [writebackOps] using hreach.trans hreach'
      · intro pkt hpkt
        exact (mem_append.mp hpkt).elim (hwb.1 pkt) (hcmd pkt)
      · by_cases hblk : blk = some .temp
        · simpa [hnone hq hblk] using hlen
        · simpa [hother hblk] using hwb.2 hq
  cases promoted with
  | false => exact hlast store hstore
  | true =>
    cases blk with
    | none => exact hlast store hstore
    | some b =>
      refine hlast _ ?_
      have hkeeps := store.keeps_setBlk b
        { store.blk b with status := { (store.blk b).status with readable := false } }
      refine ⟨hkeeps.params.trans hstore.params,
        fun hb => (hkeeps.temp fun h => hb (congrArg some h)).trans
        (hstore.other hb), hstore.line.trans ?_,
        fun hb => (hkeeps.tags (Option.some.inj hb)).trans (hstore.tags hb)⟩
      cases b with
      | frame _ => exact .refl _
      | temp => exact ⟨rfl, rfl, rfl, rfl, rfl⟩

/-- The operations of a response: those for the targets, the end of the register,
and the writebacks. -/
def Response (quiet : Prop) (now : Nat) (r : MSHRRef) (ops : List PathOp) : Prop :=
  ∃ serving wasFull time pkts, ops = serving ++ .retire now wasFull r :: writebackOps now time pkts ∧
    (∀ op ∈ serving, op.Serving r) ∧ CacheStore.Writebacks quiet pkts

theorem mshrOf_eq (h : mshrOf pkt = .ok r) : pkt.senderState = .mshr r.queue r.index := by
  unfold mshrOf at h
  split at h
  · rename_i hs
    cases h
    exact hs
  · cases h

omit [TagStore σ] in
theorem Reaches.serving (hreach : c.Reaches ops c')
    (hops : ∀ op ∈ ops, op.Serving r) (h : c.path.Inv) (hr : c.path.Live r)
    (hroom : c.path.Room E quiet .writeBuffer) :
    c'.path.Inv ∧ c'.path.Live r ∧ (c'.path.queue r.queue).isFull = (c.path.queue r.queue).isFull ∧
      c'.path.Room E quiet .writeBuffer := by
  have hinv := run_inv hreach.runs h
  obtain ⟨hlive, hsize⟩ := serving_run hreach.runs h hops
  refine ⟨hinv, (congrArg (r.index ∈ ·) hlive).mpr hr, ?_, hroom.imp id fun hroom => ⟨hroom.1, ?_⟩⟩
  · rw [Bool.eq_iff_iff, (h.good r.queue).isFull_iff, (hinv.good r.queue).isFull_iff,
      hlive, hsize.1, hsize.2]
  · exact run_free hreach.runs h .writeBuffer (fun op hop => serving_fills (hops op hop) _) hroom.2

theorem Response.append (hops : ∀ op ∈ ops, op.Serving r)
    (h : Response quiet now r ops') : Response quiet now r (ops ++ ops') := by
  obtain ⟨serving, wasFull, time, pkts, rfl, hserving, hwb⟩ := h
  refine ⟨ops ++ serving, wasFull, time, pkts, by simp, fun op hop => ?_, hwb⟩
  exact (mem_append.mp hop).elim (hops op) (hserving op)

include hE hσ in
theorem serveAll_meets {wasFull isFill : Bool} {writebacks : List Packet}
    (hfill : blk = some .temp → isFill = true) (ht : blk = some .temp →
      (∀ t ∈ ts, t.givesUp c.params.blkSize = true → E tempFault) ∧
        (pkt.isInvalidate = true ∨ (c.path.register r).postInvalidate = true → E tempFault))
    (h : c.path.Inv) (hr : c.path.Live r)
    (hts : (c.path.register r).targets.list = ts)
    (hfull : wasFull = (c.path.queue r.queue).isFull) (hwb : CacheStore.Writebacks quiet writebacks)
    (hnone : quiet → blk = some .temp → writebacks = []) (hroom : c.path.Room E quiet .writeBuffer) :
    Meets (fun c' => (∃ ops, c.Reaches ops c' ∧ Response quiet now r ops) ∧
      ∃ c₁, c.Serves blk r c₁ ∧ (blk = some .temp → c.Writes ts c₁) ∧ c₁.Clears blk c') E (do
      let c ← c.serveTargets now r pkt blk isFill initialOffset replies ts
      c.finishResponse now wasFull r pkt blk writebacks) := by
  refine (serveTargets_meets hE hσ hfill (fun hb => (ht hb).1) h hr hts).bind
    fun c₁ ⟨⟨ops, hreach, hops⟩, hserves, hwrites⟩ => ?_
  have hserving : ∀ op ∈ ops, op.Serving r := fun op hop => .inr (.inr (hops op hop))
  obtain ⟨hinv, hr', hfull', hroom'⟩ := hreach.serving hserving h hr hroom
  refine (finishResponse_meets hE hσ hinv hr' (hfull.trans hfull'.symm) hwb hnone hroom'
    fun hb => ?_).mono ?_
  · rw [hserves.postInvalidate]
    exact (ht hb).2
  · rintro c2 ⟨⟨pkts, hreach', hwb'⟩, hclears⟩
    exact ⟨⟨_, hreach.trans hreach', ops, wasFull, _, pkts, rfl, hserving, hwb'⟩, c₁,
      hserves, hwrites, hclears⟩

include hE hσ in
theorem handleResponse_meets (h : c.path.Inv)
    (hr : ∀ r, mshrOf pkt = .ok r → c.path.Live r ∧ (c.KeepsTemp now r pkt ∨ E tempFault))
    (hroom : c.path.Room E quiet .writeBuffer) :
    Meets (fun c' => ∃ r ops, mshrOf pkt = .ok r ∧ c.Reaches ops c' ∧ Response quiet now r ops ∧
      c.Responds now r pkt c') E (c.handleResponse now pkt replies) := by
  have hof : Meets (fun r => mshrOf pkt = .ok r) E (mshrOf pkt) := by
    cases hof : mshrOf pkt with
    | ok r => exact rfl
    | error e =>
      unfold mshrOf at hof
      split at hof
      · cases hof
      · cases hof
        exact hE.pass rfl
  refine hof.bind fun r hof => ?_
  refine (step_meets (.release r) hE h trivial (by simp)).bind fun path hs => ?_
  have hrelease : c.Reaches [.release r] { c with path := path } := ⟨.single hs, rfl⟩
  have hserving : ∀ op ∈ [PathOp.release r], op.Serving r := by simp [PathOp.Serving]
  obtain ⟨hlive, hkeep⟩ := hr r hof
  obtain ⟨hinv, hlive, hfull, hroom'⟩ := hrelease.serving hserving h hlive hroom
  obtain ⟨hqueues, -⟩ := (step_spec h hs).2
  have hreg : path.register r = c.path.register r :=
    congrArg (MSHRQueue.registers · r.index) (hqueues r.queue)
  have hqueue : path.mshrQueue = c.path.mshrQueue := hqueues .mshrs
  have hfills : fillsTemp { c with path := path } now r pkt = c.fillsTemp now r pkt := by
    simp [fillsTemp, isFill, hreg, hqueue]
  have hserved : served { c with path := path } r pkt = c.served r pkt := by
    simp [served, hreg]
  refine (getTarget_faults hE).bind fun _ _ => ?_
  refine ((findBlock_meets hσ pkt.addr).and fun a ha => ha).bind fun blk hfound => ?_
  obtain ⟨hblk, hfind⟩ := hfound
  refine (countAccess_meets hE).bind fun _ _ => ?_
  refine .ite (fun hyes => ?_) fun hnot => ?_
  · simp only [Bool.and_eq_true, Bool.not_eq_true'] at hyes
    have hisFill : isFill { c with path := path } r pkt = true := by simpa [isFill] using hyes.1
    refine (fill_meets hE hσ hlive hisFill hyes.2 hfind).bind ?_
    rintro ⟨c₁, blk', writebacks⟩ ⟨⟨hfill, hwb, hnone⟩, htargets, hpost, htemp, hother, hfilled⟩
    rw [hfills] at htemp
    rw [hserved] at htargets
    have hserving' : ∀ op ∈ [PathOp.absorb r pkt], op.Serving r := by simp [PathOp.Serving]
    obtain ⟨hinv', hlive', hfull', hroom''⟩ := hfill.serving hserving' hinv hlive hroom'
    dsimp only
    rw [htargets]
    refine (serveAll_meets hE hσ (fun _ => by simpa using hyes.1) (fun hb => ?_) hinv' hlive' htargets
      (hfull'.trans hfull).symm hwb hnone hroom'').mono ?_
    · refine hkeep.elim (fun hkeep => ?_) fun hE => ⟨fun _ _ _ => hE, fun _ => hE⟩
      obtain ⟨hinval, hpostInval, hgives⟩ := hkeep (htemp.mp hb)
      refine ⟨fun t ht h => ?_, fun h => ?_⟩
      · rw [hfill.params, show params { c with path := path } = c.params from rfl, hgives t ht] at h
        cases h
      · rw [hpost, hreg, hinval, hpostInval] at h
        simp at h
    · rintro c2 ⟨⟨ops, hreach, hresp⟩, c₃, hserves, hwrites, hclears⟩
      refine ⟨r, _, hof, hrelease.trans (hfill.trans hreach), (hresp.append hserving').append hserving,
        fun h => ?_, fun h => hclears.valid (htemp.mpr h), fun h => ?_⟩
      · have hb : blk' ≠ some .temp := fun hb => by simp [htemp.mp hb] at h
        exact ((hclears.other hb).trans (hserves.other hb)).trans (hother hb)
      · have hb := htemp.mpr h
        subst hb
        have hcarries := (hfilled rfl).carries hfill.params
          (isRead_of_fill hisFill (hfilled rfl).data) hserves
          (by rw [hserved]; exact hwrites rfl) hclears
        simp only [Carries, hserved] at hcarries
        exact hcarries
  · have hno : c.fillsTemp now r pkt = false := by
      rw [← hfills]
      simp [fillsTemp, isFill, Bool.eq_false_of_not_eq_true hnot]
    refine (serveAll_meets hE hσ (fun hb => absurd hb hblk) (fun hb => absurd hb hblk) hinv hlive rfl
      hfull.symm writebacks_nil (fun _ h => absurd h hblk) hroom').mono ?_
    rintro c2 ⟨⟨ops, hreach, hresp⟩, c₃, hserves, -, hclears⟩
    refine ⟨r, _, hof, hrelease.trans hreach, hresp.append hserving,
      fun _ => (hclears.other hblk).trans (hserves.other hblk), ?_, ?_⟩ <;> simp [hno]

inductive Asked (numTarget now : Nat) (pkt : Packet) : List PathOp → Prop
  | silent (hneeds : pkt.needsResponse = false) : Asked numTarget now pkt []
  | answered (resp : Packet) (time : Nat) (hneeds : pkt.needsResponse = true)
      (hid : resp.id = pkt.id) :
    Asked numTarget now pkt [.answer resp time]
  | allocated (ix : MSHRQueueIndex) (addr size : Nat) (pkt' : Packet) (time : Nat)
      (hsame : pkt.Same pkt') :
    Asked numTarget now pkt [.enqueue now ix addr size pkt' time]
  | joined (i : Nat) (pkt' : Packet) (time : Nat) (hsame : pkt.Same pkt') :
    Asked numTarget now pkt [.join numTarget now i pkt' time]

/-- The operations of a request, the writebacks last. A request that takes an entry
of the write buffer asks a quiet tag store for no writeback. -/
def Request (quiet : Prop) (numTarget now : Nat) (pkt : Packet) (ops : List PathOp) : Prop :=
  ∃ own time pkts, ops = own ++ writebackOps now time pkts ∧ Asked numTarget now pkt own ∧
    CacheStore.Writebacks quiet pkts ∧
    (quiet → (∃ op ∈ own, op.fills .writeBuffer = true) → pkts = [])

theorem Asked.of_same (h : pkt.Same pkt')
    (ha : Asked numTarget now pkt' ops) : Asked numTarget now pkt ops := by
  cases ha with
  | silent hneeds => exact .silent (h.needsResponse ▸ hneeds)
  | answered resp time hneeds hid =>
      exact .answered resp time (h.needsResponse ▸ hneeds) (hid.trans h.id)
  | allocated ix addr size pkt'' time hsame => exact .allocated ix addr size pkt'' time (h.trans hsame)
  | joined i pkt'' time hsame => exact .joined i pkt'' time (h.trans hsame)

theorem Request.retires (h : Request quiet numTarget now pkt ops)
    (r : MSHRRef) : ∀ op ∈ ops, ∀ now wasFull, op ≠ .retire now wasFull r := by
  obtain ⟨own, time, pkts, rfl, hasked, -⟩ := h
  simp only [mem_append, writebackOps, mem_map]
  rintro op (hop | ⟨pkt, -, rfl⟩) n w he
  · cases hasked <;> simp at hop <;> subst hop <;> cases he
  · cases he

omit hσ in
include hE in
theorem requestHit_meets (hblk : blk ≠ some .temp) (lat : Int) :
    Meets (fun c' => c.SameTemp c' ∧ ∃ own, c.Reaches own c' ∧ Asked c.params.numTarget now pkt own ∧
      ∀ op ∈ own, op.fills .writeBuffer = false) E (c.requestHit now pkt blk lat) := by
  have hnotice : (c.noticePrefetched blk).path = c.path ∧ (c.noticePrefetched blk).params = c.params ∧
      c.SameTemp (c.noticePrefetched blk) := by
    unfold noticePrefetched
    split
    · exact ⟨rfl, rfl, rfl⟩
    · split
      · exact ⟨rfl, (c.store.keeps_setBlk _ _).params,
          (c.store.keeps_setBlk _ _).temp fun h => hblk (congrArg some h)⟩
      · exact ⟨rfl, rfl, rfl⟩
  unfold requestHit
  refine .ite (fun hneeds => ?_) fun hneeds => ?_
  · refine (makeResponse_meets hE).bind fun resp hid => ?_
    refine ⟨hnotice.2.2, [.answer resp (now + lat).toNat], ⟨.single ⟨trivial, ?_⟩, hnotice.2.1⟩,
      .answered resp _ hneeds hid, by simp [PathOp.fills]⟩
    rw [apply, hnotice.1]
    rfl
  · exact ⟨hnotice.2.2, [], ⟨hnotice.1 ▸ .nil, hnotice.2.1⟩, .silent (by simpa using hneeds), by simp⟩

omit [TagStore σ] hσ in
include hE in
theorem allocateMissBuffer_meets (h : c.path.Inv) (hroom : c.path.Room E quiet .mshrs)
    (addr size time : Nat) :
    Meets (fun a => a.2.queue = .mshrs ∧ c.path.Step (.enqueue now .mshrs addr size pkt time) a.1) E
      (c.path.allocateMissBuffer now addr size pkt time) := by
  refine hE.guard rfl fun _ => ?_
  exact enqueue_meets h .mshrs (hroom.imp id And.right) ..

omit hσ in
include hE in
theorem allocateMiss_meets (h : c.path.Inv) (hroom : c.path.Room E quiet .mshrs)
    (hblk : blk ≠ some .temp) :
    Meets (fun c' => c.SameTemp c' ∧ ∃ own, c.Reaches own c' ∧ Asked c.params.numTarget now pkt own) E
      (c.allocateMiss now pkt blk) := by
  unfold allocateMiss
  split
  · refine (allocateMissBuffer_meets hE h hroom ..).bind fun ⟨path, r⟩ ⟨_, hs⟩ => ?_
    exact ⟨rfl, _, ⟨.single hs, rfl⟩, .allocated _ _ _ _ _ (.refl pkt)⟩
  · rename_i hb
    have hb := Option.eq_some_of_filter_eq_some hb
    refine hE.guard rfl fun _ => ?_
    refine (allocateMissBuffer_meets hE h hroom ..).bind fun ⟨path, r⟩ ⟨_, hs⟩ => ?_
    exact ⟨(c.store.keeps_setBlk _ _).temp fun h => hblk (hb.trans (congrArg some h)), _,
      ⟨.single hs, (c.store.keeps_setBlk _ _).params⟩, .allocated _ _ _ _ _ (.refl pkt)⟩

omit hσ in
include hE in
theorem requestMiss_meets (h : c.path.Inv) (hroom : ∀ ix, c.path.Room E quiet ix)
    (hblk : blk ≠ some .temp) :
    Meets (fun c' => c.SameTemp c' ∧ ∃ own, c.Reaches own c' ∧ Asked c.params.numTarget now pkt own) E
      (c.requestMiss now pkt blk) := by
  refine (countAccess_meets hE).bind fun _ _ => ?_
  cases hmatch : c.path.mshrQueue.findMatch (c.params.blockAlign pkt.addr) with
  | some i =>
    have hlive : i ∈ c.path.mshrQueue.live := mem_of_find?_eq_some hmatch
    refine (step_meets (.join c.params.numTarget now i pkt (c.ready now)) hE h hlive (by simp)).bind
      fun path hs => ?_
    exact ⟨rfl, _, ⟨.single hs, rfl⟩, .joined i pkt _ (.refl pkt)⟩
  | none =>
    refine .ite (fun _ => ?_) fun _ => allocateMiss_meets hE h (hroom .mshrs) hblk
    refine (allocateWriteBuffer_meets hE h ((hroom .writeBuffer).imp id And.right) _).bind
      fun path hs => ?_
    exact ⟨rfl, _, ⟨.single hs, rfl⟩, .allocated _ _ _ _ _ (.refl pkt)⟩

include hE hσ in
theorem cacheableRequest_meets (h : c.path.Inv) (hroom : ∀ ix, c.path.Room E quiet ix) :
    Meets (fun c' => c.SameTemp c' ∧ ∃ ops, c.Reaches ops c' ∧
      Request quiet c.params.numTarget now pkt ops) E
      (c.cacheableRequest now pkt) := by
  unfold cacheableRequest
  refine (access_meets hE hσ c.path.mshrQueue).bind
    fun ⟨store, pkt', res⟩ hacc => ?_
  have hparams : params { c with store := store } = c.params := hacc.tags.params
  have hwb : CacheStore.Writebacks quiet res.writebacks := hacc.writebacks
  -- the writebacks follow, whatever became of the request
  have hlast : ∀ (c₁ : Cache σ) own, SameTemp { c with store := store } c₁ →
    Reaches { c with store := store } own c₁ →
      Asked c.params.numTarget now pkt own →
      (quiet → (∃ op ∈ own, op.fills .writeBuffer = true) → res.writebacks = []) →
      Meets (fun c' => c.SameTemp c' ∧ ∃ ops, c.Reaches ops c' ∧
        Request quiet c.params.numTarget now pkt ops) E (do
        let path ← c₁.path.bufferWritebacks now (c₁.ready now) res.writebacks
        return { c₁ with path := path }) := by
    intro c₁ own hsame hreach hasked hown
    have hroom' : E (.assertion "!freeList.empty()") ∨
        res.writebacks.length ≤ 1 ∧ (res.writebacks ≠ [] → c₁.path.writeBuffer.freeList ≠ []) := by
      refine (hroom .writeBuffer).imp id fun hroom => ⟨hwb.2 hroom.1, fun hne => ?_⟩
      refine run_free hreach.runs h .writeBuffer (fun op hop => ?_) hroom.2
      by_contra hfills
      exact hne (hown hroom.1 ⟨op, hop, by simpa using hfills⟩)
    refine (bufferWritebacks_meets hE (run_inv hreach.runs h) hroom' _).bind fun path hrun => ?_
    exact ⟨Eq.trans hsame hacc.tags.temp, _, ⟨hreach.runs.append hrun, hreach.params.trans hparams⟩,
      own, _, res.writebacks, rfl, hasked, hwb, hown⟩
  refine .ite (fun _ => ?_) fun hmiss => ?_
  · refine (requestHit_meets hE hacc.blk res.lat).bind fun c₁ ⟨hsame, own, hreach, hasked, hown⟩ => ?_
    refine hlast c₁ own hsame hreach (.of_same hacc.same (hparams ▸ hasked))
      fun _ ⟨op, hop, hfills⟩ => ?_
    rw [hown op hop] at hfills
    cases hfills
  · refine (requestMiss_meets (c := { c with store := store }) hE h hroom hacc.blk).bind
      fun c₁ ⟨hsame, own, hreach, hasked⟩ => ?_
    exact hlast c₁ own hsame hreach (.of_same hacc.same (hparams ▸ hasked)) fun hq _ =>
      hacc.none hq (by simpa using hmiss)

include hE hσ in
theorem uncacheableRequest_meets (h : c.path.Inv) (hroom : ∀ ix, c.path.Room E quiet ix) :
    Meets (fun c' => c.SameTemp c' ∧ ∃ ops, c.Reaches ops c' ∧
      Request quiet c.params.numTarget now pkt ops) E
      (c.uncacheableRequest now pkt) := by
  unfold uncacheableRequest
  refine (uncacheableAccess_meets hσ).bind fun store hstore => ?_
  have hlast : ∀ path ix addr size, c.path.Step (.enqueue now ix addr size pkt (c.ready now)) path →
      Meets (fun c' => c.SameTemp c' ∧ ∃ ops, c.Reaches ops c' ∧
        Request quiet c.params.numTarget now pkt ops) E (do
        ensure pkt.needsResponse "pkt->needsResponse()"
        return { c with store := store, path := path }) := by
    intro path ix addr size hs
    refine hE.guard rfl fun _ => ?_
    exact ⟨hstore.temp, _, ⟨.single hs, hstore.params⟩, _, 0, [], rfl,
      .allocated ix addr size pkt _ (.refl pkt), writebacks_nil, fun _ _ => rfl⟩
  refine .ite (fun _ => ?_) fun _ => ?_
  · exact (allocateWriteBuffer_meets hE h ((hroom .writeBuffer).imp id And.right) _).bind
      fun path hs => hlast path _ _ _ hs
  · have hread : Meets (c.path.Step (.enqueue now .mshrs pkt.addr pkt.size pkt (c.ready now))) E
        (c.path.allocateUncachedReadBuffer now pkt (c.ready now)) := by
      refine hE.guard rfl fun _ => ?_
      refine hE.guard rfl fun _ => ?_
      exact (enqueue_meets h .mshrs ((hroom .mshrs).imp id And.right) ..).bind
        fun a ha => ha.2
    exact hread.bind fun path hs => hlast path _ _ _ hs

include hE hσ in
theorem timingAccess_meets (h : c.path.Inv)
    (hroom : ∀ ix, c.path.Room E quiet ix) (hresp : pkt.isResponse = false) :
    Meets (fun c' => c.SameTemp c' ∧ ∃ ops, c.Reaches ops c' ∧
      if pkt.memInhibit = true then ops = [] else Request quiet c.params.numTarget now pkt ops) E
      (c.timingAccess now pkt replies) := by
  unfold timingAccess
  rw [if_neg (by simp [hresp])]
  refine hE.guard rfl fun _ => ?_
  refine .ite (fun hinh => ?_) fun hinh => .ite (fun _ => ?_) fun _ => ?_
  · simp only [if_pos hinh]
    refine hE.guard rfl fun _ => ?_
    exact .ite (fun _ => ⟨rfl, [], ⟨.nil, rfl⟩, rfl⟩) fun _ => ⟨rfl, [], ⟨.nil, rfl⟩, rfl⟩
  · simp only [if_neg hinh]
    exact uncacheableRequest_meets hE hσ h hroom
  · simp only [if_neg hinh]
    exact cacheableRequest_meets hE hσ h hroom

include hE hσ in
theorem timingAccess_response_meets (h : c.path.Inv)
    (hroom : c.path.Room E quiet .writeBuffer) (hresp : pkt.isResponse = true)
    (hr : ∀ r, mshrOf pkt = .ok r → c.path.Live r ∧ (c.KeepsTemp now r pkt ∨ E tempFault)) :
    Meets (fun c' => ∃ ops, c.Reaches ops c' ∧ (ops = [] ∧ (∀ r, mshrOf pkt ≠ .ok r) ∧ c.SameTemp c' ∨
      ∃ r, mshrOf pkt = .ok r ∧ Response quiet now r ops ∧ c.Responds now r pkt c')) E
        (c.timingAccess now pkt replies) := by
  unfold timingAccess
  rw [if_pos hresp]
  split
  · rename_i prev src hstate
    refine ⟨[], ⟨.nil, rfl⟩, .inl ⟨rfl, fun r hr => ?_, rfl⟩⟩
    exact absurd (hstate.symm.trans (mshrOf_eq hr)) (by simp)
  · refine hE.guard rfl fun _ => ?_
    refine (handleResponse_meets hE hσ h hr hroom).mono fun c' hresult => ?_
    obtain ⟨r, ops, hof, hreach, hresp⟩ := hresult
    exact ⟨ops, hreach, .inr ⟨r, hof, hresp⟩⟩

inductive Supplied : List PathOp → Prop
  | missed : Supplied []
  | supplied (i : Nat) (b : Bool) : Supplied [.amend i b]
  | taken (i : Nat) (b : Bool) (pkt : Packet) : Supplied [.amend i b, .issue ⟨.writeBuffer, i⟩ pkt]

def snooped (c : Cache σ) (pkt : Packet) : Option Nat :=
  if pkt.req.uncacheable || pkt.cmd = .writeback then none
  else c.path.mshrQueue.findMatch (c.params.blockAlign pkt.addr)

def Snoop (c : Cache σ) (now : Nat) (pkt : Packet) (ops : List PathOp) : Prop :=
  ∃ rest, Supplied rest ∧ ops = (c.snooped pkt).elim [] (fun i => [.snoop now i pkt]) ++ rest

theorem amendHead_eq (ht : m.targets.list.head? = some t) (keeps : Bool) :
    { m with targets := { m.targets with list :=
      { t with pkt := if keeps then t.pkt else { t.pkt with supplyExclusive := false } } ::
        m.targets.list.tail } } = amendHead m (keeps && t.pkt.supplyExclusive) := by
  obtain ⟨ts, hts⟩ := List.head?_eq_some_iff.mp ht
  cases keeps <;> simp [amendHead, hts]

omit [TagStore σ] hσ in
include hE in
theorem snoopWriteback_meets (h : c.path.Inv) (hi : i ∈ c.path.writeBuffer.live) :
    Meets (fun a => c.SameTemp a.1 ∧ ∃ ops, c.Reaches ops a.1 ∧ Supplied ops) E
      (c.snoopWriteback now pkt i) := by
  unfold snoopWriteback
  refine hE.guard rfl fun _ => ?_
  refine hE.guard rfl fun _ => ?_
  refine (getTarget_faults hE).bind fun t ht => ?_
  refine hE.guard rfl fun _ => ?_
  refine hE.guard rfl fun _ => ?_
  refine hE.guard rfl fun _ => ?_
  refine (timingSupplyResponse_meets hE ..).bind fun resp _ => ?_
  rw [amendHead_eq ht]
  generalize hb : (_ && t.pkt.supplyExclusive) = b
  have hs : c.path.Step (.amend i b)
      (c.path.setRegister ⟨.writeBuffer, i⟩ (amendHead (c.path.writeBuffer.registers i) b)) :=
        ⟨hi, rfl⟩
  obtain ⟨hinv, heffect⟩ := step_spec h hs
  generalize c.path.setRegister ⟨.writeBuffer, i⟩
    (amendHead (c.path.writeBuffer.registers i) b) = path at *
  have hlive : path.Live ⟨.writeBuffer, i⟩ := (congrArg (i ∈ ·) heffect.2.1.live).mpr hi
  refine .ite (fun _ => ?_) fun _ => ⟨rfl, _, ⟨.single hs, rfl⟩, .supplied i b⟩
  refine (step_meets (.issue ⟨.writeBuffer, i⟩ _) hE hinv hlive (by simp)).bind fun path' hs' => ?_
  exact ⟨rfl, _, ⟨(Runs.single hs).append (.single hs'), rfl⟩, .taken i b _⟩

include hE hσ in
theorem snoopBuffers_meets (h : c.path.Inv) (hblk : blk ≠ some .temp) :
    Meets (fun c' => c.SameTemp c' ∧ ∃ ops, c.Reaches ops c' ∧ Supplied ops) E
      (c.snoopBuffers now pkt blk reply) := by
  unfold snoopBuffers
  split
  · refine (snoopBlock_meets hE hσ (fun h => absurd h hblk) ..).bind fun a ⟨hsnoop, hpath⟩ => ?_
    exact ⟨hsnoop.other hblk, [], ⟨hpath ▸ .nil, hsnoop.params⟩, .missed⟩
  · rename_i i hmatch
    have hi : i ∈ c.path.writeBuffer.live := by
      have hmem : i ∈ c.path.writeBuffer.findMatches (c.params.blockAlign pkt.addr) := by simp [hmatch]
      exact (mem_filter.mp hmem).1
    refine (snoopWriteback_meets hE h hi).bind fun ⟨c₁, pkt1⟩ ⟨hsame, ops, hreach, hsupplied⟩ => ?_
    refine (snoopBlock_meets hE hσ (fun h => absurd h hblk) ..).bind fun a ⟨hsnoop, hpath⟩ => ?_
    exact ⟨(hsnoop.other hblk).trans hsame, ops,
      ⟨hpath ▸ hreach.runs, hsnoop.params.trans hreach.params⟩, hsupplied⟩
  · exact hE.pass rfl

include hE hσ in
theorem snoopTiming_meets (h : c.path.Inv) :
    Meets (fun c' => c.SameTemp c' ∧ ∃ ops, c.Reaches ops c' ∧ c.Snoop now pkt ops) E
      (c.snoopTiming now pkt reply) := by
  unfold snoopTiming
  refine .ite (fun hskip => ?_) fun hskip => ?_
  · exact ⟨rfl, [], ⟨.nil, rfl⟩, [], .missed, by rw [snooped, if_pos hskip]; rfl⟩
  refine (findBlock_meets hσ pkt.addr).bind fun blk hblk => ?_
  cases hmatch : c.path.mshrQueue.findMatch (c.params.blockAlign pkt.addr) with
  | none =>
    refine (snoopBuffers_meets hE hσ h hblk).mono fun c' ⟨hsame, ops, hreach, hsupplied⟩ => ?_
    exact ⟨hsame, ops, hreach, ops, hsupplied, by rw [snooped, if_neg hskip, hmatch]; rfl⟩
  | some i =>
    have hlive : i ∈ c.path.mshrQueue.live := mem_of_find?_eq_some hmatch
    dsimp only
    have hs : c.path.Step (.snoop now i pkt)
        { c.path.setRegister ⟨.mshrs,
          i⟩ ((c.path.mshrQueue.registers i).handleSnoop now pkt c.path.order).1 with
          order := c.path.order + 1 } := ⟨hlive, rfl⟩
    generalize { c.path.setRegister ⟨.mshrs, i⟩
      ((c.path.mshrQueue.registers i).handleSnoop now pkt
        c.path.order).1 with order := c.path.order + 1 } = path at *
    have hfirst : c.Reaches [.snoop now i pkt] { c with path := path } := ⟨.single hs, rfl⟩
    refine .ite (fun _ => ?_) fun _ => ?_
    · exact ⟨rfl, _, hfirst, [], .missed, by rw [snooped, if_neg hskip, hmatch]; rfl⟩
    · refine (snoopBuffers_meets hE hσ (step_spec h hs).1 hblk).mono
        fun c' ⟨hsame, ops, hreach, hsupplied⟩ => ?_
      exact ⟨hsame, _, hfirst.trans hreach, ops, hsupplied, by rw [snooped, if_neg hskip, hmatch]; rfl⟩

omit [TagStore σ] in
theorem Snoop.retires (h : c.Snoop now pkt ops) (r : MSHRRef) :
    ∀ op ∈ ops, ∀ now wasFull, op ≠ .retire now wasFull r := by
  obtain ⟨rest, hsupplied, rfl⟩ := h
  have hrest : ∀ op ∈ rest, ∀ now wasFull, op ≠ .retire now wasFull r := by
    cases hsupplied <;> simp
  intro op hop
  rcases mem_append.mp hop with hop | hop
  · cases hi : c.snooped pkt <;> simp [hi] at hop
    subst hop
    simp
  · exact hrest op hop

def Expects (p : MissPath) (r : MSHRRef) : Prop :=
  p.Live r ∧ ¬ ∃ t, (p.register r).allTargets = [t] ∧ t.isCPU = true ∧ t.pkt.needsResponse = false

theorem pending_of_nextPending (h : p.Inv) (hr : p.nextPending now = some r) : Pending p r := by
  have hfirst : ∀ {q : MSHRQueue} {i}, q.getNextMSHR now = some i → i ∈ q.readyList.values := fun hq =>
    mem_of_mem_head? (Option.eq_some_of_filter_eq_some hq)
  have hmiss : ∀ {i}, i ∈ p.mshrQueue.readyList.values → Pending p ⟨.mshrs, i⟩ :=
    (h.good .mshrs).pending
  have hwrite : ∀ {i}, i ∈ p.writeBuffer.readyList.values → Pending p ⟨.writeBuffer, i⟩ :=
    (h.good .writeBuffer).pending
  unfold nextPending at hr
  split at hr
  · rename_i hm _
    cases hr
    exact hmiss (hfirst hm)
  · rename_i hw
    cases hr
    exact hwrite (hfirst hw)
  · rename_i hm hw
    cases hr
    unfold chooseMSHR
    dsimp only
    split
    · split
      · rename_i hc
        exact hmiss (mem_of_find?_eq_some (Option.eq_some_of_filter_eq_some hc))
      · exact hwrite (hfirst hw)
    · split
      · rename_i hc
        exact hwrite (mem_of_find?_eq_some hc)
      · exact hmiss (hfirst hm)
  · cases hr

theorem issue_onItsWay (h : p.Inv) (hs : p.Step (.issue r pkt) p') (hr : Expects p r) :
    OnItsWay p' r := by
  obtain ⟨-, -, -, -, ⟨-, ht⟩ | ⟨hchanged, hissued⟩⟩ := step_spec h hs
  · exact absurd ht hr.2
  · exact ⟨(congrArg (r.index ∈ ·) hchanged.live).mpr hr.1, hissued.inService⟩

/-- The operations to send what a register waits for. A store conditional that has
lost its block is answered at once instead. -/
inductive Sent (quiet : Prop) (now : Nat) (r : MSHRRef) : List PathOp → TimingPacket → Prop
  | failed {ops : List PathOp} (h : Response quiet now r ops) : Sent quiet now r ops .nothing
  | above (pkt : Packet) : Sent quiet now r [.issue r pkt] (.answeredAbove r)
  | passed (pkt : Packet) : Sent quiet now r [] (.packet r pkt)
  | made (b : Bool) (pkt : Packet) : Sent quiet now r [.forward r b] (.packet r pkt)

def TimingPacket.awaited : TimingPacket → Option MSHRRef
  | .nothing => none
  | .answeredAbove r => some r
  | .packet r pkt => if pkt.needsResponse then some r else none

def Offers (p : MissPath) : TimingPacket → Prop
  | .nothing => True
  | .answeredAbove r => OnItsWay p r
  | .packet r pkt => Pending p r ∧ (pkt.needsResponse = true → Expects p r)

omit hσ in
include hE in
theorem requestPacket_meets (target : Packet) (blk : Option BlkRef) (h : c.path.Inv)
    (hr : Pending c.path r) (hex : Expects c.path r) :
    Meets (fun a => c.SameTemp a.1 ∧ ∃ ops, c.Reaches ops a.1 ∧ Sent quiet now r ops a.2 ∧
      Offers a.1.path a.2) E
      (c.requestPacket r target blk) := by
  refine (getBusPacket_meets hE ..).bind fun bus _ => ?_
  have hs : c.path.Step (.forward r bus.isNone)
      (c.path.setRegister r { c.path.register r with isForward := bus.isNone }) := ⟨hr.1, rfl⟩
  obtain ⟨-, -, hchanged, -, halike, hall⟩ := step_spec h hs
  have hlive := (congrArg (r.index ∈ ·) hchanged.live).mpr hr.1
  refine ⟨rfl, _, ⟨.single hs, rfl⟩, .made .., ⟨hlive, halike.inService.trans hr.2⟩,
    fun _ => ⟨hlive, ?_⟩⟩
  rw [hall]
  exact hex.2

include hE hσ in
theorem packetFor_meets (h : c.path.Inv)
    (hr : Pending c.path r) (hroom : c.path.Room E quiet .writeBuffer) :
    Meets (fun a => c.SameTemp a.1 ∧ ∃ ops, c.Reaches ops a.1 ∧ Sent quiet now r ops a.2 ∧
      Offers a.1.path a.2) E
      (c.packetFor now r above replies) := by
  unfold packetFor
  refine (getTarget_faults hE).bind fun t ht => .ite (fun _ => ?_) fun _ => ?_
  · have hof : ∀ r', mshrOf (failResponse now r t.pkt) = .ok r' → r' = r := by
      rintro r' ⟨⟩
      rfl
    have hno : c.fillsTemp now r (failResponse now r t.pkt) = false := by
      have hread : (failResponse now r t.pkt).isRead = false := rfl
      have hcmd : (failResponse now r t.pkt).cmd = .upgradeFailResp := rfl
      simp [fillsTemp, isFill, hread, hcmd]
    refine (handleResponse_meets hE hσ h (fun r' hr' => ?_) hroom).bind ?_
    · rw [hof r' hr']
      exact ⟨hr.1, .inl fun h => by simp [hno] at h⟩
    · rintro c' ⟨r', ops, hr', hreach, hresp, htemp⟩
      rw [hof r' hr'] at hresp htemp
      exact ⟨htemp.other hno, ops, hreach, .failed hresp, trivial⟩
  refine ((isForwardNoResponse_faults hE).and fun b hb => hb).bind fun noResponse hno => ?_
  refine (findBlock_meets hσ _).bind fun blk hblk => ?_
  have hsound : (c.path.register r).Sound := (h.good r.queue).sound _ hr.1
  refine .ite (fun hyes => ?_) fun hnot => ?_
  · refine hE.guard rfl fun _ => ?_
    refine ⟨rfl, [], ⟨.nil, rfl⟩, .passed _, hr, fun hneeds => ?_⟩
    -- the target wants no response
    obtain ⟨t', ts, hts, -, hno'⟩ := MSHR.isForwardNoResponse_spec hno.2 hyes
    rw [hts, List.head?_cons, Option.some.injEq] at ht
    subst ht
    exact absurd (hno'.symm.trans hneeds) (by simp)
  have hex : Expects c.path r := by
    refine ⟨hr.1, MSHR.isForwardNoResponse_false hsound ?_⟩
    rw [hno.2, Bool.eq_false_iff.mpr hnot]
  refine .ite (fun _ => ?_) fun _ => requestPacket_meets hE _ blk h hr hex
  refine hE.guard rfl fun _ => ?_
  refine .ite (fun _ => ?_) fun _ => requestPacket_meets hE _ blk h hr hex
  refine (step_meets (.issue r _) hE h hr.1 (by simp)).bind fun path hs => ?_
  exact ⟨rfl, _, ⟨.single hs, rfl⟩, .above _, issue_onItsWay h hs hex⟩

def Prefetched (now : Nat) (offer : Option Packet) (ops : List PathOp) : Prop :=
  ops = [] ∨ ∃ addr size pkt, offer = some pkt ∧ ops = [.enqueue now .mshrs addr size pkt now]

def prefetches (c : Cache σ) (now : Nat) : Bool :=
  c.params.prefetcher && !c.path.mshrQueue.isFull && (c.path.nextPending now).isNone

include hE hσ in
theorem getNextMSHR_meets (h : c.path.Inv) (hroom : c.path.Room E quiet .mshrs) :
    Meets (fun a => c.SameTemp a.1 ∧ ∃ ops, c.Reaches ops a.1 ∧ Prefetched now offer ops ∧
      (ops ≠ [] → c.prefetches now = true) ∧ ∀ r, a.2 = some r → Pending a.1.path r) E
      (c.getNextMSHR now offer) := by
  unfold getNextMSHR
  split
  · rename_i r hnext
    refine ⟨rfl, [], ⟨.nil, rfl⟩, .inl rfl, fun hne => absurd rfl hne, ?_⟩
    rintro _ ⟨⟩
    exact pending_of_nextPending h hnext
  rename_i hnone
  refine .ite (fun hfree => ?_) fun _ =>
    ⟨rfl, [], ⟨.nil, rfl⟩, .inl rfl, fun hne => absurd rfl hne, nofun⟩
  have hasked : c.prefetches now = true := by rw [prefetches, hfree, hnone]; rfl
  unfold tryPrefetch
  cases offer with
  | none => exact ⟨rfl, [], ⟨.nil, rfl⟩, .inl rfl, fun hne => absurd rfl hne, nofun⟩
  | some pkt =>
    refine (findBlock_meets hσ _).bind fun blk hblk => ?_
    refine .ite (fun _ => ?_) fun _ =>
      ⟨rfl, [], ⟨.nil, rfl⟩, .inl rfl, fun hne => absurd rfl hne, nofun⟩
    refine (countAccess_meets hE).bind fun _ _ => ?_
    refine ((allocateMissBuffer_meets hE h hroom ..).and fun a ha => ha).bind
      fun ⟨path, r⟩ ⟨⟨hq, hs⟩, ha⟩ => ?_
    refine ⟨rfl, _, ⟨.single hs, rfl⟩, .inr ⟨_, _, pkt, rfl, rfl⟩, fun _ => hasked, ?_⟩
    rintro _ ⟨⟩
    replace ha := of_guard ha
    obtain ⟨-, -, -, -, htaken, hfresh⟩ :=
      (allocateBufferInternal_meets (E := fun _ => True) h (.inl trivial)).result ha
    have hq : r.queue = .mshrs := hq
    refine ⟨?_, ?_⟩
    · rw [Live, hq, htaken.live]
      simp
    · rw [register, hq]
      exact hfresh.inService

/-- The operations of a turn to send, and what is sent: nothing, or the packet the
register gave, with what the snoopers set on it. -/
inductive Sending (quiet : Prop) (now : Nat) (offer : Option Packet) :
    List PathOp → TimingPacket → Prop
  | idle {first : List PathOp} (hfirst : Prefetched now offer first) : Sending quiet now
      offer first .nothing
  | settled {first rest : List PathOp} {r : MSHRRef} {out : TimingPacket}
      (hfirst : Prefetched now offer first)
    (hsent : Sent quiet now r rest out) (hout : ∀ r pkt, out ≠ .packet r pkt) :
    Sending quiet now offer (first ++ rest) out
  | refused {first rest : List PathOp} {r : MSHRRef} {pkt : Packet}
      (hfirst : Prefetched now offer first)
    (hsent : Sent quiet now r rest (.packet r pkt)) : Sending quiet now offer (first ++ rest) .nothing
  | issued {first rest : List PathOp} {r : MSHRRef} {pkt : Packet} (pkt' : Packet)
    (hfirst : Prefetched now offer first) (hsent : Sent quiet now r rest (.packet r pkt)) :
    Sending quiet now offer (first ++ rest ++ [.issue r pkt']) (.packet r pkt')

structure Sends (quiet : Prop) (now : Nat) (offer : Option Packet) (c : Cache σ) (ops : List PathOp)
    (a : Cache σ × TimingPacket) : Prop where
  reaches : c.Reaches ops a.1
  sending : Sending quiet now offer ops a.2
  awaits : ∀ r, TimingPacket.awaited a.2 = some r → OnItsWay a.1.path r ∧ ¬ OnItsWay c.path r
  keeps : ∀ r, OnItsWay c.path r → OnItsWay a.1.path r
  prefetch : (∃ op ∈ ops, op.fills .mshrs = true) → c.prefetches now = true

theorem Response.fills (h : Response quiet now r ops) : ∀ op ∈ ops, op.fills .mshrs = false := by
  obtain ⟨serving, wasFull, time, pkts, rfl, hserving, -⟩ := h
  simp only [mem_append, mem_cons, writebackOps, mem_map]
  rintro op (hop | rfl | ⟨pkt, -, rfl⟩)
  · exact serving_fills (hserving op hop) _
  · rfl
  · rfl

theorem Sent.fills (h : Sent quiet now r ops out) :
    ∀ op ∈ ops, op.fills .mshrs = false := by
  cases h with
  | failed h => exact h.fills
  | above pkt | made b pkt => simp [PathOp.fills]
  | passed pkt => simp

theorem Response.retires (h : Response quiet now r ops) (hne : r' ≠ r) :
    ∀ op ∈ ops, ∀ now wasFull, op ≠ .retire now wasFull r' := by
  obtain ⟨serving, wasFull, time, pkts, rfl, hserving, -⟩ := h
  simp only [mem_append, mem_cons, writebackOps, mem_map]
  rintro op (hop | rfl | ⟨pkt, -, rfl⟩) n w he
  · rcases hserving op hop with rfl | ⟨pkt, rfl⟩ | ⟨response, rfl⟩ <;> cases he
  · cases he
    exact hne rfl
  · cases he

theorem Sent.retires (h : Sent quiet now r ops out)
    (hne : r' ≠ r) : ∀ op ∈ ops, ∀ now wasFull, op ≠ .retire now wasFull r' := by
  cases h with
  | failed h => exact h.retires hne
  | above pkt => simp
  | passed pkt => simp
  | made b pkt => simp

theorem Prefetched.retires (h : Prefetched now offer ops)
    (r : MSHRRef) : ∀ op ∈ ops, ∀ now wasFull, op ≠ .retire now wasFull r := by
  rcases h with rfl | ⟨addr, size, pkt, -, rfl⟩ <;> simp

theorem Prefetched.fills (h : Prefetched now offer ops) :
    ∀ op ∈ ops, op.fills .writeBuffer = false := by
  rcases h with rfl | ⟨addr, size, pkt, -, rfl⟩ <;> simp [PathOp.fills]

structure Gets (quiet : Prop) (now : Nat) (offer : Option Packet) (c : Cache σ) (first : List PathOp)
    (c₁ : Cache σ) (rest : List PathOp) (a : Cache σ × TimingPacket) : Prop where
  before : c.Reaches first c₁
  after : c₁.Reaches rest a.1
  prefetched : Prefetched now offer first
  free : first ≠ [] → c.prefetches now = true
  sent : rest = [] ∧ a.2 = .nothing ∨ ∃ r, Pending c₁.path r ∧ Sent quiet now r rest a.2
  offers : Offers a.1.path a.2

include hE hσ in
theorem getTimingPacket_meets (h : c.path.Inv) (hroom : ∀ ix, c.path.Room E quiet ix) :
    Meets (fun a => c.SameTemp a.1 ∧ ∃ first c₁ rest, Gets quiet now offer c first c₁ rest a) E
      (c.getTimingPacket now offer above replies) := by
  refine (getNextMSHR_meets hE hσ h (hroom .mshrs)).bind
    fun ⟨c₁, next⟩ ⟨htemp, first, hreach, hpre, hfree, hpend⟩ => ?_
  cases next with
  | none => exact ⟨htemp, first, c₁, [], hreach, ⟨.nil, rfl⟩, hpre, hfree, .inl ⟨rfl, rfl⟩, trivial⟩
  | some r =>
    have hroom' : c₁.path.Room E quiet .writeBuffer := (hroom .writeBuffer).imp id fun hroom =>
      ⟨hroom.1, run_free hreach.runs h .writeBuffer hpre.fills hroom.2⟩
    refine (packetFor_meets hE hσ (run_inv hreach.runs h) (hpend r rfl) hroom').mono
      fun a ⟨htemp', rest, hreach', hsent, hoffers⟩ => ?_
    exact ⟨htemp'.trans htemp, first, c₁, rest, hreach, hreach', hpre, hfree,
      .inr ⟨r, hpend r rfl, hsent⟩, hoffers⟩

namespace Gets

omit [TagStore σ]

theorem fills (hget : Gets quiet now offer c first c₁ rest a)
    (h : ∃ op ∈ first ++ rest, op.fills .mshrs = true) : c.prefetches now = true := by
  obtain ⟨op, hop, hfills⟩ := h
  rcases mem_append.mp hop with hop | hop
  · exact hget.free (ne_nil_of_mem hop)
  · rcases hget.sent with ⟨rfl, -⟩ | ⟨r, -, hsent⟩
    · simp at hop
    · rw [hsent.fills op hop] at hfills
      cases hfills

theorem keeps_first (hget : Gets quiet now offer c first c₁ rest a) (h : c.path.Inv)
    (hr : OnItsWay c.path r) : OnItsWay c₁.path r :=
  hr.run h hget.before.runs (hget.prefetched.retires r)

theorem keeps (hget : Gets quiet now offer c first c₁ rest a) (h : c.path.Inv)
    (hr : OnItsWay c.path r) : OnItsWay a.1.path r := by
  have hr1 := hget.keeps_first h hr
  refine hr1.run (run_inv hget.before.runs h) hget.after.runs ?_
  rcases hget.sent with ⟨rfl, -⟩ | ⟨r', hpend, hsent⟩
  · simp
  · refine hsent.retires ?_
    rintro rfl
    exact hr1.not_pending hpend

end Gets

include hE hσ in
theorem sendDeferredPacket_meets (h : c.path.Inv)
    (hroom : ∀ ix, c.path.Room E quiet ix) :
    Meets (fun a => c.SameTemp a.1 ∧ ∃ ops, Sends quiet now offer c ops a) E
      (c.sendDeferredPacket now offer above replies sent reply) := by
  refine (getTimingPacket_meets hE hσ h hroom).bind
    fun ⟨c2, out⟩ ⟨htemp, first, c₁, rest, hget⟩ => ?_
  have hreach := hget.before.trans hget.after
  have hkeeps : ∀ r, OnItsWay c.path r → OnItsWay c2.path r := fun r => hget.keeps h
  cases out with
  | nothing =>
    refine ⟨htemp, first ++ rest, hreach, ?_, by simp [TimingPacket.awaited], hkeeps, hget.fills⟩
    rcases hget.sent with ⟨rfl, -⟩ | ⟨r, -, hsent⟩
    · rw [append_nil]
      exact .idle hget.prefetched
    · exact .settled hget.prefetched hsent (by simp)
  | answeredAbove r' =>
    obtain ⟨r, hpend, hsent⟩ := hget.sent.resolve_left (by simp)
    obtain rfl : r' = r := by cases hsent; rfl
    refine ⟨htemp, _, hreach, .settled hget.prefetched hsent (by simp), ?_, hkeeps, hget.fills⟩
    rintro _ ⟨⟩
    exact ⟨hget.offers, fun hr => (hget.keeps_first h hr).not_pending hpend⟩
  | packet r' pkt =>
    obtain ⟨r, hpend, hsent⟩ := hget.sent.resolve_left (by simp)
    obtain rfl : r' = r := by cases hsent <;> rfl
    obtain ⟨hpend', hex⟩ := hget.offers
    refine .ite (fun _ => ?_) fun _ => ?_
    · have hinv := run_inv hreach.runs h
      refine (step_meets (.issue r' _) hE hinv hpend'.1 (by simp)).bind fun path hs => ?_
      refine ⟨htemp, _, hreach.trans ⟨.single hs, rfl⟩,
        .issued _ hget.prefetched hsent, fun r ha => ?_,
        fun r hr => (hkeeps r hr).step hinv hs (by simp), fun h => hget.fills ?_⟩
      · simp only [TimingPacket.awaited, Option.ite_none_right_eq_some, Option.some.injEq] at ha
        obtain ⟨hneeds, rfl⟩ := ha
        exact ⟨issue_onItsWay hinv hs (hex hneeds),
          fun hr => (hget.keeps_first h hr).not_pending hpend⟩
      · obtain ⟨op, hop, hfills⟩ := h
        refine ⟨op, (mem_append.mp hop).resolve_right fun hop => ?_, hfills⟩
        rw [mem_singleton.mp hop] at hfills
        cases hfills
    · exact ⟨htemp, _, hreach, .refused hget.prefetched hsent, by simp [TimingPacket.awaited],
        hkeeps, hget.fills⟩

end Cache

end Gem5
