import Gem5.Dev.DmaPort

/-!
# Every transfer of a DMA port completes once

What the port sends and what it has been answered, and the books it keeps on its transfers.
The two meet where a response is handled, in the middle of which the device may start
further transfers.
-/

namespace Gem5.DmaWorld

open Lib List DmaPort Nat

variable {p p' : DmaPort} {pkt : DmaPacket} {c : DmaCall} {w w' : DmaWorld} {e : DmaEvent}

structure Loose (p : DmaPort) : Prop where
  order : p.peer.accepted ++ p.transmitList = p.queued
  flight : p.peer.accepted.Perm (p.peer.inFlight ++ p.peer.answered)
  pending : p.pendingCount = p.outstanding % 2 ^ 32

structure Core (p : DmaPort) : Prop extends Loose p where
  idle : p.inRetry = false → p.transmitList = []
  waiting : p.inRetry = true → p.transmitList ≠ []
  refused : p.peer.refused = p.inRetry

structure Sends (p p' : DmaPort) (added : List DmaPacket) : Prop where
  queued : p'.queued = p.queued ++ added
  outstanding : p'.outstanding = p.outstanding + added.length
  states : p'.states = p.states
  calls : p'.calls = p.calls
  completions : p'.completions = p.completions
  drained : p'.drained = p.drained
  drainEvent : p'.drainEvent = p.drainEvent
  blockSize : p'.peer.blockSize = p.peer.blockSize
  answered : p'.peer.answered = p.peer.answered

theorem Sends.trans (h : Sends p p' added) (h' : Sends p' p'' added') :
    Sends p p'' (added ++ added') where
  queued := by rw [h'.queued, h.queued, append_assoc]
  outstanding := by rw [h'.outstanding, h.outstanding, length_append, add_assoc]
  states := h'.states.trans h.states
  calls := h'.calls.trans h.calls
  completions := h'.completions.trans h.completions
  drained := h'.drained.trans h.drained
  drainEvent := h'.drainEvent.trans h.drainEvent
  blockSize := h'.blockSize.trans h.blockSize
  answered := h'.answered.trans h.answered

def accept (p : DmaPort) (pkt : DmaPacket) (rest : List DmaPacket) (inRetry : Bool) : DmaPort :=
  { p with transmitList := rest, inRetry, peer := { p.peer with
      presented := p.peer.presented + 1, accepted := p.peer.accepted ++ [pkt],
        inFlight := p.peer.inFlight ++ [pkt] } }

def refuseFront (p : DmaPort) : DmaPort :=
  { p with
    inRetry := true, peer := { p.peer with presented := p.peer.presented + 1, refused := true } }

theorem accept_loose (h : Loose p) (hlist : p.transmitList = pkt :: rest) (inRetry : Bool) :
    Loose (accept p pkt rest inRetry) ∧ Sends p (accept p pkt rest inRetry) [] := by
  have hout : (accept p pkt rest inRetry).outstanding = p.outstanding := by
    simp only [outstanding, accept, hlist, length_append, length_cons, length_nil]
    omega
  refine ⟨⟨?_, ?_, ?_⟩, (append_nil _).symm, hout, rfl, rfl, rfl, rfl, rfl, rfl, rfl⟩
  · rw [accept, ← h.order, hlist, append_assoc]
    rfl
  · calc p.peer.accepted ++ [pkt]
      _ |>.Perm (p.peer.inFlight ++ p.peer.answered ++ [pkt]) := h.flight.append_right _
      _ |>.Perm (p.peer.inFlight ++ [pkt] ++ p.peer.answered) := by
        rw [append_assoc, append_assoc]
        exact (perm_append_comm).append_left _
  · rw [hout]
    exact h.pending

theorem refuseFront_core (h : Loose p) (hne : p.transmitList ≠ []) :
    Core (refuseFront p) ∧ Sends p (refuseFront p) [] :=
  ⟨⟨⟨h.order, h.flight, h.pending⟩, by simp [refuseFront], fun _ => hne, rfl⟩,
    (append_nil _).symm, rfl, rfl, rfl, rfl, rfl, rfl, rfl, rfl⟩

theorem sendDma_spec (h : Loose p) (pkt : DmaPacket) (hne : p.transmitList ≠ [])
    (hidle : p.inRetry = false → p.transmitList = [pkt]) (hrefused : p.peer.refused = p.inRetry) :
    ∃ p', p.sendDma = .ok p' ∧ Core p' ∧ Sends p p' [] := by
  cases hlist : p.transmitList with
  | nil => exact absurd hlist hne
  | cons first rest =>
    rw [sendDma, hlist]
    cases hretry : p.inRetry with
    | true =>
      refine ⟨p, rfl, ⟨h, by simp [hretry], fun _ => hne, hrefused⟩, (append_nil _).symm, rfl, rfl,
        rfl, rfl, rfl, rfl, rfl, rfl⟩
    | false =>
      have hone := hidle hretry
      rw [hlist] at hone
      obtain ⟨rfl, rfl⟩ := List.cons.inj hone
      cases hanswer : p.peer.answers p.peer.presented with
      | true =>
        refine ⟨accept p first [] false, ?_,
          ⟨(accept_loose h hlist false).1, fun _ => rfl, by simp [accept], ?_⟩,
          (accept_loose h hlist false).2⟩
        · simp [sendLoop, sendTimingReq, hanswer, hlist, accept, hretry]
        · exact hrefused.trans hretry
      | false =>
        refine ⟨refuseFront p, ?_, (refuseFront_core h hne).1, (refuseFront_core h hne).2⟩
        simp [sendLoop, sendTimingReq, hanswer, refuseFront]

theorem queueDma_spec (h : Core p) (pkt : DmaPacket) :
    ∃ p', p.queueDma pkt = .ok p' ∧ Core p' ∧ Sends p p' [pkt] := by
  set q : DmaPort := { p with
    transmitList := p.transmitList ++ [pkt], pendingCount := (p.pendingCount + 1) % 2 ^ 32,
      queued := p.queued ++ [pkt] } with hq
  have hout : q.outstanding = p.outstanding + 1 := by
    rw [outstanding, outstanding, hq, length_append, length_singleton]
    dsimp only
    omega
  have hloose : Loose q := by
    refine ⟨?_, h.flight, ?_⟩
    · rw [hq, ← h.order, append_assoc]
    · rw [hout, hq, h.pending, mod_add_mod]
  obtain ⟨p', heq, hcore, hsends⟩ := sendDma_spec hloose pkt (by simp [hq])
    (fun hretry => by rw [hq]; dsimp only; rw [h.idle hretry, nil_append]) h.refused
  have hframe : Sends p q [pkt] := ⟨rfl, hout, rfl, rfl, rfl, rfl, rfl, rfl, rfl⟩
  exact ⟨p', heq, hcore, hframe.trans hsends⟩

theorem queueAll_spec (packets : List DmaPacket) (h : Core p) :
    ∃ p', packets.foldlM DmaPort.queueDma p = .ok p' ∧ Core p' ∧ Sends p p' packets := by
  induction packets generalizing p with
  | nil => exact ⟨p, rfl, h, (append_nil _).symm, rfl, rfl, rfl, rfl, rfl, rfl, rfl, rfl⟩
  | cons pkt packets ih =>
    obtain ⟨p1, heq1, hcore1, hsends1⟩ := queueDma_spec h pkt
    obtain ⟨p', heq, hcore, hsends⟩ := ih hcore1
    refine ⟨p', ?_, hcore, hsends1.trans hsends⟩
    rw [foldlM_cons, heq1, ok_bind, heq]

theorem retryLoop_spec (n : Nat) (h : Loose p) (hn : p.transmitList.length = n + 1)
    (hrefused : p.peer.refused = false) :
    Core (DmaPort.retryLoop (n + 1) p) ∧ Sends p (DmaPort.retryLoop (n + 1) p) [] := by
  induction n generalizing p with
  | zero =>
    obtain ⟨pkt, hlist⟩ := length_eq_one_iff.mp hn
    cases hanswer : p.peer.answers p.peer.presented with
    | true =>
      have hloop : retryLoop 1 p = accept p pkt [] false := by
        simp [retryLoop, sendTimingReq, hanswer, hlist, accept]
      rw [hloop]
      exact ⟨⟨(accept_loose h hlist false).1, fun _ => rfl, by simp [accept], hrefused⟩,
        (accept_loose h hlist false).2⟩
    | false =>
      have hloop : retryLoop 1 p = refuseFront p := by
        simp [retryLoop, sendTimingReq, hanswer, hlist, refuseFront]
      rw [hloop]
      exact refuseFront_core h (by simp [hlist])
  | succ n ih =>
    obtain ⟨pkt, rest, hlist⟩ := exists_cons_of_length_eq_add_one hn
    cases hanswer : p.peer.answers p.peer.presented with
    | true =>
      have hrest : rest.length = n + 1 := by simpa [hlist] using hn
      have hloop : retryLoop (n + 2) p = retryLoop (n + 1) (accept p pkt rest false) := by
        have hne : rest.isEmpty = false := by
          cases rest with
          | nil => nomatch hrest
          | cons => rfl
        rw [retryLoop]
        simp [sendTimingReq, hanswer, hlist, accept, hne]
      rw [hloop]
      obtain ⟨hloose, hsends⟩ := accept_loose h hlist false
      obtain ⟨hcore, hsends'⟩ := ih hloose hrest hrefused
      exact ⟨hcore, hsends.trans hsends'⟩
    | false =>
      have hloop : retryLoop (n + 2) p = refuseFront p := by
        simp [retryLoop, sendTimingReq, hanswer, hlist, refuseFront]
      rw [hloop]
      exact refuseFront_core h (by simp [hlist])

variable {id block : Nat} {queued answered : List DmaPacket} {calls : List DmaCall}
  {states : List (Option DmaReqState)} {completions : List Nat}

theorem bytesOf_append : bytesOf id
    (packets ++ packets') = bytesOf id packets + bytesOf id packets' := by
  rw [bytesOf, filter_append, map_append, sum_append_nat, bytesOf, bytesOf]

theorem bytesOf_singleton : bytesOf id [pkt] = if pkt.state = id then pkt.size else 0 := by
  by_cases h : pkt.state = id <;> simp [bytesOf, h]

theorem bytesOf_perm (h : packets.Perm packets') : bytesOf id packets = bytesOf id packets' :=
  ((h.filter _).map _).sum_eq

section

variable (h : Tiles c block offset packets)
include h

theorem Tiles.sum : offset + (packets.map (·.size)).sum = c.size := by
  induction packets generalizing offset with
  | nil => exact h
  | cons pkt packets ih =>
    have hrest := ih h.2.2.2.2.2
    rw [map_cons, sum_cons]
    omega

theorem Tiles.pos : ∀ pkt ∈ packets, 0 < pkt.size := by
  induction packets generalizing offset with
  | nil => exact forall_mem_nil _
  | cons first packets ih =>
    intro pkt hpkt
    rcases mem_cons.mp hpkt with rfl | hpkt
    · exact h.2.2.2.1
    · exact ih h.2.2.2.2.2 pkt hpkt

end

theorem Tiles.of_covers (h : CoversRange c.addr c.size block offset chunks) :
    Tiles c block offset (chunks.map (DmaPort.packet c id)) := by
  induction chunks generalizing offset with
  | nil => exact h
  | cons chunk chunks ih =>
    obtain ⟨haddr, hcomplete, hpos, hinside, hrest⟩ := h
    exact ⟨rfl, haddr, by rw [packet, hcomplete], hpos, hinside, ih hrest⟩

structure Booked (block : Nat) (calls : List DmaCall) (queued answered : List DmaPacket)
    (states : List (Option DmaReqState)) (completions : List Nat) : Prop where
  length : states.length = calls.length
  proper : ∀ c ∈ calls, Proper c
  known : ∀ pkt ∈ queued, pkt.state < calls.length
  tiles : ∀ id c, calls[id]? = some c → Tiles c block 0 (queued.filter (·.state == id))
  state : ∀ id c, calls[id]? = some c → states[id]? = some (if bytesOf id answered = c.size then none
    else some { completionEvent := c.event, totBytes := c.size, numBytes := bytesOf id answered,
                delay := c.delay })
  completed : ∀ id c, calls[id]? = some c →
    completions.count id = if bytesOf id answered = c.size ∧ c.event.isSome then 1 else 0
  only : ∀ id ∈ completions, id < calls.length

section

variable (h : Booked block calls queued answered states completions)
include h

theorem Booked.bytes (hc : calls[id]? = some c) : bytesOf id queued = c.size := by
  have hsum := (h.tiles id c hc).sum
  rwa [zero_add] at hsum

theorem Booked.add (hsub : ∀ pkt ∈ answered, pkt ∈ queued) (hproper : Proper c)
    (htiles : Tiles c block 0 packets) (hpackets : ∀ pkt ∈ packets, pkt.state = calls.length) :
    Booked block (calls ++ [c]) (queued ++ packets) answered
      (states ++ [some { completionEvent := c.event, totBytes := c.size, delay := c.delay }])
        completions := by
  have hnew : ∀ {id c'}, (calls ++ [c])[id]? = some c' → calls[id]? = some c' ∨
      id = calls.length ∧ c' = c := by
    intro id c' hid
    rcases lt_trichotomy id calls.length with hlt | heq | hgt
    · exact .inl (by rwa [List.getElem?_append_left hlt] at hid)
    · rw [heq, List.getElem?_concat_length] at hid
      exact .inr ⟨heq, (Option.some.inj hid).symm⟩
    · rw [List.getElem?_eq_none (by simp; omega)] at hid
      nomatch hid
  have hlt : ∀ {id c'}, calls[id]? = some c' → id < calls.length :=
    fun hid => (List.getElem?_eq_some_iff.mp hid).1
  have hnone : bytesOf calls.length answered = 0 := by
    rw [bytesOf, filter_eq_nil_iff.mpr fun pkt hpkt => by simpa using (h.known pkt (hsub pkt hpkt)).ne]
    rfl
  have hsize : ¬ bytesOf calls.length answered = c.size := by
    have := hproper.2.1
    omega
  refine ⟨by simp [h.length], ?_, ?_, ?_, ?_, ?_, fun id hid => (h.only id hid).trans (by simp)⟩
  · intro c' hc'
    rcases mem_append.mp hc' with hc' | hc'
    · exact h.proper c' hc'
    · rwa [mem_singleton.mp hc']
  · intro pkt hpkt
    rw [length_append, length_singleton]
    rcases mem_append.mp hpkt with hpkt | hpkt
    · exact (h.known pkt hpkt).trans (lt_succ_self _)
    · rw [hpackets pkt hpkt]
      exact lt_succ_self _
  · intro id c' hid
    rw [filter_append]
    rcases hnew hid with hold | ⟨rfl, rfl⟩
    · have hother : packets.filter (·.state == id) = [] := by
        refine filter_eq_nil_iff.mpr fun pkt hpkt => ?_
        simpa [hpackets pkt hpkt] using (hlt hold).ne'
      rw [hother, append_nil]
      exact h.tiles id c' hold
    · have hother : queued.filter (·.state == calls.length) = [] := by
        refine filter_eq_nil_iff.mpr fun pkt hpkt => ?_
        simpa using (h.known pkt hpkt).ne
      have hall : packets.filter (·.state == calls.length) = packets := by
        refine filter_eq_self.mpr fun pkt hpkt => ?_
        simpa using hpackets pkt hpkt
      rwa [hother, hall, nil_append]
  · intro id c' hid
    rcases hnew hid with hold | ⟨rfl, rfl⟩
    · rw [List.getElem?_append_left (by rw [h.length]; exact hlt hold)]
      exact h.state id c' hold
    · rw [← h.length, List.getElem?_concat_length, h.length, if_neg hsize, hnone]
  · intro id c' hid
    rcases hnew hid with hold | ⟨rfl, rfl⟩
    · exact h.completed id c' hold
    · rw [if_neg fun hall => hsize hall.1]
      exact count_eq_zero.mpr fun hmem => (h.only _ hmem).ne rfl

theorem Booked.answer (hc : calls[pkt.state]? = some c)
    (hmore : bytesOf pkt.state answered < c.size) {state : Option DmaReqState}
    {completions' : List Nat}
    (hstate : state = if bytesOf pkt.state answered + pkt.size = c.size then none
      else some { completionEvent := c.event, totBytes := c.size,
                  numBytes := bytesOf pkt.state answered + pkt.size, delay := c.delay })
    (hcompletions : completions' = if bytesOf pkt.state answered + pkt.size = c.size ∧ c.event.isSome
      then completions ++ [pkt.state] else completions) :
    Booked block calls queued (answered ++ [pkt]) (states.set pkt.state state) completions' := by
  have hlt : pkt.state < calls.length := (List.getElem?_eq_some_iff.mp hc).1
  have hself : bytesOf pkt.state (answered ++ [pkt]) = bytesOf pkt.state answered + pkt.size := by
    rw [bytesOf_append, bytesOf_singleton, if_pos rfl]
  have hother : ∀ {id}, id ≠ pkt.state →
    bytesOf id (answered ++ [pkt]) = bytesOf id answered := fun hne => by
    rw [bytesOf_append, bytesOf_singleton, if_neg hne.symm, add_zero]
  refine ⟨by rw [length_set, h.length], h.proper, h.known, h.tiles, ?_, ?_, ?_⟩
  · intro id c' hid
    by_cases hne : id = pkt.state
    · subst hne
      cases hc.symm.trans hid
      rw [List.getElem?_set_self (by rw [h.length]; exact hlt), hself, hstate]
    · rw [List.getElem?_set_ne (Ne.symm hne), hother hne]
      exact h.state id c' hid
  · intro id c' hid
    have hbefore := h.completed id c' hid
    by_cases hne : id = pkt.state
    · subst hne
      cases hc.symm.trans hid
      rw [if_neg (by omega)] at hbefore
      rw [hself, hcompletions]
      split
      · rw [count_append, hbefore, count_singleton_self]
      · exact hbefore
    · rw [hother hne, hcompletions, ← hbefore]
      split
      · rw [count_append, count_singleton, if_neg (by simpa using Ne.symm hne), add_zero]
      · rfl
  · intro id hid
    rw [hcompletions] at hid
    split at hid
    · rcases mem_append.mp hid with hid | hid
      · exact h.only id hid
      · rwa [mem_singleton.mp hid]
    · exact h.only id hid

end

variable {k : Nat} {S : List (Option DmaReqState)}

def Books (p : DmaPort) (S : List (Option DmaReqState)) : Prop :=
  Booked p.peer.blockSize p.calls p.queued p.peer.answered S p.completions

structure Starts (p p' : DmaPort) (packets : Nat) : Prop where
  drained : p'.drained = p.drained
  drainEvent : p'.drainEvent = p.drainEvent
  blockSize : p'.peer.blockSize = p.peer.blockSize
  outstanding : p.outstanding ≤ p'.outstanding ∧ p'.outstanding ≤ p.outstanding + packets

theorem Loose.answered_queued (h : Loose p) : ∀ pkt ∈ p.peer.answered, pkt ∈ p.queued := by
  intro pkt hpkt
  rw [← h.order]
  exact mem_append_left _ (h.flight.mem_iff.mpr (mem_append_right _ hpkt))

variable (hk : k < 32) (hblock : p.peer.blockSize = 2 ^ k) (h : Core p)

include hk hblock h in
theorem dmaAction_spec (hbooks : Books p S) (hlength : p.states.length = S.length)
    (hproper : Proper c) (hfound : Found (2 ^ k) c) :
    ∃ p' state, p.dmaAction c = .ok p' ∧ Core p' ∧ p'.states = p.states ++ [state] ∧
      Books p' (S ++ [state]) ∧ Starts p p' (blocks (2 ^ k) c) ∧
      p.outstanding < p'.outstanding := by
  obtain ⟨gen, hgen, hat⟩ :=
    (ChunkGenerator.finds hk hproper.1 hproper.2.1 hfound).create hk hproper.1 hproper.2.1
  have htotal := hat.total
  have hcovers := (ChunkGenerator.chunks_cover hk (hproper.2.2.trans (by decide)) (c.size + 1)
    gen 0 hat (by omega)).2
  have hchunks := ChunkGenerator.length_chunks hk (c.size + 1) gen 0 hat (by omega)
  set state : DmaReqState :=
    { completionEvent := c.event, totBytes := c.size, delay := c.delay } with hstate
  set q : DmaPort := { p with states := p.states ++ [some state], calls := p.calls ++ [c] } with hq
  set packets := (gen.chunks (c.size + 1)).map (packet c p.states.length) with hpackets
  have htiles : Tiles c (2 ^ k) 0 packets := .of_covers hcovers
  have hcoreq : Core q := { h with }
  obtain ⟨p', heq, hcore, hsends⟩ := queueAll_spec packets hcoreq
  have hpos : 0 < packets.length := by
    refine length_pos_iff.mpr fun hnil => ?_
    have hsum := htiles.sum
    rw [hnil] at hsum
    exact absurd hsum (by simpa using (lt_of_lt_of_le zero_lt_one hproper.2.1).ne)
  have hout : p'.outstanding = p.outstanding + packets.length := hsends.outstanding
  have hle : packets.length = blocks (2 ^ k) c := by
    rw [hpackets, length_map, hchunks, blocks, hat.cur, Nat.add_zero,
      ChunkGenerator.wrap64_of_lt hproper.1]
    congr 2
    omega
  refine ⟨p', some state, ?_, hcore, hsends.states, ?_,
    ⟨hsends.drained, hsends.drainEvent, hsends.blockSize, by omega, by omega⟩, by omega⟩
  · rw [dmaAction]
    rw [hblock, hgen, ok_bind, heq]
  · rw [Books, hsends.blockSize, hsends.calls, hsends.queued, hsends.answered, hsends.completions]
    refine Booked.add hbooks h.answered_queued hproper (by rw [hblock]; exact htiles)
      fun pkt hpkt => ?_
    obtain ⟨chunk, -, rfl⟩ := mem_map.mp hpkt
    exact hlength.trans hbooks.length

include hk hblock h in
theorem dmaActions_spec (hbooks : Books p S) (hlength : p.states.length = S.length)
    (hproper : ∀ c ∈ calls, Proper c) (hfound : ∀ c ∈ calls, Found (2 ^ k) c) :
    ∃ p' new, calls.foldlM DmaPort.dmaAction p = .ok p' ∧ Core p' ∧ p'.states = p.states ++ new ∧
      Books p' (S ++ new) ∧ Starts p p' (calls.map (blocks (2 ^ k))).sum := by
  induction calls generalizing p S with
  | nil => exact ⟨p, [], rfl, h, (append_nil _).symm, by rwa [append_nil], rfl, rfl,
      rfl, le_rfl, le_rfl⟩
  | cons c calls ih =>
    obtain ⟨p1, state, heq1, hcore1, hstates1, hbooks1, hstarts1, -⟩ :=
      dmaAction_spec hk hblock h hbooks hlength (hproper c mem_cons_self)
        (hfound c mem_cons_self)
    obtain ⟨p', new, heq, hcore, hstates, hbooks', hstarts⟩ :=
      ih (hstarts1.blockSize.trans hblock) hcore1 hbooks1
        (by rw [hstates1, length_append, length_append, hlength])
        (fun c hc => hproper c (mem_cons_of_mem _ hc))
        fun c hc => hfound c (mem_cons_of_mem _ hc)
    refine ⟨p', state :: new, ?_, hcore, ?_, ?_, hstarts.drained.trans hstarts1.drained,
      hstarts.drainEvent.trans hstarts1.drainEvent, hstarts.blockSize.trans hstarts1.blockSize, ?_, ?_⟩
    · rw [foldlM_cons, heq1, ok_bind, heq]
    · rw [hstates, hstates1, append_assoc, singleton_append]
    · rwa [append_assoc, singleton_append] at hbooks'
    · exact hstarts1.outstanding.1.trans hstarts.outstanding.1
    · have := hstarts.outstanding.2
      have := hstarts1.outstanding.2
      rw [map_cons, sum_cons]
      omega

def answer (p : DmaPort) (i : Nat) (pkt : DmaPacket) : DmaPort :=
  { p with peer := { p.peer with
    inFlight := p.peer.inFlight.eraseIdx i, answered := p.peer.answered ++ [pkt] } }

theorem Core.in_flight (h : Core p) (hbooks : Books p p.states) {i : Nat}
    (hi : p.peer.inFlight[i]? = some pkt) :
    ∃ c, p.calls[pkt.state]? = some c ∧ 0 < pkt.size ∧
      bytesOf pkt.state p.peer.answered + pkt.size ≤ c.size := by
  have hflight : pkt ∈ p.peer.inFlight := mem_of_getElem? hi
  have hqueued : pkt ∈ p.queued := by
    rw [← h.order]
    exact mem_append_left _ (h.flight.mem_iff.mpr (mem_append_left _ hflight))
  obtain ⟨c, hc⟩ : ∃ c, p.calls[pkt.state]? = some c :=
    ⟨_, List.getElem?_eq_getElem (hbooks.known pkt hqueued)⟩
  have hpos : 0 < pkt.size := (hbooks.tiles _ c hc).pos pkt (mem_filter.mpr ⟨hqueued, by simp⟩)
  have hbytes := hbooks.bytes hc
  rw [← h.order, bytesOf_append, bytesOf_perm h.flight, bytesOf_append] at hbytes
  have hone : pkt.size ≤ bytesOf pkt.state p.peer.inFlight := by
    have hperm : p.peer.inFlight.Perm (pkt :: p.peer.inFlight.erase pkt) := perm_cons_erase hflight
    rw [bytesOf_perm hperm, ← singleton_append, bytesOf_append, bytesOf_singleton, if_pos rfl]
    exact le_add_right _ _
  exact ⟨c, hc, hpos, by omega⟩

theorem answer_outstanding (hi : p.peer.inFlight[i]? = some pkt) :
    (answer p i pkt).outstanding + 1 = p.outstanding := by
  have hlt := (List.getElem?_eq_some_iff.mp hi).1
  rw [outstanding, outstanding, answer]
  dsimp only
  rw [length_eraseIdx_of_lt hlt]
  omega

theorem Core.answer (h : Core p) (hsmall : p.outstanding < 2 ^ 32)
    (hi : p.peer.inFlight[i]? = some pkt) (states : List (Option DmaReqState))
    (completions : List Nat) :
    p.pendingCount ≠ 0 ∧ Core { answer p i pkt with
      pendingCount := p.pendingCount - 1, states, completions } := by
  have hout := answer_outstanding hi
  have hpending := h.pending
  rw [mod_eq_of_lt hsmall] at hpending
  refine ⟨by omega, ⟨h.order, ?_, ?_⟩, h.idle, h.waiting, h.refused⟩
  · have hlt := (List.getElem?_eq_some_iff.mp hi).1
    have hget : p.peer.inFlight[i] = pkt := (List.getElem?_eq_some_iff.mp hi).2
    have hperm : p.peer.inFlight.Perm (p.peer.inFlight.eraseIdx i ++ [pkt]) := by
      rw [← hget]
      exact (getElem_cons_eraseIdx_perm hlt).symm.trans (perm_append_singleton _ _).symm
    calc p.peer.accepted
      _ |>.Perm (p.peer.inFlight ++ p.peer.answered) := h.flight
      _ |>.Perm (p.peer.inFlight.eraseIdx i ++ [pkt] ++ p.peer.answered) := hperm.append_right _
      _ |>.Perm (p.peer.inFlight.eraseIdx i ++ (p.peer.answered ++ [pkt])) := by
        rw [append_assoc]
        exact perm_append_comm.append_left _
  · show p.pendingCount - 1 = (DmaWorld.answer p i pkt).outstanding % 2 ^ 32
    rw [mod_eq_of_lt (by omega)]
    omega

include hk hblock h in
theorem complete_spec (id : Nat) (state : DmaReqState)
    (hbooks : Booked p.peer.blockSize p.calls p.queued p.peer.answered S
      (if state.completionEvent.isSome then p.completions ++ [id] else p.completions))
    (hlength : p.states.length = S.length) (hproper : ∀ c ∈ calls, Proper c)
    (hfound : ∀ c ∈ calls, Found (2 ^ k) c) :
    ∃ p' new, p.complete id state calls = .ok p' ∧ Core p' ∧ p'.states = p.states ++ new ∧
      Books p' (S ++ new) ∧ Starts p p' (calls.map (blocks (2 ^ k))).sum := by
  rw [complete]
  cases hevent : state.completionEvent with
  | none =>
    rw [hevent] at hbooks
    exact ⟨p, [], rfl, h, (append_nil _).symm, by rwa [append_nil], rfl, rfl, rfl,
      le_rfl, le_add_right _ _⟩
  | some event =>
    rw [hevent] at hbooks
    have hcore : Core { p with completions := p.completions ++ [id] } := { h with }
    by_cases hdelay : state.delay = 0
    · rw [if_pos hdelay]
      obtain ⟨p', new, heq, hcore', hstates, hbooks', hstarts⟩ :=
        dmaActions_spec (p := { p with completions := p.completions ++ [id] }) hk hblock hcore hbooks
          hlength hproper hfound
      exact ⟨p', new, heq, hcore', hstates, hbooks', { hstarts with }⟩
    · rw [if_neg hdelay]
      exact ⟨_, [], rfl, hcore, (append_nil _).symm, by rw [append_nil]; exact hbooks, rfl, rfl,
        rfl, le_rfl, le_add_right _ _⟩

include hk hblock h in
theorem handleResp_spec (hbooks : Books p p.states)
    (hsmall : p.outstanding < 2 ^ 32) (hi : p.peer.inFlight[i]? = some pkt)
    (hproper : ∀ c ∈ calls, Proper c) (hfound : ∀ c ∈ calls, Found (2 ^ k) c) :
    ∃ p', (answer p i pkt).handleResp pkt calls = .ok p'.signalDrain ∧ Core p' ∧
      Books p' p'.states ∧ p'.drained = p.drained ∧ p'.drainEvent = p.drainEvent ∧
      p'.peer.blockSize = p.peer.blockSize ∧
      p'.outstanding < p.outstanding + (calls.map (blocks (2 ^ k))).sum := by
  obtain ⟨c, hc, hpos, hle⟩ := h.in_flight hbooks hi
  have hsize := (hbooks.proper c (mem_of_getElem? hc)).2.2
  have hstate := hbooks.state _ c hc
  rw [if_neg (by omega)] at hstate
  set state : DmaReqState := { completionEvent := c.event, totBytes := c.size,
                               numBytes := bytesOf pkt.state p.peer.answered, delay := c.delay }
  have hnum : wrap64 (bytesOf pkt.state p.peer.answered + pkt.size) =
      bytesOf pkt.state p.peer.answered + pkt.size :=
    ChunkGenerator.wrap64_of_lt (by omega)
  have hout := answer_outstanding hi
  have hlt : pkt.state < p.states.length := (List.getElem?_eq_some_iff.mp hstate).1
  obtain ⟨hpending, hcore⟩ := h.answer hsmall hi
    (p.states.set pkt.state (some { state with
      numBytes := bytesOf pkt.state p.peer.answered + pkt.size })) p.completions
  set state' : DmaReqState := { state with numBytes := bytesOf pkt.state p.peer.answered + pkt.size }
  set q : DmaPort := { answer p i pkt with
    pendingCount := p.pendingCount - 1, states := p.states.set pkt.state (some state'),
      completions := p.completions } with hq
  have hresp : (answer p i pkt).handleResp pkt calls =
    (if c.size = bytesOf pkt.state p.peer.answered + pkt.size then do
      let p ← q.complete pkt.state state' calls
      return { p with states := p.states.set pkt.state none }.signalDrain
    else return q.signalDrain) := by
    rw [handleResp, show (answer p i pkt).states[pkt.state]? = _ from hstate,
      Option.join_some, need, ok_bind, ensure_of (by simpa [answer] using hpending), ok_bind]
    dsimp only
    rw [show wrap64 (state.numBytes + pkt.size) = state'.numBytes from hnum,
      ensure_of (by simpa using hle), ok_bind]
    rfl
  rw [hresp]
  by_cases hall : c.size = bytesOf pkt.state p.peer.answered + pkt.size
  · rw [if_pos hall]
    have hbooksq : Booked q.peer.blockSize q.calls q.queued q.peer.answered
      (p.states.set pkt.state none)
        (if state'.completionEvent.isSome then q.completions ++ [pkt.state] else q.completions) := by
      refine Booked.answer hbooks hc (by omega) (if_pos hall.symm).symm ?_
      simp only [← hall, true_and]
      rfl
    obtain ⟨p', new, heq, hcore', hstates, hbooks', hstarts⟩ :=
      complete_spec (p := q) hk hblock hcore pkt.state state' hbooksq (by simp [hq]) hproper hfound
    have hdeleted : p'.states.set pkt.state none = p.states.set pkt.state none ++ new := by
      rw [hstates, hq, set_append_left _ _ (by rwa [length_set]), set_set]
    refine ⟨{ p' with states := p'.states.set pkt.state none }, by rw [heq, ok_bind]; rfl,
      { hcore' with }, ?_,
      hstarts.drained, hstarts.drainEvent, hstarts.blockSize, ?_⟩
    · dsimp only
      rw [hdeleted]
      exact hbooks'
    · have hqout : q.outstanding = (answer p i pkt).outstanding := rfl
      have := hstarts.outstanding.2
      show p'.outstanding < _
      omega
  · rw [if_neg hall]
    refine ⟨q, rfl, hcore, ?_, rfl, rfl, rfl, ?_⟩
    · refine Booked.answer hbooks hc (by omega) (if_neg (Ne.symm hall)).symm ?_
      rw [if_neg fun hboth => hall hboth.1.symm]
    · have hqout : q.outstanding = (answer p i pkt).outstanding := rfl
      omega

structure Inv (k : Nat) (w : DmaWorld) : Prop where
  block : w.port.peer.blockSize = 2 ^ k
  core : Core w.port
  books : Books w.port w.port.states
  small : w.port.outstanding < 2 ^ 32
  drained : w.port.drained = w.due
  asked : w.port.drainEvent = w.asked
  quiet : w.port.outstanding = 0 → w.asked = none

theorem create_inv (answers : Nat → Bool) : Inv k (create (2 ^ k) answers) where
  block := rfl
  core := ⟨⟨rfl, .nil, rfl⟩, fun _ => rfl, by simp [create], rfl⟩
  books := ⟨rfl, forall_mem_nil _, forall_mem_nil _, by simp [create], by simp [create], by
    simp [create], forall_mem_nil _⟩
  small := Nat.two_pow_pos 32
  drained := rfl
  asked := rfl
  quiet _ := rfl

theorem Inv.observe (h : Inv k w) {asked : Option Nat} (hblock : p.peer.blockSize = 2 ^ k)
    (hcore : Core p) (hbooks : Books p p.states) (hsmall : p.outstanding < 2 ^ 32)
    (hdrained : p.drained = w.port.drained) (hasked : p.drainEvent = asked)
    (hout : p.outstanding ≠ 0) :
    Inv k (w.observe p asked) := by
  rw [DmaWorld.observe, if_neg hout]
  exact ⟨hblock, hcore, hbooks, hsmall, hdrained.trans h.drained, hasked,
    fun hzero => absurd hzero hout⟩

theorem Inv.observe_signal (h : Inv k w) (hblock : p.peer.blockSize = 2 ^ k) (hcore : Core p)
    (hbooks : Books p p.states) (hsmall : p.outstanding < 2 ^ 32)
    (hdrained : p.drained = w.port.drained) (hasked : p.drainEvent = w.port.drainEvent) :
    Inv k (w.observe p.signalDrain w.asked) := by
  have hpending : p.pendingCount = p.outstanding := by rw [hcore.pending, mod_eq_of_lt hsmall]
  have hevent : p.drainEvent = w.asked := hasked.trans h.asked
  rw [signalDrain, hevent]
  cases hw : w.asked with
  | none =>
    dsimp only
    rw [DmaWorld.observe]
    split
    · exact ⟨hblock, hcore, hbooks, hsmall, by rw [hdrained, h.drained]; exact (append_nil _).symm,
        hevent.trans hw, fun _ => rfl⟩
    · exact ⟨hblock, hcore, hbooks, hsmall, hdrained.trans h.drained, hevent.trans hw, fun _ => rfl⟩
  | some de =>
    dsimp only
    by_cases hzero : p.outstanding = 0
    · rw [if_pos (hpending.trans hzero), DmaWorld.observe]
      split
      · exact ⟨hblock, { hcore with }, hbooks, hsmall,
          by rw [hdrained, h.drained]; rfl, rfl, fun _ => rfl⟩
      · rename_i hout
        exact absurd hzero hout
    · rw [if_neg (by rw [hpending]; exact hzero), DmaWorld.observe, if_neg hzero]
      exact ⟨hblock, hcore, hbooks, hsmall, hdrained.trans h.drained, hevent.trans hw,
        fun hout => absurd hout hzero⟩

theorem Inv.dma (hk : k < 32) (h : Inv k w) (hproper : Proper c) (hcount : w.Countable (.dma c)) :
    ∃ w', w.apply (.dma c) = .ok w' ∧ Inv k w' := by
  obtain ⟨hfound, hcount⟩ := hcount
  rw [h.block] at hfound hcount
  obtain ⟨p', state, heq, hcore, hstates, hbooks, hstarts, hless⟩ :=
    dmaAction_spec hk h.block h.core h.books rfl hproper hfound
  refine ⟨w.observe p' w.asked, by rw [apply, heq, ok_bind]; rfl, ?_⟩
  have hle := hstarts.outstanding.2
  exact h.observe (hstarts.blockSize.trans h.block) hcore (by rw [hstates]; exact hbooks)
    (by omega) hstarts.drained
    (hstarts.drainEvent.trans h.asked) (by omega)

theorem Inv.retry (h : Inv k w) (hrefused : w.port.peer.refused = true) :
    ∃ w', w.apply .retry = .ok w' ∧ Inv k w' := by
  have hretry : w.port.inRetry = true := h.core.refused.symm.trans hrefused
  obtain ⟨n, hn⟩ : ∃ n, w.port.transmitList.length = n + 1 :=
    exists_eq_succ_of_ne_zero (length_pos_iff.mpr (h.core.waiting hretry)).ne'
  set p : DmaPort := { w.port with peer := { w.port.peer with refused := false } } with hp
  have hloose : Loose p := ⟨h.core.order, h.core.flight, h.core.pending⟩
  obtain ⟨hcore, hsends⟩ := retryLoop_spec n hloose hn rfl
  refine ⟨_, by rw [apply, recvRetry, ensure_of (by simp [hn]), ok_bind, hn]; rfl, ?_⟩
  have hout : (retryLoop (n + 1) p).outstanding = w.port.outstanding := hsends.outstanding
  have hbooks : Books (retryLoop (n + 1) p) (retryLoop (n + 1) p).states := by
    rw [Books, hsends.blockSize, hsends.calls, hsends.queued, hsends.answered, hsends.completions,
      hsends.states, append_nil]
    exact h.books
  refine h.observe (hsends.blockSize.trans h.block) hcore hbooks (hout ▸ h.small) hsends.drained
    (hsends.drainEvent.trans h.asked) ?_
  rw [hout, outstanding]
  omega

theorem Inv.resp (hk : k < 32) (h : Inv k w) (hi : i < w.port.peer.inFlight.length)
    (hproper : ∀ c ∈ calls, Proper c) (hcount : w.Countable (.resp i calls)) :
    ∃ w', w.apply (.resp i calls) = .ok w' ∧ Inv k w' := by
  have hpkt := List.getElem?_eq_getElem hi
  obtain ⟨hfound, hcount⟩ := hcount
  rw [h.block] at hfound hcount
  obtain ⟨p', heq, hcore, hbooks, hdrained, hasked, hblock, hout⟩ :=
    handleResp_spec hk h.block h.core h.books h.small hpkt hproper hfound
  refine ⟨w.observe p'.signalDrain w.asked, ?_,
    h.observe_signal (hblock.trans h.block) hcore hbooks (by omega) hdrained hasked⟩
  rw [apply, hpkt]
  dsimp only
  rw [answer] at heq
  rw [heq, ok_bind]
  rfl

theorem Inv.drain (h : Inv k w) (de : Nat) : ∃ w', w.apply (.drain de) = .ok w' ∧ Inv k w' := by
  refine ⟨_, rfl, ?_⟩
  have hpending : w.port.pendingCount = w.port.outstanding := by
    rw [h.core.pending, mod_eq_of_lt h.small]
  by_cases hzero : w.port.outstanding = 0
  · rw [if_pos hzero, DmaPort.drain, if_pos (hpending.trans hzero), DmaWorld.observe,
      if_pos hzero, h.quiet hzero]
    exact { h with
      drained := h.drained.trans (append_nil _).symm, asked := h.asked.trans (h.quiet hzero),
        quiet := fun _ => rfl }
  · rw [if_neg hzero, DmaPort.drain, if_neg (by rw [hpending]; exact hzero)]
    exact h.observe h.block { h.core with } h.books h.small rfl rfl hzero

theorem apply_inv (hk : k < 32) (h : Inv k w) (hadmits : w.Admits e) (hcount : w.Countable e) :
    ∃ w', w.apply e = .ok w' ∧ Inv k w' := by
  cases e with
  | dma c => exact h.dma hk hadmits hcount
  | retry => exact h.retry hadmits
  | resp i calls => exact h.resp hk hadmits.1 hadmits.2 hcount
  | drain de => exact h.drain de

theorem Inv.exact (h : Inv k w) : w.Exact where
  order := h.core.order
  flight := h.core.flight
  tiles := h.books.tiles
  completed := h.books.completed
  pending := by rw [h.core.pending, mod_eq_of_lt h.small]
  idle := h.core.idle
  drained := ⟨h.drained, h.asked⟩

instance (c : DmaCall) : Decidable (Proper c) := inferInstanceAs (Decidable (_ ∧ _ ∧ _))

instance (w : DmaWorld) : DecidablePred w.Admits := fun e => by
  rcases e <;> unfold Admits <;> infer_instance

instance (block : Nat) : DecidablePred (Found block) := fun _ => inferInstanceAs (Decidable (_ → _))

instance (w : DmaWorld) : DecidablePred w.Countable := fun e => by
  rcases e <;> unfold Countable <;> infer_instance

end Gem5.DmaWorld
