import Gem5.Lib.Reservation
import Gem5.Lib.Run
import Gem5.Mem.AbstractMemory

/-!
# Load-locked and store-conditional

A context has a granule locked from its load-locked on, until somebody writes to
the granule. The records of a memory are those locks if every write erases the
records of the granules it writes to. A swap erases none, and any other write only
those of its first granule.
-/

namespace Gem5

open Lib Packet LockedAddr AbstractMemory

namespace Packet

def touches (p : Packet) (granule : Nat) : Prop := ∃ i < p.size, LockedAddr.mask (p.addr + i) = granule

instance (p : Packet) (granule : Nat) : Decidable (p.touches granule) :=
  inferInstanceAs (Decidable (∃ i < _, _))

def isLoadLocked (p : Packet) : Bool := !p.memInhibit && p.cmd != .swapReq && p.isRead && p.isLLSC

def wrote (p resp : Packet) : Bool :=
  !p.memInhibit &&
    if p.cmd = .swapReq then (p.swapApplies resp.data).toOption.getD false
    else !p.isRead && p.isWrite && (!p.isLLSC || resp.req.extraData == 1)

theorem swapApplies_congr {p : Packet} {old old' : Nat → UInt8} (h : ∀ i < p.size, old i = old' i) :
    p.swapApplies old = p.swapApplies old' := by
  unfold swapApplies
  refine ite_congr rfl (fun _ => rfl) fun _ => ite_congr rfl (fun _ => ?_) fun _ => rfl
  refine congrArg pure ?_
  rw [Bool.eq_iff_iff, List.all_eq_true, List.all_eq_true]
  refine forall₂_congr fun i hi => ?_
  rw [h i (List.mem_range.mp hi)]

theorem setData_data {p : Packet} {src : Nat → UInt8} {i : Nat} (hi : i < p.size) :
    (p.setData src).data i = src i := by
  change memcpy p.data 0 src p.size i = _
  rw [memcpy_of_mem (Nat.zero_le i) (by simpa using hi), Nat.sub_zero]

end Packet

namespace AbstractMemory

variable {m m' : AbstractMemory} {pkt resp : Packet}

def holds (m : AbstractMemory) (req : Request) : Bool :=
  req.contextId.any fun c => m.lockedAddrList.contains ⟨LockedAddr.mask req.paddr, c⟩

def writes (m : AbstractMemory) (pkt : Packet) : Bool :=
  !pkt.memInhibit &&
    if pkt.cmd = .swapReq then (pkt.swapApplies (m.contents pkt.addr)).toOption.getD false
    else !pkt.isRead && pkt.isWrite && (!pkt.isLLSC || m.holds pkt.req)

/-- The locked granules an access writes to are those whose records it erases: none if
it is a swap, and otherwise that of the request. -/
def Erases (m : AbstractMemory) (pkt : Packet) : Prop :=
  m.writes pkt = true → ∀ r ∈ m.lockedAddrList,
    pkt.touches r.addr ↔ pkt.cmd ≠ .swapReq ∧ r.addr = LockedAddr.mask pkt.req.paddr

instance (m : AbstractMemory) (pkt : Packet) : Decidable (m.Erases pkt) :=
  inferInstanceAs (Decidable (_ → ∀ r ∈ m.lockedAddrList, _))

inductive Effect (m : AbstractMemory) (pkt : Packet) (m' : AbstractMemory) (resp : Packet) : Prop
  | none (hlocked : pkt.isLoadLocked = false) (hwrote : pkt.wrote resp = false)
      (hlist : m'.lockedAddrList = m.lockedAddrList)
  | lock (hlocked : pkt.isLoadLocked = true) (hwrote : pkt.wrote resp = false)
      (hlist : m.trackLoadLocked pkt = .ok m')
  | erase (hlocked : pkt.isLoadLocked = false) (hcmd : pkt.cmd ≠ .swapReq)
      (hwrote : pkt.wrote resp = true) (hwrites : m.writes pkt = true)
      (hlist : m'.lockedAddrList = m.lockedAddrList.filter (·.addr != LockedAddr.mask pkt.req.paddr))
  | swap (hlocked : pkt.isLoadLocked = false) (hcmd : pkt.cmd = .swapReq)
      (hwrote : pkt.wrote resp = true) (hwrites : m.writes pkt = true)
      (hlist : m'.lockedAddrList = m.lockedAddrList)

theorem swap_effect (hcmd : pkt.cmd = .swapReq) (hinhibit : pkt.memInhibit = false)
    (h : m.swap pkt = .ok (m', p)) (hdata : resp.data = p.data) : Effect m pkt m' resp := by
  unfold swap at h
  split at h
  · cases h
  · replace h := of_guard h
    obtain ⟨overwrite, happlies, h⟩ := bind_eq_ok.mp h
    replace h := of_guard h
    cases h
    have hsame : pkt.swapApplies resp.data = .ok overwrite := by
      rw [← happlies]
      exact swapApplies_congr fun i hi => by rw [hdata, setData_data hi]
    have hlocked : pkt.isLoadLocked = false := by simp [isLoadLocked, hcmd]
    have hwrote : pkt.wrote resp = overwrite := by simp [wrote, hinhibit, hcmd, hsame, Except.toOption]
    have hwrites : m.writes pkt = overwrite := by
      simp [writes, hinhibit, hcmd, happlies, Except.toOption]
    cases overwrite with
    | false => exact .none hlocked hwrote rfl
    | true => exact .swap hlocked hcmd hwrote hwrites rfl

theorem read_effect (hcmd : pkt.cmd ≠ .swapReq) (hinhibit : pkt.memInhibit = false)
    (hread : pkt.isRead = true) (h : m.read pkt = .ok (m', p)) : Effect m pkt m' resp := by
  have hwrote : pkt.wrote resp = false := by simp [wrote, hcmd, hread]
  replace h := of_guard h
  cases hllsc : pkt.isLLSC with
  | false =>
    rw [hllsc] at h
    cases h
    exact .none (by simp [isLoadLocked, hllsc]) hwrote rfl
  | true =>
    rw [hllsc] at h
    obtain ⟨m1, htrack, h⟩ := bind_eq_ok.mp h
    cases h
    exact .lock (by simp [isLoadLocked, hcmd, hinhibit, hread, hllsc]) hwrote htrack

theorem holdsLock_eq (h : m.holdsLock pkt.req = .ok held) : held = m.holds pkt.req := by
  unfold holdsLock at h
  dsimp only at h
  split at h
  · obtain ⟨c, hctx, h⟩ := bind_eq_ok.mp h
    cases h
    simp [holds, need_eq_ok.mp hctx]
  · rename_i hany
    cases h
    symm
    simp only [holds, Option.any_eq_false_iff_get, List.contains_eq_mem, decide_eq_false_iff_not]
    intro hc hmem
    exact hany (List.any_eq_true.mpr ⟨_, hmem, by simp⟩)

theorem eraseLocks_of_isEmpty (h : m.lockedAddrList.isEmpty = true) (paddr : Nat) :
    m.eraseLocks paddr = m := by
  cases m
  simp_all [eraseLocks]

theorem writeOK_eq (h : m.writeOK pkt = .ok (m', p, ok)) :
    ok = (!pkt.isLLSC || m.holds pkt.req) ∧
      (pkt.isLLSC = true → p = pkt.setExtraData (if ok then 1 else 0)) ∧
      (pkt.isLLSC = false → p = pkt) ∧ m' = if ok then m.eraseLocks pkt.req.paddr else m := by
  unfold writeOK at h
  split at h
  · rename_i hempty
    cases h
    have hholds : m.holds pkt.req = false := by
      have hnil := List.isEmpty_iff.mp hempty
      cases hctx : pkt.req.contextId <;> simp [holds, hctx, hnil]
    cases hllsc : pkt.isLLSC <;> simp [hholds, eraseLocks_of_isEmpty hempty]
  · unfold checkLockedAddrList at h
    split at h
    · rename_i hllsc
      obtain ⟨held, hheld, h⟩ := bind_eq_ok.mp h
      cases h
      simp [hllsc, holdsLock_eq hheld, setExtraData]
    · rename_i hllsc
      cases h
      simp [hllsc]

theorem write_effect (hcmd : pkt.cmd ≠ .swapReq) (hinhibit : pkt.memInhibit = false)
    (hread : pkt.isRead = false) (hwrite : pkt.isWrite = true) (h : m.write pkt = .ok (m', p))
    (hreq : resp.req = p.req) : Effect m pkt m' resp := by
  obtain ⟨⟨m1, p1, ok⟩, hok, h⟩ := bind_eq_ok.mp h
  obtain ⟨heq, hllsc, hplain, rfl⟩ := writeOK_eq hok
  dsimp only at h
  have hlocked : pkt.isLoadLocked = false := by simp [isLoadLocked, hread]
  have hwrites : m.writes pkt = ok := by simp [writes, hinhibit, hcmd, hread, hwrite, heq]
  have hp : p = p1 := by
    split at h
    · replace h := of_guard h
      cases h
      rfl
    · cases h
      rfl
  have hwrote : pkt.wrote resp = ok := by
    simp only [wrote, hinhibit, hcmd, hread, hwrite, hreq, hp, if_false, Bool.not_false, Bool.true_and]
    cases hl : pkt.isLLSC with
    | false => simp [heq, hl]
    | true =>
      rw [hllsc hl]
      cases ok <;> simp [setExtraData]
  cases ok with
  | false =>
    cases h
    exact .none hlocked hwrote rfl
  | true =>
    replace h := of_guard h
    cases h
    refine .erase hlocked hcmd hwrote hwrites ?_
    simp only [if_true]
    split <;> rfl

theorem access_effect (h : m.access pkt = .ok (m', resp)) : Effect m pkt m' resp := by
  replace h := of_guard h
  split at h
  · rename_i hinhibit
    cases h
    exact .none (by simp [isLoadLocked, hinhibit]) (by simp [wrote, hinhibit]) rfl
  · rename_i hinhibit
    have hinhibit := Bool.eq_false_of_not_eq_true hinhibit
    obtain ⟨⟨m1, p⟩, hperform, h⟩ := bind_eq_ok.mp h
    obtain ⟨rfl, hreq, hdata⟩ : m1 = m' ∧ resp.req = p.req ∧ resp.data = p.data := by
      dsimp only at h
      split at h
      · obtain ⟨p', hp', h⟩ := bind_eq_ok.mp h
        obtain ⟨_, -, hp'⟩ := bind_eq_ok.mp hp'
        obtain ⟨_, -, hp'⟩ := bind_eq_ok.mp hp'
        cases h
        cases hp'
        exact ⟨rfl, rfl, rfl⟩
      · cases h
        exact ⟨rfl, rfl, rfl⟩
    unfold perform at hperform
    split at hperform
    · exact swap_effect ‹_› hinhibit hperform hdata
    rename_i hcmd
    split at hperform
    · exact read_effect hcmd hinhibit ‹_› hperform
    rename_i hread
    have hread := Bool.eq_false_of_not_eq_true hread
    split at hperform
    · exact write_effect hcmd hinhibit hread ‹_› hperform hreq
    rename_i hwrite
    split at hperform
    · cases hperform
      exact .none (by simp [isLoadLocked, hread]) (by simp [wrote, hcmd, hwrite]) rfl
    · cases hperform

structure StoreConditional (m : AbstractMemory) (pkt : Packet) (c : Nat) : Prop where
  cmd : pkt.cmd = .storeCondReq
  context : pkt.req.contextId = some c
  fetch : pkt.req.instFetch = false
  inhibit : pkt.memInhibit = false
  start : m.range.start ≤ pkt.addr
  last : lastByte pkt.addr pkt.size ≤ m.range.last

theorem writeOK_of_context (h : pkt.req.contextId.isSome = true) : ∃ a, m.writeOK pkt = .ok a := by
  obtain ⟨c, hc⟩ := Option.isSome_iff_exists.mp h
  have hheld : ∃ held, m.holdsLock pkt.req = .ok held := by
    unfold holdsLock
    rw [hc]
    dsimp only
    split
    · exact ⟨_, rfl⟩
    · exact ⟨_, rfl⟩
  obtain ⟨held, hheld⟩ := hheld
  unfold writeOK checkLockedAddrList
  rw [hheld]
  split
  · exact ⟨_, rfl⟩
  · split
    · exact ⟨_, rfl⟩
    · exact ⟨_, rfl⟩

theorem access_storeCond (hsc : m.StoreConditional pkt c) :
    ∃ m' resp, m.access pkt = .ok (m', resp) ∧
      resp.req.extraData = (if m.holds pkt.req then 1 else 0) ∧
      m'.pmem = if m.holds pkt.req && !m.null then (m.store pkt).pmem else m.pmem := by
  have hread : pkt.isRead = false := by rw [isRead, hsc.cmd]; rfl
  have hwrite : pkt.isWrite = true := by rw [isWrite, hsc.cmd]; rfl
  have hllsc : pkt.isLLSC = true := by rw [isLLSC, hsc.cmd]; rfl
  have hcontext : pkt.req.contextId.isSome = true := by simp [hsc.context]
  obtain ⟨⟨m1, p, ok⟩, hok⟩ := m.writeOK_of_context hcontext
  obtain ⟨hheld, hp, -, rfl⟩ := writeOK_eq hok
  have hp := hp hllsc
  have hresp : p.needsResponse = true ∧ p.isRequest = true := by
    rw [hp, needsResponse, isRequest, setExtraData, hsc.cmd]
    exact ⟨rfl, rfl⟩
  have hfetch : p.req.instFetch = false := by rw [hp, setExtraData, hsc.fetch]
  have hperform : m.perform pkt = m.write pkt := by simp [perform, hsc.cmd, hread, hwrite]
  have hholds : ok = m.holds pkt.req := by simpa [hllsc] using hheld
  have hrange : (decide (m.range.start ≤ pkt.addr) &&
      decide (lastByte pkt.addr pkt.size ≤ m.range.last)) = true := by
    simp [hsc.start, hsc.last]
  have hdone : ∃ m', m.write pkt = .ok (m', p) ∧
      m'.pmem = if ok && !m.null then (m.store pkt).pmem else m.pmem := by
    simp only [write, hok, ok_bind, hfetch]
    cases ok with
    | false => exact ⟨_, rfl, rfl⟩
    | true =>
      refine ⟨_, rfl, ?_⟩
      simp only [if_true, eraseLocks, hp]
      cases m.null <;> rfl
  obtain ⟨m', hdone, hpmem⟩ := hdone
  refine ⟨m', { p with
    cmd := p.cmd.responseCommand, expressSnoop := false, dest := p.src, src := none }, ?_, ?_, ?_⟩
  · simp only [access, hrange, hsc.inhibit, hperform, hdone, ensure, ok_bind, hresp,
      makeResponse, if_true]
    rfl
  · rw [hp, ← hholds]
    rfl
  · rw [hpmem, hholds]

def Distinct (records : List LockedAddr) : Prop := (records.map (·.contextId)).Nodup

theorem mem_relock {paddr contextId : Nat} {records : List LockedAddr} {r : LockedAddr}
    (h : Distinct records) (hc : records.any (·.contextId == contextId) = true) :
    r ∈ relock paddr contextId records ↔ r = ⟨paddr, contextId⟩ ∨ r ∈ records ∧
      r.contextId ≠ contextId := by
  induction records with
  | nil => simp at hc
  | cons r' rs ih =>
    have hnodup := List.nodup_cons.mp h
    unfold relock
    split
    · rename_i hr'
      grind
    · rename_i hr'
      have hany : rs.any (·.contextId == contextId) = true := by simpa [hr'] using hc
      have := ih hnodup.2 hany
      grind

theorem map_relock {paddr contextId : Nat} :
    (relock paddr contextId records).map (·.contextId) = records.map (·.contextId) := by
  induction records with
  | nil => rfl
  | cons r rs ih =>
    unfold relock
    split
    · rfl
    · simp [ih]

theorem trackLoadLocked_spec (h : Distinct m.lockedAddrList) (ht : m.trackLoadLocked pkt = .ok m') :
    ∃ c, pkt.req.contextId = some c ∧ Distinct m'.lockedAddrList ∧ ∀ r, r ∈ m'.lockedAddrList ↔
      r = ⟨LockedAddr.mask pkt.req.paddr, c⟩ ∨ r ∈ m.lockedAddrList ∧ r.contextId ≠ c := by
  obtain ⟨c, hctx, ht⟩ := bind_eq_ok.mp ht
  cases ht
  refine ⟨c, need_eq_ok.mp hctx, ?_⟩
  split
  · rename_i hany
    exact ⟨by rwa [Distinct, map_relock], fun r => mem_relock h hany⟩
  · rename_i hany
    have hnone : ∀ r ∈ m.lockedAddrList, r.contextId ≠ c := by simpa using hany
    refine ⟨List.nodup_cons.mpr ⟨by simpa using hnone, h⟩, fun r => ?_⟩
    rw [List.mem_cons]
    exact or_congr_right ⟨fun hr => ⟨hr, hnone r hr⟩, And.left⟩

end AbstractMemory

structure MemoryHistory where
  memory : AbstractMemory
  accesses : List (Packet × Packet) := []

namespace MemoryHistory

def create (memory : AbstractMemory) : MemoryHistory := { memory := memory }

def takes (a : Packet × Packet) : Option (Nat × Nat) :=
  if a.1.isLoadLocked then a.1.req.contextId.map (·, LockedAddr.mask a.1.req.paddr) else none

def hits (a : Packet × Packet) (granule : Nat) : Prop := a.1.wrote a.2 = true ∧ a.1.touches granule

instance (a : Packet × Packet) (granule : Nat) : Decidable (hits a granule) :=
  inferInstanceAs (Decidable (_ ∧ _))

/-- The context loaded from the granule with a lock, and since then nobody wrote there
and it did not go elsewhere. -/
def Locked (h : MemoryHistory) (c granule : Nat) : Prop := Reserved takes hits h.accesses c granule

instance (h : MemoryHistory) (c granule : Nat) : Decidable (h.Locked c granule) :=
  inferInstanceAs (Decidable (Reserved takes hits h.accesses c granule))

def access (h : MemoryHistory) (pkt : Packet) : Chk MemoryHistory := do
  let (memory, resp) ← h.memory.access pkt
  return ⟨memory, h.accesses ++ [(pkt, resp)]⟩

structure Tracks (h : MemoryHistory) : Prop where
  distinct : AbstractMemory.Distinct h.memory.lockedAddrList
  records : ∀ c granule, ⟨granule, c⟩ ∈ h.memory.lockedAddrList ↔ h.Locked c granule

variable {h h' : MemoryHistory} {pkt : Packet}

theorem Tracks.access (ht : h.Tracks) (herases : h.memory.Erases pkt)
    (ha : h.access pkt = .ok h') : h'.Tracks := by
  obtain ⟨⟨memory, resp⟩, hacc, ha⟩ := bind_eq_ok.mp ha
  cases ha
  have hsnoc : ∀ c granule, Locked ⟨memory, h.accesses ++ [(pkt, resp)]⟩ c granule ↔
      takes (pkt, resp) = some (c, granule) ∨ ⟨granule, c⟩ ∈ h.memory.lockedAddrList ∧
        Leaves takes hits (pkt, resp) c granule := fun c granule => by
    rw [ht.records]
    exact reserved_snoc
  have htakes : pkt.isLoadLocked = false → takes (pkt, resp) = none := fun hl => by simp [takes, hl]
  cases access_effect hacc with
  | none hlocked hwrote hlist =>
    refine ⟨hlist ▸ ht.distinct, fun c granule => ?_⟩
    rw [hsnoc, hlist]
    simp [htakes hlocked, Leaves, hits, hwrote]
  | lock hlocked hwrote hlist =>
    obtain ⟨c', hctx, hdistinct, hmem⟩ := trackLoadLocked_spec ht.distinct hlist
    refine ⟨hdistinct, fun c granule => ?_⟩
    have hsome : takes (pkt, resp) = some (c', mask pkt.req.paddr) := by simp [takes, hlocked, hctx]
    have hleaves : Leaves takes hits (pkt, resp) c granule ↔
        (c' = c → mask pkt.req.paddr = granule) := by
      simp [Leaves, hits, hwrote, hsome]
    rw [hsnoc, hmem, hleaves, hsome]
    grind
  | erase hlocked hcmd hwrote hwrites hlist =>
    refine ⟨hlist ▸ ht.distinct.sublist (List.filter_sublist.map _), fun c granule => ?_⟩
    rw [hsnoc, hlist, List.mem_filter, htakes hlocked]
    simp only [reduceCtorEq, false_or]
    refine and_congr_right fun hmem => ?_
    have htouches := herases hwrites _ hmem
    simp only [Leaves, hits, hwrote, htakes hlocked, htouches]
    simp [hcmd]
  | swap hlocked hcmd hwrote hwrites hlist =>
    refine ⟨hlist ▸ ht.distinct, fun c granule => ?_⟩
    rw [hsnoc, hlist, htakes hlocked]
    simp only [reduceCtorEq, false_or, iff_self_and]
    intro hmem
    have htouches := herases hwrites _ hmem
    simp [Leaves, hits, htakes hlocked, htouches, hcmd]

def Step (h : MemoryHistory) (pkt : Packet) (h' : MemoryHistory) : Prop := h.access pkt = .ok h'

theorem Tracks.holds_iff (ht : h.Tracks) (hctx : pkt.req.contextId = some c) :
    h.memory.holds pkt.req = true ↔ h.Locked c (LockedAddr.mask pkt.req.paddr) := by
  rw [← ht.records]
  simp [holds, hctx]

/-- In every run whose writes erase what they should, a store-conditional is carried out
if and only if its context has kept its lock, and does nothing otherwise. -/
theorem run_storeCond {m : AbstractMemory} {pkts : List Packet} (hm : m.lockedAddrList = [])
    (hr : Runs (fun h pkt h' => Step h pkt h' ∧ h.memory.Erases pkt) (create m) pkts h) {c : Nat}
    (hsc : h.memory.StoreConditional pkt c) :
    ∃ memory resp, h.memory.access pkt = .ok (memory, resp) ∧
      (resp.req.extraData = 1 ↔ h.Locked c (LockedAddr.mask pkt.req.paddr)) ∧
      (h.Locked c (LockedAddr.mask pkt.req.paddr) → h.memory.null = false →
        memory.pmem = memcpy h.memory.pmem (pkt.addr - h.memory.range.start) pkt.data pkt.size) ∧
      (¬ h.Locked c (LockedAddr.mask pkt.req.paddr) → resp.req.extraData = 0 ∧
        memory.pmem = h.memory.pmem) := by
  have ht : h.Tracks := by
    refine hr.invariant (P := Tracks) ⟨by simp [create, hm, AbstractMemory.Distinct],
      fun c granule => ?_⟩
      fun _ _ _ ht hs => ht.access hs.2 hs.1
    simp [create, hm, Locked]
  obtain ⟨memory, resp, hacc, hextra, hpmem⟩ := access_storeCond hsc
  rw [← ht.holds_iff hsc.context]
  refine ⟨memory, resp, hacc, ?_, fun hheld hnull => ?_, fun hheld => ?_⟩
  · cases hheld : h.memory.holds pkt.req <;> simp [hextra, hheld]
  · rw [hpmem, hheld, hnull]
    rfl
  · have hheld := Bool.eq_false_of_not_eq_true hheld
    simp [hextra, hpmem, hheld]

def sampleMemory : AbstractMemory where
  range := ⟨0, 8191⟩

def sampleAccess (cmd : MemCmd) (contextId addr size : Nat) : Packet where
  id := 0
  cmd := cmd
  req := { paddr := addr, size := size, contextId := some contextId }
  addr := addr
  size := size

def StoredUnlocked (other : Packet) : Prop :=
  ∃ h, Runs Step (create sampleMemory) [sampleAccess .loadLockedReq 0 16 8, other] h ∧
    ¬ h.Locked 0 16 ∧
    ∃ memory resp, h.memory.access (sampleAccess .storeCondReq 0 16 8) = .ok (memory, resp) ∧
      resp.req.extraData = 1

theorem StoredUnlocked.of_play
    (hplay : (play (fun _ _ => True) access (create sampleMemory)
      [sampleAccess .loadLockedReq 0 16 8, other]).toOption.any (fun h => ¬ h.Locked 0 16 ∧
        (h.memory.access (sampleAccess .storeCondReq 0 16 8)).toOption.any
        (·.2.req.extraData == 1) = true) = true) :
    StoredUnlocked other := by
  obtain ⟨h, hr, hlocked, hstored⟩ := runs_of_play (fun _ _ => True) access hplay
  refine ⟨h, hr.mono fun _ _ _ hs => hs.2, hlocked, ?_⟩
  cases ha : h.memory.access (sampleAccess .storeCondReq 0 16 8) with
  | error e => simp [ha, Except.toOption] at hstored
  | ok a => exact ⟨a.1, a.2, rfl, by simpa [ha, Except.toOption] using hstored⟩

/-- A swap of the granule by another context comes between the two, or a write that
starts in the granule before. -/
theorem storeCond_unprotected :
    StoredUnlocked (sampleAccess .swapReq 1 16 8) ∧ StoredUnlocked (sampleAccess .writeReq 1 0 32) :=
  ⟨.of_play (by decide +kernel), .of_play (by decide +kernel)⟩

theorem run_storeCond_kept :
    ∃ h memory resp, Runs (fun h pkt h' => Step h pkt h' ∧ h.memory.Erases pkt) (create sampleMemory)
        [sampleAccess .loadLockedReq 0 16 8, sampleAccess .writeReq 1 0 8] h ∧
      h.memory.access (sampleAccess .storeCondReq 0 16 8) = .ok (memory, resp) ∧ h.Locked 0 16 ∧
      resp.req.extraData = 1 := by
  obtain ⟨h, hr, hlocked, hrange⟩ : ∃ h,
    Runs (fun h pkt h' => h.memory.Erases pkt ∧ h.access pkt = .ok h')
      (create sampleMemory) [sampleAccess .loadLockedReq 0 16 8, sampleAccess .writeReq 1 0 8] h ∧
        h.Locked 0 16 ∧
      h.memory.range = ⟨0, 8191⟩ :=
    runs_of_play (fun (h : MemoryHistory) pkt => h.memory.Erases pkt) access (by decide +kernel)
  have hr := hr.mono fun h pkt h' hs => (⟨hs.2, hs.1⟩ : Step h pkt h' ∧ h.memory.Erases pkt)
  have hsc : h.memory.StoreConditional (sampleAccess .storeCondReq 0 16 8) 0 :=
    ⟨rfl, rfl, rfl, rfl, by simp [hrange], by rw [hrange]; decide⟩
  obtain ⟨memory, resp, hacc, hextra, -⟩ := run_storeCond rfl hr hsc
  exact ⟨h, memory, resp, hr, hacc, hlocked, hextra.mpr hlocked⟩

end MemoryHistory

end Gem5
