import Gem5.Mem.Cache.TagStores
import Gem5.Mem.LoadLocked

/-!
# The load locks of a cache block

A store-conditional is carried out if its context is in the block's `lockList`. It should be
there from its load-locked on until the block is written. Stores clear the list; a swap that
writes does not, and a store-conditional clears it even if it fails.
-/

namespace Gem5

open Lib

class TagStore.Lawful (σ : Type) [TagStore σ] : Prop where
  blk_setBlk : ∀ (t : σ) b blk, TagStore.blk (TagStore.setBlk t b blk) b = blk

instance : TagStore.Lawful LRU := ⟨fun _ _ _ => Function.update_self ..⟩

instance : TagStore.Lawful FALRU :=
  ⟨fun _ _ _ => by simp [TagStore.blk, TagStore.setBlk, FALRU.setBlk, FALRU.modifyBlk]⟩

instance : TagStore.Lawful IIC :=
  ⟨fun _ _ _ => by simp [TagStore.blk, TagStore.setBlk, IIC.setBlk, IIC.modifyTag]⟩

/-- A cache, and the requests that were satisfied from one of its blocks, each with whether
it wrote. -/
structure BlockHistory (σ : Type) where
  store : CacheStore σ
  requests : List (Packet × Bool) := []

namespace BlockHistory

def takes (e : Packet × Bool) : Option (Nat × Unit) :=
  if e.1.cmd = .loadLockedReq then e.1.req.contextId.map (·, ()) else none

def hits (e : Packet × Bool) (_ : Unit) : Prop := e.2 = true

instance (e : Packet × Bool) (u : Unit) : Decidable (hits e u) := inferInstanceAs (Decidable (_ = _))

variable {σ : Type}

def Locked (h : BlockHistory σ) (c : Nat) : Prop := Reserved takes hits h.requests c ()

instance (h : BlockHistory σ) (c : Nat) : Decidable (h.Locked c) :=
  inferInstanceAs (Decidable (Reserved ..))

variable [TagStore σ] (r : BlkRef)

def blk (h : BlockHistory σ) : CacheBlk := h.store.blk r

def swaps (h : BlockHistory σ) (pkt : Packet) : Bool :=
  (pkt.swapApplies fun i =>
    (h.blk r).data (TagStore.extractBlkOffset h.store.tags pkt.addr + i)).toOption.getD false

def wrote (h : BlockHistory σ) (pkt resp : Packet) : Bool :=
  if pkt.cmd = .swapReq then h.swaps r pkt
  else pkt.isWrite && (!pkt.isLLSC || resp.req.extraData == 1)

def satisfy (h : BlockHistory σ) (a : Packet × Bool × Bool) : Chk (BlockHistory σ) := do
  let (store, resp) ← h.store.satisfyCpuSideRequest a.1 r a.2.1 a.2.2
  return ⟨store, h.requests ++ [(a.1, h.wrote r a.1 resp)]⟩

def Admits (_ : BlockHistory σ) (a : Packet × Bool × Bool) : Prop :=
  a.1.cmd = .loadLockedReq ∨ a.1.cmd = .writeReq ∨ a.1.cmd = .storeCondReq ∨ a.1.cmd = .swapReq

instance (h : BlockHistory σ) (a : Packet × Bool × Bool) : Decidable (h.Admits a) :=
  inferInstanceAs (Decidable (_ ∨ _))

/-- A swap that writes, and a store-conditional without its lock, find no locks. -/
def Spares (h : BlockHistory σ) (a : Packet × Bool × Bool) : Prop :=
  a.1.cmd = .swapReq ∧ h.swaps r a.1 = true ∨
      a.1.cmd = .storeCondReq ∧ (∀ c ∈ a.1.req.contextId, c ∉ (h.blk r).lockList) →
    (h.blk r).lockList = []

instance (h : BlockHistory σ) (a : Packet × Bool × Bool) : Decidable (h.Spares r a) :=
  inferInstanceAs (Decidable (_ → _))

variable {r} {h h' : BlockHistory σ} {pkt : Packet} {a : Packet × Bool × Bool} [TagStore.Lawful σ]

@[simp] theorem blk_setBlk (c : CacheStore σ) (r : BlkRef) (b : CacheBlk) :
    (c.setBlk r b).blk r = b := by
  cases r with
  | frame i => exact TagStore.Lawful.blk_setBlk ..
  | temp => rfl

theorem lockList_passBlock {c c' : CacheStore σ} {resp : Packet} {deferred downgrade : Bool}
    (hex : pkt.needsExclusive = false) (h : c.passBlock r pkt deferred downgrade = .ok (c', resp)) :
    (c'.blk r).lockList = (c.blk r).lockList := by
  simp only [CacheStore.passBlock, hex, Bool.false_eq_true, if_false] at h
  split at h
  · split at h
    · cases h
      rfl
    · split at h
      · cases h
        rw [CacheStore.setStatus, blk_setBlk]
      · cases h
        rfl
  · cases h
    rfl

omit [TagStore.Lawful σ] in
theorem satisfy_ok (hs : h.satisfy r a = .ok h') :
    ∃ c resp, h' = ⟨c, h.requests ++ [(a.1, h.wrote r a.1 resp)]⟩ ∧
    (if a.1.cmd = .swapReq then h.store.cmpAndSwap r a.1
      else if a.1.isWrite then h.store.satisfyWrite r a.1
      else if a.1.isRead then h.store.satisfyRead r a.1 a.2.1 a.2.2
      else do
        ensure a.1.isUpgrade "pkt->isUpgrade()"
        let c ← h.store.giveUp r
        return (c, a.1)) = .ok (c, resp) := by
  obtain ⟨⟨c, resp⟩, hsat, hret⟩ := bind_eq_ok.mp hs
  replace hsat := of_guard hsat
  replace hsat := of_guard hsat
  cases hret
  exact ⟨c, resp, rfl, hsat⟩

section

variable (hs : h.satisfy r a = .ok h')
include hs

theorem satisfy_loadLocked (hcmd : a.1.cmd = .loadLockedReq) :
    ∃ c, a.1.req.contextId = some c ∧ (h'.blk r).lockList = c :: (h.blk r).lockList ∧
      h'.requests = h.requests ++ [(a.1, false)] := by
  obtain ⟨c, resp, rfl, hrun⟩ := satisfy_ok hs
  obtain ⟨hwrite, hread, hllsc, hex⟩ : a.1.isWrite = false ∧ a.1.isRead = true ∧ a.1.isLLSC = true ∧
      a.1.needsExclusive = false := by
    simp only [Packet.isWrite, Packet.isRead, Packet.isLLSC, Packet.needsExclusive, hcmd]
    decide
  simp only [hcmd, reduceCtorEq, if_false, hwrite, hread, Bool.false_eq_true, if_true,
    CacheStore.satisfyRead, hllsc] at hrun
  obtain ⟨b, htrack, hrun⟩ := bind_eq_ok.mp hrun
  replace htrack := of_guard htrack
  obtain ⟨ctx, hctx, htrack⟩ := bind_eq_ok.mp htrack
  cases htrack
  refine ⟨ctx, need_eq_ok.mp hctx, ?_, by simp [wrote, hcmd, hwrite]⟩
  unfold blk
  split at hrun
  · rw [lockList_passBlock (by exact hex) hrun, blk_setBlk]
  · cases hrun
    rw [blk_setBlk]

theorem satisfy_write (hcmd : a.1.cmd = .writeReq ∨ a.1.cmd = .storeCondReq) :
    ∃ ok, (h'.blk r).lockList = [] ∧ h'.requests = h.requests ++ [(a.1, ok)] ∧
      (ok = false → (h'.blk r).data = (h.blk r).data) ∧
      (a.1.cmd = .storeCondReq →
        (ok = true ↔ ∃ c, a.1.req.contextId = some c ∧ c ∈ (h.blk r).lockList)) := by
  obtain ⟨c, resp, rfl, hrun⟩ := satisfy_ok hs
  obtain ⟨hswap, hwrite, hsc⟩ : a.1.cmd ≠ .swapReq ∧ a.1.isWrite = true ∧
      (a.1.isLLSC = true ↔ a.1.cmd = .storeCondReq) := by
    rcases hcmd with hcmd | hcmd <;> simp only [Packet.isWrite, Packet.isLLSC, hcmd] <;> decide
  simp only [hswap, hwrite, if_false, if_true] at hrun
  obtain ⟨⟨b, p, ok⟩, hcheck, hrun⟩ := bind_eq_ok.mp hrun
  cases hrun
  unfold CacheBlk.checkWrite at hcheck
  split at hcheck
  · rename_i hllsc
    obtain ⟨success, hmatch, hcheck⟩ := bind_eq_ok.mp hcheck
    cases hcheck
    have hin : ok = true ↔ ∃ c, a.1.req.contextId = some c ∧ c ∈ (h.blk r).lockList := by
      unfold CacheBlk.matchesContext at hmatch
      split at hmatch
      · rename_i hempty
        cases hmatch
        simp [blk, List.isEmpty_iff.mp hempty]
      · obtain ⟨ctx, hctx, hmatch⟩ := bind_eq_ok.mp hmatch
        cases hmatch
        simp [need_eq_ok.mp hctx, blk]
    refine ⟨ok, ?_, ?_, ?_, fun _ => hin⟩
    · cases ok <;> simp [blk, blk_setBlk, CacheBlk.clearLoadLocks]
    · cases ok <;> simp [wrote, hswap, hwrite, hllsc, Packet.setExtraData]
    · rintro rfl
      simp [blk, blk_setBlk, CacheBlk.clearLoadLocks]
  · rename_i hllsc
    cases hcheck
    refine ⟨true, ?_, ?_, by simp, fun h => absurd (hsc.mpr h) hllsc⟩
    · simp [blk, blk_setBlk, CacheBlk.clearLoadLocks]
    · simp [wrote, hswap, hwrite, hllsc]

theorem satisfy_swap (hcmd : a.1.cmd = .swapReq) :
    (h'.blk r).lockList = (h.blk r).lockList ∧ h'.requests = h.requests ++ [(a.1, h.swaps r a.1)] := by
  obtain ⟨c, resp, rfl, hrun⟩ := satisfy_ok hs
  simp only [hcmd, if_true] at hrun
  replace hrun := of_guard hrun
  obtain ⟨overwrite, -, hrun⟩ := bind_eq_ok.mp hrun
  cases hrun
  refine ⟨?_, by simp [wrote, hcmd]⟩
  cases overwrite <;> simp [blk, blk_setBlk]

theorem locked_satisfy (hi : ∀ c ∈ (h.blk r).lockList, h.Locked c) (ha : h.Admits a)
    (hsp : h.Spares r a) :
    ∀ c ∈ (h'.blk r).lockList, h'.Locked c := by
  rcases ha with hcmd | hcmd | hcmd | hcmd
  · obtain ⟨ctx, hctx, hlist, hreq⟩ := satisfy_loadLocked hs hcmd
    intro c hc
    rw [Locked, hreq, reserved_snoc]
    rw [hlist, List.mem_cons] at hc
    rcases hc with rfl | hc
    · exact .inl (by simp [takes, hcmd, hctx])
    · exact .inr ⟨hi c hc, by simp [hits], fun _ _ _ => rfl⟩
  · obtain ⟨-, hlist, -⟩ := satisfy_write hs (.inl hcmd)
    simp [hlist]
  · obtain ⟨-, hlist, -⟩ := satisfy_write hs (.inr hcmd)
    simp [hlist]
  · obtain ⟨hlist, hreq⟩ := satisfy_swap hs hcmd
    rw [hlist]
    intro c hc
    cases hsw : h.swaps r a.1 with
    | true => simp [hsp (.inl ⟨hcmd, hsw⟩)] at hc
    | false =>
      rw [Locked, hreq, reserved_snoc, hsw]
      exact .inr ⟨hi c hc, by simp [hits], fun _ _ _ => rfl⟩

end

/-- In every run in which swaps that write and store-conditionals without their lock find no
locks, a store-conditional is carried out only if its context has kept its lock, and a failed
one changes neither the data nor the locks of other contexts. -/
theorem run_blockLocks {h₀ : BlockHistory σ} {as : List (Packet × Bool × Bool)}
    (hlocks : (h₀.blk r).lockList = [])
    (hr : Runs (fun h a h' => (h.Admits a ∧ h.satisfy r a = .ok h') ∧ h.Spares r a) h₀ as h)
    (hcmd : a.1.cmd = .storeCondReq) (hs : h.satisfy r a = .ok h') (hsp : h.Spares r a) :
    ∃ ok, h'.requests = h.requests ++ [(a.1, ok)] ∧
      (ok = true → ∃ c, a.1.req.contextId = some c ∧ h.Locked c) ∧
      (ok = false → (h'.blk r).data = (h.blk r).data ∧
        ∀ c, a.1.req.contextId ≠ some c → (c ∈ (h'.blk r).lockList ↔ c ∈ (h.blk r).lockList)) := by
  have hi : ∀ c ∈ (h.blk r).lockList, h.Locked c :=
    hr.invariant (P := fun h => ∀ c ∈ (h.blk r).lockList, h.Locked c) (by simp [hlocks])
      fun _ _ _ hi hs => locked_satisfy hs.1.2 hi hs.1.1 hs.2
  obtain ⟨ok, hlist, hreq, hdata, hin⟩ := satisfy_write hs (.inr hcmd)
  refine ⟨ok, hreq, fun hok => ?_, fun hok => ⟨hdata hok, fun c _ => ?_⟩⟩
  · obtain ⟨c, hctx, hc⟩ := (hin hcmd).mp hok
    exact ⟨c, hctx, hi c hc⟩
  · have hnil : (h.blk r).lockList = [] := by
      refine hsp (.inr ⟨hcmd, fun c hctx hc => ?_⟩)
      exact absurd ((hin hcmd).mpr ⟨c, hctx, hc⟩) (by simp [hok])
    rw [hlist, hnil]

def sample : BlockHistory LRU where
  store := { params := { blkSize := 64, hitLatency := 1, responseLatency := 1,
                         numTarget := 1, maxMasters := 1 }
             tags := LRU.sampleStore
             tempBlock := { status := { valid := true, writable := true, readable := true } } }

def request (cmd : MemCmd) (contextId : Nat) : Packet × Bool × Bool :=
  (MemoryHistory.sampleAccess cmd contextId 16 8, false, false)

def Ends (h : BlockHistory LRU) (a : Packet × Bool × Bool) (ok : Bool) : Prop :=
  (h.satisfy .temp a).toOption.any (fun h' => h'.requests.getLast?.any (·.2 == ok)) = true

instance (h : BlockHistory LRU) (a : Packet × Bool × Bool) (ok : Bool) : Decidable (h.Ends a ok) :=
  inferInstanceAs (Decidable (_ = _))

theorem storeCond_kept :
    ∃ h h', Runs (fun h a h' => (h.Admits a ∧ h.satisfy .temp a = .ok h') ∧ h.Spares .temp a) sample
        [request .loadLockedReq 0] h ∧
      h.satisfy .temp (request .storeCondReq 0) = .ok h' ∧
      h'.requests = h.requests ++ [((request .storeCondReq 0).1, true)] ∧ h.Locked 0 := by
  obtain ⟨h, hruns, ⟨hsp, hends⟩, -⟩ := runs_of_play_under Admits (satisfy .temp) (Spares .temp)
    (P := fun h : BlockHistory LRU => h.Spares .temp (request .storeCondReq 0) ∧
      h.Ends (request .storeCondReq 0) true)
    (Q := fun _ => True) (by decide +kernel)
      fun _ (_ : Runs _ sample [request .loadLockedReq 0] _) => trivial
  cases hs : h.satisfy .temp (request .storeCondReq 0) with
  | error e => simp [Ends, hs, Except.toOption] at hends
  | ok h' =>
    obtain ⟨ok, hreq, hlock, -⟩ := run_blockLocks (by rfl) hruns rfl hs hsp
    have hok : ok = true := by simpa [Ends, hs, Except.toOption, hreq] using hends
    obtain ⟨c, hc, hl⟩ := hlock hok
    cases hc
    exact ⟨h, h', hruns, hs, hok ▸ hreq, hl⟩

/-- A swap by another context leaves the lock, so that the store-conditional after it is
carried out. One that fails takes the locks of all. -/
theorem storeCond_swapped_failed :
    (∃ h, Runs (fun h a h' => h.Admits a ∧ h.satisfy .temp a = .ok h') sample
        [request .loadLockedReq 0, request .swapReq 1] h ∧
      ¬ h.Locked 0 ∧ h.Ends (request .storeCondReq 0) true) ∧
    (∃ h, Runs (fun h a h' => h.Admits a ∧ h.satisfy .temp a = .ok h') sample
        [request .loadLockedReq 1] h ∧
      1 ∈ (h.blk .temp).lockList ∧ h.Ends (request .storeCondReq 0) false ∧
      (h.satisfy .temp (request .storeCondReq 0)).toOption.any
      (fun h' => 1 ∉ (h'.blk .temp).lockList) = true) :=
  ⟨runs_of_play Admits (satisfy .temp) (by decide +kernel),
    runs_of_play Admits (satisfy .temp) (by decide +kernel)⟩

end BlockHistory

end Gem5
