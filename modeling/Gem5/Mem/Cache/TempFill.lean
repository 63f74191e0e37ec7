import Gem5.Mem.Cache.StoreSteps
import Gem5.Mem.Cache.Timing

/-!
# Fills into the temporary block

A fill goes to the temporary block if the block it would replace has a request of
its own on its way. The targets of the register are served from it, and it is
written back and cleared before anything else happens.
-/

namespace Gem5

open Lib MissPath

namespace MissPath

def Buffers (p : MissPath) (pkt : Packet) : Prop :=
  ∃ i ∈ p.writeBuffer.live, ∃ t ∈ (p.writeBuffer.registers i).targets.list, t.pkt = pkt

theorem Step.buffers {p p' : MissPath} (h : p.Inv)
    (hs : p.Step (.enqueue now .writeBuffer addr size pkt time) p') :
    p'.Buffers pkt := by
  obtain ⟨-, -, -, i, htaken, hfresh⟩ := step_spec h hs
  have hlive : p'.writeBuffer.live = p.writeBuffer.live ++ [i] := htaken.live
  obtain ⟨t, ht, hpkt⟩ := hfresh.target
  have ht : (p'.writeBuffer.registers i).targets.list = [t] := ht
  exact ⟨i, by simp [hlive], t, by simp [ht], hpkt⟩

end MissPath

namespace CacheStore

variable {σ : Type} [TagStore σ] {c : CacheStore σ} {mshrs : MSHRQueue} {now addr : Nat}
  {blk : Option BlkRef}

def refuses (c : CacheStore σ) (mshrs : MSHRQueue) (now addr : Nat) : Bool :=
  match TagStore.findVictim c.tags now addr with
  | .ok (tags, b, _) =>
    let blk := TagStore.blk tags b
    blk.isValid && (mshrs.findMatch (TagStore.regenerateBlkAddr tags blk.tag blk.set)).isSome
  | .error _ => false

theorem allocateBlock_refuses (h : c.allocateBlock mshrs now addr = .ok (c', b, writebacks)) :
    b = none ↔ c.refuses mshrs now addr = true := by
  obtain ⟨⟨tags, v, wbs⟩, hv, h⟩ := bind_eq_ok.mp h
  dsimp only at h
  simp only [refuses, hv]
  split at h
  · rename_i hvalid
    split at h
    · rename_i hmatch
      replace h := of_guard h
      replace h := of_guard h
      cases h
      simp [hvalid, hmatch]
    · rename_i hmatch
      have hsome : b ≠ none := by
        split at h
        · obtain ⟨_, -, h⟩ := bind_eq_ok.mp h
          cases h
          exact nofun
        · cases h
          exact nofun
      simp [hsome, hmatch]
  · rename_i hvalid
    cases h
    simp [hvalid]

theorem handleFill_refuses (h : c.handleFill mshrs now pkt blk = .ok (c', r, writebacks))
    (hblk : blk ≠ some .temp) :
    (r = .temp ↔ blk = none ∧ c.refuses mshrs now pkt.addr = true) ∧
    (r = .temp → pkt.hasData = true) := by
  obtain ⟨⟨c1, r1, wbs1⟩, hcheck, h⟩ := bind_eq_ok.mp h
  cases h
  cases blk with
  | some b =>
    replace hcheck := of_guard hcheck
    replace hcheck := of_guard hcheck
    cases hcheck
    have hb : r ≠ .temp := fun h => hblk (congrArg some h)
    simp [hb]
  | none =>
    obtain ⟨_, hdata, hcheck⟩ := bind_eq_ok.mp hcheck
    obtain ⟨⟨c2, b, wbs2⟩, halloc, hcheck⟩ := bind_eq_ok.mp hcheck
    have hrefuses := allocateBlock_refuses halloc
    cases b with
    | none =>
      replace hcheck := of_guard hcheck
      cases hcheck
      simp [← hrefuses, ensure_eq_ok.mp hdata]
    | some b =>
      obtain ⟨_, -, hcheck⟩ := bind_eq_ok.mp hcheck
      replace hcheck := of_guard hcheck
      cases hcheck
      simp [← hrefuses]

theorem filled_data (hread : pkt.isRead = true) (hi : i < blkSize) :
    (filled line pkt blkSize).data i = pkt.data i := by
  simp only [filled, hread, if_true]
  rw [memcpy_of_mem (Nat.zero_le i) (by simpa using hi), Nat.sub_zero]

end CacheStore

namespace MSHRQueue

theorem findMatch_set {q : MSHRQueue} {i addr : Nat} {m : MSHR} (h : m.addr = (q.registers i).addr) :
    (q.set i m).findMatch addr = q.findMatch addr := by
  have haddr : ∀ j, ((q.set i m).registers j).addr = (q.registers j).addr := by
    intro j
    by_cases hj : j = i
    · subst hj
      simpa [MSHRQueue.set] using h
    · simp [MSHRQueue.set, Function.update_of_ne hj]
  simp only [findMatch, haddr]
  rfl

end MSHRQueue

theorem MSHR.handleFill_same {m m' : MSHR} {pkt : Packet} (h : m.handleFill pkt = .ok m') :
    m'.addr = m.addr ∧ m'.postInvalidate = m.postInvalidate ∧ m'.targets.list =
      if !pkt.shared && !m.postInvalidate && !m.postDowngrade && m.deferredTargets.needsExclusive then
        m.targets.list ++ m.deferredTargets.list
      else m.targets.list := by
  unfold handleFill at h
  split at h
  · rename_i hshared
    cases h
    simp [hshared]
  · rename_i hshared
    obtain ⟨inv, hinv, h⟩ := bind_eq_ok.mp h
    obtain rfl : m.postInvalidate = inv := pure_eq_ok.mp (of_guard hinv)
    split at h
    · rename_i hall
      replace h := of_guard h
      replace h := of_guard h
      cases h
      simp_all
    · rename_i hall
      cases h
      refine ⟨rfl, rfl, (if_neg fun hcond => hall ?_).symm⟩
      simp_all

namespace Target

def givesUp (blkSize : Nat) (t : Target) : Bool :=
  match t.source with
  | .fromCPU => CacheStore.takesBlock blkSize t.pkt
  | .fromSnoop => t.pkt.isInvalidate
  | .fromPrefetcher => false

def writes (t : Target) : Bool := t.isCPU && t.pkt.isWrite && !t.pkt.isLLSC && t.pkt.cmd != .swapReq

def lay (blkSize : Nat) (offset : Nat → Nat) (data : Nat → UInt8) (t : Target) : Nat → UInt8 :=
  memcpy data (if t.pkt.cmd = .swapReq then offset t.pkt.addr
    else t.pkt.getOffset blkSize) t.pkt.data t.pkt.size

end Target

structure Written (blkSize : Nat) (offset : Nat → Nat) (served : List Target) (old new : CacheBlk)
    (written : List Target) : Prop where
  sublist : written.Sublist served
  writes : ∀ t ∈ served, t.writes = true → t ∈ written
  tag : new.tag = old.tag
  set : new.set = old.set
  valid : new.isValid = old.isValid
  data : new.data = written.foldl (Target.lay blkSize offset) old.data
  dirty : new.isDirty = (old.isDirty || !written.isEmpty)

namespace Written

theorem nil (h : CacheStore.SameLine old new) : Written blkSize offset [] old new [] :=
  ⟨.refl _, by simp, h.tag, h.set, h.valid, h.data, by simp [h.dirty]⟩

variable (h : Written blkSize offset served mid new written)
include h

theorem skip (hmid : CacheStore.SameLine old mid) (ht : t.writes = false) :
    Written blkSize offset (t :: served) old new written := by
  refine ⟨h.sublist.cons t, fun t' ht' hw => ?_, h.tag.trans hmid.tag, h.set.trans hmid.set,
    h.valid.trans hmid.valid, h.data.trans (by rw [hmid.data]), h.dirty.trans (by rw [hmid.dirty])⟩
  rcases List.mem_cons.mp ht' with rfl | ht'
  · rw [ht] at hw
    cases hw
  · exact h.writes t' ht' hw

theorem take (hmid : CacheStore.TakesData old mid
      (if t.pkt.cmd = .swapReq then offset t.pkt.addr else t.pkt.getOffset blkSize) t.pkt) :
    Written blkSize offset (t :: served) old new (t :: written) := by
  refine ⟨h.sublist.cons_cons t, fun t' ht' hw => ?_, h.tag.trans hmid.tag, h.set.trans hmid.set,
    h.valid.trans hmid.valid, ?_, ?_⟩
  · rcases List.mem_cons.mp ht' with rfl | ht'
    · exact List.mem_cons_self
    · exact List.mem_cons_of_mem _ (h.writes t' ht' hw)
  · rw [h.data, hmid.data]
    rfl
  · rw [h.dirty, hmid.dirty]
    simp

theorem satisfied (hmid : CacheStore.Satisfied blkSize (offset t.pkt.addr) t.pkt old mid) :
    ∃ written, Written blkSize offset (t :: served) old new written := by
  unfold CacheStore.Satisfied at hmid
  split at hmid
  · rename_i hcmd
    rcases hmid with hsame | htakes
    · exact ⟨_, h.skip hsame (by simp [Target.writes, hcmd])⟩
    · exact ⟨_, h.take (by rwa [if_pos hcmd])⟩
  · rename_i hcmd
    split at hmid
    · rcases hmid with htakes | ⟨hllsc, hsame⟩
      · exact ⟨_, h.take (by rwa [if_neg hcmd])⟩
      · exact ⟨_, h.skip hsame (by simp [Target.writes, hllsc])⟩
    · rename_i hw
      exact ⟨_, h.skip hmid (by simp [Target.writes, hw])⟩

end Written

theorem foldl_lay_congr {blkSize : Nat} {offset : Nat → Nat} {written : List Target}
    {data data' : Nat → UInt8} {i : Nat} (h : data i = data' i) :
    written.foldl (Target.lay blkSize offset) data i = written.foldl
      (Target.lay blkSize offset) data' i := by
  induction written generalizing data data' with
  | nil => exact h
  | cons t ts ih =>
    refine ih ?_
    simp [Target.lay, memcpy, h]

namespace Cache

variable {σ : Type} [TagStore σ] {c : Cache σ} {r : MSHRRef} {now : Nat} {pkt : Packet}
  {blk : Option BlkRef}

def SameTemp (c c' : Cache σ) : Prop := c'.store.tempBlock = c.store.tempBlock

def isFill (c : Cache σ) (r : MSHRRef) (pkt : Packet) : Bool :=
  !(c.path.register r).isForward && (pkt.isRead || pkt.cmd == .upgradeResp)

def fillsTemp (c : Cache σ) (now : Nat) (r : MSHRRef) (pkt : Packet) : Bool :=
  c.isFill r pkt && !pkt.isError &&
    (match TagStore.findBlock c.store.tags pkt.addr with
    | .ok none => true
    | _ => false) && c.store.refuses c.path.mshrQueue now pkt.addr

/-- The targets a fill serves. An exclusive copy that is not to be given up or shared again is
enough for the deferred ones, too. -/
def served (c : Cache σ) (r : MSHRRef) (pkt : Packet) : List Target :=
  let m := c.path.register r
  if !pkt.shared && !m.postInvalidate && !m.postDowngrade && m.deferredTargets.needsExclusive then
    m.targets.list ++ m.deferredTargets.list
  else m.targets.list

/-- If the fill of a response goes to the temporary block, neither the response nor a
target has the block given up. -/
def KeepsTemp (c : Cache σ) (now : Nat) (r : MSHRRef) (pkt : Packet) : Prop :=
  c.fillsTemp now r pkt = true → pkt.isInvalidate = false ∧
    (c.path.register r).postInvalidate = false ∧
    ∀ t ∈ c.served r pkt, t.givesUp c.params.blkSize = false

structure Serves (c : Cache σ) (blk : Option BlkRef) (r : MSHRRef) (c' : Cache σ) : Prop where
  params : c'.params = c.params
  other : blk ≠ some .temp → c.SameTemp c'
  tags : blk = some .temp → c'.store.tags = c.store.tags
  postInvalidate : (c'.path.register r).postInvalidate = (c.path.register r).postInvalidate

def Writes (c : Cache σ) (served : List Target) (c' : Cache σ) : Prop :=
  ∃ written, Written c.params.blkSize (TagStore.extractBlkOffset c.store.tags) served
    c.store.tempBlock c'.store.tempBlock written

omit [TagStore σ] in
theorem Serves.trans {d e : Cache σ} (h : c.Serves blk r d) (h' : d.Serves blk r e) :
    c.Serves blk r e :=
  ⟨h'.params.trans h.params, fun hb => (h'.other hb).trans (h.other hb),
    fun hb => (h'.tags hb).trans (h.tags hb), h'.postInvalidate.trans h.postInvalidate⟩

structure LineWriteback (store : CacheStore σ) (line : CacheBlk) (wb : Packet) : Prop where
  cmd : wb.cmd = .writeback
  addr : wb.addr = TagStore.regenerateBlkAddr store.tags line.tag line.set
  size : wb.size = store.params.blkSize
  data : ∀ i < store.params.blkSize, wb.data i = line.data i

structure Clears (c : Cache σ) (blk : Option BlkRef) (c' : Cache σ) : Prop where
  params : c'.params = c.params
  other : blk ≠ some .temp → c.SameTemp c'
  tags : blk = some .temp → c'.store.tags = c.store.tags
  valid : blk = some .temp → c'.store.tempBlock.isValid = false
  writeback : blk = some .temp → c.store.tempBlock.isDirty = true →
    ∃ wb, c'.path.Buffers wb ∧ LineWriteback c.store c.store.tempBlock wb

theorem Clears.of_snooped {c1 c' : Cache σ} (hs : c.store.Snooped blk c1.store)
    (h : c1.Clears blk c') :
    c.Clears blk c' := by
  refine ⟨h.params.trans hs.params, fun hb => (h.other hb).trans (hs.other hb),
    fun hb => (h.tags hb).trans (hs.tags hb), h.valid, fun hb hdirty => ?_⟩
  obtain ⟨wb, hbuffers, hwb⟩ := h.writeback hb (hs.line.dirty.trans hdirty)
  refine ⟨wb, hbuffers, hwb.cmd, ?_, hwb.size.trans (by rw [hs.params]), fun i hi => ?_⟩
  · rw [hwb.addr, hs.tags hb, hs.line.tag, hs.line.set]
  · rw [hwb.data i (by rwa [hs.params]), hs.line.data]

/-- What was written to the temporary block is in a writeback that waits to be
sent. `addr` is that of the block, and `offset` the tag store's. -/
def Carries (c : Cache σ) (r : MSHRRef) (pkt : Packet) (addr : Nat) (offset : Nat → Nat)
    (c' : Cache σ) : Prop :=
  ∃ written : List Target, written.Sublist (c.served r pkt) ∧
    (∀ t ∈ c.served r pkt, t.writes = true → t ∈ written) ∧
    (written ≠ [] → ∃ wb, c'.path.Buffers wb ∧ wb.cmd = .writeback ∧ wb.addr = addr ∧
      wb.size = c.params.blkSize ∧ ∀ i < c.params.blkSize, wb.data i =
        written.foldl (Target.lay c.params.blkSize offset) pkt.data i)

def blkAddr (tags : σ) (addr : Nat) : Nat :=
  TagStore.regenerateBlkAddr tags (TagStore.extractTag tags addr) (TagStore.extractSet tags addr)

structure Responds (c : Cache σ) (now : Nat) (r : MSHRRef) (pkt : Packet) (c' : Cache σ) : Prop where
  other : c.fillsTemp now r pkt = false → c.SameTemp c'
  valid : c.fillsTemp now r pkt = true → c'.store.tempBlock.isValid = false
  carries : c.fillsTemp now r pkt = true →
    c.Carries r pkt (blkAddr c'.store.tags pkt.addr) (TagStore.extractBlkOffset c'.store.tags) c'

theorem refuses_congr {store : CacheStore σ} {mshrs mshrs' : MSHRQueue} {addr : Nat}
    (h : ∀ addr, mshrs'.findMatch addr = mshrs.findMatch addr) :
    store.refuses mshrs' now addr = store.refuses mshrs now addr := by
  simp [CacheStore.refuses, h]

structure FilledTemp (c : Cache σ) (r : MSHRRef) (pkt : Packet) (c' : Cache σ) : Prop where
  valid : c.store.tempBlock.isValid = false
  line : c'.store.tempBlock = CacheStore.filled { c.store.tempBlock with
      set := TagStore.extractSet c'.store.tags pkt.addr
      tag := TagStore.extractTag c'.store.tags pkt.addr } pkt c.params.blkSize
  data : pkt.hasData = true

omit [TagStore σ] in
theorem isRead_of_fill (hfill : c.isFill r pkt = true) (hdata : pkt.hasData = true) :
    pkt.isRead = true := by
  obtain ⟨-, hread | hcmd⟩ : _ ∧ (pkt.isRead = true ∨ pkt.cmd = .upgradeResp) := by
    simpa [isFill] using hfill
  · exact hread
  · rw [Packet.hasData, hcmd] at hdata
    cases hdata

theorem FilledTemp.carries (hfilled : c.FilledTemp r pkt c1) (hparams : c1.params = c.params)
    (hread : pkt.isRead = true) (hserves : c1.Serves (some .temp) r c2)
    (hwrites : c1.Writes (c.served r pkt) c2) (hclears : c2.Clears (some .temp) c') :
    c.Carries r pkt (blkAddr c'.store.tags pkt.addr) (TagStore.extractBlkOffset c'.store.tags) c' := by
  obtain ⟨written, hwritten⟩ := hwrites
  have hparams2 : c2.params.blkSize = c.params.blkSize := by rw [hserves.params, hparams]
  have htags : c'.store.tags = c1.store.tags := (hclears.tags rfl).trans (hserves.tags rfl)
  refine ⟨written, hwritten.sublist, hwritten.writes, fun hne => ?_⟩
  obtain ⟨wb, hbuffers, hwb⟩ := hclears.writeback rfl (by simp [hwritten.dirty, hne])
  refine ⟨wb, hbuffers, hwb.cmd, ?_, hwb.size.trans hparams2, fun i hi => ?_⟩
  · rw [hwb.addr, hwritten.tag, hwritten.set, hfilled.line, htags, hserves.tags rfl]
    rfl
  · rw [hwb.data i (hi.trans_eq hparams2.symm), hwritten.data, hparams, htags, hfilled.line]
    exact foldl_lay_congr (CacheStore.filled_data hread hi)

end Cache

end Gem5
