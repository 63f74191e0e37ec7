import Gem5.Mem.Cache.MissPathSteps
import Gem5.Mem.Cache.Store

/-!
# Steps of the block store

What the functions on the blocks of a cache make of a packet, of the temporary
block and of the writebacks, and how they fail. A fault of the miss path is none
of theirs, and they trip over the temporary block only where a block is given up.
-/

namespace Gem5

open Lib TagStore

structure Packet.Same (pkt pkt' : Packet) : Prop where
  id : pkt'.id = pkt.id
  cmd : pkt'.cmd = pkt.cmd
  addr : pkt'.addr = pkt.addr
  size : pkt'.size = pkt.size

namespace Packet.Same

variable {pkt pkt' pkt'' : Packet}

theorem refl (pkt : Packet) : pkt.Same pkt := ⟨rfl, rfl, rfl, rfl⟩

theorem trans (h : pkt.Same pkt') (h' : pkt'.Same pkt'') : pkt.Same pkt'' :=
  ⟨h'.id.trans h.id, h'.cmd.trans h.cmd, h'.addr.trans h.addr, h'.size.trans h.size⟩

theorem needsResponse (h : pkt.Same pkt') : pkt'.needsResponse = pkt.needsResponse := by
  rw [Packet.needsResponse, h.cmd, Packet.needsResponse]

end Packet.Same

/-- How a tag store fails, and the writebacks it hands over with a victim: none at
all if it is `quiet`. -/
structure TagStore.Behaves (σ : Type) [TagStore σ] (E : Fault → Prop) (quiet : Prop) : Prop where
  accessBlock : ∀ (t : σ) now addr, Meets (fun _ => True) E (TagStore.accessBlock t now addr)
  findBlock : ∀ (t : σ) addr, Meets (fun _ => True) E (TagStore.findBlock t addr)
  findVictim : ∀ (t : σ) now addr,
    Meets (fun r => (∀ pkt ∈ r.2.2, pkt.cmd = .writeback) ∧ (quiet → r.2.2 = [])) E
      (TagStore.findVictim t now addr)
  insertBlock : ∀ (t : σ) now addr b master,
    Meets (fun _ => True) E (TagStore.insertBlock t now addr b master)
  invalidate : ∀ (t : σ) b, Meets (fun _ => True) E (TagStore.invalidate t b)

namespace CacheStore

variable {σ : Type} [TagStore σ] {E : Fault → Prop} {quiet : Prop} {c : CacheStore σ} {r : BlkRef}
  {pkt : Packet} {now : Nat}

structure Keeps (c : CacheStore σ) (r : BlkRef) (c' : CacheStore σ) : Prop where
  params : c'.params = c.params
  temp : r ≠ .temp → c'.tempBlock = c.tempBlock
  tags : r = .temp → c'.tags = c.tags

omit [TagStore σ] in
theorem Keeps.refl (c : CacheStore σ) (r : BlkRef) : c.Keeps r c := ⟨rfl, fun _ => rfl, fun _ => rfl⟩

omit [TagStore σ] in
theorem Keeps.trans (h : c.Keeps r c') (h' : c'.Keeps r c'') : c.Keeps r c'' :=
  ⟨h'.params.trans h.params, fun hr => (h'.temp hr).trans (h.temp hr),
    fun hr => (h'.tags hr).trans (h.tags hr)⟩

theorem keeps_setBlk (c : CacheStore σ) (r : BlkRef) (blk : CacheBlk) :
    c.Keeps r (c.setBlk r blk) := by
  cases r with
  | frame b => exact ⟨rfl, fun _ => rfl, nofun⟩
  | temp => exact ⟨rfl, fun h => absurd rfl h, fun _ => rfl⟩

structure SameLine (old new : CacheBlk) : Prop where
  tag : new.tag = old.tag
  set : new.set = old.set
  valid : new.isValid = old.isValid
  data : new.data = old.data
  dirty : new.isDirty = old.isDirty

theorem SameLine.refl (blk : CacheBlk) : SameLine blk blk := ⟨rfl, rfl, rfl, rfl, rfl⟩

theorem SameLine.trans (h : SameLine a b) (h' : SameLine b d) : SameLine a d :=
  ⟨h'.tag.trans h.tag, h'.set.trans h.set, h'.valid.trans h.valid, h'.data.trans h.data,
    h'.dirty.trans h.dirty⟩

structure TakesData (old new : CacheBlk) (offset : Nat) (pkt : Packet) : Prop where
  tag : new.tag = old.tag
  set : new.set = old.set
  valid : new.isValid = old.isValid
  data : new.data = memcpy old.data offset pkt.data pkt.size
  dirty : new.isDirty = true

/-- What a request does to the line it is satisfied from. Store conditionals and
swaps may or may not write. -/
def Satisfied (blkSize swapOffset : Nat) (pkt : Packet) (old new : CacheBlk) : Prop :=
  if pkt.cmd = .swapReq then SameLine old new ∨ TakesData old new swapOffset pkt
  else if pkt.isWrite then
    TakesData old new (pkt.getOffset blkSize) pkt ∨ pkt.isLLSC = true ∧ SameLine old new
  else SameLine old new

structure Done (c : CacheStore σ) (r : BlkRef) (pkt : Packet) (a : CacheStore σ × Packet) : Prop where
  keeps : c.Keeps r a.1
  same : pkt.Same a.2
  line : r = .temp → Satisfied c.params.blkSize (TagStore.extractBlkOffset c.tags pkt.addr) pkt
    c.tempBlock a.1.tempBlock

def takesBlock (blkSize : Nat) (pkt : Packet) : Bool :=
  pkt.cmd != .swapReq && !pkt.isWrite && (!pkt.isRead || (pkt.size == blkSize && pkt.needsExclusive))

section Requests

variable (hE : Mild E) (hσ : TagStore.Behaves σ E quiet)

include hσ in
theorem invalidate_meets (b : Nat) :
    Meets (fun c' => c.Keeps (.frame b) c') E (c.invalidate b) := by
  have hevict : Meets (fun _ => True) E (evict c.tags b) :=
    (hσ.invalidate c.tags b).bind fun _ _ => trivial
  exact hevict.bind fun _ _ => ⟨rfl, fun _ => rfl, nofun⟩

include hσ in
theorem giveUp_meets (hr : r = .temp → E tempFault) :
    Meets (fun c' => c.Keeps r c' ∧ r ≠ .temp) E (c.giveUp r) := by
  cases r with
  | temp => exact hr rfl
  | frame b => exact (invalidate_meets hσ b).mono fun _ h => ⟨h, nofun⟩

include hE in
theorem cmpAndSwap_meets (hcmd : pkt.cmd = .swapReq) :
    Meets (c.Done r pkt) E (c.cmpAndSwap r pkt) := by
  refine hE.guard rfl fun _ => ?_
  have happlies : Meets (fun _ => True) E
      (pkt.swapApplies fun i => (c.blk r).data (extractBlkOffset c.tags pkt.addr + i)) := by
    unfold Packet.swapApplies
    split
    · exact trivial
    · split
      · exact trivial
      · exact hE.pass rfl
  refine happlies.bind fun overwrite _ => ?_
  cases overwrite with
  | false =>
    refine ⟨.refl c r, ⟨rfl, rfl, rfl, rfl⟩, fun hr => ?_⟩
    rw [Satisfied, if_pos hcmd]
    exact .inl (.refl _)
  | true =>
    refine ⟨keeps_setBlk .., ⟨rfl, rfl, rfl, rfl⟩, fun hr => ?_⟩
    subst hr
    rw [Satisfied, if_pos hcmd]
    exact .inr ⟨rfl, rfl, rfl, rfl, rfl⟩

include hE in
theorem checkWrite_meets {blk : CacheBlk} :
    Meets (fun a => SameLine blk a.1 ∧ pkt.Same a.2.1 ∧ a.2.1.data = pkt.data ∧
      (a.2.2 = true ∨ pkt.isLLSC = true)) E (blk.checkWrite pkt) := by
  unfold CacheBlk.checkWrite
  split
  · rename_i hllsc
    have hmatch : Meets (fun _ => True) E (blk.matchesContext pkt.req) := by
      unfold CacheBlk.matchesContext
      split
      · exact trivial
      · exact (Meets.need (hE.pass rfl)).bind fun _ _ => trivial
    refine hmatch.bind fun _ _ => ?_
    exact ⟨⟨rfl, rfl, rfl, rfl, rfl⟩, ⟨rfl, rfl, rfl, rfl⟩, rfl, .inr hllsc⟩
  · exact ⟨⟨rfl, rfl, rfl, rfl, rfl⟩, .refl _, rfl, .inl rfl⟩

include hE in
theorem satisfyWrite_meets (hcmd : pkt.cmd ≠ .swapReq) (hw : pkt.isWrite = true) :
    Meets (c.Done r pkt) E (c.satisfyWrite r pkt) := by
  refine (checkWrite_meets hE).bind fun ⟨blk, pkt', ok⟩ ⟨hline, hsame, hdata, hok⟩ => ?_
  refine ⟨keeps_setBlk .., hsame, fun hr => ?_⟩
  subst hr
  rw [Satisfied, if_neg hcmd, if_pos hw]
  cases ok with
  | false => exact .inr ⟨hok.resolve_left nofun, hline⟩
  | true =>
    refine .inl ⟨hline.tag, hline.set, hline.valid, ?_, rfl⟩
    rw [Packet.writeDataToBlock, Packet.getOffset, hsame.addr, hsame.size, hdata, hline.data]
    rfl

include hσ in
theorem passBlock_meets (hr : r = .temp → pkt.needsExclusive = true → E tempFault)
    (deferred downgrade : Bool) (hd : r = .temp → deferred = true) :
    Meets (fun a => c.Keeps r a.1 ∧ pkt.Same a.2 ∧ (r = .temp → SameLine c.tempBlock a.1.tempBlock)) E
      (c.passBlock r pkt deferred downgrade) := by
  unfold passBlock
  dsimp only
  split
  · rename_i hex
    refine (giveUp_meets hσ fun h => hr h hex).bind fun c' ⟨hkeeps, hne⟩ => ?_
    exact ⟨hkeeps, ⟨rfl, rfl, rfl, rfl⟩, fun h => absurd h hne⟩
  · split
    · split
      · exact ⟨.refl c r, .refl _, fun _ => .refl _⟩
      · split
        · rename_i htop
          refine ⟨keeps_setBlk .., ⟨rfl, rfl, rfl, rfl⟩, fun h => ?_⟩
          simp [hd h] at htop
        · exact ⟨.refl c r, ⟨rfl, rfl, rfl, rfl⟩, fun _ => .refl _⟩
    · exact ⟨.refl c r, ⟨rfl, rfl, rfl, rfl⟩, fun _ => .refl _⟩

include hE hσ in
theorem satisfyRead_meets
    (hr : r = .temp → pkt.size = c.params.blkSize → pkt.needsExclusive = true → E tempFault)
    (deferred downgrade : Bool) (hd : r = .temp → deferred = true) :
    Meets (fun a => c.Keeps r a.1 ∧ pkt.Same a.2 ∧ (r = .temp → SameLine c.tempBlock a.1.tempBlock)) E
      (c.satisfyRead r pkt deferred downgrade) := by
  have hrest : ∀ blk, SameLine (c.blk r) blk →
      Meets (fun a => c.Keeps r a.1 ∧ pkt.Same a.2 ∧
        (r = .temp → SameLine c.tempBlock a.1.tempBlock)) E
        (if (pkt.setDataFromBlock blk.data (c.setBlk r blk).params.blkSize).size =
            (c.setBlk r blk).params.blkSize then
          (c.setBlk r blk).passBlock r (pkt.setDataFromBlock blk.data (c.setBlk r blk).params.blkSize)
            deferred downgrade
        else pure (c.setBlk r blk,
          pkt.setDataFromBlock blk.data (c.setBlk r blk).params.blkSize)) := by
    intro blk hline
    have hkeeps : c.Keeps r (c.setBlk r blk) := keeps_setBlk ..
    have htemp : r = .temp → SameLine c.tempBlock (c.setBlk r blk).tempBlock := by
      rintro rfl
      exact hline
    split
    · rename_i hsize
      refine (passBlock_meets hσ (fun h hex => ?_) deferred downgrade hd).mono ?_
      · exact hr h (hsize.trans (by rw [hkeeps.params])) hex
      rintro ⟨c', pkt'⟩ ⟨hkeeps', hsame, hline'⟩
      exact ⟨hkeeps.trans hkeeps', { hsame with }, fun h => (htemp h).trans (hline' h)⟩
    · exact ⟨hkeeps, ⟨rfl, rfl, rfl, rfl⟩, htemp⟩
  unfold satisfyRead
  split
  · have htrack : Meets (SameLine (c.blk r)) E ((c.blk r).trackLoadLocked pkt) := by
      refine hE.guard rfl fun _ => ?_
      exact (Meets.need (hE.pass rfl)).bind fun _ _ => ⟨rfl, rfl, rfl, rfl, rfl⟩
    exact htrack.bind hrest
  · exact hrest _ (.refl _)

include hE hσ in
theorem satisfyCpuSideRequest_meets
    (hr : r = .temp → takesBlock c.params.blkSize pkt = true → E tempFault)
    (deferred downgrade : Bool) (hd : r = .temp → deferred = true) :
    Meets (c.Done r pkt) E (c.satisfyCpuSideRequest pkt r deferred downgrade) := by
  refine hE.guard rfl fun _ => ?_
  refine hE.guard rfl fun _ => ?_
  split
  · rename_i hcmd
    exact cmpAndSwap_meets hE hcmd
  · rename_i hcmd
    split
    · rename_i hw
      exact satisfyWrite_meets hE hcmd hw
    · rename_i hw
      split
      · rename_i hread
        refine (satisfyRead_meets hE hσ (fun h hsize hex => hr h ?_) deferred downgrade hd).mono ?_
        · simp [takesBlock, hcmd, hw, hsize, hex]
        · rintro ⟨c', pkt'⟩ ⟨hkeeps, hsame, hline⟩
          refine ⟨hkeeps, hsame, fun h => ?_⟩
          rw [Satisfied, if_neg hcmd, if_neg hw]
          exact hline h
      · rename_i hread
        refine hE.guard rfl fun _ => ?_
        refine (giveUp_meets hσ fun h => hr h ?_).bind fun c' hresult => ?_
        · simp [takesBlock, hcmd, hw, hread]
        · exact ⟨hresult.1, .refl _, fun h => absurd h hresult.2⟩

end Requests

def Writebacks (quiet : Prop) (writebacks : List Packet) : Prop :=
  (∀ pkt ∈ writebacks, pkt.cmd = .writeback) ∧ (quiet → writebacks.length ≤ 1)

theorem writebacks_nil {quiet : Prop} : Writebacks quiet [] := ⟨by simp, fun _ => by simp⟩

structure TagsOnly (c c' : CacheStore σ) : Prop where
  params : c'.params = c.params
  temp : c'.tempBlock = c.tempBlock

section Fills

variable (hE : Mild E) (hσ : TagStore.Behaves σ E quiet)

include hE in
theorem writebackBlk_meets :
    Meets (fun a => c.Keeps r a.1 ∧ a.2.cmd = .writeback) E (c.writebackBlk r) := by
  refine hE.guard rfl fun _ => ?_
  exact ⟨keeps_setBlk .., rfl⟩

include hE hσ in
theorem allocateBlock_meets (mshrs : MSHRQueue) (now addr : Nat) :
    Meets (fun a => c.TagsOnly a.1 ∧ Writebacks quiet a.2.2 ∧ (quiet → a.2.1 = none → a.2.2 = [])) E
      (c.allocateBlock mshrs now addr) := by
  refine (hσ.findVictim c.tags now addr).bind fun result hresult => ?_
  obtain ⟨tags, b, writebacks⟩ := result
  obtain ⟨hcmd, hquiet⟩ := hresult
  dsimp only at hcmd hquiet ⊢
  have hwb : Writebacks quiet writebacks := ⟨hcmd, fun hq => by simp [hquiet hq]⟩
  split
  · split
    · refine hE.guard rfl fun _ => ?_
      refine hE.guard rfl fun _ => ?_
      exact ⟨⟨rfl, rfl⟩, hwb, fun hq _ => hquiet hq⟩
    · split
      · refine (writebackBlk_meets hE).bind fun result hresult => ?_
        obtain ⟨hkeeps, hwrite⟩ := hresult
        refine ⟨⟨hkeeps.params, hkeeps.temp (by rintro ⟨⟩)⟩,
          ⟨?_, fun hq => by simp [hquiet hq]⟩, by rintro _ ⟨⟩⟩
        simpa [or_imp, forall_and] using ⟨hcmd, hwrite⟩
      · exact ⟨⟨rfl, rfl⟩, hwb, by rintro _ ⟨⟩⟩
  · exact ⟨⟨rfl, rfl⟩, hwb, by rintro _ ⟨⟩⟩

structure FillsInto (c : CacheStore σ) (quiet : Prop) (pkt : Packet)
    (a : CacheStore σ × BlkRef × List Packet) : Prop where
  params : a.1.params = c.params
  other : a.2.1 ≠ .temp → a.1.tempBlock = c.tempBlock
  temp : a.2.1 = .temp → c.tempBlock.isValid = false ∧
    a.1.tempBlock = { c.tempBlock with
      set := TagStore.extractSet a.1.tags pkt.addr
      tag := TagStore.extractTag a.1.tags pkt.addr }
  writebacks : Writebacks quiet a.2.2
  none : quiet → a.2.1 = .temp → a.2.2 = []

include hE hσ in
theorem fillTarget_meets (mshrs : MSHRQueue) :
    Meets (c.FillsInto quiet pkt) E (c.fillTarget mshrs now pkt) := by
  refine hE.guard rfl fun _ => ?_
  refine (allocateBlock_meets hE hσ mshrs now pkt.addr).bind fun result hresult => ?_
  obtain ⟨c', b, writebacks⟩ := result
  obtain ⟨htags, hwb, hnone⟩ := hresult
  cases b with
  | none =>
    refine hE.guard rfl fun hvalid => ?_
    rw [htags.temp] at hvalid
    refine ⟨htags.params, fun h => absurd rfl h, fun _ => ⟨by simpa using hvalid, ?_⟩, hwb,
      fun hq _ => hnone hq rfl⟩
    rw [htags.temp]
  | some b =>
    refine (hσ.insertBlock ..).bind fun tags _ => ?_
    refine hE.guard rfl fun _ => ?_
    exact ⟨htags.params, fun _ => htags.temp, by rintro ⟨⟩, hwb, by rintro _ ⟨⟩⟩

include hE hσ in
theorem checkFillTarget_meets (mshrs : MSHRQueue) {blk : Option BlkRef} (hblk : blk ≠ some .temp) :
    Meets (c.FillsInto quiet pkt) E (c.checkFillTarget mshrs now pkt blk) := by
  cases blk with
  | none => exact fillTarget_meets hE hσ mshrs
  | some r =>
    refine hE.guard rfl fun _ => ?_
    refine hE.guard rfl fun _ => ?_
    exact ⟨rfl, fun _ => rfl, fun h => absurd (congrArg some h) hblk, writebacks_nil, fun _ _ => rfl⟩

structure Fills (c : CacheStore σ) (quiet : Prop) (pkt : Packet)
    (a : CacheStore σ × BlkRef × List Packet) : Prop where
  params : a.1.params = c.params
  other : a.2.1 ≠ .temp → a.1.tempBlock = c.tempBlock
  temp : a.2.1 = .temp → c.tempBlock.isValid = false ∧
    a.1.tempBlock = filled { c.tempBlock with
      set := TagStore.extractSet a.1.tags pkt.addr
      tag := TagStore.extractTag a.1.tags pkt.addr } pkt c.params.blkSize
  writebacks : Writebacks quiet a.2.2
  none : quiet → a.2.1 = .temp → a.2.2 = []

include hE hσ in
theorem handleFill_meets (mshrs : MSHRQueue) {blk : Option BlkRef} (hblk : blk ≠ some .temp) :
    Meets (c.Fills quiet pkt) E (c.handleFill mshrs now pkt blk) := by
  refine (checkFillTarget_meets hE hσ mshrs hblk).bind fun ⟨c', r, writebacks⟩ hfill => ?_
  have hkeeps := c'.keeps_setBlk r (filled (c'.blk r) pkt c'.params.blkSize)
  refine ⟨hkeeps.params.trans hfill.params, fun h => (hkeeps.temp h).trans (hfill.other h),
    fun h => ⟨(hfill.temp h).1, ?_⟩, hfill.writebacks, hfill.none⟩
  have hr : r = .temp := h
  subst hr
  have htemp := (hfill.temp rfl).2
  have hparams := hfill.params
  change filled c'.tempBlock pkt c'.params.blkSize = _
  rw [htemp, hparams]
  rfl

end Fills

structure Accesses (c : CacheStore σ) (quiet : Prop) (pkt : Packet)
    (a : CacheStore σ × Packet × AccessResult) : Prop where
  tags : c.TagsOnly a.1
  same : pkt.Same a.2.1
  blk : a.2.2.blk ≠ some .temp
  writebacks : Writebacks quiet a.2.2.writebacks
  none : quiet → a.2.2.satisfied = false → a.2.2.writebacks = []

section Accesses

variable (hE : Mild E) (hσ : TagStore.Behaves σ E quiet)

omit [TagStore σ] in
include hE in
theorem countAccess_meets : Meets (fun _ => True) E (c.countAccess pkt) :=
  (Meets.ensure (hE.pass rfl)).mono fun _ _ => trivial

include hσ in
theorem findBlock_meets (addr : Nat) : Meets (fun b => b ≠ some .temp) E (c.findBlock addr) := by
  refine (hσ.findBlock c.tags addr).bind fun b _ => ?_
  cases b <;> exact nofun

include hσ in
theorem uncacheableAccess_meets : Meets c.TagsOnly E (c.uncacheableAccess pkt) := by
  unfold uncacheableAccess
  split
  · exact ⟨rfl, rfl⟩
  · split
    · refine (hσ.findBlock c.tags pkt.addr).bind fun b _ => ?_
      cases b with
      | none => exact ⟨rfl, rfl⟩
      | some b => exact (invalidate_meets hσ b).mono fun _ h => ⟨h.params, h.temp nofun⟩
    · exact ⟨rfl, rfl⟩

include hE hσ in
theorem accessWriteback_meets (mshrs : MSHRQueue) {blk : Option BlkRef} (hblk : blk ≠ some .temp)
    (lat : Int) : Meets (c.Accesses quiet pkt) E (c.accessWriteback mshrs now pkt blk lat) := by
  refine hE.guard rfl fun _ => ?_
  cases blk with
  | some r =>
    refine hE.guard rfl fun _ => ?_
    refine (countAccess_meets hE).bind fun _ _ => ?_
    have hkeeps : c.Keeps r (c.takeWriteback r pkt) := keeps_setBlk ..
    exact ⟨⟨hkeeps.params, hkeeps.temp fun h => hblk (congrArg some h)⟩, .refl _, hblk,
      writebacks_nil, fun _ _ => rfl⟩
  | none =>
    refine (allocateBlock_meets hE hσ mshrs now pkt.addr).bind fun result hresult => ?_
    obtain ⟨c', b, writebacks⟩ := result
    obtain ⟨htags, hwb, hnone⟩ := hresult
    cases b with
    | none =>
      refine (countAccess_meets hE).bind fun _ _ => ?_
      exact ⟨htags, .refl _, by rintro ⟨⟩, hwb, fun hq _ => hnone hq rfl⟩
    | some b =>
      refine (hσ.insertBlock ..).bind fun tags _ => ?_
      refine hE.guard rfl fun _ => ?_
      refine (countAccess_meets hE).bind fun _ _ => ?_
      exact ⟨{ htags with }, .refl _, by rintro ⟨⟩, hwb, by rintro _ ⟨⟩⟩

include hE hσ in
theorem access_meets (mshrs : MSHRQueue) :
    Meets (c.Accesses quiet pkt) E (c.access mshrs now pkt) := by
  unfold access
  split
  · refine (uncacheableAccess_meets hσ).bind fun c' htags => ?_
    exact ⟨htags, .refl _, nofun, writebacks_nil, fun _ _ => rfl⟩
  · refine (hσ.accessBlock c.tags now pkt.addr).bind fun ⟨tags, b, lat⟩ _ => ?_
    have hblk : b.map BlkRef.frame ≠ some .temp := by cases b <;> exact nofun
    dsimp only
    split
    · rename_i r hr
      have hne : r ≠ .temp := by
        rintro rfl
        exact hblk (Option.eq_some_of_filter_eq_some hr)
      refine (countAccess_meets hE).bind fun _ _ => ?_
      refine (satisfyCpuSideRequest_meets hE hσ (fun h => absurd h hne) false false
        fun h => absurd h hne).bind fun ⟨c', pkt'⟩ hdone => ?_
      exact ⟨⟨hdone.keeps.params, hdone.keeps.temp hne⟩, hdone.same, hblk, writebacks_nil, nofun⟩
    · split
      · refine (accessWriteback_meets hE hσ mshrs hblk lat).mono fun a h => ?_
        exact { h with tags := { h.tags with } }
      · refine (countAccess_meets hE).bind fun _ _ => ?_
        split
        · exact ⟨⟨rfl, rfl⟩, ⟨rfl, rfl, rfl, rfl⟩, nofun, writebacks_nil, nofun⟩
        · exact ⟨⟨rfl, rfl⟩, .refl _, hblk, writebacks_nil, fun _ _ => rfl⟩

include hE in
theorem getBusPacket_meets (blk : Option BlkRef) (needsExclusive : Bool) :
    Meets (fun _ => True) E (c.getBusPacket pkt blk needsExclusive) := by
  unfold getBusPacket
  dsimp only
  split
  · exact trivial
  · split
    · exact trivial
    · refine hE.guard rfl fun _ => ?_
      split
      · exact hE.guard rfl fun _ => trivial
      · exact trivial

end Accesses

section Snoops

variable (hE : Mild E) (hσ : TagStore.Behaves σ E quiet)

include hE in
theorem makeResponse_meets : Meets (fun resp => resp.id = pkt.id) E pkt.makeResponse := by
  refine hE.guard rfl fun _ => ?_
  exact hE.guard rfl fun _ => rfl

omit [TagStore σ] in
include hE in
theorem timingSupplyResponse_meets (data : Nat → UInt8) (pendingInval : Bool) :
    Meets (fun _ => True) E (c.timingSupplyResponse pkt data pendingInval) := by
  refine hE.guard rfl fun _ => ?_
  exact (makeResponse_meets hE).bind fun _ _ => trivial

omit [TagStore σ] in
include hE in
theorem respondSnoop_meets (blk : CacheBlk) (pendingInval : Bool) :
    Meets (fun _ => True) E (c.respondSnoop pkt blk true pendingInval) := by
  refine hE.guard rfl fun _ => ?_
  exact (timingSupplyResponse_meets hE ..).bind fun _ _ => trivial

structure Snooped (c : CacheStore σ) (blk : Option BlkRef) (c' : CacheStore σ) : Prop where
  params : c'.params = c.params
  other : blk ≠ some .temp → c'.tempBlock = c.tempBlock
  line : SameLine c.tempBlock c'.tempBlock
  tags : blk = some .temp → c'.tags = c.tags

theorem Snooped.setWritable (c : CacheStore σ) (r : BlkRef) :
    c.Snooped (some r) (c.setStatus r ({ · with writable := false })) := by
  cases r with
  | frame b => exact ⟨rfl, fun _ => rfl, .refl _, nofun⟩
  | temp => exact ⟨rfl, fun h => absurd rfl h, ⟨rfl, rfl, rfl, rfl, rfl⟩, fun _ => rfl⟩

include hE hσ in
theorem snoopBlk_meets {invalidate : Bool} (hr : r = .temp → invalidate = true → E tempFault)
    (pendingInval needsExclusive : Bool) :
    Meets (fun a => c.Snooped (some r) a.1) E
      (c.snoopBlk pkt r true pendingInval invalidate needsExclusive) := by
  -- whichever way the packet was answered, the block may have to be given up
  have hlast : ∀ (c1 : CacheStore σ) (pkt : Packet) (resp : Option Packet), c.Snooped (some r) c1 →
      Meets (fun a => c.Snooped (some r) a.1) E (do
        let c ← if invalidate then c1.giveUp r else pure c1
        return (c, pkt, resp)) := by
    intro c1 pkt resp h1
    cases invalidate with
    | false => exact h1
    | true =>
      refine (giveUp_meets hσ fun h => hr h rfl).bind fun c2 hresult => ?_
      obtain ⟨hkeeps, hne⟩ := hresult
      have hne' : some r ≠ some .temp := fun h => hne (Option.some.inj h)
      have htemp := hkeeps.temp hne
      exact ⟨hkeeps.params.trans h1.params, fun h => htemp.trans (h1.other h), htemp ▸ h1.line,
        fun h => absurd h hne'⟩
  refine hE.guard rfl fun _ => ?_
  have hshare : ∀ shares : Bool, c.Snooped (some r)
      (if shares then c.setStatus r ({ · with writable := false }) else c) := by
    intro shares
    cases shares with
    | false => exact ⟨rfl, fun _ => rfl, .refl _, fun _ => rfl⟩
    | true => exact .setWritable c r
  dsimp only
  split
  · exact (respondSnoop_meets hE ..).bind fun a _ => hlast _ a.1 a.2 (hshare _)
  · exact hlast _ _ _ (hshare _)

include hE hσ in
theorem handleSnoop_meets {above : Above} {blk : Option BlkRef}
    (hr : blk = some .temp → pkt.isInvalidate = true → E tempFault) (isDeferred pendingInval : Bool) :
    Meets (fun a => c.Snooped blk a.1) E
      (c.handleSnoop above pkt blk true isDeferred pendingInval) := by
  refine hE.guard rfl fun _ => ?_
  refine hE.guard rfl fun _ => ?_
  refine hE.guard rfl fun _ => ?_
  have hforward : Meets (fun _ => True) E (forwardSnoop above pkt true) := hE.guard rfl fun _ => trivial
  refine .ite (fun _ => hforward.bind fun fwd _ => ?_) fun _ => ?_
  all_goals
    split
    · exact ⟨rfl, fun _ => rfl, .refl _, fun _ => rfl⟩
    · rename_i r hblk
      have hblk := Option.eq_some_of_filter_eq_some hblk
      subst hblk
      exact snoopBlk_meets hE hσ (fun h => hr (congrArg some h)) ..

end Snoops

end CacheStore

end Gem5
