import Gem5.Cpu.O3.MemDepSteps

/-!
# Barriers in the memory dependence unit

An instruction that a barrier blocks waits for the latest barrier when it comes in. That is
enough if barriers complete in order; but when the latest barrier is squashed, the unit
forgets the older ones.
-/

namespace Gem5

open Lib MemDepUnit Bool List

inductive MemDepEvent
  | insert (inst : MemDepInst) (readyToIssue : Bool)
  | insertNonSpec (inst : MemDepInst)
  | insertBarrier (inst : MemDepInst)
  | regsReady (inst : MemDepInst)
  | completed (inst : MemDepInst)
  | completeBarrier (inst : MemDepInst)
  | wakeDependents (inst : MemDepInst)
  | squash (squashedNum : Nat)
  deriving DecidableEq, Repr

def MemDepUnit.apply (u : MemDepUnit σ) : MemDepEvent → Chk (MemDepUnit σ)
  | .insert inst readyToIssue => return (← u.insert inst readyToIssue).1
  | .insertNonSpec inst => u.insertNonSpec inst
  | .insertBarrier inst => return u.insertBarrier inst
  | .regsReady inst => u.regsReady inst
  | .completed inst => u.completed inst
  | .completeBarrier inst => u.completeBarrier inst
  | .wakeDependents inst => u.wakeDependents inst
  | .squash squashedNum => u.squash squashedNum

structure MemDepWorld (σ : Type) where
  unit : MemDepUnit σ
  last : Nat := 0
  inserted : List MemDepInst := []
  barriers : List MemDepInst := []
  /-- What was handed to the issue queue, with the barriers that stayed in the unit. -/
  handed : List (MemDepInst × List MemDepInst) := []

namespace MemDepWorld

variable {σ : Type}

def create (predictor : MemDepPred σ) (depPred : σ) : MemDepWorld σ :=
  { unit := { predictor, depPred } }

def note (w : MemDepWorld σ) : MemDepEvent → MemDepWorld σ
  | .insert inst _ => { w with last := inst.seqNum, inserted := w.inserted ++ [inst] }
  | .insertNonSpec inst => { w with last := inst.seqNum }
  | .insertBarrier inst => { w with
      last := inst.seqNum
      barriers := if inst.isMemBarrier || inst.isWriteBarrier then w.barriers ++ [inst]
        else w.barriers }
  | .completed inst | .completeBarrier inst =>
      { w with barriers := w.barriers.filter (·.seqNum ≠ inst.seqNum) }
  | .squash squashedNum => { w with barriers := w.barriers.filter (·.seqNum ≤ squashedNum) }
  | .regsReady _ | .wakeDependents _ => w

def apply (w : MemDepWorld σ) (e : MemDepEvent) : Chk (MemDepWorld σ) := do
  let unit ← w.unit.apply e
  let w' := w.note e
  return { w' with
    unit
    handed := w.handed ++ (unit.ready.drop w.unit.ready.length).map (·, w'.barriers) }

def Admits (w : MemDepWorld σ) : MemDepEvent → Prop
  | .insert inst _ => w.last < inst.seqNum ∧ (inst.isLoad ∨ inst.isStore)
  | .insertNonSpec inst => w.last < inst.seqNum
  | .insertBarrier inst => w.last < inst.seqNum
  | .regsReady inst | .completed inst | .completeBarrier inst | .wakeDependents inst =>
      inst ∈ w.unit.instList
  | .squash _ => True

def Step (w : MemDepWorld σ) (e : MemDepEvent) (w' : MemDepWorld σ) : Prop :=
  w.Admits e ∧ w.apply e = .ok w'

/-- A barrier completes after the older ones and together with waking its dependents, a
squash removes all barriers or none, and no instruction is both a load and a store. -/
def InOrder (w : MemDepWorld σ) : MemDepEvent → Prop
  | .insert inst _ => ¬ (inst.isLoad ∧ inst.isStore)
  | .completed inst | .completeBarrier inst =>
      inst ∈ w.barriers → ∀ b ∈ w.barriers, inst.seqNum ≤ b.seqNum
  | .wakeDependents inst => inst ∉ w.barriers
  | .squash squashedNum =>
    (∀ b ∈ w.barriers, b.seqNum ≤ squashedNum) ∨ (∀ b ∈ w.barriers, squashedNum < b.seqNum)
  | .insertNonSpec _ | .insertBarrier _ | .regsReady _ => True

def Blocks (b inst : MemDepInst) : Prop :=
  inst.isLoad ∧ b.isMemBarrier ∨ inst.isStore ∧ (b.isMemBarrier ∨ b.isWriteBarrier)

/-- No load or store goes to the issue queue while an older barrier is in the unit. -/
def Respects (w : MemDepWorld σ) : Prop :=
  ∀ p ∈ w.handed, p.1 ∈ w.inserted → ∀ b ∈ p.2, b.seqNum < p.1.seqNum → ¬ Blocks b p.1

structure Inv (w : MemDepWorld σ) : Prop where
  listed : w.unit.Listed w.last
  barriers : ∀ b ∈ w.barriers, b ∈ w.unit.instList
  load : ∀ b ∈ w.barriers, b.isMemBarrier → w.unit.loadBarrier = true ∧
    ∃ B ∈ w.barriers, B.seqNum = w.unit.loadBarrierSN ∧ b.seqNum ≤ B.seqNum
  store : ∀ b ∈ w.barriers, w.unit.storeBarrier = true ∧
    ∃ B ∈ w.barriers, B.seqNum = w.unit.storeBarrierSN ∧ b.seqNum ≤ B.seqNum
  inserted : ∀ i ∈ w.inserted, (w.unit.entries i.seqNum).inst = i ∧ i.seqNum ≤ w.last
  depend : ∀ p, ∀ sn ∈ (w.unit.entries p).dependInsts, ∃ i ∈ w.inserted, i.seqNum = sn
  waits : ∀ i ∈ w.inserted, ∀ b ∈ w.barriers, b.seqNum < i.seqNum → Blocks b i →
    (w.unit.entries i.seqNum).memDepReady = false ∧
      ∀ p ∈ w.unit.memDepHash, i.seqNum ∈ (w.unit.entries p).dependInsts → ∃ B ∈ w.barriers,
        B.seqNum = p ∧ b.seqNum ≤ p
  past : ∀ p ∈ w.handed, p.1.seqNum ≤ w.last
  respects : w.Respects

theorem inv_create (predictor : MemDepPred σ) (depPred : σ) : (create predictor depPred).Inv where
  listed := ⟨.nil, nofun, fun n => by simp [create], nofun⟩
  barriers := nofun
  load := nofun
  store := nofun
  inserted := nofun
  depend := nofun
  waits := nofun
  past := nofun
  respects := nofun

section Events

variable {w : MemDepWorld σ} {unit : MemDepUnit σ} {inst : MemDepInst} {woken : List Nat}
  {hs barriers : List MemDepInst}

def after (w : MemDepWorld σ) (e : MemDepEvent) (unit : MemDepUnit σ) : MemDepWorld σ :=
  { w.note e with
    unit, handed := w.handed ++ (unit.ready.drop w.unit.ready.length).map (·, (w.note e).barriers) }

theorem respects_append {w' : MemDepWorld σ} (h : w.Respects)
    (hold : ∀ p ∈ w.handed, p.1 ∈ w'.inserted → p.1 ∈ w.inserted)
    (hhanded : w'.handed = w.handed ++ hs.map (·, barriers))
    (hnew : ∀ i ∈ hs, i ∈ w'.inserted → ∀ b ∈ barriers, b.seqNum < i.seqNum → ¬ Blocks b i) :
    w'.Respects := by
  intro p hp hin
  rw [hhanded] at hp
  rcases mem_append.mp hp with hp | hp
  · exact h p hp (hold p hp hin)
  · obtain ⟨i, hi, rfl⟩ := mem_map.mp hp
    exact hnew i hi hin

def Covers (known : Bool) (sn : Nat) (barriers : List MemDepInst) (b : MemDepInst) : Prop :=
  known = true ∧ ∃ B ∈ barriers, B.seqNum = sn ∧ b.seqNum ≤ B.seqNum

variable (h : w.Inv)
include h

theorem Inv.marks (hmarks : w.unit.Marks unit woken hs) (hlisted : unit.Listed w.last)
    (hsub : ∀ b ∈ barriers, b ∈ w.barriers)
    (hin : ∀ b ∈ w.barriers, b.seqNum ∈ unit.memDepHash ↔ b ∈ barriers)
    (hload : ∀ b ∈ barriers, b.isMemBarrier → Covers unit.loadBarrier unit.loadBarrierSN barriers b)
    (hstore : ∀ b ∈ barriers, Covers unit.storeBarrier unit.storeBarrierSN barriers b)
    (hwoken : ∀ i ∈ w.inserted, i.seqNum ∈ woken → ∀ b ∈ barriers,
      b.seqNum < i.seqNum → ¬ Blocks b i)
    (hpast : ∀ i ∈ hs, i.seqNum ≤ w.last)
    (hhanded : ∀ i ∈ hs, i ∈ w.inserted → ∀ b ∈ barriers, b.seqNum < i.seqNum → ¬ Blocks b i) :
    Inv { w with
      unit, barriers
      handed := w.handed ++ (unit.ready.drop w.unit.ready.length).map (·, barriers) } where
  listed := hlisted
  barriers b hb := by
    obtain ⟨i, hi, heq⟩ := (hlisted.hash _).mp ((hin b (hsub b hb)).mpr hb)
    have hentry := hlisted.entry i hi
    rw [heq, hmarks.inst, h.listed.entry b (h.barriers b (hsub b hb))] at hentry
    exact hentry ▸ hi
  load := hload
  store := hstore
  inserted i hi := ⟨(hmarks.inst _).trans (h.inserted i hi).1, (h.inserted i hi).2⟩
  depend p sn hsn := h.depend p sn (hmarks.dependInsts p sn hsn)
  waits i hi b hb hlt hblocks := by
    obtain ⟨hready, hdepend⟩ := h.waits i hi b (hsub b hb) hlt hblocks
    refine ⟨?_, fun p hp hsn => ?_⟩
    · rw [← not_eq_true]
      intro hready'
      rcases hmarks.memDepReady _ hready' with hready' | hin
      · simp [hready] at hready'
      · exact hwoken i hi hin b hb hlt hblocks
    · obtain ⟨B, hB, rfl, hle⟩ := hdepend p (hmarks.hash p hp) (hmarks.dependInsts p _ hsn)
      exact ⟨B, (hin B hB).mp hp, rfl, hle⟩
  past p hp := by
    rw [hmarks.ready, drop_left] at hp
    rcases mem_append.mp hp with hp | hp
    · exact h.past p hp
    · obtain ⟨i, hi, rfl⟩ := mem_map.mp hp
      exact hpast i hi
  respects := by
    refine respects_append h.respects (fun _ _ => id) ?_ hhanded
    rw [hmarks.ready, drop_left]

theorem Inv.mem_hash (hb : b ∈ w.barriers) : b.seqNum ∈ w.unit.memDepHash :=
  (h.listed.hash _).mpr ⟨b, h.barriers b hb, rfl⟩

theorem Inv.handed_of_depend
    (hhanded : ∀ i ∈ hs, ∃ j ∈ (w.unit.entries p).dependInsts, i = (w.unit.entries j).inst)
    (hi : i ∈ hs) :
    i ∈ w.inserted ∧ i.seqNum ∈ (w.unit.entries p).dependInsts := by
  obtain ⟨j, hj, rfl⟩ := hhanded i hi
  obtain ⟨i', hi', rfl⟩ := h.depend p j hj
  rw [(h.inserted i' hi').1]
  exact ⟨hi', hj⟩

section

variable (hadmits : inst ∈ w.unit.instList)
include hadmits

theorem Inv.regsReady (happly : w.unit.regsReady inst = .ok unit) :
    (w.after (.regsReady inst) unit).Inv := by
  obtain ⟨hs, hmarks, hkeeps, hhanded⟩ := regsReady_marks happly
  have hinst : ∀ i ∈ hs, i = inst := fun i hi => (hhanded i hi).1.trans (h.listed.entry inst hadmits)
  refine h.marks hmarks (h.listed.of_keeps hkeeps hmarks.inst) (fun _ => id)
    (fun b hb => ?_) ?_ ?_ nofun ?_ ?_
  · rw [hkeeps.memDepHash]
    exact iff_of_true (h.mem_hash hb) hb
  · rw [hkeeps.loadBarrier, hkeeps.loadBarrierSN]
    exact h.load
  · rw [hkeeps.storeBarrier, hkeeps.storeBarrierSN]
    exact h.store
  · intro i hi
    rw [hinst i hi]
    exact (h.listed.bound inst hadmits).2
  · intro i hi hin b hb hlt hblocks
    have hready := (hhanded i hi).2
    rw [← hinst i hi, (h.waits i hin b hb hlt hblocks).1] at hready
    exact absurd hready false_ne_true

theorem Inv.wakeDependents (hbarrier : inst ∉ w.barriers)
    (happly : w.unit.wakeDependents inst = .ok unit) :
    (w.after (.wakeDependents inst) unit).Inv := by
  obtain ⟨hs, hmarks, hkeeps, hhanded⟩ := wakeDependents_marks happly
  have hhash : inst.seqNum ∈ w.unit.memDepHash := (h.listed.hash _).mpr ⟨inst, hadmits, rfl⟩
  have hfree : ∀ i ∈ w.inserted, i.seqNum ∈ (w.unit.entries inst.seqNum).dependInsts →
      ∀ b ∈ w.barriers, b.seqNum < i.seqNum → ¬ Blocks b i := by
    intro i hi hsn b hb hlt hblocks
    obtain ⟨B, hB, hseq, -⟩ := (h.waits i hi b hb hlt hblocks).2 _ hhash hsn
    exact hbarrier (h.listed.inj (h.barriers B hB) hadmits hseq ▸ hB)
  refine h.marks hmarks (h.listed.of_keeps hkeeps hmarks.inst) (fun _ => id)
    (fun b hb => ?_) ?_ ?_ hfree ?_ ?_
  · rw [hkeeps.memDepHash]
    exact iff_of_true (h.mem_hash hb) hb
  · rw [hkeeps.loadBarrier, hkeeps.loadBarrierSN]
    exact h.load
  · rw [hkeeps.storeBarrier, hkeeps.storeBarrierSN]
    exact h.store
  · exact fun i hi => (h.inserted i (h.handed_of_depend hhanded hi).1).2
  · exact fun i hi hin => hfree i hin (h.handed_of_depend hhanded hi).2

variable (horder : inst ∈ w.barriers → ∀ b ∈ w.barriers, inst.seqNum ≤ b.seqNum)
include horder

theorem Inv.stays
    (hb : b ∈ w.barriers.filter (·.seqNum ≠ inst.seqNum)) (hB : B ∈ w.barriers)
    (hle : b.seqNum ≤ B.seqNum) :
    B.seqNum ≠ inst.seqNum := by
  intro hseq
  obtain ⟨hb, hne⟩ := mem_filter.mp hb
  have hbarrier : inst ∈ w.barriers := h.listed.inj (h.barriers B hB) hadmits hseq ▸ hB
  have hge := horder hbarrier b hb
  exact of_decide_eq_true hne (le_antisymm (hseq ▸ hle) hge)

theorem Inv.stays_covered
    (hb : b ∈ w.barriers.filter (·.seqNum ≠ inst.seqNum)) (hc : Covers known sn w.barriers b) :
    sn ≠ inst.seqNum ∧ Covers known sn (w.barriers.filter (·.seqNum ≠ inst.seqNum)) b := by
  obtain ⟨hknown, B, hB, hseq, hle⟩ := hc
  have hne := h.stays hadmits horder hb hB hle
  exact ⟨hseq ▸ hne, hknown, B, mem_filter.mpr ⟨hB, decide_eq_true hne⟩, hseq, hle⟩

theorem Inv.completed (happly : w.unit.completed inst = .ok unit) :
    (w.after (.completed inst) unit).Inv := by
  obtain ⟨hhash, rfl⟩ := completed_eq happly
  have hmarks : w.unit.Marks { w.unit with
      instList := w.unit.instList.filter (·.seqNum ≠ inst.seqNum)
      memDepHash := w.unit.memDepHash.filter (· ≠ inst.seqNum) } [] [] :=
    .of_entries rfl (fun _ => mem_of_mem_filter) (by simp)
  refine h.marks hmarks (h.listed.filter (P := (· ≠ inst.seqNum)) rfl (by simp) fun _ => rfl)
    (fun _ => mem_of_mem_filter) (fun b hb => ?_) (fun b hb hmem => ?_)
      (fun b hb => ?_) nofun nofun nofun
  · simp [note, h.mem_hash hb, hb]
  · exact (h.stays_covered hadmits horder hb (h.load b (mem_of_mem_filter hb) hmem)).2
  · exact (h.stays_covered hadmits horder hb (h.store b (mem_of_mem_filter hb))).2

theorem Inv.completeBarrier (happly : w.unit.completeBarrier inst = .ok unit) :
    (w.after (.completeBarrier inst) unit).Inv := by
  obtain ⟨hs, hmarks, hhanded, hlist, hhash, hloadSN, hstoreSN, hload, hstore⟩ :=
    completeBarrier_marks happly
  have hin : inst.seqNum ∈ w.unit.memDepHash := (h.listed.hash _).mpr ⟨inst, hadmits, rfl⟩
  have hfree : ∀ i ∈ w.inserted, i.seqNum ∈ (w.unit.entries inst.seqNum).dependInsts →
      ∀ b ∈ w.barriers.filter (·.seqNum ≠ inst.seqNum), b.seqNum < i.seqNum → ¬ Blocks b i := by
    intro i hi hsn b hb hlt hblocks
    obtain ⟨B, hB, hseq, hle⟩ := (h.waits i hi b (mem_of_mem_filter hb) hlt hblocks).2 _ hin hsn
    exact h.stays hadmits horder hb hB (hseq ▸ hle) hseq
  have hlisted : unit.Listed w.last :=
    h.listed.filter (P := (· ≠ inst.seqNum)) hlist (by simp [hhash]) hmarks.inst
  refine h.marks hmarks hlisted (fun _ => mem_of_mem_filter) (fun b hb => ?_) (fun b hb hmem => ?_)
    (fun b hb => ?_) hfree ?_ ?_
  · simp [note, hhash, h.mem_hash hb, hb]
  · obtain ⟨hne, hcovers⟩ := h.stays_covered hadmits horder hb (h.load b (mem_of_mem_filter hb) hmem)
    rwa [hload hne, hloadSN]
  · obtain ⟨hne, hcovers⟩ := h.stays_covered hadmits horder hb (h.store b (mem_of_mem_filter hb))
    rwa [hstore hne, hstoreSN]
  · exact fun i hi => (h.inserted i (h.handed_of_depend hhanded hi).1).2
  · exact fun i hi hin => hfree i hin (h.handed_of_depend hhanded hi).2

end

theorem Inv.squash (horder : (∀ b ∈ w.barriers, b.seqNum ≤ n) ∨ (∀ b ∈ w.barriers, n < b.seqNum))
    (happly : w.unit.squash n = .ok unit) :
    (w.after (.squash n) unit).Inv := by
  obtain ⟨hsq, hlisted⟩ := squash_spec h.listed happly
  -- barriers that stay are all the barriers there were
  have hkept : ∀ {b known sn}, b ∈ w.barriers.filter (·.seqNum ≤ n) → Covers known sn w.barriers b →
      sn ≤ n ∧ Covers known sn (w.barriers.filter (·.seqNum ≤ n)) b := by
    rintro b known _ hb ⟨hknown, B, hB, rfl, hle⟩
    obtain ⟨hb, hle'⟩ := mem_filter.mp hb
    rcases horder with hnone | hevery
    · exact ⟨hnone B hB, hknown, B, mem_filter.mpr ⟨hB, decide_eq_true (hnone B hB)⟩, rfl, hle⟩
    · exact absurd (of_decide_eq_true hle') (not_le.mpr (hevery b hb))
  refine h.marks hsq.marks hlisted (fun _ => mem_of_mem_filter) (fun b hb => ?_) (fun b hb hmem => ?_)
    (fun b hb => ?_) nofun nofun nofun
  · simp [note, hsq.hash, h.mem_hash hb, hb]
  · obtain ⟨hle, hcovers⟩ := hkept hb (h.load b (mem_of_mem_filter hb) hmem)
    rwa [hsq.loadBarrier hle, hsq.loadBarrierSN]
  · obtain ⟨hle, hcovers⟩ := hkept hb (h.store b (mem_of_mem_filter hb))
    rwa [hsq.storeBarrier hle, hsq.storeBarrierSN]

section

variable (hlast : w.last < inst.seqNum)
include hlast

theorem Inv.add {waits : Option Nat} {inserted : List MemDepInst}
    (hadds : w.unit.Adds unit inst waits hs)
    (hinserted : inserted = w.inserted ∧ waits = none ∧ hs = [] ∨ inserted = w.inserted ++ [inst])
    (hbarriers : barriers = w.barriers ∨ barriers = w.barriers ++ [inst])
    (hload : ∀ b ∈ barriers, b.isMemBarrier → Covers unit.loadBarrier unit.loadBarrierSN barriers b)
    (hstore : ∀ b ∈ barriers, Covers unit.storeBarrier unit.storeBarrierSN barriers b)
    (hwaits : inserted = w.inserted ++ [inst] → ∀ b ∈ w.barriers, Blocks b inst →
      ∃ B ∈ w.barriers, waits = some B.seqNum ∧ b.seqNum ≤ B.seqNum) :
    Inv { w with
      unit, barriers, inserted
      last := inst.seqNum
      handed := w.handed ++ (unit.ready.drop w.unit.ready.length).map (·, barriers) } := by
  have hsub : ∀ b ∈ barriers, b ∈ w.barriers ∨ b = inst := by
    rcases hbarriers with rfl | rfl
    · exact fun _ => .inl
    · simp
  have hsup : ∀ b ∈ w.barriers, b ∈ barriers := by
    rcases hbarriers with rfl | rfl
    · exact fun _ => id
    · simp +contextual
  have hmem : ∀ i ∈ inserted, i ∈ w.inserted ∨ i = inst ∧ inserted = w.inserted ++ [inst] := by
    rcases hinserted with ⟨rfl, -⟩ | rfl
    · exact fun _ => .inl
    · simp
  have hless : ∀ i ∈ w.inserted, i.seqNum ≠ inst.seqNum :=
    fun i hi => ((h.inserted i hi).2.trans_lt hlast).ne
  have hready : unit.ready.drop w.unit.ready.length = hs := by rw [hadds.ready, drop_left]
  constructor
  · exact h.listed.add hlast hadds.instList hadds.memDepHash hadds.insts
  · intro b hb
    rw [hadds.instList]
    rcases hsub b hb with hb | rfl
    · exact mem_append_left _ (h.barriers b hb)
    · simp
  · exact hload
  · exact hstore
  · intro i hi
    rw [hadds.insts]
    rcases hmem i hi with hi | ⟨rfl, -⟩
    · rw [if_neg (hless i hi)]
      exact ⟨(h.inserted i hi).1, ((h.inserted i hi).2.trans_lt hlast).le⟩
    · exact ⟨if_pos rfl, le_rfl⟩
  · intro p sn hsn
    rcases hadds.dependInsts p sn hsn with ⟨-, hsn⟩ | ⟨rfl, hsome⟩
    · obtain ⟨i, hi, hseq⟩ := h.depend p sn hsn
      rcases hinserted with ⟨rfl, -⟩ | rfl
      · exact ⟨i, hi, hseq⟩
      · exact ⟨i, mem_append_left _ hi, hseq⟩
    · rcases hinserted with ⟨-, hnone, -⟩ | rfl
      · simp [hnone] at hsome
      · exact ⟨inst, by simp, rfl⟩
  · intro i hi b hb hlt hblocks
    rcases hmem i hi with hi | ⟨rfl, happend⟩
    · -- the new instruction is younger than all that were there
      have hne : b ≠ inst := fun heq => absurd ((h.inserted i hi).2.trans_lt hlast) (heq ▸ hlt).not_gt
      have hb : b ∈ w.barriers := (hsub b hb).resolve_right hne
      obtain ⟨hfree, hdepend⟩ := h.waits i hi b hb hlt hblocks
      refine ⟨(hadds.memDepReady _ (hless i hi)).trans hfree, fun p hp hsn => ?_⟩
      rcases hadds.dependInsts p _ hsn with ⟨hne, hsn⟩ | ⟨heq, -⟩
      · rw [hadds.memDepHash] at hp
        obtain ⟨B, hB, hseq, hle⟩ := hdepend p ((mem_cons.mp hp).resolve_left hne) hsn
        exact ⟨B, hsup B hB, hseq, hle⟩
      · exact absurd heq (hless i hi)
    · have hb : b ∈ w.barriers := (hsub b hb).resolve_right (by rintro rfl; exact lt_irrefl _ hlt)
      obtain ⟨B, hB, hsome, hle⟩ := hwaits happend b hb hblocks
      refine ⟨?_, fun p hp hsn => ?_⟩
      · rw [← not_eq_true]
        intro hready
        simp [hadds.free hready] at hsome
      · rcases hadds.dependInsts p _ hsn with ⟨-, hsn⟩ | ⟨-, hsome'⟩
        · obtain ⟨i', hi', hseq⟩ := h.depend p _ hsn
          exact absurd hseq (hless i' hi')
        · cases hsome.symm.trans hsome'
          exact ⟨B, hsup B hB, rfl, hle⟩
  · intro p hp
    rw [hready] at hp
    rcases mem_append.mp hp with hp | hp
    · exact ((h.past p hp).trans_lt hlast).le
    · obtain ⟨i, hi, rfl⟩ := mem_map.mp hp
      rw [(hadds.handed i hi).1]
  · refine respects_append h.respects (fun p hp hin => ?_) (by rw [hready])
      fun i hi hin b hb hlt hblocks => ?_
    · refine (hmem p.1 hin).resolve_right ?_
      rintro ⟨heq, -⟩
      exact absurd (h.past p hp) (by rw [heq]; exact not_le.mpr hlast)
    · obtain ⟨rfl, hnone⟩ := hadds.handed i hi
      have happend : inserted = w.inserted ++ [i] := by
        rcases hinserted with ⟨-, -, rfl⟩ | happend
        · simp at hi
        · exact happend
      have hb : b ∈ w.barriers := (hsub b hb).resolve_right (by rintro rfl; exact lt_irrefl _ hlt)
      obtain ⟨B, -, hsome, -⟩ := hwaits happend b hb hblocks
      simp [hnone] at hsome

theorem Inv.insert (hone : ¬ (inst.isLoad ∧ inst.isStore))
    (happly : w.unit.insert inst readyToIssue = .ok (unit, canIssue)) :
    (w.after (.insert inst readyToIssue) unit).Inv := by
  obtain ⟨store, waits, hs, hstore, hadds, hwaits, hload, hloadSN, hstoreB, hstoreSN⟩ :=
    insert_adds happly
  have hblocked : ∀ b ∈ w.barriers, Blocks b inst → ∃ B ∈ w.barriers, B.seqNum = store ∧
      b.seqNum ≤ B.seqNum := by
    intro b hb hblocks
    unfold producingStore at hstore
    rcases hblocks with ⟨hisLoad, hmem⟩ | ⟨hisStore, -⟩
    · obtain ⟨hflag, B, hB, hseq, hle⟩ := h.load b hb hmem
      simp only [hisLoad, hflag, Bool.and_self, if_true] at hstore
      exact ⟨B, hB, hseq.trans (pure_eq_ok.mp hstore), hle⟩
    · obtain ⟨hflag, B, hB, hseq, hle⟩ := h.store b hb
      have hnot : inst.isLoad = false := by
        rw [← Bool.not_eq_true]
        exact fun hisLoad => hone ⟨hisLoad, hisStore⟩
      simp only [hnot, hisStore, hflag, Bool.false_and, Bool.and_self, Bool.false_eq_true, if_false,
        if_true] at hstore
      exact ⟨B, hB, hseq.trans (pure_eq_ok.mp hstore), hle⟩
  refine h.add hlast hadds (.inr rfl) (.inl rfl) ?_ ?_ fun _ b hb hblocks => ?_
  · rw [hload, hloadSN]
    exact h.load
  · rw [hstoreB, hstoreSN]
    exact h.store
  · obtain ⟨B, hB, rfl, hle⟩ := hblocked b hb hblocks
    have hpos := (h.listed.bound B (h.barriers B hB)).1
    exact ⟨B, hB, hwaits ⟨hpos.ne', mem_cons_of_mem _ (h.mem_hash hB)⟩, hle⟩

theorem Inv.insertNonSpec (happly : w.unit.insertNonSpec inst = .ok unit) :
    (w.after (.insertNonSpec inst) unit).Inv := by
  obtain ⟨depPred, rfl⟩ := notePred_eq happly
  have hadds := MemDepUnit.Adds.addInst w.unit inst
  have hnone : w.inserted ≠ w.inserted ++ [inst] := by simp
  exact h.add hlast { hadds with } (.inl ⟨rfl, rfl, rfl⟩) (.inl rfl) h.load h.store
    fun heq => absurd heq hnone

theorem Inv.insertBarrier : (w.after (.insertBarrier inst) (w.unit.insertBarrier inst)).Inv := by
  have hnone : w.inserted ≠ w.inserted ++ [inst] := by simp
  have hold : ∀ b ∈ w.barriers, b.seqNum ≤ inst.seqNum := fun b hb =>
    ((h.listed.bound b (h.barriers b hb)).2.trans_lt hlast).le
  have hle : ∀ b ∈ w.barriers ++ [inst], b.seqNum ≤ inst.seqNum := by
    intro b hb
    rcases mem_append.mp hb with hb | hb
    · exact hold b hb
    · rw [mem_singleton.mp hb]
  have hself : inst ∈ w.barriers ++ [inst] := by simp
  have hadds := MemDepUnit.Adds.addInst w.unit inst
  have hinserted : w.inserted = w.inserted ∧ (none : Option Nat) = none ∧
    ([] : List MemDepInst) = [] := ⟨rfl, rfl, rfl⟩
  cases hmem : inst.isMemBarrier with
  | true =>
    simp only [after, note, MemDepUnit.insertBarrier, hmem, Bool.true_or, if_true]
    exact h.add hlast { hadds with } (.inl hinserted) (.inr rfl)
      (fun b hb _ => ⟨rfl, inst, hself, rfl, hle b hb⟩)
      (fun b hb => ⟨rfl, inst, hself, rfl, hle b hb⟩) fun heq => absurd heq hnone
  | false =>
    cases hwrite : inst.isWriteBarrier with
    | true =>
      simp only [after, note, MemDepUnit.insertBarrier, hmem, hwrite, Bool.or_true,
        Bool.false_eq_true, if_true, if_false]
      refine h.add hlast { hadds with } (.inl hinserted) (.inr rfl) (fun b hb hb' => ?_)
        (fun b hb => ⟨rfl, inst, hself, rfl, hle b hb⟩) fun heq => absurd heq hnone
      rcases mem_append.mp hb with hb | hb
      · obtain ⟨hflag, B, hB, hseq⟩ := h.load b hb hb'
        exact ⟨hflag, B, mem_append_left _ hB, hseq⟩
      · rw [mem_singleton.mp hb, hmem] at hb'
        exact absurd hb' Bool.false_ne_true
    | false =>
      simp only [after, note, MemDepUnit.insertBarrier, hmem, hwrite, Bool.or_self,
        Bool.false_eq_true, if_false]
      exact h.add hlast hadds (.inl hinserted) (.inl rfl) h.load h.store fun heq => absurd heq hnone

end

theorem step_inv (hstep : Step w e w') (horder : w.InOrder e) : w'.Inv := by
  obtain ⟨hadmits, happly⟩ := hstep
  obtain ⟨unit, hunit, hret⟩ := bind_eq_ok.mp happly
  cases hret
  cases e with
  | insert inst readyToIssue =>
    obtain ⟨⟨unit, canIssue⟩, hinsert, hret⟩ := bind_eq_ok.mp hunit
    cases hret
    exact h.insert hadmits.1 horder hinsert
  | insertNonSpec inst => exact h.insertNonSpec hadmits hunit
  | insertBarrier inst =>
    cases hunit
    exact h.insertBarrier hadmits
  | regsReady inst => exact h.regsReady hadmits hunit
  | completed inst => exact h.completed hadmits horder hunit
  | completeBarrier inst => exact h.completeBarrier hadmits horder hunit
  | wakeDependents inst => exact h.wakeDependents hadmits horder hunit
  | squash squashedNum => exact h.squash horder hunit

end Events

/-- As long as barriers complete in order and a squash removes all of them or none, no load
or store overtakes a barrier, whatever the predictor says. -/
theorem run_respects {predictor : MemDepPred σ} {depPred : σ} {es : List MemDepEvent}
    {w : MemDepWorld σ} (h : Runs (fun w e w' => Step w e w' ∧ w.InOrder e)
      (create predictor depPred) es w) : w.Respects :=
  (h.invariant (inv_create predictor depPred) fun _ _ _ hw hs => step_inv hw hs.1 hs.2).respects

instance (w : MemDepWorld σ) (e : MemDepEvent) : Decidable (w.Admits e) := by
  rcases e <;> unfold Admits <;> infer_instance

instance (w : MemDepWorld σ) (e : MemDepEvent) : Decidable (w.InOrder e) := by
  rcases e <;> unfold InOrder <;> infer_instance

def noPrediction : MemDepPred Unit :=
  ⟨fun _ _ => .ok 0, fun _ _ _ => .ok (), fun _ _ => .ok (), fun _ _ _ _ => .ok ()⟩

/-- Two memory barriers are in the unit and the second one is squashed: a load that comes
next is handed over at once, with the first barrier still in the unit. -/
theorem load_overtakes_barrier :
    ∃ w, Runs Step (create noPrediction ())
      [.insertBarrier { seqNum := 1, isMemBarrier := true },
        .insertBarrier { seqNum := 2, isMemBarrier := true },
        .squash 1, .insert { seqNum := 3, isLoad := true } true] w ∧
      w.handed = [({ seqNum := 3, isLoad := true }, [{ seqNum := 1, isMemBarrier := true }])] :=
  runs_of_play Admits apply (by decide +kernel)

theorem run_respects_two_barriers :
    ∃ w, Runs (fun w e w' => Step w e w' ∧ w.InOrder e) (create noPrediction ())
      [.insertBarrier { seqNum := 1, isMemBarrier := true },
        .insertBarrier { seqNum := 2, isMemBarrier := true },
        .insert { seqNum := 3, isLoad := true } true,
        .completeBarrier { seqNum := 1, isMemBarrier := true },
        .completeBarrier { seqNum := 2, isMemBarrier := true }] w ∧
      w.handed = [({ seqNum := 3, isLoad := true }, [])] ∧ w.Respects :=
  runs_of_play_under Admits apply InOrder (by decide +kernel) fun _ => run_respects

end MemDepWorld

end Gem5
