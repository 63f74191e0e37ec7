import Gem5.Cpu.O3.MemDepSteps

/-!
# When the memory dependence unit hands an instruction over

An instruction is handed to the issue queue once, when its registers are ready and nothing in
the unit holds it back.
-/

namespace Gem5

open Lib List MemDepUnit

namespace MemDepUnit

variable {σ : Type} {u u' : MemDepUnit σ} {inst : MemDepInst}

def Free (u : MemDepUnit σ) (sn : Nat) : Prop :=
  ∀ j, sn ∉ (u.entries j).dependInsts

/-- What the unit's users know of an instruction: it came in, it is a memory instruction that
may still go, its registers are ready, it was handed over, it is complete. -/
structure Clients where
  known : Nat → Prop
  active : Nat → Prop
  regs : Nat → Prop
  given : Nat → Prop
  done : Nat → Prop

/-- The unit has handed over the active instructions that are ready, and no others. -/
structure Hands (u : MemDepUnit σ) (c : Clients) : Prop where
  nodup : ∀ j, (u.entries j).dependInsts.Nodup
  apart : ∀ i j, ∀ sn ∈ (u.entries i).dependInsts, sn ∈ (u.entries j).dependInsts → i = j
  held : ∀ j, ∀ sn ∈ (u.entries j).dependInsts, c.known sn ∧
    (c.active sn ∨ (u.entries sn).squashed = true)
  fresh : ∀ j, ¬ c.known j → (u.entries j).dependInsts = []
  hash : ∀ sn ∈ u.memDepHash, c.known sn
  inst : ∀ sn, c.active sn ∨ sn ∈ u.memDepHash → (u.entries sn).inst.seqNum = sn
  regs : ∀ sn, c.active sn → ((u.entries sn).regsReady = true ↔ c.regs sn)
  squashed : ∀ sn, c.active sn → (u.entries sn).squashed = false
  given : ∀ sn, c.active sn → (c.given sn ↔ c.regs sn ∧ u.Free sn)
  memDepReady : ∀ sn, c.active sn → ¬ c.given sn → ((u.entries sn).memDepReady = true ↔ u.Free sn)
  done : ∀ sn, c.active sn → c.done sn → c.given sn
  listed : ∀ sn, c.active sn → ¬ c.done sn → ∃ i ∈ u.instList, i.seqNum = sn
  sorted : u.instList.Pairwise (·.seqNum < ·.seqNum)
  bound : ∀ i ∈ u.instList, c.known i.seqNum

structure Handed (c : Clients) (sns : List Nat) : Prop where
  nodup : sns.Nodup
  new : ∀ sn ∈ sns, c.active sn ∧ ¬ c.given sn ∧ c.regs sn

namespace Hands

variable {c c' : Clients}

theorem of_entries (h : u.Hands c) (hentries : u'.entries = u.entries)
    (hhash : ∀ n ∈ u'.memDepHash, n ∈ u.memDepHash)
    (hlist : u'.instList = u.instList) : u'.Hands c where
  nodup := hentries ▸ h.nodup
  apart := hentries ▸ h.apart
  held := hentries ▸ h.held
  fresh := hentries ▸ h.fresh
  hash n hn := h.hash n (hhash n hn)
  inst n hn := hentries ▸ h.inst n (hn.imp_right (hhash n))
  regs := hentries ▸ h.regs
  squashed := hentries ▸ h.squashed
  given n hn := by simpa only [Free, hentries] using h.given n hn
  memDepReady n hn := by simpa only [Free, hentries] using h.memDepReady n hn
  done := h.done
  listed := hlist ▸ h.listed
  sorted := hlist ▸ h.sorted
  bound := hlist ▸ h.bound

theorem congr (h : u.Hands c) (hknown : ∀ n, c'.known n ↔ c.known n)
    (hactive : ∀ n, c'.active n ↔ c.active n) (hregs : ∀ n, c.active n → (c'.regs n ↔ c.regs n))
    (hgiven : ∀ n, c.active n → (c'.given n ↔ c.given n))
    (hdone : ∀ n, c.active n → (c'.done n ↔ c.done n)) : u.Hands c' where
  nodup := h.nodup
  apart := h.apart
  held j n hn := by simpa only [hknown, hactive] using h.held j n hn
  fresh j hj := h.fresh j (mt (hknown j).mpr hj)
  hash n hn := (hknown n).mpr (h.hash n hn)
  inst n hn := h.inst n (hn.imp_left (hactive n).mp)
  regs n hn := (h.regs n ((hactive n).mp hn)).trans (hregs n ((hactive n).mp hn)).symm
  squashed n hn := h.squashed n ((hactive n).mp hn)
  given n hn := by
    have hn := (hactive n).mp hn
    rw [hgiven n hn, hregs n hn]
    exact h.given n hn
  memDepReady n hn hng := by
    have hn := (hactive n).mp hn
    exact h.memDepReady n hn (mt (hgiven n hn).mpr hng)
  done n hn hd := by
    have hn := (hactive n).mp hn
    exact (hgiven n hn).mpr (h.done n hn ((hdone n hn).mp hd))
  listed n hn hd := by
    have hn := (hactive n).mp hn
    exact h.listed n hn (mt (hdone n hn).mpr hd)
  sorted := h.sorted
  bound i hi := (hknown _).mpr (h.bound i hi)

theorem retire (h : u.Hands c) (active : Nat → Prop) (hsub : ∀ n, active n → c.active n)
    (hgiven : ∀ n, c.active n → ¬ active n → c.given n) : u.Hands { c with active } where
  nodup := h.nodup
  apart := h.apart
  held j n hn := by
    refine ⟨(h.held j n hn).1, (h.held j n hn).2.imp_left fun ha => ?_⟩
    by_contra hnot
    exact ((h.given n ha).mp (hgiven n ha hnot)).2 j hn
  fresh := h.fresh
  hash := h.hash
  inst n hn := h.inst n (hn.imp_left (hsub n))
  regs n hn := h.regs n (hsub n hn)
  squashed n hn := h.squashed n (hsub n hn)
  given n hn := h.given n (hsub n hn)
  memDepReady n hn := h.memDepReady n (hsub n hn)
  done n hn := h.done n (hsub n hn)
  listed n hn := h.listed n (hsub n hn)
  sorted := h.sorted
  bound := h.bound

end Hands

def Clients.give (c : Clients) (sns : List Nat) : Clients :=
  { c with given := fun n => c.given n ∨ n ∈ sns }

theorem Handed.nil (c : Clients) : Handed c [] := ⟨nodup_nil, nofun⟩

theorem Handed.single (hactive : c.active sn) (hgiven : ¬ c.given sn) (hregs : c.regs sn) :
    Handed c [sn] :=
  ⟨nodup_singleton sn, fun n hn => by rw [mem_singleton.mp hn]; exact ⟨hactive, hgiven, hregs⟩⟩

section Marks

variable {c : Clients} {sn : Nat}

structure Remarks (u u' : MemDepUnit σ) : Prop where
  inst : ∀ j, (u'.entries j).inst = (u.entries j).inst
  squashed : ∀ j, (u'.entries j).squashed = (u.entries j).squashed
  dependInsts : ∀ j, (u'.entries j).dependInsts = (u.entries j).dependInsts ∨
    (u'.entries j).dependInsts = []
  hash : ∀ n ∈ u'.memDepHash, n ∈ u.memDepHash
  list : u'.instList.Sublist u.instList

theorem Remarks.mem (hr : Remarks u u') (hsn : sn ∈ (u'.entries j).dependInsts) :
    sn ∈ (u.entries j).dependInsts := by
  rcases hr.dependInsts j with heq | hnil
  · exact heq ▸ hsn
  · simp [hnil] at hsn

theorem Hands.remark (h : u.Hands c) (hr : Remarks u u') {regs given done : Nat → Prop}
    (hregs : ∀ n, c.active n → ((u'.entries n).regsReady = true ↔ regs n))
    (hgiven : ∀ n, c.active n → (given n ↔ regs n ∧ u'.Free n))
    (hmem : ∀ n, c.active n → ¬ given n → ((u'.entries n).memDepReady = true ↔ u'.Free n))
    (hdone : ∀ n, c.active n → done n → given n)
    (hlisted : ∀ n, c.active n → ¬ done n → ∃ i ∈ u'.instList, i.seqNum = n) :
    u'.Hands { c with regs, given, done } where
  nodup j := (hr.dependInsts j).elim (fun heq => heq ▸ h.nodup j) fun hnil => hnil ▸ nodup_nil
  apart i j n hi hj := h.apart i j n (hr.mem hi) (hr.mem hj)
  held j n hn := by rw [hr.squashed]; exact h.held j n (hr.mem hn)
  fresh j hj := (hr.dependInsts j).elim (fun heq => heq.trans (h.fresh j hj)) id
  hash n hn := h.hash n (hr.hash n hn)
  inst n hn := (congrArg _ (hr.inst n)).trans (h.inst n (hn.imp_right (hr.hash n)))
  regs := hregs
  squashed n hn := (hr.squashed n).trans (h.squashed n hn)
  given := hgiven
  memDepReady := hmem
  done := hdone
  listed := hlisted
  sorted := h.sorted.sublist hr.list
  bound i hi := h.bound i (hr.list.subset hi)

def Clients.ready (c : Clients) (sn : Nat) : Clients :=
  { c with regs := fun n => c.regs n ∨ n = sn }

theorem regsReady_hands (h : u.Hands c) (hsn : inst.seqNum = sn) (hactive : c.active sn)
    (hregs : ¬ c.regs sn) (hok : u.regsReady inst = .ok u') (hready : u.ready = []) :
    ∃ sns, u'.ready.map (·.seqNum) = sns ∧ Handed (c.ready sn) sns ∧
      u'.Hands ((c.ready sn).give sns) := by
  replace hok := of_guard hok
  rw [hsn] at hok
  dsimp only at hok
  have hgiven : ¬ c.given sn := fun hg => hregs ((h.given sn hactive).mp hg).1
  set u1 := u.setEntry sn { u.entries sn with regsReady := true }
  have hempty : u1.ready = [] := hready
  have hentry : ∀ j, (u1.entries j).inst = (u.entries j).inst ∧
    (u1.entries j).squashed = (u.entries j).squashed ∧
      (u1.entries j).dependInsts = (u.entries j).dependInsts ∧
      (u1.entries j).memDepReady = (u.entries j).memDepReady ∧
      ((u1.entries j).regsReady = true ↔ (u.entries j).regsReady = true ∨ j = sn) := by
    intro j
    rw [show u1.entries j = _ from Function.update_apply ..]
    split
    · subst j; simp
    · simp [*]
  have hr : Remarks u u1 :=
    ⟨fun j => (hentry j).1, fun j => (hentry j).2.1, fun j => .inl (hentry j).2.2.1,
      fun _ => id, .refl _⟩
  have hfree : ∀ n, u1.Free n ↔ u.Free n := fun n => by simp [Free, hentry]
  -- What is handed over is the instruction itself, if the unit does not hold it back.
  have hall : ∀ sns : List Nat, (∀ n, n ∈ sns ↔ n = sn ∧ u.Free sn) →
      u1.Hands ((c.ready sn).give sns) := by
    intro sns hsns
    refine h.remark hr (fun n hn => ?_) (fun n hn => ?_) (fun n hn hng => ?_)
      (fun n hn hd => .inl (h.done n hn hd)) h.listed
    · rw [(hentry n).2.2.2.2, h.regs n hn]
      exact Iff.rfl
    · simp only [Clients.ready, hsns, h.given n hn, hfree]
      by_cases hnsn : n = sn
      · subst n; simp [hregs]
      · simp [hnsn]
    · rw [(hentry n).2.2.2.1, hfree]
      exact h.memDepReady n hn fun hg => hng (.inl hg)
  have hmd : (u1.entries sn).memDepReady = true ↔ u.Free sn := by
    rw [(hentry sn).2.2.2.1]; exact h.memDepReady sn hactive hgiven
  split at hok
  · rename_i hyes
    cases moveToReady_eq hok
    have hseq : (u1.entries sn).inst.seqNum = sn :=
      (congrArg _ (hentry sn).1).trans (h.inst sn (.inl hactive))
    refine ⟨[sn], by simp [hempty, hseq], .single hactive hgiven (.inr rfl), ?_⟩
    refine (hall [sn] fun n => ?_).of_entries rfl (fun _ => id) rfl
    simp [hmd.mp hyes]
  · rename_i hno
    rw [← pure_eq_ok.mp hok]
    refine ⟨[], by simp [hempty], .nil _, hall [] fun n => ?_⟩
    simp [mt hmd.mpr hno]

end Marks

section Wake

variable {c : Clients} {sn : Nat}

def Goes (u : MemDepUnit σ) (sn : Nat) : Bool :=
  (u.entries sn).regsReady && !(u.entries sn).squashed

theorem foldlM_wake_eq {woken : List Nat} (hnodup : woken.Nodup) (h : woken.foldlM wake u = .ok u') :
    u'.entries = (fun j => if j ∈ woken ∧ u.Goes j = false then
      { u.entries j with memDepReady := true }
      else u.entries j) ∧
    u'.ready = u.ready ++ (woken.filter u.Goes).map (fun j => (u.entries j).inst) ∧ Keeps u u' := by
  induction woken generalizing u with
  | nil =>
    cases h
    exact ⟨by simp, by simp, .refl _⟩
  | cons sn woken ih =>
    rw [nodup_cons] at hnodup
    rw [foldlM_cons] at h
    obtain ⟨u1, hwake, h⟩ := bind_eq_ok.mp h
    obtain ⟨hentries, hready, hkeeps⟩ := ih hnodup.2 h
    unfold wake at hwake
    dsimp only at hwake
    split at hwake
    · rename_i hgoes
      have hgoes : u.Goes sn = true := hgoes
      cases moveToReady_eq hwake
      refine ⟨?_, ?_, { hkeeps with }⟩
      · rw [hentries]
        funext j
        by_cases hj : j = sn
        · subst j; simp [hnodup.1, hgoes]
        · simp [hj, Goes]
      · rw [filter_cons_of_pos hgoes, map_cons]
        exact hready.trans (append_cons ..).symm
    · rename_i hstays
      have hstays : u.Goes sn = false := Bool.eq_false_iff.mpr hstays
      cases hwake
      have hother : ∀ j ∈ woken,
          (u.setEntry sn { u.entries sn with memDepReady := true }).entries j = u.entries j :=
        fun j hj => Function.update_of_ne (ne_of_mem_of_not_mem hj hnodup.1) ..
      refine ⟨?_, ?_, { hkeeps with }⟩
      · rw [hentries]
        funext j
        by_cases hj : j = sn
        · subst j; simp [hnodup.1, hstays, setEntry]
        · simp [hj, Goes, setEntry]
      · rw [hready, filter_cons_of_neg (by simp [hstays])]
        have hgo : ∀ j ∈ woken, (u.setEntry sn { u.entries sn with memDepReady := true }).Goes j =
            u.Goes j :=
          fun j hj => by rw [Goes, hother j hj, Goes]
        rw [filter_congr hgo]
        refine congrArg _ (map_congr_left fun j hj => ?_)
        rw [hother j (mem_of_mem_filter hj)]

theorem wakeDependents_hands (h : u.Hands c) (hok : u.wakeDependents inst = .ok u')
    (hready : u.ready = []) :
    ∃ sns, u'.ready.map (·.seqNum) = sns ∧ Handed c sns ∧ u'.Hands (c.give sns) := by
  unfold wakeDependents at hok
  split at hok
  · cases hok
    refine ⟨[], by simp [hready], .nil _, h.congr ?_ ?_ ?_ ?_ ?_⟩ <;> simp [Clients.give]
  replace hok := of_guard hok
  obtain ⟨u1, hfold, hok⟩ := bind_eq_ok.mp hok
  have hset := pure_eq_ok.mp hok
  set store := inst.seqNum
  set woken := (u.entries store).dependInsts with hwoken
  obtain ⟨hentries, hhanded, hkeeps⟩ := foldlM_wake_eq (h.nodup store) hfold
  rw [← hwoken] at hentries hhanded
  replace hhanded : u'.ready = u.ready ++ (woken.filter u.Goes).map fun j =>
    (u.entries j).inst := hset ▸ hhanded
  replace hkeeps : Keeps u u' := hset ▸ hkeeps.trans ⟨rfl, rfl, rfl, rfl, rfl, rfl⟩
  have hentry : ∀ j, u'.entries j = { u.entries j with
        dependInsts := if j = store then [] else (u.entries j).dependInsts
        memDepReady := (u.entries j).memDepReady || decide (j ∈ woken ∧ u.Goes j = false) } := by
    intro j
    rw [← hset, show (u1.setEntry store { u1.entries store with dependInsts := [] }).entries j = _ from
      Function.update_apply .., hentries]
    by_cases hj : j = store
    · subst hj
      by_cases hw : store ∈ woken ∧ u.Goes store = false <;> simp [hw]
    · by_cases hw : j ∈ woken ∧ u.Goes j = false <;> simp [hw, hj]
  have hactive : ∀ n ∈ woken, u.Goes n = true → c.active n := by
    intro n hn hgoes
    rcases (h.held store n hn).2 with hactive | hsq
    · exact hactive
    · simp [Goes, hsq] at hgoes
  have hgoes : ∀ n, c.active n → (u.Goes n = true ↔ c.regs n) := fun n hn => by
    rw [Goes, h.squashed n hn, Bool.not_false, Bool.and_true, h.regs n hn]
  have hfree : ∀ n, u'.Free n ↔ u.Free n ∨ n ∈ woken := by
    intro n
    simp only [Free, hentry]
    constructor
    · intro hall
      refine or_iff_not_imp_right.mpr fun hnw j hj => ?_
      by_cases hjs : j = store
      · subst hjs; exact hnw hj
      · exact hall j (by rwa [if_neg hjs])
    · rintro hor j hj
      split at hj
      · simp at hj
      · rename_i hjs
        rcases hor with hfree | hw
        · exact hfree j hj
        · exact hjs (h.apart j store n hj hw)
  have hr : Remarks u u' := {
    inst := fun j => by rw [hentry]
    squashed := fun j => by rw [hentry]
    dependInsts := fun j => by
      rw [hentry]
      by_cases hj : j = store <;> simp [hj]
    hash := fun n hn => hkeeps.memDepHash ▸ hn
    list := by rw [hkeeps.instList] }
  refine ⟨woken.filter u.Goes, ?_, ⟨(h.nodup store).filter _, fun n hn => ?_⟩,
    h.remark hr (fun n hn => ?_) (fun n hn => ?_) (fun n hn hng => ?_)
    (fun n hn hd => .inl (h.done n hn hd))
      (fun n hn hd => hkeeps.instList ▸ h.listed n hn hd)⟩
  · rw [hhanded, hready, nil_append, map_map]
    refine (map_congr_left fun n hn => ?_).trans (map_id _)
    have hn := mem_filter.mp hn
    exact h.inst n (.inl (hactive n hn.1 hn.2))
  · have hn := mem_filter.mp hn
    have ha := hactive n hn.1 hn.2
    exact ⟨ha, fun hg => ((h.given n ha).mp hg).2 store hn.1, (hgoes n ha).mp hn.2⟩
  · rw [hentry]
    exact h.regs n hn
  · rw [h.given n hn, hfree, mem_filter, hgoes n hn]
    tauto
  · rw [hentry, hfree, Bool.or_eq_true, h.memDepReady n hn fun hg => hng (.inl hg), decide_eq_true_iff]
    refine or_congr_right (and_iff_left_of_imp fun hw => ?_)
    rw [Bool.eq_false_iff]
    exact fun hg => hng (.inr (mem_filter.mpr ⟨hw, hg⟩))

theorem completed_hands (h : u.Hands c) (hgiven : c.active inst.seqNum → c.given inst.seqNum)
    (hok : u.completed inst = .ok u') :
    u'.ready = u.ready ∧ u'.Hands { c with done := fun n => c.done n ∨ n = inst.seqNum } := by
  obtain ⟨-, rfl⟩ := completed_eq hok
  have hr : Remarks u { u with
      instList := u.instList.filter (·.seqNum ≠ inst.seqNum)
      memDepHash := u.memDepHash.filter (· ≠ inst.seqNum) } :=
    ⟨fun _ => rfl, fun _ => rfl, fun _ => .inl rfl, fun _ => mem_of_mem_filter, filter_sublist⟩
  refine ⟨rfl, h.remark hr h.regs h.given h.memDepReady (fun n hn hd => ?_) (fun n hn hd => ?_)⟩
  · rcases hd with hd | rfl
    · exact h.done n hn hd
    · exact hgiven hn
  · rw [not_or] at hd
    obtain ⟨i, hi, rfl⟩ := h.listed n hn hd.1
    exact ⟨i, mem_filter.mpr ⟨hi, decide_eq_true hd.2⟩, rfl⟩

theorem completeBarrier_hands (h : u.Hands c) (hactive : ¬ c.active inst.seqNum)
    (hok : u.completeBarrier inst = .ok u') (hready : u.ready = []) :
    ∃ sns, u'.ready.map (·.seqNum) = sns ∧ Handed c sns ∧ u'.Hands (c.give sns) := by
  obtain ⟨u1, hwake, hok⟩ := bind_eq_ok.mp hok
  obtain ⟨u2, hcompleted, hok⟩ := bind_eq_ok.mp hok
  obtain ⟨sns, hsns, hnew, hhands⟩ := wakeDependents_hands h hwake hready
  obtain ⟨hsame, hhands⟩ := completed_hands hhands (fun ha => absurd ha hactive) hcompleted
  have hflags : u'.entries = u2.entries ∧ u'.memDepHash = u2.memDepHash ∧ u'.instList = u2.instList ∧
      u'.ready = u2.ready := by
    split at hok
    · cases hok
      exact ⟨rfl, rfl, rfl, rfl⟩
    · split at hok
      · cases hok
        exact ⟨rfl, rfl, rfl, rfl⟩
      · cases hok
        exact ⟨rfl, rfl, rfl, rfl⟩
  obtain ⟨hentries, hhash, hlist, hlast⟩ := hflags
  refine ⟨sns, by rw [hlast, hsame, hsns], hnew, ?_⟩
  refine (hhands.of_entries hentries (fun n hn => hhash ▸ hn) hlist).congr ?_ ?_ ?_ ?_ fun n hn => ?_
  · exact fun _ => Iff.rfl
  · exact fun _ => Iff.rfl
  · exact fun _ _ => Iff.rfl
  · exact fun _ _ => Iff.rfl
  · refine ⟨.inl, fun hd => hd.resolve_right ?_⟩
    rintro rfl
    exact hactive hn

end Wake

section Insert

variable {c : Clients}

def Clients.enter (c : Clients) (sn : Nat) : Clients :=
  { c with known := fun n => c.known n ∨ n = sn }

def Clients.add (c : Clients) (sn : Nat) (regs : Prop) : Clients :=
  { c with
    known := fun n => c.known n ∨ n = sn
    active := fun n => c.active n ∨ n = sn
    regs := fun n => c.regs n ∨ n = sn ∧ regs }

structure Fresh (c : Clients) (sn : Nat) : Prop where
  known : ¬ c.known sn
  active : ¬ c.active sn
  regs : ¬ c.regs sn
  given : ¬ c.given sn
  done : ¬ c.done sn
  last : ∀ n, c.known n → n < sn

section

variable (h : u.Hands c)
include h

theorem Hands.bound_add (hfresh : Fresh c inst.seqNum) :
    (u.instList ++ [inst]).Pairwise (·.seqNum < ·.seqNum) ∧
      ∀ i ∈ u.instList ++ [inst], c.known i.seqNum ∨ i.seqNum = inst.seqNum := by
  refine ⟨pairwise_append.mpr ⟨h.sorted, pairwise_singleton .., fun i hi j hj => ?_⟩, fun i hi => ?_⟩
  · rw [mem_singleton.mp hj]
    exact hfresh.last _ (h.bound i hi)
  · rcases mem_append.mp hi with hi | hi
    · exact .inl (h.bound i hi)
    · exact .inr (congrArg _ (mem_singleton.mp hi))

theorem Hands.addInst (hfresh : Fresh c inst.seqNum) :
    (u.addInst inst).Hands (c.enter inst.seqNum) := by
  have hcases : ∀ j, (u.addInst inst).entries j = if j = inst.seqNum then { inst } else u.entries j :=
    fun j => Function.update_apply ..
  have hdep : ∀ j, ((u.addInst inst).entries j).dependInsts = (u.entries j).dependInsts := by
    intro j
    rw [hcases]
    split
    · rw [‹j = inst.seqNum›, h.fresh _ hfresh.known]
    · rfl
  have hold : ∀ j, c.active j → (u.addInst inst).entries j = u.entries j := fun j hj => by
    rw [hcases, if_neg]
    rintro rfl
    exact hfresh.active hj
  have hfree : ∀ n, (u.addInst inst).Free n ↔ u.Free n := fun n => by simp [Free, hdep]
  obtain ⟨hsorted, hbound⟩ := h.bound_add hfresh
  refine ⟨fun j => hdep j ▸ h.nodup j,
    fun i j n hi hj => h.apart i j n (hdep i ▸ hi) (hdep j ▸ hj), fun j n hn => ?_,
    fun j hj => (hdep j).trans (h.fresh j fun hk => hj (.inl hk)), fun n hn => ?_, fun n hn => ?_,
    fun n hn => hold n hn ▸ h.regs n hn, fun n hn => hold n hn ▸ h.squashed n hn, fun n hn => ?_,
    fun n hn hng => ?_, h.done, fun n hn hd => ?_, hsorted, hbound⟩
  · have hn := h.held j n (hdep j ▸ hn)
    refine ⟨.inl hn.1, hn.2.imp_right fun hsq => ?_⟩
    rw [hcases, if_neg, hsq]
    rintro rfl
    exact hfresh.known hn.1
  · rcases mem_cons.mp hn with rfl | hn
    · exact .inr rfl
    · exact .inl (h.hash n hn)
  · rw [hcases]
    split
    · exact ‹n = inst.seqNum›.symm
    · refine h.inst n (hn.imp_right fun hn => ?_)
      exact (mem_cons.mp hn).resolve_left ‹n ≠ inst.seqNum›
  · rw [hfree]
    exact h.given n hn
  · rw [hold n hn, hfree]
    exact h.memDepReady n hn hng
  · obtain ⟨i, hi, rfl⟩ := h.listed n hn hd
    exact ⟨i, mem_append_left _ hi, rfl⟩

theorem Hands.enter : u.Hands (c.enter sn) :=
  { h with
    held := fun j n hn => ⟨.inl (h.held j n hn).1, (h.held j n hn).2⟩
    fresh := fun j hj => h.fresh j fun hk => hj (.inl hk)
    hash := fun n hn => .inl (h.hash n hn)
    bound := fun i hi => .inl (h.bound i hi) }

theorem insertBarrier_hands (hfresh : Fresh c inst.seqNum) :
    (u.insertBarrier inst).ready = u.ready ∧ (u.insertBarrier inst).Hands (c.enter inst.seqNum) := by
  have hflags : ∃ load loadSN store storeSN, u.insertBarrier inst = { u.addInst inst with
      loadBarrier := load, loadBarrierSN := loadSN, storeBarrier := store,
        storeBarrierSN := storeSN } := by
    unfold insertBarrier
    split
    · exact ⟨_, _, _, _, rfl⟩
    · split
      · exact ⟨_, _, _, _, rfl⟩
      · exact ⟨_, _, _, _, rfl⟩
  obtain ⟨load, loadSN, store, storeSN, heq⟩ := hflags
  rw [heq]
  exact ⟨rfl, (h.addInst hfresh).of_entries rfl (fun _ => id) rfl⟩

theorem insertNonSpec_hands (hfresh : Fresh c inst.seqNum) (hok : u.insertNonSpec inst = .ok u') :
    u'.ready = u.ready ∧ u'.Hands (c.enter inst.seqNum) := by
  obtain ⟨depPred, rfl⟩ := notePred_eq hok
  exact ⟨rfl, (h.addInst hfresh).of_entries rfl (fun _ => id) rfl⟩

end

/-- The new instruction becomes active: its entry says whether its registers are ready, and
`holder` is the entry that holds it back. -/
structure Activates (u u' : MemDepUnit σ) (sn : Nat) (regs : Bool) (holder : Option Nat) : Prop where
  inst : ∀ j, (u'.entries j).inst = (u.entries j).inst
  squashed : ∀ j, (u'.entries j).squashed = (u.entries j).squashed
  regs : ∀ j, (u'.entries j).regsReady = if j = sn then regs else (u.entries j).regsReady
  memDepReady : ∀ j, (u'.entries j).memDepReady = if j = sn then holder.isNone
    else (u.entries j).memDepReady
  dependInsts : ∀ j, (u'.entries j).dependInsts =
    if holder = some j then (u.entries j).dependInsts ++ [sn] else (u.entries j).dependInsts
  hash : u'.memDepHash = u.memDepHash
  list : u'.instList = u.instList

theorem Activates.mem_iff {sn : Nat} {regs : Bool} {holder : Option Nat}
    (ha : Activates u u' sn regs holder) {j n : Nat} :
    n ∈ (u'.entries j).dependInsts ↔ n ∈ (u.entries j).dependInsts ∨ holder = some j ∧ n = sn := by
  rw [ha.dependInsts]
  split
  · simp [*]
  · simp [*]

theorem Activates.free_iff {sn : Nat} {regs : Bool} (ha : Activates u u' sn regs holder) :
    u'.Free n ↔ u.Free n ∧ (n = sn → holder = none) := by
  simp only [Free, ha.mem_iff, not_or, forall_and, not_and']
  refine and_congr_right fun _ => ?_
  cases holder with
  | none => simp
  | some store => simp

theorem Hands.activate {sn : Nat} {regs : Bool} {holder : Option Nat} (h : u.Hands (c.enter sn))
    (hfresh : Fresh c sn) (hnew : u.Free sn) (hsquashed : (u.entries sn).squashed = false)
    (hlisted : ∃ i ∈ u.instList, i.seqNum = sn) (hhash : sn ∈ u.memDepHash)
    (ha : Activates u u' sn regs holder) (hholder : ∀ j, holder = some j → j ∈ u.memDepHash)
    {sns : List Nat} (hsns : ∀ n, n ∈ sns ↔ n = sn ∧ regs = true ∧ holder = none) :
    u'.Hands ((c.add sn regs).give sns) := by
  refine ⟨fun j => ?_, fun i j n hi hj => ?_, fun j n hn => ?_, fun j hj => ?_,
    fun n hn => h.hash n (ha.hash ▸ hn), fun n hn => ?_, ?_, ?_, ?_, ?_, ?_, ?_, ha.list ▸ h.sorted,
    ha.list ▸ h.bound⟩
  · rw [ha.dependInsts]
    split
    · exact List.Nodup.append (h.nodup j) (nodup_singleton sn) (by simpa using hnew j)
    · exact h.nodup j
  · rcases ha.mem_iff.mp hi with hi | ⟨hi, rfl⟩
    · rcases ha.mem_iff.mp hj with hj | ⟨-, rfl⟩
      · exact h.apart i j n hi hj
      · exact absurd hi (hnew i)
    · rcases ha.mem_iff.mp hj with hj | ⟨hj, -⟩
      · exact absurd hj (hnew j)
      · exact Option.some.inj (hi.symm.trans hj)
  · rcases ha.mem_iff.mp hn with hn | ⟨-, rfl⟩
    · obtain ⟨hknown, hor⟩ := h.held j n hn
      exact ⟨hknown, hor.imp .inl fun hsq => (ha.squashed n).trans hsq⟩
    · exact ⟨.inr rfl, .inl (.inr rfl)⟩
  · rw [ha.dependInsts, if_neg, h.fresh j hj]
    exact fun hj' => hj (h.hash j (hholder j hj'))
  · rw [ha.inst]
    rcases hn with (hn | rfl) | hn
    · exact h.inst n (.inl hn)
    · exact h.inst n (.inr hhash)
    · exact h.inst n (.inr (ha.hash ▸ hn))
  all_goals
    rintro n (hn | rfl)
  · have hne : n ≠ sn := by rintro rfl; exact hfresh.active hn
    rw [ha.regs, if_neg hne, h.regs n hn]
    exact ⟨.inl, fun hr => hr.resolve_right fun hr => hne hr.1⟩
  · rw [ha.regs, if_pos rfl]
    exact ⟨fun hr => .inr ⟨rfl, hr⟩, fun hr => (hr.resolve_left hfresh.regs).2⟩
  · exact (ha.squashed n).trans (h.squashed n hn)
  · exact (ha.squashed n).trans hsquashed
  · have hne : n ≠ sn := by rintro rfl; exact hfresh.active hn
    rw [ha.free_iff]
    simpa [Clients.give, Clients.add, Clients.enter, hsns, hne] using h.given n hn
  · rw [ha.free_iff]
    simp [Clients.give, Clients.add, hsns, hnew, hfresh.given, hfresh.regs]
  · intro hng
    have hne : n ≠ sn := by rintro rfl; exact hfresh.active hn
    rw [ha.free_iff, ha.memDepReady, if_neg hne, h.memDepReady n hn fun hg => hng (.inl hg)]
    simp [hne]
  · intro _
    rw [ha.free_iff, ha.memDepReady, if_pos rfl]
    simp [hnew]
  · exact fun hd => .inl (h.done n hn hd)
  · exact fun hd => absurd hd hfresh.done
  · exact fun hd => ha.list ▸ h.listed n hn hd
  · exact fun _ => ha.list ▸ hlisted

theorem addInst_entries (u : MemDepUnit σ) (inst : MemDepInst) (j : Nat) :
    (u.addInst inst).entries j = if j = inst.seqNum then { inst } else u.entries j :=
  Function.update_apply ..

theorem Activates.entry (u : MemDepUnit σ) (inst : MemDepInst) (regs : Bool) :
    Activates (u.addInst inst)
      ((u.addInst inst).setEntry inst.seqNum { inst, regsReady := regs, memDepReady := true })
        inst.seqNum regs none := by
  have hcases : ∀ j, ((u.addInst inst).setEntry inst.seqNum
    { inst, regsReady := regs, memDepReady := true }).entries j =
      if j = inst.seqNum then { inst, regsReady := regs, memDepReady := true } else u.entries j := by
    intro j
    by_cases hj : j = inst.seqNum <;> simp [setEntry, addInst, hj]
  refine ⟨fun j => ?_, fun j => ?_, fun j => ?_, fun j => ?_, fun j => ?_, rfl, rfl⟩
  all_goals
    rw [hcases, addInst_entries]
    by_cases hj : j = inst.seqNum <;> simp [hj]

theorem Activates.held (u : MemDepUnit σ) (inst : MemDepInst) (regs : Bool) (store : Nat) :
    let u1 := (u.addInst inst).setEntry inst.seqNum { inst, regsReady := regs }
    Activates (u.addInst inst) (u1.setEntry store { u1.entries store with
      dependInsts := (u1.entries store).dependInsts ++ [inst.seqNum] }) inst.seqNum regs
        (some store) := by
  intro u1
  have hcases1 : ∀ j, u1.entries j = if j = inst.seqNum then { inst, regsReady := regs }
      else u.entries j := by
    intro j
    by_cases hj : j = inst.seqNum <;> simp [u1, setEntry, addInst, hj]
  have hcases : ∀ j, (u1.setEntry store { u1.entries store with
      dependInsts := (u1.entries store).dependInsts ++ [inst.seqNum] }).entries j =
      if j = store then { u1.entries store with
        dependInsts := (u1.entries store).dependInsts ++ [inst.seqNum] }
      else u1.entries j := fun j => Function.update_apply ..
  refine ⟨fun j => ?_, fun j => ?_, fun j => ?_, fun j => ?_, fun j => ?_, rfl, rfl⟩
  all_goals
    rw [hcases, addInst_entries]
    rcases eq_or_ne j store with rfl | hs
    · by_cases hj : j = inst.seqNum <;> simp [hcases1, hj]
    · rw [if_neg hs, hcases1]
      rcases eq_or_ne j inst.seqNum with rfl | hj
      · simp [hs.symm]
      · simp [hj, hs.symm]

theorem insert_hands (h : u.Hands c) (hfresh : Fresh c inst.seqNum)
    (hok : u.insert inst regs = .ok (u', canIssue)) (hready : u.ready = []) :
    (canIssue = true → regs = true) ∧ ∃ sns, u'.ready.map (·.seqNum) = sns ∧ sns.Nodup ∧
    (∀ n ∈ sns, n = inst.seqNum ∧ regs = true) ∧
      u'.Hands ((c.add inst.seqNum regs).give sns) := by
  obtain ⟨store, -, hok⟩ := bind_eq_ok.mp hok
  have hadd := h.addInst hfresh
  have hself : (u.addInst inst).entries inst.seqNum = { inst } := Function.update_self ..
  have hfree : (u.addInst inst).Free inst.seqNum := by
    intro j hj
    by_cases hjs : j = inst.seqNum
    · simp [hjs, hself] at hj
    · exact hfresh.known (h.held j _ (by simpa [addInst, hjs] using hj)).1
  have hactivate : ∀ {v : MemDepUnit σ} {holder : Option Nat},
    Activates (u.addInst inst) v inst.seqNum regs holder →
      (∀ j, holder = some j → j ∈ (u.addInst inst).memDepHash) → ∀ {sns : List Nat},
      (∀ n, n ∈ sns ↔ n = inst.seqNum ∧ regs = true ∧ holder = none) →
      v.Hands ((c.add inst.seqNum regs).give sns) :=
    fun ha hh _ hsns => hadd.activate hfresh hfree (by rw [hself]) ⟨inst, by simp [addInst], rfl⟩
      (by simp [addInst]) ha hh hsns
  split at hok
  · rename_i hstore
    obtain ⟨u1, hnote, hret⟩ := bind_eq_ok.mp hok
    cases hret
    obtain ⟨depPred, rfl⟩ := notePred_eq hnote
    refine ⟨by simp, [], by simp [setEntry, addInst, hready], nodup_nil, by simp, ?_⟩
    refine (hactivate (.held u inst regs store) (fun j hj => ?_) fun n => by simp).of_entries
      rfl (fun _ => id) rfl
    exact Option.some.inj hj ▸ hstore.2
  · obtain ⟨u1, hmove, hok⟩ := bind_eq_ok.mp hok
    obtain ⟨u2, hnote, hret⟩ := bind_eq_ok.mp hok
    cases hret
    obtain ⟨depPred, rfl⟩ := notePred_eq hnote
    refine ⟨id, ?_⟩
    cases regs with
    | true =>
      cases moveToReady_eq hmove
      refine ⟨[inst.seqNum], by simp [setEntry, addInst, hready],
        nodup_singleton _, fun n hn => ⟨mem_singleton.mp hn, rfl⟩, ?_⟩
      exact (hactivate (.entry u inst true) (by simp) fun n => by simp).of_entries
        rfl (fun _ => id) rfl
    | false =>
      cases hmove
      refine ⟨[], by simp [setEntry, addInst, hready], nodup_nil, by simp, ?_⟩
      exact (hactivate (.entry u inst false) (by simp) fun n => by simp).of_entries
        rfl (fun _ => id) rfl

end Insert

section Leave

variable {c : Clients}

theorem nonSpecInstReady_hands (h : u.Hands c) (hactive : ¬ c.active inst.seqNum)
    (hok : u.nonSpecInstReady inst = .ok u') (hready : u.ready = []) :
    u'.ready.map (·.seqNum) = [inst.seqNum] ∧ u'.Hands (c.give [inst.seqNum]) := by
  obtain ⟨_, hfind, hok⟩ := bind_eq_ok.mp hok
  have hmem : inst.seqNum ∈ u.memDepHash := of_decide_eq_true (ensure_eq_ok.mp hfind)
  cases moveToReady_eq hok
  have hgive : u.Hands (c.give [inst.seqNum]) := by
    refine h.congr (fun _ => Iff.rfl) (fun _ => Iff.rfl) (fun _ _ => Iff.rfl) (fun n hn => ?_)
      fun _ _ => Iff.rfl
    refine ⟨fun hg => hg.resolve_right fun hg => hactive ?_, .inl⟩
    rwa [mem_singleton.mp hg] at hn
  exact ⟨by simp [hready, h.inst _ (.inr hmem)], hgive.of_entries rfl (fun _ => id) rfl⟩

theorem issue_hands (h : u.Hands c) (hok : u.issue inst = .ok u') :
    u'.ready = u.ready ∧ u'.Hands c := by
  obtain ⟨depPred, -, hok⟩ := bind_eq_ok.mp hok
  cases hok
  exact ⟨rfl, h.of_entries rfl (fun _ => id) rfl⟩

theorem squashBack_entries (hsorted : l.Pairwise (·.seqNum > ·.seqNum))
    (h : squashBack n u l = .ok u') :
    u'.entries = (fun j => if n < j ∧ ∃ i ∈ l, i.seqNum = j then
      { u.entries j with squashed := true } else u.entries j) ∧
      u'.instList = (l.filter (·.seqNum ≤ n)).reverse ∧ (∀ sn ∈ u'.memDepHash, sn ∈ u.memDepHash) ∧
      u'.ready = u.ready := by
  induction l generalizing u with
  | nil =>
    cases h
    exact ⟨by simp, by simp, fun _ => id, rfl⟩
  | cons i l ih =>
    rw [pairwise_cons] at hsorted
    unfold squashBack at h
    split at h
    · rename_i hlt
      obtain ⟨u1, hone, h⟩ := bind_eq_ok.mp h
      obtain ⟨hentries, hlist, hhash, hready⟩ := ih hsorted.2 h
      replace hone := of_guard hone
      cases hone
      refine ⟨?_, ?_, fun sn hsn => mem_of_mem_filter (hhash sn hsn), hready⟩
      · rw [hentries]
        funext j
        by_cases hj : j = i.seqNum
        · subst hj; simp [hlt]
        · simp [hj, Ne.symm hj]
      · rw [hlist, filter_cons_of_neg (by simpa using hlt)]
    · rename_i hge
      cases h
      have hall := all_le_of_sorted hsorted.1 hge
      refine ⟨?_, ?_, fun _ => id, rfl⟩
      · funext j
        rw [if_neg]
        rintro ⟨hlt, j, hj, rfl⟩
        exact absurd (hall j hj) (not_le.mpr hlt)
      · rw [filter_eq_self.mpr fun j hj => decide_eq_true (hall j hj)]

theorem squash_hands (h : u.Hands c) (hok : u.squash n = .ok u') :
    u'.ready = u.ready ∧ u'.Hands { c with active := fun sn => c.active sn ∧ sn ≤ n } := by
  obtain ⟨u1, hback, hok⟩ := bind_eq_ok.mp hok
  obtain ⟨depPred, -, hok⟩ := bind_eq_ok.mp hok
  cases hok
  obtain ⟨hentries, hlist, hhash, hready⟩ := squashBack_entries (pairwise_reverse.mpr h.sorted) hback
  rw [filter_reverse, reverse_reverse] at hlist
  have hentry : ∀ j, u1.entries j = { u.entries j with
      squashed := (u.entries j).squashed || decide (n < j ∧ ∃ i ∈ u.instList, i.seqNum = j) } := by
    intro j
    rw [hentries]
    by_cases hj : n < j ∧ ∃ i ∈ u.instList, i.seqNum = j <;> simp [hj]
  have hfree : ∀ sn, u1.Free sn ↔ u.Free sn := fun sn => by simp [Free, hentry]
  have hsub : u1.instList.Sublist u.instList := hlist ▸ filter_sublist
  have hhands : u1.Hands { c with active := fun sn => c.active sn ∧ sn ≤ n } := by
    refine ⟨fun j => hentry j ▸ h.nodup j, fun i j sn hi hj => ?_, fun j sn hsn => ?_,
      fun j hj => hentry j ▸ h.fresh j hj, fun sn hsn => h.hash sn (hhash sn hsn), fun sn hsn => ?_,
      fun sn hsn => hentry sn ▸ h.regs sn hsn.1, fun sn hsn => ?_, fun sn hsn => ?_,
      fun sn hsn hng => ?_, fun sn hsn => h.done sn hsn.1, fun sn hsn hd => ?_,
      h.sorted.sublist hsub, fun i hi => h.bound i (hsub.subset hi)⟩
    · rw [hentry] at hi hj
      exact h.apart i j sn hi hj
    · rw [hentry] at hsn ⊢
      obtain ⟨hknown, hor⟩ := h.held j sn hsn
      refine ⟨hknown, ?_⟩
      rcases hor with hactive | hsq
      · -- An instruction that is held back was not handed over, so it is still on the list.
        by_cases hle : sn ≤ n
        · exact .inl ⟨hactive, hle⟩
        · have hgiven : ¬ c.given sn := fun hg => ((h.given sn hactive).mp hg).2 j hsn
          have hlisted := h.listed sn hactive fun hd => hgiven (h.done sn hactive hd)
          exact .inr (by simpa [hlisted] using .inr (not_le.mp hle))
      · exact .inr (by simp [hsq])
    · rw [hentry]
      exact h.inst sn (hsn.imp And.left (hhash sn))
    · rw [hentry, h.squashed sn hsn.1]
      simp [hsn.2]
    · rw [hfree]
      exact h.given sn hsn.1
    · rw [hentry, hfree]
      exact h.memDepReady sn hsn.1 hng
    · obtain ⟨i, hi, rfl⟩ := h.listed sn hsn.1 hd
      exact ⟨i, hlist ▸ mem_filter.mpr ⟨hi, decide_eq_true hsn.2⟩, rfl⟩
  exact ⟨hready, hhands.of_entries rfl (fun _ => id) rfl⟩

end Leave

end MemDepUnit

end Gem5
