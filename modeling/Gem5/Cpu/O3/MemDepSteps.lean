import Gem5.Cpu.O3.MemDepUnit

/-!
# What the operations of the memory dependence unit do

Operations on instructions in the unit mark entries (`Marks`), an insertion adds one entry
(`Adds`), and a squash removes the younger ones (`Squashed`).
-/

namespace Gem5

open Lib List

namespace MemDepUnit

variable {σ : Type} {u u' : MemDepUnit σ} {inst : MemDepInst} {woken : List Nat} {hs : List MemDepInst}

structure Listed (u : MemDepUnit σ) (last : Nat) : Prop where
  sorted : u.instList.Pairwise (·.seqNum < ·.seqNum)
  bound : ∀ i ∈ u.instList, 0 < i.seqNum ∧ i.seqNum ≤ last
  hash : ∀ n, n ∈ u.memDepHash ↔ ∃ i ∈ u.instList, i.seqNum = n
  entry : ∀ i ∈ u.instList, (u.entries i.seqNum).inst = i

theorem Listed.inj (h : u.Listed last) (hi : i ∈ u.instList) (hj : j ∈ u.instList)
    (hij : i.seqNum = j.seqNum) : i = j := by
  rw [← h.entry i hi, ← h.entry j hj, hij]

structure Marks (u u' : MemDepUnit σ) (woken : List Nat) (hs : List MemDepInst) : Prop where
  inst : ∀ j, (u'.entries j).inst = (u.entries j).inst
  dependInsts : ∀ j, ∀ sn ∈ (u'.entries j).dependInsts, sn ∈ (u.entries j).dependInsts
  memDepReady : ∀ j, (u'.entries j).memDepReady = true → (u.entries j).memDepReady = true ∨ j ∈ woken
  hash : ∀ n ∈ u'.memDepHash, n ∈ u.memDepHash
  ready : u'.ready = u.ready ++ hs

theorem Marks.refl (u : MemDepUnit σ) (woken : List Nat) : Marks u u woken [] :=
  ⟨fun _ => rfl, fun _ _ => id, fun _ => .inl, fun _ => id, by simp⟩

theorem Marks.trans (h : Marks u u' woken hs)
    (h' : Marks u' u'' woken hs') : Marks u u'' woken (hs ++ hs') where
  inst j := (h'.inst j).trans (h.inst j)
  dependInsts j sn hsn := h.dependInsts j sn (h'.dependInsts j sn hsn)
  memDepReady j hj := (h'.memDepReady j hj).elim (h.memDepReady j) .inr
  hash n hn := h.hash n (h'.hash n hn)
  ready := by rw [h'.ready, h.ready, append_assoc]

theorem Marks.mono (h : Marks u u' woken hs) (hsub : ∀ j ∈ woken, j ∈ woken') :
    Marks u u' woken' hs :=
  { h with memDepReady := fun j hj => (h.memDepReady j hj).imp_right (hsub j) }

theorem Marks.setEntry (hinst : entry.inst = (u.entries sn).inst)
    (hdepend : ∀ j ∈ entry.dependInsts, j ∈ (u.entries sn).dependInsts)
    (hready : entry.memDepReady = true → (u.entries sn).memDepReady = true ∨ sn ∈ woken) :
    Marks u (u.setEntry sn entry) woken [] := by
  have hcases : ∀ j, (u.setEntry sn entry).entries j = if j = sn then entry
    else u.entries j := fun j =>
    Function.update_apply ..
  refine ⟨fun j => ?_, fun j sn' hsn' => ?_, fun j hj => ?_,
    fun _ => id, by simp [MemDepUnit.setEntry]⟩
  · rw [hcases]
    split
    · subst j; exact hinst
    · rfl
  · rw [hcases] at hsn'
    split at hsn'
    · subst j; exact hdepend sn' hsn'
    · exact hsn'
  · rw [hcases] at hj
    split at hj
    · subst j; exact hready hj
    · exact .inl hj

theorem moveToReady_eq (h : u.moveToReady sn = .ok u') :
    u' = { u with ready := u.ready ++ [(u.entries sn).inst] } := by
  replace h := of_guard h
  exact (pure_eq_ok.mp h).symm

theorem Marks.of_entries (hentries : u'.entries = u.entries)
    (hhash : ∀ n ∈ u'.memDepHash, n ∈ u.memDepHash) (hready : u'.ready = u.ready ++ hs) :
    Marks u u' woken hs :=
  ⟨fun _ => by rw [hentries], fun _ _ => by rw [hentries]; exact id,
    fun _ => by rw [hentries]; exact .inl, hhash, hready⟩

structure Keeps (u u' : MemDepUnit σ) : Prop where
  instList : u'.instList = u.instList
  memDepHash : u'.memDepHash = u.memDepHash
  loadBarrier : u'.loadBarrier = u.loadBarrier
  loadBarrierSN : u'.loadBarrierSN = u.loadBarrierSN
  storeBarrier : u'.storeBarrier = u.storeBarrier
  storeBarrierSN : u'.storeBarrierSN = u.storeBarrierSN

theorem Keeps.refl (u : MemDepUnit σ) : Keeps u u := ⟨rfl, rfl, rfl, rfl, rfl, rfl⟩

theorem Keeps.trans (h : Keeps u u') (h' : Keeps u' u'') : Keeps u u'' :=
  ⟨h'.1.trans h.1, h'.2.trans h.2, h'.3.trans h.3, h'.4.trans h.4, h'.5.trans h.5, h'.6.trans h.6⟩

theorem wake_marks (h : u.wake sn = .ok u') :
    ∃ hs, Marks u u' [sn] hs ∧ Keeps u u' ∧ ∀ i ∈ hs, i = (u.entries sn).inst := by
  unfold wake at h
  dsimp only at h
  split at h
  · cases moveToReady_eq h
    exact ⟨_, .of_entries rfl (fun _ => id) rfl, ⟨rfl, rfl, rfl, rfl, rfl, rfl⟩,
      fun i hi => mem_singleton.mp hi⟩
  · cases h
    exact ⟨[], Marks.setEntry rfl (fun _ => id) fun _ => .inr (mem_singleton_self sn),
      ⟨rfl, rfl, rfl, rfl, rfl, rfl⟩, nofun⟩

theorem foldlM_wake_marks (h : woken.foldlM wake u = .ok u') :
    ∃ hs, Marks u u' woken hs ∧ Keeps u u' ∧ ∀ i ∈ hs, ∃ j ∈ woken, i = (u.entries j).inst := by
  induction woken generalizing u with
  | nil =>
    cases h
    exact ⟨[], .refl _ _, .refl _, nofun⟩
  | cons sn woken ih =>
    rw [foldlM_cons] at h
    obtain ⟨u1, hwake, h⟩ := bind_eq_ok.mp h
    obtain ⟨hs1, hmarks1, hkeeps1, hhanded1⟩ := wake_marks hwake
    obtain ⟨hs, hmarks, hkeeps, hhanded⟩ := ih h
    refine ⟨hs1 ++ hs, (hmarks1.mono (by simp)).trans (hmarks.mono (by simp +contextual)),
      hkeeps1.trans hkeeps, ?_⟩
    intro i hi
    rcases mem_append.mp hi with hi | hi
    · exact ⟨sn, mem_cons_self, hhanded1 i hi⟩
    · obtain ⟨j, hj, rfl⟩ := hhanded i hi
      exact ⟨j, mem_cons_of_mem _ hj, hmarks1.inst j⟩

theorem wakeDependents_marks (h : u.wakeDependents inst = .ok u') :
    ∃ hs, Marks u u' (u.entries inst.seqNum).dependInsts hs ∧ Keeps u u' ∧
      ∀ i ∈ hs, ∃ j ∈ (u.entries inst.seqNum).dependInsts, i = (u.entries j).inst := by
  unfold wakeDependents at h
  split at h
  · cases h
    exact ⟨[], .refl _ _, .refl _, nofun⟩
  · replace h := of_guard h
    obtain ⟨u1, hfold, h⟩ := bind_eq_ok.mp h
    cases h
    obtain ⟨hs, hmarks, hkeeps, hhanded⟩ := foldlM_wake_marks hfold
    have hclear : Marks u1 (u1.setEntry inst.seqNum { u1.entries inst.seqNum with dependInsts := [] })
        (u.entries inst.seqNum).dependInsts [] := Marks.setEntry rfl nofun .inl
    exact ⟨hs, by simpa using hmarks.trans hclear,
      hkeeps.trans ⟨rfl, rfl, rfl, rfl, rfl, rfl⟩, hhanded⟩

theorem regsReady_marks (h : u.regsReady inst = .ok u') :
    ∃ hs, Marks u u' [] hs ∧ Keeps u u' ∧
      ∀ i ∈ hs, i = (u.entries inst.seqNum).inst ∧ (u.entries inst.seqNum).memDepReady = true := by
  replace h := of_guard h
  have hset : Marks u (u.setEntry inst.seqNum { u.entries inst.seqNum with
      regsReady := true }) [] [] :=
    Marks.setEntry rfl (fun _ => id) .inl
  have hentry : (u.setEntry inst.seqNum { u.entries inst.seqNum with regsReady := true }).entries
    inst.seqNum =
      { u.entries inst.seqNum with regsReady := true } := Function.update_self ..
  dsimp only at h
  split at h
  · rename_i hready
    cases moveToReady_eq h
    refine ⟨_, hset.trans (.of_entries rfl (fun _ => id) rfl),
      ⟨rfl, rfl, rfl, rfl, rfl, rfl⟩, fun i hi => ?_⟩
    rw [hentry] at hready
    rw [nil_append, mem_singleton] at hi
    exact ⟨by rw [hi, hentry], hready⟩
  · cases h
    exact ⟨[], hset, ⟨rfl, rfl, rfl, rfl, rfl, rfl⟩, nofun⟩

theorem completed_eq (h : u.completed inst = .ok u') :
    inst.seqNum ∈ u.memDepHash ∧ u' = { u with
      instList := u.instList.filter (·.seqNum ≠ inst.seqNum)
      memDepHash := u.memDepHash.filter (· ≠ inst.seqNum) } := by
  obtain ⟨_, hfind, h⟩ := bind_eq_ok.mp h
  exact ⟨of_decide_eq_true (ensure_eq_ok.mp hfind), (pure_eq_ok.mp h).symm⟩

theorem completeBarrier_marks (h : u.completeBarrier inst = .ok u') :
    ∃ hs, Marks u u' (u.entries inst.seqNum).dependInsts hs ∧
      (∀ i ∈ hs, ∃ j ∈ (u.entries inst.seqNum).dependInsts, i = (u.entries j).inst) ∧
      u'.instList = u.instList.filter (·.seqNum ≠ inst.seqNum) ∧
      u'.memDepHash = u.memDepHash.filter (· ≠ inst.seqNum) ∧
      u'.loadBarrierSN = u.loadBarrierSN ∧ u'.storeBarrierSN = u.storeBarrierSN ∧
      (u.loadBarrierSN ≠ inst.seqNum → u'.loadBarrier = u.loadBarrier) ∧
      (u.storeBarrierSN ≠ inst.seqNum → u'.storeBarrier = u.storeBarrier) := by
  obtain ⟨u1, hwake, h⟩ := bind_eq_ok.mp h
  obtain ⟨u2, hcompleted, h⟩ := bind_eq_ok.mp h
  obtain ⟨hs, hmarks, hkeeps, hhanded⟩ := wakeDependents_marks hwake
  obtain ⟨-, rfl⟩ := completed_eq hcompleted
  have hflags : ∃ load store, u' = { u1 with
      instList := u1.instList.filter (·.seqNum ≠ inst.seqNum)
      memDepHash := u1.memDepHash.filter (· ≠ inst.seqNum)
      loadBarrier := load, storeBarrier := store } ∧
        (u1.loadBarrierSN ≠ inst.seqNum → load = u1.loadBarrier) ∧
      (u1.storeBarrierSN ≠ inst.seqNum → store = u1.storeBarrier) := by
    split at h
    · cases h
      exact ⟨_, _, rfl, fun hne => by simp [hne], fun hne => by simp [hne]⟩
    · split at h
      · cases h
        exact ⟨_, _, rfl, fun _ => rfl, fun hne => by simp [hne]⟩
      · cases h
        exact ⟨_, _, rfl, fun _ => rfl, fun _ => rfl⟩
  obtain ⟨load, store, rfl, hload, hstore⟩ := hflags
  rw [hkeeps.loadBarrier, hkeeps.loadBarrierSN] at hload
  rw [hkeeps.storeBarrier, hkeeps.storeBarrierSN] at hstore
  refine ⟨hs, ?_, hhanded, by rw [hkeeps.instList], by rw [hkeeps.memDepHash], hkeeps.loadBarrierSN,
    hkeeps.storeBarrierSN, hload, hstore⟩
  have hleave : Marks u1 { u1 with
      instList := u1.instList.filter (·.seqNum ≠ inst.seqNum)
      memDepHash := u1.memDepHash.filter (· ≠ inst.seqNum)
      loadBarrier := load, storeBarrier := store } (u.entries inst.seqNum).dependInsts [] :=
    .of_entries rfl (fun _ => mem_of_mem_filter) (by simp)
  simpa using hmarks.trans hleave

theorem Listed.filter {P : Nat → Bool} {last : Nat} (h : u.Listed last)
    (hlist : u'.instList = u.instList.filter (P ·.seqNum))
    (hhash : ∀ n, n ∈ u'.memDepHash ↔ n ∈ u.memDepHash ∧ P n)
    (hinst : ∀ j, (u'.entries j).inst = (u.entries j).inst) : u'.Listed last where
  sorted := hlist ▸ h.sorted.filter _
  bound i hi := h.bound i (mem_of_mem_filter (hlist ▸ hi))
  hash n := by
    rw [hhash, h.hash, hlist]
    simp only [mem_filter]
    constructor
    · rintro ⟨⟨i, hi, rfl⟩, hP⟩
      exact ⟨i, ⟨hi, hP⟩, rfl⟩
    · rintro ⟨i, ⟨hi, hP⟩, rfl⟩
      exact ⟨⟨i, hi, rfl⟩, hP⟩
  entry i hi := (hinst _).trans (h.entry i (mem_of_mem_filter (hlist ▸ hi)))

theorem Listed.add (h : u.Listed last) (hlast : last < inst.seqNum)
    (hlist : u'.instList = u.instList ++ [inst]) (hhash : u'.memDepHash = inst.seqNum :: u.memDepHash)
    (hinst : ∀ j, (u'.entries j).inst = if j = inst.seqNum then inst else (u.entries j).inst) :
    u'.Listed inst.seqNum where
  sorted := by
    rw [hlist, pairwise_append]
    refine ⟨h.sorted, pairwise_singleton .., fun i hi j hj => ?_⟩
    rw [mem_singleton.mp hj]
    exact (h.bound i hi).2.trans_lt hlast
  bound i hi := by
    rw [hlist] at hi
    rcases mem_append.mp hi with hi | hi
    · exact ⟨(h.bound i hi).1, ((h.bound i hi).2.trans_lt hlast).le⟩
    · rw [mem_singleton.mp hi]
      exact ⟨Nat.zero_lt_of_lt hlast, le_rfl⟩
  hash n := by
    rw [hhash, mem_cons, h.hash, hlist]
    simp [or_comm, or_and_right, exists_or, eq_comm]
  entry i hi := by
    rw [hlist] at hi
    rw [hinst]
    rcases mem_append.mp hi with hi | hi
    · rw [if_neg ((h.bound i hi).2.trans_lt hlast).ne, h.entry i hi]
    · rw [mem_singleton.mp hi, if_pos rfl]

structure Adds (u u' : MemDepUnit σ) (inst : MemDepInst) (waits : Option Nat)
    (hs : List MemDepInst) : Prop where
  instList : u'.instList = u.instList ++ [inst]
  memDepHash : u'.memDepHash = inst.seqNum :: u.memDepHash
  insts : ∀ j, (u'.entries j).inst = if j = inst.seqNum then inst else (u.entries j).inst
  memDepReady : ∀ j, j ≠ inst.seqNum → (u'.entries j).memDepReady = (u.entries j).memDepReady
  free : (u'.entries inst.seqNum).memDepReady = true → waits = none
  dependInsts : ∀ j, ∀ sn ∈ (u'.entries j).dependInsts,
    j ≠ inst.seqNum ∧ sn ∈ (u.entries j).dependInsts ∨ sn = inst.seqNum ∧ waits = some j
  ready : u'.ready = u.ready ++ hs
  handed : ∀ i ∈ hs, i = inst ∧ waits = none

theorem Adds.addInst (u : MemDepUnit σ) (inst : MemDepInst) :
    Adds u (u.addInst inst) inst none [] where
  instList := rfl
  memDepHash := rfl
  insts j := by
    by_cases hj : j = inst.seqNum
    · simp [MemDepUnit.addInst, hj]
    · simp [MemDepUnit.addInst, hj]
  memDepReady j hj := by simp [MemDepUnit.addInst, hj]
  free _ := rfl
  dependInsts j sn hsn := by
    by_cases hj : j = inst.seqNum
    · simp [MemDepUnit.addInst, hj] at hsn
    · exact .inl ⟨hj, by simpa [MemDepUnit.addInst, hj] using hsn⟩
  ready := by simp [MemDepUnit.addInst]
  handed := nofun

theorem notePred_eq (h : u.notePred inst = .ok u') : ∃ depPred, u' = { u with depPred } := by
  unfold notePred at h
  split at h
  · obtain ⟨depPred, -, h⟩ := bind_eq_ok.mp h
    exact ⟨depPred, (pure_eq_ok.mp h).symm⟩
  · split at h
    · exact ⟨u.depPred, (pure_eq_ok.mp h).symm⟩
    · simp at h

theorem Adds.setEntry (h : Adds u u' inst waits hs) (entry : MemDepEntry) (hinst : entry.inst = inst)
    (hdepend : entry.dependInsts = []) (hready : entry.memDepReady = true → waits = none) :
    Adds u (u'.setEntry inst.seqNum entry) inst waits hs := by
  have hcases : ∀ j, (u'.setEntry inst.seqNum entry).entries j = if j = inst.seqNum then entry
      else u'.entries j :=
    fun j => Function.update_apply ..
  refine { h with insts := fun j => ?_, memDepReady := fun j hj => ?_, free := fun hfree => ?_,
                  dependInsts := fun j sn hsn => ?_ }
  · rw [hcases]
    split
    · exact hinst
    · rw [h.insts, if_neg ‹_›]
  · rw [hcases, if_neg hj, h.memDepReady j hj]
  · rw [hcases, if_pos rfl] at hfree
    exact hready hfree
  · rw [hcases] at hsn
    split at hsn
    · simp [hdepend] at hsn
    · exact h.dependInsts j sn hsn

theorem Adds.depend (h : Adds u u' inst none []) (store : Nat)
    (hfree : (u'.entries inst.seqNum).memDepReady = false) :
    Adds u (u'.setEntry store { u'.entries store with
      dependInsts := (u'.entries store).dependInsts ++ [inst.seqNum] }) inst (some store) [] := by
  set e : MemDepEntry := { u'.entries store with dependInsts := _ }
  have hcases : ∀ j, (u'.setEntry store e).entries j = if j = store then e else u'.entries j :=
    fun j => Function.update_apply ..
  have hsame : ∀ j, ((u'.setEntry store e).entries j).memDepReady = (u'.entries j).memDepReady := by
    intro j
    rw [hcases]
    split
    · rw [‹j = store›]
    · rfl
  refine { h with
    insts := fun j => ?_, memDepReady := fun j hj => (hsame j).trans (h.memDepReady j hj),
                  free := fun hready => ?_, dependInsts := fun j sn hsn => ?_, handed := nofun }
  · rw [← h.insts, hcases]
    split
    · rw [‹j = store›]
    · rfl
  · rw [hsame, hfree] at hready
    exact absurd hready Bool.false_ne_true
  · rw [hcases] at hsn
    split at hsn
    · subst j
      rcases mem_append.mp hsn with hsn | hsn
      · exact (h.dependInsts store sn hsn).imp_right fun hnone => absurd hnone.2 (by simp)
      · exact .inr ⟨mem_singleton.mp hsn, rfl⟩
    · exact (h.dependInsts j sn hsn).imp_right fun hnone => absurd hnone.2 (by simp)

theorem Adds.moveToReady (h : Adds u u' inst none []) :
    Adds u { u' with ready := u'.ready ++ [(u'.entries inst.seqNum).inst] } inst none [inst] :=
  { h with
    ready := by
      rw [h.insts, if_pos rfl, h.ready]
      simp
    handed := fun i hi => ⟨mem_singleton.mp hi, rfl⟩ }

theorem insert_adds (h : u.insert inst readyToIssue = .ok (u', canIssue)) :
    ∃ store waits hs, u.producingStore inst = .ok store ∧ Adds u u' inst waits hs ∧
      (store ≠ 0 ∧ store ∈ inst.seqNum :: u.memDepHash → waits = some store) ∧
      u'.loadBarrier = u.loadBarrier ∧ u'.loadBarrierSN = u.loadBarrierSN ∧
      u'.storeBarrier = u.storeBarrier ∧ u'.storeBarrierSN = u.storeBarrierSN := by
  obtain ⟨store, hstore, h⟩ := bind_eq_ok.mp h
  refine ⟨store, ?_⟩
  have hadd := Adds.addInst u inst
  split at h
  · obtain ⟨u1, hnote, hret⟩ := bind_eq_ok.mp h
    cases hret
    obtain ⟨depPred, rfl⟩ := notePred_eq hnote
    have hset := hadd.setEntry { inst, regsReady := readyToIssue } rfl rfl (fun _ => rfl)
    have hdep := hset.depend store (by simp [MemDepUnit.setEntry])
    exact ⟨some store, [], hstore, { hdep with }, fun _ => rfl, rfl, rfl, rfl, rfl⟩
  · rename_i hnone
    have hset := hadd.setEntry { inst, regsReady := readyToIssue, memDepReady := true }
      rfl rfl (fun _ => rfl)
    obtain ⟨u1, hmove, h⟩ := bind_eq_ok.mp h
    obtain ⟨u2, hnote, hret⟩ := bind_eq_ok.mp h
    cases hret
    obtain ⟨depPred, rfl⟩ := notePred_eq hnote
    cases readyToIssue with
    | true =>
      cases moveToReady_eq hmove
      have hready := hset.moveToReady
      exact ⟨none, [inst], hstore, { hready with }, fun hsome => absurd hsome hnone,
        rfl, rfl, rfl, rfl⟩
    | false =>
      cases hmove
      exact ⟨none, [], hstore, { hset with }, fun hsome => absurd hsome hnone, rfl, rfl, rfl, rfl⟩

theorem Listed.of_keeps (h : u.Listed last) (hkeeps : Keeps u u')
    (hinst : ∀ j, (u'.entries j).inst = (u.entries j).inst) : u'.Listed last :=
  h.filter (P := fun _ => true) (by simp [hkeeps.instList]) (by simp [hkeeps.memDepHash]) hinst

/-- What a squash leaves: the instructions up to the number, and a barrier flag unless it
is for one of the others. -/
structure Squashed (u u' : MemDepUnit σ) (n : Nat) : Prop where
  marks : Marks u u' [] []
  hash : ∀ sn, sn ∈ u'.memDepHash ↔ sn ∈ u.memDepHash ∧ sn ≤ n
  loadBarrierSN : u'.loadBarrierSN = u.loadBarrierSN
  storeBarrierSN : u'.storeBarrierSN = u.storeBarrierSN
  loadBarrier : u.loadBarrierSN ≤ n → u'.loadBarrier = u.loadBarrier
  storeBarrier : u.storeBarrierSN ≤ n → u'.storeBarrier = u.storeBarrier

theorem squashInst_spec (h : u.squashInst inst = .ok u') :
    Marks u u' [] [] ∧ (∀ sn, sn ∈ u'.memDepHash ↔ sn ∈ u.memDepHash ∧ sn ≠ inst.seqNum) ∧
      u'.loadBarrierSN = u.loadBarrierSN ∧ u'.storeBarrierSN = u.storeBarrierSN ∧
      (u.loadBarrierSN ≠ inst.seqNum → u'.loadBarrier = u.loadBarrier) ∧
      (u.storeBarrierSN ≠ inst.seqNum → u'.storeBarrier = u.storeBarrier) := by
  replace h := of_guard h
  cases h
  have hset : Marks u (u.setEntry inst.seqNum { u.entries inst.seqNum with squashed := true }) [] [] :=
    Marks.setEntry rfl (fun _ => id) .inl
  refine ⟨hset.trans (.of_entries rfl (fun n hn => mem_of_mem_filter hn) (by simp [setEntry])),
    fun sn => ?_, rfl, rfl, fun hne => ?_, fun hne => ?_⟩
  · simp
  · simp [hne]
  · simp [hne]

theorem all_le_of_sorted {l : List MemDepInst} (hsorted : ∀ j ∈ l, i.seqNum > j.seqNum)
    (hge : ¬ n < i.seqNum) :
    ∀ j ∈ i :: l, j.seqNum ≤ n :=
  forall_mem_cons.mpr ⟨not_lt.mp hge, fun j hj => (hsorted j hj).le.trans (not_lt.mp hge)⟩

theorem squashBack_spec (hsorted : l.Pairwise (·.seqNum > ·.seqNum))
    (hhash : ∀ sn ∈ u.memDepHash, n < sn → ∃ i ∈ l, i.seqNum = sn) (h : squashBack n u l = .ok u') :
    Squashed u u' n ∧ u'.instList = (l.filter (·.seqNum ≤ n)).reverse := by
  induction l generalizing u with
  | nil =>
    cases h
    refine ⟨⟨.of_entries rfl (fun _ => id) (by simp),
      fun sn => ⟨fun hsn => ⟨hsn, ?_⟩, And.left⟩, rfl, rfl, fun _ => rfl, fun _ => rfl⟩, rfl⟩
    by_contra hlt
    simpa using hhash sn hsn (not_le.mp hlt)
  | cons i l ih =>
    rw [pairwise_cons] at hsorted
    unfold squashBack at h
    split at h
    · rename_i hlt
      obtain ⟨u1, hone, h⟩ := bind_eq_ok.mp h
      obtain ⟨hmarks1, hhash1, hloadSN, hstoreSN, hload, hstore⟩ := squashInst_spec hone
      have hrest : ∀ sn ∈ u1.memDepHash, n < sn → ∃ j ∈ l, j.seqNum = sn := by
        intro sn hsn hlt'
        obtain ⟨hold, hne⟩ := (hhash1 sn).mp hsn
        obtain ⟨j, hj, rfl⟩ := hhash sn hold hlt'
        rcases mem_cons.mp hj with rfl | hj
        · exact absurd rfl hne
        · exact ⟨j, hj, rfl⟩
      obtain ⟨hsq, hlist⟩ := ih hsorted.2 hrest h
      refine ⟨⟨hmarks1.trans hsq.marks, fun sn => ?_, hsq.loadBarrierSN.trans hloadSN,
        hsq.storeBarrierSN.trans hstoreSN, fun hle => ?_, fun hle => ?_⟩, ?_⟩
      · rw [hsq.hash, hhash1]
        refine ⟨fun ⟨⟨hold, _⟩, hle⟩ => ⟨hold, hle⟩, fun ⟨hold, hle⟩ => ⟨⟨hold, ?_⟩, hle⟩⟩
        rintro rfl
        exact absurd hle (not_le.mpr hlt)
      · rw [hsq.loadBarrier (hloadSN.symm ▸ hle), hload (hle.trans_lt hlt).ne]
      · rw [hsq.storeBarrier (hstoreSN.symm ▸ hle), hstore (hle.trans_lt hlt).ne]
      · rw [hlist, filter_cons_of_neg (by simpa using hlt)]
    · rename_i hge
      cases h
      have hall := all_le_of_sorted hsorted.1 hge
      refine ⟨⟨.of_entries rfl (fun _ => id) (by simp),
        fun sn => ⟨fun hsn => ⟨hsn, ?_⟩, And.left⟩, rfl, rfl, fun _ => rfl, fun _ => rfl⟩, ?_⟩
      · by_contra hlt
        obtain ⟨j, hj, rfl⟩ := hhash sn hsn (not_le.mp hlt)
        exact hlt (hall j hj)
      · rw [filter_eq_self.mpr fun j hj => decide_eq_true (hall j hj)]

theorem squash_spec (hlisted : u.Listed last) (h : u.squash n = .ok u') :
    Squashed u u' n ∧ u'.Listed last := by
  obtain ⟨u1, hback, h⟩ := bind_eq_ok.mp h
  obtain ⟨_, -, h⟩ := bind_eq_ok.mp h
  cases h
  have hmem : ∀ sn ∈ u.memDepHash, n < sn → ∃ i ∈ u.instList.reverse, i.seqNum = sn := by
    intro sn hsn _
    obtain ⟨i, hi, rfl⟩ := (hlisted.hash sn).mp hsn
    exact ⟨i, mem_reverse.mpr hi, rfl⟩
  obtain ⟨hsq, hlist⟩ := squashBack_spec (pairwise_reverse.mpr hlisted.sorted) hmem hback
  rw [filter_reverse, reverse_reverse] at hlist
  refine ⟨{ hsq with marks := hsq.marks.trans (.of_entries rfl (fun _ => id) (by simp)) },
    hlisted.filter (P := fun sn => sn ≤ n) hlist ?_ hsq.marks.inst⟩
  intro sn
  rw [decide_eq_true_iff]
  exact hsq.hash sn

end MemDepUnit

end Gem5
