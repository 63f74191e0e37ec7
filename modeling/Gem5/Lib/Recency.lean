import Mathlib.Tactic

/-!
# Least recently used

A bounded set of keys that remembers when each was last used. A key that
enters a full set displaces the one used least recently. `Recency.InOrder`
says that a list holds the keys from the most to the least recently used, which
is how such a set is usually kept.
-/

namespace Lib

structure Recency (κ : Type*) where
  lastUse : κ → Option Nat
  clock : Nat

inductive RecencyOp (κ : Type*)
  | touch (k : κ)
  | enter (k : κ)
  | drop (k : κ)

def RecencyOp.key {κ : Type*} : RecencyOp κ → κ
  | touch k | enter k | drop k => k

namespace Recency

variable {κ : Type*} {r : Recency κ} {k k' : κ} {l l₁ l₂ : List κ}

def empty : Recency κ := ⟨fun _ => none, 0⟩

def resident (r : Recency κ) : Set κ := {k | (r.lastUse k).isSome}

def time (r : Recency κ) (k : κ) : Nat := (r.lastUse k).getD 0

structure InOrder (r : Recency κ) (l : List κ) : Prop where
  mem : ∀ k, k ∈ l ↔ k ∈ r.resident
  sorted : l.Pairwise fun a b => r.time b < r.time a
  past : ∀ k ∈ l, r.time k < r.clock

theorem InOrder.empty : (empty : Recency κ).InOrder [] :=
  ⟨fun k => by simp [Recency.empty, resident], .nil, nofun⟩

theorem InOrder.nodup (h : r.InOrder l) : l.Nodup :=
  h.sorted.imp fun hab heq => by
    subst heq
    exact Nat.lt_irrefl _ hab

def Oldest (r : Recency κ) (k : κ) : Prop :=
  k ∈ r.resident ∧ ∀ k' ∈ r.resident, r.time k ≤ r.time k'

theorem InOrder.oldest (h : r.InOrder (l ++ [k])) : r.Oldest k := by
  refine ⟨(h.mem k).mp (by simp), fun a ha => ?_⟩
  rcases List.mem_append.mp ((h.mem a).mpr ha) with ha | ha
  · exact ((List.pairwise_append.mp h.sorted).2.2 a ha k (List.mem_singleton_self k)).le
  · rw [List.mem_singleton.mp ha]

variable [DecidableEq κ]

def use (r : Recency κ) (k : κ) : Recency κ :=
  ⟨Function.update r.lastUse k (some r.clock), r.clock + 1⟩

def drop (r : Recency κ) (k : κ) : Recency κ :=
  ⟨Function.update r.lastUse k none, r.clock⟩

def Step (capacity : Nat) (r : Recency κ) : RecencyOp κ → Recency κ → Prop
  | .touch k, r' => k ∈ r.resident ∧ r' = r.use k ∨ k ∉ r.resident ∧ r' = r
  | .enter k, r' => k ∉ r.resident ∧
      (r.resident.ncard < capacity ∧ r' = r.use k ∨
        r.resident.ncard = capacity ∧ ∃ v, r.Oldest v ∧ r' = (r.drop v).use k)
  | .drop k, r' => k ∈ r.resident ∧ r' = r.drop k

def StepAt (capacity : Nat) (place : κ → Nat) (family : Nat → Recency κ) (op : RecencyOp κ)
    (family' : Nat → Recency κ) : Prop :=
  ∃ r, Step capacity (family (place op.key)) op r ∧
    family' = Function.update family (place op.key) r

theorem Step.stepAt {family : Nat → Recency κ} (h : Step capacity (family i) op r)
    (hplace : place op.key = i) :
    StepAt capacity place family op (Function.update family i r) := by
  subst hplace
  exact ⟨r, h, rfl⟩

theorem InOrder.ncard (h : r.InOrder l) : r.resident.ncard = l.length := by
  have hset : r.resident = (l.toFinset : Set κ) := by
    ext k
    simp [h.mem k]
  rw [hset, Set.ncard_coe_finset, List.toFinset_card_of_nodup h.nodup]

theorem time_use_self : (r.use k).time k = r.clock := by simp [time, use]

theorem time_use_of_ne (h : k' ≠ k) : (r.use k).time k' = r.time k' := by
  simp [time, use, Function.update_of_ne h]

theorem time_drop_of_ne (h : k' ≠ k) : (r.drop k).time k' = r.time k' := by
  simp [time, drop, Function.update_of_ne h]

theorem mem_resident_use : k' ∈ (r.use k).resident ↔ k' = k ∨ k' ∈ r.resident := by
  by_cases h : k' = k
  · subst h
    simp [resident, use]
  · simp [resident, use, h]

theorem mem_resident_drop : k' ∈ (r.drop k).resident ↔ k' ≠ k ∧ k' ∈ r.resident := by
  by_cases h : k' = k
  · subst h
    simp [resident, drop]
  · simp [resident, drop, h]

theorem InOrder.drop (h : r.InOrder (l₁ ++ k :: l₂)) : (r.drop k).InOrder (l₁ ++ l₂) := by
  have hperm : (l₁ ++ k :: l₂).Perm (k :: (l₁ ++ l₂)) := List.perm_middle
  have hnot : k ∉ l₁ ++ l₂ := (List.nodup_cons.mp (hperm.nodup_iff.mp h.nodup)).1
  have hne : ∀ a ∈ l₁ ++ l₂, a ≠ k := by
    rintro a ha rfl
    exact hnot ha
  have hsub : (l₁ ++ l₂).Sublist (l₁ ++ k :: l₂) :=
    (List.Sublist.refl _).append (List.sublist_cons_self ..)
  refine ⟨fun a => ?_, ?_, fun a ha => ?_⟩
  · rw [mem_resident_drop, ← h.mem a, hperm.mem_iff, List.mem_cons]
    constructor
    · exact fun ha => ⟨hne a ha, .inr ha⟩
    · exact fun ⟨hak, ha⟩ => ha.resolve_left hak
  · refine (h.sorted.sublist hsub).imp_of_mem fun {a b} ha hb hab => ?_
    rw [time_drop_of_ne (hne a ha), time_drop_of_ne (hne b hb)]
    exact hab
  · rw [time_drop_of_ne (hne a ha)]
    exact h.past a (hsub.subset ha)

theorem InOrder.enter (h : r.InOrder l) (hk : k ∉ l) : (r.use k).InOrder (k :: l) := by
  have hne : ∀ a ∈ l, a ≠ k := by
    rintro a ha rfl
    exact hk ha
  refine ⟨fun a => ?_, List.pairwise_cons.mpr ⟨fun a ha => ?_, ?_⟩, fun a ha => ?_⟩
  · rw [mem_resident_use, List.mem_cons, h.mem a]
  · rw [time_use_of_ne (hne a ha), time_use_self]
    exact h.past a ha
  · refine h.sorted.imp_of_mem fun {a b} ha hb hab => ?_
    rw [time_use_of_ne (hne a ha), time_use_of_ne (hne b hb)]
    exact hab
  · rcases List.mem_cons.mp ha with rfl | ha
    · rw [time_use_self]
      exact Nat.lt_succ_self _
    · rw [time_use_of_ne (hne a ha)]
      exact (h.past a ha).trans (Nat.lt_succ_self _)

theorem use_drop : (r.drop k).use k = r.use k := by
  simp [use, Recency.drop]

end Recency

end Lib
