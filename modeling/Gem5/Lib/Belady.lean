import Mathlib.Tactic

/-!
# Optimal replacement

A cache of `k` frames that fetches a block when it is requested and not before.
`Serves` counts the misses of any such cache, whatever it replaces; `Farthest`
of one that replaces a block whose next request is farthest away. The latter
has no more misses than the former.

The proof counts, for every horizon, the resident blocks requested before it.
The other cache can be ahead in this count by at most as many blocks as it has
had more misses.
-/

namespace Lib

open Finset

variable {α : Type*} [DecidableEq α] {σ : Type*} [DecidableEq σ]

/-- Serving the request `a` turns the blocks `C` into others, with so many misses. -/
inductive Serve (k : Nat) (C : Finset α) (a : α) : Finset α → Nat → Prop
  | hit : a ∈ C → Serve k C a C 0
  | fetch : a ∉ C → C.card < k → Serve k C a (insert a C) 1
  | replace {v : α} : a ∉ C → C.card = k → v ∈ C → Serve k C a (insert a (C.erase v)) 1

inductive Serves (k : Nat) : Finset α → List α → Nat → Prop
  | nil : Serves k C [] 0
  | cons : Serve k C a C' c → Serves k C' reqs m → Serves k C (a :: reqs) (c + m)

inductive Farthest (k : Nat) : Finset α → List α → Nat → Prop
  | nil : Farthest k C [] 0
  | cons : Serve k C a C' c → (∀ v ∈ C, v ∉ C' → ∀ u ∈ C, reqs.idxOf u ≤ reqs.idxOf v) →
      Farthest k C' reqs m → Farthest k C (a :: reqs) (c + m)

inductive ServesSets (setOf : α → σ) (k : Nat) : (σ → Finset α) → List α → Nat → Prop
  | nil : ServesSets setOf k C [] 0
  | cons : Serve k (C (setOf a)) a D c →
      ServesSets setOf k (Function.update C (setOf a) D) reqs m →
      ServesSets setOf k C (a :: reqs) (c + m)

/-- How many blocks of `C` are requested within the next `t` requests; one that is
not requested again counts as requested after the last. -/
def soon (C : Finset α) (reqs : List α) (t : Nat) : Nat :=
  (C.filter fun x => reqs.idxOf x < t).card

variable {A A' B B' C C' : Finset α} {a v : α} {reqs : List α} {t k c d m n D : Nat}

theorem soon_zero : soon C reqs 0 = 0 := by simp [soon]

theorem soon_cons : soon C (a :: reqs) (t + 1) = (if a ∈ C then 1 else 0) + soon
    (C.erase a) reqs t := by
  have hfilter : (C.erase a).filter (fun x => reqs.idxOf x < t) =
      (C.filter fun x => (a :: reqs).idxOf x < t + 1).erase a := by
    ext x
    simp only [mem_filter, mem_erase, List.idxOf_cons]
    by_cases hx : a = x
    · simp [hx]
    · have hcond : (a == x) = false := by simpa using hx
      rw [hcond, cond_false, Nat.succ_lt_succ_iff]
      simp [Ne.symm hx]
  unfold soon
  rw [hfilter]
  by_cases ha : a ∈ C
  · have hmem : a ∈ C.filter fun x => (a :: reqs).idxOf x < t + 1 := by simp [ha]
    rw [if_pos ha, ← card_erase_add_one hmem, Nat.add_comm]
  · rw [if_neg ha, erase_eq_of_notMem (by simp [ha]), Nat.zero_add]

theorem soon_of_mem (h : a ∈ C) :
    soon C reqs t = soon (C.erase a) reqs t + if reqs.idxOf a < t then 1 else 0 := by
  unfold soon
  rw [filter_erase]
  by_cases ha : reqs.idxOf a < t
  · rw [if_pos ha, card_erase_add_one (by simp [h, ha])]
  · rw [if_neg ha, erase_eq_of_notMem (by simp [ha]), Nat.add_zero]

section

variable (h : Serve k C a C' c)
include h

theorem Serve.mem : a ∈ C' := by
  cases h with
  | hit ha => exact ha
  | fetch | replace => exact mem_insert_self ..

theorem Serve.card_le (hC : C.card ≤ k) : C'.card ≤ k := by
  cases h with
  | hit => exact hC
  | fetch ha hlt => rw [card_insert_of_notMem ha]; exact hlt
  | replace ha hk hv =>
    rw [card_insert_of_notMem fun hm => ha (mem_of_mem_erase hm), card_erase_add_one hv, hk]

theorem Serve.misses : c = if a ∈ C then 0 else 1 := by
  cases h with
  | hit ha => rw [if_pos ha]
  | fetch ha => rw [if_neg ha]
  | replace ha => rw [if_neg ha]

theorem Serve.erase_subset : C'.erase a ⊆ C.erase a := by
  cases h with
  | hit => exact subset_rfl
  | fetch => rw [erase_insert_eq_erase]
  | replace =>
    rw [erase_insert_eq_erase]
    exact erase_subset_erase _ (erase_subset ..)

theorem Serve.soon_farthest (hfar : ∀ v ∈ C, v ∉ C' → ∀ u ∈ C, reqs.idxOf u ≤ reqs.idxOf v) (t : Nat) :
    soon (C.erase a) reqs t ≤ soon (C'.erase a) reqs t ∨ k ≤ soon (C'.erase a) reqs t + 1 := by
  cases h with
  | hit => exact .inl le_rfl
  | fetch => rw [erase_insert_eq_erase]; exact .inl le_rfl
  | @replace v ha hk hv =>
    have hav : v ≠ a := by
      rintro rfl
      exact ha hv
    have hrest : (insert a (C.erase v)).erase a = C.erase v := by
      rw [erase_insert_eq_erase, erase_eq_of_notMem fun hm => ha (mem_of_mem_erase hm)]
    rw [hrest, erase_eq_of_notMem ha]
    by_cases ht : reqs.idxOf v < t
    · refine .inr ?_
      have hall : (C.erase v).filter (fun x => reqs.idxOf x < t) = C.erase v := by
        refine filter_true_of_mem fun u hu => lt_of_le_of_lt ?_ ht
        exact hfar v hv (by simp [hav]) u (mem_of_mem_erase hu)
      rw [soon, hall, card_erase_add_one hv, hk]
    · refine .inl ?_
      rw [soon_of_mem hv, if_neg ht, Nat.add_zero]

end

theorem soon_step (hA : Serve k A a A' c) (hB : Serve k B a B' d)
    (hfar : ∀ v ∈ A, v ∉ A' → ∀ u ∈ A, reqs.idxOf u ≤ reqs.idxOf v) (hBk : B.card ≤ k)
    (hD : ∀ t, soon B (a :: reqs) t ≤ soon A (a :: reqs) t + D) :
    c ≤ D + d ∧ ∀ t, soon B' reqs t + c ≤ soon A' reqs t + D + d := by
  have hahead : ∀ t, (if a ∈ B then 1 else 0) + soon (B.erase a) reqs t ≤
      (if a ∈ A then 1 else 0) + soon (A.erase a) reqs t + D := by
    intro t
    have := hD (t + 1)
    rwa [soon_cons, soon_cons] at this
  have h0 := hahead 0
  rw [soon_zero, soon_zero] at h0
  rw [hA.misses, hB.misses]
  constructor
  · split_ifs at h0 ⊢ <;> omega
  · intro t
    have ht := hahead t
    have hless : soon (B'.erase a) reqs t ≤ soon (B.erase a) reqs t :=
      card_le_card (filter_subset_filter _ hB.erase_subset)
    have hcard : soon (B'.erase a) reqs t + 1 ≤ k := by
      have h1 := card_erase_add_one hB.mem
      have h2 := hB.card_le hBk
      have h3 : soon (B'.erase a) reqs t ≤ (B'.erase a).card := card_filter_le ..
      omega
    have hmore := hA.soon_farthest hfar t
    rw [soon_of_mem hA.mem, soon_of_mem hB.mem]
    split_ifs at ht h0 ⊢ <;> omega

theorem Farthest.le_add (hA : Farthest k A reqs m) (hB : Serves k B reqs n) (hBk : B.card ≤ k)
    (hD : ∀ t, soon B reqs t ≤ soon A reqs t + D) : m ≤ n + D := by
  induction hA generalizing B n D with
  | nil => exact Nat.zero_le _
  | @cons A a A' c reqs m hstep hfar _ ih =>
    cases hB with
    | @cons _ _ B' d _ n hstepB hB =>
      obtain ⟨hc, hD'⟩ := soon_step hstep hstepB hfar hBk hD
      have := ih (D := D + d - c) hB (hstepB.card_le hBk) fun t => by
        have := hD' t
        omega
      omega

theorem Farthest.optimal (hA : Farthest k ∅ reqs m) (hB : Serves k (∅ : Finset α) reqs n) : m ≤ n :=
  hA.le_add (D := 0) hB (Nat.zero_le _) fun _ => le_rfl

theorem ServesSets.split {setOf : α → σ} {C : σ → Finset α} (h : ServesSets setOf k C reqs m) :
    ∃ ms : σ → Nat, (∀ s, Serves k (C s) (reqs.filter fun a => setOf a = s) (ms s)) ∧
      ∀ F : Finset σ, (∀ a ∈ reqs, setOf a ∈ F) → m = ∑ s ∈ F, ms s := by
  induction h with
  | nil => exact ⟨fun _ => 0, fun _ => .nil, fun F _ => by simp⟩
  | @cons C a D c reqs m hstep _ ih =>
    obtain ⟨ms, hserves, hsum⟩ := ih
    refine ⟨Function.update ms (setOf a) (c + ms (setOf a)), fun s => ?_, fun F hF => ?_⟩
    · by_cases hs : s = setOf a
      · subst hs
        have hrest := hserves (setOf a)
        rw [Function.update_self] at hrest ⊢
        rw [List.filter_cons_of_pos (by simp)]
        exact .cons hstep hrest
      · have hrest := hserves s
        rw [Function.update_of_ne hs] at hrest ⊢
        rw [List.filter_cons_of_neg (by simpa using Ne.symm hs)]
        exact hrest
    · have ha := hF a (by simp)
      rw [hsum F fun b hb => hF b (List.mem_cons_of_mem _ hb), sum_update_of_mem ha,
        sdiff_singleton_eq_erase, ← add_sum_erase F ms ha]
      omega

end Lib
