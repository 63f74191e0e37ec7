import Gem5.Lib.Check

/-!
# Loops

Loops whose rounds can fault. A `while` loop has a bound on its rounds; where every round
lowers a measure, a bound above the measure is never used up. A `for` loop over the first
numbers or over a list keeps what each of its rounds keeps.
-/

namespace Lib

variable {σ : Type*} (more : σ → Prop) [DecidablePred more] (body : σ → Chk σ)

def whileChk : Nat → σ → Chk σ
  | 0, _ => .error .fuel
  | fuel + 1, s => if more s then body s >>= whileChk fuel else return s

/-- The loop returns, with its invariant and without its condition. -/
theorem whileChk_spec (P : σ → Prop) (measure : σ → Nat)
    (hbody : ∀ s, P s → more s → ∃ s', body s = .ok s' ∧ P s' ∧ measure s' < measure s) :
    ∀ (fuel : Nat) (s : σ), P s → measure s < fuel → ∃ s', whileChk more body fuel s = .ok s' ∧
      P s' ∧ ¬ more s' := by
  intro fuel
  induction fuel with
  | zero =>
    intro s _ hlt
    exact absurd hlt (Nat.not_lt_zero _)
  | succ fuel ih =>
    intro s hP hlt
    rw [whileChk]
    by_cases hmore : more s
    · obtain ⟨s', heq, hP', hless⟩ := hbody s hP hmore
      rw [if_pos hmore, heq, ok_bind]
      exact ih s' hP' (hless.trans_le (Nat.lt_succ_iff.mp hlt))
    · rw [if_neg hmore]
      exact ⟨s, rfl, hP, hmore⟩

section For

variable {τ : Type u} {step : τ → Nat → Chk τ} {P : Nat → τ → Prop} {E : Fault → Prop} {t : τ}

theorem Meets.forRange (hstep : ∀ i < n, ∀ t, P i t → Meets (P (i + 1)) E (step t i)) (h : P 0 t) :
    Meets (P n) E ((List.range n).foldlM step t) := by
  induction n with
  | zero => exact .pure h
  | succ n ih =>
    rw [List.range_succ, List.foldlM_append]
    refine (ih fun i hi => hstep i (hi.trans n.lt_succ_self)).bind fun t ht => ?_
    rw [List.foldlM_cons]
    exact (hstep n n.lt_succ_self t ht).bind fun t ht => .pure ht

theorem Meets.forList {α : Type*} {step : τ → α → Chk τ} {P : List α → τ → Prop} {l : List α}
    (hstep : ∀ before, ∀ a ∈ l, ∀ t, P before t → Meets (P (before ++ [a])) E (step t a))
    (h : P [] t) :
    Meets (P l) E (l.foldlM step t) := by
  induction l using List.reverseRecOn with
  | nil => exact .pure h
  | append_singleton l a ih =>
    rw [List.foldlM_append]
    refine (ih fun before b hb => hstep before b (List.mem_append_left _ hb)).bind fun t ht => ?_
    rw [List.foldlM_cons]
    exact (hstep l a (List.mem_append_right _ (List.mem_singleton_self a)) t ht).bind
      fun t ht => .pure ht

end For

end Lib
