import Mathlib.Tactic

/-!
# Counting samples

A sample is a value that was seen a number of times. A tally is how often values with some
property were seen; the tallies of properties that exclude each other add up.
-/

namespace Lib

variable {s : Int × Nat} {samples : List (Int × Nat)} {p q : Int → Prop}
  [DecidablePred p] [DecidablePred q]

def tally (samples : List (Int × Nat)) (p : Int → Prop) [DecidablePred p] : Nat :=
  (samples.map fun s => if p s.1 then s.2 else 0).sum

theorem tally_cons : tally (s :: samples) p = (if p s.1 then s.2 else 0) + tally samples p := by
  rw [tally, List.map_cons, List.sum_cons, tally]

theorem tally_concat :
    tally (samples ++ [s]) p = tally samples p + if p s.1 then s.2 else 0 := by
  rw [tally, List.map_append, List.sum_append, ← tally, List.map_singleton, List.sum_singleton]

theorem tally_or (h : ∀ v, p v → ¬ q v) :
    tally samples p + tally samples q = tally samples (fun v => p v ∨ q v) := by
  induction samples with
  | nil => rfl
  | cons s samples ih =>
    have := h s.1
    rw [tally_cons, tally_cons, tally_cons, ← ih]
    split_ifs <;> first | omega | tauto

theorem tally_congr (h : ∀ s ∈ samples, s.2 = 0 ∨ (p s.1 ↔ q s.1)) :
    tally samples p = tally samples q := by
  induction samples with
  | nil => rfl
  | cons s samples ih =>
    rw [tally_cons, tally_cons, ih fun t ht => h t (List.mem_cons_of_mem s ht)]
    rcases h s List.mem_cons_self with hzero | hiff
    · rw [hzero, ite_self, ite_self]
    · rw [if_congr hiff rfl rfl]

theorem tally_eq_zero (h : ∀ s ∈ samples, s.2 = 0 ∨ ¬ p s.1) : tally samples p = 0 := by
  rw [tally_congr (q := fun _ => False) fun s hs => (h s hs).imp_right iff_false_intro]
  exact List.sum_eq_zero fun n hn => by
    obtain ⟨s, -, rfl⟩ := List.mem_map.mp hn
    exact if_neg not_false

theorem tally_le : tally samples p ≤ (samples.map Prod.snd).sum := by
  refine List.sum_le_sum fun s _ => ?_
  split_ifs
  · exact le_rfl
  · exact Nat.zero_le _

theorem sum_tally (index : Int → Int) (n : Nat)
    (h : ∀ s ∈ samples, s.2 = 0 ∨ 0 ≤ index s.1 ∧ index s.1 < n) :
    ∑ i ∈ Finset.range n, tally samples (index · = i) = (samples.map Prod.snd).sum := by
  induction samples with
  | nil => exact Finset.sum_eq_zero fun i _ => rfl
  | cons s samples ih =>
    simp only [tally_cons, Finset.sum_add_distrib, List.map_cons, List.sum_cons]
    rw [ih fun t ht => h t (List.mem_cons_of_mem s ht)]
    congr 1
    rcases h s List.mem_cons_self with hzero | ⟨hge, hlt⟩
    · simp [hzero]
    · obtain ⟨j, hj⟩ := Int.eq_ofNat_of_zero_le hge
      rw [hj] at hlt ⊢
      simp only [Nat.cast_inj]
      rw [Finset.sum_ite_eq, if_pos (Finset.mem_range.mpr (by exact_mod_cast hlt))]

end Lib
