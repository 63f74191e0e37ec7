import Mathlib.Tactic

/-!
# Walks with a cost

A step leads from one vertex to another at a cost; a walk is a list of steps, each from
where the one before it ends, and costs what its steps cost together. Two weights of the
cost matter: one that no step makes smaller bounds the length of a walk, and a distance
with the triangle inequality that is below every single step is below every walk.
-/

namespace Lib

inductive Walk {V α : Type*} [AddMonoid α] (step : V → V → α → Prop) : V → V → Nat → α → Prop
  | nil (i : V) : Walk step i i 0 0
  | cons : step i k c → Walk step k j n d → Walk step i j (n + 1) (c + d)

variable {V α : Type*} [AddMonoid α] {step step' : V → V → α → Prop} {i j k : V} {m n : Nat} {c d : α}

namespace Walk

theorem single (h : step i j c) : Walk step i j 1 c := by
  have hw := cons h (nil j)
  rwa [add_zero] at hw

theorem append (h : Walk step i k m c) (h' : Walk step k j n d) : Walk step i j (m + n) (c + d) := by
  induction h with
  | nil => rwa [Nat.zero_add, zero_add]
  | cons hs _ ih =>
    have hw := cons hs (ih h')
    rwa [← add_assoc, Nat.add_right_comm] at hw

theorem eq_of_zero (h : Walk step i j 0 c) : i = j ∧ c = 0 := by
  cases h with
  | nil => exact ⟨rfl, rfl⟩

theorem pos_of_ne (h : Walk step i j n c) (hne : i ≠ j) : 0 < n := by
  cases h with
  | nil => exact absurd rfl hne
  | cons => exact Nat.succ_pos _

theorem first (h : Walk step i j n c) (hne : i ≠ j) :
    ∃ k c1 m c2, step i k c1 ∧ Walk step k j m c2 ∧ c = c1 + c2 := by
  cases h with
  | nil => exact absurd rfl hne
  | cons hs hw => exact ⟨_, _, _, _, hs, hw, rfl⟩

section Weights

variable (weight : α →+ Int) {size bound : Int}

variable (h : Walk step i j n c)
include h

theorem weight_nonneg (hstep : ∀ i j c, step i j c → 0 ≤ weight c) : 0 ≤ weight c := by
  induction h with
  | nil => rw [map_zero]
  | cons hs _ ih =>
    rw [map_add]
    exact add_nonneg (hstep _ _ _ hs) ih

theorem length_le (hstep : ∀ i j c, step i j c → 1 ≤ weight c) : n ≤ weight c := by
  induction h with
  | nil => rw [map_zero, Nat.cast_zero]
  | cons hs _ ih =>
    rw [map_add]
    push_cast
    linarith [hstep _ _ _ hs]

theorem abs_le (hstep : ∀ i j c, step i j c → |weight c| ≤ size) : |weight c| ≤ n * size := by
  induction h with
  | nil => simp
  | @cons i k c j n d hs _ ih =>
    rw [map_add]
    push_cast
    linarith [abs_add_le (weight c) (weight d), hstep _ _ _ hs]

theorem of_below (hstep : ∀ i j c, step i j c → 0 ≤ weight c) (hlt : weight c < bound)
    (hsub : ∀ i j c, step i j c → weight c < bound → step' i j c) : Walk step' i j n c := by
  induction h with
  | nil => exact nil _
  | cons hs hw ih =>
    rw [map_add] at hlt
    have hfirst := hstep _ _ _ hs
    have hrest := hw.weight_nonneg weight hstep
    exact cons (hsub _ _ _ hs (by linarith)) (ih (by linarith))

theorem dist_le {dist : V → V → Int} (hn : 0 < n)
    (hstep : ∀ i j c, step i j c → dist i j ≤ weight c)
    (htriangle : ∀ i j k, dist i j ≤ dist i k + dist k j) :
    dist i j ≤ weight c := by
  induction h with
  | nil => exact absurd hn (lt_irrefl 0)
  | @cons i k c j n d hs hw ih =>
    rw [map_add]
    cases n with
    | zero =>
      obtain ⟨rfl, rfl⟩ := hw.eq_of_zero
      rw [map_zero, add_zero]
      exact hstep _ _ _ hs
    | succ n => linarith [htriangle i j k, hstep _ _ _ hs, ih n.succ_pos]

end Weights

end Walk

theorem reaches_of_decreasing (goal : V → Prop) (dist : V → Int) {route : Nat → V}
    (hpos : ∀ v, 0 ≤ dist v) (hroute : ∀ t, goal (route t) ∨
      dist (route (t + 1)) < dist (route t)) : ∃ t, goal (route t) := by
  by_contra hnever
  rw [not_exists] at hnever
  have hfall : ∀ t : Nat, dist (route t) + t ≤ dist (route 0) := by
    intro t
    induction t with
    | zero => simp
    | succ t ih =>
      have hlt := (hroute t).resolve_left (hnever t)
      push_cast
      linarith
  have hend := hfall ((dist (route 0)).toNat + 1)
  have hcast := Int.toNat_of_nonneg (hpos (route 0))
  push_cast at hend
  linarith [hpos (route ((dist (route 0)).toNat + 1))]

end Lib
