import Mathlib.Tactic

/-!
# Regions of a partial map

A region is the first so many keys of a numbering. Its keys are given values, are taken out
of the map, or are moved to the keys of another region, all at once; doing that one key
after the other comes to the same as long as no key is in the way of a later one.
-/

namespace Lib

open Function

variable {κ α : Type*} [DecidableEq κ] {keys old new : Nat → κ} {n : Nat}
  {value : Nat → α} {f : κ → α → α} {m : κ → Option α} {k : κ} {a : α}

def regionIndex (keys : Nat → κ) (n : Nat) (k : κ) : Option Nat := (List.range n).find? (keys · = k)

def assign (keys : Nat → κ) (n : Nat) (value : Nat → α) (m : κ → Option α) (k : κ) : Option α :=
  match regionIndex keys n k with
  | some i => some (value i)
  | none => m k

def clear (keys : Nat → κ) (n : Nat) (m : κ → Option α) (k : κ) : Option α :=
  match regionIndex keys n k with
  | some _ => none
  | none => m k

def move (old new : Nat → κ) (n : Nat) (f : κ → α → α) (m : κ → Option α) (k : κ) : Option α :=
  match regionIndex new n k with
  | some i => (m (old i)).map (f k)
  | none => clear old n m k

theorem regionIndex_eq_none : regionIndex keys n k = none ↔ ∀ i < n, keys i ≠ k := by
  simp [regionIndex]

theorem regionIndex_eq_some (h : regionIndex keys n k = some i) : i < n ∧ keys i = k := by
  have hmem := List.mem_of_find?_eq_some h
  have hkey := List.find?_some h
  exact ⟨List.mem_range.mp hmem, by simpa using hkey⟩

theorem regionIndex_succ_self (h : ∀ i < n, keys i ≠ keys n) :
    regionIndex keys (n + 1) (keys n) = some n := by
  have hnone : (List.range n).find? (keys · = keys n) = none := regionIndex_eq_none.mpr h
  simp [regionIndex, List.range_succ, hnone]

theorem regionIndex_succ_of_ne (h : keys n ≠ k) :
    regionIndex keys (n + 1) k = regionIndex keys n k := by
  simp [regionIndex, List.range_succ, h]

theorem assign_succ (h : ∀ i < n, keys i ≠ keys n) :
    assign keys (n + 1) value m = update (assign keys n value m) (keys n) (some (value n)) := by
  funext k
  rw [update_apply]
  split
  · subst k
    rw [assign, regionIndex_succ_self h]
  · rename_i hk
    rw [assign, regionIndex_succ_of_ne (Ne.symm hk), assign]

theorem clear_succ : clear keys (n + 1) m = update (clear keys n m) (keys n) none := by
  funext k
  rw [update_apply]
  split
  · subst k
    rw [clear]
    cases hi : regionIndex keys (n + 1) (keys n) with
    | none => exact absurd rfl (regionIndex_eq_none.mp hi n n.lt_succ_self)
    | some i => rfl
  · rename_i hk
    rw [clear, regionIndex_succ_of_ne (Ne.symm hk), clear]

theorem move_succ (hnew : ∀ i < n, new i ≠ new n) (hold : ∀ i ≤ n, new i ≠ old n) :
    move old new (n + 1) f m =
      update (update (move old new n f m) (old n) none) (new n) ((m (old n)).map (f (new n))) := by
  funext k
  rw [update_apply]
  split
  · subst k
    rw [move, regionIndex_succ_self hnew]
  · rename_i hk
    rw [move, regionIndex_succ_of_ne (Ne.symm hk), clear_succ]
    by_cases hk' : k = old n
    · have hnone : regionIndex new n (old n) = none := regionIndex_eq_none.mpr fun i hi => hold i hi.le
      rw [hk', hnone, update_self, update_self]
    · rw [update_of_ne hk', update_of_ne hk', move]

theorem assign_of_ne (h : ∀ i < n, keys i ≠ k) : assign keys n value m k = m k := by
  rw [assign, regionIndex_eq_none.mpr h]

theorem clear_of_ne (hold : ∀ i < n, old i ≠ k) : clear old n m k = m k := by
  rw [clear, regionIndex_eq_none.mpr hold]

theorem move_of_ne (hnew : ∀ i < n, new i ≠ k) (hold : ∀ i < n, old i ≠ k) :
    move old new n f m k = m k := by
  rw [move, regionIndex_eq_none.mpr hnew]
  exact clear_of_ne hold

theorem assign_eq_some (h : assign keys n value m k = some a) :
    (∃ i < n, a = value i) ∨ m k = some a := by
  rw [assign] at h
  cases hi : regionIndex keys n k with
  | none => exact .inr (by rwa [hi] at h)
  | some i =>
    rw [hi] at h
    exact .inl ⟨i, (regionIndex_eq_some hi).1, (Option.some.inj h).symm⟩

theorem clear_eq_some (h : clear keys n m k = some a) : m k = some a := by
  rw [clear] at h
  cases hi : regionIndex keys n k with
  | none => rwa [hi] at h
  | some i => rw [hi] at h; nomatch h

theorem move_eq_some (h : move old new n f m k = some a) :
    (∃ k' b, m k' = some b ∧ a = f k b) ∨ m k = some a := by
  rw [move] at h
  cases hi : regionIndex new n k with
  | none => exact .inr (clear_eq_some (by rwa [hi] at h))
  | some i =>
    rw [hi] at h
    obtain ⟨b, hb, rfl⟩ := Option.map_eq_some_iff.mp h
    exact .inl ⟨old i, b, hb, rfl⟩

end Lib
