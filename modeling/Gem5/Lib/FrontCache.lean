import Mathlib.Tactic

/-!
# A small cache in front of a map

The cache is a list of keys with values, the newest first. A key is looked up in the order
of the list, so that what is put in front hides what was there under the same key.
-/

namespace Lib

variable {κ α : Type*} [DecidableEq κ] {cache : List (κ × α)} {k k' : κ} {a b : α} {n : Nat}

def hit (cache : List (κ × α)) (k : κ) : Option α := (cache.find? (·.1 = k)).map Prod.snd

def pushFront (n : Nat) (cache : List (κ × α)) (k : κ) (a : α) : List (κ × α) := (k, a) :: cache.take n

theorem hit_pushFront_self : hit (pushFront n cache k a) k = some a := by
  simp [hit, pushFront]

theorem hit_pushFront_of_ne (hne : k' ≠ k) (h : hit (pushFront n cache k a) k' = some b) :
    hit cache k' = some b := by
  rw [hit, pushFront, List.find?_cons_of_neg (by simpa using hne.symm), Option.map_eq_some_iff] at h
  obtain ⟨c, hc, rfl⟩ := h
  have hfind : cache.find? (·.1 = k') = some c :=
    List.IsPrefix.find?_eq_some (List.take_prefix n cache) hc
  rw [hit, hfind, Option.map_some]

theorem hit_pushFront_eq_none (hne : k' ≠ k) (h : hit cache k' = none) :
    hit (pushFront n cache k a) k' = none := by
  rw [Option.eq_none_iff_forall_ne_some]
  intro b hb
  rw [hit_pushFront_of_ne hne hb] at h
  nomatch h

end Lib
