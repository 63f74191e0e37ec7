import Mathlib.Tactic

/-!
# Handing over along a list

Something is passed on from each element of a list to the one behind it. The list shrinks
at the front, where the thing is, and grows at the back.
-/

namespace Lib

open List

variable {α : Type*} [DecidableEq α] {l : List α} {x y : α}

def successor : List α → α → Option α
  | a :: b :: rest, x => if a = x then some b else successor (b :: rest) x
  | _, _ => none

@[simp] theorem successor_nil : successor [] x = none := rfl

@[simp] theorem successor_singleton : successor [y] x = none := rfl

theorem successor_cons_self : successor (x :: l) x = l.head? := by
  cases l with
  | nil => rfl
  | cons b rest => simp [successor]

theorem successor_cons_of_ne (h : y ≠ x) : successor (y :: l) x = successor l x := by
  cases l with
  | nil => rfl
  | cons b rest => simp [successor, h]

theorem successor_of_notMem (h : x ∉ l) : successor l x = none := by
  induction l with
  | nil => rfl
  | cons a l ih =>
    rw [mem_cons, not_or] at h
    rw [successor_cons_of_ne (Ne.symm h.1), ih h.2]

theorem successor_of_getLast? (hl : l.Nodup) (h : l.getLast? = some x) : successor l x = none := by
  induction l with
  | nil => rfl
  | cons a l ih =>
    obtain ⟨ha, hl⟩ := nodup_cons.mp hl
    cases l with
    | nil => rfl
    | cons b rest =>
      rw [List.getLast?_cons_cons] at h
      have hne : a ≠ x := fun heq => ha (heq ▸ mem_of_getLast? h)
      rw [successor_cons_of_ne hne, ih hl h]

theorem mem_of_successor (h : successor l x = some y) : x ∈ l ∧ y ∈ l.tail := by
  induction l with
  | nil => simp at h
  | cons a l ih =>
    rcases eq_or_ne a x with rfl | hne
    · rw [successor_cons_self] at h
      exact ⟨mem_cons_self, mem_of_mem_head? h⟩
    · rw [successor_cons_of_ne hne] at h
      exact ⟨mem_cons_of_mem _ (ih h).1, mem_of_mem_tail (ih h).2⟩

theorem successor_ne_none (hx : x ∈ l) (hlast : l.getLast? ≠ some x) : successor l x ≠ none := by
  induction l with
  | nil => simp at hx
  | cons a l ih =>
    cases l with
    | nil => simp_all
    | cons b rest =>
      rw [List.getLast?_cons_cons] at hlast
      rcases eq_or_ne a x with rfl | hne
      · simp [successor]
      · rw [successor_cons_of_ne hne]
        exact ih ((mem_cons.mp hx).resolve_left (Ne.symm hne)) hlast

omit [DecidableEq α] in
theorem eq_singleton (hl : l.Nodup) (hhead : l.head? = some x)
    (hlast : l.getLast? = some x) : l = [x] := by
  cases l with
  | nil => simp at hhead
  | cons a l =>
    cases hhead
    cases l with
    | nil => rfl
    | cons b rest =>
      rw [List.getLast?_cons_cons] at hlast
      exact absurd (mem_of_getLast? hlast) (nodup_cons.mp hl).1

theorem successor_concat (hl : l.Nodup) (hy : y ∉ l) :
    successor (l ++ [y]) x = if l.getLast? = some x then some y else successor l x := by
  induction l with
  | nil => rfl
  | cons a l ih =>
    obtain ⟨ha, hl⟩ := nodup_cons.mp hl
    rw [mem_cons, not_or] at hy
    cases l with
    | nil => simp [successor]
    | cons b rest =>
      rw [List.getLast?_cons_cons, cons_append]
      rcases eq_or_ne a x with rfl | hne
      · have hlast : (b :: rest).getLast? ≠ some a := fun h => ha (mem_of_getLast? h)
        rw [successor_cons_self, successor_cons_self, if_neg hlast]
        rfl
      · rw [successor_cons_of_ne hne, successor_cons_of_ne hne, ih hl hy.2]

end Lib
