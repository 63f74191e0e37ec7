import Gem5.Lib.Check

/-!
# Linked lists

A pointer structure is a function `next` from a cell to the cell it points
to. `Linked next p l` says that following `next` from `p` visits the cells of
`l`, in order, and ends.
-/

namespace Lib

def Linked (next : α → Option α) : Option α → List α → Prop
  | p, [] => p = none
  | p, x :: l => p = some x ∧ Linked next (next x) l

namespace Linked

variable {α : Type*} {next next' : α → Option α} {p : Option α} {x : α} {l : List α}

@[simp] theorem nil_iff : Linked next p [] ↔ p = none := .rfl

@[simp] theorem cons_iff : Linked next p (x :: l) ↔ p = some x ∧ Linked next (next x) l := .rfl

theorem congr (h : Linked next p l) (hl : ∀ x ∈ l, next' x = next x) : Linked next' p l := by
  induction l generalizing p with
  | nil => exact h
  | cons x l ih =>
    refine ⟨h.1, ?_⟩
    rw [hl x List.mem_cons_self]
    exact ih h.2 fun y hy => hl y (List.mem_cons_of_mem _ hy)

variable [DecidableEq α]

theorem unlink (h : Linked next p (c :: x :: l)) (hc : c ∉ l) :
    Linked (Function.update next c (next x)) p (c :: l) := by
  refine ⟨h.1, ?_⟩
  rw [Function.update_self]
  exact h.2.2.congr fun y hy => Function.update_of_ne (by rintro rfl; exact hc hy) ..

end Linked

end Lib
