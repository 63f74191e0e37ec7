import Mathlib.Tactic

/-!
# Reservations

Contexts reserve places, one at a time, and lose them when somebody writes there.
`takes` is what an event reserves for whom, and `hits` the places it writes to.
-/

namespace Lib

section Reservation

variable {ε κ γ : Type*} (takes : ε → Option (κ × γ)) (hits : ε → γ → Prop)

def Leaves (e : ε) (c : κ) (g : γ) : Prop := ¬ hits e g ∧ ∀ p ∈ takes e, p.1 = c → p.2 = g

def Reserved (history : List ε) (c : κ) (g : γ) : Prop :=
  ∃ before e after, history = before ++ e :: after ∧ takes e = some (c, g) ∧ ∀ e' ∈ after,
    Leaves takes hits e' c g

variable {takes hits} {history : List ε} {e : ε} {c : κ} {g : γ}

@[simp] theorem not_reserved_nil : ¬ Reserved takes hits [] c g := by
  rintro ⟨before, e, after, h, -⟩
  simp at h

theorem reserved_snoc :
    Reserved takes hits (history ++ [e]) c g ↔
      takes e = some (c, g) ∨ Reserved takes hits history c g ∧ Leaves takes hits e c g := by
  constructor
  · rintro ⟨before, e', after, heq, htakes, hafter⟩
    rcases List.eq_nil_or_concat after with rfl | ⟨after', last, rfl⟩
    · obtain ⟨-, hlast⟩ := List.append_inj' heq rfl
      cases hlast
      exact .inl htakes
    · rw [List.concat_eq_append, ← List.cons_append, ← List.append_assoc] at heq
      obtain ⟨rfl, hlast⟩ := List.append_inj' heq rfl
      cases hlast
      exact .inr ⟨⟨before, e', after', rfl, htakes, fun x hx => hafter x (by simp [hx])⟩,
        hafter e (by simp)⟩
  · rintro (htakes | ⟨⟨before, e', after, rfl, htakes, hafter⟩, hleaves⟩)
    · exact ⟨history, e, [], rfl, htakes, by simp⟩
    · refine ⟨before, e', after ++ [e], by simp, htakes, fun x hx => ?_⟩
      rcases List.mem_append.mp hx with hx | hx
      · exact hafter x hx
      · cases List.mem_singleton.mp hx
        exact hleaves

variable [DecidableEq κ] [DecidableEq γ] [∀ e g, Decidable (hits e g)]

instance : Decidable (Leaves takes hits e c g) := inferInstanceAs (Decidable (_ ∧ _))

variable (takes hits) in
def reserves (history : List ε) (c : κ) (g : γ) : Bool :=
  history.foldl (fun held e => decide (takes e = some (c, g)) || held &&
    decide (Leaves takes hits e c g)) false

theorem reserves_iff : reserves takes hits history c g = true ↔ Reserved takes hits history c g := by
  induction history using List.reverseRecOn with
  | nil => simp [reserves]
  | append_singleton history e ih =>
    rw [reserved_snoc, ← ih]
    simp [reserves]

instance : Decidable (Reserved takes hits history c g) := decidable_of_iff _ reserves_iff

end Reservation

end Lib
