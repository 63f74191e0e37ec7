import Gem5.Lib.Check

/-!
# Signed machine integers

What the language leaves undefined is a fault: a signed result that its type cannot hold.
-/

namespace Gem5

open Lib

def signed (bits : Nat) (x : Int) : Chk Int :=
  if -2 ^ (bits - 1) ≤ x ∧ x < 2 ^ (bits - 1) then .ok x else .error (.undefined "signed overflow")

theorem signed_int (h : |x| < 2 ^ 31) : signed 32 x = .ok x := by
  rw [abs_lt] at h
  exact if_pos ⟨h.1.le, h.2⟩

end Gem5
