import Mathlib.Tactic

/-!
# Integers as doubles

A double has a mantissa of 53 bits. An integer that needs more is rounded to the nearest
double, and to the one with the even mantissa in a tie. The bound on the exponent is left
out.
-/

namespace Lib

def roundDouble (n : Nat) : Nat :=
  -- the bits that the mantissa has no room for
  let e := n.log2 - 52
  let mantissa := n / 2 ^ e
  let rest := n % 2 ^ e
  if 2 ^ e < 2 * rest ∨ 2 ^ e = 2 * rest ∧ mantissa % 2 = 1 then (mantissa + 1) * 2 ^ e
  else mantissa * 2 ^ e

def toDouble (x : Int) : Int := x.sign * roundDouble x.natAbs

theorem roundDouble_eq (h : n < 2 ^ 53) : roundDouble n = n := by
  have hlog : n.log2 - 52 = 0 := by
    by_cases hn : n = 0
    · simp [hn]
    · have := (Nat.log2_lt hn).mpr h
      omega
  simp [roundDouble, hlog, Nat.mod_one]

theorem toDouble_eq (hlo : -2 ^ 53 < x) (hhi : x < 2 ^ 53) : toDouble x = x := by
  rw [toDouble, roundDouble_eq (by omega)]
  exact Int.sign_mul_natAbs x

end Lib
