import Mathlib.Tactic

/-!
# Loops that rewrite an array in place

Round `n` of such a loop writes cell `cell n` with a value that it computes from the array as
it is then. If no round looks at a cell that an earlier round wrote, the loop computes
everything from the array it began with.
-/

namespace Lib

variable {α : Type*} {cell : Nat → Nat} {value : (Nat → α) → Nat → α} {m n c : Nat} {a : Nat → α}

def rewrite (cell : Nat → Nat) (value : (Nat → α) → Nat → α) : Nat → (Nat → α) → Nat → α
  | 0, a => a
  | n + 1, a => Function.update (rewrite cell value n a) (cell n) (value (rewrite cell value n a) n)

structure ReadsAhead (cell : Nat → Nat) (value : (Nat → α) → Nat → α) (rounds : Nat) : Prop where
  apart : ∀ n < rounds, ∀ m < n, cell m ≠ cell n
  ahead : ∀ n < rounds, ∀ a b : Nat → α, (∀ c, (∀ m < n, c ≠ cell m) → a c = b c) →
    value a n = value b n

theorem rewrite_of_ne (h : ∀ m < n, c ≠ cell m) : rewrite cell value n a c = a c := by
  induction n with
  | zero => rfl
  | succ n ih =>
    rw [rewrite, Function.update_of_ne (h n n.lt_succ_self)]
    exact ih fun m hm => h m (hm.trans n.lt_succ_self)

theorem ReadsAhead.rewrite_cell (h : ReadsAhead cell value n) (hm : m < n) :
    rewrite cell value n a (cell m) = value a m := by
  induction n with
  | zero => exact absurd hm m.not_lt_zero
  | succ n ih =>
    have hbefore : ReadsAhead cell value n :=
      ⟨fun k hk => h.apart k (hk.trans n.lt_succ_self),
        fun k hk => h.ahead k (hk.trans n.lt_succ_self)⟩
    rw [rewrite]
    rcases Nat.lt_succ_iff_lt_or_eq.mp hm with hlt | rfl
    · rw [Function.update_of_ne (h.apart n n.lt_succ_self m hlt)]
      exact ih hbefore hlt
    · rw [Function.update_self]
      exact h.ahead m m.lt_succ_self _ _ fun c hc => rewrite_of_ne hc

end Lib
