import Mathlib.Tactic

/-!
# A window over the last rounds

Something happens in at most one place per round; its rounds are a list of stamps without
repetition. A shift register of `w` bits that moves down once per round shows which of the
last `w` rounds are stamped, so that the bit that falls out says whether a stamp leaves the
window.
-/

namespace Lib

def inWindow (w now : Nat) (stamps : List Nat) : List Nat := stamps.filter (now < · + w)

/-- Bit `i` of a register stands for the round that leaves the window in `i + 1` rounds. -/
def Register (w now : Nat) (stamps : List Nat) (bits : Nat) : Prop :=
  ∀ i, bits.testBit i = true ↔ i < w ∧ ∃ stamp ∈ stamps, stamp + w = now + i + 1

variable {w now bits : Nat} {stamps : List Nat}

theorem register_nil (w now : Nat) : Register w now [] 0 := by
  intro i
  simp

theorem Register.advance (h : Register w now stamps bits) (hle : ∀ stamp ∈ stamps, stamp ≤ now) :
    Register w (now + 1) stamps (bits >>> 1) := by
  intro i
  rw [Nat.testBit_shiftRight, h]
  constructor
  · rintro ⟨hi, stamp, hmem, heq⟩
    exact ⟨by omega, stamp, hmem, by omega⟩
  · rintro ⟨-, stamp, hmem, heq⟩
    have := hle stamp hmem
    exact ⟨by omega, stamp, hmem, by omega⟩

theorem Register.mark (h : Register w now stamps bits) (hw : 0 < w) :
    Register w now (stamps ++ [now]) (bits ||| 2 ^ (w - 1)) := by
  intro i
  rw [Nat.testBit_or, Bool.or_eq_true, h, Nat.testBit_two_pow]
  simp only [List.mem_append, List.mem_singleton, decide_eq_true_eq]
  constructor
  · rintro (⟨hi, stamp, hmem, heq⟩ | rfl)
    · exact ⟨hi, stamp, .inl hmem, heq⟩
    · exact ⟨by omega, now, .inr rfl, by omega⟩
  · rintro ⟨hi, stamp, hmem | rfl, heq⟩
    · exact .inl ⟨hi, stamp, hmem, heq⟩
    · exact .inr (by omega)

theorem length_inWindow_mark (hw : 0 < w) :
    (inWindow w now (stamps ++ [now])).length = (inWindow w now stamps).length + 1 := by
  simp [inWindow, hw]

theorem Register.length_inWindow (h : Register w now stamps bits) (hnodup : stamps.Nodup)
    (hle : ∀ stamp ∈ stamps, stamp ≤ now) :
    (inWindow w now stamps).length = (inWindow w (now + 1) stamps).length +
    (bits.testBit 0).toNat := by
  have hsplit : (inWindow w now stamps).length = (inWindow w (now + 1) stamps).length +
      stamps.countP (· + w = now + 1) := by
    clear h hnodup hle
    simp only [inWindow, ← List.countP_eq_length_filter]
    induction stamps with
    | nil => rfl
    | cons stamp stamps ih =>
      simp only [List.countP_cons, decide_eq_true_eq]
      split_ifs <;> omega
  have hleave : stamps.countP (· + w = now + 1) = (bits.testBit 0).toNat := by
    by_cases hbit : bits.testBit 0 = true
    · obtain ⟨hw, stamp, hmem, heq⟩ := (h 0).mp hbit
      have hcount : stamps.countP (· + w = now + 1) = stamps.count stamp := by
        refine List.countP_congr fun a _ => ?_
        simp only [decide_eq_true_eq, beq_iff_eq]
        omega
      rw [hbit, Bool.toNat_true, hcount, List.count_eq_one_of_mem hnodup hmem]
    · rw [Bool.not_eq_true] at hbit
      rw [hbit, Bool.toNat_false, List.countP_eq_zero]
      intro stamp hmem
      rw [decide_eq_true_eq]
      intro heq
      have := hle stamp hmem
      have hset := (h 0).mpr ⟨by omega, stamp, hmem, by omega⟩
      rw [hbit] at hset
      cases hset
  rw [hsplit, hleave]

end Lib
