import Mathlib.Tactic

/-!
# Stable sorting by insertion

What arrives is put behind everything that is not greater. The result is sorted, and
what has the same key stays in the order of arrival.
-/

namespace Lib

open List

variable {α κ : Type*} [LinearOrder κ] {key : α → κ} {x : α} {l l₁ l₂ arrived : List α}

def placeAfter (key : α → κ) (x : α) (l : List α) : List α :=
  l.takeWhile (key · ≤ key x) ++ x :: l.dropWhile (key · ≤ key x)

@[simp] theorem placeAfter_nil : placeAfter key x [] = [x] := rfl

theorem placeAfter_cons_of_le (h : key y ≤ key x) :
    placeAfter key x (y :: l) = y :: placeAfter key x l := by
  simp [placeAfter, h]

theorem placeAfter_cons_of_lt (h : key x < key y) : placeAfter key x (y :: l) = x :: y :: l := by
  simp [placeAfter, h]

theorem placeAfter_append (h : ∀ y ∈ l₁, key y ≤ key x) :
    placeAfter key x (l₁ ++ l₂) = l₁ ++ placeAfter key x l₂ := by
  induction l₁ with
  | nil => rfl
  | cons y l₁ ih =>
    rw [cons_append, placeAfter_cons_of_le (h y mem_cons_self),
      ih fun z hz => h z (mem_cons_of_mem _ hz), cons_append]

theorem mem_placeAfter : y ∈ placeAfter key x l ↔ y = x ∨ y ∈ l := by
  conv_rhs => rw [← takeWhile_append_dropWhile (p := fun z => decide (key z ≤ key x)) (l := l)]
  simp only [placeAfter, mem_append, mem_cons]
  tauto

/-- The second list is the first one in the order of the keys. -/
structure SortedStably (key : α → κ) (arrived l : List α) : Prop where
  sorted : l.Pairwise (key · ≤ key ·)
  stable : ∀ k, l.filter (key · = k) = arrived.filter (key · = k)

theorem SortedStably.place (h : SortedStably key arrived l) (x : α) :
    SortedStably key (arrived ++ [x]) (placeAfter key x l) := by
  obtain ⟨hsorted, hstable⟩ := h
  refine ⟨?_, fun k => ?_⟩
  · clear hstable
    induction l with
    | nil => simp
    | cons y l ih =>
      obtain ⟨hy, hl⟩ := pairwise_cons.mp hsorted
      rcases le_or_gt (key y) (key x) with hle | hlt
      · rw [placeAfter_cons_of_le hle]
        refine pairwise_cons.mpr ⟨fun z hz => ?_, ih hl⟩
        rcases mem_placeAfter.mp hz with rfl | hz
        · exact hle
        · exact hy z hz
      · rw [placeAfter_cons_of_lt hlt]
        refine pairwise_cons.mpr ⟨fun z hz => ?_, hsorted⟩
        rcases mem_cons.mp hz with rfl | hz
        · exact hlt.le
        · exact hlt.le.trans (hy z hz)
  · rw [filter_append, ← hstable k]
    clear hstable
    induction l with
    | nil => rfl
    | cons y l ih =>
      obtain ⟨hy, hl⟩ := pairwise_cons.mp hsorted
      rcases le_or_gt (key y) (key x) with hle | hlt
      · rw [placeAfter_cons_of_le hle, filter_cons, filter_cons, ih hl]
        split <;> rfl
      · -- nothing that follows has the key of the new element
        rw [placeAfter_cons_of_lt hlt, ← singleton_append, filter_append]
        by_cases hk : key x = k
        · have hnone : (y :: l).filter (key · = k) = [] := by
            refine filter_eq_nil_iff.mpr fun z hz => ?_
            have hz : key x < key z := by
              rcases mem_cons.mp hz with rfl | hz
              · exact hlt
              · exact hlt.trans_le (hy z hz)
            simpa using fun h => hz.ne (hk.trans h.symm)
          simp [hnone]
        · simp [hk]

end Lib
