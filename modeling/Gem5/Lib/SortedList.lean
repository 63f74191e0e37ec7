import Mathlib.Tactic

/-!
# Lists sorted by a key

The contract of an ordered associative container with unique keys: the items
in strictly increasing key order, addressed by position. A position one past
the last item plays the part of the end iterator.
-/

namespace Lib

open List

structure SortedList [LinearOrder κ] (key : α → κ) where
  items : List α
  sorted : items.Pairwise (key · < key ·)

namespace SortedList

variable [LinearOrder κ] {key : α → κ}

def empty : SortedList key := ⟨[], .nil⟩

def upperBound (l : SortedList key) (k : κ) : Nat :=
  l.items.findIdx fun a => decide (k < key a)

def lowerBound (l : SortedList key) (k : κ) : Nat :=
  l.items.findIdx fun a => decide (k ≤ key a)

def place (a : α) : List α → (key : α → κ) → List α
  | [], _ => [a]
  | b :: l, key =>
    if key a < key b then a :: b :: l
    else if key b < key a then b :: place a l key
    else b :: l

theorem mem_place (h : x ∈ place a l key) : x = a ∨ x ∈ l := by
  induction l with
  | nil => simpa [place] using h
  | cons b l ih =>
    simp only [place] at h
    split at h
    · simpa using h
    · split at h
      · rcases mem_cons.mp h with rfl | h
        · simp
        · rcases ih h with rfl | h <;> simp [*]
      · exact .inr h

theorem place_sorted (h : l.Pairwise (key · < key ·)) :
    (place a l key).Pairwise (key · < key ·) := by
  induction l with
  | nil => simp [place]
  | cons b l ih =>
    have hl := pairwise_cons.mp h
    simp only [place]
    split
    · rename_i hab
      refine pairwise_cons.mpr ⟨fun x hx => ?_, h⟩
      rcases mem_cons.mp hx with rfl | hx
      · exact hab
      · exact hab.trans (hl.1 x hx)
    · split
      · rename_i hba
        refine pairwise_cons.mpr ⟨fun x hx => ?_, ih hl.2⟩
        rcases mem_place hx with rfl | hx
        · exact hba
        · exact hl.1 x hx
      · exact h

theorem place_pairwise (h : l.Pairwise R)
    (ha : ∀ x ∈ l, R a x ∧ R x a) : (place a l key).Pairwise R := by
  induction l with
  | nil => simp [place]
  | cons b l ih =>
    have hl := pairwise_cons.mp h
    simp only [place]
    split
    · exact pairwise_cons.mpr ⟨fun x hx => (ha x hx).1, h⟩
    · split
      · refine pairwise_cons.mpr ⟨fun x hx => ?_, ih hl.2 fun x hx => ha x (by simp [hx])⟩
        rcases mem_place hx with rfl | hx
        · exact (ha b (by simp)).2
        · exact hl.1 x hx
      · exact h

def insert (l : SortedList key) (a : α) : SortedList key :=
  ⟨place a l.items key, place_sorted l.sorted⟩

def eraseIdx (l : SortedList key) (i : Nat) : SortedList key :=
  ⟨l.items.eraseIdx i, l.sorted.sublist (List.eraseIdx_sublist ..)⟩

theorem take_append_drop_sublist (l : List α) (i j : Nat) :
    (l.take i ++ l.drop (max i j)).Sublist l := by
  conv => rhs; rw [← take_append_drop i l]
  refine List.Sublist.append (.refl _) ?_
  rw [show max i j = i + (max i j - i) by omega, ← drop_drop]
  exact drop_sublist ..

def eraseRange (l : SortedList key) (i j : Nat) : SortedList key :=
  ⟨l.items.take i ++ l.items.drop (max i j), l.sorted.sublist (take_append_drop_sublist ..)⟩

variable {l : SortedList key}

theorem eraseRange_sublist : (l.eraseRange i j).items.Sublist l.items := take_append_drop_sublist ..

theorem mem_insert (h : x ∈ (l.insert a).items) : x = a ∨ x ∈ l.items :=
  mem_place h

theorem upperBound_le (l : SortedList key) : l.upperBound k ≤ l.items.length :=
  findIdx_le_length

theorem key_le_of_lt_upperBound (hi : i < l.upperBound k) (hx : l.items[i]? = some x) : key x ≤ k := by
  obtain ⟨hlt, rfl⟩ := List.getElem?_eq_some_iff.mp hx
  simpa using not_of_lt_findIdx hi

theorem lt_key_of_upperBound_le (hi : l.upperBound k ≤ i) (hx : l.items[i]? = some x) : k < key x := by
  obtain ⟨hlt, rfl⟩ := List.getElem?_eq_some_iff.mp hx
  have hb : l.upperBound k < l.items.length := by omega
  have hk : k < key l.items[l.upperBound k] := of_decide_eq_true (findIdx_getElem (w := hb))
  rcases Nat.eq_or_lt_of_le hi with h | h
  · simpa [h] using hk
  · exact hk.trans (pairwise_iff_getElem.mp l.sorted _ _ hb hlt h)

theorem mem_cases (l : SortedList key) (h : x ∈ l.items) (k : κ) :
    ∃ i, l.items[i]? = some x ∧ (i < l.upperBound k ↔ key x ≤ k) := by
  obtain ⟨i, hi⟩ := mem_iff_getElem?.mp h
  refine ⟨i, hi, fun hlt => key_le_of_lt_upperBound hlt hi, fun hk => ?_⟩
  by_contra hge
  exact absurd (lt_key_of_upperBound_le (Nat.le_of_not_lt hge) hi) (not_lt.mpr hk)

theorem key_lt_of_lt {i j : Nat} (h : i < j) (hx : l.items[i]? = some x)
    (hy : l.items[j]? = some y) : key x < key y := by
  obtain ⟨hi, rfl⟩ := List.getElem?_eq_some_iff.mp hx
  obtain ⟨hj, rfl⟩ := List.getElem?_eq_some_iff.mp hy
  exact pairwise_iff_getElem.mp l.sorted _ _ hi hj h

theorem lowerBound_lt_insert (l : SortedList key) (a : α) :
    l.lowerBound (key a) < (l.insert a).items.length := by
  obtain ⟨l, hl⟩ := l
  simp only [lowerBound, insert]
  clear hl
  induction l with
  | nil => simp [place]
  | cons b l ih =>
    simp only [place, findIdx_cons]
    rcases lt_trichotomy (key a) (key b) with h | h | h
    · simp [h, h.le]
    · simp [h]
    · simp [h, not_lt.mpr h.le, not_le.mpr h, ih]

end SortedList

end Lib
