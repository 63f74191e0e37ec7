import Mathlib.Tactic

/-!
# Streams through a priority queue

A stream is a list of elements that go through a queue which gives out an element of the
smallest key. If the keys of the stream rise, its elements leave in their order, whatever
else is in the queue.
-/

namespace Lib

open List

variable {α κ : Type*} [DecidableEq α] [LinearOrder κ] {key : α → κ}
  {left queue queue' s xs : List α} {x : α}

/-- Of a stream, a first part has left and the rest is in the queue, in order of the keys. -/
structure Streamed (key : α → κ) (left queue s : List α) : Prop where
  split : s = left.filter (· ∈ s) ++ s.filter (· ∈ queue)
  sorted : (s.filter (· ∈ queue)).Pairwise (key · < key ·)

namespace Streamed

theorem nil : Streamed key left queue [] := ⟨by simp, by simp⟩

variable (h : Streamed key left queue s)
include h

theorem isPrefix : left.filter (· ∈ s) <+: s := ⟨_, h.split.symm⟩

theorem mem (hx : x ∈ s) : x ∈ left ∨ x ∈ queue := by
  rw [h.split, mem_append, mem_filter, mem_filter] at hx
  rcases hx with ⟨hleft, -⟩ | ⟨-, hqueue⟩
  · exact .inl hleft
  · exact .inr (of_decide_eq_true hqueue)

theorem congr (hmem : ∀ x ∈ s, x ∈ queue' ↔ x ∈ queue) : Streamed key left queue' s := by
  have hfilter : s.filter (· ∈ queue') = s.filter (· ∈ queue) :=
    filter_congr fun x hx => decide_eq_decide.mpr (hmem x hx)
  exact ⟨by rw [hfilter]; exact h.split, by rw [hfilter]; exact h.sorted⟩

omit [DecidableEq α] h in
theorem head_eq (hl : l.Pairwise (key · < key ·)) (hx : x ∈ l) (hmin : ∀ y ∈ l, key x ≤ key y) :
    ∃ rest, l = x :: rest := by
  cases l with
  | nil => simp at hx
  | cons y rest =>
    rcases mem_cons.mp hx with rfl | hrest
    · exact ⟨rest, rfl⟩
    · have hlt := rel_of_pairwise_cons hl hrest
      exact absurd (hmin y mem_cons_self) (not_le.mpr hlt)

theorem pop (hmin : ∀ y ∈ queue, key x ≤ key y)
    (hqueue : ∀ y, y ∈ queue ↔ y = x ∨ y ∈ queue') (hx : x ∉ queue') :
    Streamed key (left ++ [x]) queue' s := by
  by_cases hs : x ∈ s
  · have hmem : x ∈ s.filter (· ∈ queue) := mem_filter.mpr ⟨hs, by simp [(hqueue x).mpr (.inl rfl)]⟩
    have hle : ∀ y ∈ s.filter (· ∈ queue), key x ≤ key y := fun y hy =>
      hmin y (by simpa using (mem_filter.mp hy).2)
    obtain ⟨rest, hrest⟩ := head_eq h.sorted hmem hle
    have hsorted := hrest ▸ h.sorted
    have hqueue' : s.filter (· ∈ queue') = rest := by
      have hsub : s.filter (· ∈ queue') = (s.filter (· ∈ queue)).filter (· ∈ queue') := by
        rw [filter_filter]
        exact filter_congr fun y _ => by simp +contextual [hqueue y]
      rw [hsub, hrest, filter_cons_of_neg (by simpa using hx), filter_eq_self]
      intro y hy
      have hne : y ≠ x := by
        rintro rfl
        exact lt_irrefl _ (rel_of_pairwise_cons hsorted hy)
      have hin : y ∈ s.filter (· ∈ queue) := by rw [hrest]; exact mem_cons_of_mem _ hy
      have hin : y ∈ queue := by simpa using (mem_filter.mp hin).2
      simpa using ((hqueue y).mp hin).resolve_left hne
    refine ⟨?_, hqueue'.symm ▸ hsorted.of_cons⟩
    calc s = left.filter (· ∈ s) ++ s.filter (· ∈ queue) := h.split
      _ = (left ++ [x]).filter (· ∈ s) ++ s.filter (· ∈ queue') := by
        rw [hrest, hqueue', filter_append, filter_singleton, decide_eq_true hs,
          cond_true, append_assoc]
        rfl
  · have hother : ∀ y ∈ s, y ∈ queue' ↔ y ∈ queue := fun y hy => by
      rw [hqueue y]
      exact ⟨.inr, fun h => h.resolve_left (by rintro rfl; exact hs hy)⟩
    have hkept := h.congr hother
    refine ⟨?_, hkept.sorted⟩
    rw [filter_append, filter_singleton, decide_eq_false hs, cond_false, append_nil]
    exact hkept.split

theorem push (hqueue : ∀ y, y ∈ queue' ↔ y ∈ queue ∨ y ∈ xs)
    (hleft : ∀ x ∈ xs, x ∉ left) (hxs : xs.Pairwise (key · < key ·))
    (hlt : ∀ y ∈ s, y ∈ queue → ∀ x ∈ xs, key y < key x) : Streamed key left queue' (s ++ xs) := by
  have hkept : ∀ y ∈ s, y ∈ queue' ↔ y ∈ queue := fun y hy => by
    rw [hqueue y]
    refine ⟨fun hy' => hy'.elim id fun hx => ?_, .inl⟩
    exact ((h.mem hy).resolve_left (hleft y hx))
  have hfilter : (s ++ xs).filter (· ∈ queue') = s.filter (· ∈ queue) ++ xs := by
    rw [filter_append]
    congr 1
    · exact filter_congr fun y hy => decide_eq_decide.mpr (hkept y hy)
    · exact filter_eq_self.mpr fun y hy => by simp [hqueue y, hy]
  have hout : left.filter (· ∈ s ++ xs) = left.filter (· ∈ s) :=
    filter_congr fun y hy => decide_eq_decide.mpr
      ⟨fun hmem => (mem_append.mp hmem).resolve_right fun hx => hleft y hx hy,
        fun hs => mem_append_left _ hs⟩
  constructor
  · rw [hfilter, hout, ← append_assoc, ← h.split]
  · rw [hfilter, pairwise_append]
    refine ⟨h.sorted, hxs, fun y hy x hx => ?_⟩
    obtain ⟨hs, hin⟩ := mem_filter.mp hy
    exact hlt y hs (by simpa using hin) x hx

end Streamed

end Lib
