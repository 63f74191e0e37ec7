import Gem5.Lib.Linked

/-!
# Lists that share a table of links

Several linked lists whose cells come from one array: a free list and the lists
its cells are used for. A cell goes from one list to the front of another, and
the lists stay apart.
-/

namespace Lib

open List Function

namespace Linked

variable {α : Type*} {next next' : α → Option α} {p : Option α} {c x : α} {l₁ l₂ : List α}

theorem split_next (h : Linked next p l) (hc : c ∈ l) (hx : next c = some x) :
    ∃ l₁ l₂, l = l₁ ++ c :: x :: l₂ := by
  induction l generalizing p with
  | nil => cases hc
  | cons y l ih =>
    cases hc with
    | head =>
      cases l with
      | nil => exact absurd (hx.symm.trans h.2) nofun
      | cons z l =>
        cases hx.symm.trans h.2.1
        exact ⟨[], l, rfl⟩
    | tail _ hc =>
      obtain ⟨l₁, l₂, rfl⟩ := ih h.2 hc
      exact ⟨y :: l₁, l₂, rfl⟩

theorem skip (h : Linked next p (l₁ ++ c :: x :: l₂)) (hc : next' c = next x)
    (hnext : ∀ y ∈ l₁ ++ l₂, next' y = next y) : Linked next' p (l₁ ++ c :: l₂) := by
  induction l₁ generalizing p with
  | nil =>
    refine ⟨h.1, ?_⟩
    rw [hc]
    exact h.2.2.congr hnext
  | cons y l₁ ih =>
    refine ⟨h.1, ?_⟩
    rw [hnext y (by simp)]
    exact ih h.2 fun z hz => hnext z (mem_cons_of_mem _ hz)

end Linked

structure Chains {α κ : Type*} (next : α → Option α) (top : κ → Option α) (L : κ → List α) :
    Prop where
  linked : ∀ k, Linked next (top k) (L k)
  nodup : ∀ k, (L k).Nodup
  disjoint : ∀ {k k' x}, x ∈ L k → x ∈ L k' → k = k'

namespace Chains

variable {α κ : Type*} {next next' : α → Option α} {top top' : κ → Option α} {L : κ → List α}
  {k k' : κ} {c x y : α} {l l₁ l₂ : List α}

theorem congr (h : Chains next top L) (htop : ∀ k, top' k = top k)
    (hnext : ∀ k, ∀ x ∈ L k, next' x = next x) : Chains next' top' L := by
  refine ⟨fun k => ?_, h.nodup, h.disjoint⟩
  rw [htop]
  exact (h.linked k).congr (hnext k)

variable [DecidableEq κ]

def moved (L : κ → List α) (k : κ) (l : List α) (k' : κ) (x : α) : κ → List α :=
  update (update L k l) k' (x :: L k')

variable (h : Chains next top L) (hk : k ≠ k')
include h hk

theorem mem_moved (hl : (L k).Perm (x :: l)) :
    y ∈ moved L k l k' x j ↔ y = x ∧ j = k' ∨ y ≠ x ∧ y ∈ L j := by
  have hxk : x ∈ L k := hl.mem_iff.mpr mem_cons_self
  have hxl := (nodup_cons.mp (hl.nodup_iff.mp (h.nodup k))).1
  unfold moved
  rcases eq_or_ne j k' with rfl | hj
  · rw [update_self, mem_cons]
    rcases eq_or_ne y x with rfl | hy <;> simp [*]
  · rw [update_of_ne hj]
    rcases eq_or_ne y x with rfl | hy
    · refine iff_of_false ?_ (by simp [hj])
      rcases eq_or_ne j k with rfl | hj'
      · rwa [update_self]
      · rw [update_of_ne hj']
        exact fun hx => hj' (h.disjoint hx hxk)
    · rcases eq_or_ne j k with rfl | hj'
      · simp [hl.mem_iff, hy]
      · simp [hj', hy]

theorem move (hl : (L k).Perm (x :: l))
    (hk1 : Linked next' (top' k) l) (hx : next' x = top k') (htop : top' k' = some x)
    (htops : ∀ j, j ≠ k → j ≠ k' → top' j = top j)
    (hnext : ∀ j, j ≠ k → ∀ y ∈ L j, next' y = next y) :
    Chains next' top' (moved L k l k' x) := by
  have hxk : x ∈ L k := hl.mem_iff.mpr mem_cons_self
  have hnot : x ∉ L k' := fun hx' => hk (h.disjoint hxk hx')
  obtain ⟨hxl, hnl⟩ := nodup_cons.mp (hl.nodup_iff.mp (h.nodup k))
  refine ⟨fun j => ?_, fun j => ?_, fun {j j' y} hy hy' => ?_⟩
  · unfold moved
    rw [update_apply]
    split
    · subst k'
      rw [htop]
      refine ⟨rfl, ?_⟩
      rw [hx]
      exact (h.linked j).congr (hnext j hk.symm)
    · rename_i hj
      by_cases hj' : j = k
      · subst hj'
        rw [update_self]
        exact hk1
      · rw [update_of_ne hj', htops j hj' hj]
        exact (h.linked j).congr (hnext j hj')
  · unfold moved
    rw [update_apply]
    split
    · subst k'
      exact nodup_cons.mpr ⟨hnot, h.nodup j⟩
    · rename_i hj
      by_cases hj' : j = k
      · subst hj'
        rw [update_self]
        exact hnl
      · rw [update_of_ne hj']
        exact h.nodup j
  · rw [h.mem_moved hk hl] at hy hy'
    rcases eq_or_ne y x with rfl | hne
    · simp_all
    · exact h.disjoint (by simpa [hne] using hy) (by simpa [hne] using hy')

theorem exists_mem_moved (hl : (L k).Perm (x :: l)) :
    (∃ j, y ∈ moved L k l k' x j) ↔ ∃ j, y ∈ L j := by
  simp only [h.mem_moved hk hl]
  rcases eq_or_ne y x with rfl | hne
  · exact iff_of_true ⟨k', .inl ⟨rfl, rfl⟩⟩ ⟨k, hl.mem_iff.mpr mem_cons_self⟩
  · simp [hne]

theorem moveHead (hl : L k = x :: l) (hx : next' x = top k') (htop : top' k' = some x)
    (htopk : top' k = next x) (htops : ∀ j, j ≠ k → j ≠ k' → top' j = top j)
    (hnext : ∀ j, ∀ y ∈ L j, y ≠ x → next' y = next y) :
    Chains next' top' (moved L k l k' x) := by
  have hlinked := h.linked k
  have hn := h.nodup k
  rw [hl] at hlinked hn
  have hxl := (nodup_cons.mp hn).1
  refine h.move hk (.of_eq hl) ?_ hx htop htops fun j hj y hy => hnext j y hy ?_
  · rw [htopk]
    refine hlinked.2.congr fun y hy => hnext k y (hl ▸ mem_cons_of_mem _ hy) ?_
    rintro rfl
    exact hxl hy
  · rintro rfl
    exact hj (h.disjoint hy (hl ▸ mem_cons_self))

theorem moveAfter (hl : L k = l₁ ++ c :: x :: l₂)
    (hc : next' c = next x) (hx : next' x = top k') (htop : top' k' = some x)
    (htops : ∀ j, j ≠ k' → top' j = top j)
    (hnext : ∀ j, ∀ y ∈ L j, y ≠ x → y ≠ c → next' y = next y) :
    Chains next' top' (moved L k (l₁ ++ c :: l₂) k' x) := by
  have hlinked := h.linked k
  have hn := h.nodup k
  rw [hl] at hlinked hn
  have hmem : x ∈ L k ∧ c ∈ L k := by simp [hl]
  have hperm : (l₁ ++ c :: x :: l₂).Perm (c :: x :: (l₁ ++ l₂)) :=
    perm_middle.trans (.cons _ perm_middle)
  have hperm' : (L k).Perm (x :: (l₁ ++ c :: l₂)) := by
    rw [hl]
    exact hperm.trans ((List.Perm.swap ..).trans (.cons _ perm_middle.symm))
  obtain ⟨hcn, hxn, -⟩ : c ∉ x :: (l₁ ++ l₂) ∧ x ∉ l₁ ++ l₂ ∧ (l₁ ++ l₂).Nodup := by
    have := hperm.nodup_iff.mp hn
    rw [nodup_cons, nodup_cons] at this
    exact this
  refine h.move hk hperm' ?_ hx htop (fun j _ hj => htops j hj) fun j hj y hy => hnext j y hy ?_ ?_
  · rw [htops k hk]
    refine hlinked.skip hc fun y hy => hnext k y ?_ ?_ ?_
    · exact hl ▸ hperm.mem_iff.mpr (mem_cons_of_mem _ (mem_cons_of_mem _ hy))
    · rintro rfl
      exact hxn hy
    · rintro rfl
      exact hcn (mem_cons_of_mem _ hy)
  · rintro rfl
    exact hj (h.disjoint hy hmem.1)
  · rintro rfl
    exact hj (h.disjoint hy hmem.2)

end Chains

end Lib
