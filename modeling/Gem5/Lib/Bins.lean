import Mathlib.Tactic

/-!
# Ordered bins

A priority queue kept as a list of bins, one for each key present, the bins in
increasing order of their keys and each bin a stack.
-/

namespace Lib.Bins

open List

variable {α K : Type*} [LinearOrder K] {key key' : α → K} {e x y : α}
  {b : List α} {bins : List (List α)}

def insert (key : α → K) (e : α) : List (List α) → List (List α)
  | [] => [[e]]
  | [] :: bins => insert key e bins
  | (x :: b) :: bins =>
    if key e < key x then [e] :: (x :: b) :: bins
    else if key e = key x then (e :: x :: b) :: bins
    else (x :: b) :: insert key e bins

def consBin (b : List α) (bins : List (List α)) : List (List α) :=
  match b with
  | [] => bins
  | x :: b => (x :: b) :: bins

def remove [DecidableEq α] (e : α) : List (List α) → List (List α)
  | [] => []
  | b :: bins => if e ∈ b then consBin (b.erase e) bins else b :: remove e bins

/-- No bin is empty, a bin's elements share its key, and keys increase. -/
structure Ordered (key : α → K) (bins : List (List α)) : Prop where
  nonempty : [] ∉ bins
  sameKey : ∀ b ∈ bins, ∀ x ∈ b, ∀ y ∈ b, key x = key y
  increasing : bins.Pairwise fun b c => ∀ x ∈ b, ∀ y ∈ c, key x < key y

@[simp] theorem flatten_consBin (b : List α) (bins : List (List α)) :
    (consBin b bins).flatten = b ++ bins.flatten := by
  cases b <;> rfl

theorem insert_perm (key : α → K) (e : α) (bins : List (List α)) :
    (insert key e bins).flatten.Perm (e :: bins.flatten) := by
  induction bins with
  | nil => exact .refl _
  | cons b bins ih =>
    cases b with
    | nil => exact ih
    | cons x b =>
      simp only [insert]
      split
      · exact .refl _
      · split
        · exact .refl _
        · exact (ih.append_left (x :: b)).trans perm_middle

theorem mem_insert : y ∈ (insert key e bins).flatten ↔ y = e ∨ y ∈ bins.flatten := by
  rw [(insert_perm key e bins).mem_iff, mem_cons]

theorem insert_append {pre : List (List α)} (h : ∀ d ∈ pre, ∃ x b, d = x :: b ∧ key x < key e) :
    insert key e (pre ++ bins) = pre ++ insert key e bins := by
  induction pre with
  | nil => rfl
  | cons d pre ih =>
    obtain ⟨x, b, rfl, hlt⟩ := h d mem_cons_self
    simp [cons_append, insert, not_lt_of_gt hlt, (ne_of_lt hlt).symm,
      ih fun d hd => h d (mem_cons_of_mem _ hd)]

theorem remove_append [DecidableEq α] {pre : List (List α)} (h : e ∉ pre.flatten) :
    remove e (pre ++ bins) = pre ++ remove e bins := by
  induction pre with
  | nil => rfl
  | cons d pre ih =>
    rw [flatten_cons, mem_append, not_or] at h
    rw [cons_append, remove, if_neg h.1, ih h.2, cons_append]

theorem remove_perm [DecidableEq α] (e : α) (bins : List (List α)) :
    (remove e bins).flatten.Perm (bins.flatten.erase e) := by
  induction bins with
  | nil => exact .refl _
  | cons b bins ih =>
    simp only [remove]
    split
    · rename_i h
      rw [flatten_consBin, flatten_cons, erase_append_left _ h]
    · rename_i h
      rw [flatten_cons, flatten_cons, erase_append_right _ h]
      exact ih.append_left b

theorem Ordered.tail (h : Ordered key (b :: bins)) : Ordered key bins where
  nonempty hb := h.nonempty (mem_cons_of_mem _ hb)
  sameKey c hc := h.sameKey c (mem_cons_of_mem _ hc)
  increasing := h.increasing.tail

theorem Ordered.head_lt (h : Ordered key (b :: bins)) (hx : x ∈ b) (hy : y ∈ bins.flatten) :
    key x < key y := by
  obtain ⟨c, hc, hy⟩ := mem_flatten.mp hy
  exact (pairwise_cons.mp h.increasing).1 c hc x hx y hy

theorem Ordered.mem_after {pre : List (List α)} (h : Ordered key (pre ++ bins))
    (hpre : ∀ d ∈ pre, ∃ x b, d = x :: b ∧ key x < key e) (he : e ∈ (pre ++ bins).flatten)
    (hge : ∀ x b rest, bins = (x :: b) :: rest → ¬key x < key e) :
    e ∉ pre.flatten ∧ ∃ x b rest, bins = (x :: b) :: rest ∧ e ∈ x :: b := by
  have hnot : e ∉ pre.flatten := by
    intro hm
    obtain ⟨d, hd, hed⟩ := mem_flatten.mp hm
    obtain ⟨x, b, rfl, hlt⟩ := hpre d hd
    exact hlt.ne (h.sameKey _ (mem_append_left _ hd) x mem_cons_self e hed)
  rw [flatten_append] at he
  have hafter := (mem_append.mp he).resolve_left hnot
  refine ⟨hnot, ?_⟩
  cases bins with
  | nil => cases hafter
  | cons d rest =>
    cases d with
    | nil => exact absurd (mem_append_right _ mem_cons_self) h.nonempty
    | cons x b =>
      refine ⟨x, b, rest, rfl, ?_⟩
      by_contra hb
      obtain ⟨d, hd, hed⟩ := mem_flatten.mp ((mem_append.mp hafter).resolve_left hb)
      exact hge x b rest rfl ((pairwise_cons.mp (pairwise_append.mp h.increasing).2.1).1 d hd x
        mem_cons_self e hed)

theorem Ordered.cons (h : Ordered key bins) (hne : b ≠ [])
    (hsame : ∀ x ∈ b, ∀ y ∈ b, key x = key y)
    (hlt : ∀ x ∈ b, ∀ y ∈ bins.flatten, key x < key y) : Ordered key (b :: bins) where
  nonempty hb := (mem_cons.mp hb).elim (fun heq => hne heq.symm) h.nonempty
  sameKey c hc := (mem_cons.mp hc).elim (fun heq => heq ▸ hsame) (h.sameKey c)
  increasing := pairwise_cons.mpr
    ⟨fun c hc x hx y hy => hlt x hx y (mem_flatten.mpr ⟨c, hc, hy⟩), h.increasing⟩

theorem Ordered.congr (h : Ordered key bins) (hkey : ∀ x ∈ bins.flatten, key' x = key x) :
    Ordered key' bins := by
  have hmem : ∀ b ∈ bins, ∀ x ∈ b, key' x = key x := fun b hb x hx =>
    hkey x (mem_flatten.mpr ⟨b, hb, hx⟩)
  refine ⟨h.nonempty, fun b hb x hx y hy => ?_, ?_⟩
  · rw [hmem b hb x hx, hmem b hb y hy]
    exact h.sameKey b hb x hx y hy
  · refine h.increasing.imp_of_mem fun {b c} hb hc hlt x hx y hy => ?_
    rw [hmem b hb x hx, hmem c hc y hy]
    exact hlt x hx y hy

theorem Ordered.insert (h : Ordered key bins) (e : α) : Ordered key (insert key e bins) := by
  induction bins with
  | nil =>
    refine Ordered.cons h (by simp) ?_ (by simp)
    simp
  | cons b bins ih =>
    cases b with
    | nil => exact absurd mem_cons_self h.nonempty
    | cons x b =>
      have hsame : ∀ y ∈ x :: b, key y = key x := fun y hy =>
        h.sameKey _ mem_cons_self y hy x mem_cons_self
      simp only [Bins.insert]
      split
      · rename_i hlt
        refine h.cons (by simp) (by simp) fun z hz y hy => ?_
        rw [mem_singleton.mp hz]
        rcases mem_append.mp hy with hy | hy
        · exact hsame y hy ▸ hlt
        · exact hlt.trans (h.head_lt mem_cons_self hy)
      · split
        · rename_i heq
          have hall : ∀ y ∈ e :: x :: b, key y = key x := fun y hy =>
            (mem_cons.mp hy).elim (fun h => h ▸ heq) (hsame y)
          refine h.tail.cons (by simp) (fun y hy z hz => (hall y hy).trans (hall z hz).symm) ?_
          intro y hy z hz
          exact hall y hy ▸ h.head_lt mem_cons_self hz
        · rename_i hnlt hne
          have hgt : key x < key e := lt_of_le_of_ne (not_lt.mp hnlt) (Ne.symm hne)
          refine (ih h.tail).cons (by simp) (h.sameKey _ mem_cons_self) fun y hy z hz => ?_
          rcases mem_insert.mp hz with rfl | hz
          · exact hsame y hy ▸ hgt
          · exact h.head_lt hy hz

theorem Ordered.consBin (h : Ordered key (b :: bins)) (hc : ∀ x ∈ c, x ∈ b) :
    Ordered key (consBin c bins) := by
  cases c with
  | nil => exact h.tail
  | cons x c =>
    refine h.tail.cons (by simp) (fun y hy z hz => ?_) fun y hy z hz => ?_
    · exact h.sameKey _ mem_cons_self y (hc y hy) z (hc z hz)
    · exact h.head_lt (hc y hy) hz

theorem Ordered.remove [DecidableEq α] (h : Ordered key bins) (e : α) :
    Ordered key (remove e bins) := by
  induction bins with
  | nil => exact h
  | cons b bins ih =>
    simp only [Bins.remove]
    split
    · exact h.consBin fun x hx => mem_of_mem_erase hx
    · refine (ih h.tail).cons (fun hb => h.nonempty (hb ▸ mem_cons_self))
        (h.sameKey _ mem_cons_self) fun x hx y hy => ?_
      exact h.head_lt hx (mem_of_mem_erase ((remove_perm e bins).mem_iff.mp hy))

def Stacked (stamp : α → Nat) (bins : List (List α)) : Prop :=
  ∀ b ∈ bins, b.Pairwise fun x y => stamp y < stamp x

variable {stamp stamp' : α → Nat}

theorem Stacked.insert (h : Stacked stamp bins) (he : ∀ x ∈ bins.flatten, stamp x < stamp e) :
    Stacked stamp (insert key e bins) := by
  induction bins with
  | nil =>
    intro b hb
    rw [Bins.insert, mem_singleton] at hb
    simp [hb]
  | cons b bins ih =>
    have htail : Stacked stamp bins := fun c hc => h c (mem_cons_of_mem _ hc)
    have ih := ih htail fun x hx => he x (mem_append_right _ hx)
    cases b with
    | nil => exact ih
    | cons x b =>
      intro c hc
      simp only [Bins.insert] at hc
      split at hc
      · rcases mem_cons.mp hc with rfl | hc
        · exact pairwise_singleton ..
        · exact h c hc
      · split at hc
        · rcases mem_cons.mp hc with rfl | hc
          · refine pairwise_cons.mpr ⟨fun y hy => he y ?_, h _ mem_cons_self⟩
            exact mem_append_left _ hy
          · exact htail c hc
        · rcases mem_cons.mp hc with rfl | hc
          · exact h _ mem_cons_self
          · exact ih c hc

theorem Stacked.remove [DecidableEq α] (h : Stacked stamp bins) (e : α) :
    Stacked stamp (remove e bins) := by
  induction bins with
  | nil => exact h
  | cons b bins ih =>
    have htail : Stacked stamp bins := fun c hc => h c (mem_cons_of_mem _ hc)
    intro c hc
    simp only [Bins.remove] at hc
    split at hc
    · have hsub := (h b mem_cons_self).sublist (erase_sublist (a := e))
      cases herase : b.erase e with
      | nil =>
        rw [herase] at hc
        exact htail c hc
      | cons x d =>
        rw [herase] at hc hsub
        rcases mem_cons.mp hc with rfl | hc
        · exact hsub
        · exact htail c hc
    · rcases mem_cons.mp hc with rfl | hc
      · exact h _ mem_cons_self
      · exact ih htail c hc

theorem Stacked.congr (h : Stacked stamp bins) (hs : ∀ x ∈ bins.flatten, stamp' x = stamp x) :
    Stacked stamp' bins := by
  intro b hb
  refine (h b hb).imp_of_mem fun {x y} hx hy hlt => ?_
  rw [hs x (mem_flatten.mpr ⟨b, hb, hx⟩), hs y (mem_flatten.mpr ⟨b, hb, hy⟩)]
  exact hlt

end Lib.Bins
