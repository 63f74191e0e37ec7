import Mathlib.Tactic

/-!
# Lists with stable positions

A doubly linked list whose elements are reached through iterators that stay
valid while other elements come and go. An iterator is a number that is given
to an element when it enters the list and never used again.
-/

namespace Lib

open List

structure IterList (α : Type*) where
  nodes : List (Nat × α)
  next : Nat
  nodup : (nodes.map Prod.fst).Nodup
  fresh : ∀ n ∈ nodes, n.1 < next

namespace IterList

variable {α : Type*} {l : IterList α} {x y : α} {i j k : Nat}

def empty : IterList α := ⟨[], 0, List.nodup_nil, nofun⟩

def values (l : IterList α) : List α := l.nodes.map Prod.snd

def deref (l : IterList α) (i : Nat) : Option α := (l.nodes.find? (·.1 == i)).map Prod.snd

/-- Insert before position `k`; the new element's iterator is `l.next`. -/
def insertAt (l : IterList α) (k : Nat) (x : α) : IterList α where
  nodes := l.nodes.take k ++ (l.next, x) :: l.nodes.drop k
  next := l.next + 1
  nodup := by
    have hnot : l.next ∉ l.nodes.map Prod.fst := by
      intro h
      obtain ⟨n, hn, heq⟩ := List.mem_map.mp h
      exact Nat.lt_irrefl _ (heq ▸ l.fresh n hn)
    have hperm : ((l.nodes.take k ++ (l.next, x) :: l.nodes.drop k).map Prod.fst).Perm
        (l.next :: l.nodes.map Prod.fst) := by
      have hmiddle : (l.nodes.take k ++ (l.next, x) :: l.nodes.drop k).Perm
          ((l.next, x) :: l.nodes) := by
        refine List.perm_middle.trans ?_
        rw [List.take_append_drop]
      exact hmiddle.map Prod.fst
    exact hperm.nodup_iff.mpr (List.nodup_cons.mpr ⟨hnot, l.nodup⟩)
  fresh := by
    intro n hn
    rcases List.mem_append.mp hn with hn | hn
    · exact Nat.lt_succ_of_lt (l.fresh n (List.mem_of_mem_take hn))
    · rcases List.mem_cons.mp hn with rfl | hn
      · exact Nat.lt_succ_self _
      · exact Nat.lt_succ_of_lt (l.fresh n (List.mem_of_mem_drop hn))

def erase (l : IterList α) (i : Nat) : IterList α where
  nodes := l.nodes.filter (·.1 != i)
  next := l.next
  nodup := l.nodup.sublist (List.filter_sublist.map Prod.fst)
  fresh n hn := l.fresh n (List.mem_of_mem_filter hn)

@[simp] theorem values_empty : (empty : IterList α).values = [] := rfl

theorem values_insertAt :
    (l.insertAt k x).values = l.values.take k ++ x :: l.values.drop k := by
  simp [values, insertAt, map_take, map_drop]

theorem values_insertAt_perm : (l.insertAt k x).values.Perm (x :: l.values) := by
  rw [values_insertAt]
  refine perm_middle.trans ?_
  rw [take_append_drop]

theorem mem_nodes_of_deref (h : l.deref i = some x) : (i, x) ∈ l.nodes := by
  obtain ⟨⟨j, y⟩, hn, rfl⟩ := Option.map_eq_some_iff.mp h
  obtain rfl : j = i := by simpa using List.find?_some hn
  exact mem_of_find?_eq_some hn

theorem eq_of_mem_nodes (h : (i, x) ∈ l.nodes) (h' : (i, y) ∈ l.nodes) : x = y := by
  have := inj_on_of_nodup_map l.nodup h h' rfl
  exact congrArg Prod.snd this

theorem deref_eq_some : l.deref i = some x ↔ (i, x) ∈ l.nodes := by
  refine ⟨mem_nodes_of_deref, fun h => ?_⟩
  have hsome : (l.nodes.find? (·.1 == i)).isSome := by
    rw [List.find?_isSome]
    exact ⟨_, h, by simp⟩
  obtain ⟨⟨j, y⟩, hn⟩ := Option.isSome_iff_exists.mp hsome
  obtain rfl : j = i := by simpa using List.find?_some hn
  rw [deref, hn, eq_of_mem_nodes h (mem_of_find?_eq_some hn)]
  rfl

theorem deref_insertAt_next : (l.insertAt k x).deref l.next = some x := by
  rw [deref_eq_some]
  simp [insertAt]

theorem deref_insertAt (h : l.deref i = some y) : (l.insertAt k x).deref i = some y := by
  rw [deref_eq_some] at h ⊢
  rw [← take_append_drop k l.nodes] at h
  simp only [insertAt, mem_append, mem_cons] at h ⊢
  rcases h with h | h
  · exact .inl h
  · exact .inr (.inr h)

theorem deref_erase (h : l.deref i = some y) (hj : l.deref j = some x) (hne : y ≠ x) :
    (l.erase j).deref i = some y := by
  have hij : i ≠ j := by
    rintro rfl
    exact hne (Option.some.inj (h.symm.trans hj))
  rw [deref_eq_some] at h ⊢
  simp only [erase, mem_filter]
  exact ⟨h, by simpa using hij⟩

theorem values_erase [DecidableEq α] (h : l.deref i = some x) (hn : l.values.Nodup) :
    (l.erase i).values = l.values.erase x := by
  rw [hn.erase_eq_filter, values, values, filter_map]
  congr 1
  refine filter_congr fun n hmem => ?_
  have hx := deref_eq_some.mp h
  have hiff : n.1 = i ↔ n.2 = x := by
    constructor
    · rintro rfl
      exact eq_of_mem_nodes hmem hx
    · rintro rfl
      exact congrArg Prod.fst (inj_on_of_nodup_map hn hmem hx rfl)
  rw [Bool.eq_iff_iff]
  simp only [Function.comp_apply, bne_iff_ne]
  exact not_congr hiff

end IterList

end Lib
