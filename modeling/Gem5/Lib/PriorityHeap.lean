import Gem5.Lib.Check
import Gem5.Lib.Heap

/-!
# Priority queues in a vector

`push_heap` and `pop_heap` of the C++ library, for a comparison that may stop the program:
`pop_heap` moves a hole from the root to a leaf, comparing children only, and then moves the
last element up from there. If all elements have different keys, and the comparison answers
for different keys, nothing stops, and the element of the smallest key comes out.
-/

namespace Lib

open List

variable {α : Type}

structure HeapArray (α : Type) where
  size : Nat
  elem : Nat → α

def siftUp (greater : α → α → Chk Bool) : Nat → (Nat → α) → Nat → Chk (Nat → α)
  | 0, h, _ => return h
  | fuel + 1, h, p =>
    if 0 < p then do
      if ← greater (h ((p - 1) / 2)) (h p) then
        siftUp greater fuel (swapAt h ((p - 1) / 2) p) ((p - 1) / 2)
      else return h
    else return h

def siftHole (greater : α → α → Chk Bool) : Nat → (Nat → α) → (n p : Nat) → Chk ((Nat → α) × Nat)
  | 0, _, _, _ => .error .fuel
  | fuel + 1, h, n, p =>
    if 2 * p + 2 < n then do
      if ← greater (h (2 * p + 2)) (h (2 * p + 1)) then
        siftHole greater fuel (swapAt h p (2 * p + 1)) n (2 * p + 1)
      else siftHole greater fuel (swapAt h p (2 * p + 2)) n (2 * p + 2)
    else if 2 * p + 2 = n then return (swapAt h p (2 * p + 1), 2 * p + 1)
    else return (h, p)

namespace HeapArray

def empty (x : α) : HeapArray α := ⟨0, fun _ => x⟩

def toList (v : HeapArray α) : List α := (List.range v.size).map v.elem

def pushHeap (greater : α → α → Chk Bool) (v : HeapArray α) : Chk (HeapArray α) := do
  let elem ← siftUp greater v.size v.elem (v.size - 1)
  return { v with elem }

def popHeap (greater : α → α → Chk Bool) (v : HeapArray α) : Chk (HeapArray α) := do
  let (h, p) ← siftHole greater v.size (swapAt v.elem 0 (v.size - 1)) (v.size - 1) 0
  let elem ← siftUp greater v.size h p
  return { v with elem }

def pushBack (v : HeapArray α) (x : α) : HeapArray α := ⟨v.size + 1, Function.update v.elem v.size x⟩

def popBack (v : HeapArray α) : HeapArray α := { v with size := v.size - 1 }

def setBack (v : HeapArray α) (x : α) : HeapArray α :=
  { v with elem := Function.update v.elem (v.size - 1) x }

end HeapArray

theorem swapAt_eq_comp (h : Nat → α) (a b : Nat) : swapAt h a b = h ∘ Equiv.swap a b := by
  funext c
  by_cases hca : c = a
  · rw [hca, swapAt_left, Function.comp_apply, Equiv.swap_apply_left]
  · by_cases hcb : c = b
    · rw [hcb, swapAt_right, Function.comp_apply, Equiv.swap_apply_right]
    · rw [swapAt_of_ne hca hcb, Function.comp_apply, Equiv.swap_apply_of_ne_of_ne hca hcb]

theorem swap_lt {n a b c : Nat} (ha : a < n) (hb : b < n) (hc : c < n) : Equiv.swap a b c < n := by
  have := swapAt_forall (h := id) (P := (· < n)) (fun _ h => h) ha hb hc
  rwa [swapAt_eq_comp] at this

structure Rearranged (h h' : Nat → α) (n : Nat) : Prop where
  perm : ((List.range n).map h').Perm ((List.range n).map h)
  frame : ∀ c, n ≤ c → h' c = h c

namespace Rearranged

variable {h h' h'' : Nat → α} {n a b : Nat}

theorem refl (h : Nat → α) (n : Nat) : Rearranged h h n := ⟨.refl _, fun _ _ => rfl⟩

theorem trans (h1 : Rearranged h h' n) (h2 : Rearranged h' h'' n) : Rearranged h h'' n :=
  ⟨h2.perm.trans h1.perm, fun c hc => (h2.frame c hc).trans (h1.frame c hc)⟩

theorem swapAt (ha : a < n) (hb : b < n) : Rearranged h (swapAt h a b) n where
  perm := by
    rw [swapAt_eq_comp, ← map_map]
    refine List.Perm.map h ((perm_ext_iff_of_nodup
      (nodup_range.map (Equiv.injective _)) nodup_range).mpr fun c => ?_)
    simp only [mem_map, mem_range]
    constructor
    · rintro ⟨d, hd, rfl⟩
      exact swap_lt ha hb hd
    · exact fun hc => ⟨Equiv.swap a b c, swap_lt ha hb hc, Equiv.swap_apply_self ..⟩
  frame c hc := swapAt_of_ne (by omega) (by omega)

end Rearranged

section Keys

variable {κ : Type} {key : α → κ} {greater : α → α → Chk Bool} {h h' : Nat → α} {n p : Nat}

def Distinct (key : α → κ) (h : Nat → α) (n : Nat) : Prop := (((List.range n).map h).map key).Nodup

theorem Distinct.ne (hd : Distinct key h n) (ha : a < n) (hb : b < n) (hab : a ≠ b) :
    key (h a) ≠ key (h b) := by
  rw [Distinct, map_map] at hd
  exact fun heq => hab (inj_on_of_nodup_map hd (mem_range.mpr ha) (mem_range.mpr hb) heq)

theorem Distinct.of_perm (hd : Distinct key h n) (hr : Rearranged h h' n) : Distinct key h' n :=
  (hr.perm.map key).nodup_iff.mpr hd

variable [LinearOrder κ]

def Compares (greater : α → α → Chk Bool) (key : α → κ) : Prop :=
  ∀ x y, key x ≠ key y → greater x y = .ok (decide (key y < key x))

def rankOf (key : α → κ) (x : α) : κᵒᵈ := OrderDual.toDual (key x)

theorem siftUp_spec (fuel : Nat) (hcmp : Compares greater key) (hd : Distinct key h n) (hp : p < n)
    (hfuel : p ≤ fuel) (hs : SiftUp (rankOf key) h n p) :
    ∃ h', siftUp greater fuel h p = .ok h' ∧ HeapFrom (rankOf key) h' n 0 ∧ Rearranged h h' n := by
  induction fuel generalizing h p with
  | zero => exact ⟨h, rfl, hs.done (by omega), .refl h n⟩
  | succ fuel ih =>
    rw [siftUp]
    split
    · rename_i hpos
      have hq : (p - 1) / 2 < p := by omega
      rw [hcmp _ _ (hd.ne (hq.trans hp) hp hq.ne), ok_bind]
      split
      · rename_i hlt
        have hr := Rearranged.swapAt (h := h) (hq.trans hp) hp
        have hlt := of_decide_eq_true hlt
        obtain ⟨h', hsift, hheap, hr'⟩ :=
          ih (hd.of_perm hr) (hq.trans hp) (by omega) (hs.swap hpos hp hlt.le)
        exact ⟨h', hsift, hheap, hr.trans hr'⟩
      · rename_i hge
        exact ⟨h, rfl, hs.done fun _ => le_of_not_gt fun hlt => hge (decide_eq_true hlt), .refl h n⟩
    · exact ⟨h, rfl, hs.done (by omega), .refl h n⟩

theorem siftHole_child (hh : Hole (rankOf key) h n p) (hn : 2 * p + 2 < n) :
    Hole (rankOf key) (swapAt h p (if key (h (2 * p + 1)) < key (h (2 * p + 2)) then 2 * p + 1
      else 2 * p + 2)) n
      (if key (h (2 * p + 1)) < key (h (2 * p + 2)) then 2 * p + 1 else 2 * p + 2) := by
  split
  · rename_i hlt
    refine hh.swap (by omega) (by omega) (by omega) fun c hc hcn hcp => ?_
    obtain rfl | rfl : c = 2 * p + 1 ∨ c = 2 * p + 2 := by omega
    · exact le_rfl
    · exact hlt.le
  · rename_i hge
    refine hh.swap (by omega) (by omega) (by omega) fun c hc hcn hcp => ?_
    obtain rfl | rfl : c = 2 * p + 1 ∨ c = 2 * p + 2 := by omega
    · exact not_lt.mp hge
    · exact le_rfl

theorem siftHole_spec (fuel : Nat) (hcmp : Compares greater key) (hd : Distinct key h n)
    (hp : p < n) (hfuel : n - p ≤ fuel) (hh : Hole (rankOf key) h n p) :
    ∃ h' q, siftHole greater fuel h n p = .ok (h', q) ∧ q < n ∧ SiftUp (rankOf key) h' n q ∧
      Rearranged h h' n := by
  induction fuel generalizing h p with
  | zero => omega
  | succ fuel ih =>
    rw [siftHole]
    split
    · rename_i hn
      have hchild := siftHole_child hh hn
      rw [hcmp _ _ (hd.ne hn (by omega) (by omega)), ok_bind]
      split
      · rename_i hlt
        rw [if_pos (of_decide_eq_true hlt)] at hchild
        have hr := Rearranged.swapAt (h := h) hp (b := 2 * p + 1) (by omega)
        obtain ⟨h', q, hsift, hq, hs, hr'⟩ := ih (hd.of_perm hr) (by omega) (by omega) hchild
        exact ⟨h', q, hsift, hq, hs, hr.trans hr'⟩
      · rename_i hge
        rw [if_neg fun hlt => hge (decide_eq_true hlt)] at hchild
        have hr := Rearranged.swapAt (h := h) hp hn
        obtain ⟨h', q, hsift, hq, hs, hr'⟩ := ih (hd.of_perm hr) hn (by omega) hchild
        exact ⟨h', q, hsift, hq, hs, hr.trans hr'⟩
    · split
      · rename_i hn
        refine ⟨_, _, rfl, by omega, ?_, .swapAt hp (by omega)⟩
        refine (hh.swap (by omega) (by omega) (by omega) fun c hc hcn hcp => ?_).leaf (by omega)
        obtain rfl : c = 2 * p + 1 := by omega
        exact le_rfl
      · exact ⟨h, p, rfl, hp, hh.leaf (by omega), .refl h n⟩

namespace HeapArray

variable {v : HeapArray α} {x : α}

def Ordered (key : α → κ) (v : HeapArray α) : Prop := HeapFrom (rankOf key) v.elem v.size 0

theorem Ordered.front_le (ho : v.Ordered key) (hx : x ∈ v.toList) : key (v.elem 0) ≤ key x := by
  obtain ⟨c, hc, rfl⟩ := mem_map.mp hx
  exact ho.root (mem_range.mp hc)

theorem pushBack_elem_last : (v.pushBack x).elem v.size = x := Function.update_self ..

theorem pushBack_elem (hc : c ≠ v.size) : (v.pushBack x).elem c = v.elem c :=
  Function.update_of_ne hc ..

theorem toList_pushBack (v : HeapArray α) (x : α) : (v.pushBack x).toList = v.toList ++ [x] := by
  have hinit : (List.range v.size).map (v.pushBack x).elem = v.toList :=
    map_congr_left fun c hc => pushBack_elem (mem_range.mp hc).ne
  rw [← hinit, toList, show (v.pushBack x).size = v.size + 1 from rfl, range_succ, map_append,
    map_singleton, pushBack_elem_last]

theorem pushHeap_spec (hcmp : Compares greater key) (ho : v.Ordered key)
    (hd : ((v.toList ++ [x]).map key).Nodup) :
    ∃ v', (v.pushBack x).pushHeap greater = .ok v' ∧ v'.Ordered key ∧
      v'.toList.Perm (v.toList ++ [x]) := by
  have hs : SiftUp (rankOf key) (v.pushBack x).elem (v.size + 1) v.size := by
    refine ⟨fun c hc hn hcp => ?_, fun hpos c hc hn hcp => by omega⟩
    rw [pushBack_elem hcp, pushBack_elem (by omega)]
    exact ho c hc (by omega) (Nat.zero_le _)
  rw [← toList_pushBack] at hd
  obtain ⟨h', hsift, hheap, hr⟩ :=
    siftUp_spec (v.size + 1) hcmp hd (Nat.lt_succ_self v.size) (Nat.le_succ v.size) hs
  refine ⟨⟨v.size + 1, h'⟩, ?_, hheap, ?_⟩
  · rw [pushHeap]
    exact bind_eq_ok.mpr ⟨h', hsift, rfl⟩
  · rw [← toList_pushBack]
    exact hr.perm

theorem popHeap_spec (hcmp : Compares greater key) (ho : v.Ordered key) (hd : (v.toList.map key).Nodup)
    (hpos : 0 < v.size) :
    ∃ v', v.popHeap greater = .ok v' ∧ v'.popBack.Ordered key ∧
      v.toList.Perm (v.elem 0 :: v'.popBack.toList) := by
  obtain ⟨n, hsize⟩ := Nat.exists_eq_add_of_lt hpos
  rw [Nat.zero_add] at hsize
  have hr := Rearranged.swapAt (h := v.elem) (n := n + 1) (Nat.succ_pos n) (Nat.lt_succ_self n)
  have hd' : Distinct key (swapAt v.elem 0 n) n := by
    have : Distinct key (swapAt v.elem 0 n) (n + 1) := .of_perm (by rwa [toList, hsize] at hd) hr
    rw [Distinct, range_succ, map_append, map_append] at this
    exact (nodup_append.mp this).1
  have hh : Hole (rankOf key) (swapAt v.elem 0 n) n 0 := Hole.of_root (by rwa [Ordered, hsize] at ho)
  suffices hsift : ∃ h' q h'', siftHole greater (n + 1) (swapAt v.elem 0 n) n 0 = .ok (h', q) ∧
      siftUp greater (n + 1) h' q = .ok h'' ∧ HeapFrom (rankOf key) h'' n 0 ∧
        Rearranged (swapAt v.elem 0 n) h'' n by
    obtain ⟨h', q, h'', hhole, hup, hheap, hr'⟩ := hsift
    refine ⟨⟨n + 1, h''⟩, ?_, hheap, ?_⟩
    · rw [popHeap, hsize, Nat.add_sub_cancel]
      exact bind_eq_ok.mpr ⟨_, hhole, bind_eq_ok.mpr ⟨h'', hup, rfl⟩⟩
    · rw [toList, hsize]
      refine hr.perm.symm.trans ?_
      rw [range_succ, map_append, map_singleton, swapAt_right]
      exact (perm_append_singleton _ _).trans (hr'.perm.symm.cons _)
  rcases Nat.eq_zero_or_pos n with rfl | hn
  · exact ⟨_, 0, _, rfl, rfl, fun c hc hlt => absurd hlt (by omega), .refl ..⟩
  · obtain ⟨h', q, hhole, hq, hs, hr'⟩ := siftHole_spec (n + 1) hcmp hd' hn (by omega) hh
    obtain ⟨h'', hup, hheap, hr''⟩ := siftUp_spec (n + 1) hcmp (hd'.of_perm hr') hq (by omega) hs
    exact ⟨h', q, h'', hhole, hup, hheap, hr'.trans hr''⟩

end HeapArray

end Keys

end Lib
