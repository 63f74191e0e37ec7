import Mathlib.Tactic

/-!
# Binary heaps in an array

Position `c > 0` has the parent `(c - 1) / 2`. `HeapFrom rank h n s` says that
no position below `n` outranks its parent, for the parents from `s` on; with
`s = 0` the array is a heap. While an element is moved down or up, the order may
fail at its position only, and `SiftDown` and `SiftUp` say what holds around it;
`Hole` is for an element that is compared with nothing while it is moved down.
-/

namespace Lib

open Function

variable {α β : Type*} [Preorder β] {rank : α → β} {h : Nat → α} {n s p m c : Nat} {x : α}

def swapAt (h : Nat → α) (a b : Nat) : Nat → α :=
  update (update h a (h b)) b (h a)

theorem swapAt_right (h : Nat → α) (a b : Nat) : swapAt h a b b = h a := by simp [swapAt]

theorem swapAt_left (h : Nat → α) (a b : Nat) : swapAt h a b a = h b := by
  by_cases hab : a = b
  · simp [swapAt, hab]
  · simp [swapAt, update_of_ne hab]

theorem swapAt_of_ne (ha : c ≠ a) (hb : c ≠ b) : swapAt h a b c = h c := by
  simp [swapAt, update_of_ne ha, update_of_ne hb]

theorem swapAt_forall {P : α → Prop} (hP : ∀ c < n, P (h c)) (ha : a < n) (hb : b < n) (hc : c < n) :
    P (swapAt h a b c) := by
  by_cases hca : c = a
  · rw [hca, swapAt_left]
    exact hP b hb
  · by_cases hcb : c = b
    · rw [hcb, swapAt_right]
      exact hP a ha
    · rw [swapAt_of_ne hca hcb]
      exact hP c hc

theorem swapAt_swapAt (h : Nat → α) (a b : Nat) : swapAt (swapAt h a b) a b = h := by
  funext c
  by_cases hca : c = a
  · rw [hca, swapAt_left, swapAt_right]
  · by_cases hcb : c = b
    · rw [hcb, swapAt_right, swapAt_left]
    · rw [swapAt_of_ne hca hcb, swapAt_of_ne hca hcb]

def HeapFrom (rank : α → β) (h : Nat → α) (n s : Nat) : Prop :=
  ∀ c, 0 < c → c < n → s ≤ (c - 1) / 2 → rank (h c) ≤ rank (h ((c - 1) / 2))

theorem HeapFrom.root (hh : HeapFrom rank h n 0) (hc : c < n) : rank (h c) ≤ rank (h 0) := by
  induction c using Nat.strong_induction_on with
  | _ c ih =>
    rcases Nat.eq_zero_or_pos c with rfl | hpos
    · exact le_rfl
    · exact (hh c hpos hc (Nat.zero_le _)).trans (ih ((c - 1) / 2) (by omega) (by omega))

structure SiftDown (rank : α → β) (h : Nat → α) (n s p : Nat) : Prop where
  off : ∀ c, 0 < c → c < n → s ≤ (c - 1) / 2 → (c - 1) / 2 ≠ p →
    rank (h c) ≤ rank (h ((c - 1) / 2))
  grand : 0 < p → s ≤ (p - 1) / 2 → ∀ c, 0 < c → c < n → (c - 1) / 2 = p →
    rank (h c) ≤ rank (h ((p - 1) / 2))

theorem SiftDown.of_next (hh : HeapFrom rank h n (p + 1)) : SiftDown rank h n p p where
  off c hc hn hs hp := hh c hc hn (by omega)
  grand hp hs := by omega

theorem SiftDown.of_root (hh : HeapFrom rank h n 0) (x : α) :
    SiftDown rank (update h 0 x) n 0 0 where
  off c hc hn _ hp := by
    rw [update_of_ne (by omega), update_of_ne hp]
    exact hh c hc hn (Nat.zero_le _)
  grand hp := absurd hp (Nat.lt_irrefl 0)

theorem SiftDown.done (hh : SiftDown rank h n s p)
    (hle : ∀ c, 0 < c → c < n → (c - 1) / 2 = p → rank (h c) ≤ rank (h p)) :
    HeapFrom rank h n s := by
  intro c hc hn hs
  by_cases hp : (c - 1) / 2 = p
  · rw [hp]
    exact hle c hc hn hp
  · exact hh.off c hc hn hs hp

theorem SiftDown.swap (hh : SiftDown rank h n s p) (hs : s ≤ p) (hm : 0 < m) (hmn : m < n)
    (hmp : (m - 1) / 2 = p) (hlt : rank (h p) ≤ rank (h m))
    (hmax : ∀ c, 0 < c → c < n → (c - 1) / 2 = p → rank (h c) ≤ rank (h m)) :
    SiftDown rank (swapAt h p m) n s m := by
  constructor
  · intro c hc hn hsc hcm
    by_cases hcp : (c - 1) / 2 = p
    · rw [hcp, swapAt_left]
      by_cases hcm' : c = m
      · rw [hcm', swapAt_right]
        exact hlt
      · rw [swapAt_of_ne (by omega) hcm']
        exact hmax c hc hn hcp
    · rw [swapAt_of_ne hcp hcm]
      by_cases hcp' : c = p
      · subst hcp'
        rw [swapAt_left]
        exact hh.grand hc hsc m hm hmn hmp
      · rw [swapAt_of_ne hcp' (by rintro rfl; exact hcp hmp)]
        exact hh.off c hc hn hsc hcp
  · intro _ _ c hc hn hcm
    rw [hmp, swapAt_left, swapAt_of_ne (by omega) (by omega)]
    have := hh.off c hc hn (by omega) (by omega)
    rwa [hcm] at this

structure SiftUp (rank : α → β) (h : Nat → α) (n p : Nat) : Prop where
  off : ∀ c, 0 < c → c < n → c ≠ p → rank (h c) ≤ rank (h ((c - 1) / 2))
  grand : 0 < p → ∀ c, 0 < c → c < n → (c - 1) / 2 = p → rank (h c) ≤ rank (h ((p - 1) / 2))

theorem SiftUp.of_raise (hh : HeapFrom rank h n 0) (hp : p < n) (hx : rank (h p) ≤ rank x) :
    SiftUp rank (update h p x) n p where
  off c hc hn hcp := by
    rw [update_of_ne hcp]
    by_cases hpc : (c - 1) / 2 = p
    · rw [hpc, update_self]
      exact (hpc ▸ hh c hc hn (Nat.zero_le _)).trans hx
    · rw [update_of_ne hpc]
      exact hh c hc hn (Nat.zero_le _)
  grand hpos c hc hn hpc := by
    rw [update_of_ne (by omega), update_of_ne (by omega)]
    exact (hpc ▸ hh c hc hn (Nat.zero_le _)).trans (hh p hpos hp (Nat.zero_le _))

theorem SiftUp.done (hh : SiftUp rank h n p)
    (hle : 0 < p → rank (h p) ≤ rank (h ((p - 1) / 2))) : HeapFrom rank h n 0 := by
  intro c hc hn _
  by_cases hp : c = p
  · rw [hp] at hc ⊢
    exact hle hc
  · exact hh.off c hc hn hp

theorem SiftUp.swap (hh : SiftUp rank h n p) (hp : 0 < p) (hpn : p < n)
    (hlt : rank (h ((p - 1) / 2)) ≤ rank (h p)) :
    SiftUp rank (swapAt h ((p - 1) / 2) p) n ((p - 1) / 2) := by
  constructor
  · intro c hc hn hcq
    by_cases hcp : c = p
    · rw [hcp, swapAt_right, swapAt_left]
      exact hlt
    · rw [swapAt_of_ne hcq hcp]
      by_cases hpq : (c - 1) / 2 = (p - 1) / 2
      · rw [hpq, swapAt_left]
        have := hh.off c hc hn hcp
        rw [hpq] at this
        exact this.trans hlt
      · by_cases hpc : (c - 1) / 2 = p
        · rw [hpc, swapAt_right]
          exact hh.grand hp c hc hn hpc
        · rw [swapAt_of_ne hpq hpc]
          exact hh.off c hc hn hcp
  · intro hq c hc hn hcq
    rw [show swapAt h ((p - 1) / 2) p (((p - 1) / 2 - 1) / 2) = h (((p - 1) / 2 - 1) / 2) from
      swapAt_of_ne (by omega) (by omega)]
    have hqp : (p - 1) / 2 < p := by omega
    have hup := hh.off ((p - 1) / 2) hq (hqp.trans hpn) hqp.ne
    by_cases hcp : c = p
    · rw [hcp, swapAt_right]
      exact hup
    · rw [swapAt_of_ne (by omega) hcp]
      have := hh.off c hc hn hcp
      rw [hcq] at this
      exact this.trans hup

/-- The element at `p` may be out of order with its parent and its children. -/
structure Hole (rank : α → β) (h : Nat → α) (n p : Nat) : Prop where
  off : ∀ c, 0 < c → c < n → c ≠ p → (c - 1) / 2 ≠ p → rank (h c) ≤ rank (h ((c - 1) / 2))
  grand : 0 < p → ∀ c, 0 < c → c < n → (c - 1) / 2 = p → rank (h c) ≤ rank (h ((p - 1) / 2))

theorem Hole.of_root (hh : HeapFrom rank h (n + 1) 0) : Hole rank (swapAt h 0 n) n 0 where
  off c hc hn _ hp := by
    rw [swapAt_of_ne hc.ne' hn.ne, swapAt_of_ne hp (by omega)]
    exact hh c hc (by omega) (Nat.zero_le _)
  grand hp := absurd hp (Nat.lt_irrefl 0)

theorem Hole.swap (hh : Hole rank h n p) (hm : 0 < m) (hmn : m < n) (hmp : (m - 1) / 2 = p)
    (hmax : ∀ c, 0 < c → c < n → (c - 1) / 2 = p → rank (h c) ≤ rank (h m)) :
    Hole rank (swapAt h p m) n m := by
  constructor
  · intro c hc hn hcm hpm
    by_cases hcp : (c - 1) / 2 = p
    · rw [hcp, swapAt_left, swapAt_of_ne (by omega) hcm]
      exact hmax c hc hn hcp
    · rw [swapAt_of_ne hcp hpm]
      by_cases hcp' : c = p
      · subst hcp'
        rw [swapAt_left]
        exact hh.grand hc m hm hmn hmp
      · rw [swapAt_of_ne hcp' hcm]
        exact hh.off c hc hn hcp' hcp
  · intro _ c hc hn hcm
    rw [hmp, swapAt_left, swapAt_of_ne (by omega) (by omega), ← hcm]
    exact hh.off c hc hn (by omega) (by omega)

theorem Hole.leaf (hh : Hole rank h n p) (hleaf : n ≤ 2 * p + 1) : SiftUp rank h n p where
  off c hc hn hcp := hh.off c hc hn hcp (by omega)
  grand _ c hc hn hcp := by omega

end Lib
