import Gem5.Lib.Check

/-!
# Regions

`python/m5/util/region.py`: lists of half-open ranges, whose bounds are integers or infinite, and
the intersection by which `&=` changes its left operand.
-/

namespace Gem5

open Lib List Function

inductive Bound
  | negInf
  | int (n : Int)
  | posInf
  deriving DecidableEq

namespace Bound

/-- `a <= b`. An integer does not know the infinite bounds: Python asks those for `b >= a`. -/
def le : Bound → Bound → Bool
  | negInf, _ => true
  | posInf, b => b == posInf
  | int m, int n => m ≤ n
  | int _, negInf => false
  | int _, posInf => true

def lt : Bound → Bound → Bool
  | negInf, b => b != negInf
  | posInf, _ => false
  | int m, int n => m < n
  | int _, negInf => false
  | int _, posInf => true

instance : LinearOrder Bound where
  le a b := a.le b
  lt a b := a.lt b
  le_refl a := by cases a <;> simp [le]
  le_trans a b c := by cases a <;> cases b <;> cases c <;> simp [le]; omega
  lt_iff_le_not_ge a b := by cases a <;> cases b <;> simp [le, lt]; omega
  le_antisymm a b := by cases a <;> cases b <;> simp [le]; omega
  le_total a b := by cases a <;> cases b <;> simp [le]; omega
  toDecidableLE a b := inferInstanceAs (Decidable (_ = true))
  toDecidableLT a b := inferInstanceAs (Decidable (_ = true))
  toDecidableEq := inferInstance

end Bound

structure Region (α : Type) where
  start : α
  stop : α

namespace Region

variable {α : Type} [LinearOrder α] {A B A' B' : List (Region α)} {a r : Region α}
  {x : Chk (List (Region α))}

def contains (r : Region α) (p : α) : Bool := r.start ≤ p && p < r.stop

def isIn (p : α) (A : List (Region α)) : Bool := A.any (contains · p)

/-- The loop of `__iand__`, where `A` and `B` are the regions from `i` and from `j` on: what it
appends to `R`. -/
def iandLoop : List (Region α) → List (Region α) → Chk (List (Region α))
  | [], _ => return []
  | _ :: _, [] => return []
  | a :: A, b :: B =>
    if a.stop ≤ b.start then iandLoop A (b :: B)
    else if a.start ≤ b.start then
      if a.stop ≤ b.stop then
        return ⟨b.start, a.stop⟩ :: (← if a.stop = b.stop then iandLoop A B else iandLoop A (b :: B))
      else return ⟨b.start, b.stop⟩ :: (← iandLoop (a :: A) B)
    else if b.stop ≤ a.start then iandLoop (a :: A) B
    else do
      ensure (b.start < a.start) "b[0] < a[0]"
      if b.stop ≤ a.stop then
        return ⟨a.start, b.stop⟩ :: (← if a.stop = b.stop then iandLoop A B else iandLoop (a :: A) B)
      else return ⟨a.start, a.stop⟩ :: (← iandLoop A (b :: B))
termination_by A B => A.length + B.length

def iand {ι : Type} [DecidableEq ι] (objects : ι → List (Region α)) (self other : ι) :
    Chk (ι → List (Region α)) := do
  return update objects self (← iandLoop (objects self) (objects other))

def andCopy (self other : List (Region α)) : Chk (List (Region α)) := iandLoop self other

structure Proper (A : List (Region α)) : Prop where
  nonempty : ∀ r ∈ A, r.start < r.stop
  apart : A.Pairwise fun r s => r.stop ≤ s.start

@[grind =] theorem isIn_cons : isIn p (a :: A) = true ↔ (a.start ≤ p ∧ p < a.stop) ∨
    isIn p A = true := by
  simp [isIn, contains]

theorem Proper.tail (h : Proper (a :: A)) : Proper A :=
  ⟨fun r hr => h.nonempty r (mem_cons_of_mem _ hr), h.apart.of_cons⟩

@[grind →] theorem Proper.head (h : Proper (a :: A)) : a.start < a.stop := h.nonempty a mem_cons_self

@[grind →] theorem Proper.beyond (h : Proper (a :: A)) (hp : isIn p A = true) : a.stop ≤ p := by
  obtain ⟨r, hr, hc⟩ := any_eq_true.mp hp
  rw [contains, Bool.and_eq_true, decide_eq_true_eq] at hc
  exact (rel_of_pairwise_cons h.apart hr).trans hc.1

def Exact (A B : List (Region α)) (x : Chk (List (Region α))) : Prop :=
  ∃ R, x = .ok R ∧ Proper R ∧ ∀ p, isIn p R = true ↔ isIn p A = true ∧ isIn p B = true

theorem Exact.skip (h : Exact A' B' x)
    (hsame : ∀ p, isIn p A = true ∧ isIn p B = true ↔ isIn p A' = true ∧ isIn p B' = true) :
    Exact A B x := by
  obtain ⟨R, hx, hR, hmem⟩ := h
  exact ⟨R, hx, hR, fun p => (hmem p).trans (hsame p).symm⟩

theorem Exact.cons (h : Exact A' B' x) (hr : r.start < r.stop)
    (hbeyond : ∀ p, isIn p A' = true → isIn p B' = true → r.stop ≤ p)
    (hsplit : ∀ p, isIn p A = true ∧ isIn p B = true ↔
      (r.start ≤ p ∧ p < r.stop) ∨ isIn p A' = true ∧ isIn p B' = true) : Exact A B
        (return r :: (← x)) := by
  obtain ⟨R, rfl, hR, hmem⟩ := h
  refine ⟨r :: R, rfl, ⟨forall_mem_cons.mpr ⟨hr, hR.nonempty⟩,
    pairwise_cons.mpr ⟨fun s hs => ?_, hR.apart⟩⟩, fun p => ?_⟩
  · -- `s` is not empty, so it begins with a position that is in both
    have hstart := (hmem s.start).mp
      (any_eq_true.mpr ⟨s, hs, by simpa [contains] using hR.nonempty s hs⟩)
    exact hbeyond _ hstart.1 hstart.2
  · rw [isIn_cons, hmem, hsplit]

theorem iandLoop_exact (hA : Proper A) (hB : Proper B) : Exact A B (iandLoop A B) := by
  induction A, B using iandLoop.induct with
  | case1 B => exact ⟨[], by rw [iandLoop]; rfl, hA, by simp [isIn]⟩
  | case2 a A => exact ⟨[], by rw [iandLoop]; rfl, hB, by simp [isIn]⟩
  | case3 a A b B hbefore ih =>
    rw [iandLoop, if_pos hbefore]
    exact (ih hA.tail hB).skip fun p => by grind
  | case4 a A b B hafter hstart hstop heq ih =>
    rw [iandLoop, if_neg hafter, if_pos hstart, if_pos hstop, if_pos heq]
    exact (ih hA.tail hB.tail).cons (not_le.mp hafter) (fun p hp _ => hA.beyond hp) fun p => by grind
  | case5 a A b B hafter hstart hstop hne ih =>
    rw [iandLoop, if_neg hafter, if_pos hstart, if_pos hstop, if_neg hne]
    exact (ih hA.tail hB).cons (not_le.mp hafter) (fun p hp _ => hA.beyond hp) fun p => by grind
  | case6 a A b B hafter hstart hstop ih =>
    rw [iandLoop, if_neg hafter, if_pos hstart, if_neg hstop]
    exact (ih hA hB.tail).cons hB.head (fun p _ hp => hB.beyond hp) fun p => by grind
  | case7 a A b B hafter hstart hbefore ih =>
    rw [iandLoop, if_neg hafter, if_neg hstart, if_pos hbefore]
    exact (ih hA hB.tail).skip fun p => by grind
  | case8 a A b B hafter hstart hbefore ih1 ih2 ih3 =>
    rw [iandLoop, if_neg hafter, if_neg hstart, if_neg hbefore,
      ensure_of (decide_eq_true (not_le.mp hstart)), ok_bind]
    split_ifs with hstop heq
    · exact (ih1 hA.tail hB.tail).cons (not_le.mp hbefore)
        (fun p _ hp => hB.beyond hp) fun p => by grind
    · exact (ih2 hA hB.tail).cons (not_le.mp hbefore) (fun p _ hp => hB.beyond hp) fun p => by grind
    · exact (ih3 hA.tail hB).cons hA.head (fun p hp _ => hA.beyond hp) fun p => by grind

theorem iandLoop_self (h : Proper A) : iandLoop A A = .ok A := by
  induction A with
  | nil =>
    rw [iandLoop]
    rfl
  | cons a A ih =>
    rw [iandLoop, if_neg (not_le.mpr h.head), if_pos le_rfl, if_pos le_rfl, if_pos rfl, ih h.tail]
    rfl

abbrev Regions := { A : List (Region Bound) // Proper A }

/-- `&=` gives its left operand the common positions and leaves its right one, which may be the same
object;
`&` is commutative and associative. -/
theorem iand_exact {ι : Type} [DecidableEq ι] (objects : ι → Regions) (a b : ι) (x y z : Regions) :
    (∃ r : Regions, iand (fun i => (objects i).1) a b = .ok (fun i => (update objects a r i).1) ∧
      (∀ p, isIn p r.1 ↔ isIn p (objects a).1 ∧ isIn p (objects b).1) ∧
      update objects a r b = objects b) ∧
    (∃ r s, andCopy x.1 y.1 = .ok r ∧ andCopy y.1 x.1 = .ok s ∧ ∀ p, isIn p r ↔ isIn p s) ∧
    ∃ r s, (andCopy x.1 y.1 >>= (andCopy · z.1)) = .ok r ∧ (andCopy y.1 z.1 >>= andCopy x.1) = .ok s ∧
      ∀ p, isIn p r ↔ isIn p s := by
  obtain ⟨R, hR, hproper, hmem⟩ := iandLoop_exact (objects a).2 (objects b).2
  obtain ⟨xy, hxy, hpxy, hmxy⟩ := iandLoop_exact x.2 y.2
  obtain ⟨yx, hyx, -, hmyx⟩ := iandLoop_exact y.2 x.2
  obtain ⟨yz, hyz, hpyz, hmyz⟩ := iandLoop_exact y.2 z.2
  obtain ⟨r, hr, -, hmr⟩ := iandLoop_exact hpxy z.2
  obtain ⟨s, hs, -, hms⟩ := iandLoop_exact x.2 hpyz
  refine ⟨⟨⟨R, hproper⟩, ?_, hmem, ?_⟩, ⟨xy, yx, hxy, hyx, fun p => ?_⟩, r, s, ?_, ?_, fun p => ?_⟩
  · rw [iand, hR]
    exact congrArg Except.ok (funext fun i =>
      (apply_update (fun _ => Subtype.val) objects a ⟨R, hproper⟩ i).symm)
  · by_cases hba : b = a
    · subst hba
      cases (iandLoop_self (objects b).2).symm.trans hR
      exact update_self ..
    · exact update_of_ne hba ..
  · rw [hmxy, hmyx, and_comm]
  · simp only [andCopy, hxy, ok_bind, hr]
  · simp only [andCopy, hyz, ok_bind, hs]
  · rw [hmr, hms, hmxy, hmyz, and_assoc]

end Region

end Gem5
