import Gem5.Mem.Ruby.Topology

/-!
# Relaxation to the shortest paths

Whatever the relaxation has done so far, an entry of the three matrices is one walk over the
entries it began with: its weight, its latency and its intermediate switches. Every change
lowers a distance, so the rounds end, and where they end the distances have the triangle
inequality.
-/

namespace Gem5.Topology

open Lib

def Entry (weights latencies : IntMatrix n) (i j : Fin n) (c : Int × Int) : Prop :=
  0 < weights i j ∧ c = (weights i j, latencies i j)

/-- Matrices whose sums an `int` can hold: no weight is above `w`, no latency beyond `l`. -/
structure Moderate (w l : Int) (weights latencies : IntMatrix n) : Prop where
  pos : ∀ i j, i ≠ j → 0 < weights i j
  nonneg : ∀ i j, 0 ≤ weights i j
  le : ∀ i j, weights i j ≤ w
  latency : ∀ i j, |latencies i j| ≤ l
  sum : 2 * w < 2 ^ 31
  product : w * l < 2 ^ 31

structure Sound (weights latencies : IntMatrix n) (s : PathMatrices n) : Prop where
  idle : ∀ i, weights i i = 0 → s.currentDist i i = 0 ∧ s.latencies i i = latencies i i ∧
    s.interSwitches i i = 0
  walk : ∀ i j, 0 < weights i j →
    ∃ m : Nat, Walk (Entry weights latencies) i j (m + 1) (s.currentDist i j, s.latencies i j) ∧
      s.interSwitches i j = m
  le : ∀ i j, s.currentDist i j ≤ weights i j

section

variable {n : Nat} {weights latencies : IntMatrix n} {w l : Int} {s : PathMatrices n} {i j k : Fin n}

theorem setEntry_self (m : IntMatrix n) (x : Int) : setEntry m i j x i j = x := if_pos ⟨rfl, rfl⟩

theorem setEntry_of_ne (m : IntMatrix n) (x : Int) (h : (i', j') ≠ (i, j)) :
    setEntry m i j x i' j' = m i' j' := by
  refine if_neg fun heq => h ?_
  rw [Fin.ext heq.1, Fin.ext heq.2]

theorem setEntry_setEntry (m : IntMatrix n) (x y : Int) :
    setEntry (setEntry m i j x) i j y = setEntry m i j y := by
  funext i' j'
  by_cases h : i'.val = i ∧ j'.val = j
  · simp [setEntry, if_pos h]
  · simp [setEntry, if_neg h]

theorem total_setEntry_lt (hx : 0 ≤ x) (hlt : x < m i j) :
    total (setEntry m i j x) < total m := by
  refine Finset.sum_lt_sum (fun p _ => ?_) ⟨(i, j), Finset.mem_univ _, ?_⟩
  · by_cases hp : (p.1, p.2) = (i, j)
    · obtain ⟨rfl, rfl⟩ := Prod.mk.inj hp
      rw [setEntry_self]
      exact Int.toNat_le_toNat hlt.le
    · rw [setEntry_of_ne _ _ hp]
  · rw [setEntry_self]
    dsimp only
    omega

theorem one_le_of_entry (i j : Fin n) (c : Int × Int) (h : Entry weights latencies i j c) :
    1 ≤ AddMonoidHom.fst Int Int c := by
  obtain ⟨hpos, rfl⟩ := h
  exact hpos

theorem Sound.init (weights latencies : IntMatrix n) (change : Bool) :
    Sound weights latencies ⟨change, weights, latencies, fun _ _ => 0⟩ where
  idle _ hi := ⟨hi, rfl, rfl⟩
  walk _ _ hij := ⟨0, .single ⟨hij, rfl⟩, rfl⟩
  le _ _ := le_rfl

namespace Sound

variable (h : Sound weights latencies s) (hm : Moderate w l weights latencies)

include h

include hm

theorem measured (hne : i ≠ j) :
    0 ≤ s.interSwitches i j ∧ s.interSwitches i j + 1 ≤ s.currentDist i j ∧
      |s.latencies i j| ≤ s.currentDist i j * l := by
  obtain ⟨m, hwalk, hinter⟩ := h.walk i j (hm.pos i j hne)
  have hlength : ((m + 1 : Nat) : Int) ≤ s.currentDist i j := hwalk.length_le _ one_le_of_entry
  have hlatency : |s.latencies i j| ≤ ((m + 1 : Nat) : Int) * l := by
    refine hwalk.abs_le (.snd Int Int) ?_
    rintro i j c ⟨-, rfl⟩
    exact hm.latency i j
  have hl : 0 ≤ l := (abs_nonneg _).trans (hm.latency i j)
  rw [hinter]
  refine ⟨Int.natCast_nonneg m, by exact_mod_cast hlength, hlatency.trans ?_⟩
  exact mul_le_mul_of_nonneg_right hlength hl

theorem dist_nonneg (i j : Fin n) : 0 ≤ s.currentDist i j := by
  rcases (hm.nonneg i j).eq_or_lt with hzero | hpos
  · have hdiag : i = j := by
      by_contra hne
      exact absurd hzero (hm.pos i j hne).ne
    subst hdiag
    exact (h.idle i hzero.symm).1.ge
  · obtain ⟨m, hwalk, -⟩ := h.walk i j hpos
    have hlength : ((m + 1 : Nat) : Int) ≤ s.currentDist i j := hwalk.length_le _ one_le_of_entry
    exact (Int.natCast_nonneg _).trans hlength

theorem ne_of_shorter (hlt : s.currentDist i k + s.currentDist k j < s.currentDist i j) :
    i ≠ k ∧ k ≠ j := by
  constructor
  · rintro rfl
    linarith [h.dist_nonneg hm i i]
  · rintro rfl
    linarith [h.dist_nonneg hm k k]

section

variable (hlt : s.currentDist i k + s.currentDist k j < s.currentDist i j)
include hlt

theorem signed_inter :
    signed 32 (s.interSwitches i k + s.interSwitches k j) = .ok
      (s.interSwitches i k + s.interSwitches k j) ∧
      signed 32 (s.interSwitches i k + s.interSwitches k j + 1) = .ok
        (s.interSwitches i k + s.interSwitches k j + 1) := by
  obtain ⟨hik, hkj⟩ := h.ne_of_shorter hm hlt
  have hfirst := h.measured hm hik
  have hsecond := h.measured hm hkj
  have htop := (h.le i j).trans (hm.le i j)
  have hsum := hm.sum
  constructor
  · exact signed_int (by rw [abs_of_nonneg (by linarith)]; linarith)
  · exact signed_int (by rw [abs_of_nonneg (by linarith)]; linarith)

theorem signed_latency :
    signed 32 (s.latencies i k + s.latencies k j) = .ok (s.latencies i k + s.latencies k j) := by
  obtain ⟨hik, hkj⟩ := h.ne_of_shorter hm hlt
  have hl : 0 ≤ l := (abs_nonneg _).trans (hm.latency i j)
  refine signed_int ?_
  calc |s.latencies i k + s.latencies k j|
      ≤ |s.latencies i k| + |s.latencies k j| := abs_add_le _ _
    _ ≤ s.currentDist i k * l + s.currentDist k j * l :=
      add_le_add (h.measured hm hik).2.2 (h.measured hm hkj).2.2
    _ = (s.currentDist i k + s.currentDist k j) * l := by ring
    _ ≤ w * l := mul_le_mul_of_nonneg_right (by linarith [h.le i j, hm.le i j]) hl
    _ < 2 ^ 31 := hm.product

theorem detour (change : Bool) :
    Sound weights latencies ⟨change,
      setEntry s.currentDist i j (s.currentDist i k + s.currentDist k j),
      setEntry s.latencies i j (s.latencies i k + s.latencies k j),
      setEntry s.interSwitches i j (s.interSwitches i k + s.interSwitches k j + 1)⟩ := by
  obtain ⟨hik, hkj⟩ := h.ne_of_shorter hm hlt
  refine ⟨fun i' hi' => ?_, fun i' j' hpos => ?_, fun i' j' => ?_⟩
  · have hne : (i', i') ≠ (i, j) := by
      rintro heq
      obtain ⟨rfl, rfl⟩ := Prod.mk.inj heq
      linarith [(h.idle i' hi').1, h.dist_nonneg hm i' k, h.dist_nonneg hm k i']
    simp only [setEntry_of_ne _ _ hne]
    exact h.idle i' hi'
  · by_cases heq : (i', j') = (i, j)
    · obtain ⟨rfl, rfl⟩ := Prod.mk.inj heq
      obtain ⟨m1, hfirst, hinter1⟩ := h.walk i' k (hm.pos i' k hik)
      obtain ⟨m2, hsecond, hinter2⟩ := h.walk k j' (hm.pos k j' hkj)
      simp only [setEntry_self]
      refine ⟨m1 + 1 + m2, hfirst.append hsecond, ?_⟩
      rw [hinter1, hinter2]
      push_cast
      ring
    · simp only [setEntry_of_ne _ _ heq]
      exact h.walk i' j' hpos
  · dsimp only
    by_cases heq : (i', j') = (i, j)
    · obtain ⟨rfl, rfl⟩ := Prod.mk.inj heq
      rw [setEntry_self]
      exact hlt.le.trans (h.le i' j')
    · rw [setEntry_of_ne _ _ heq]
      exact h.le i' j'

end

end Sound

structure Scanned (s : PathMatrices n) (i j : Fin n) (before : List (Fin n)) (r : Scan n) : Prop where
  least : ∀ k ∈ before, r.minimum ≤ s.currentDist i k + s.currentDist k j
  outcome : r = ⟨s.currentDist i j, none, s.interSwitches⟩ ∨
    ∃ k, s.currentDist i k + s.currentDist k j < s.currentDist i j ∧
      r = ⟨s.currentDist i k + s.currentDist k j, some k,
        setEntry s.interSwitches i j (s.interSwitches i k + s.interSwitches k j + 1)⟩

theorem Scanned.minimum_le (h : Scanned s i j before r) : r.minimum ≤ s.currentDist i j := by
  rcases h.outcome with rfl | ⟨k, hlt, rfl⟩
  · exact le_rfl
  · exact hlt.le

theorem Scanned.inter_of_ne (h : Scanned s i j before r) (hne : (i', j') ≠ (i, j)) :
    r.interSwitches i' j' = s.interSwitches i' j' := by
  rcases h.outcome with rfl | ⟨k, -, rfl⟩
  · rfl
  · exact setEntry_of_ne _ _ hne

theorem Scanned.setEntry_inter (h : Scanned s i j before r) (x : Int) :
    setEntry r.interSwitches i j x = setEntry s.interSwitches i j x := by
  rcases h.outcome with rfl | ⟨k, -, rfl⟩
  · rfl
  · exact setEntry_setEntry _ _ _

variable (hm : Moderate w l weights latencies)
include hm

theorem scan_meets (h : Sound weights latencies s) (before : List (Fin n)) (k : Fin n)
    (r : Scan n) (hr : Scanned s i j before r) :
    Meets (Scanned s i j (before ++ [k])) (fun _ => False) (scan s.currentDist i j r k) := by
  have hik := h.dist_nonneg hm i k
  have hkj := h.dist_nonneg hm k j
  rw [scan, signed_int (by
    rw [abs_of_nonneg (add_nonneg hik hkj)]
    linarith [h.le i k, h.le k j, hm.le i k, hm.le k j, hm.sum]), ok_bind]
  by_cases hlt : s.currentDist i k + s.currentDist k j < r.minimum
  · have hshort := hlt.trans_le hr.minimum_le
    obtain ⟨hik, hkj⟩ := h.ne_of_shorter hm hshort
    obtain ⟨hsum, hsum'⟩ := h.signed_inter hm hshort
    rw [min_eq_right hlt.le, if_pos hlt.ne', hr.inter_of_ne (by simp [hkj]),
      hr.inter_of_ne (by simp [Ne.symm hik]), hsum, ok_bind, hsum', ok_bind, hr.setEntry_inter]
    refine .pure ⟨fun k' hk' => ?_, .inr ⟨k, hshort, rfl⟩⟩
    rcases List.mem_append.mp hk' with hk' | hk'
    · exact hlt.le.trans (hr.least k' hk')
    · rw [List.mem_singleton.mp hk']
  · rw [min_eq_left (not_lt.mp hlt), if_neg (not_not.mpr rfl)]
    refine .pure ⟨fun k' hk' => ?_, hr.outcome⟩
    rcases List.mem_append.mp hk' with hk' | hk'
    · exact hr.least k' hk'
    · rw [List.mem_singleton.mp hk']
      exact not_lt.mp hlt

theorem relax_meets (h : Sound weights latencies s) (p : Fin n × Fin n) :
    Meets (fun s' => Sound weights latencies s' ∧
        (s' = s ∧ (∀ k, s.currentDist p.1 p.2 ≤ s.currentDist p.1 k + s.currentDist k p.2) ∨
          s'.change = true ∧ total s'.currentDist < total s.currentDist))
            (fun _ => False) (relax s p) := by
  obtain ⟨i, j⟩ := p
  rw [relax]
  refine (Meets.forList (fun before k _ => scan_meets hm h before k) ⟨List.forall_mem_nil _,
    .inl rfl⟩).bind fun r hr => ?_
  rcases hr.outcome with rfl | ⟨k, hlt, rfl⟩
  · rw [if_neg (not_not.mpr rfl)]
    exact .pure ⟨h, .inl ⟨rfl, fun k => hr.least k (List.mem_finRange k)⟩⟩
  · rw [if_pos hlt.ne', need, ok_bind, h.signed_latency hm hlt, ok_bind]
    refine .pure ⟨h.detour hm hlt true, .inr ⟨rfl, total_setEntry_lt ?_ hlt⟩⟩
    exact add_nonneg (h.dist_nonneg hm i k) (h.dist_nonneg hm k j)

def Triangle (dist : IntMatrix n) : Prop := ∀ i j k, dist i j ≤ dist i k + dist k j

theorem sweep_meets (h : Sound weights latencies s) : Meets (fun s' => Sound weights latencies s' ∧
        (s'.change = false ∧ s'.currentDist = s.currentDist ∧ Triangle s'.currentDist ∨
          s'.change = true ∧ total s'.currentDist < total s.currentDist))
            (fun _ => False) (sweep s) := by
  -- as long as nothing has changed, the pairs gone through keep their inequality
  refine (Meets.forList (P := fun before s' => Sound weights latencies s' ∧
    (s' = { s with change := false } ∧
          (∀ p ∈ before, ∀ k, s.currentDist p.1 p.2 ≤ s.currentDist p.1 k + s.currentDist k p.2) ∨
        s'.change = true ∧ total s'.currentDist < total s.currentDist))
    (fun before p _ s' hs' => (relax_meets hm hs'.1 p).mono fun s'' hs'' => ⟨hs''.1, ?_⟩) ?_).mono
      fun s' hs' => ⟨hs'.1, ?_⟩
  · rcases hs'.2 with ⟨rfl, hbefore⟩ | ⟨hchange, hless⟩
    · rcases hs''.2 with ⟨rfl, hp⟩ | hless
      · refine .inl ⟨rfl, fun q hq => ?_⟩
        rcases List.mem_append.mp hq with hq | hq
        · exact hbefore q hq
        · rw [List.mem_singleton.mp hq]
          exact hp
      · exact .inr hless
    · rcases hs''.2 with ⟨rfl, -⟩ | ⟨hchange', hless'⟩
      · exact .inr ⟨hchange, hless⟩
      · exact .inr ⟨hchange', hless'.trans hless⟩
  · exact ⟨⟨h.idle, h.walk, h.le⟩, .inl ⟨rfl, List.forall_mem_nil _⟩⟩
  · rcases hs'.2 with ⟨rfl, hall⟩ | hless
    · refine .inl ⟨rfl, rfl, fun i j k => hall (i, j) ?_ k⟩
      exact List.pair_mem_product.mpr ⟨List.mem_finRange i, List.mem_finRange j⟩
    · exact .inr hless

theorem shortestPath_spec :
    ∃ s, shortestPath weights latencies (fun _ _ => 0) = .ok s ∧ Sound weights latencies s ∧
      Triangle s.currentDist := by
  have hround : ∀ s : PathMatrices n, Sound weights latencies s ∧
    (s.change = false → Triangle s.currentDist) → s.change = true →
      ∃ s', sweep s = .ok s' ∧
        (Sound weights latencies s' ∧ (s'.change = false → Triangle s'.currentDist)) ∧
        2 * total s'.currentDist + s'.change.toNat < 2 * total s.currentDist + s.change.toNat := by
    rintro s ⟨hs, -⟩ hmore
    obtain ⟨s', heq, hs', hcases⟩ := (sweep_meets hm hs).exists_ok
    rcases hcases with ⟨hchange, hsame, htriangle⟩ | ⟨hchange, hless⟩
    · refine ⟨s', heq, ⟨hs', fun _ => htriangle⟩, ?_⟩
      simp [hchange, hmore, hsame]
    · refine ⟨s', heq, ⟨hs', fun hfalse => ?_⟩, ?_⟩
      · rw [hchange] at hfalse
        cases hfalse
      · simp only [hchange, hmore, Bool.toNat_true]
        omega
  obtain ⟨s, heq, ⟨hsound, htriangle⟩, hstop⟩ := whileChk_spec _ _ _ _ hround (2 * total weights + 2)
    ⟨true, weights, latencies, fun _ _ => 0⟩ ⟨.init weights latencies true, by simp⟩ (by simp)
  exact ⟨s, heq, hsound, htriangle (Bool.eq_false_iff.mpr hstop)⟩

end

end Gem5.Topology
