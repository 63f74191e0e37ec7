import Gem5.Mem.AddrMapper

/-!
# The ranges an address mapper advertises

`RangeAddrMapper::getAddrRanges` of `mem/addr_mapper.cc`. A downstream range inside an original
range is moved to the start of the original range, wherever in it the downstream range lies and
wherever the original range is mapped to; and a range is advertised once for each original range.
-/

namespace Gem5

open Lib List

/-- What the constructor accepts: pairs of an original and a remapped range of the same size. -/
structure RangeAddrMapper where
  ranges : List (AddrRange × AddrRange)
  inclusive : ∀ r ∈ ranges, r.1.Inclusive ∧ r.2.Inclusive
  size_eq : ∀ r ∈ ranges, r.1.last - r.1.start = r.2.last - r.2.start
  last_lt : ∀ r ∈ ranges, r.2.last < 2 ^ 64
  disjoint : ranges.Pairwise fun r s => ¬ r.1.Intersects s.1

namespace RangeAddrMapper

def Inside (o r : AddrRange) : Prop := o.start ≤ r.start ∧ r.last ≤ o.last

instance (o r : AddrRange) : Decidable (Inside o r) := inferInstanceAs (Decidable (_ ∧ _))

def moved (r o : AddrRange) : AddrRange :=
  if Inside o r then
    let offset := r.start - o.start
    ⟨r.start - offset, r.last - offset⟩
  else r

/-- Not all overlaps: a range that begins with the last address of `o` passes. -/
def Overlaps (r o : AddrRange) : Prop :=
  r.start < o.start ∧ o.start ≤ r.last ∨ r.start < o.last ∧ o.last ≤ r.last

instance (r o : AddrRange) : Decidable (Overlaps r o) := inferInstanceAs (Decidable (_ ∨ _))

def advertise (acc : AddrRange × List AddrRange) (o : AddrRange) :
    Chk (AddrRange × List AddrRange) := do
  refuse (Overlaps acc.1 o)
    (.fatal "Cannot remap range that intersects the original ranges but are not a subset.\n")
  let range := moved acc.1 o
  return (range, acc.2 ++ [range])

def getAddrRanges (m : RangeAddrMapper) (actualRanges : List AddrRange) : Chk (List AddrRange) :=
  actualRanges.foldlM (fun ranges r => do return (← (m.ranges.map Prod.fst).foldlM advertise (r,
    ranges)).2) []

def Delivers (m : RangeAddrMapper) (down advertised : List AddrRange) : Prop :=
  (∀ a, (∃ r ∈ advertised, r.Contains a) ↔ ∃ r ∈ down, r.Contains (remapAddr m.ranges a)) ∧
    advertised.Pairwise fun r s => ¬ r.Intersects s

/-- There is one original range, with one downstream range inside it at most, and of the remapped
range the downstream ranges hold as many addresses, from its start on, as they hold of the
original range. -/
def Prefixed (m : RangeAddrMapper) (down : List AddrRange) : Prop :=
  ∃ o n, m.ranges = [(o, n)] ∧ (down.Pairwise fun r s => ¬ (Inside o r ∧ Inside o s)) ∧
    ∀ d ≤ o.last - o.start, (∃ r ∈ down, r.Contains (n.start + d)) ↔
      ∃ r ∈ down, if Inside o r then d ≤ r.last - r.start else r.Contains (o.start + d)

variable {m : RangeAddrMapper} {down advertised : List AddrRange} {o n r s : AddrRange}

def shown (r : AddrRange) : List AddrRange → List AddrRange
  | [] => []
  | o :: os => moved r o :: shown (moved r o) os

theorem advertise_loop {os ranges : List AddrRange} (h : os.foldlM advertise (r, ranges) = .ok acc) :
    acc.2 = ranges ++ shown r os ∧ ∀ o ∈ os.head?, ¬ Overlaps r o := by
  induction os generalizing r ranges with
  | nil =>
    cases h
    simp [shown]
  | cons o os ih =>
    rw [foldlM_cons] at h
    obtain ⟨next, hnext, h⟩ := bind_eq_ok.mp h
    obtain ⟨_, hcalm, hnext⟩ := bind_eq_ok.mp hnext
    cases hnext
    refine ⟨by simpa [shown] using (ih h).1, fun o' ho' hover => ?_⟩
    cases ho'
    simp [refuse, hover] at hcalm

theorem getAddrRanges_spec (h : getAddrRanges m down = .ok advertised) :
    advertised = (down.flatMap fun r => shown r (m.ranges.map Prod.fst)) ∧
      ∀ r ∈ down, ∀ o ∈ (m.ranges.map Prod.fst).head?, ¬ Overlaps r o := by
  rw [getAddrRanges] at h
  rw [← nil_append (down.flatMap _)]
  generalize [] = ranges at h ⊢
  induction down generalizing ranges with
  | nil =>
    cases h
    simp
  | cons r down ih =>
    rw [foldlM_cons] at h
    obtain ⟨next, hnext, h⟩ := bind_eq_ok.mp h
    obtain ⟨acc, hacc, hnext⟩ := bind_eq_ok.mp hnext
    cases hnext
    obtain ⟨hshown, hcalm⟩ := advertise_loop hacc
    obtain ⟨heq, hrest⟩ := ih _ h
    rw [heq, hshown, flatMap_cons, append_assoc]
    exact ⟨rfl, forall_mem_cons.mpr ⟨hcalm, hrest⟩⟩

theorem moved_inside (hr : r.Inclusive) (h : Inside o r) :
    moved r o = ⟨o.start, o.start + (r.last - r.start)⟩ := by
  have hstart := h.1
  simp only [AddrRange.Inclusive] at hr
  simp only [moved, if_pos h, AddrRange.mk.injEq]
  omega

theorem moved_moved (hr : r.Inclusive) (h : Inside o r) (hdisj : ¬ o.Intersects s) :
    moved (moved r o) s = moved r o := by
  refine if_neg fun hs => hdisj ⟨o.start, ?_⟩
  rw [moved_inside hr h] at hs
  obtain ⟨hstart, hlast⟩ := h
  simp only [AddrRange.Inclusive, Inside] at *
  omega

theorem intersects_iff (hr : r.Inclusive) (hs : s.Inclusive) :
    r.Intersects s ↔ r.start ≤ s.last ∧ s.start ≤ r.last := by
  rw [← AddrRange.hits_iff hr hs, AddrRange.hits, Bool.and_eq_true, decide_eq_true_eq,
    decide_eq_true_eq]

theorem moved_inclusive (hr : r.Inclusive) : (moved r o).Inclusive := by
  unfold moved
  split
  · simp only [AddrRange.Inclusive] at *
    omega
  · exact hr

theorem moved_intersects (hr : r.Inclusive) (hs : s.Inclusive) (hor : ¬ Overlaps r o)
    (hos : ¬ Overlaps s o) (hdisj : ¬ r.Intersects s) :
    (moved r o).Intersects (moved s o) ↔ Inside o r ∧ Inside o s := by
  rw [intersects_iff (moved_inclusive hr) (moved_inclusive hs)]
  rw [intersects_iff hr hs] at hdisj
  by_cases hir : Inside o r
  · rw [moved_inside hr hir]
    by_cases his : Inside o s
    · rw [moved_inside hs his]
      exact iff_of_true ⟨Nat.le_add_right .., Nat.le_add_right ..⟩ ⟨hir, his⟩
    · rw [moved, if_neg his]
      refine iff_of_false (fun h => ?_) fun h => his h.2
      simp only [AddrRange.Inclusive, Overlaps, Inside] at *
      omega
  · rw [moved, if_neg hir]
    refine iff_of_false (fun h => ?_) fun h => hir h.1
    by_cases his : Inside o s
    · rw [moved_inside hs his] at h
      simp only [AddrRange.Inclusive, Overlaps, Inside] at *
      omega
    · rw [moved, if_neg his] at h
      exact hdisj h

theorem remapAddr_cons (ha : o.Contains a) (hsize : o.last - o.start = n.last - n.start)
    (hn : n.Inclusive) (hlt : n.last < 2 ^ 64) :
    remapAddr ((o, n) :: rest) a = n.start + (a - o.start) := by
  obtain ⟨hstart, hlast⟩ := ha
  simp only [AddrRange.Inclusive] at hn
  simp only [remapAddr, find?_cons, hstart, hlast, decide_true, Bool.and_self]
  omega

theorem remapAddr_skip (ha : ¬ o.Contains a) : remapAddr ((o, n) :: rest) a = remapAddr rest a := by
  have hskip : (decide (o.start ≤ a) && decide (a ≤ o.last)) = false := by
    simpa [AddrRange.Contains] using ha
  simp only [remapAddr, find?_cons, hskip]

section

variable (hdown : ∀ r ∈ down, r.Inclusive) (hdisj : down.Pairwise fun r s => ¬ r.Intersects s)
include hdown

theorem exists_moved : (∃ r ∈ down.map (moved · o), r.Contains a) ↔
    ∃ r ∈ down, if Inside o r then o.start ≤ a ∧ a ≤ o.start + (r.last - r.start)
      else r.Contains a := by
  simp only [mem_map, exists_exists_and_eq_and]
  refine exists_congr fun r => and_congr_right fun hr => ?_
  split
  · rename_i h
    rw [moved_inside (hdown r hr) h]
    rfl
  · rename_i h
    rw [moved, if_neg h]

include hdisj in
theorem delivers_one (hm : m.ranges = [(o, n)]) (hcalm : ∀ r ∈ down, ¬ Overlaps r o) :
    Delivers m down (down.map (moved · o)) ↔ Prefixed m down := by
  have hmem : (o, n) ∈ m.ranges := by simp [hm]
  have hincl : o.Inclusive := (m.inclusive _ hmem).1
  have hpair : (down.map (moved · o)).Pairwise (fun r s => ¬ r.Intersects s) ↔
      down.Pairwise fun r s => ¬ (Inside o r ∧ Inside o s) := by
    rw [pairwise_map]
    constructor
    · exact fun h => (h.and hdisj).imp_of_mem fun hr hs h hin =>
        h.1 ((moved_intersects (hdown _ hr) (hdown _ hs) (hcalm _ hr) (hcalm _ hs) h.2).mpr hin)
    · exact fun h => (h.and hdisj).imp_of_mem fun hr hs h hin =>
        h.1 ((moved_intersects (hdown _ hr) (hdown _ hs) (hcalm _ hr) (hcalm _ hs) h.2).mp hin)
  -- outside the original range nothing is moved or mapped
  have hout : ∀ a, ¬ o.Contains a → ((∃ r ∈ down.map (moved · o), r.Contains a) ↔ ∃ r ∈ down,
      r.Contains (remapAddr m.ranges a)) := by
    intro a ha
    rw [hm, remapAddr_skip ha, exists_moved hdown]
    refine exists_congr fun r => and_congr_right fun hr => ?_
    have := hdown r hr
    split
    · simp only [AddrRange.Inclusive, AddrRange.Contains, Inside, remapAddr, find?_nil] at *
      omega
    · rfl
  have hin : ∀ d ≤ o.last - o.start, ((∃ r ∈ down.map (moved · o), r.Contains (o.start + d)) ↔
        ∃ r ∈ down, r.Contains (remapAddr m.ranges (o.start + d))) ↔
      ((∃ r ∈ down, r.Contains (n.start + d)) ↔
        ∃ r ∈ down, if Inside o r then d ≤ r.last - r.start else r.Contains (o.start + d)) := by
    intro d hd
    rw [hm, remapAddr_cons ⟨Nat.le_add_right .., Nat.add_le_of_le_sub' hincl hd⟩ (m.size_eq _ hmem)
      (m.inclusive _ hmem).2
      (m.last_lt _ hmem), exists_moved hdown, Nat.add_sub_cancel_left]
    simpa using Iff.comm
  constructor
  · rintro ⟨hcover, hdis⟩
    exact ⟨o, n, hm, hpair.mp hdis, fun d hd => (hin d hd).mp (hcover _)⟩
  · rintro ⟨o', n', hm', hdis, hpre⟩
    cases hm.symm.trans hm'
    refine ⟨fun a => ?_, hpair.mpr hdis⟩
    by_cases ha : o.Contains a
    · obtain ⟨d, rfl⟩ := Nat.exists_eq_add_of_le ha.1
      have hd : d ≤ o.last - o.start := Nat.le_sub_of_add_le' ha.2
      exact (hin d hd).mpr (hpre d hd)
    · exact hout a ha

theorem not_delivers_more (hm : m.ranges = p :: q :: rest) (hne : down ≠ []) :
    ¬ Delivers m down (down.flatMap fun r => shown r (m.ranges.map Prod.fst)) := by
  rintro ⟨hcover, hdis⟩
  have hpq : ¬ p.1.Intersects q.1 := (pairwise_cons.mp (hm ▸ m.disjoint)).1 q (by simp)
  have hself : ∀ s : AddrRange, s.Inclusive → s.Intersects s :=
    fun s hs => (intersects_iff hs hs).mpr ⟨hs, hs⟩
  have hsecond : ∀ s ∈ down, moved s p.1 = s ∧ Inside q.1 s ∧ q.1.start < s.start := by
    intro s hs
    have hincl := hdown s hs
    have hpair := (pairwise_flatMap.mp hdis).1 s hs
    rw [hm, map_cons, map_cons, shown, shown, pairwise_cons] at hpair
    have hfirst := hpair.1 _ mem_cons_self
    have hmoved : moved s p.1 = s := by
      refine if_neg fun hp => ?_
      rw [moved_moved hincl hp hpq] at hfirst
      exact hfirst (hself _ (moved_inclusive hincl))
    rw [hmoved] at hfirst
    have hq : Inside q.1 s := by
      by_contra hq
      rw [moved, if_neg hq] at hfirst
      exact hfirst (hself _ hincl)
    refine ⟨hmoved, hq, lt_of_le_of_ne hq.1 fun heq => hfirst ?_⟩
    rw [moved_inside hincl hq, heq, Nat.add_sub_cancel' hincl]
    exact hself _ hincl
  have hqmem : q ∈ m.ranges := by simp [hm]
  have hmaps : ∀ s ∈ down, ∀ a, q.1.Contains a → s.Contains a ∨ (moved s q.1).Contains a →
      ∃ t ∈ down, t.Contains (q.2.start + (a - q.1.start)) := by
    intro s hs a ha hshown
    have hpa : ¬ p.1.Contains a := fun hp => hpq ⟨a, hp, ha⟩
    rw [← remapAddr_cons ha (m.size_eq _ hqmem) (m.inclusive _ hqmem).2
      (m.last_lt _ hqmem), ← remapAddr_skip hpa, ← hm]
    refine (hcover a).mp ?_
    simp only [mem_flatMap, hm, map_cons, shown]
    rcases hshown with h | h
    · exact ⟨s, ⟨s, hs, by rw [(hsecond s hs).1]; exact mem_cons_self⟩, h⟩
    · exact ⟨_, ⟨s, hs, by rw [(hsecond s hs).1]; exact mem_cons_of_mem _ mem_cons_self⟩, h⟩
  -- but nothing is mapped beyond the last downstream range
  obtain ⟨r, hr, hmax⟩ := down.toFinset.exists_max_image (·.last) (by simpa using hne)
  rw [mem_toFinset] at hr
  obtain ⟨-, hq, -⟩ := hsecond r hr
  obtain ⟨s, hs, hstart⟩ := hmaps r hr q.1.start ⟨le_rfl, (m.inclusive _ hqmem).1⟩
    (.inr (by rw [moved_inside (hdown r hr) hq]; exact ⟨le_rfl, Nat.le_add_right _ _⟩))
  obtain ⟨t, ht, hlast⟩ :=
    hmaps r hr r.last ⟨hq.1.trans (hdown r hr), hq.2⟩ (.inl ⟨hdown r hr, le_rfl⟩)
  have hlt := (hsecond s hs).2.2
  have hle := hmax t (mem_toFinset.mpr ht)
  simp only [AddrRange.Contains, Inside] at hstart hlast hq
  omega

end

/-- The advertised ranges are right if nothing is downstream, or for one original range whose
remapped range the downstream ranges fill from its start on. -/
theorem advertised_iff (hdown : ∀ r ∈ down, r.Inclusive)
    (hdisj : down.Pairwise fun r s => ¬ r.Intersects s)
    (h : getAddrRanges m down = .ok advertised) :
    Delivers m down advertised ↔ down = [] ∨ Prefixed m down := by
  obtain ⟨rfl, hcalm⟩ := getAddrRanges_spec h
  rcases eq_or_ne down [] with rfl | hne
  · simp [Delivers]
  rw [or_iff_right hne]
  rcases hm : m.ranges with - | ⟨p, - | ⟨q, rest⟩⟩
  · -- no range is advertised then
    obtain ⟨r, tail, rfl⟩ := exists_cons_of_ne_nil hne
    refine iff_of_false (fun hd => ?_) ?_
    · have hr := (hd.1 r.start).mpr ⟨r,
        mem_cons_self, by rw [hm]; exact ⟨le_rfl, hdown r mem_cons_self⟩⟩
      simp [shown] at hr
    · rintro ⟨o, n, hm', -⟩
      simp [hm] at hm'
  · rw [← delivers_one hdown hdisj hm fun r hr => hcalm r hr p.1 (by simp [hm])]
    change Delivers m down (down.flatMap fun r => [moved r p.1]) ↔ _
    rw [← map_eq_flatMap]
  · refine iff_of_false (hm ▸ not_delivers_more hdown hm hne) ?_
    rintro ⟨o, n, hm', -⟩
    simp [hm] at hm'

def sample : RangeAddrMapper where
  ranges := [(⟨0, 99⟩, ⟨1000, 1099⟩)]
  inclusive := by simp [AddrRange.Inclusive]
  size_eq := by simp
  last_lt := by simp
  disjoint := pairwise_singleton ..

theorem sample_delivers : Delivers sample [⟨0, 9⟩, ⟨1000, 1009⟩] [⟨0, 9⟩, ⟨1000, 1009⟩] := by
  refine (advertised_iff ?_ ?_ rfl).mpr (.inr ⟨_, _, rfl, ?_, fun d hd => ?_⟩)
  · simp [AddrRange.Inclusive]
  · simp [AddrRange.Intersects]
    omega
  · simp [Inside]
  · have : d ≤ 99 := hd
    simp [Inside, AddrRange.Contains]
    omega

/-- With the remapped range downstream, as is the mapper's purpose, that range is advertised itself. -/
theorem sample_advertises_remapped : getAddrRanges sample [⟨1000, 1099⟩] = .ok [⟨1000, 1099⟩] ∧
    ¬ Delivers sample [⟨1000, 1099⟩] [⟨1000, 1099⟩] := by
  refine ⟨rfl, fun h => ?_⟩
  have h0 := (h.1 0).mpr ⟨_, mem_singleton_self _, by simp [remapAddr, sample, AddrRange.Contains]⟩
  simp [AddrRange.Contains] at h0

end RangeAddrMapper

end Gem5
