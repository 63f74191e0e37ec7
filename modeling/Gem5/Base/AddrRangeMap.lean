import Gem5.Base.Types
import Gem5.Lib.SortedList

/-!
# The address range map

`base/addr_range.hh` and `base/addr_range_map.hh`: inclusive address ranges
and the interval tree used for address decoding. The tree is an ordered map
whose comparison looks at the start of a range only, and a lookup inspects one
neighbour of `upper_bound`.

A range that reaches into its successor is missed as soon as some stored range
starts at or before it, so two overlapping ranges can get into the map; a single
address is never missed.
-/

namespace Gem5

open Lib (SortedList)

/-- An inclusive range; `last` is the source's `end`. -/
structure AddrRange where
  start : Nat
  last : Nat
  deriving DecidableEq, Repr

namespace AddrRange

def Inclusive (r : AddrRange) : Prop := r.start ≤ r.last

instance (r : AddrRange) : Decidable r.Inclusive := inferInstanceAs (Decidable (_ ≤ _))

def hits (e r : AddrRange) : Bool := decide (e.start ≤ r.last) && decide (r.start ≤ e.last)

def Intersects (r s : AddrRange) : Prop := ∃ a, (r.start ≤ a ∧ a ≤ r.last) ∧ s.start ≤ a ∧ a ≤ s.last

def Contains (r : AddrRange) (a : Nat) : Prop := r.start ≤ a ∧ a ≤ r.last

def rangeSize (start size : Nat) : AddrRange := ⟨start, lastByte start size⟩

theorem rangeSize_one (h : a < 2 ^ 64) : rangeSize a 1 = ⟨a, a⟩ := by
  simp [rangeSize, lastByte_eq (show a + 1 ≤ 2 ^ 64 by omega) (Nat.le_refl 1)]

theorem hits_iff {e r : AddrRange} (he : e.Inclusive) (hr : r.Inclusive) :
    e.hits r = true ↔ e.Intersects r := by
  simp only [hits, Intersects, Inclusive, Bool.and_eq_true, decide_eq_true_eq] at *
  constructor
  · intro h
    exact ⟨max e.start r.start, by omega⟩
  · rintro ⟨a, h⟩
    omega

theorem Intersects.symm {r s : AddrRange} (h : r.Intersects s) : s.Intersects r := by
  obtain ⟨a, hr, hs⟩ := h
  exact ⟨a, hs, hr⟩

end AddrRange

open AddrRange List

/-- The `std::map<AddrRange, V>` inside: ordered by the start of the range. -/
structure AddrRangeMap (V : Type u) where
  tree : SortedList fun e : AddrRange × V => e.1.start

namespace AddrRangeMap

variable {V : Type u}

def empty : AddrRangeMap V := ⟨SortedList.empty⟩

def size (m : AddrRangeMap V) : Nat := m.tree.items.length

/-- The range an iterator refers to. Iterators are positions, `m.size` is
`end()`. Reading through `end()` gives whatever lies there, which is the
parameter `past`. -/
def deref (past : AddrRange) (m : AddrRangeMap V) (i : Nat) : AddrRange :=
  match m.tree.items[i]? with
  | some e => e.1
  | none => past

def find (past : AddrRange) (m : AddrRangeMap V) (r : AddrRange) : Nat :=
  let i := m.tree.upperBound r.start
  -- `i == begin()`; on an empty map this is `end()` as well
  if i = 0 then
    if (m.deref past i).hits r then i else m.size
  else if (m.deref past (i - 1)).hits r then i - 1
  else m.size

def findAddr (past : AddrRange) (m : AddrRangeMap V) (a : Nat) : Nat :=
  m.find past (.rangeSize a 1)

def intersect (past : AddrRange) (m : AddrRangeMap V) (r : AddrRange) : Bool :=
  m.find past r != m.size

def insert (past : AddrRange) (m : AddrRangeMap V) (r : AddrRange) (d : V) :
    AddrRangeMap V × Nat :=
  if m.intersect past r then (m, m.size)
  else (⟨m.tree.insert (r, d)⟩, m.tree.lowerBound r.start)

def erase (m : AddrRangeMap V) (p : Nat) : AddrRangeMap V := ⟨m.tree.eraseIdx p⟩

def eraseRange (m : AddrRangeMap V) (p q : Nat) : AddrRangeMap V := ⟨m.tree.eraseRange p q⟩

def clear (m : AddrRangeMap V) : AddrRangeMap V := m.eraseRange 0 m.size

def Refused (past : AddrRange) (m : AddrRangeMap V) (r : AddrRange) (d : V) : Prop :=
  (m.insert past r d).2 = (m.insert past r d).1.size

def Stored (m : AddrRangeMap V) (e : AddrRange) : Prop := ∃ d, (e, d) ∈ m.tree.items

def Overlaps (m : AddrRangeMap V) (r : AddrRange) : Prop := ∃ e, m.Stored e ∧ e.Intersects r

structure Disjoint (m : AddrRangeMap V) : Prop where
  inclusive : ∀ e, m.Stored e → e.Inclusive
  apart : m.tree.items.Pairwise fun a b => ¬ a.1.Intersects b.1

/-- The one neighbour inspected by `find` decides the query: a stored range
starting at or before `r` intersects it, or no stored range starts that early,
or none of those starting after `r` does intersects it. -/
def Sees (m : AddrRangeMap V) (r : AddrRange) : Prop :=
  (∃ e, m.Stored e ∧ e.start ≤ r.start ∧ e.Intersects r) ∨
  (∀ e, m.Stored e → r.start < e.start) ∨
  (∀ e, m.Stored e → r.start < e.start → ¬ e.Intersects r)

variable {m : AddrRangeMap V} {past r e e' : AddrRange} {d d' : V} {i j k : Nat}

theorem stored_of_getElem? (h : m.tree.items[i]? = some x) : m.Stored x.1 :=
  ⟨x.2, mem_of_getElem? h⟩

section

variable (hm : m.Disjoint)

include hm

theorem Disjoint.eq_of_intersects (h : e.Intersects e')
    (hi : m.tree.items[i]? = some (e, d)) (hj : m.tree.items[j]? = some (e', d')) : i = j := by
  obtain ⟨hi, ei⟩ := List.getElem?_eq_some_iff.mp hi
  obtain ⟨hj, ej⟩ := List.getElem?_eq_some_iff.mp hj
  have hp := pairwise_iff_getElem.mp hm.apart
  rcases Nat.lt_trichotomy i j with hlt | heq | hlt
  · exact absurd h (by simpa [ei, ej] using hp i j hi hj hlt)
  · exact heq
  · exact absurd h.symm (by simpa [ei, ej] using hp j i hj hi hlt)

omit hm in
theorem find_hit (h : m.find past r ≠ m.size) :
    ∃ e, m.tree.items[m.find past r]? = some e ∧ e.1.hits r = true := by
  simp only [find] at h ⊢
  split at h
  · rename_i h0
    split at h
    · rename_i hd
      rw [if_pos h0, if_pos hd]
      simp only [deref] at hd
      split at hd
      · exact ⟨_, ‹_›, hd⟩
      · rename_i hn
        exact absurd (Nat.le_antisymm (m.tree.upperBound_le) (List.getElem?_eq_none_iff.mp hn)) h
    · exact absurd rfl h
  · rename_i h0
    split at h
    · rename_i hd
      rw [if_neg h0, if_pos hd]
      simp only [deref] at hd
      split at hd
      · exact ⟨_, ‹_›, hd⟩
      · rename_i hn
        have := m.tree.upperBound_le (k := r.start)
        have := List.getElem?_eq_none_iff.mp hn
        omega
    · exact absurd rfl h

theorem find_overlaps (hr : r.Inclusive)
    (h : m.find past r ≠ m.size) : m.Overlaps r := by
  obtain ⟨e, he, hh⟩ := find_hit h
  have hs := stored_of_getElem? he
  exact ⟨e.1, hs, (hits_iff (hm.inclusive _ hs) hr).mp hh⟩

theorem find_of_all_after
    (ha : ∀ e, m.Stored e → r.start < e.start) (ho : m.Overlaps r) : m.find past r ≠ m.size := by
  obtain ⟨e, ⟨d, he⟩, hi⟩ := ho
  obtain ⟨j, hj, hub⟩ := m.tree.mem_cases he r.start
  have h0 : m.tree.upperBound r.start = 0 := by
    by_contra hpos
    obtain ⟨f, hf⟩ : ∃ f, m.tree.items[0]? = some f :=
      ⟨_, List.getElem?_eq_getElem (length_pos_of_mem he)⟩
    have := SortedList.key_le_of_lt_upperBound (Nat.pos_of_ne_zero hpos) hf
    have := ha _ (stored_of_getElem? hf)
    omega
  obtain ⟨f, hf⟩ : ∃ f, m.tree.items[0]? = some f :=
    ⟨_, List.getElem?_eq_getElem (length_pos_of_mem he)⟩
  have hfr := ha _ (stored_of_getElem? hf)
  have hfi := hm.inclusive _ (stored_of_getElem? hf)
  have hfe : f.1.start ≤ e.start := by
    rcases Nat.eq_zero_or_pos j with rfl | hpos
    · rw [hf, Option.some.injEq] at hj
      simp [hj]
    · exact (SortedList.key_lt_of_lt hpos hf hj).le
  have hhit : f.1.hits r = true := by
    obtain ⟨a, hea, hra⟩ := hi
    simp only [hits, AddrRange.Inclusive, Bool.and_eq_true, decide_eq_true_eq] at *
    omega
  have hpos := length_pos_of_mem he
  simp only [find, h0, deref, hf, hhit, size, if_true]
  omega

omit hm in
theorem pred_getElem? (m : AddrRangeMap V) (h : m.tree.upperBound k ≠ 0) :
    ∃ e, m.tree.items[m.tree.upperBound k - 1]? = some e := by
  have := m.tree.upperBound_le (k := k)
  exact ⟨_, List.getElem?_eq_getElem (by omega)⟩

theorem find_of_before (hr : r.Inclusive)
    (he : m.Stored e) (hle : e.start ≤ r.start) (hi : e.Intersects r) :
    m.find past r ≠ m.size := by
  obtain ⟨d, he⟩ := he
  obtain ⟨j, hj, hub⟩ := m.tree.mem_cases he r.start
  have hlt : j < m.tree.upperBound r.start := hub.mpr hle
  have h0 : m.tree.upperBound r.start ≠ 0 := by omega
  obtain ⟨p, hp⟩ := m.pred_getElem? h0
  have hpr := SortedList.key_le_of_lt_upperBound (Nat.sub_one_lt h0) hp
  have hpi := hm.inclusive _ (stored_of_getElem? hp)
  have hjp : j = m.tree.upperBound r.start - 1 := by
    by_contra hne
    have hlt' : j < m.tree.upperBound r.start - 1 := by omega
    have hk := SortedList.key_lt_of_lt hlt' hj hp
    obtain ⟨a, hea, hra⟩ := hi
    simp only [AddrRange.Inclusive] at hpi hk
    have hx : e.Intersects p.1 := ⟨p.1.start, by omega⟩
    exact hne (hm.eq_of_intersects hx hj hp)
  have hhit : p.1.hits r = true := by
    have : p = (e, d) := by simpa [← hjp, hj] using hp.symm
    rw [this]
    exact (hits_iff (hm.inclusive _ ⟨d, he⟩) hr).mpr hi
  have := m.tree.upperBound_le (k := r.start)
  simp only [find, h0, deref, hp, hhit, size, if_true, if_false]
  omega

theorem find_exact_iff (hr : r.Inclusive) :
    m.Sees r ↔ (m.find past r ≠ m.size ↔ m.Overlaps r) := by
  constructor
  · intro hs
    refine ⟨find_overlaps hm hr, fun ho => ?_⟩
    rcases hs with ⟨e, he, hle, hi⟩ | ha | hn
    · exact find_of_before hm hr he hle hi
    · exact find_of_all_after hm ha ho
    · obtain ⟨e, he, hi⟩ := ho
      exact find_of_before hm hr he (Nat.le_of_not_lt fun hlt => hn e he hlt hi) hi
  · intro hx
    by_cases ho : m.Overlaps r
    · obtain ⟨e, he, hh⟩ := find_hit (hx.mpr ho)
      have hi := (hits_iff (hm.inclusive _ (stored_of_getElem? he)) hr).mp hh
      by_cases h0 : m.tree.upperBound r.start = 0
      · refine .inr (.inl fun f hf => ?_)
        obtain ⟨d, hf⟩ := hf
        obtain ⟨j, hj, -⟩ := m.tree.mem_cases hf r.start
        have hk := SortedList.lt_key_of_upperBound_le (by omega : m.tree.upperBound r.start ≤ j) hj
        exact hk
      · have hlt : m.find past r < m.tree.upperBound r.start := by
          have hne := hx.mpr ho
          simp only [find, h0, if_false] at hne ⊢
          split at hne
          · rw [if_pos ‹_›]; omega
          · exact absurd rfl hne
        have hk := SortedList.key_le_of_lt_upperBound hlt he
        exact .inl ⟨e.1, stored_of_getElem? he, hk, hi⟩
    · exact .inr (.inr fun e he _ hi => ho ⟨e, he, hi⟩)

omit hm in
theorem sees_addr (m : AddrRangeMap V) (a : Nat) : m.Sees ⟨a, a⟩ := by
  refine .inr (.inr fun e _ hlt hi => ?_)
  obtain ⟨b, hb, hab⟩ := hi
  simp only at hlt hab
  omega

omit hm in
theorem refused_iff : m.Refused past r d ↔ m.find past r ≠ m.size := by
  by_cases h : m.find past r = m.size
  · have := m.tree.lowerBound_lt_insert (r, d)
    simp only [Refused, insert, intersect, h, bne_self_eq_false, Bool.false_eq_true,
      if_false, size] at this ⊢
    omega
  · simp [Refused, insert, intersect, h]

omit hm in
theorem stored_empty : ¬ (empty : AddrRangeMap V).Stored e := by
  rintro ⟨d, h⟩
  simp [empty, SortedList.empty] at h

omit hm in
theorem Disjoint.empty : (empty : AddrRangeMap V).Disjoint :=
  ⟨fun _ h => absurd h stored_empty, .nil⟩

theorem Disjoint.insert (hr : r.Inclusive) (hs : m.Sees r) :
    (m.insert past r d).1.Disjoint := by
  by_cases h : m.find past r = m.size
  · have ho : ¬ m.Overlaps r := fun ho => (find_exact_iff hm hr).mp hs |>.mpr ho h
    simp only [AddrRangeMap.insert, intersect, h, bne_self_eq_false, Bool.false_eq_true, if_false]
    constructor
    · rintro f ⟨d', hf⟩
      rcases SortedList.mem_insert hf with heq | hf
      · cases heq; exact hr
      · exact hm.inclusive f ⟨d', hf⟩
    · refine SortedList.place_pairwise hm.apart fun x hx => ⟨fun hi => ?_, fun hi => ?_⟩
      · exact ho ⟨x.1, ⟨x.2, hx⟩, hi.symm⟩
      · exact ho ⟨x.1, ⟨x.2, hx⟩, hi⟩
  · simpa [AddrRangeMap.insert, intersect, h] using hm

theorem Disjoint.erase : (m.erase i).Disjoint :=
  ⟨fun e ⟨d, h⟩ => hm.inclusive e ⟨d, (eraseIdx_sublist ..).mem h⟩,
    hm.apart.sublist (eraseIdx_sublist ..)⟩

theorem Disjoint.eraseRange : (m.eraseRange i j).Disjoint :=
  ⟨fun e ⟨d, h⟩ => hm.inclusive e ⟨d, SortedList.eraseRange_sublist.mem h⟩,
    hm.apart.sublist SortedList.eraseRange_sublist⟩

inductive Op (V : Type u)
  | insert (r : AddrRange) (d : V)
  | erase (p : Nat)
  | eraseRange (p q : Nat)
  | clear

def Op.apply (past : AddrRange) (m : AddrRangeMap V) : Op V → AddrRangeMap V
  | .insert r d => (m.insert past r d).1
  | .erase p => m.erase p
  | .eraseRange p q => m.eraseRange p q
  | .clear => m.clear

def run (past : AddrRange) (m : AddrRangeMap V) (ops : List (Op V)) : AddrRangeMap V :=
  ops.foldl (Op.apply past) m

def Seen (past : AddrRange) (m : AddrRangeMap V) : List (Op V) → Prop
  | [] => True
  | .insert r d :: ops =>
    (r.Inclusive ∧ m.Sees r) ∧ Seen past (Op.apply past m (.insert r d)) ops
  | op :: ops => Seen past (Op.apply past m op) ops

/-- What a decoder relies on: disjoint ranges, a refused insertion and a
successful lookup exactly for the ranges that overlap a stored one, and the
unique range of an address. -/
structure Decodes (past : AddrRange) (m : AddrRangeMap V) : Prop where
  disjoint : m.Disjoint
  refused : ∀ r d, r.Inclusive → (m.Refused past r d ↔ m.Overlaps r)
  found : ∀ r, r.Inclusive → (m.find past r ≠ m.size ↔ m.Overlaps r)
  addr : ∀ a < 2 ^ 64, ∀ e, m.Stored e ∧ e.Contains a ↔
    m.findAddr past a ≠ m.size ∧ m.deref past (m.findAddr past a) = e

structure DecodesSeen (past : AddrRange) (m : AddrRangeMap V) : Prop where
  disjoint : m.Disjoint
  refused : ∀ r d, r.Inclusive → (m.Sees r ↔ (m.Refused past r d ↔ m.Overlaps r))
  found : ∀ r, r.Inclusive → (m.Sees r ↔ (m.find past r ≠ m.size ↔ m.Overlaps r))
  addr : ∀ a < 2 ^ 64, ∀ e, m.Stored e ∧ e.Contains a ↔
    m.findAddr past a ≠ m.size ∧ m.deref past (m.findAddr past a) = e

omit hm in
theorem intersects_addr : e.Intersects ⟨a, a⟩ ↔ e.Contains a :=
  ⟨fun ⟨b, hb, hab⟩ => by
    have : b = a := by simp only at hab; omega
    exact this ▸ hb, fun h => ⟨a, h, by simp⟩⟩

theorem Disjoint.findAddr (ha : a < 2 ^ 64) :
    m.Stored e ∧ e.Contains a ↔ m.findAddr past a ≠ m.size ∧ m.deref past (m.findAddr past a) = e := by
  have hr : (⟨a, a⟩ : AddrRange).Inclusive := Nat.le_refl a
  have hx : m.find past ⟨a, a⟩ ≠ m.size ↔ m.Overlaps ⟨a, a⟩ :=
    (find_exact_iff hm hr).mp (m.sees_addr a)
  rw [AddrRangeMap.findAddr, rangeSize_one ha]
  constructor
  · rintro ⟨⟨d, he⟩, hc⟩
    have hne := hx.mpr ⟨e, ⟨d, he⟩, intersects_addr.mpr hc⟩
    refine ⟨hne, ?_⟩
    obtain ⟨⟨f, fd⟩, hf, hh⟩ := find_hit hne
    have hfc := intersects_addr.mp
      ((hits_iff (hm.inclusive _ (stored_of_getElem? hf)) hr).mp hh)
    obtain ⟨j, hj⟩ := mem_iff_getElem?.mp he
    have hij := hm.eq_of_intersects ⟨a, hfc, hc⟩ hf hj
    rw [← hij, hf] at hj
    simp only [deref, hf]
    cases hj
    rfl
  · rintro ⟨hne, rfl⟩
    obtain ⟨f, hf, hh⟩ := find_hit hne
    have hs := stored_of_getElem? hf
    simp only [deref, hf]
    exact ⟨hs, intersects_addr.mp ((hits_iff (hm.inclusive _ hs) hr).mp hh)⟩

theorem Disjoint.decodesSeen : m.DecodesSeen past where
  disjoint := hm
  refused _ _ hr := by rw [refused_iff]; exact find_exact_iff hm hr
  found _ hr := find_exact_iff hm hr
  addr _ ha _ := hm.findAddr ha

theorem Seen.disjoint (h : Seen past m ops) : (run past m ops).Disjoint := by
  induction ops generalizing m with
  | nil => exact hm
  | cons op ops ih =>
    cases op with
    | insert r d => exact ih (hm.insert h.1.1 h.1.2) h.2
    | erase p => exact ih hm.erase h
    | eraseRange p q | clear => exact ih hm.eraseRange h

end

/-- In a run whose insertions are all decided by the neighbour `find` looks
at, the ranges stay disjoint, and in every state reached an insertion or a
lookup is exact for precisely the ranges so decided. -/
theorem run_decodesSeen (past : AddrRange) (ops : List (Op V))
    (h : Seen past (empty : AddrRangeMap V) ops) : (run past empty ops).DecodesSeen past :=
  (h.disjoint .empty).decodesSeen

theorem run_decodesSeen_apart :
    Seen ⟨0, 0⟩ (empty : AddrRangeMap Nat) [.insert ⟨10, 20⟩ 5, .insert ⟨30, 40⟩ 3] ∧
      (run ⟨0, 0⟩ (empty : AddrRangeMap Nat)
        [.insert ⟨10, 20⟩ 5, .insert ⟨30, 40⟩ 3]).DecodesSeen ⟨0, 0⟩ := by
  have h : Seen ⟨0, 0⟩ (empty : AddrRangeMap Nat) [.insert ⟨10, 20⟩ 5, .insert ⟨30, 40⟩ 3] := by
    refine ⟨⟨by decide, .inr (.inl fun e he => absurd he stored_empty)⟩, ⟨by decide, ?_⟩, trivial⟩
    -- the only stored range starts before 30 and ends before it
    refine .inr (.inr fun e ⟨d, he⟩ hlt => ?_)
    rcases SortedList.mem_insert he with heq | he
    · cases heq
      exact absurd hlt (by decide)
    · exact absurd ⟨d, he⟩ stored_empty
  exact ⟨h, run_decodesSeen _ _ h⟩

/-- With 10-20 and 30-40 stored, 25-35 is accepted: `find` looks at 10-20 only. -/
theorem not_decodes_reaching_successor :
    ¬ (run ⟨0, 0⟩ (empty : AddrRangeMap Nat)
      [.insert ⟨10, 20⟩ 5, .insert ⟨30, 40⟩ 3, .insert ⟨25, 35⟩ 1]).Decodes ⟨0, 0⟩ := by
  intro h
  have hitems : (run ⟨0, 0⟩ (empty : AddrRangeMap Nat)
      [.insert ⟨10, 20⟩ 5, .insert ⟨30, 40⟩ 3, .insert ⟨25, 35⟩ 1]).tree.items =
      [(⟨10, 20⟩, 5), (⟨25, 35⟩, 1), (⟨30, 40⟩, 3)] := by decide
  have hp := h.disjoint.apart
  rw [hitems] at hp
  simp only [pairwise_cons, mem_cons, not_mem_nil, or_false, forall_eq] at hp
  exact hp.2.1 ⟨30, by decide⟩

end AddrRangeMap

end Gem5
