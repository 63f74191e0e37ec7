import Gem5.Sim.EventBins

/-!
# The checker of the event queue

`EventQueue::debugVerify` of `sim/eventq.cc` walks the two-level list and compares
each event with the one before it. It starts from tick 0 and priority 0, and it
takes an event for misplaced only if it is strictly before its predecessor.
-/

namespace Gem5

open Lib List EventQueue

namespace EventQueue

variable {E : Type} [DecidableEq E] {event : E → Event E}

/-- The two loops of `debugVerify`, a round of either at a time: `top` is the bin, `next` what is
still to come in it, `seen` the hash map. -/
def verifyFrom (event : E → Event E) : Nat → E → Option E → List E → Nat → Int → Chk Bool
  | 0, _, _, _, _, _ => .error .fuel
  | n + 1, top, none, seen, time, priority =>
    match (event top).nextBin with
    | none => return true
    | some t => verifyFrom event n t (some t) seen time priority
  | n + 1, top, some x, seen, time, priority =>
    if (event x).when < time then return false
    else if (event x).when = time ∧ (event x).priority < priority then return false
    else if x ∈ seen then return false
    else verifyFrom event n top (event x).nextInBin (x :: seen) (event x).when (event x).priority

def debugVerify (fuel : Nat) (q : EventQueue E) : Chk Bool :=
  match q.head with
  | none => return true
  | some h => verifyFrom q.event fuel h (some h) [] 0 0

def listed (event : E → Event E) : Nat → Nat → E → Option E → List (Nat × E)
  | 0, _, _, _ => []
  | n + 1, i, top, none =>
    match (event top).nextBin with
    | none => []
    | some t => listed event n (i + 1) t (some t)
  | n + 1, i, top, some x => (i, x) :: listed event n i top (event x).nextInBin

def listing (q : EventQueue E) (n : Nat) : List (Nat × E) :=
  q.head.elim [] fun h => listed q.event n 0 h (some h)

/-- The order is violated: an event is listed twice, or one of a later bin is not later. The
pointers may also lead in a circle. -/
def Violates (q : EventQueue E) : Prop :=
  ∃ n, ¬ (q.listing n).Pairwise fun a b => a.2 ≠ b.2 ∧
    (a.1 < b.1 → keyOf q.event a.2 < keyOf q.event b.2)

def SharesKey (q : EventQueue E) : Prop :=
  ∃ n, ¬ (q.listing n).Pairwise fun a b => a.1 < b.1 → keyOf q.event a.2 ≠ keyOf q.event b.2

structure Rises (event : E → Event E) (last : ℕ ×ₗ ℤ) (seen : List E) (l : List (Nat × E)) : Prop where
  rising : l.Pairwise fun a b => a.2 ≠ b.2 ∧ keyOf event a.2 ≤ keyOf event b.2
  after : ∀ a ∈ l, a.2 ∉ seen ∧ last ≤ keyOf event a.2

omit [DecidableEq E] in
theorem rises_cons : Rises event last seen ((i, x) :: l) ↔
    last ≤ keyOf event x ∧ x ∉ seen ∧ Rises event (keyOf event x) (x :: seen) l := by
  constructor
  · rintro ⟨hrising, hafter⟩
    obtain ⟨hx, hrising⟩ := pairwise_cons.mp hrising
    obtain ⟨hseen, hle⟩ := hafter _ mem_cons_self
    refine ⟨hle, hseen, hrising, fun a ha => ⟨?_, (hx a ha).2⟩⟩
    simpa [(hx a ha).1.symm] using (hafter a (mem_cons_of_mem _ ha)).1
  · rintro ⟨hle, hseen, hrising, hafter⟩
    have hx : ∀ a ∈ l, a.2 ≠ x ∧ a.2 ∉ seen ∧ keyOf event x ≤ keyOf event a.2 := by
      simpa [and_assoc] using hafter
    refine ⟨pairwise_cons.mpr ⟨fun a ha => ⟨(hx a ha).1.symm, (hx a ha).2.2⟩, hrising⟩, ?_⟩
    rintro a (_ | ⟨_, ha⟩)
    · exact ⟨hseen, hle⟩
    · exact ⟨(hx a ha).2.1, hle.trans (hx a ha).2.2⟩

def ended (event : E → Event E) : Nat → E → Option E → Bool
  | 0, _, _ => false
  | n + 1, top, none => (event top).nextBin.elim true fun t => ended event n t (some t)
  | n + 1, top, some x => ended event n top (event x).nextInBin

theorem verifyFrom_eq (event : E → Event E) (n i : Nat) (top : E) (next : Option E) (seen : List E)
    (time : Nat) (priority : Int) :
    (Rises event (toLex (time, priority)) seen (listed event n i top next) →
      verifyFrom event n top next seen time priority = if ended event n top next then .ok true
      else .error .fuel) ∧
    (¬ Rises event (toLex (time, priority)) seen (listed event n i top next) →
      verifyFrom event n top next seen time priority = .ok false) := by
  induction n generalizing i top next seen time priority with
  | zero => exact ⟨fun _ => rfl, fun h => absurd ⟨.nil, by simp [listed]⟩ h⟩
  | succ n ih =>
    cases next with
    | none =>
      cases hnext : (event top).nextBin with
      | none =>
        simp only [verifyFrom, listed, ended, hnext]
        exact ⟨fun _ => rfl, fun h => absurd ⟨.nil, by simp⟩ h⟩
      | some t =>
        simp only [verifyFrom, listed, ended, hnext]
        exact ih (i + 1) t (some t) seen time priority
    | some x =>
      have hkey : toLex (time, priority) ≤ keyOf event x ↔
          ¬(event x).when < time ∧ ¬((event x).when = time ∧ (event x).priority < priority) := by
        rw [← not_lt, keyOf, Event.key, Prod.Lex.toLex_lt_toLex, not_or]
      simp only [verifyFrom, listed, ended, rises_cons, hkey]
      by_cases hwhen : (event x).when < time
      · simp [hwhen]
      · by_cases hpriority : (event x).when = time ∧ (event x).priority < priority
        · simp [hpriority]
        · by_cases hseen : x ∈ seen
          · simp [hwhen, hpriority, hseen]
          · simp only [hwhen, hpriority, hseen, not_false_eq_true, true_and, if_false]
            exact ih i top (event x).nextInBin (x :: seen) (event x).when (event x).priority

theorem rejects_iff {q : EventQueue E} :
    q.debugVerify n = .ok false ↔ ¬ Rises q.event (toLex (0, 0)) [] (q.listing n) := by
  cases hhead : q.head with
  | none => simp [debugVerify, listing, hhead,
      show Rises q.event (toLex (0, 0)) [] [] from ⟨.nil, by simp⟩]
  | some h =>
    obtain ⟨haccept, hreject⟩ := verifyFrom_eq q.event n 0 h (some h) [] 0 0
    simp only [debugVerify, listing, hhead, Option.elim_some]
    refine ⟨fun heq hrises => ?_, hreject⟩
    rw [haccept hrises] at heq
    split at heq <;> cases heq

omit [DecidableEq E] in
theorem listed_bin (h : ∃ n, ended event n top none = true ∧
    (listed event n i top none).map Prod.snd = l) (hin : Linked (nextIn event) p b) :
    ∃ n, ended event n top p = true ∧ (listed event n i top p).map Prod.snd = b ++ l := by
  induction b generalizing p with
  | nil =>
    cases hin
    exact h
  | cons x b ih =>
    obtain ⟨rfl, hin⟩ := hin
    obtain ⟨n, hended, hlisted⟩ := ih hin
    exact ⟨n + 1, hended, congrArg (x :: ·) hlisted⟩

omit [DecidableEq E] in
theorem listed_bins (i : Nat) (h : Reaches event (event top).nextBin bins) :
    ∃ n, ended event n top none = true ∧ (listed event n i top none).map Prod.snd = bins.flatten := by
  induction bins generalizing i top with
  | nil =>
    have hnone : (event top).nextBin = none := h
    exact ⟨1, by simp [ended, hnone], by simp [listed, hnone]⟩
  | cons c bins ih =>
    cases c with
    | nil => exact h.elim
    | cons t c =>
      obtain ⟨htop, hin, hbins⟩ := h
      obtain ⟨n, hended, hlisted⟩ := listed_bin (ih (i + 1) hbins) (Linked.cons_iff.mpr ⟨rfl, hin⟩)
      exact ⟨n + 1, by simpa [ended, htop] using hended, by simpa [listed, htop] using hlisted⟩

end EventQueue

namespace EventHistory

variable {E : Type} [DecidableEq E] {event : E → Event E} {s : EventHistory E}
  {calls : List (EventCall E)}

omit [DecidableEq E] in
theorem Holds.rises_iff (h : s.Holds bins) (hl : l.map Prod.snd = bins.flatten) :
    Rises s.queue.event (toLex (0, 0)) [] l ↔ ∀ e, (s.queue.event e).scheduled = true →
      ¬((s.queue.event e).when = 0 ∧ (s.queue.event e).priority < 0) := by
  have hkey : ∀ e, toLex ((0 : ℕ), (0 : ℤ)) ≤ keyOf s.queue.event e ↔
      ¬((s.queue.event e).when = 0 ∧ (s.queue.event e).priority < 0) := by
    intro e
    rw [← not_lt, keyOf, Event.key, Prod.Lex.toLex_lt_toLex]
    simp
  have hle : bins.flatten.Pairwise fun x y => keyOf s.queue.event x ≤ keyOf s.queue.event y :=
    pairwise_flatten.mpr ⟨fun b hb => pairwise_of_forall_mem_list fun x hx y hy =>
      (h.ordered.sameKey b hb x hx y hy).le,
      h.ordered.increasing.imp fun hlt x hx y hy => (hlt x hx y hy).le⟩
  simp only [← hkey, ← h.mem_iff, ← hl, mem_map]
  constructor
  · rintro hrises e ⟨a, ha, rfl⟩
    exact (hrises.after a ha).2
  · intro hall
    exact ⟨pairwise_map.mp (hl ▸ h.once.and hle), fun a ha => ⟨by simp, hall a.2 ⟨a, ha, rfl⟩⟩⟩

theorem Holds.debugVerify (h : s.Holds bins) :
    ∃ n b, s.queue.debugVerify n = .ok b ∧ (b = true ↔ ∀ e, (s.queue.event e).scheduled = true →
      ¬((s.queue.event e).when = 0 ∧ (s.queue.event e).priority < 0)) := by
  have hreached := h.reached
  cases bins with
  | nil =>
    have hhead : s.queue.head = none := hreached
    exact ⟨0, true, by rw [EventQueue.debugVerify, hhead]; rfl, by simp [← h.mem_iff]⟩
  | cons c bins =>
    cases c with
    | nil => exact hreached.elim
    | cons x b =>
      obtain ⟨hhead, hin, hbins⟩ := hreached
      obtain ⟨n, hended, hlisted⟩ := listed_bin (listed_bins 0 hbins) (Linked.cons_iff.mpr ⟨rfl, hin⟩)
      obtain ⟨haccept, hreject⟩ := verifyFrom_eq s.queue.event n 0 x (some x) [] 0 0
      simp only [← h.rises_iff hlisted, EventQueue.debugVerify, hhead]
      by_cases hrises : Rises s.queue.event (toLex (0, 0)) [] (listed s.queue.event n 0 x (some x))
      · exact ⟨n, true, by rw [haccept hrises, hended]; rfl, by simp [hrises]⟩
      · exact ⟨n, false, hreject hrises, by simp [hrises]⟩

/-- The checker accepts the queue after any calls unless an event has tick 0 and a negative
priority. It rejects a list that violates the order unless all that is wrong with it is that
two bins share their key. -/
theorem debugVerify_exact {isMain : Bool} (hevent : ∀ e, (event e).scheduled = false)
    (h : Runs (Step fuel) (start event isMain) calls s) (hfuel : calls.length ≤ fuel) :
    (∃ n b, s.queue.debugVerify n = .ok b ∧ (b = true ↔ ∀ e, (s.queue.event e).scheduled = true →
      ¬((s.queue.event e).when = 0 ∧ (s.queue.event e).priority < 0))) ∧
    ∀ q : EventQueue E, (q.Violates → ∃ n, q.debugVerify n = .ok false) ↔
      (q.SharesKey → ∃ n, ¬ Rises q.event (toLex (0, 0)) [] (q.listing n)) := by
  obtain ⟨bins, hholds, -⟩ := run_holds hevent h hfuel
  refine ⟨hholds.debugVerify, fun q => ?_⟩
  simp only [rejects_iff]
  constructor
  · rintro hrejects ⟨n, hshares⟩
    refine hrejects ⟨n, fun hpairs => hshares (hpairs.imp fun hab hlt => (hab.2 hlt).ne)⟩
  · rintro hshares ⟨n, hviolates⟩
    -- in a list that rises throughout, only an equal key is not later
    by_contra hall
    simp only [not_exists, not_not] at hall
    have hapart : (q.listing n).Pairwise fun a b => a.1 < b.1 →
        keyOf q.event a.2 ≠ keyOf q.event b.2 := by
      by_contra hnot
      obtain ⟨m, hm⟩ := hshares ⟨n, hnot⟩
      exact hm (hall m)
    refine hviolates (((hall n).rising.and hapart).imp fun hab => ⟨hab.1.1, fun hlt => ?_⟩)
    exact lt_of_le_of_ne hab.1.2 (hab.2 hlt)

/-- One event, at tick 0 with a priority below 0; and two bins with one key. -/
theorem debugVerify_wrong :
    (∃ s : EventHistory Unit,
      Runs (Step 1) (start (fun _ => { priority := -1 }) true) [.schedule 0 () 0] s ∧
      s.queue.debugVerify 3 = .ok false) ∧
    ∃ q : EventQueue Bool, q.Violates ∧ q.debugVerify 5 = .ok true := by
  refine ⟨⟨_, .single ⟨⟨by decide, rfl, rfl⟩, rfl⟩, by decide⟩,
    ⟨some false, fun e => { priority := 0, nextBin := if e then none else some true }, true⟩,
    ⟨4, ?_⟩, by decide⟩
  decide

theorem debugVerify_accepts :
    ∃ s : EventHistory Bool, Runs (Step 3) (start (fun e => { priority := if e then -1 else 0 }) true)
      [.schedule 0 false 0, .schedule 0 true 5] s ∧ ∃ n, s.queue.debugVerify n = .ok true := by
  have h1 : Runs (Step 3) (start (fun e : Bool => { priority := if e then -1 else 0 }) true)
      [.schedule 0 false 0] _ := .single ⟨⟨by decide, rfl, rfl⟩, rfl⟩
  have h2 := h1.snoc (a := EventCall.schedule 0 true 5) ⟨⟨by decide, rfl, rfl⟩, rfl⟩
  obtain ⟨⟨n, b, hb, hiff⟩, -⟩ := debugVerify_exact (fun e => by rfl) h2 (by decide)
  refine ⟨_, h2, n, ?_⟩
  rw [hb, hiff.mpr (by decide)]

end EventHistory

end Gem5
