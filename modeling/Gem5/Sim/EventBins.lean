import Gem5.Lib.Bins
import Gem5.Sim.EventQueue

/-!
# The event queue keeps ordered bins

The pointers of an event queue represent a list of bins, ordered by time and
priority, each bin a stack. Inserting, removing and servicing do on the
pointers what `Lib.Bins` does on the bins.
-/

namespace Gem5

open Lib List Bins EventQueue Nat Function

variable {E : Type} {event : E → Event E} {v w : Event E} {e x : E} {p : Option E} {b : List E}
  {bins : List (List E)} {fuel : Nat}

namespace Event

def key (v : Event E) : ℕ ×ₗ ℤ := toLex (v.when, v.priority)

theorem lt_iff : v.lt w = true ↔ v.key < w.key := by
  simp [lt, key, Prod.Lex.toLex_lt_toLex]

theorem le_iff : v.le w = true ↔ v.key ≤ w.key := by
  simp [le, key, Prod.Lex.toLex_le_toLex]

theorem eq_iff : v.eq w = true ↔ v.key = w.key := by
  simp [eq, key]

def Moved (v w : Event E) : Prop := w = { v with nextBin := w.nextBin, nextInBin := w.nextInBin }

theorem Moved.refl (v : Event E) : v.Moved v := rfl

theorem Moved.trans {u : Event E} (h : u.Moved v) (h' : v.Moved w) : u.Moved w := by
  rw [Moved, h', h]

theorem Moved.key_eq (h : v.Moved w) : w.key = v.key := by
  rw [h]
  rfl

theorem key_eq_iff : v.key = w.key ↔ v.when = w.when ∧ v.priority = w.priority := by
  simp [key]

/-- The event is as the calls left it: `planned` is the tick it is scheduled for, if it is. -/
structure Told (v : Event E) (planned : Option Nat) (priority : Int) : Prop where
  scheduled : v.scheduled = planned.isSome
  when : ∀ tick, planned = some tick → v.when = tick
  priority : v.priority = priority

theorem Told.moved (h : v.Told planned i) (hm : v.Moved w) : w.Told planned i := by
  rw [hm]
  exact ⟨h.scheduled, h.when, h.priority⟩

end Event

namespace EventQueue

def keyOf (event : E → Event E) (y : E) : ℕ ×ₗ ℤ := (event y).key

def nextIn (event : E → Event E) (y : E) : Option E := (event y).nextInBin

def Reaches (event : E → Event E) : Option E → List (List E) → Prop
  | p, [] => p = none
  | _, [] :: _ => False
  | p, (x :: b) :: bins =>
    p = some x ∧ Linked (nextIn event) (event x).nextInBin b ∧
      Reaches event (event x).nextBin bins

def SamePointers (v w : Event E) : Prop := w.nextBin = v.nextBin ∧ w.nextInBin = v.nextInBin

theorem Reaches.congr_pointers (h : Reaches event p bins)
    (hs : ∀ y ∈ bins.flatten, SamePointers (event y) (event' y)) : Reaches event' p bins := by
  induction bins generalizing p with
  | nil => exact h
  | cons b bins ih =>
    cases b with
    | nil => exact h
    | cons x b =>
      obtain ⟨hp, hin, hbins⟩ := h
      have hx := hs x mem_cons_self
      refine ⟨hp, ?_, ?_⟩
      · rw [hx.2]
        refine hin.congr fun y hy => ?_
        rw [nextIn, (hs y (mem_append_left _ (mem_cons_of_mem _ hy))).2, nextIn]
      · rw [hx.1]
        exact ih hbins fun y hy => hs y (mem_append_right _ hy)

theorem Reaches.congr (h : Reaches event p bins) (hs : ∀ y ∈ bins.flatten, event' y = event y) :
    Reaches event' p bins :=
  h.congr_pointers fun y hy => by rw [hs y hy]; exact ⟨rfl, rfl⟩

theorem Reaches.length_le (h : Reaches event p bins) : bins.length ≤ bins.flatten.length := by
  induction bins generalizing p with
  | nil => exact le_refl _
  | cons b bins ih =>
    cases b with
    | nil => exact h.elim
    | cons x b =>
      have := ih h.2.2
      simp only [length_cons, flatten_cons, length_append]
      omega

variable [DecidableEq E]

theorem modify_self : modify event e f e = f (event e) :=
  update_self ..

theorem modify_of_ne (h : y ≠ e) : modify event e f y = event y :=
  update_of_ne h ..

theorem moved_modify (event : E → Event E) (e : E)
    (hf : ∀ v : Event E, v.Moved (f v)) (y : E) :
    (event y).Moved (modify event e f y) := by
  by_cases h : y = e
  · subst h
    rw [modify_self]
    exact hf _
  · rw [modify_of_ne h]
    exact .refl _

theorem moved_nextBin (event : E → Event E) (e : E) (p : Option E) (y : E) :
    (event y).Moved (modify event e (fun v => { v with nextBin := p }) y) :=
  moved_modify event e (by intro v; rfl) y

theorem Reaches.relink (h : Reaches event p (pre ++ (y :: b) :: bins))
    (hn : (pre ++ (y :: b) :: bins).flatten.Nodup) (hs : ∀ z ∈ (pre ++ [y :: b]).flatten,
      event' z = event z) (h' : Reaches event' r bins') (hy : y ∉ bins'.flatten) :
    Reaches (modify event' y fun v => { v with nextBin := r }) p (pre ++ (y :: b) :: bins') := by
  induction pre generalizing p with
  | nil =>
    obtain ⟨hp, hin, -⟩ := h
    have hyb : y ∉ b := (nodup_cons.mp (nodup_append.mp hn).1).1
    refine ⟨hp, ?_, ?_⟩
    · rw [modify_self, hs y (by simp)]
      refine hin.congr fun z hz => ?_
      rw [nextIn, modify_of_ne (by rintro rfl; exact hyb hz), hs z (by simp [hz]), nextIn]
    · rw [modify_self]
      exact h'.congr fun z hz => modify_of_ne (by rintro rfl; exact hy hz)
  | cons c pre ih =>
    cases c with
    | nil => exact h.elim
    | cons x c =>
      obtain ⟨hp, hin, hbins⟩ := h
      have hsame : ∀ z ∈ x :: c, modify event' y (fun v => { v with nextBin := r }) z = event z := by
        intro z hz
        rw [modify_of_ne ?_, hs z (mem_append_left _ hz)]
        rintro rfl
        exact (nodup_append.mp hn).2.2 z hz z (by simp) rfl
      refine ⟨hp, ?_, ?_⟩
      · rw [hsame x mem_cons_self]
        refine hin.congr fun z hz => ?_
        rw [nextIn, hsame z (mem_cons_of_mem _ hz), nextIn]
      · rw [hsame x mem_cons_self]
        exact ih hbins (nodup_append.mp hn).2.1 fun z hz => hs z (mem_append_right _ hz)

omit [DecidableEq E] in
theorem nodup_split (hn : (pre ++ (y :: b) :: bins).flatten.Nodup) :
    bins.flatten.Nodup ∧ ∀ z ∈ (pre ++ [y :: b]).flatten, z ∉ bins.flatten := by
  rw [append_cons, flatten_append, nodup_append] at hn
  exact ⟨hn.2.1, fun z hz hm => hn.2.2 z hz z hm rfl⟩

omit [DecidableEq E] in
theorem findBin_spec (h : Reaches event (some x) ((x :: b) :: bins))
    (hx : keyOf event x < keyOf event e) (hfuel : bins.length < n) :
    ∃ pre y c post, (x :: b) :: bins = pre ++ (y :: c) :: post ∧
      findBin event e n x (event x).nextBin = .ok (y, (event y).nextBin) ∧
        Reaches event (event y).nextBin post ∧
      (∀ d ∈ pre ++ [y :: c], ∃ z d', d = z :: d' ∧ keyOf event z < keyOf event e) ∧
      ∀ z, (event y).nextBin = some z → ¬(event z).lt (event e) := by
  induction bins generalizing x b n with
  | nil =>
    obtain ⟨-, -, hbins⟩ := h
    obtain ⟨n, rfl⟩ := exists_eq_succ_of_ne_zero (ne_of_gt (zero_lt_of_lt hfuel))
    have hnb : (event x).nextBin = none := hbins
    exact ⟨[], x, b, [], rfl, by rw [hnb]; rfl, hbins, by simpa using hx, by simp [hnb]⟩
  | cons c bins ih =>
    cases c with
    | nil => exact h.2.2.elim
    | cons c b2 =>
      obtain ⟨-, -, hbins⟩ := h
      have hnb : (event x).nextBin = some c := hbins.1
      obtain ⟨n, rfl⟩ := exists_eq_succ_of_ne_zero (ne_of_gt (zero_lt_of_lt hfuel))
      by_cases hlt : (event c).lt (event e) = true
      · obtain ⟨pre, y, d, post, hsplit, hfind, hpost, hpassed, hge⟩ :=
          ih (hnb ▸ hbins) (Event.lt_iff.mp hlt) (by simpa using hfuel)
        refine ⟨(x :: b) :: pre, y, d, post, by rw [hsplit]; rfl, ?_, hpost, ?_, hge⟩
        · rw [hnb]
          simp only [findBin, hlt, if_true]
          exact hfind
        · rintro d (_ | ⟨_, hd⟩)
          · exact ⟨x, b, rfl, hx⟩
          · exact hpassed d hd
      · refine ⟨[], x, b, _, rfl, ?_, hbins, by simpa using hx, ?_⟩
        · rw [hnb]
          simp only [findBin, hlt]
          rfl
        · rintro z hz
          rw [hnb] at hz
          cases hz
          exact hlt

theorem insertBefore_of_ne (h : y ≠ e) : insertBefore event e p y = event y := by
  unfold insertBefore
  split
  · exact modify_of_ne h
  · split <;> exact modify_of_ne h

theorem moved_insertBefore (event : E → Event E) (e : E) (p : Option E) (y : E) :
    (event y).Moved (insertBefore event e p y) := by
  unfold insertBefore
  split
  · exact moved_modify event e (by intro v; rfl) y
  · split <;> exact moved_modify event e (by intro v; rfl) y

theorem insertBefore_reaches (h : Reaches event p bins) (he : e ∉ bins.flatten)
    (hge : ∀ c, p = some c → ¬(event c).lt (event e)) :
    Reaches (insertBefore event e p) (some e) (Bins.insert (keyOf event) e bins) := by
  have hframe : ∀ y ∈ bins.flatten, insertBefore event e p y = event y := fun y hy =>
    insertBefore_of_ne (by rintro rfl; exact he hy)
  cases bins with
  | nil =>
    cases h
    refine ⟨rfl, ?_, ?_⟩ <;> rw [insertBefore, modify_self] <;> rfl
  | cons b bins =>
    cases b with
    | nil => exact h.elim
    | cons c b =>
      obtain ⟨rfl, hin, hbins⟩ := h
      have hle : keyOf event e ≤ keyOf event c := not_lt.mp fun hlt => hge c rfl (Event.lt_iff.mpr hlt)
      simp only [Bins.insert]
      split
      · -- a new bin in front
        rename_i hlt
        have hnew : insertBefore event e (some c) e =
            { event e with nextBin := some c, nextInBin := none } := by
          simp only [insertBefore, Event.lt_iff.mpr hlt, if_true]
          exact modify_self
        refine ⟨rfl, ?_, ?_⟩
        · rw [hnew]
          rfl
        · rw [hnew]
          exact Reaches.congr ⟨rfl, hin, hbins⟩ hframe
      · -- the top of the bin that is there
        rename_i hnlt
        rw [if_pos (le_antisymm hle (not_lt.mp hnlt))]
        have hnew : insertBefore event e (some c) e =
            { event e with nextBin := (event c).nextBin, nextInBin := some c } := by
          simp only [insertBefore, if_neg (mt Event.lt_iff.mp hnlt)]
          exact modify_self
        refine ⟨rfl, ?_, ?_⟩
        · rw [hnew]
          refine Linked.cons_iff.mpr ⟨rfl, ?_⟩
          rw [nextIn, hframe c mem_cons_self]
          refine hin.congr fun y hy => ?_
          rw [nextIn, hframe y (mem_append_left _ (mem_cons_of_mem _ hy)), nextIn]
        · rw [hnew]
          exact hbins.congr fun y hy => hframe y (mem_append_right _ hy)

theorem insert_spec (h : Reaches q.event q.head bins) (hn : bins.flatten.Nodup)
    (he : e ∉ bins.flatten) (hfuel : bins.length ≤ fuel) :
    ∃ q', insert fuel q e = .ok q' ∧ Reaches q'.event q'.head (Bins.insert (keyOf q.event) e bins) ∧
      (∀ y, (q.event y).Moved (q'.event y)) ∧ q'.isMain = q.isMain := by
  cases hhead : q.head with
  | none =>
    rw [hhead] at h
    refine ⟨⟨some e, insertBefore q.event e none, q.isMain⟩, ?_, ?_,
      moved_insertBefore q.event e none, rfl⟩
    · simp only [insert, hhead]
      rfl
    · exact insertBefore_reaches h he (by simp)
  | some x =>
    rw [hhead] at h
    by_cases hle : (q.event e).le (q.event x) = true
    · refine ⟨⟨some e, insertBefore q.event e (some x), q.isMain⟩, ?_, ?_,
        moved_insertBefore q.event e (some x), rfl⟩
      · simp only [insert, hhead, hle, if_true]
        rfl
      · refine insertBefore_reaches h he ?_
        rintro _ ⟨⟩ hlt
        exact absurd (Event.lt_iff.mp hlt) (not_lt_of_ge (Event.le_iff.mp hle))
    · have hlt : keyOf q.event x < keyOf q.event e := not_le.mp (mt Event.le_iff.mpr hle)
      cases bins with
      | nil => exact absurd h nofun
      | cons c bins =>
        cases c with
        | nil => exact h.elim
        | cons c b =>
          cases h.1
          obtain ⟨pre, y, d, post, hsplit, hfind, hpost, hpassed, hge⟩ :=
            findBin_spec h hlt (n := fuel) hfuel
          rw [hsplit] at h hn ⊢
          rw [hsplit, append_cons, flatten_append, mem_append, not_or] at he
          refine ⟨⟨q.head, modify (insertBefore q.event e (q.event y).nextBin) y
            fun v => { v with nextBin := some e }, q.isMain⟩, ?_, ?_, ?_, rfl⟩
          · simp only [insert, hhead, hle, hfind]
            rfl
          · rw [append_cons, Bins.insert_append hpassed, ← append_cons, hhead]
            refine h.relink hn (fun z hz => insertBefore_of_ne ?_)
              (insertBefore_reaches hpost he.2 hge) fun hm => ?_
            · rintro rfl
              exact he.1 hz
            · rcases mem_insert.mp hm with rfl | hm
              · exact he.1 (by simp)
              · exact (nodup_split hn).2 y (by simp) hm
          · intro z
            refine (moved_insertBefore q.event e (q.event y).nextBin z).trans ?_
            exact moved_nextBin (insertBefore q.event e (q.event y).nextBin) y (some e) z

theorem nextIn_modify :
    nextIn (modify event y fun v => { v with nextInBin := r }) = update (nextIn event) y r := by
  funext z
  by_cases h : z = y
  · subst h
    rw [nextIn, modify_self, update_self]
  · rw [nextIn, modify_of_ne h, update_of_ne h, nextIn]

theorem findInBin_spec (h : Linked (nextIn event) (some x) (x :: b)) (hn : (x :: b).Nodup)
    (he : e ∈ b) (hfuel : b.length < n) :
    ∃ y ∈ x :: b, findInBin event e n x (event x).nextInBin = .ok y ∧
      Linked (update (nextIn event) y (nextIn event e)) (some x) (x :: b.erase e) := by
  induction b generalizing x n with
  | nil => cases he
  | cons c b ih =>
    have hc : (event x).nextInBin = some c := h.2.1
    obtain ⟨n, rfl⟩ := exists_eq_succ_of_ne_zero (ne_of_gt (zero_lt_of_lt hfuel))
    have hx := (nodup_cons.mp hn).1
    rw [hc]
    by_cases hce : c = e
    · subst hce
      refine ⟨x, mem_cons_self, by simp [findInBin], ?_⟩
      rw [erase_cons_head]
      exact h.unlink fun hm => hx (mem_cons_of_mem _ hm)
    · have he' : e ∈ b := (mem_cons.mp he).resolve_left (Ne.symm hce)
      obtain ⟨y, hy, hfind, hlink⟩ := ih ⟨rfl, h.2.2⟩ (nodup_cons.mp hn).2 he' (by simpa using hfuel)
      refine ⟨y, mem_cons_of_mem _ hy, by simp only [findInBin, hce]; exact hfind, rfl, ?_⟩
      rw [erase_cons_tail (by simpa using hce),
        update_of_ne (by rintro rfl; exact hx hy), show nextIn event x = some c from hc]
      exact hlink

theorem removeItem_spec (h : Reaches event (some x) ((x :: b) :: bins))
    (hn : ((x :: b) :: bins).flatten.Nodup) (he : e ∈ x :: b) (hfuel : b.length < fuel) :
    ∃ event' top, removeItem fuel event e x = .ok (event', top) ∧
      Reaches event' top (consBin ((x :: b).erase e) bins) ∧
      (∀ y, y ∉ x :: b → event' y = event y) ∧ ∀ y, (event y).Moved (event' y) := by
  obtain ⟨-, hin, hbins⟩ := h
  have hnb := (nodup_append.mp hn).1
  have hdisj : ∀ y ∈ x :: b, y ∉ bins.flatten := fun y hy hm =>
    (nodup_append.mp hn).2.2 y hy y hm rfl
  by_cases hex : e = x
  · subst hex
    rw [erase_cons_head]
    cases b with
    | nil =>
      have hnone : (event e).nextInBin = none := hin
      refine ⟨event, (event e).nextBin, ?_, hbins, fun _ _ => rfl, fun _ => .refl _⟩
      simp only [removeItem, if_true, hnone]
      rfl
    | cons c b =>
      have hsome : (event e).nextInBin = some c := hin.1
      have hcb : c ∉ b := (nodup_cons.mp (nodup_cons.mp hnb).2).1
      refine ⟨modify event c fun v => { v with nextBin := (event e).nextBin }, some c, ?_,
        ⟨rfl, ?_, ?_⟩, fun y hy => modify_of_ne ?_, moved_nextBin event c _⟩
      · simp only [removeItem, if_true, hsome]
        rfl
      · rw [modify_self]
        refine hin.2.congr fun y hy => ?_
        rw [nextIn, modify_of_ne (by rintro rfl; exact hcb hy), nextIn]
      · rw [modify_self]
        refine hbins.congr fun y hy => modify_of_ne ?_
        rintro rfl
        exact hdisj y (mem_cons_of_mem _ mem_cons_self) hy
      · rintro rfl
        exact hy (mem_cons_of_mem _ mem_cons_self)
  · have heb : e ∈ b := (mem_cons.mp he).resolve_left hex
    obtain ⟨y, hy, hfind, hlink⟩ := findInBin_spec ⟨rfl, hin⟩ hnb heb hfuel
    refine ⟨modify event y fun v => { v with nextInBin := (event e).nextInBin }, some x, ?_, ?_,
      fun z hz => modify_of_ne (by rintro rfl; exact hz hy), moved_modify event y (by intro v; rfl)⟩
    · simp only [removeItem, hex, if_false, hfind]
      rfl
    · rw [erase_cons_tail (by simpa using Ne.symm hex)]
      have hx : (modify event y (fun v => { v with nextInBin := (event e).nextInBin }) x).nextBin =
          (event x).nextBin := by
        by_cases hxy : x = y
        · subst hxy
          rw [modify_self]
        · rw [modify_of_ne hxy]
      refine ⟨rfl, ?_, ?_⟩
      · have := hlink.2
        rw [← nextIn_modify] at this
        exact this
      · rw [hx]
        exact hbins.congr fun z hz => modify_of_ne (by rintro rfl; exact hdisj z hy hz)

theorem removeItem_self : removeItem fuel event e e = .ok (popHead event e) := by
  simp only [removeItem, popHead, if_true]
  cases (event e).nextInBin <;> rfl

theorem remove_spec (h : Reaches q.event q.head bins)
    (hn : bins.flatten.Nodup) (ho : Bins.Ordered (keyOf q.event) bins) (he : e ∈ bins.flatten)
    (hfuel : bins.flatten.length < fuel) :
    ∃ q', remove fuel q e = .ok q' ∧ Reaches q'.event q'.head (Bins.remove e bins) ∧
      (∀ y, (q.event y).Moved (q'.event y)) ∧ q'.isMain = q.isMain := by
  cases bins with
  | nil => cases he
  | cons c bins =>
    cases c with
    | nil => exact h.elim
    | cons x b =>
      have hhead : q.head = some x := h.1
      rw [hhead] at h
      have hlen := h.length_le
      simp only [length_cons, flatten_cons, length_append] at hfuel hlen
      by_cases hex : e ∈ x :: b
      · have hkey : (q.event x).eq (q.event e) = true :=
          Event.eq_iff.mpr (ho.sameKey _ mem_cons_self x mem_cons_self e hex)
        obtain ⟨event', top, hitem, hreach, -, hmoved⟩ :=
          removeItem_spec h hn hex (show b.length < fuel by omega)
        refine ⟨⟨top, event', q.isMain⟩, ?_, ?_, hmoved, rfl⟩
        · simp only [remove, hhead, hkey, if_true, hitem]
          rfl
        · rw [Bins.remove, if_pos hex]
          exact hreach
      · have he' : e ∈ bins.flatten := (mem_append.mp he).resolve_left hex
        have hkey : ¬(q.event x).eq (q.event e) = true := fun heq =>
          (ne_of_lt (ho.head_lt mem_cons_self he')) (Event.eq_iff.mp heq)
        have hlt := ho.head_lt mem_cons_self he'
        obtain ⟨pre, y, d, post, hsplit, hfind, hpost, hpassed, hge⟩ :=
          findBin_spec h hlt (show bins.length < fuel by omega)
        have hlen' : post.flatten.length ≤ ((x :: b) :: bins).flatten.length := by
          rw [hsplit, append_cons, flatten_append, length_append]
          exact Nat.le_add_left ..
        rw [hsplit] at h hn ho he ⊢
        rw [append_cons] at ho he
        obtain ⟨hpassed, c, b2, rest, rfl, hec⟩ := ho.mem_after hpassed he fun c b2 rest hc =>
          mt Event.lt_iff.mpr (hge c (by subst hc; exact hpost.1))
        obtain ⟨hnpost, hdisj⟩ := nodup_split hn
        have hnb := hpost.1
        rw [hnb] at hpost hfind
        have hkeyc : (q.event c).eq (q.event e) = true :=
          Event.eq_iff.mpr (ho.sameKey _ (by simp) c mem_cons_self e hec)
        simp only [flatten_cons, length_append, length_cons] at hlen'
        obtain ⟨event', top, hitem, hreach, hframe, hmoved⟩ :=
          removeItem_spec hpost hnpost hec (show b2.length < fuel by omega)
        refine ⟨⟨q.head, modify event' y fun v => { v with nextBin := top }, q.isMain⟩, ?_, ?_,
          fun z => (hmoved z).trans (moved_nextBin event' y top z), rfl⟩
        · simp only [remove, hhead, hkey, hfind, ok_bind, hkeyc, if_true, hitem]
          rfl
        · rw [append_cons, Bins.remove_append hpassed, ← append_cons, Bins.remove, if_pos hec, hhead]
          refine h.relink hn (fun z hz => hframe z fun hm => hdisj z hz (mem_append_left _ hm))
            hreach fun hm => ?_
          rw [flatten_consBin, mem_append] at hm
          exact hdisj y (by simp) (mem_append.mpr (hm.imp_left mem_of_mem_erase))

end EventQueue

/-- A call on the queue; `now` is the current tick when it is made. The calls an
event's action makes come between its `serviceOne` and its `finish`. -/
inductive EventCall (E : Type)
  | schedule (now : Nat) (e : E) (tick : Nat)
  | deschedule (e : E)
  | reschedule (now : Nat) (e : E) (tick : Nat) (always : Bool)
  | serviceOne
  | finish (e : E)
  | squash (e : E)

/-- The queue with a record of the calls: the tick for which each event is scheduled, and when it
was last inserted. The priorities are those the events were made with. -/
structure EventHistory (E : Type) where
  queue : EventQueue E
  priority : E → Int
  planned : E → Option Nat
  stamp : E → Nat
  inserted : Nat

namespace EventHistory

variable {s t : EventHistory E} {q : EventQueue E} {a : EventCall E} {calls : List (EventCall E)}

variable [DecidableEq E]

def insertedNow (s : EventHistory E) (q : EventQueue E) (e : E) (tick : Nat) : EventHistory E where
  queue := q
  priority := s.priority
  planned := update s.planned e (some tick)
  stamp := update s.stamp e s.inserted
  inserted := s.inserted + 1

def takenOff (s : EventHistory E) (q : EventQueue E) (e : E) : EventHistory E :=
  { s with queue := q, planned := update s.planned e none }

def step (fuel : Nat) (s : EventHistory E) : EventCall E → Chk (EventHistory E)
  | .schedule now e tick => do
    let q ← s.queue.schedule fuel now e tick
    return s.insertedNow q e tick
  | .deschedule e => do
    let q ← s.queue.deschedule fuel e
    return s.takenOff q e
  | .reschedule now e tick always => do
    let q ← s.queue.reschedule fuel now e tick always
    return s.insertedNow q e tick
  | .serviceOne => do
    let (q, e) ← s.queue.serviceOne
    return s.takenOff q e
  | .finish e => do
    let q ← s.queue.finish e
    return { s with queue := q }
  | .squash e => return { s with queue := s.queue.squash e }

def Allowed (s : EventHistory E) : EventCall E → Prop
  | .schedule now e tick =>
    now ≤ tick ∧ s.planned e = none ∧ (s.queue.event e).initialized = true
  | .deschedule e => s.planned e ≠ none ∧ (s.queue.event e).initialized = true
  | .reschedule now e tick always =>
    now ≤ tick ∧ (always = true ∨ s.planned e ≠ none) ∧ (s.queue.event e).initialized = true
  | .serviceOne => ∃ e, s.planned e ≠ none
  | .finish e => (s.queue.event e).isExitEvent = true → (s.queue.event e).autoDelete = false
  | .squash _ => True

def Step (fuel : Nat) (s : EventHistory E) (a : EventCall E) (t : EventHistory E) : Prop :=
  s.Allowed a ∧ s.step fuel a = .ok t

/-- The two-level list reached from `head` is `bins`, each event once, in bins
ordered by time and priority, the events of a bin from the latest inserted to
the earliest. -/
structure Lists (q : EventQueue E) (stamp : E → Nat) (inserted : Nat) (bins : List (List E)) :
    Prop where
  reached : Reaches q.event q.head bins
  once : bins.flatten.Nodup
  ordered : Bins.Ordered (keyOf q.event) bins
  stacked : Bins.Stacked stamp bins
  stamped : ∀ e ∈ bins.flatten, stamp e < inserted

structure Holds (s : EventHistory E) (bins : List (List E)) : Prop
    extends Lists s.queue s.stamp s.inserted bins where
  exact : ∀ e, e ∈ bins.flatten ↔ s.planned e ≠ none
  told : ∀ e, (s.queue.event e).Told (s.planned e) (s.priority e)

def key (s : EventHistory E) (e : E) : ℕ ×ₗ ℤ := toLex ((s.planned e).getD 0, s.priority e)

/-- `e` comes before every other scheduled event: its key is less, or it is the
same and `e` was inserted later. -/
def IsNext (s : EventHistory E) (e : E) : Prop :=
  s.planned e ≠ none ∧ ∀ y, s.planned y ≠ none → y ≠ e →
    s.key e < s.key y ∨ s.key e = s.key y ∧ s.stamp y < s.stamp e

def start (event : E → Event E) (isMain : Bool) : EventHistory E :=
  ⟨⟨none, event, isMain⟩, fun e => (event e).priority, fun _ => none, fun _ => 0, 0⟩

omit [DecidableEq E] in
theorem Holds.key_eq (h : s.Holds bins) (he : e ∈ bins.flatten) :
    (s.queue.event e).key = s.key e := by
  obtain ⟨tick, htick⟩ := Option.ne_none_iff_exists'.mp ((h.exact e).mp he)
  rw [Event.key, key, (h.told e).when tick htick, (h.told e).priority, htick, Option.getD_some]

section Lists

variable {stamp : E → Nat} {k : Nat} {f : Event E → Event E}

section

variable (h : Lists q stamp k bins)
include h

theorem Lists.modify_flags (e : E) (hf : ∀ v, SamePointers v (f v) ∧ (f v).key = v.key) :
    Lists { q with event := modify q.event e f } stamp k bins := by
  have hsame : ∀ y, SamePointers (q.event y) (modify q.event e f y) ∧
      (modify q.event e f y).key = (q.event y).key := by
    intro y
    by_cases hy : y = e
    · subst hy
      rw [modify_self]
      exact hf _
    · rw [modify_of_ne hy]
      exact ⟨⟨rfl, rfl⟩, rfl⟩
  exact ⟨h.reached.congr_pointers fun y _ => (hsame y).1, h.once,
    h.ordered.congr fun y _ => (hsame y).2, h.stacked, h.stamped⟩

theorem Lists.modify_unlisted (he : e ∉ bins.flatten) :
    Lists { q with event := modify q.event e f } stamp k bins := by
  have hsame : ∀ y ∈ bins.flatten, modify q.event e f y = q.event y := fun y hy =>
    modify_of_ne (by rintro rfl; exact he hy)
  refine ⟨h.reached.congr hsame, h.once, h.ordered.congr fun y hy => ?_, h.stacked, h.stamped⟩
  simp [keyOf, hsame y hy]

theorem Lists.insert (he : e ∉ bins.flatten) (hfuel : bins.flatten.length < fuel) :
    ∃ q', q.insert fuel e = .ok q' ∧
      Lists q' (update stamp e k) (k + 1) (insert (keyOf q.event) e bins) ∧
      (∀ y, (q.event y).Moved (q'.event y)) ∧ q'.isMain = q.isMain := by
  obtain ⟨q', hq, hreach, hmoved, hmain⟩ := insert_spec h.reached h.once he
    (le_of_lt (lt_of_le_of_lt h.reached.length_le hfuel))
  have hold : ∀ y ∈ bins.flatten, update stamp e k y = stamp y := fun y hy =>
    update_of_ne (by rintro rfl; exact he hy) ..
  refine ⟨q', hq, ⟨hreach, ?_, ?_, ?_, ?_⟩, hmoved, hmain⟩
  · rw [(insert_perm _ e bins).nodup_iff]
    exact nodup_cons.mpr ⟨he, h.once⟩
  · exact (h.ordered.insert e).congr fun y _ => (hmoved y).key_eq
  · refine (h.stacked.congr hold).insert fun y hy => ?_
    rw [hold y hy, update_self]
    exact h.stamped y hy
  · intro y hy
    rcases mem_insert.mp hy with rfl | hy
    · rw [update_self]
      exact lt_succ_self k
    · rw [hold y hy]
      exact lt_succ_of_lt (h.stamped y hy)

omit h in
theorem mem_remove (h : bins.flatten.Nodup) :
    y ∈ (remove e bins).flatten ↔ y ≠ e ∧ y ∈ bins.flatten := by
  rw [(remove_perm e bins).mem_iff, h.mem_erase_iff]

theorem Lists.removed (hreach : Reaches q'.event q'.head (remove e bins))
    (hkey : ∀ y, keyOf q'.event y = keyOf q.event y) :
    Lists q' stamp k (remove e bins) where
  reached := hreach
  once := (remove_perm e bins).nodup_iff.mpr (h.once.erase e)
  ordered := (h.ordered.remove e).congr fun y _ => hkey y
  stacked := h.stacked.remove e
  stamped y hy := h.stamped y ((mem_remove h.once).mp hy).2

theorem Lists.remove (he : e ∈ bins.flatten) (hfuel : bins.flatten.length < fuel) :
    ∃ q', q.remove fuel e = .ok q' ∧ Lists q' stamp k (remove e bins) ∧
      (∀ y, (q.event y).Moved (q'.event y)) ∧ q'.isMain = q.isMain := by
  obtain ⟨q', hq, hreach, hmoved, hmain⟩ := remove_spec h.reached h.once h.ordered he hfuel
  exact ⟨q', hq, h.removed hreach fun y => (hmoved y).key_eq, hmoved, hmain⟩

end

end Lists

def StepsWell (fuel : Nat) (s : EventHistory E) (bins : List (List E)) (a : EventCall E) : Prop :=
  ∃ t bins', s.step fuel a = .ok t ∧ t.Holds bins' ∧
    bins'.flatten.length ≤ bins.flatten.length + 1

theorem insert_holds (tick : Nat) (h : Lists q s.stamp s.inserted bins) (he : e ∉ bins.flatten)
    (hexact : ∀ y, y ≠ e → (y ∈ bins.flatten ↔ s.planned y ≠ none))
    (htold : ∀ y, y ≠ e → (q.event y).Told (s.planned y) (s.priority y))
    (hprio : (q.event e).priority = s.priority e) (hfuel : bins.flatten.length < fuel) :
    ∃ q' bins', (q.setWhen e tick).insert fuel e = .ok q' ∧ q'.isMain = q.isMain ∧
      bins'.flatten.length = bins.flatten.length + 1 ∧ ∀ f : Event E → Event E,
        (∀ v, SamePointers v (f v) ∧ (f v).key = v.key ∧ (f v).scheduled = true) →
        (s.insertedNow { q' with event := modify q'.event e f } e tick).Holds bins' := by
  have hset : Lists (q.setWhen e tick) s.stamp s.inserted bins := h.modify_unlisted he
  obtain ⟨q', hq, hlists, hmoved, hmain⟩ := hset.insert he hfuel
  refine ⟨q', insert (keyOf (q.setWhen e tick).event) e bins, hq, hmain,
    (insert_perm _ e bins).length_eq, fun f hf => ?_⟩
  refine ⟨hlists.modify_flags e fun v => ⟨(hf v).1, (hf v).2.1⟩, fun y => ?_, fun y => ?_⟩
  · rw [mem_insert]
    by_cases hy : y = e
    · subst hy
      simp [insertedNow]
    · rw [or_iff_right hy, hexact y hy]
      simp [insertedNow, update_of_ne hy]
  · by_cases hy : y = e
    · subst hy
      have hkey := (hf (q'.event y)).2.1.trans (hmoved y).key_eq
      obtain ⟨hwhen, hpriority⟩ := Event.key_eq_iff.mp hkey
      simp only [setWhen, modify_self] at hwhen hpriority
      simp only [insertedNow, modify_self, update_self]
      refine ⟨(hf _).2.2, fun tick' htick => ?_, hpriority.trans hprio⟩
      rw [hwhen]
      exact Option.some.inj htick
    · have hold := htold y hy
      have hmv := hmoved y
      simp only [setWhen, modify_of_ne hy] at hmv
      simp only [insertedNow, modify_of_ne hy, update_of_ne hy]
      exact hold.moved hmv

section

variable (h : s.Holds bins) (hfuel : bins.flatten.length < fuel)
include h

omit [DecidableEq E] in
theorem Holds.mem_iff (e : E) : e ∈ bins.flatten ↔ (s.queue.event e).scheduled = true := by
  rw [h.exact, (h.told e).scheduled, Option.isSome_iff_ne_none]

omit [DecidableEq E] in
theorem Holds.not_mem (he : s.planned e = none) : e ∉ bins.flatten := by
  rw [h.exact]
  exact not_not_intro he

omit [DecidableEq E] in
theorem Holds.scheduled_of (he : s.planned e ≠ none) : (s.queue.event e).scheduled = true :=
  (h.mem_iff e).mp ((h.exact e).mpr he)

omit [DecidableEq E] in
theorem Holds.unscheduled_of (he : s.planned e = none) : (s.queue.event e).scheduled = false := by
  rw [(h.told e).scheduled, he, Option.isSome_none]

include hfuel in
theorem stepsWell_schedule (ha : s.Allowed (.schedule now e tick)) :
    StepsWell fuel s bins (.schedule now e tick) := by
  obtain ⟨hnow, hplanned, hinit⟩ := ha
  obtain ⟨q', bins', hins, hmain, hlen, hholds⟩ := insert_holds tick h.toLists
    (h.not_mem hplanned) (fun y _ => h.exact y) (fun y _ => h.told y) (h.told e).priority hfuel
  refine ⟨_, bins', ?_, hholds (fun v => { v with scheduled := true, isMainQueue := q'.isMain })
    fun v => ⟨⟨rfl, rfl⟩, rfl, rfl⟩, le_of_eq hlen⟩
  simp only [step, schedule, hnow, h.unscheduled_of hplanned, hinit, hins, decide_true,
    Bool.not_false, ensure_true, ok_bind]
  rfl

omit h in
theorem length_remove_le :
    (remove e bins).flatten.length ≤ bins.flatten.length := by
  rw [(remove_perm e bins).length_eq]
  exact length_erase_le

theorem takenOff_holds {q' : EventQueue E} (hlists : Lists q' s.stamp s.inserted (remove e bins))
    (hmoved : ∀ y, y ≠ e → (s.queue.event y).Moved (q'.event y))
    (hsched : (q'.event e).scheduled = false)
    (hprio : (q'.event e).priority = (s.queue.event e).priority) :
    (s.takenOff q' e).Holds (remove e bins) := by
  refine ⟨hlists, fun y => ?_, fun y => ?_⟩
  · rw [mem_remove h.once, h.exact y]
    by_cases hy : y = e
    · subst hy
      simp [takenOff]
    · simp [takenOff, hy]
  · by_cases hy : y = e
    · subst hy
      simp only [takenOff, update_self]
      exact ⟨hsched, nofun, hprio.trans (h.told y).priority⟩
    · simp only [takenOff, update_of_ne hy]
      exact (h.told y).moved (hmoved y hy)

include hfuel in
theorem stepsWell_deschedule (ha : s.Allowed (.deschedule e)) :
    StepsWell fuel s bins (.deschedule e) := by
  obtain ⟨hplanned, hinit⟩ := ha
  have hsched := h.scheduled_of hplanned
  obtain ⟨q', hrem, hlists, hmoved, hmain⟩ := h.toLists.remove ((h.exact e).mpr hplanned) hfuel
  -- whatever `deschedule` does to the removed event, the list does not change
  have hkeep : ∀ f : Event E → Event E,
      (∀ v, (f v).scheduled = false ∧ (f v).priority = v.priority) →
      (s.takenOff { q' with event := modify q'.event e f } e).Holds (remove e bins) := by
    intro f hf
    have he : e ∉ (remove e bins).flatten := fun hm => ((mem_remove h.once).mp hm).1 rfl
    refine takenOff_holds h (hlists.modify_unlisted he) (fun y hy => ?_) ?_ ?_
    · simp only [modify_of_ne hy]
      exact hmoved y
    · simp only [modify_self, hf]
    · simp only [modify_self, hf]
      exact (Event.key_eq_iff.mp (hmoved e).key_eq).2
  have hle : (remove e bins).flatten.length ≤ bins.flatten.length + 1 :=
    le_succ_of_le length_remove_le
  cases hauto : (q'.event e).autoDelete with
  | true =>
    refine ⟨_, _, ?_, hkeep (fun v => { v with
      squashed := false
      scheduled := false
      autoDelete := false
      isExitEvent := false
      isMainQueue := false
      initialized := false }) fun _ => ⟨rfl, rfl⟩, hle⟩
    simp only [step, deschedule, hsched, hinit, ensure_true, ok_bind, hrem, modify_self,
      hauto, if_true, delete, Bool.not_false]
    simp only [EventQueue.modify, update_self, update_idem]
    rfl
  | false =>
    refine ⟨_, _, ?_, hkeep (fun v => { v with squashed := false, scheduled := false })
      fun _ => ⟨rfl, rfl⟩, hle⟩
    simp only [step, deschedule, hsched, hinit, ensure_true, ok_bind, hrem, modify_self, hauto]
    rfl

include hfuel in
theorem Holds.removeScheduled (e : E) : ∃ q1 bins1, s.queue.removeScheduled fuel e = .ok q1 ∧
    Lists q1 s.stamp s.inserted bins1 ∧ e ∉ bins1.flatten ∧
    bins1.flatten.length ≤ bins.flatten.length ∧
    (∀ y, y ≠ e → (y ∈ bins1.flatten ↔ s.planned y ≠ none)) ∧
    ∀ y, (s.queue.event y).Moved (q1.event y) := by
  cases hplanned : s.planned e with
  | some tick =>
    have hne : s.planned e ≠ none := by simp [hplanned]
    obtain ⟨q1, hrem, hlists, hmoved, hmain⟩ := h.toLists.remove ((h.exact e).mpr hne) hfuel
    refine ⟨q1, _, ?_, hlists, fun hm => ((mem_remove h.once).mp hm).1 rfl, length_remove_le,
      fun y hy => ?_, hmoved⟩
    · simp only [EventQueue.removeScheduled, h.scheduled_of hne, if_true]
      exact hrem
    · rw [mem_remove h.once, h.exact y, and_iff_right hy]
  | none =>
    refine ⟨s.queue, bins, ?_, h.toLists, h.not_mem hplanned, le_refl _, fun y _ => h.exact y,
      fun y => .refl _⟩
    simp only [EventQueue.removeScheduled, h.unscheduled_of hplanned]
    rfl

include hfuel in
theorem stepsWell_reschedule (ha : s.Allowed (.reschedule now e tick always)) :
    StepsWell fuel s bins (.reschedule now e tick always) := by
  obtain ⟨hnow, hplanned, hinit⟩ := ha
  obtain ⟨q1, bins1, hq1, hlists, he, hlen1, hexact, hmoved⟩ := h.removeScheduled hfuel e
  obtain ⟨q', bins', hins, hmain, hlen, hholds⟩ := insert_holds tick hlists he hexact
    (fun y _ => (h.told y).moved (hmoved y)) ((h.told e).moved (hmoved e)).priority
    (lt_of_le_of_lt hlen1 hfuel)
  refine ⟨_, bins', ?_, hholds (fun v => { v with
    squashed := false
    scheduled := true
    isMainQueue := q'.isMain }) fun v => ⟨⟨rfl, rfl⟩, rfl, rfl⟩, by omega⟩
  have halways : (always || (s.queue.event e).scheduled) = true := by
    rcases hplanned with halways | hplanned
    · simp [halways]
    · simp [h.scheduled_of hplanned]
  simp only [step, reschedule, hnow, halways, hinit, decide_true, ensure_true, ok_bind, hq1, hins]
  rfl

theorem Holds.modify_flags (e : E)
    (hf : ∀ v, SamePointers v (f v) ∧ (f v).key = v.key ∧ (f v).scheduled = v.scheduled) :
    Holds { s with queue := { s.queue with event := EventQueue.modify s.queue.event e f } } bins := by
  refine ⟨h.toLists.modify_flags e fun v => ⟨(hf v).1, (hf v).2.1⟩, h.exact, fun y => ?_⟩
  have hold := h.told y
  by_cases hy : y = e
  · subst hy
    obtain ⟨hwhen, hpriority⟩ := Event.key_eq_iff.mp (hf (s.queue.event y)).2.1
    simp only [modify_self]
    refine ⟨(hf _).2.2.trans hold.scheduled, fun tick htick => ?_, hpriority.trans hold.priority⟩
    exact hwhen.trans (hold.when tick htick)
  · simp only [modify_of_ne hy]
    exact hold

theorem retire_holds (e : E) : ∃ event, retire s.queue.event e = .ok event ∧
      Holds { s with queue := { s.queue with event := event } } bins := by
  unfold retire
  split
  · rename_i hcond
    simp only [Bool.and_eq_true] at hcond
    refine ⟨_, by simp only [delete, hcond.2, ensure_true, ok_bind]; rfl, ?_⟩
    exact h.modify_flags e fun v => ⟨⟨rfl, rfl⟩, rfl, rfl⟩
  · exact ⟨_, rfl, h⟩

theorem stepsWell_finish (ha : s.Allowed (.finish e)) : StepsWell fuel s bins (.finish e) := by
  cases hexit : (s.queue.event e).isExitEvent with
  | true =>
    refine ⟨s, bins, ?_, h, le_succ _⟩
    simp only [step, finish, hexit, if_true, ha hexit, Bool.not_false, ensure_true, ok_bind]
    rfl
  | false =>
    obtain ⟨event, hret, hholds⟩ := retire_holds h e
    refine ⟨_, bins, ?_, hholds, le_succ _⟩
    simp only [step, finish, hexit, hret]
    rfl

omit [DecidableEq E] h in
theorem Holds.isNext (h : s.Holds ((x :: b) :: bins)) : s.IsNext x := by
  have hx : x ∈ ((x :: b) :: bins).flatten := mem_cons_self
  refine ⟨(h.exact x).mp hx, fun y hy hne => ?_⟩
  have hmem := (h.exact y).mpr hy
  rw [← h.key_eq hx, ← h.key_eq hmem]
  rcases mem_append.mp hmem with hy | hy
  · refine .inr ⟨h.ordered.sameKey _ mem_cons_self x mem_cons_self y hy, ?_⟩
    exact (pairwise_cons.mp (h.stacked _ mem_cons_self)).1 y
      ((mem_cons.mp hy).resolve_left hne)
  · exact .inl (h.ordered.head_lt mem_cons_self hy)

theorem serviceOne_holds (hany : ∃ e, s.planned e ≠ none) :
    ∃ q e, s.queue.serviceOne = .ok (q, e) ∧ s.IsNext e ∧
      (s.takenOff q e).Holds (Bins.remove e bins) := by
  cases bins with
  | nil =>
    obtain ⟨e, he⟩ := hany
    exact absurd ((h.exact e).mpr he) not_mem_nil
  | cons c bins =>
    cases c with
    | nil => exact h.reached.elim
    | cons x b =>
      have hx : s.queue.head = some x := h.reached.1
      have hreach := h.reached
      rw [hx] at hreach
      -- taking the top off is the first case of `removeItem`
      let event1 := EventQueue.modify s.queue.event x fun v => { v with scheduled := false }
      have hflags : Lists { s.queue with event := event1 } s.stamp s.inserted ((x :: b) :: bins) :=
        h.toLists.modify_flags x fun v => ⟨⟨rfl, rfl⟩, rfl⟩
      have hreach1 : Reaches event1 (some x) ((x :: b) :: bins) := hx ▸ hflags.reached
      obtain ⟨event2, top, hitem, hreach2, -, hmoved⟩ := removeItem_spec hreach1 h.once
        mem_cons_self (lt_succ_self b.length)
      have hrem : Bins.remove x ((x :: b) :: bins) = consBin ((x :: b).erase x) bins := by
        rw [Bins.remove, if_pos mem_cons_self]
      have hlists : Lists ⟨top, event2, s.queue.isMain⟩ s.stamp s.inserted
          (Bins.remove x ((x :: b) :: bins)) :=
        hflags.removed (hrem ▸ hreach2) fun y => (hmoved y).key_eq
      have hholds : (s.takenOff ⟨top, event2, s.queue.isMain⟩ x).Holds
          (Bins.remove x ((x :: b) :: bins)) := by
        refine takenOff_holds h hlists (fun y hy => ?_) ?_ ?_
        · rw [← show event1 y = s.queue.event y from modify_of_ne hy]
          exact hmoved y
        · show (event2 x).scheduled = false
          rw [hmoved x]
          simp only [event1, modify_self]
        · show (event2 x).priority = _
          rw [hmoved x]
          simp only [event1, modify_self]
      have hpop : popHead event1 x = (event2, top) := by
        rw [removeItem_self, Except.ok.injEq] at hitem
        exact hitem
      obtain ⟨event3, hret, hholds3⟩ := retire_holds
        (hholds.modify_flags (f := fun v => { v with squashed := false }) x
          fun v => ⟨⟨rfl, rfl⟩, rfl, rfl⟩) x
      cases hsq : (event2 x).squashed with
      | true =>
        refine ⟨⟨top, event3, s.queue.isMain⟩, x, ?_, h.isNext, hholds3⟩
        simp only [takenOff] at hret
        simp only [serviceOne, hx, need, ok_bind, event1] at hpop ⊢
        simp only [hpop, hsq, if_true, hret]
        rfl
      | false =>
        refine ⟨⟨top, event2, s.queue.isMain⟩, x, ?_, h.isNext, hholds⟩
        simp only [serviceOne, hx, need, ok_bind, event1] at hpop ⊢
        simp only [hpop, hsq]
        rfl

include hfuel in
theorem stepsWell (ha : s.Allowed a) : StepsWell fuel s bins a := by
  cases a with
  | schedule now e tick => exact stepsWell_schedule h hfuel ha
  | deschedule e => exact stepsWell_deschedule h hfuel ha
  | reschedule now e tick always => exact stepsWell_reschedule h hfuel ha
  | serviceOne =>
    obtain ⟨q, e, he, -, hholds⟩ := serviceOne_holds h ha
    refine ⟨_, _, ?_, hholds, le_succ_of_le length_remove_le⟩
    simp only [step, he, ok_bind]
    rfl
  | finish e => exact stepsWell_finish h ha
  | squash e =>
    exact ⟨_, bins, rfl, h.modify_flags e fun v => ⟨⟨rfl, rfl⟩, rfl, rfl⟩, le_succ _⟩

end

omit [DecidableEq E] in
theorem holds_start (hevent : ∀ e, (event e).scheduled = false) (isMain : Bool) :
    (start event isMain).Holds [] := by
  refine ⟨⟨rfl, nodup_nil, ⟨by simp, by simp, .nil⟩, by simp [Bins.Stacked], by simp⟩, ?_, ?_⟩
  · intro e
    simp [start]
  · intro e
    exact ⟨hevent e, nofun, rfl⟩

/-- The number of calls bounds the number of events, so that it is enough fuel. -/
theorem run_holds {isMain : Bool} (hevent : ∀ e, (event e).scheduled = false)
    (h : Runs (Step fuel) (start event isMain) calls s) (hfuel : calls.length ≤ fuel) :
    ∃ bins, s.Holds bins ∧ bins.flatten.length ≤ calls.length := by
  generalize hs : start event isMain = s0 at h
  induction h with
  | nil => exact ⟨[], hs ▸ holds_start hevent isMain, le_refl _⟩
  | snoc _ hstep ih =>
    rw [length_append, length_singleton] at hfuel
    obtain ⟨bins, hholds, hlen⟩ := ih (by omega)
    obtain ⟨t, bins', hstep', hholds', hlen'⟩ := 
      stepsWell hholds (show bins.flatten.length < fuel by omega) hstep.1
    rw [hstep.2, Except.ok.injEq] at hstep'
    refine ⟨bins', hstep' ▸ hholds', ?_⟩
    rw [length_append, length_singleton]
    omega

/-- After any calls that respect the assertions: the queue lists exactly the events that the
calls left scheduled, in bins ordered by the ticks and priorities given to them, and the events
have these ticks and priorities; every further such call succeeds, and `serviceOne` takes off the
next event and no other. -/
theorem run_ordered {isMain : Bool} (hevent : ∀ e, (event e).scheduled = false)
    (h : Runs (Step fuel) (start event isMain) calls s) (hfuel : calls.length < fuel) :
    (∃ bins, s.Holds bins ∧ Bins.Ordered s.key bins) ∧
      (∀ a, s.Allowed a → ∃ t, s.step fuel a = .ok t) ∧
      ∀ q e, s.queue.serviceOne = .ok (q, e) → s.IsNext e ∧ (q.event e).scheduled = false ∧
        ∀ y, y ≠ e → (q.event y).scheduled = (s.planned y).isSome := by
  obtain ⟨bins, hholds, hlen⟩ := run_holds hevent h (Nat.le_of_lt hfuel)
  refine ⟨⟨bins, hholds, ?_⟩, fun a ha => ?_, fun q e hq => ?_⟩
  · exact hholds.ordered.congr fun y hy => (hholds.key_eq hy).symm
  · obtain ⟨t, bins', ht, -⟩ := stepsWell hholds (show bins.flatten.length < fuel by omega) ha
    exact ⟨t, ht⟩
  · have hany : ∃ e, s.planned e ≠ none := by
      cases bins with
      | nil =>
        have hnone : s.queue.head = none := hholds.reached
        simp [serviceOne, hnone, need] at hq
      | cons c bins =>
        cases c with
        | nil => exact hholds.reached.elim
        | cons x b => exact ⟨x, (hholds.exact x).mp mem_cons_self⟩
    obtain ⟨q', e', hq', hnext, hholds'⟩ := serviceOne_holds hholds hany
    rw [hq, Except.ok.injEq, Prod.mk.injEq] at hq'
    obtain ⟨rfl, rfl⟩ := hq'
    refine ⟨hnext, ?_, fun y hy => ?_⟩
    · exact hholds'.unscheduled_of (update_self ..)
    · have hscheduled := (hholds'.told y).scheduled
      simp only [takenOff, update_of_ne hy] at hscheduled
      exact hscheduled

theorem run_ordered_lifo :
    ∃ s : EventHistory (Fin 3),
      Runs (Step 5) (start (fun _ => { priority := 0 }) true)
        [.schedule 0 0 5, .schedule 0 1 5, .schedule 0 2 5, .deschedule 2] s ∧
      (∃ bins, s.Holds bins ∧ Bins.Ordered s.key bins) ∧ s.planned 2 = none ∧
      s.planned 1 = some 5 ∧ ∃ q, s.queue.serviceOne = .ok (q, 1) ∧ s.IsNext 1 := by
  have h1 : Runs (Step 5) (start (fun _ : Fin 3 => { priority := 0 }) true)
      [.schedule 0 0 5] _ := .single ⟨⟨by decide, rfl, rfl⟩, rfl⟩
  have h2 := h1.snoc (a := EventCall.schedule 0 1 5) ⟨⟨by decide, rfl, rfl⟩, rfl⟩
  have h3 := h2.snoc (a := EventCall.schedule 0 2 5) ⟨⟨by decide, rfl, rfl⟩, rfl⟩
  have h4 := h3.snoc (a := EventCall.deschedule 2) ⟨⟨by decide, rfl⟩, rfl⟩
  obtain ⟨hbins, -, hnext⟩ := run_ordered (fun _ => rfl) h4 (by decide)
  exact ⟨_, h4, hbins, rfl, rfl, _, rfl, (hnext _ _ rfl).1⟩

end EventHistory

end Gem5
