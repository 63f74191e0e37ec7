import Gem5.Lib.Check

/-!
# The activity recorder

A `TimeBuffer` holds a window of cycles in a circular buffer. An `ActivityRecorder` counts the
cycles of its window that saw activity and the stages that are active: the CPU sleeps when
there are none.
-/

namespace Gem5

open Lib List Function

/-- A buffer of `past + future + 1` slots, of which `base` is that of the current cycle. -/
structure TimeBuffer (T : Type) (past future : Nat) where
  index : Nat → T
  base : Nat
  base_lt : base < past + future + 1

namespace TimeBuffer

variable {T : Type} {past future : Nat} (b : TimeBuffer T past future)

def size (_ : TimeBuffer T past future) : Nat := past + future + 1

def create [Inhabited T] : TimeBuffer T past future := ⟨fun _ => default, 0, Nat.succ_pos _⟩

def valid (past future : Nat) (idx : Int) : Chk Unit :=
  ensure (-past ≤ idx ∧ idx ≤ future) "idx >= -past && idx <= future"

def vectorIndex (idx : Int) : Nat :=
  let i := idx + b.base
  (if b.size ≤ i then i - b.size else if i < 0 then i + b.size else i).toNat

def slot (idx : Int) : T := b.index (b.vectorIndex idx)

def access (idx : Int) : Chk T := do
  valid past future idx
  pure (b.slot idx)

def store (idx : Int) (value : T) : Chk (TimeBuffer T past future) := do
  valid past future idx
  pure { b with index := update b.index (b.vectorIndex idx) value }

def advance [Inhabited T] (b : TimeBuffer T past future) : TimeBuffer T past future :=
  let base := if b.size ≤ b.base + 1 then 0 else b.base + 1
  let ptr := base + future
  { base
    index := update b.index (if b.size ≤ ptr then ptr - b.size else ptr) default
    base_lt := by
      have hbase := b.base_lt
      have hsize : b.size = past + future + 1 := rfl
      dsimp only [base]
      split_ifs <;> omega }

variable {b} {idx idx' : Int}

section

variable (h : -past ≤ idx ∧ idx ≤ future)

include h

theorem valid_eq : valid past future idx = .ok () :=
  ensure_of (decide_eq_true h) _

theorem access_eq : b.access idx = .ok (b.slot idx) := by
  rw [access, valid_eq h]
  rfl

theorem vectorIndex_spec : b.vectorIndex idx < b.size ∧
    (b.vectorIndex idx = idx + b.base ∨ b.vectorIndex idx + b.size = idx + b.base ∨
      b.vectorIndex idx = idx + b.base + b.size) := by
  have hbase := b.base_lt
  simp only [vectorIndex, size]
  split_ifs <;> omega

theorem slot_store (h' : -past ≤ idx' ∧ idx' ≤ future) (value : T) :
    slot { b with index := update b.index (b.vectorIndex idx) value } idx' = if idx' = idx then
      value else b.slot idx' := by
  have hsize : b.size = past + future + 1 := rfl
  have hspec := vectorIndex_spec (b := b) h
  have hspec' := vectorIndex_spec (b := b) h'
  have heq : b.vectorIndex idx' = b.vectorIndex idx ↔ idx' = idx :=
    ⟨fun _ => by omega, fun heq => by rw [heq]⟩
  show update b.index (b.vectorIndex idx) value (b.vectorIndex idx') = _
  rw [update_apply, slot]
  exact if_congr heq rfl rfl

theorem slot_advance [Inhabited T] :
    b.advance.slot idx = if idx = future then default else b.slot (idx + 1) := by
  have hsize : b.advance.size = b.size ∧ b.size = past + future + 1 := ⟨rfl, rfl⟩
  have hbase := b.base_lt
  have hspec := vectorIndex_spec (b := b.advance) h
  obtain ⟨ptr, hptr, hlt, hslot⟩ : ∃ ptr, b.advance.index = update b.index ptr default ∧ ptr < b.size ∧
      (ptr = b.advance.base + future ∨ ptr + b.size = b.advance.base + future) := by
    refine ⟨_, rfl, ?_⟩
    simp only [advance]
    split_ifs <;> omega
  have hnext : b.advance.base = b.base + 1 ∨ b.advance.base + b.size = b.base + 1 := by
    simp only [advance]
    split_ifs <;> omega
  rw [slot, hptr, update_apply]
  split_ifs with hin hidx hidx
  · rfl
  · omega
  · omega
  · have hwindow : -past ≤ idx + 1 ∧ idx + 1 ≤ future := by omega
    have hspec' := vectorIndex_spec (b := b) hwindow
    rw [slot, show b.advance.vectorIndex idx = b.vectorIndex (idx + 1) by omega]

theorem slot_iterate_advance [Inhabited T] (n : Nat) (hn : future < idx + n) :
    (advance^[n] b).slot idx = default := by
  induction n generalizing idx with
  | zero => omega
  | succ n ih =>
    rw [Function.iterate_succ_apply', slot_advance h]
    split_ifs with heq
    · rfl
    · exact ih (by omega) (by omega)

end

end TimeBuffer

structure ActivityRecorder (numStages longestLatency : Nat) where
  activityBuffer : TimeBuffer Bool longestLatency 0
  activityCount : Int
  stageActive : Fin numStages → Bool

namespace ActivityRecorder

variable {numStages longestLatency : Nat} (r : ActivityRecorder numStages longestLatency)

def create (activity : Int) : ActivityRecorder numStages longestLatency :=
  ⟨.create, activity, fun _ => false⟩

def activity : Chk (ActivityRecorder numStages longestLatency) := do
  if ← r.activityBuffer.access 0 then
    pure r
  else
    let activityBuffer ← r.activityBuffer.store 0 true
    pure { r with activityBuffer, activityCount := r.activityCount + 1 }

def advance : Chk (ActivityRecorder numStages longestLatency) := do
  let erased ← r.activityBuffer.access (-longestLatency)
  let activityCount ←
    if erased then do
      ensure (r.activityCount - 1 ≥ 0) "activityCount >= 0"
      pure (r.activityCount - 1)
    else pure r.activityCount
  pure { r with activityCount, activityBuffer := r.activityBuffer.advance }

def activateStage (idx : Fin numStages) : ActivityRecorder numStages longestLatency :=
  if !r.stageActive idx then
    { r with activityCount := r.activityCount + 1, stageActive := update r.stageActive idx true }
  else r

def deactivateStage (idx : Fin numStages) : Chk (ActivityRecorder numStages longestLatency) := do
  let r :=
    if r.stageActive idx then
      { r with activityCount := r.activityCount - 1, stageActive := update r.stageActive idx false }
    else r
  ensure (r.activityCount ≥ 0) "activityCount >= 0"
  pure r

def reset : ActivityRecorder numStages longestLatency where
  activityCount := 0
  stageActive _ := false
  activityBuffer := TimeBuffer.advance^[longestLatency + 1] r.activityBuffer

def countFlags (is : List ι) (flag : ι → Chk Bool) (count : Nat) : Chk Nat :=
  is.foldlM (fun count i => do pure (if ← flag i then count + 1 else count)) count

def validate : Chk Unit := do
  let count ← countFlags (range (longestLatency + 1)) (fun i => r.activityBuffer.access (-i)) 0
  let count ← countFlags (finRange numStages) (fun i => .ok (r.stageActive i)) count
  ensure ((count : Int) = r.activityCount) "count == activityCount"

theorem countFlags_eq {is : List ι} {flag : ι → Chk Bool} {p : ι → Bool}
    (h : ∀ i ∈ is, flag i = .ok (p i)) (count : Nat) :
    countFlags is flag count = .ok (count + is.countP p) := by
  unfold countFlags
  induction is generalizing count with
  | nil => rfl
  | cons i is ih =>
    rw [foldlM_cons, h i mem_cons_self, ok_bind, pure_bind,
      ih fun j hj => h j (mem_cons_of_mem i hj), countP_cons]
    cases p i <;> simp [Nat.add_comm, Nat.add_left_comm]

end ActivityRecorder

/-- A recorder and what it was told since the last reset: whether `activity()` was called `k`
cycles ago, and the stages that were activated and not deactivated again. -/
structure ActivityWorld (numStages longestLatency : Nat) where
  recorder : ActivityRecorder numStages longestLatency := .create 0
  called : Nat → Bool := fun _ => false
  activated : Fin numStages → Bool := fun _ => false

inductive ActivityEvent (numStages : Nat)
  | activity
  | advance
  | activateStage (idx : Fin numStages)
  | deactivateStage (idx : Fin numStages)
  | reset

namespace ActivityWorld

variable {numStages longestLatency : Nat}

def apply (w : ActivityWorld numStages longestLatency) :
    ActivityEvent numStages → Chk (ActivityWorld numStages longestLatency)
  | .activity => do
    pure { w with recorder := ← w.recorder.activity, called := update w.called 0 true }
  | .advance => do
    pure { w with recorder := ← w.recorder.advance, called := Nat.rec false fun k _ => w.called k }
  | .activateStage idx =>
    pure { w with
      recorder := w.recorder.activateStage idx, activated := update w.activated idx true }
  | .deactivateStage idx => do
    pure { w with
      recorder := ← w.recorder.deactivateStage idx, activated := update w.activated idx false }
  | .reset => pure { recorder := w.recorder.reset }

def active (w : ActivityWorld numStages longestLatency) : Nat :=
  (range (longestLatency + 1)).countP w.called + (finRange numStages).countP w.activated

structure Inv (w : ActivityWorld numStages longestLatency) : Prop where
  window : ∀ k ≤ longestLatency, w.recorder.activityBuffer.slot (-k) = w.called k
  stages : w.recorder.stageActive = w.activated
  count : w.recorder.activityCount = w.active

theorem countP_update [DecidableEq α] {l : List α} (hl : l.Nodup) (hi : i ∈ l)
    (f : α → Bool) (b : Bool) :
    l.countP (update f i b) + (f i).toNat = l.countP f + b.toNat := by
  have hsplit : ∀ g : α → Bool, l.countP g = (l.erase i).countP g + (g i).toNat := by
    intro g
    rw [(perm_cons_erase hi).countP_eq, countP_cons]
    cases g i <;> rfl
  have hrest : (l.erase i).countP (update f i b) = (l.erase i).countP f :=
    countP_congr fun j hj => by rw [update_apply, if_neg (hl.mem_erase_iff.mp hj).1]
  rw [hsplit, hsplit f, hrest, Function.update_self]
  exact Nat.add_right_comm ..

variable {w : ActivityWorld numStages longestLatency} (h : w.Inv)

theorem valid (hk : k ≤ longestLatency) :
    -(longestLatency : Int) ≤ -k ∧ -(k : Int) ≤ (0 : Nat) := by omega

include h

theorem Inv.access (hk : k ≤ longestLatency) :
    w.recorder.activityBuffer.access (-k) = .ok (w.called k) := by
  rw [TimeBuffer.access_eq (valid hk), h.window k hk]

theorem Inv.activity : ∃ w', w.apply .activity = .ok w' ∧ w'.Inv := by
  have hnow := h.access (Nat.zero_le _)
  rw [Nat.cast_zero, neg_zero] at hnow
  rw [ActivityWorld.apply, ActivityRecorder.activity, hnow, ok_bind]
  cases hcalled : w.called 0 with
  | true =>
    have hsame : update w.called 0 true = w.called := by rw [← hcalled, Function.update_eq_self]
    exact ⟨w, by rw [hsame]; rfl, h⟩
  | false =>
    have hvalid : -(longestLatency : Int) ≤ 0 ∧ (0 : Int) ≤ (0 : Nat) := by omega
    rw [TimeBuffer.store, TimeBuffer.valid_eq hvalid]
    refine ⟨_, rfl, fun k hk => ?_, h.stages, ?_⟩
    · refine (TimeBuffer.slot_store hvalid (valid hk) true).trans ?_
      simp [h.window k hk, update_apply]
    · have hcount := countP_update nodup_range
        (mem_range.mpr (Nat.add_one_pos longestLatency)) w.called true
      have hold := h.count
      simp only [active, hcalled, Bool.toNat_false, Bool.toNat_true] at hcount hold ⊢
      omega

theorem Inv.advance : ∃ w', w.apply .advance = .ok w' ∧ w'.Inv := by
  have hcount := h.count
  -- the cycles that stay in the window, and the one that leaves it
  have hleaves : (range (longestLatency + 1)).countP w.called =
      (range longestLatency).countP w.called + (w.called longestLatency).toNat := by
    rw [range_succ, countP_append, countP_singleton]
    cases w.called longestLatency <;> rfl
  have hstays : (range (longestLatency + 1)).countP (Nat.rec false fun k _ => w.called k) =
      (range longestLatency).countP w.called := by
    rw [range_succ_eq_map, countP_cons, countP_map]
    rfl
  have hwindow : ∀ k ≤ longestLatency,
      w.recorder.activityBuffer.advance.slot (-k) = Nat.rec false (fun k _ => w.called k) k := by
    intro k hk
    rw [TimeBuffer.slot_advance (valid hk)]
    cases k with
    | zero => rfl
    | succ k =>
      rw [if_neg (by omega), Nat.cast_succ, neg_add, Int.neg_add_cancel_right]
      exact h.window k (by omega)
  rw [active, hleaves] at hcount
  rw [ActivityWorld.apply, ActivityRecorder.advance, h.access le_rfl, ok_bind]
  cases hcalled : w.called longestLatency with
  | true =>
    rw [hcalled, Bool.toNat_true] at hcount
    rw [if_pos rfl, ensure_of (decide_eq_true (by omega))]
    refine ⟨_, rfl, hwindow, h.stages, ?_⟩
    simp only [active, hstays]
    omega
  | false =>
    rw [hcalled, Bool.toNat_false] at hcount
    refine ⟨_, rfl, hwindow, h.stages, ?_⟩
    simp only [active, hstays]
    omega

theorem Inv.activateStage (idx : Fin numStages) :
    ∃ w', w.apply (.activateStage idx) = .ok w' ∧ w'.Inv := by
  refine ⟨_, rfl, ?_⟩
  cases hactive : w.activated idx with
  | true =>
    have hsame : update w.activated idx true = w.activated := by
      rw [← hactive, Function.update_eq_self]
    simpa [ActivityRecorder.activateStage, h.stages, hactive, hsame] using h
  | false =>
    have hcount := countP_update (nodup_finRange numStages) (mem_finRange idx) w.activated true
    have hold := h.count
    simp only [ActivityRecorder.activateStage, h.stages, hactive, Bool.not_false, if_true]
    refine ⟨h.window, rfl, ?_⟩
    simp only [active, hactive, Bool.toNat_false, Bool.toNat_true] at hcount hold ⊢
    omega

theorem Inv.deactivateStage (idx : Fin numStages) :
    ∃ w', w.apply (.deactivateStage idx) = .ok w' ∧ w'.Inv := by
  have hold := h.count
  rw [ActivityWorld.apply, ActivityRecorder.deactivateStage, h.stages]
  cases hactive : w.activated idx with
  | true =>
    have hcount := countP_update (nodup_finRange numStages) (mem_finRange idx) w.activated false
    simp only [active, hactive, Bool.toNat_false, Bool.toNat_true] at hcount hold
    have hpos : w.recorder.activityCount - 1 ≥ 0 := by omega
    simp only [if_true, ensure_of (decide_eq_true hpos), ok_bind]
    refine ⟨_, rfl, h.window, rfl, ?_⟩
    simp only [active]
    omega
  | false =>
    have hsame : update w.activated idx false = w.activated := by
      rw [← hactive, Function.update_eq_self]
    rw [if_neg Bool.false_ne_true, ensure_of (decide_eq_true (by omega)), hsame]
    exact ⟨w, rfl, h⟩

theorem Inv.apply (e : ActivityEvent numStages) : ∃ w', w.apply e = .ok w' ∧ w'.Inv := by
  cases e with
  | activity => exact h.activity
  | advance => exact h.advance
  | activateStage idx => exact h.activateStage idx
  | deactivateStage idx => exact h.deactivateStage idx
  | reset =>
    refine ⟨_, rfl, fun k hk => ?_, rfl, ?_⟩
    · exact TimeBuffer.slot_iterate_advance (valid hk) _ (by omega)
    · simp [active, ActivityRecorder.reset]

theorem Inv.validate : w.recorder.validate = .ok () := by
  have hwindow : ∀ i ∈ range (longestLatency + 1),
      w.recorder.activityBuffer.access (-i) = .ok (w.called i) :=
    fun i hi => h.access (Nat.le_of_lt_succ (mem_range.mp hi))
  rw [ActivityRecorder.validate, ActivityRecorder.countFlags_eq hwindow, ok_bind, h.stages,
    ActivityRecorder.countFlags_eq fun _ _ => rfl, ok_bind, Nat.zero_add]
  exact ensure_of (decide_eq_true h.count.symm) _

end ActivityWorld

end Gem5
