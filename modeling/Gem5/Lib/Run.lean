import Gem5.Lib.Check

/-!
# Runs of a step relation

A system is a relation between a state, an action and the state after it. A
run is a list of actions taken one after the other; what every step preserves,
every run preserves.
-/

namespace Lib

inductive Runs (step : σ → α → σ → Prop) : σ → List α → σ → Prop
  | nil : Runs step s [] s
  | snoc : Runs step s as t → step t a u → Runs step s (as ++ [a]) u

namespace Runs

variable {σ α : Type*} {step step' : σ → α → σ → Prop} {s t u : σ} {a : α} {as bs : List α}

theorem invariant {P : σ → Prop} (h : Runs step s as t) (hs : P s)
    (hstep : ∀ t a u, P t → step t a u → P u) : P t := by
  induction h with
  | nil => exact hs
  | snoc _ hu ih => exact hstep _ _ _ ih hu

theorem mono (h : Runs step s as t) (hstep : ∀ t a u, step t a u → step' t a u) :
    Runs step' s as t := by
  induction h with
  | nil => exact .nil
  | snoc _ hu ih => exact .snoc ih (hstep _ _ _ hu)

/-- Forward simulation: what is related at the start stays related, action by
action. -/
theorem simulate {τ : Type*} {spec : τ → α → τ → Prop} {R : σ → τ → Prop} {p : τ}
    (h : Runs step s as t) (hs : R s p)
    (hstep : ∀ t a u p, R t p → step t a u → ∃ q, spec p a q ∧ R u q) :
    ∃ q, Runs spec p as q ∧ R t q := by
  induction h with
  | nil => exact ⟨p, .nil, hs⟩
  | snoc _ hu ih =>
    obtain ⟨q, hq, hR⟩ := ih
    obtain ⟨q', hstep, hR'⟩ := hstep _ _ _ q hR hu
    exact ⟨q', .snoc hq hstep, hR'⟩

theorem eq_of_nil (h : Runs step s [] t) : t = s := by
  generalize hnil : ([] : List α) = as at h
  cases h with
  | nil => rfl
  | snoc => simp at hnil

theorem single (h : step s a t) : Runs step s [a] t :=
  snoc nil h

theorem append (h : Runs step s as t) (h' : Runs step t bs u) : Runs step s (as ++ bs) u := by
  induction h' with
  | nil => simpa using h
  | snoc _ hu ih => rw [← List.append_assoc]; exact .snoc ih hu

theorem last (h : Runs step s (as ++ [a]) u) : ∃ t, Runs step s as t ∧ step t a u := by
  generalize hbs : as ++ [a] = bs at h
  cases h with
  | nil => simp at hbs
  | snoc h hu =>
    obtain ⟨rfl, hlast⟩ := List.append_inj' hbs rfl
    cases hlast
    exact ⟨_, h, hu⟩

theorem split (h : Runs step s (as ++ bs) u) : ∃ t, Runs step s as t ∧ Runs step t bs u := by
  induction bs using List.reverseRecOn generalizing u with
  | nil => exact ⟨u, by simpa using h, .nil⟩
  | append_singleton bs b ih =>
    rw [← List.append_assoc] at h
    obtain ⟨v, hv, hu⟩ := h.last
    obtain ⟨t, ht, hv⟩ := ih hv
    exact ⟨t, ht, hv.snoc hu⟩

theorem step_of_single (h : Runs step s [a] t) : step s a t := by
  rw [← List.nil_append [a]] at h
  obtain ⟨s', hs, ht⟩ := h.last
  exact hs.eq_of_nil ▸ ht

theorem head (h : Runs step s (a :: as) u) : ∃ t, step s a t ∧ Runs step t as u := by
  rw [← List.singleton_append] at h
  obtain ⟨t, ht, hu⟩ := h.split
  exact ⟨t, ht.step_of_single, hu⟩

theorem potential {P : σ → Prop} {potential : σ → Nat} {rise drop : α → Nat}
    (h : Runs step s as t) (hs : P s) (hstep : ∀ t a u, P t → step t a u → P u ∧
      potential u + drop a ≤ potential t + rise a) :
    P t ∧ potential t + (as.map drop).sum ≤ potential s + (as.map rise).sum := by
  induction h with
  | nil => exact ⟨hs, by simp⟩
  | snoc _ hu ih =>
    obtain ⟨hP, hle⟩ := ih
    obtain ⟨hP', hle'⟩ := hstep _ _ _ hP hu
    refine ⟨hP', ?_⟩
    simp only [List.map_append, List.map_singleton, List.sum_append, List.sum_singleton]
    omega

end Runs

section Play

variable {σ α : Type*} (admits : σ → α → Prop) [∀ s a, Decidable (admits s a)] (apply : σ → α → Chk σ)

def play (s : σ) : List α → Chk σ
  | [] => .ok s
  | a :: as => if admits s a then apply s a >>= fun s => play s as else .error (.undefined "action")

theorem runs_of_play_eq {s t : σ} {as : List α} (h : play admits apply s as = .ok t) :
    Runs (fun s a t => admits s a ∧ apply s a = .ok t) s as t := by
  induction as generalizing s with
  | nil =>
    cases h
    exact .nil
  | cons a as ih =>
    rw [play] at h
    split at h
    · rename_i hadmits
      obtain ⟨s', hs, ht⟩ := bind_eq_ok.mp h
      exact Runs.append (.single ⟨hadmits, hs⟩) (ih ht)
    · cases h

theorem runs_of_play [DecidablePred P]
    (h : (play admits apply s as).toOption.any (P ·) = true) :
    ∃ t, Runs (fun s a t => admits s a ∧ apply s a = .ok t) s as t ∧ P t := by
  cases hplay : play admits apply s as with
  | error e => simp [hplay, Except.toOption] at h
  | ok t =>
    rw [hplay] at h
    exact ⟨t, runs_of_play_eq admits apply hplay, of_decide_eq_true h⟩

theorem runs_of_play_and {s : σ} {as : List α} {P Q : σ → Prop} [DecidablePred P]
    (h : (play admits apply s as).toOption.any (P ·) = true)
    (hruns : ∀ t, Runs (fun s a t => admits s a ∧ apply s a = .ok t) s as t → Q t) :
    ∃ t, Runs (fun s a t => admits s a ∧ apply s a = .ok t) s as t ∧ P t ∧ Q t := by
  obtain ⟨t, hrun, hP⟩ := runs_of_play admits apply h
  exact ⟨t, hrun, hP, hruns t hrun⟩

theorem runs_of_play_under (cond : σ → α → Prop) [∀ s a, Decidable (cond s a)] {s : σ}
    {as : List α} {P Q : σ → Prop} [DecidablePred P]
    (h : (play (fun s a => admits s a ∧ cond s a) apply s as).toOption.any (P ·) = true)
    (hruns : ∀ t, Runs (fun s a t => (admits s a ∧ apply s a = .ok t) ∧ cond s a) s as t → Q t) :
    ∃ t, Runs (fun s a t => (admits s a ∧ apply s a = .ok t) ∧ cond s a) s as t ∧ P t ∧ Q t := by
  obtain ⟨t, hrun, hP⟩ := runs_of_play (fun s a => admits s a ∧ cond s a) apply h
  have hmet : Runs (fun s a t => (admits s a ∧ apply s a = .ok t) ∧ cond s a) s as t :=
    hrun.mono fun _ _ _ hs => ⟨⟨hs.1.1, hs.2⟩, hs.1.2⟩
  exact ⟨t, hmet, hP, hruns t hmet⟩

end Play

end Lib
