import Mathlib.Tactic

/-!
# Checked computations

A program that can stop at an assertion is a function into `Chk`. The lemmas
here read a successful computation as the facts its checks established, so
that later proofs peel a computation apart without unfolding the monad.
-/

namespace Lib

/-- Why a run stopped: a failed assertion (with the asserted text), a call of
one of the two abort routines (with its message), behaviour the language
leaves undefined, or a loop that used up the bound it was given. -/
inductive Fault
  | assertion (text : String)
  | panic (message : String)
  | fatal (message : String)
  | undefined (what : String)
  | fuel
  deriving DecidableEq, Repr

abbrev Chk := Except Fault

def ensure (b : Bool) (text : String) : Chk Unit :=
  if b then .ok () else .error (.assertion text)

def refuse (b : Bool) (f : Fault) : Chk Unit :=
  if b then .error f else .ok ()

def need (o : Option α) (f : Fault) : Chk α :=
  match o with
  | some a => .ok a
  | none => .error f

instance decidableEqError {x : Except ε α} {e : ε} [DecidableEq ε] : Decidable (x = .error e) :=
  match x with
  | .ok _ => .isFalse nofun
  | .error e' => decidable_of_iff (e' = e) (by simp)

theorem bind_eq_ok {x : Except ε α} {f : α → Except ε β} {b : β} :
    (x >>= f) = .ok b ↔ ∃ a, x = .ok a ∧ f a = .ok b := by
  constructor
  · intro h
    cases x with
    | error e => nomatch h
    | ok a => exact ⟨a, rfl, h⟩
  · rintro ⟨a, rfl, h⟩
    exact h

theorem of_guard {x : Except ε Unit} {f : Unit → Except ε β} (h : (x >>= f) = .ok b) :
    f () = .ok b := by
  obtain ⟨_, -, h⟩ := bind_eq_ok.mp h
  exact h

theorem of_returns {x : Except ε α} {P : α → Prop} (h : ∃ b, x = .ok b ∧ P b)
    (hx : x = .ok a) : P a := by
  obtain ⟨b, rfl, hb⟩ := h
  exact Except.ok.inj hx ▸ hb

theorem pure_eq_ok : (pure a : Except ε α) = .ok b ↔ a = b :=
  Except.ok.injEq a b ▸ Iff.rfl

theorem ensure_eq_ok : ensure b text = .ok u ↔ b = true := by
  cases b with
  | false => simp [ensure]
  | true => simp [ensure]

theorem need_eq_ok : need o f = .ok a ↔ o = some a := by
  cases o with
  | none => simp [need]
  | some b => simp [need]

@[simp] theorem ok_bind (a : α) (f : α → Except ε β) : (Except.ok a >>= f) = f a := rfl

@[simp] theorem pure_def (a : α) : (pure a : Except ε α) = .ok a := rfl

@[simp] theorem error_bind (e : ε) (f : α → Except ε β) :
    (Except.error e >>= f) = .error e := rfl

@[simp] theorem ensure_true (text : String) : ensure true text = .ok () := rfl

theorem ok_of_isSome {x : Except ε α} (h : x.toOption.isSome = true) : ∃ a, x = .ok a := by
  cases x with
  | error e => nomatch h
  | ok a => exact ⟨a, rfl⟩

theorem ok_of_any_bind {x : Except ε α} {f : α → Except ε β} {p : β → Bool}
    (h : (x >>= f).toOption.any p = true) : ∃ a, x = .ok a ∧ (f a).toOption.any p = true := by
  cases x with
  | error e => nomatch h
  | ok a => exact ⟨a, rfl, h⟩

/-- What a computation returns meets `P`, and how it fails meets `E`. -/
def Meets (P : α → Prop) (E : Fault → Prop) : Chk α → Prop
  | .ok a => P a
  | .error e => E e

namespace Meets

variable {α β : Type u} {x : Chk α} {f : α → Chk β} {P P' : α → Prop} {Q : β → Prop} {E : Fault → Prop}

theorem ok (h : P a) : Meets P E (.ok a) := h

theorem pure (h : P a) : Meets P E (pure a) := h

theorem bind (hx : Meets P E x) (hf : ∀ a, P a → Meets Q E (f a)) : Meets Q E (x >>= f) := by
  cases x with
  | error e => exact hx
  | ok a => exact hf a hx

theorem mono (hx : Meets P E x) (h : ∀ a, P a → P' a) : Meets P' E x := by
  cases x with
  | error e => exact hx
  | ok a => exact h a hx

theorem imp (hx : Meets P E x) (h : ∀ a, P a → P' a) (hE : ∀ e, E e → E' e) : Meets P' E' x := by
  cases x with
  | error e => exact hE e hx
  | ok a => exact h a hx

theorem ensure (hE : E (.assertion text)) :
    Meets (fun _ => b = true) E (Lib.ensure b text) := by
  cases b with
  | false => exact hE
  | true => exact rfl

theorem need (hE : E e) : Meets (fun a => o = some a) E (Lib.need o e) := by
  cases o with
  | none => exact hE
  | some a => exact rfl

theorem result (hx : Meets P E x) (h : x = .ok a) : P a := by
  subst h
  exact hx

theorem fault (hx : Meets P E x) (h : x = .error e) : E e := by
  subst h
  exact hx

theorem any : Meets (fun _ => True) (fun _ => True) x := by
  cases x <;> exact trivial

theorem ite {b : Prop} [Decidable b] (hx : b → Meets P E x) (hy : ¬ b → Meets P E y) :
    Meets P E (if b then x else y) := by
  split
  · exact hx ‹_›
  · exact hy ‹_›

theorem and (hx : Meets P E x) (h : ∀ a, x = .ok a → P' a) : Meets (fun a => P a ∧ P' a) E x := by
  cases x with
  | error e => exact hx
  | ok a => exact ⟨hx, h a rfl⟩

theorem exists_ok (hx : Meets P (fun _ => False) x) : ∃ a, x = .ok a ∧ P a := by
  cases x with
  | error e => exact hx.elim
  | ok a => exact ⟨a, rfl, hx⟩

end Meets

theorem ensure_of (h : b = true) (text : String) : ensure b text = .ok () := by
  rw [h, ensure_true]

end Lib
