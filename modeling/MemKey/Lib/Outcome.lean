import Mathlib.Data.List.Forall2

/-! Postconditions of computations that may fail: one for the results and one for the errors, with the
    rules by which they compose. -/

namespace Outcome

variable {ε α β : Type}

/-- A result satisfies `Q`, an error satisfies `E`. -/
def Ensures (x : Except ε α) (Q : α → Prop) (E : ε → Prop) : Prop :=
  match x with
  | .ok a => Q a
  | .error e => E e

section Rules
variable {x : Except ε α} {f : α → Except ε β} {Q Q' : α → Prop} {R : β → Prop} {E E' : ε → Prop}

@[simp] theorem ensures_ok {a : α} : Ensures (.ok a : Except ε α) Q E ↔ Q a := Iff.rfl

@[simp] theorem ensures_error {e : ε} : Ensures (.error e : Except ε α) Q E ↔ E e := Iff.rfl

@[simp] theorem ok_bind {a : α} : ((.ok a : Except ε α) >>= f) = f a := rfl

@[simp] theorem error_bind {e : ε} : ((.error e : Except ε α) >>= f) = .error e := rfl

theorem ensures_iff : Ensures x Q E ↔ (∀ a, x = .ok a → Q a) ∧ ∀ e, x = .error e → E e := by
  cases x <;> simp

theorem Ensures.of_ok (h : Ensures x Q E) {a : α} (ha : x = .ok a) : Q a := (ensures_iff.mp h).1 a ha

theorem Ensures.of_error (h : Ensures x Q E) {e : ε} (he : x = .error e) : E e := (ensures_iff.mp h).2 e he

theorem Ensures.mono (h : Ensures x Q E) (hQ : ∀ a, Q a → Q' a) (hE : ∀ e, E e → E' e) : Ensures x Q' E' := by
  cases x with
  | ok a => exact hQ a h
  | error e => exact hE e h

theorem Ensures.post (h : Ensures x Q E) (hQ : ∀ a, Q a → Q' a) : Ensures x Q' E := h.mono hQ fun _ => id

theorem Ensures.result (h : Ensures x Q E) (hQ : ∀ a, x = .ok a → Q' a) : Ensures x Q' E := by
  cases x with
  | ok a => exact hQ a rfl
  | error e => exact h

theorem Ensures.trivial : Ensures x (fun _ => True) (fun _ => True) := by
  cases x <;> exact True.intro

theorem Ensures.bind (h : Ensures x Q E) (hf : ∀ a, x = .ok a → Q a → Ensures (f a) R E) :
    Ensures (x >>= f) R E := by
  cases x with
  | ok a => exact hf a rfl h
  | error e => exact h

theorem Ensures.ite {c : Prop} [Decidable c] {y : Except ε α} (hx : c → Ensures x Q E)
    (hy : ¬c → Ensures y Q E) : Ensures (if c then x else y) Q E := by
  split
  · exact hx ‹_›
  · exact hy ‹_›

theorem bind_congr_left {y : Except ε α} (h : x = y) : (x >>= f) = y >>= f := by rw [h]

theorem map_eq_ok {g : α → β} {b : β} : Except.map g x = .ok b ↔ ∃ a, x = .ok a ∧ g a = b := by
  cases x <;> simp [Except.map]

theorem bind_eq_ok {b : β} : (x >>= f) = .ok b ↔ ∃ a, x = .ok a ∧ f a = .ok b := by
  cases x <;> simp

end Rules

/-! ### Conditions on a result -/

section Decide
variable {P : α → Prop} {Q : α → β → Prop} {p : Prop}

instance decidableOfOk [DecidablePred P] (x : Except ε α) : Decidable (∀ a, x = .ok a → P a) :=
  match x with
  | .ok a => decidable_of_iff (P a) (by simp)
  | .error _ => isTrue (by simp)

instance decidableOk [DecidablePred P] (x : Except ε α) : Decidable (∃ a, x = .ok a ∧ P a) :=
  match x with
  | .ok a => decidable_of_iff (P a) (by simp)
  | .error _ => isFalse (by simp)

instance decidableOfSome [DecidablePred P] (x : Except ε (Option α)) : Decidable (∀ a, x = .ok (some a) → P a) :=
  match x with
  | .ok (some a) => decidable_of_iff (P a) (by simp)
  | .ok none => isTrue (by simp)
  | .error _ => isTrue (by simp)

instance decidableOfFound [∀ a b, Decidable (Q a b)] (x : Except ε (Option (α × β))) :
    Decidable (∀ a b, x = .ok (some (a, b)) → Q a b) :=
  match x with
  | .ok (some (a, b)) => decidable_of_iff (Q a b) (by simp)
  | .ok none => isTrue (by simp)
  | .error _ => isTrue (by simp)

instance decidableFound [∀ a b, Decidable (Q a b)] (x : Except ε (Option (α × β))) :
    Decidable (∃ a b, x = .ok (some (a, b)) ∧ Q a b) :=
  match x with
  | .ok (some (a, b)) => decidable_of_iff (Q a b) (by simp)
  | .ok none => isFalse (by simp)
  | .error _ => isFalse (by simp)

instance decidableFlag {ρ : Type} (x : Except ε (α × Bool × ρ)) : Decidable (∃ a r, x = .ok (a, true, r)) :=
  match x with
  | .ok (_, true, _) => isTrue (by simp)
  | .ok (_, false, _) => isFalse (by simp)
  | .error _ => isFalse (by simp)

instance decidableOfNone [Decidable p] (x : Except ε (Option α)) : Decidable (x = .ok none → p) :=
  match x with
  | .ok none => decidable_of_iff p (by simp)
  | .ok (some _) => isTrue (by simp)
  | .error _ => isTrue (by simp)

end Decide

theorem Ensures.mapM {f : α → Except ε β} {R : α → β → Prop} {E : ε → Prop} {l : List α}
    (h : ∀ a ∈ l, Ensures (f a) (R a) E) :
    Ensures (l.mapM f) (fun bs => List.Forall₂ R l bs) E := by
  induction l with
  | nil => exact List.Forall₂.nil
  | cons a l ih =>
    rw [List.mapM_cons]
    refine (h a (by simp)).bind fun b _ hb => ?_
    exact (ih fun c hc => h c (by simp [hc])).bind fun bs _ hbs => List.Forall₂.cons hb hbs

end Outcome
