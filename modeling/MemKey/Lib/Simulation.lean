import Mathlib.Data.Set.Basic
import MemKey.Lib.Outcome
import MemKey.Lib.Runs

/-! Machines with outputs and their specifications. A specification says of each input which state it leads to and which
    outputs it allows, or that the machine may fail there. A machine that simulates a specification step by step gives
    only outputs of the specification in all of its runs, and fails only where the specification lets it. -/

namespace Simulation
open Outcome

variable {σ τ ι ο ε : Type} {step : σ → ι → Except ε (σ × ο)} {spec : τ → ι → Option (τ × Set ο)} {R : σ → τ → Prop}
  {P : σ → ι → Prop} {E : ε → Prop} {s s' : σ} {t t' t'' : τ} {i : ι} {is js : List ι} {o : ο} {os ps : List ο}

/-- The inputs one after another, with the output of each. -/
def run (step : σ → ι → Except ε (σ × ο)) (s : σ) : List ι → Except ε (σ × List ο)
  | [] => .ok (s, [])
  | i :: is => do
    let (s, o) ← step s i
    let (s, os) ← run step s is
    .ok (s, o :: os)

/-- The states alone. -/
def next (step : σ → ι → Except ε (σ × ο)) (s : σ) (i : ι) : Except ε σ := do .ok (← step s i).1

/-- The outputs that the specification allows for the inputs, and the state that it then is in. -/
inductive Plays (spec : τ → ι → Option (τ × Set ο)) : τ → List ι → τ → List ο → Prop
  | nil {t : τ} : Plays spec t [] t []
  | cons {t t' t'' : τ} {i : ι} {is : List ι} {O : Set ο} {o : ο} {os : List ο} (h : spec t i = some (t', O)) (ho : o ∈ O)
      (hs : Plays spec t' is t'' os) : Plays spec t (i :: is) t'' (o :: os)

/-- The specification lets the machine fail at one of the inputs. -/
def MayFail (spec : τ → ι → Option (τ × Set ο)) (t : τ) (is : List ι) : Prop :=
  ∃ pre i post t' os, is = pre ++ i :: post ∧ Plays spec t pre t' os ∧ spec t' i = none

/-- A step of the machine from related states is one of the specification, for inputs that meet `P`; errors in `E` are
    not specified. -/
def Simulates (step : σ → ι → Except ε (σ × ο)) (spec : τ → ι → Option (τ × Set ο)) (R : σ → τ → Prop) (P : σ → ι → Prop)
    (E : ε → Prop) : Prop :=
  ∀ s t i, R s t → P s i → Ensures (step s i) (fun r => ∃ t' O, spec t i = some (t', O) ∧ R r.1 t' ∧ r.2 ∈ O)
    fun e => E e ∨ spec t i = none

theorem next_eq_ok {r : σ × ο} (h : step s i = .ok r) : next step s i = .ok r.1 := by
  rw [next, h]
  rfl

theorem MayFail.cons {O : Set ο} (h : spec t i = some (t', O)) (ho : o ∈ O) (hf : MayFail spec t' is) :
    MayFail spec t (i :: is) := by
  obtain ⟨pre, j, post, t'', os, rfl, hplays, hnone⟩ := hf
  exact ⟨i :: pre, j, post, t'', o :: os, rfl, .cons h ho hplays, hnone⟩

/-- A run of the machine is a play of the specification. -/
theorem Simulates.run_spec (h : Simulates step spec R P E) (hR : R s t) (hP : Runs.Along (next step) P s is) :
    Ensures (run step s is) (fun r => ∃ t', Plays spec t is t' r.2 ∧ R r.1 t') fun e => E e ∨ MayFail spec t is := by
  induction is generalizing s t with
  | nil => exact ⟨t, .nil, hR⟩
  | cons i is ih =>
    have hstep := h s t i hR hP.1
    unfold run
    cases hrun : step s i with
    | error e =>
      refine (hstep.of_error hrun).imp_right fun hnone => ?_
      exact ⟨[], i, is, t, [], rfl, .nil, hnone⟩
    | ok r =>
      obtain ⟨t', O, hspec, hR', ho⟩ := hstep.of_ok hrun
      rw [ok_bind]
      have hrest := (ih hR' (hP.2 r.1 (next_eq_ok hrun))).mono (fun _ => id) fun _ he =>
        he.imp_right (MayFail.cons hspec ho)
      refine hrest.bind fun _ _ hplays => ?_
      obtain ⟨t'', hplays, hR''⟩ := hplays
      exact ⟨t'', .cons hspec ho hplays, hR''⟩

theorem Plays.append (h : Plays spec t is t' os) (h' : Plays spec t' js t'' ps) :
    Plays spec t (is ++ js) t'' (os ++ ps) := by
  induction h with
  | nil => exact h'
  | cons hspec ho _ ih => exact .cons hspec ho (ih h')

theorem Plays.take (h : Plays spec t is t' os) (n : ℕ) : ∃ t'', Plays spec t (is.take n) t'' (os.take n) := by
  induction h generalizing n with
  | nil => exact ⟨_, by simpa using Plays.nil⟩
  | cons hspec ho _ ih =>
    cases n with
    | zero => exact ⟨_, .nil⟩
    | succ n =>
      obtain ⟨t'', hplays⟩ := ih n
      exact ⟨t'', .cons hspec ho hplays⟩

theorem Plays.length_eq (h : Plays spec t is t' os) : os.length = is.length := by
  induction h with
  | nil => rfl
  | cons _ _ _ ih => rw [List.length_cons, List.length_cons, ih]

end Simulation
