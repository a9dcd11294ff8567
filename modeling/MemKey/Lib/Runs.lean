/-! Runs of a transition system whose steps may fail: the states they reach, and the induction over them. -/

namespace Runs

variable {σ ι ε : Type} {step : σ → ι → Except ε σ} {init s s' : σ} {P : σ → ι → Prop}

/-- The states that runs from `init` reach by inputs which all meet `P` in the state that they meet. -/
inductive Reached (step : σ → ι → Except ε σ) (init : σ) (P : σ → ι → Prop) : σ → Prop
  | init : Reached step init P init
  | step {s s' : σ} {i : ι} : Reached step init P s → P s i → step s i = .ok s' → Reached step init P s'

/-- What holds initially and is kept by every step holds in every state that a run reaches. -/
theorem Reached.invariant (Inv : σ → Prop) (h : Reached step init P s) (h0 : Inv init)
    (hs : ∀ s i s', Inv s → P s i → step s i = .ok s' → Inv s') : Inv s := by
  induction h with
  | init => exact h0
  | step _ hp hstep ih => exact hs _ _ _ ih hp hstep

/-- The inputs one after another. -/
def run (step : σ → ι → Except ε σ) (s : σ) : List ι → Except ε σ
  | [] => .ok s
  | i :: is =>
    match step s i with
    | .ok s' => run step s' is
    | .error e => .error e

/-- Every input meets `P` in the state that it meets. -/
def Along (step : σ → ι → Except ε σ) (P : σ → ι → Prop) (s : σ) : List ι → Prop
  | [] => True
  | i :: is => P s i ∧ ∀ s', step s i = .ok s' → Along step P s' is

instance decidableAlong [∀ s i, Decidable (P s i)] : (s : σ) → (is : List ι) → Decidable (Along step P s is)
  | _, [] => isTrue trivial
  | s, i :: is =>
    match hstep : step s i with
    | .ok s' =>
      have := decidableAlong s' is
      decidable_of_iff (P s i ∧ Along step P s' is) (by simp [Along, hstep])
    | .error _ => decidable_of_iff (P s i) (by simp [Along, hstep])

theorem along_of_forall (hP : ∀ s i, P s i) (s : σ) (is : List ι) : Along step P s is := by
  induction is generalizing s with
  | nil => trivial
  | cons i is ih => exact ⟨hP s i, fun s' _ => ih s'⟩

/-- A condition that an invariant turns into another one, along a run that keeps the invariant. -/
theorem along_of_invariant {Q : σ → ι → Prop} (Inv : σ → Prop) {is : List ι} (ha : Along step P s is) (h : Inv s)
    (hQ : ∀ s i, Inv s → P s i → Q s i) (hs : ∀ s i s', Inv s → P s i → step s i = .ok s' → Inv s') :
    Along step Q s is := by
  induction is generalizing s with
  | nil => trivial
  | cons i is ih => exact ⟨hQ s i h ha.1, fun s' hstep => ih (ha.2 s' hstep) (hs s i s' h ha.1 hstep)⟩

theorem run_cons_eq_ok {i : ι} {is : List ι} :
    run step s (i :: is) = .ok s' ↔ ∃ s₁, step s i = .ok s₁ ∧ run step s₁ is = .ok s' := by
  rw [run]
  cases step s i <;> simp

theorem along_append {is js : List ι} (his : Along step P s is)
    (hjs : ∀ s', run step s is = .ok s' → Along step P s' js) : Along step P s (is ++ js) := by
  induction is generalizing s with
  | nil => exact hjs s rfl
  | cons i is ih =>
    refine ⟨his.1, fun s₁ hstep => ih (his.2 s₁ hstep) fun s' hrun => hjs s' ?_⟩
    exact run_cons_eq_ok.mpr ⟨s₁, hstep, hrun⟩

theorem run_one {i : ι} : run step s [i] = step s i := by
  rw [run]
  cases step s i <;> rfl

/-- What is kept by every step of a run from one of its inputs, if that meets `P`, holds after it. -/
theorem run_along (Inv : σ → Prop) {is : List ι} (ha : Along step P s is) (hr : run step s is = .ok s') (h : Inv s)
    (hs : ∀ s, ∀ i ∈ is, ∀ s', Inv s → P s i → step s i = .ok s' → Inv s') : Inv s' := by
  induction is generalizing s with
  | nil =>
    cases hr
    exact h
  | cons i is ih =>
    obtain ⟨s₁, hstep, hr⟩ := run_cons_eq_ok.mp hr
    refine ih (ha.2 s₁ hstep) hr (hs s i List.mem_cons_self s₁ h ha.1 hstep) ?_
    exact fun s j hj => hs s j (List.mem_cons_of_mem i hj)

/-- The same when every step keeps it. -/
theorem run_invariant (Inv : σ → Prop) {is : List ι} (hr : run step s is = .ok s') (h : Inv s)
    (hs : ∀ s, ∀ i ∈ is, ∀ s', Inv s → step s i = .ok s' → Inv s') : Inv s' :=
  run_along (P := fun _ _ => True) Inv (along_of_forall (fun _ _ => trivial) s is) hr h
    fun s i hi s' h _ => hs s i hi s' h

/-- A run whose inputs all meet `P` reaches from what is reached. -/
theorem Reached.along (h : Reached step init P s) {is : List ι} (ha : Along step P s is)
    (hr : Runs.run step s is = .ok s') : Reached step init P s' :=
  run_along (Reached step init P) ha hr h fun _ _ _ _ h hp hstep => .step h hp hstep

theorem Reached.run (h : Reached step init P s) (hP : ∀ s i, P s i) {is : List ι}
    (hr : Runs.run step s is = .ok s') : Reached step init P s' :=
  h.along (along_of_forall hP s is) hr

end Runs
