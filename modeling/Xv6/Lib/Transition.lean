import Mathlib.Data.Option.Basic

/-!
# Labelled transition systems

A system is a set of initial states and a step relation labelled by events.
This file defines the states it reaches, the invariant rule that proves a
property of all of them, and the execution of a finite trace by a step function
that returns `none` where the system cannot take the event, used to exhibit a
reachable state by computation.
-/

namespace Transition

variable {σ ε : Type*}

/-- The states reached from a state satisfying `init` by steps of `next`. -/
inductive Reachable (init : σ → Prop) (next : σ → ε → σ → Prop) : σ → Prop
  | init {s : σ} : init s → Reachable init next s
  | step {s s' : σ} {e : ε} : Reachable init next s → next s e s' → Reachable init next s'

variable {init : σ → Prop} {next : σ → ε → σ → Prop}

/-- **Invariant rule.**  A property of the initial states that every step keeps,
from a reachable state, holds in every reachable state. -/
theorem Reachable.invariant {I : σ → Prop} (h0 : ∀ s, init s → I s)
    (hstep : ∀ s e s', Reachable init next s → I s → next s e s' → I s') {s : σ}
    (h : Reachable init next s) : I s := by
  induction h with
  | init hs => exact h0 _ hs
  | step hreach hnext ih => exact hstep _ _ _ hreach ih hnext

/-- A state reached from one initial state is reached from the initial states. -/
theorem Reachable.of_eq {s₀ : σ} (h0 : init s₀) {s : σ} (h : Reachable (· = s₀) next s) :
    Reachable init next s := by
  induction h with
  | init hs => exact .init (hs ▸ h0)
  | step _ hnext ih => exact ih.step hnext

/-- Reachability composes: a state reached from a reachable state is reachable. -/
theorem Reachable.trans {s₁ s₂ : σ} (h₁ : Reachable init next s₁) (h₂ : Reachable (· = s₁) next s₂) :
    Reachable init next s₂ := by
  induction h₂ with
  | init hs => exact hs ▸ h₁
  | step _ hnext ih => exact ih.step hnext

/-- Execute a trace with a step function; `none` once an event cannot be taken. -/
def exec (step : σ → ε → Option σ) : σ → List ε → Option σ
  | s, [] => some s
  | s, e :: es => (step s e).bind fun s' => exec step s' es

/-- A trace that a sound step function executes leads from a reachable state to
a reachable state. -/
theorem Reachable.exec {step : σ → ε → Option σ}
    (hsound : ∀ s e s', step s e = some s' → next s e s') :
    ∀ {s s' : σ} {es : List ε}, Reachable init next s → exec step s es = some s' →
      Reachable init next s'
  | s, s', [], hs, h => by
      simp only [Transition.exec, Option.some.injEq] at h
      exact h ▸ hs
  | s, s', e :: es, hs, h => by
      simp only [Transition.exec] at h
      cases hstep : step s e with
      | none => simp [hstep] at h
      | some s₁ =>
          simp only [hstep, Option.bind_some] at h
          exact Reachable.exec hsound (hs.step (hsound _ _ _ hstep)) h

/-- A trace whose last state passes the test `p` exhibits a reachable state
that passes it; a counterexample computes the test once, as a Boolean. -/
theorem Reachable.exists_of_exec {step : σ → ε → Option σ}
    (hsound : ∀ s e s', step s e = some s' → next s e s') {s₀ : σ} {es : List ε}
    {p : σ → Bool} (h : (Transition.exec step s₀ es).map p = some true) :
    ∃ s, Reachable (· = s₀) next s ∧ p s = true := by
  cases hexec : Transition.exec step s₀ es with
  | none => simp [hexec] at h
  | some s =>
    simp only [hexec, Option.map_some, Option.some.injEq] at h
    have hinit : Reachable (· = s₀) next s₀ := .init rfl
    exact ⟨s, hinit.exec hsound hexec, h⟩

/-- The same for a test that is a decidable proposition, as a witness states it. -/
theorem Reachable.exists_of_exec_decide {step : σ → ε → Option σ}
    (hsound : ∀ s e s', step s e = some s' → next s e s') {s₀ : σ} {es : List ε}
    {P : σ → Prop} [DecidablePred P]
    (h : (Transition.exec step s₀ es).map (fun s => decide (P s)) = some true) :
    ∃ s, Reachable (· = s₀) next s ∧ P s := by
  obtain ⟨s, hs, hp⟩ := Reachable.exists_of_exec hsound h
  exact ⟨s, hs, of_decide_eq_true hp⟩

/-- A step function that fails with an error, as one that gives `none` there. -/
def okStep {α : Type*} (step : σ → ε → Option (Except α σ)) (s : σ) (e : ε) : Option σ :=
  match step s e with
  | some (.ok s') => some s'
  | _ => none

theorem okStep_eq_some {α : Type*} {step : σ → ε → Option (Except α σ)} {s s' : σ} {e : ε}
    (h : okStep step s e = some s') : step s e = some (.ok s') := by
  unfold okStep at h
  split at h
  · next s₁ hs =>
    cases h
    exact hs
  · cases h

end Transition
