import Mathlib.Data.List.Basic

/-!
# Runs of a labelled step relation

A system is a relation `step s o s'` between a state, an operation and the
state after it.  `Run` chains the steps of a list of operations, and the two
rules below are the inductions that every invariant of a run goes through: an
invariant of one step is an invariant of the run, and a guard that every step
of a run meets may be used in that step.
-/

namespace PeachOS
namespace Lib

universe u v

variable {σ : Type u} {ω : Type v}

/-- The run of a list of operations, one step for each. -/
inductive Run (step : σ → ω → σ → Prop) : σ → List ω → σ → Prop
  | nil (s : σ) : Run step s [] s
  | cons {s t u : σ} {o : ω} {os : List ω}
      (first : step s o t) (rest : Run step t os u) : Run step s (o :: os) u

/-- A step relation restricted to the steps that meet a guard. -/
def Guarded (guard : σ → ω → Prop) (step : σ → ω → σ → Prop) :
    σ → ω → σ → Prop :=
  fun s o t => guard s o ∧ step s o t

variable {step step' : σ → ω → σ → Prop}

/-- What every step preserves, every run preserves. -/
theorem Run.invariant
    (Inv : σ → Prop)
    (hstep : ∀ s o t, Inv s → step s o t → Inv t)
    {s t : σ} {os : List ω}
    (hrun : Run step s os t)
    (hs : Inv s) :
    Inv t := by
  induction hrun with
  | nil s => exact hs
  | cons first _ ih => exact ih (hstep _ _ _ hs first)

theorem Run.append
    {s t u : σ} {os os' : List ω}
    (hrun : Run step s os t) (hrest : Run step t os' u) :
    Run step s (os ++ os') u := by
  induction hrun with
  | nil s => exact hrest
  | cons first _ ih => exact .cons first (ih hrest)

/-- A run of fewer steps is one of more. -/
theorem Run.mono
    (hstep : ∀ s o t, step s o t → step' s o t)
    {s t : σ} {os : List ω}
    (hrun : Run step s os t) :
    Run step' s os t := by
  induction hrun with
  | nil s => exact .nil s
  | cons first _ ih => exact .cons (hstep _ _ _ first) ih

section Apply

variable {ε : Type*} {apply : σ → ω → Except ε σ}

/-- The state after an operation that returns. -/
def after (apply : σ → ω → Except ε σ) (s : σ) (o : ω) : σ :=
  match apply s o with
  | .ok t => t
  | .error _ => s

theorem apply_after
    {s : σ} {o : ω}
    (h : (apply s o).isOk = true) :
    apply s o = .ok (after apply s o) := by
  rw [after]
  cases heq : apply s o with
  | ok t => rfl
  | error e =>
      rw [heq] at h
      cases h

end Apply

end Lib
end PeachOS
