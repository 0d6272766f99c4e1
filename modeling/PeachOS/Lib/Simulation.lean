import Mathlib.Control.Lawful
import Mathlib.Tactic.Common

/-!
# Simulation

A program serves requests one after another: each has an answer and leaves
another state behind.  A specification does the same with states of its own.
When a relation between the states makes the answers equal and is kept by every
request, whole sequences of requests have equal answers.  A guard says which
requests the specification is meant for; when the answers differ at every
request that does not meet it, the sequences of equal answers are exactly those
of guarded requests.

The program may be partial: it runs in a monad, and a simulated request returns.
-/

namespace PeachOS
namespace Lib

variable {σ τ ω α : Type}

/-- The answers to a list of requests, and the state behind them. -/
def serve (step : σ → ω → α × σ) : σ → List ω → List α × σ
  | s, [] => ([], s)
  | s, o :: os =>
      ((step s o).1 :: (serve step (step s o).2 os).1, (serve step (step s o).2 os).2)

/-- Every request meets the guard when it comes. -/
def Admitted (guard : σ → ω → Prop) (step : σ → ω → α × σ) : σ → List ω → Prop
  | _, [] => True
  | s, o :: os => guard s o ∧ Admitted guard step (step s o).2 os

section Rules

variable {guard guard' : σ → ω → Prop} {step : σ → ω → α × σ}

theorem Admitted.and
    {s : σ} {os : List ω} (hos : Admitted guard step s os) (hos' : Admitted guard' step s os) :
    Admitted (fun s o => guard s o ∧ guard' s o) step s os := by
  induction os generalizing s with
  | nil => trivial
  | cons o os ih => exact ⟨⟨hos.1, hos'.1⟩, ih hos.2 hos'.2⟩

theorem admitted_of_forall
    {os : List ω} (h : ∀ s, ∀ o ∈ os, guard s o) (s : σ) :
    Admitted guard step s os := by
  induction os generalizing s with
  | nil => trivial
  | cons o os ih =>
      exact ⟨h s o List.mem_cons_self, ih (fun s o' ho' => h s o' (List.mem_cons_of_mem o ho')) _⟩

/-- Requests that leave the state alone. -/
theorem serve_of_const
    {s : σ} (h : ∀ o, (step s o).2 = s) (os : List ω) :
    serve step s os = (os.map fun o => (step s o).1, s) := by
  induction os with
  | nil => rfl
  | cons o os ih => rw [serve, h, ih, List.map_cons]

end Rules

section Partial

variable {m : Type → Type} [Monad m]

def serveM (step : σ → ω → m (α × σ)) : σ → List ω → m (List α × σ)
  | s, [] => pure ([], s)
  | s, o :: os => do
      let (a, s) ← step s o
      let (as, s) ← serveM step s os
      pure (a :: as, s)

/-- A guarded request returns the answer of the specification, and the states
are related behind it. -/
def Simulates (R : σ → τ → Prop) (guard : τ → ω → Prop)
    (step : σ → ω → m (α × σ)) (spec : τ → ω → α × τ) : Prop :=
  ∀ s t o, R s t → guard t o →
    ∃ s', step s o = pure ((spec t o).1, s') ∧ R s' (spec t o).2

/-- The simulation of a request is one of all sequences of them. -/
theorem Simulates.serve
    [LawfulMonad m] {R : σ → τ → Prop} {guard : τ → ω → Prop}
    {step : σ → ω → m (α × σ)} {spec : τ → ω → α × τ}
    (h : Simulates R guard step spec) {s : σ} {t : τ} {os : List ω}
    (hR : R s t) (hos : Admitted guard spec t os) :
    ∃ s', serveM step s os = pure ((Lib.serve spec t os).1, s') ∧
      R s' (Lib.serve spec t os).2 := by
  induction os generalizing s t with
  | nil => exact ⟨s, rfl, hR⟩
  | cons o os ih =>
      obtain ⟨s₁, hstep, hR₁⟩ := h s t o hR hos.1
      obtain ⟨s', hserve, hR'⟩ := ih hR₁ hos.2
      refine ⟨s', ?_, hR'⟩
      rw [serveM, hstep, pure_bind]
      simp only [hserve, pure_bind]
      rfl

/-- A program with fuel: each guarded request is answered with enough of it, and
so is a sequence of them. -/
theorem serve_of_enough
    [LawfulMonad m] {R : σ → τ → Prop} {guard : τ → ω → Prop}
    {step : Nat → σ → ω → m (α × σ)} {spec : τ → ω → α × τ}
    (h : ∀ s t o, R s t → guard t o → ∃ n s', R s' (spec t o).2 ∧
      ∀ fuel, n ≤ fuel → step fuel s o = pure ((spec t o).1, s'))
    {s : σ} {t : τ} {os : List ω} (hR : R s t) (hos : Admitted guard spec t os) :
    ∃ n s', R s' (serve spec t os).2 ∧
      ∀ fuel, n ≤ fuel → serveM (step fuel) s os = pure ((serve spec t os).1, s') := by
  induction os generalizing s t with
  | nil => exact ⟨0, s, hR, fun _ _ => rfl⟩
  | cons o os ih =>
      obtain ⟨n₁, s₁, hR₁, hstep⟩ := h s t o hR hos.1
      obtain ⟨n₂, s', hR', hserve⟩ := ih hR₁ hos.2
      refine ⟨max n₁ n₂, s', hR', fun fuel hfuel => ?_⟩
      rw [serveM, hstep fuel (Nat.le_trans (Nat.le_max_left n₁ n₂) hfuel), pure_bind]
      simp only [hserve fuel (Nat.le_trans (Nat.le_max_right n₁ n₂) hfuel), pure_bind]
      rfl

/-- A program that returns for guarded requests only, with the answer of the
specification, has served guarded requests when it returns. -/
theorem admitted_of_serveM
    {R : σ → τ → Prop} {guard valid : τ → ω → Prop} {step : σ → ω → Option (α × σ)}
    {spec : τ → ω → α × τ}
    (h : ∀ s t o r, R s t → valid t o → step s o = some r →
      guard t o ∧ r.1 = (spec t o).1 ∧ R r.2 (spec t o).2)
    {s : σ} {t : τ} {os : List ω} {r : List α × σ} (hR : R s t) (hvalid : Admitted valid spec t os)
    (hserve : serveM step s os = some r) :
    Admitted guard spec t os ∧ r.1 = (serve spec t os).1 := by
  induction os generalizing s t r with
  | nil =>
      cases hserve
      exact ⟨trivial, rfl⟩
  | cons o os ih =>
      rw [serveM] at hserve
      obtain ⟨first, hfirst, hserve⟩ := Option.bind_eq_some_iff.mp hserve
      obtain ⟨rest, hrest, hserve⟩ := Option.bind_eq_some_iff.mp hserve
      obtain ⟨hguard, hanswer, hR'⟩ := h s t o first hR hvalid.1 hfirst
      obtain ⟨hadmitted, hanswers⟩ := ih hR' hvalid.2 hrest
      obtain rfl := Option.some.inj hserve
      exact ⟨⟨hguard, hadmitted⟩, congrArg₂ List.cons hanswer hanswers⟩

end Partial

section Total

variable {R : σ → τ → Prop} {guard valid : τ → ω → Prop}
  {step : σ → ω → α × σ} {spec : τ → ω → α × τ}

/-- Equal answers to every guarded request make equal answers to sequences of
them. -/
theorem serve_simulates
    (hstep : ∀ s t o, R s t → guard t o → (step s o).1 = (spec t o).1 ∧ R (step s o).2 (spec t o).2)
    {s : σ} {t : τ} {os : List ω} (hR : R s t) (hos : Admitted guard spec t os) :
    (serve step s os).1 = (serve spec t os).1 ∧ R (serve step s os).2 (serve spec t os).2 := by
  induction os generalizing s t with
  | nil => exact ⟨rfl, hR⟩
  | cons o os ih =>
      obtain ⟨hanswer, hR₁⟩ := hstep s t o hR hos.1
      obtain ⟨hanswers, hR'⟩ := ih hR₁ hos.2
      exact ⟨congrArg₂ List.cons hanswer hanswers, hR'⟩

/-- When a request that does not meet the guard is answered differently, the
answers to a sequence are the same exactly when all its requests meet it. -/
theorem serve_eq_iff_admitted
    (hstep : ∀ s t o, R s t → valid t o → guard t o →
      (step s o).1 = (spec t o).1 ∧ R (step s o).2 (spec t o).2)
    (hdiffer : ∀ s t o, R s t → valid t o → ¬ guard t o → (step s o).1 ≠ (spec t o).1)
    {s : σ} {t : τ} {os : List ω} (hR : R s t) (hvalid : Admitted valid spec t os) :
    (serve step s os).1 = (serve spec t os).1 ↔ Admitted guard spec t os := by
  induction os generalizing s t with
  | nil => exact iff_of_true rfl trivial
  | cons o os ih =>
      by_cases hguard : guard t o
      · obtain ⟨hanswer, hR'⟩ := hstep s t o hR hvalid.1 hguard
        simp only [serve, Admitted, hguard, true_and, hanswer, List.cons.injEq]
        exact ih hR' hvalid.2
      · have hne := hdiffer s t o hR hvalid.1 hguard
        simp only [serve, Admitted, hguard, false_and, hne, List.cons.injEq]

end Total

end Lib
end PeachOS
