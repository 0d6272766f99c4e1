import Mathlib.Data.Fintype.Pigeonhole

/-!
# Loops

A round of a loop ends it with a result or goes on from another state.  A loop
terminates when some number of rounds ends it.  A measure that every round
decreases makes it terminate; on a finite type it terminates exactly when no
state comes back.
-/

namespace PeachOS
namespace Lib

universe u v w x

variable {σ : Type u} {α : Type v}

/-- The result of a loop, or where it is after so many rounds. -/
def rounds (round : σ → α ⊕ σ) : Nat → σ → α ⊕ σ
  | 0, s => .inr s
  | n + 1, s =>
      match round s with
      | .inl a => .inl a
      | .inr t => rounds round n t

def Terminates (round : σ → α ⊕ σ) (s : σ) : Prop :=
  ∃ n a, rounds round n s = .inl a

/-- A state comes back. -/
def Repeats (round : σ → α ⊕ σ) (s : σ) : Prop :=
  ∃ i j t, i < j ∧ rounds round i s = .inr t ∧ rounds round j s = .inr t

variable {round : σ → α ⊕ σ} {s t : σ}

theorem rounds_succ_of_inl
    {a : α} (h : round s = .inl a) (n : Nat) :
    rounds round (n + 1) s = .inl a := by
  rw [rounds, h]

theorem rounds_succ_of_inr
    (h : round s = .inr t) (n : Nat) :
    rounds round (n + 1) s = rounds round n t := by
  rw [rounds, h]

/-- Rounds go on from where earlier ones have come to. -/
theorem rounds_add
    {m : Nat} (h : rounds round m s = .inr t) (n : Nat) :
    rounds round (m + n) s = rounds round n t := by
  induction m generalizing s with
  | zero =>
      obtain rfl := Sum.inr.inj h
      rw [Nat.zero_add]
  | succ m ih =>
      rw [Nat.add_right_comm]
      cases hround : round s with
      | inl a =>
          rw [rounds_succ_of_inl hround] at h
          cases h
      | inr u =>
          rw [rounds_succ_of_inr hround] at h ⊢
          exact ih h

/-- A loop that has ended has ended with more rounds as well. -/
theorem rounds_ended
    {m : Nat} {a : α} (h : rounds round m s = .inl a) (n : Nat) :
    rounds round (m + n) s = .inl a := by
  induction m generalizing s with
  | zero => cases h
  | succ m ih =>
      rw [Nat.add_right_comm]
      cases hround : round s with
      | inl b =>
          rw [rounds_succ_of_inl hround] at h ⊢
          exact h
      | inr u =>
          rw [rounds_succ_of_inr hround] at h ⊢
          exact ih h

/-- Loops in related states end with related results, after the same rounds. -/
theorem rounds_related
    {R : σ → σ → Prop} {Q : α → α → Prop}
    (hstep : ∀ s t s', R s t → round s = .inr s' → ∃ t', round t = .inr t' ∧ R s' t')
    (hend : ∀ s t a, R s t → round s = .inl a → ∃ b, round t = .inl b ∧ Q a b)
    {n : Nat} {a : α} (hst : R s t) (h : rounds round n s = .inl a) :
    ∃ b, rounds round n t = .inl b ∧ Q a b := by
  induction n generalizing s t with
  | zero => cases h
  | succ n ih =>
      cases hround : round s with
      | inl b =>
          rw [rounds_succ_of_inl hround] at h
          cases h
          obtain ⟨c, hc, hQ⟩ := hend s t a hst hround
          exact ⟨c, rounds_succ_of_inl hc n, hQ⟩
      | inr s' =>
          rw [rounds_succ_of_inr hround] at h
          obtain ⟨t', ht', hR⟩ := hstep s t s' hst hround
          obtain ⟨c, hc, hQ⟩ := ih hR h
          exact ⟨c, (rounds_succ_of_inr ht' n).trans hc, hQ⟩

theorem terminates_of_inl
    {a : α} (h : round s = .inl a) :
    Terminates round s :=
  ⟨1, a, rounds_succ_of_inl h 0⟩

theorem terminates_of_inr
    (h : round s = .inr t) (ht : Terminates round t) :
    Terminates round s := by
  obtain ⟨n, a, hn⟩ := ht
  exact ⟨n + 1, a, (rounds_succ_of_inr h n).trans hn⟩

/-- A measure that every round decreases ends the loop. -/
theorem terminates_of_measure
    (f : σ → Nat) (h : ∀ s t, round s = .inr t → f t < f s) (s : σ) :
    Terminates round s := by
  induction hn : f s using Nat.strong_induction_on generalizing s with
  | _ n ih =>
      cases hround : round s with
      | inl a => exact terminates_of_inl hround
      | inr t => exact terminates_of_inr hround (ih (f t) (hn ▸ h s t hround) t rfl)

theorem rounds_mul
    {d : Nat} (h : rounds round d t = .inr t) (n : Nat) :
    rounds round (d * n) t = .inr t := by
  induction n with
  | zero => rfl
  | succ n ih => rw [Nat.mul_succ, rounds_add ih, h]

theorem Repeats.not_terminates
    (h : Repeats round s) :
    ¬ Terminates round s := by
  rintro ⟨n, a, hn⟩
  obtain ⟨i, j, t, hij, hi, hj⟩ := h
  obtain ⟨d, rfl⟩ := Nat.exists_eq_add_of_lt hij
  have hback : rounds round (d + 1) t = .inr t := by
    rw [← rounds_add hi, ← Nat.add_assoc, hj]
  have hturns : rounds round (i + (d + 1) * n) s = .inr t := by
    rw [rounds_add hi, rounds_mul hback]
  have hle : n ≤ i + (d + 1) * n := by
    have hmul : n ≤ (d + 1) * n := Nat.le_mul_of_pos_left n (Nat.succ_pos d)
    omega
  obtain ⟨more, hmore⟩ := Nat.exists_eq_add_of_le hle
  rw [hmore, rounds_ended hn] at hturns
  cases hturns

/-- On a finite type a loop terminates exactly when no state comes back. -/
theorem terminates_iff_not_repeats
    [Finite σ] (round : σ → α ⊕ σ) (s : σ) :
    Terminates round s ↔ ¬ Repeats round s := by
  constructor
  · exact fun h hrepeats => hrepeats.not_terminates h
  · intro hrepeats
    by_contra hloops
    have hstates : ∀ n, ∃ t, rounds round n s = .inr t := by
      intro n
      cases hn : rounds round n s with
      | inl a => exact absurd ⟨n, a, hn⟩ hloops
      | inr t => exact ⟨t, rfl⟩
    choose state hstate using hstates
    obtain ⟨i, j, hne, heq⟩ := Finite.exists_ne_map_eq_of_infinite state
    rcases Nat.lt_or_gt_of_ne hne with hlt | hlt
    · exact hrepeats ⟨i, j, state i, hlt, hstate i, heq ▸ hstate j⟩
    · exact hrepeats ⟨j, i, state j, hlt, hstate j, heq ▸ hstate i⟩

/-- A part of the state that decides the rounds decides whether the loop
terminates. -/
theorem terminates_iff_of_map
    {τ : Type w} {β : Type x} {round' : τ → β ⊕ τ} (part : σ → τ) (result : α → β)
    (h : ∀ s, round' (part s) = Sum.map result part (round s)) (s : σ) :
    Terminates round s ↔ Terminates round' (part s) := by
  have hrounds : ∀ n s, rounds round' n (part s) = Sum.map result part (rounds round n s) := by
    intro n
    induction n with
    | zero => exact fun s => rfl
    | succ n ih =>
        intro s
        have hs := h s
        cases hround : round s with
        | inl a =>
            rw [hround] at hs
            rw [rounds_succ_of_inl hround, rounds_succ_of_inl hs]
            rfl
        | inr t =>
            rw [hround] at hs
            rw [rounds_succ_of_inr hround, rounds_succ_of_inr hs, ih]
  constructor
  · rintro ⟨n, a, hn⟩
    exact ⟨n, result a, by rw [hrounds, hn]; rfl⟩
  · rintro ⟨n, b, hn⟩
    rw [hrounds] at hn
    cases hs : rounds round n s with
    | inl a => exact ⟨n, a, hs⟩
    | inr t =>
        rw [hs] at hn
        cases hn

end Lib
end PeachOS
