import Mathlib.Order.Minimal

/-!
# Loops that keep a candidate

A loop over a list that holds one of its elements at a time and goes over to
the next only when that has no greater key ends with an element of least key.
What the state records of the element it holds is a relation of the user's.
-/

namespace PeachOS
namespace Lib

section Candidate

variable {α σ κ : Type*} [LinearOrder κ] {key : α → κ}

/-- An element that is no greater than the least of a list is the least with it. -/
theorem minimalFor_cons_of_le
    {x y : α} {l : List α}
    (h : MinimalFor (· ∈ l) key x) (hxy : key x ≤ key y) :
    MinimalFor (· ∈ y :: l) key x := by
  refine ⟨List.mem_cons_of_mem _ h.prop, ?_⟩
  intro z hz _
  rcases List.mem_cons.mp hz with rfl | hz
  · exact hxy
  · exact h.le hz

theorem minimalFor_singleton
    (x : α) :
    MinimalFor (· ∈ [x]) key x := by
  refine ⟨List.mem_singleton_self x, ?_⟩
  intro z hz _
  rw [List.mem_singleton.mp hz]

variable (key) (Holds : σ → α → Prop) {f : σ → α → σ}

/-- A loop that holds `x` before the elements of `l`. -/
theorem foldl_holds_least
    {l : List α}
    (hstep : ∀ s x, ∀ y ∈ l, Holds s x →
      key y ≤ key x ∧ Holds (f s y) y ∨ key x ≤ key y ∧ Holds (f s y) x)
    {s : σ} {x : α} (hs : Holds s x) :
    ∃ b, MinimalFor (· ∈ x :: l) key b ∧ Holds (l.foldl f s) b := by
  induction l generalizing s x with
  | nil => exact ⟨x, minimalFor_singleton x, hs⟩
  | cons y l ih =>
      have hrest := fun s x z hz => hstep s x z (List.mem_cons_of_mem y hz)
      rw [List.foldl_cons]
      rcases hstep s x y List.mem_cons_self hs with ⟨hle, hy⟩ | ⟨hle, hx⟩
      · obtain ⟨b, hb, hheld⟩ := ih hrest hy
        exact ⟨b, minimalFor_cons_of_le hb ((hb.le List.mem_cons_self).trans hle), hheld⟩
      · obtain ⟨b, hb, hheld⟩ := ih hrest hx
        refine ⟨b, ?_, hheld⟩
        have hbx := hb.le List.mem_cons_self
        refine ⟨?_, ?_⟩
        · rcases List.mem_cons.mp hb.prop with rfl | hmem
          · exact List.mem_cons_self
          · exact List.mem_cons_of_mem _ (List.mem_cons_of_mem _ hmem)
        · intro z hz _
          rcases List.mem_cons.mp hz with rfl | hz
          · exact hbx
          · rcases List.mem_cons.mp hz with rfl | hz
            · exact hbx.trans hle
            · exact hb.le (List.mem_cons_of_mem _ hz)

/-- A loop that holds nothing before it starts, and takes the first element. -/
theorem foldl_unset_least
    (Unset : σ → Prop) {l : List α}
    (hfirst : ∀ s, ∀ y ∈ l, Unset s → Holds (f s y) y)
    (hstep : ∀ s x, ∀ y ∈ l, Holds s x →
      key y ≤ key x ∧ Holds (f s y) y ∨ key x ≤ key y ∧ Holds (f s y) x)
    {s : σ} (hs : Unset s) (hl : l ≠ []) :
    ∃ b, MinimalFor (· ∈ l) key b ∧ Holds (l.foldl f s) b := by
  cases l with
  | nil => exact absurd rfl hl
  | cons x l =>
      exact foldl_holds_least key Holds (fun s y z hz => hstep s y z (List.mem_cons_of_mem x hz))
        (hfirst s x List.mem_cons_self hs)

/-- Least elements that are also greatest have the key of all others. -/
theorem maximalFor_iff_of_minimalFor
    {key : α → κ} {P : α → Prop} {b : α} (hb : MinimalFor P key b) :
    MaximalFor P key b ↔ ∀ x y, P x → P y → key x = key y := by
  constructor
  · intro hmax x y hx hy
    have hsame : ∀ z, P z → key z = key b := fun z hz =>
      le_antisymm (hmax.le hz) (hb.le hz)
    rw [hsame x hx, hsame y hy]
  · intro h
    exact ⟨hb.prop, fun z hz _ => (h z b hz hb.prop).le⟩

end Candidate

end Lib
end PeachOS
