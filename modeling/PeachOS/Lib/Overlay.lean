import Mathlib.Data.List.Basic

/-!
# Layers over a value

Each layer of a list either covers the value beneath it with one of its own or
lets it show.  What is seen is what the last covering layer has.  Leaving layers
out changes what is seen unless each layer that was left out and is seen has
what was beneath it.
-/

namespace PeachOS
namespace Lib

universe u v

variable {β : Type u} {ε : Type v} (cover : β → Option ε)

/-- What is seen of `e` through the layers, the first one lowest. -/
def overlay (e : ε) (layers : List β) : ε :=
  layers.foldl (fun e layer => (cover layer).getD e) e

variable {cover} {e : ε} {layers front back : List β} {layer : β}

theorem overlay_cons :
    overlay cover e (layer :: layers) = overlay cover ((cover layer).getD e) layers :=
  rfl

theorem overlay_append :
    overlay cover e (front ++ back) = overlay cover (overlay cover e front) back :=
  List.foldl_append

/-- Layers that cover nothing. -/
theorem overlay_of_none
    (h : ∀ layer ∈ layers, cover layer = none) :
    overlay cover e layers = e := by
  induction layers with
  | nil => rfl
  | cons layer layers ih =>
      rw [overlay_cons, h layer List.mem_cons_self, Option.getD_none]
      exact ih fun l hl => h l (List.mem_cons_of_mem layer hl)

/-- The last layer that covers is seen. -/
theorem overlay_of_last
    {e' : ε} (hlayer : cover layer = some e') (hback : ∀ l ∈ back, cover l = none) :
    overlay cover e (front ++ layer :: back) = e' := by
  rw [overlay_append, overlay_cons, hlayer, Option.getD_some, overlay_of_none hback]

/-- No layer covers, or one is the last that does. -/
theorem exists_last_cover
    (cover : β → Option ε) (layers : List β) :
    (∀ layer ∈ layers, cover layer = none) ∨
      ∃ front layer back e', layers = front ++ layer :: back ∧ cover layer = some e' ∧
        ∀ l ∈ back, cover l = none := by
  induction layers with
  | nil => exact Or.inl fun _ h => absurd h List.not_mem_nil
  | cons layer layers ih =>
      rcases ih with hnone | ⟨front, last, back, e', rfl, hlast, hback⟩
      · cases hcover : cover layer with
        | none =>
            refine Or.inl fun l hl => ?_
            rcases List.mem_cons.mp hl with rfl | hl
            · exact hcover
            · exact hnone l hl
        | some e' => exact Or.inr ⟨[], layer, layers, e', rfl, hcover, hnone⟩
      · exact Or.inr ⟨layer :: front, last, back, e', rfl, hlast, hback⟩

/-- What is seen is a given value if and only if the last layer that covers has it, or
the value beneath when none does. -/
theorem overlay_eq_iff
    {e₂ : ε} :
    overlay cover e layers = e₂ ↔
      ((∀ l ∈ layers, cover l = none) → e = e₂) ∧
        ∀ front layer back, layers = front ++ layer :: back → (∀ l ∈ back, cover l = none) →
          ∀ e', cover layer = some e' → e' = e₂ := by
  constructor
  · rintro rfl
    refine ⟨fun hnone => (overlay_of_none hnone).symm, ?_⟩
    rintro front layer back rfl hback e' hlayer
    exact (overlay_of_last hlayer hback).symm
  · rintro ⟨hnone, hlast⟩
    rcases exists_last_cover cover layers with h | ⟨front, layer, back, e', rfl, hlayer, hback⟩
    · rw [overlay_of_none h, hnone h]
    · rw [overlay_of_last hlayer hback]
      exact hlast front layer back rfl hback e' hlayer

/-- Without the layers that fail a test the same is seen if and only if each of
them that no later layer covers has what is seen beneath it. -/
theorem overlay_filter_iff
    {p : β → Bool} :
    overlay cover e layers = overlay cover e (layers.filter p) ↔
      ∀ front layer back, layers = front ++ layer :: back → p layer = false →
        (∀ l ∈ back, cover l = none) → ∀ e', cover layer = some e' →
          e' = overlay cover e (front.filter p) := by
  have hfilter (l : List β) (h : ∀ b ∈ l, cover b = none) :
      ∀ b ∈ l.filter p, cover b = none :=
    fun b hb => h b (List.mem_of_mem_filter hb)
  constructor
  · rintro h front layer back rfl hp hback e' hlayer
    rw [overlay_of_last hlayer hback, List.filter_append, List.filter_cons_of_neg (by simp [hp]),
      overlay_append, overlay_of_none (hfilter back hback)] at h
    exact h
  · intro h
    rcases exists_last_cover cover layers with hnone | ⟨front, layer, back, e', rfl, hlayer, hback⟩
    · rw [overlay_of_none hnone, overlay_of_none (hfilter layers hnone)]
    · rw [overlay_of_last hlayer hback, List.filter_append]
      cases hp : p layer with
      | true =>
          rw [List.filter_cons_of_pos hp, overlay_of_last hlayer (hfilter back hback)]
      | false =>
          rw [List.filter_cons_of_neg (by simp [hp]), overlay_append,
            overlay_of_none (hfilter back hback)]
          exact h front layer back rfl hp hback e' hlayer

end Lib
end PeachOS
