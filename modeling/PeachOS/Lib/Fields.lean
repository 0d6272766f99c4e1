import Mathlib.Data.List.TakeWhile
import Mathlib.Data.List.Forall2

/-!
# The fields of a list

The fields of a list are its maximal parts that no separator is in, in order.  A
list is separators only, or separators, a field and what is behind it; the
induction that follows that is the one that a program goes through which takes a
list apart.
-/

namespace PeachOS
namespace Lib

universe u

variable {α : Type u} {p : α → Bool} {s skip token rest : List α} {d : α}

def fields (p : α → Bool) (s : List α) : List (List α) :=
  (s.splitOnP p).filter (· ≠ [])

theorem fields_append_of_all
    (h : ∀ c ∈ skip, p c = true) (s : List α) :
    fields p (skip ++ s) = fields p s := by
  induction skip with
  | nil => rfl
  | cons c skip ih =>
      rw [fields, List.cons_append, List.splitOnP_cons_eq_if_modifyHead,
        if_pos (h c List.mem_cons_self), List.filter_cons_of_neg (by simp)]
      exact ih fun x hx => h x (List.mem_cons_of_mem c hx)

theorem fields_of_all
    (h : ∀ c ∈ s, p c = true) :
    fields p s = [] := by
  have hfields := fields_append_of_all h []
  rw [List.append_nil] at hfields
  rw [hfields]
  rfl

theorem fields_of_none
    (h : ∀ c ∈ token, p c = false) (hne : token ≠ []) :
    fields p token = [token] := by
  rw [fields, List.splitOnP_eq_singleton h, List.filter_cons_of_pos (by simpa using hne),
    List.filter_nil]

theorem fields_append_cons
    (h : ∀ c ∈ token, p c = false) (hne : token ≠ []) (hd : p d = true) (rest : List α) :
    fields p (token ++ d :: rest) = token :: fields p rest := by
  rw [fields, List.splitOnP_append_cons_of_forall_mem h d hd,
    List.filter_cons_of_pos (by simpa using hne), fields]

/-- A list is taken apart from its start. -/
theorem fields_induction
    (p : α → Bool) {motive : List α → Prop}
    (all : ∀ s, (∀ c ∈ s, p c = true) → motive s)
    (last : ∀ skip token, (∀ c ∈ skip, p c = true) → (∀ c ∈ token, p c = false) →
      token ≠ [] → motive (skip ++ token))
    (more : ∀ skip token d rest, (∀ c ∈ skip, p c = true) → (∀ c ∈ token, p c = false) →
      token ≠ [] → p d = true → motive rest → motive (skip ++ (token ++ d :: rest)))
    (s : List α) :
    motive s := by
  induction hn : s.length using Nat.strongRecOn generalizing s with
  | _ n ih =>
      have hskip : ∀ c ∈ s.takeWhile p, p c = true := fun c hc => List.mem_takeWhile_imp hc
      have hsplit := List.takeWhile_append_dropWhile (p := p) (l := s)
      generalize s.takeWhile p = skip at hskip hsplit
      rcases hstart : s.dropWhile p with _ | ⟨c, cs⟩
      · rw [hstart, List.append_nil] at hsplit
        exact all s (hsplit ▸ hskip)
      · have hc : p c = false := by
          have hhead := @List.head_dropWhile_not _ p s (by rw [hstart]; simp)
          simpa [hstart] using hhead
        rw [hstart] at hsplit
        have htoken : ∀ x ∈ (c :: cs).takeWhile (fun x => !p x), p x = false := fun x hx => by
          simpa using List.mem_takeWhile_imp hx
        have hne : (c :: cs).takeWhile (fun x => !p x) ≠ [] := by
          rw [List.takeWhile_cons_of_pos (by simp [hc])]
          exact List.cons_ne_nil _ _
        have hrest := List.takeWhile_append_dropWhile (p := fun x => !p x) (l := c :: cs)
        generalize (c :: cs).takeWhile (fun x => !p x) = token at htoken hne hrest
        rcases hend : (c :: cs).dropWhile (fun x => !p x) with _ | ⟨d, rest⟩
        · rw [hend, List.append_nil] at hrest
          rw [← hsplit, ← hrest]
          exact last skip token hskip htoken hne
        · have hd : p d = true := by
            have hhead := @List.head_dropWhile_not _ (fun x => !p x) (c :: cs)
              (by rw [hend]; simp)
            simpa [hend] using hhead
          rw [hend] at hrest
          rw [← hsplit, ← hrest]
          refine more skip token d rest hskip htoken hne hd (ih rest.length ?_ rest rfl)
          have hlength := congrArg List.length hsplit
          rw [← hrest] at hlength
          simp only [List.length_append, List.length_cons] at hlength
          omega

/-- A field is the run of the list at `q`: it goes up to the next separator, and there
is none of its elements right before it. -/
structure FieldAt (p : α → Bool) (s : List α) (q : Nat) (field : List α) : Prop where
  run : (s.drop q).takeWhile (fun c => !p c) = field
  ne_nil : field ≠ []
  left : q = 0 ∨ ∃ c, s[q - 1]? = some c ∧ p c = true

/-- The places of the fields of a list, in order. -/
structure FieldsAt (p : α → Bool) (s : List α) (qs : List Nat) : Prop where
  places : List.Forall₂ (FieldAt p s) qs (fields p s)
  order : qs.Pairwise (· < ·)

/-- A field behind a separator. -/
theorem FieldAt.append
    {before : List α} {q : Nat} {field : List α}
    (h : FieldAt p s q field) (hd : p d = true) :
    FieldAt p (before ++ d :: s) (q + (before.length + 1)) field := by
  have hassoc : before ++ d :: s = (before ++ [d]) ++ s := by simp
  refine ⟨?_, h.ne_nil, Or.inr ?_⟩
  · rw [hassoc, List.drop_append, List.drop_of_length_le (by simp), List.nil_append]
    simpa using h.run
  · rcases h.left with rfl | ⟨c, hc, hp⟩
    · exact ⟨d, by simp, hd⟩
    · by_cases hq : q = 0
      · exact ⟨d, by simp [hq], hd⟩
      · refine ⟨c, ?_, hp⟩
        rw [hassoc, List.getElem?_append_right (by simp; omega), ← hc]
        congr 1
        simp
        omega

theorem fieldsAt_of_all
    (h : ∀ c ∈ s, p c = true) :
    FieldsAt p s [] :=
  ⟨fields_of_all h ▸ List.Forall₂.nil, List.Pairwise.nil⟩

/-- The first field, with only separators before it. -/
theorem fieldAt_first
    (hskip : ∀ c ∈ skip, p c = true) (htoken : ∀ c ∈ token, p c = false) (hne : token ≠ [])
    (hrest : ∀ d ∈ rest.head?, p d = true) :
    FieldAt p (skip ++ (token ++ rest)) skip.length token := by
  refine ⟨?_, hne, ?_⟩
  · rw [List.drop_left, List.takeWhile_append_of_pos (by simpa using htoken)]
    cases rest with
    | nil => simp
    | cons d rest => simp [hrest d rfl]
  · rcases List.eq_nil_or_concat skip with rfl | ⟨skip, c, rfl⟩
    · exact Or.inl rfl
    · exact Or.inr ⟨c, by simp, hskip c (by simp)⟩

theorem fieldsAt_last
    (hskip : ∀ c ∈ skip, p c = true) (htoken : ∀ c ∈ token, p c = false) (hne : token ≠ []) :
    FieldsAt p (skip ++ token) [skip.length] := by
  have hfirst : FieldAt p (skip ++ (token ++ [])) skip.length token :=
    fieldAt_first hskip htoken hne (by simp)
  rw [List.append_nil] at hfirst
  refine ⟨?_, List.pairwise_singleton _ _⟩
  rw [fields_append_of_all hskip, fields_of_none htoken hne]
  exact List.Forall₂.cons hfirst List.Forall₂.nil

theorem fieldsAt_more
    (hskip : ∀ c ∈ skip, p c = true) (htoken : ∀ c ∈ token, p c = false) (hne : token ≠ [])
    (hd : p d = true) {qs : List Nat} (h : FieldsAt p rest qs) :
    FieldsAt p (skip ++ (token ++ d :: rest))
      (skip.length :: qs.map (· + ((skip ++ token).length + 1))) := by
  constructor
  · rw [fields_append_of_all hskip, fields_append_cons htoken hne hd]
    refine List.Forall₂.cons (fieldAt_first hskip htoken hne (by simpa using hd)) ?_
    rw [List.forall₂_map_left_iff]
    refine h.places.imp fun q field hfield => ?_
    rw [← List.append_assoc]
    exact hfield.append hd
  · rw [List.pairwise_cons, List.pairwise_map]
    refine ⟨fun q hq => ?_, h.order.imp fun hlt => by omega⟩
    obtain ⟨q', -, rfl⟩ := List.mem_map.mp hq
    rw [List.length_append]
    omega

/-- What is right behind each field. -/
def fieldEnds (p : α → Bool) (s : List α) (qs : List Nat) : List Nat :=
  List.zipWith (fun q field => q + field.length) qs (fields p s)

theorem fieldEnds_of_all
    (h : ∀ c ∈ s, p c = true) :
    fieldEnds p s [] = [] := by
  rw [fieldEnds, fields_of_all h, List.zipWith_nil_left]

theorem fieldEnds_last
    (hskip : ∀ c ∈ skip, p c = true) (htoken : ∀ c ∈ token, p c = false) (hne : token ≠ []) :
    fieldEnds p (skip ++ token) [skip.length] = [(skip ++ token).length] := by
  rw [fieldEnds, fields_append_of_all hskip, fields_of_none htoken hne, List.length_append]
  rfl

theorem fieldEnds_more
    (hskip : ∀ c ∈ skip, p c = true) (htoken : ∀ c ∈ token, p c = false) (hne : token ≠ [])
    (hd : p d = true) (qs : List Nat) :
    fieldEnds p (skip ++ (token ++ d :: rest))
        (skip.length :: qs.map (· + ((skip ++ token).length + 1))) =
      (skip ++ token).length ::
        (fieldEnds p rest qs).map (· + ((skip ++ token).length + 1)) := by
  rw [fieldEnds, fields_append_of_all hskip, fields_append_cons htoken hne hd,
    List.zipWith_cons_cons, List.zipWith_map_left, fieldEnds, List.map_zipWith,
    List.length_append]
  refine congrArg _ (congrArg (fun f => List.zipWith f qs (fields p rest)) ?_)
  funext q field
  omega

end Lib
end PeachOS
