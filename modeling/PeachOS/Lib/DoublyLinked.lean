import PeachOS.Lib.Linked

/-!
# Lists that are linked both ways

A linked list whose cells also hold the cell before them.  An append keeps the
two directions together, and so does the removal of the last cell.  A cell that
is unlinked from the middle has to be unlinked both ways.
-/

namespace PeachOS
namespace Lib

universe u

variable {α : Type u} {next next' prev prev' : α → Option α} {null : α} {xs : List α}

structure DoublyLinked (next prev : α → Option α) (null : α) (xs : List α) : Prop where
  linked : Linked next null xs
  first : ∀ x, xs.head? = some x → prev x = some null
  links : ∀ x ∈ xs, ∀ y ∈ xs, next x = some y ↔ prev y = some x

namespace DoublyLinked

theorem nil : DoublyLinked next prev null [] :=
  ⟨Linked.nil, fun x hx => by simp at hx, fun x hx => absurd hx List.not_mem_nil⟩

theorem singleton
    {x : α} (hnext : next x = some null) (hprev : prev x = some null) :
    DoublyLinked next prev null [x] := by
  refine ⟨Linked.singleton hnext, fun y hy => ?_, fun y hy z hz => ?_⟩
  · cases hy
    exact hprev
  · rw [List.mem_singleton.mp hy, List.mem_singleton.mp hz, hnext, hprev]

/-- A cell holds the one before it. -/
theorem prev_of_append
    {as bs : List α} {x y : α} (h : DoublyLinked next prev null (as ++ x :: y :: bs)) :
    prev y = some x := by
  have hlink : next x = some y := h.linked.next_of_append
  exact (h.links x (by simp) y (by simp)).mp hlink

/-- What a cell holds for the one before it is `null` or a cell of the list. -/
theorem prev_mem
    {x y : α} (h : DoublyLinked next prev null xs) (hy : y ∈ xs) (hprev : prev y = some x) :
    x = null ∨ x ∈ xs := by
  obtain ⟨as, bs, rfl⟩ := List.append_of_mem hy
  rcases List.eq_nil_or_concat' as with rfl | ⟨as, p, rfl⟩
  · left
    exact Option.some.inj (hprev.symm.trans (h.first y rfl))
  · right
    rw [List.append_assoc] at h
    obtain rfl := Option.some.inj (hprev.symm.trans h.prev_of_append)
    simp

/-- A new cell is linked behind the last one, both ways. -/
theorem snoc
    {last x : α} (h : DoublyLinked next prev null (xs ++ [last]))
    (hlast : last ∉ xs) (hnull : null ∉ xs ++ [last]) (hfresh : x ∉ xs ++ [last]) (hx : x ≠ null)
    (hold : ∀ y ∈ xs, next' y = next y) (hlink : next' last = some x)
    (hnew : next' x = some null) (hback : ∀ y ∈ xs ++ [last], prev' y = prev y)
    (hprev : prev' x = some last) :
    DoublyLinked next' prev' null (xs ++ [last] ++ [x]) := by
  have hend : next last = some null := h.linked.next_of_append
  refine ⟨h.linked.snoc hold hlink hnew, fun y hy => ?_, fun y hy z hz => ?_⟩
  · have hy' : (xs ++ [last]).head? = some y := by
      cases xs <;> exact hy
    rw [hback y (List.mem_of_mem_head? hy'), h.first y hy']
  · rcases List.mem_append.mp hz with hz | hz
    · -- a cell of the old list
      have hne : z ≠ x := fun heq => hfresh (heq ▸ hz)
      have hz0 : z ≠ null := fun heq => hnull (heq ▸ hz)
      rw [hback z hz]
      rcases List.mem_append.mp hy with hy | hy
      · rw [← h.links y hy z hz]
        rcases List.mem_append.mp hy with hy | hy
        · rw [hold y hy]
        · rw [List.mem_singleton.mp hy, hlink, hend, Option.some.injEq, Option.some.injEq]
          exact iff_of_false hne.symm hz0.symm
      · rw [List.mem_singleton.mp hy, hnew, Option.some.injEq]
        refine iff_of_false hz0.symm fun heq => ?_
        exact (h.prev_mem hz heq).elim hx hfresh
    · -- the new cell
      rw [List.mem_singleton.mp hz, hprev, Option.some.injEq]
      rcases List.mem_append.mp hy with hy | hy
      · rcases List.mem_append.mp hy with hy | hy
        · rw [hold y hy]
          refine iff_of_false (fun heq => ?_) fun heq => hlast (heq ▸ hy)
          exact (h.linked.next_mem (List.mem_append_left _ hy) heq).elim hx hfresh
        · rw [List.mem_singleton.mp hy, hlink]
          exact iff_of_true rfl rfl
      · rw [List.mem_singleton.mp hy, hnew, Option.some.injEq]
        refine iff_of_false hx.symm fun heq => hfresh ?_
        rw [← heq]
        simp

/-- The last cell is unlinked by letting the one before it end the list. -/
theorem unlinkLast
    {p t : α} (h : DoublyLinked next prev null (xs ++ [p, t]))
    (hnull : null ∉ xs ++ [p]) (ht : t ∉ xs ++ [p]) (hp : next' p = next t)
    (hold : ∀ x ∈ xs, next' x = next x) (hback : ∀ x ∈ xs ++ [p], prev' x = prev x) :
    DoublyLinked next' prev' null (xs ++ [p]) := by
  have hsplit : xs ++ [p, t] = xs ++ [p] ++ [t] := by simp
  have hend : next t = some null := by
    rw [hsplit] at h
    exact h.linked.next_of_append
  have hmem (x : α) (hx : x ∈ xs ++ [p]) : x ∈ xs ++ [p, t] := by
    rw [hsplit]
    exact List.mem_append_left _ hx
  have hlinked : Linked next' null (xs ++ [p]) :=
    h.linked.unlink hp fun x hx => hold x (by simpa using hx)
  refine ⟨hlinked, fun x hx => ?_, fun x hx y hy => ?_⟩
  · have hx' : (xs ++ [p, t]).head? = some x := by
      cases xs <;> exact hx
    rw [hback x (List.mem_of_mem_head? hx), h.first x hx']
  · rw [hback y hy, ← h.links x (hmem x hx) y (hmem y hy)]
    rcases List.mem_append.mp hx with hx | hx
    · rw [hold x hx]
    · -- `p` held `t` before and holds `null` now
      have hlink : next p = some t := h.linked.next_of_append
      rw [List.mem_singleton.mp hx, hp, hend, hlink, Option.some.injEq, Option.some.injEq]
      exact iff_of_false (fun heq => hnull (heq ▸ hy)) fun heq => ht (heq ▸ hy)

/-- A cell with one behind it is not unlinked as long as that one still holds it. -/
theorem not_unlink
    {as bs : List α} {p t b : α} (h : DoublyLinked next prev null (as ++ p :: t :: b :: bs))
    (hne : p ≠ t) (hback : prev' b = prev b) :
    ¬ DoublyLinked next' prev' null (as ++ p :: b :: bs) := by
  intro h'
  have hp := h'.prev_of_append
  have ht : prev b = some t := by
    rw [List.append_cons] at h
    exact h.prev_of_append
  rw [hback, ht] at hp
  exact hne (Option.some.inj hp).symm

end DoublyLinked

end Lib
end PeachOS
