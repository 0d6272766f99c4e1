import Mathlib.Data.List.Chain

/-!
# Lists that are linked through pointers

`next` gives the successor that a cell holds, if there is a cell.  A list of
cells is linked when each holds the one behind it and the last holds `null`.
The rules say what an append and an unlinking of one cell do to the list, and
that a successor is found again inside it.
-/

namespace PeachOS
namespace Lib

universe u

variable {α : Type u} {next next' : α → Option α} {null : α}

def Linked (next : α → Option α) (null : α) (xs : List α) : Prop :=
  List.IsChain (fun x y => next x = some y) (xs ++ [null])

theorem Linked.nil : Linked next null [] :=
  List.isChain_singleton null

theorem Linked.singleton
    {x : α}
    (h : next x = some null) :
    Linked next null [x] :=
  List.isChain_pair.mpr h

/-- Only the cells of the list matter. -/
theorem Linked.congr
    {xs : List α}
    (h : Linked next null xs) (heq : ∀ x ∈ xs, next' x = next x) :
    Linked next' null xs := by
  induction xs with
  | nil => exact Linked.nil
  | cons x xs ih =>
      rw [Linked, List.cons_append, List.isChain_cons] at h ⊢
      refine ⟨?_, ih h.2 fun y hy => heq y (List.mem_cons_of_mem x hy)⟩
      intro y hy
      rw [heq x List.mem_cons_self]
      exact h.1 y hy

/-- The cell at a place in the list holds the head of what is behind it. -/
theorem Linked.next_of_append
    {as bs : List α} {x : α}
    (h : Linked next null (as ++ x :: bs)) :
    next x = some (bs.headD null) := by
  rw [Linked, List.append_assoc, List.cons_append] at h
  have hx := (List.isChain_cons.mp h.right_of_append).1
  cases bs with
  | nil => exact hx null rfl
  | cons b bs => exact hx b rfl

/-- A cell that holds another cell of the list stands right before it. -/
theorem Linked.split_of_next
    {xs : List α} {x y : α}
    (h : Linked next null xs) (hx : x ∈ xs) (hnext : next x = some y) (hy : y ≠ null) :
    ∃ as bs, xs = as ++ x :: y :: bs := by
  obtain ⟨as, bs, rfl⟩ := List.append_of_mem hx
  have heq := Option.some.inj (hnext.symm.trans h.next_of_append)
  cases bs with
  | nil => exact absurd heq hy
  | cons b bs => exact ⟨as, bs, by rw [heq]; rfl⟩

/-- A successor is `null` or again a cell of the list. -/
theorem Linked.next_mem
    {xs : List α} {x y : α}
    (h : Linked next null xs) (hx : x ∈ xs) (hnext : next x = some y) :
    y = null ∨ y ∈ xs := by
  rcases Classical.em (y = null) with hnull | hnull
  · exact Or.inl hnull
  · obtain ⟨as, bs, rfl⟩ := h.split_of_next hx hnext hnull
    exact Or.inr (by simp)

/-- Every cell of the list holds something. -/
theorem Linked.exists_next
    {xs : List α} {x : α}
    (h : Linked next null xs) (hx : x ∈ xs) :
    ∃ y, next x = some y := by
  obtain ⟨as, bs, rfl⟩ := List.append_of_mem hx
  exact ⟨_, h.next_of_append⟩

/-- A new cell is linked behind the last one. -/
theorem Linked.snoc
    {xs : List α} {last x : α}
    (h : Linked next null (xs ++ [last]))
    (hold : ∀ y ∈ xs, next' y = next y) (hlink : next' last = some x)
    (hnew : next' x = some null) :
    Linked next' null (xs ++ [last] ++ [x]) := by
  induction xs with
  | nil =>
      exact List.isChain_cons.mpr
        ⟨fun y hy => by cases hy; exact hlink, List.isChain_pair.mpr hnew⟩
  | cons y xs ih =>
      rw [Linked, List.cons_append, List.cons_append, List.isChain_cons] at h
      rw [Linked, List.cons_append, List.cons_append, List.cons_append, List.isChain_cons]
      refine ⟨?_, ih h.2 fun z hz => hold z (List.mem_cons_of_mem y hz)⟩
      intro z hz
      rw [hold y List.mem_cons_self]
      refine h.1 z ?_
      cases xs <;> exact hz

/-- A cell is unlinked by letting the one before it hold its successor. -/
theorem Linked.unlink
    {as bs : List α} {p t : α}
    (h : Linked next null (as ++ p :: t :: bs))
    (hp : next' p = next t) (hold : ∀ x ∈ as ++ bs, next' x = next x) :
    Linked next' null (as ++ p :: bs) := by
  induction as with
  | nil =>
      have ht : next t = some (bs.headD null) := @Linked.next_of_append _ _ _ [p] bs t h
      have hrest : Linked next null bs := (List.isChain_cons.mp (List.isChain_cons.mp h).2).2
      refine List.isChain_cons.mpr ⟨?_, hrest.congr fun x hx => hold x hx⟩
      intro y hy
      rw [hp, ht]
      cases bs with
      | nil => cases hy; rfl
      | cons b bs => cases hy; rfl
  | cons a as ih =>
      rw [Linked, List.cons_append, List.cons_append, List.isChain_cons] at h
      rw [Linked, List.cons_append, List.cons_append, List.isChain_cons]
      refine ⟨?_, ih h.2 fun x hx => hold x (List.mem_cons_of_mem a hx)⟩
      intro y hy
      rw [hold a List.mem_cons_self]
      refine h.1 y ?_
      cases as <;> exact hy

end Lib
end PeachOS
