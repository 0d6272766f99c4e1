import Mathlib.Data.List.Basic

/-!
# Buffers

Reads and stores in a buffer at an index that may lie outside it.  A buffer is seen as
what stands before the index, the element there and what stands behind it.
-/

namespace PeachOS
namespace Lib

variable {ε α : Type*}

/-- `buf[i]`, with the error of a read outside the buffer. -/
def load (outside : ε) (buf : List α) (i : Nat) : Except ε α :=
  match buf[i]? with
  | some a => .ok a
  | none => .error outside

/-- `buf[i] = a`, with the error of a store outside the buffer. -/
def store (outside : ε) (buf : List α) (i : Int) (a : α) : Except ε (List α) :=
  if 0 ≤ i ∧ i < buf.length then .ok (buf.set i.toNat a) else .error outside

theorem load_of_getElem?
    (outside : ε) {buf : List α} {i : Nat} {a : α} (h : buf[i]? = some a) :
    load outside buf i = .ok a := by
  rw [load, h]

theorem store_of_lt
    (outside : ε) {buf : List α} {i : Nat} (h : i < buf.length) (a : α) :
    store outside buf i a = .ok (buf.set i a) :=
  if_pos ⟨Int.natCast_nonneg i, Int.ofNat_lt.mpr h⟩

theorem store_of_ge
    (outside : ε) {buf : List α} {i : Nat} (h : buf.length ≤ i) (a : α) :
    store outside buf i a = .error outside :=
  if_neg fun hin => absurd (Int.ofNat_lt.mp hin.2) (Nat.not_lt.mpr h)

/-- A store between what stands before the index and behind it. -/
theorem store_append_cons
    (outside : ε) (before : List α) (old : α) (behind : List α) (a : α) :
    store outside (before ++ old :: behind) before.length a = .ok (before ++ a :: behind) := by
  rw [store_of_lt outside (by simp), List.set_append_right _ _ (Nat.le_refl _), Nat.sub_self,
    List.set_cons_zero]

theorem length_of_store
    {outside : ε} {buf buf' : List α} {i : Int} {a : α}
    (h : store outside buf i a = .ok buf') :
    buf'.length = buf.length := by
  rw [store] at h
  split_ifs at h
  cases h
  exact List.length_set

end Lib
end PeachOS
