import Mathlib.Data.BitVec
import Mathlib.Order.Interval.Set.Basic

/-!
# Signed 32-bit arithmetic

C leaves the overflow of a signed addition or multiplication undefined, and
converts an out-of-range value modulo `2^32`.  `checkInt` is the first, with
the error its user gives to undefined behaviour, and `toInt` the second; both
are the identity on the values of an `int`.
-/

namespace PeachOS
namespace Lib

/-- The values of a 32-bit `int`. -/
def IsInt (x : Int) : Prop := -2147483648 ≤ x ∧ x < 2147483648

instance (x : Int) : Decidable (IsInt x) :=
  inferInstanceAs (Decidable (_ ∧ _))

/-- The conversion of an integer to `int`. -/
def toInt (x : Int) : Int := (BitVec.ofInt 32 x).toInt

/-- The result of a signed operation. -/
def checkInt {ε : Type*} (overflow : ε) (x : Int) : Except ε Int :=
  if IsInt x then .ok x else .error overflow

theorem toInt_of_isInt
    {x : Int}
    (h : IsInt x) :
    toInt x = x := by
  rw [toInt, BitVec.toInt_ofInt]
  exact Int.bmod_eq_of_le (by have := h.1; omega) (by have := h.2; omega)

theorem checkInt_of_isInt
    {ε : Type*} (overflow : ε) {x : Int}
    (h : IsInt x) :
    checkInt overflow x = .ok x :=
  if_pos h

theorem checkInt_of_not_isInt
    {ε : Type*} (overflow : ε) {x : Int}
    (h : ¬ IsInt x) :
    checkInt overflow x = .error overflow :=
  if_neg h

theorem isInt_of_bounds
    {x : Int}
    (hlo : 0 ≤ x) (hhi : x < 2147483648) :
    IsInt x :=
  ⟨by omega, hhi⟩

section Bind

universe u

variable {ε : Type*} {α β : Type u}

@[simp] theorem ok_bind (a : α) (f : α → Except ε β) :
    ((.ok a : Except ε α) >>= f) = f a :=
  rfl

@[simp] theorem error_bind (e : ε) (f : α → Except ε β) :
    ((.error e : Except ε α) >>= f) = .error e :=
  rfl

/-- A sequence returns when its first part does and the second does from there. -/
theorem bind_eq_ok_iff
    {x : Except ε α} {f : α → Except ε β} {b : β} :
    (x >>= f) = .ok b ↔ ∃ a, x = .ok a ∧ f a = .ok b := by
  cases x with
  | error e => simp
  | ok a => simp

/-- A call that does not end with the error `e`. -/
def Avoids (e : ε) (x : Except ε α) : Prop := x ≠ .error e

theorem avoids_ok
    (e : ε) (a : α) :
    Avoids e (.ok a : Except ε α) :=
  nofun

theorem avoids_error
    {e e' : ε} (h : e' ≠ e) :
    Avoids e (.error e' : Except ε α) := by
  rintro ⟨⟩
  exact h rfl

/-- A sequence avoids an error that both of its parts avoid. -/
theorem Avoids.bind
    {e : ε} {x : Except ε α} {f : α → Except ε β}
    (hx : Avoids e x) (hf : ∀ a, x = .ok a → Avoids e (f a)) :
    Avoids e (x >>= f) := by
  cases x with
  | error e' => exact fun h => hx (congrArg Except.error (Except.error.inj h))
  | ok a => exact hf a rfl

theorem avoids_checkInt
    {e overflow : ε} (h : overflow ≠ e) (x : Int) :
    Avoids e (checkInt overflow x) := by
  unfold checkInt
  split_ifs
  · exact avoids_ok e x
  · exact avoids_error h

variable {γ : Type*} {f : β → γ → Except ε β} {all : List γ}

/-- An invariant of a loop that returns: `P` holds of the elements that it is done with
and the state behind them. -/
theorem foldlM_invariant
    (P : List γ → β → Prop)
    (hstep : ∀ done c todo b b', all = done ++ c :: todo → P done b → f b c = .ok b' →
      P (done ++ [c]) b')
    {b b' : β} (h0 : P [] b) (h : all.foldlM f b = .ok b') :
    P all b' := by
  suffices hloop : ∀ todo done b, all = done ++ todo → P done b →
      todo.foldlM f b = .ok b' → P all b' from hloop all [] b rfl h0 h
  intro todo
  induction todo with
  | nil =>
      intro done b hall hb h
      cases h
      rw [hall, List.append_nil]
      exact hb
  | cons c todo ih =>
      intro done b hall hb h
      rw [List.foldlM_cons] at h
      obtain ⟨b₁, hfirst, hrest⟩ := bind_eq_ok_iff.mp h
      refine ih (done ++ [c]) b₁ ?_ (hstep done c todo b b₁ hall hb hfirst) hrest
      rw [hall, List.append_assoc, List.singleton_append]

/-- A loop whose every pass returns. -/
theorem foldlM_returns
    (P : List γ → β → Prop)
    (hstep : ∀ done c todo b, all = done ++ c :: todo → P done b →
      ∃ b', f b c = .ok b' ∧ P (done ++ [c]) b')
    {b : β} (h0 : P [] b) :
    ∃ b', all.foldlM f b = .ok b' ∧ P all b' := by
  suffices hloop : ∀ todo done b, all = done ++ todo → P done b →
      ∃ b', todo.foldlM f b = .ok b' ∧ P all b' from hloop all [] b rfl h0
  intro todo
  induction todo with
  | nil =>
      intro done b hall hb
      refine ⟨b, rfl, ?_⟩
      rw [hall, List.append_nil]
      exact hb
  | cons c todo ih =>
      intro done b hall hb
      obtain ⟨b₁, hfirst, hb₁⟩ := hstep done c todo b hall hb
      obtain ⟨b', hrest, hb'⟩ := ih (done ++ [c]) b₁
        (by rw [hall, List.append_assoc, List.singleton_append]) hb₁
      refine ⟨b', ?_, hb'⟩
      rw [List.foldlM_cons, hfirst]
      exact hrest

end Bind

end Lib
end PeachOS
