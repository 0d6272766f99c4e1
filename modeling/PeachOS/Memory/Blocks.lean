import PeachOS.Config
import PeachOS.Lib.CInt

/-!
# The blocks that callers of the heap hold

`kzalloc` and `kfree` as their callers see them: what the allocations return is
given, and each live block has a typed content.  An access to anything but a
live block, and the release of anything else, is a fault.
-/

namespace PeachOS

open Lib

structure Blocks (κ : Type) where
  /-- What the allocations return, one after the other. -/
  answer : Nat → Ptr
  asked : Nat
  block : Ptr → Option κ

namespace Blocks

variable {κ : Type}

/-- No block is at the null pointer. -/
def live (b : Blocks κ) (p : Ptr) : Option κ :=
  if p = 0 then none else b.block p

def set (b : Blocks κ) (p : Ptr) (x : Option κ) : Blocks κ :=
  { b with block := fun q => if q = p then x else b.block q }

@[simp] theorem set_answer (b : Blocks κ) (p : Ptr) (x : Option κ) :
    (b.set p x).answer = b.answer :=
  rfl

@[simp] theorem set_asked (b : Blocks κ) (p : Ptr) (x : Option κ) :
    (b.set p x).asked = b.asked :=
  rfl

/-- A block for what `zeroed` is with all its bytes 0. -/
def kzalloc (b : Blocks κ) (zeroed : κ) : Ptr × Blocks κ :=
  let p := b.answer b.asked
  let b := { b with asked := b.asked + 1 }
  if p = 0 then (0, b) else (p, b.set p (some zeroed))

def kfree (b : Blocks κ) (p : Ptr) : Except Halt (Blocks κ) :=
  match b.live p with
  | none => .error .fault
  | some _ => .ok (b.set p none)

def read (b : Blocks κ) (p : Ptr) : Except Halt κ :=
  match b.live p with
  | none => .error .fault
  | some x => .ok x

def write (b : Blocks κ) (p : Ptr) (x : κ) : Except Halt (Blocks κ) :=
  match b.live p with
  | none => .error .fault
  | some _ => .ok (b.set p (some x))

theorem live_zero
    (b : Blocks κ) :
    b.live 0 = none :=
  if_pos rfl

theorem ne_zero_of_live
    {b : Blocks κ} {p : Ptr} {x : κ}
    (h : b.live p = some x) :
    p ≠ 0 := by
  rintro rfl
  rw [live_zero] at h
  cases h

theorem set_live_self
    (b : Blocks κ) {p : Ptr} (x : Option κ)
    (hp : p ≠ 0) :
    (b.set p x).live p = x := by
  rw [live, if_neg hp]
  exact if_pos rfl

theorem set_live_of_ne
    (b : Blocks κ) {p q : Ptr} (x : Option κ)
    (h : q ≠ p) :
    (b.set p x).live q = b.live q := by
  have hblock : (b.set p x).block q = b.block q := if_neg h
  rw [live, live, hblock]

theorem live_set
    (b : Blocks κ) {p : Ptr} (x : Option κ) (hp : p ≠ 0) (q : Ptr) :
    (b.set p x).live q = if q = p then x else b.live q := by
  split_ifs with h
  · rw [h, set_live_self b x hp]
  · exact set_live_of_ne b x h

theorem live_set_none
    (b : Blocks κ) (p q : Ptr) :
    (b.set p none).live q = if q = p then none else b.live q := by
  by_cases hp : p = 0
  · split_ifs with h
    · rw [h, hp, live_zero]
    · exact set_live_of_ne b none h
  · exact live_set b none hp q

/-- A block that was live is live after another one has been taken. -/
theorem exists_live_set
    {b : Blocks κ} {p q : Ptr} {x y : κ}
    (h : b.live q = some x) :
    ∃ z, (b.set p (some y)).live q = some z := by
  have hq : q ≠ 0 := ne_zero_of_live h
  by_cases hqp : q = p
  · exact ⟨y, by rw [hqp, set_live_self _ _ (hqp ▸ hq)]⟩
  · exact ⟨x, by rw [set_live_of_ne _ _ hqp, h]⟩

theorem kzalloc_of_ne_zero
    {b : Blocks κ} (h : b.answer b.asked ≠ 0) (zeroed : κ) :
    b.kzalloc zeroed =
      (b.answer b.asked,
        { b with asked := b.asked + 1 }.set (b.answer b.asked) (some zeroed)) :=
  if_neg h

theorem kzalloc_of_eq_zero
    {b : Blocks κ} (h : b.answer b.asked = 0) (zeroed : κ) :
    b.kzalloc zeroed = (0, { b with asked := b.asked + 1 }) :=
  if_pos h

theorem kzalloc_fields
    (b : Blocks κ) (zeroed : κ) :
    (b.kzalloc zeroed).1 = b.answer b.asked ∧ (b.kzalloc zeroed).2.answer = b.answer ∧
      (b.kzalloc zeroed).2.asked = b.asked + 1 := by
  by_cases hnull : b.answer b.asked = 0
  · rw [kzalloc_of_eq_zero hnull, hnull]
    exact ⟨rfl, rfl, rfl⟩
  · rw [kzalloc_of_ne_zero hnull]
    exact ⟨rfl, rfl, rfl⟩

theorem kzalloc_live_self
    {b : Blocks κ} (h : b.answer b.asked ≠ 0) (zeroed : κ) :
    (b.kzalloc zeroed).2.live (b.answer b.asked) = some zeroed := by
  rw [kzalloc_of_ne_zero h]
  exact set_live_self _ _ h

theorem kzalloc_live_of_ne
    (b : Blocks κ) (zeroed : κ) {q : Ptr}
    (h : q ≠ b.answer b.asked) :
    (b.kzalloc zeroed).2.live q = b.live q := by
  by_cases hnull : b.answer b.asked = 0
  · rw [kzalloc_of_eq_zero hnull]
    rfl
  · rw [kzalloc_of_ne_zero hnull]
    exact set_live_of_ne _ _ h

/-- No allocation fails. -/
def Plenty (b : Blocks κ) : Prop := ∀ n, b.answer n ≠ 0

theorem Plenty.kzalloc
    {b : Blocks κ} (h : b.Plenty) (zeroed : κ) :
    b.kzalloc zeroed =
      (b.answer b.asked,
        { b with asked := b.asked + 1 }.set (b.answer b.asked) (some zeroed)) :=
  kzalloc_of_ne_zero (h b.asked) zeroed

/-- Of the next `n` allocations each fails or returns a block that is not live. -/
def Fresh (b : Blocks κ) (n : Nat) : Prop :=
  ∀ i < n, b.answer (b.asked + i) ≠ 0 →
    b.live (b.answer (b.asked + i)) = none ∧
      ∀ j < i, b.answer (b.asked + j) ≠ b.answer (b.asked + i)

theorem kfree_of_live
    {b : Blocks κ} {p : Ptr} {x : κ}
    (h : b.live p = some x) :
    b.kfree p = .ok (b.set p none) := by
  rw [kfree, h]

theorem write_of_live
    {b : Blocks κ} {p : Ptr} {x : κ}
    (h : b.live p = some x) (y : κ) :
    b.write p y = .ok (b.set p (some y)) := by
  rw [write, h]

theorem kfree_inv
    {b b' : Blocks κ} {p : Ptr}
    (h : b.kfree p = .ok b') :
    p ≠ 0 ∧ b' = b.set p none := by
  rw [kfree] at h
  cases hlive : b.live p with
  | none =>
      rw [hlive] at h
      cases h
  | some x =>
      rw [hlive] at h
      exact ⟨ne_zero_of_live hlive, (Except.ok.inj h).symm⟩

theorem write_inv
    {b b' : Blocks κ} {p : Ptr} {x : κ}
    (h : b.write p x = .ok b') :
    p ≠ 0 ∧ b' = b.set p (some x) := by
  rw [write] at h
  cases hlive : b.live p with
  | none =>
      rw [hlive] at h
      cases h
  | some y =>
      rw [hlive] at h
      exact ⟨ne_zero_of_live hlive, (Except.ok.inj h).symm⟩

end Blocks

end PeachOS
