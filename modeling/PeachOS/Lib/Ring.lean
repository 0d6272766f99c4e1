import Mathlib.Data.Nat.ModEq
import Mathlib.Data.Fin.Basic
import Mathlib.Data.List.GetD
import Mathlib.Logic.Function.Basic

/-!
# Queues in a ring of slots

A queue of non-zero values kept in `n` slots, with a reader and a writer that
go round them.  No length is stored: the reader tells that nothing is unread
from the zero in the slot before it.
-/

namespace PeachOS
namespace Lib

variable {α : Type*} [Zero α] {n : Nat} [NeZero n]

/-- The slots from the reader on hold what is unread, and the rest is zero. -/
structure Ring (slots : Fin n → α) (head : Nat) (unread : List α) : Prop where
  length_le : unread.length ≤ n
  ne_zero : (0 : α) ∉ unread
  slot : ∀ i < n, slots (Fin.ofNat n (head + i)) = unread.getD i 0

theorem ofNat_add_inj
    {head i j : Nat}
    (hi : i < n) (hj : j < n) :
    Fin.ofNat n (head + i) = Fin.ofNat n (head + j) ↔ i = j := by
  refine ⟨?_, fun h => h ▸ rfl⟩
  intro h
  have hmod : head + i ≡ head + j [MOD n] := congrArg Fin.val h
  have hij : i % n = j % n := Nat.ModEq.add_left_cancel' head hmod
  rwa [Nat.mod_eq_of_lt hi, Nat.mod_eq_of_lt hj] at hij

theorem ofNat_congr
    {a b : Nat}
    (h : a % n = b % n) :
    Fin.ofNat n a = Fin.ofNat n b :=
  Fin.ext h

variable {slots : Fin n → α} {head : Nat} {unread : List α}

theorem Ring.empty
    (head : Nat)
    (h : ∀ i, slots i = 0) :
    Ring slots head [] where
  length_le := Nat.zero_le n
  ne_zero := List.not_mem_nil
  slot := fun i _ => by simp [h]

/-- Only the slot that the reader is at matters, not how often it went round. -/
theorem Ring.congr
    (h : Ring slots head unread) {head' : Nat}
    (hhead : head' % n = head % n) :
    Ring slots head' unread where
  length_le := h.length_le
  ne_zero := h.ne_zero
  slot := fun i hi => by
    rw [ofNat_congr (Nat.ModEq.add_right i hhead : head' + i ≡ head + i [MOD n])]
    exact h.slot i hi

/-- The writer finds room behind the unread values. -/
theorem Ring.push
    (h : Ring slots head unread) {tail : Nat} {c : α}
    (htail : tail % n = (head + unread.length) % n)
    (hroom : unread.length < n) (hc : c ≠ 0) :
    Ring (Function.update slots (Fin.ofNat n tail) c) head (unread ++ [c]) where
  length_le := by
    rw [List.length_append, List.length_singleton]
    exact hroom
  ne_zero := by simp [h.ne_zero, hc.symm]
  slot := fun i hi => by
    rw [ofNat_congr htail]
    rcases Nat.lt_trichotomy i unread.length with hlt | rfl | hgt
    · rw [Function.update_of_ne (mt (ofNat_add_inj hi hroom).mp (Nat.ne_of_lt hlt)), h.slot i hi,
        List.getD_append _ _ _ _ hlt]
    · simp
    · have hend : (unread ++ [c]).length ≤ i := by
        rw [List.length_append, List.length_singleton]
        exact hgt
      rw [Function.update_of_ne (mt (ofNat_add_inj hi hroom).mp (Nat.ne_of_gt hgt)), h.slot i hi,
        List.getD_eq_default _ _ (Nat.le_of_lt hgt), List.getD_eq_default _ _ hend]

/-- What the reader finds before it. -/
theorem Ring.read
    (h : Ring slots head unread) :
    slots (Fin.ofNat n head) = unread.headD 0 := by
  have hslot := h.slot 0 (Nat.pos_of_neZero n)
  rw [Nat.add_zero] at hslot
  rw [hslot]
  cases unread <;> rfl

theorem Ring.read_eq_zero_iff
    (h : Ring slots head unread) :
    slots (Fin.ofNat n head) = 0 ↔ unread = [] := by
  rw [h.read]
  cases unread with
  | nil => simp
  | cons c rest =>
      have hc : c ≠ 0 := fun hzero => h.ne_zero (hzero ▸ List.mem_cons_self)
      simp [hc]

/-- The reader clears the slot that it leaves. -/
theorem Ring.pop
    {c : α} (h : Ring slots head (c :: unread)) :
    Ring (Function.update slots (Fin.ofNat n head) 0) (head + 1) unread where
  length_le := Nat.le_of_succ_le h.length_le
  ne_zero := fun hmem => h.ne_zero (List.mem_cons_of_mem c hmem)
  slot := fun i hi => by
    rw [Nat.add_assoc, Nat.add_comm 1 i]
    rcases Nat.lt_or_ge (i + 1) n with hlt | hlast
    · have hne : Fin.ofNat n (head + (i + 1)) ≠ Fin.ofNat n head :=
        mt (ofNat_add_inj hlt (Nat.pos_of_neZero n)).mp (Nat.succ_ne_zero i)
      rw [Function.update_of_ne hne, h.slot (i + 1) hlt, List.getD_cons_succ]
    · -- The last slot is the one just left: the ring was full at most.
      have hi' : i + 1 = n := by omega
      have hlength := h.length_le
      have hshort : unread.length ≤ i := by
        rw [List.length_cons] at hlength
        omega
      rw [ofNat_congr (show (head + (i + 1)) % n = head % n by rw [hi', Nat.add_mod_right]),
        Function.update_self, List.getD_eq_default _ _ hshort]

end Lib
end PeachOS
