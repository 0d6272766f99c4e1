import Mathlib.Data.Set.Insert
import Mathlib.Data.Set.Pairwise.Basic

/-!
# Ranges of consecutive blocks

A range is a non-empty interval of block numbers.  A set of ranges is separated
when no two different ranges of it share a block; adding a range that meets
none of the others, and taking one away, keep a set separated.
-/

namespace PeachOS
namespace Lib

/-- A non-empty run of consecutive blocks. -/
@[ext]
structure BlockRange where
  start : Nat
  count : Nat
  count_pos : 0 < count

namespace BlockRange

/-- The first block after the range. -/
def stop (r : BlockRange) : Nat :=
  r.start + r.count

/-- `i` is one of the blocks of the range. -/
def Contains (r : BlockRange) (i : Nat) : Prop :=
  r.start ≤ i ∧ i < r.stop

instance (r : BlockRange) (i : Nat) : Decidable (r.Contains i) :=
  inferInstanceAs (Decidable (_ ∧ _))

/-- No block belongs to both ranges. -/
def Apart (r s : BlockRange) : Prop :=
  r.stop ≤ s.start ∨ s.stop ≤ r.start

theorem contains_start (r : BlockRange) : r.Contains r.start := by
  have := r.count_pos
  simp only [Contains, stop]
  omega

theorem Apart.symm {r s : BlockRange} (h : r.Apart s) : s.Apart r :=
  Or.symm h

theorem apart_iff {r s : BlockRange} :
    r.Apart s ↔ ∀ i, r.Contains i → ¬ s.Contains i := by
  constructor
  · intro h i hr hs
    simp only [Apart, Contains] at h hr hs
    omega
  · intro h
    have hr := r.count_pos
    have hs := s.count_pos
    have h₁ := h r.start (contains_start r)
    have h₂ : ¬ r.Contains s.start := fun hc => h _ hc (contains_start s)
    simp only [Apart, Contains, stop] at *
    omega

theorem Apart.not_contains {r s : BlockRange} (h : r.Apart s) {i : Nat}
    (hi : s.Contains i) : ¬ r.Contains i :=
  fun hr => apart_iff.mp h i hr hi

end BlockRange

/-- No two ranges of the set share a block. -/
def Separated (R : Set BlockRange) : Prop :=
  R.Pairwise BlockRange.Apart

namespace Separated

variable {R : Set BlockRange}

theorem insert_range
    (hR : Separated R) {r : BlockRange}
    (hr : ∀ s ∈ R, r.Apart s) :
    Separated (insert r R) := by
  intro a ha b hb hne
  rcases Set.mem_insert_iff.mp ha with ha | ha
  · rcases Set.mem_insert_iff.mp hb with hb | hb
    · exact absurd (ha.trans hb.symm) hne
    · exact ha ▸ hr b hb
  · rcases Set.mem_insert_iff.mp hb with hb | hb
    · exact hb ▸ (hr a ha).symm
    · exact hR ha hb hne

theorem remove_range (hR : Separated R) (r : BlockRange) : Separated (R \ {r}) :=
  hR.mono fun _ h => h.1

end Separated

end Lib
end PeachOS
