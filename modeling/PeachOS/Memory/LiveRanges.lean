import PeachOS.Memory.HeapTable
import PeachOS.Lib.Run

/-!
# The live ranges of the block table

`heap_mark_blocks_taken` and `heap_mark_blocks_free` in any order.  The ranges
that have been taken and not freed are kept beside the heap, and the table is
their encoding after every step.
-/

namespace PeachOS

open Lib

/-- The encoding of a set of ranges that end in the table. -/
structure EncodesInside (t : HeapTable) (R : Set BlockRange) : Prop where
  encodes : Encodes t R
  inside : ∀ r ∈ R, r.stop ≤ t.total

structure LiveRanges where
  heap : Heap
  live : Set BlockRange

inductive RangeOp where
  | take (r : BlockRange)
  | free (r : BlockRange)

/-- Free blocks of the table are taken, and live ranges are freed. -/
inductive RangeStep : LiveRanges → RangeOp → LiveRanges → Prop
  | take {s : LiveRanges} {r : BlockRange} (hinside : r.stop ≤ s.heap.table.total)
      (hfree : ∀ i, r.Contains i → FreeBlock s.heap.table i) :
      RangeStep s (.take r) ⟨heapMarkBlocksTaken s.heap r.start r.count, insert r s.live⟩
  | free {s : LiveRanges} {r : BlockRange} (hr : r ∈ s.live) :
      RangeStep s (.free r) ⟨heapMarkBlocksFree s.heap r.start, s.live \ {r}⟩

namespace EncodesInside

variable {heap : Heap} {R : Set BlockRange} {r : BlockRange}

theorem taken
    (h : EncodesInside heap.table R) (hinside : r.stop ≤ heap.table.total)
    (hfree : ∀ i, r.Contains i → FreeBlock heap.table i) :
    EncodesInside (heapMarkBlocksTaken heap r.start r.count).table (insert r R) := by
  have hstart : r.start < heap.table.total :=
    Nat.lt_of_lt_of_le r.contains_start.2 hinside
  have hapart : ∀ q ∈ R, r.Apart q := by
    intro q hq
    rw [BlockRange.apart_iff]
    intro i hi
    have hlt : i < heap.table.total := Nat.lt_of_lt_of_le hi.2 hinside
    exact (h.encodes.freeBlock_iff hlt).mp (hfree i hi) q hq
  refine ⟨h.encodes.taken r hstart hapart, fun q hq => ?_⟩
  rw [heapMarkBlocksTaken_total]
  rcases Set.mem_insert_iff.mp hq with rfl | hq
  · exact hinside
  · exact h.inside q hq

theorem freed
    (h : EncodesInside heap.table R) (hint : IsInt heap.table.total) (hr : r ∈ R) :
    EncodesInside (heapMarkBlocksFree heap r.start).table (R \ {r}) := by
  refine ⟨h.encodes.freed hint hr, fun q hq => ?_⟩
  rw [heapMarkBlocksFree_total]
  exact h.inside q hq.1

/-- A free leaves the blocks of the other ranges alone. -/
theorem freed_others
    (h : EncodesInside heap.table R) (hint : IsInt heap.table.total) (hr : r ∈ R)
    {q : BlockRange} (hq : q ∈ R) (hne : q ≠ r) {i : Nat} (hi : q.Contains i) :
    (heapMarkBlocksFree heap r.start).table.entries i = heap.table.entries i := by
  have hnot := (h.encodes.separated hr hq hne.symm).not_contains hi
  rw [(h.encodes.heapMarkBlocksFree_spec hint hr).1, if_neg]
  intro hin
  apply hnot
  simp only [BlockRange.Contains, BlockRange.stop, tableCount] at hin ⊢
  omega

theorem step
    {s s' : LiveRanges} {op : RangeOp} (hint : IsInt s.heap.table.total)
    (h : EncodesInside s.heap.table s.live) (hstep : RangeStep s op s') :
    IsInt s'.heap.table.total ∧ EncodesInside s'.heap.table s'.live := by
  cases hstep with
  | take hinside hfree =>
      refine ⟨?_, h.taken hinside hfree⟩
      rw [heapMarkBlocksTaken_total]
      exact hint
  | free hr =>
      refine ⟨?_, h.freed hint hr⟩
      rw [heapMarkBlocksFree_total]
      exact hint

/-- Without live ranges every block is free. -/
theorem all_free
    {t : HeapTable} (h : EncodesInside t ∅) :
    ∀ i : Nat, i < t.total → t.entries i = blockTableEntryFree :=
  fun i hi => h.encodes.free i hi fun r hr => absurd hr (Set.notMem_empty r)

end EncodesInside

/-- Taking a range adds it, freeing one removes it and nothing else, and a table
whose ranges have all been freed is free. -/
theorem rangeRun_encodes
    (heap : Heap) (R : Set BlockRange) (hint : IsInt heap.table.total)
    (h : EncodesInside heap.table R) :
    (∀ r : BlockRange, r.stop ≤ heap.table.total →
      (∀ i, r.Contains i → FreeBlock heap.table i) →
      EncodesInside (heapMarkBlocksTaken heap r.start r.count).table (insert r R)) ∧
    (∀ r ∈ R, EncodesInside (heapMarkBlocksFree heap r.start).table (R \ {r}) ∧
      ∀ q ∈ R, q ≠ r → ∀ i, q.Contains i →
        (heapMarkBlocksFree heap r.start).table.entries i = heap.table.entries i) ∧
    ∀ (ops : List RangeOp) (s : LiveRanges), Run RangeStep ⟨heap, R⟩ ops s →
      EncodesInside s.heap.table s.live ∧
        (s.live = ∅ → ∀ i : Nat, i < s.heap.table.total →
          s.heap.table.entries i = blockTableEntryFree) := by
  refine ⟨fun r hinside hfree => h.taken hinside hfree, fun r hr => ⟨h.freed hint hr, ?_⟩, ?_⟩
  · intro q hq hne i hi
    exact h.freed_others hint hr hq hne hi
  · intro ops s hrun
    obtain ⟨-, hs⟩ := Run.invariant
      (fun s : LiveRanges => IsInt s.heap.table.total ∧ EncodesInside s.heap.table s.live)
      (fun _ _ _ h hstep => EncodesInside.step h.1 h.2 hstep) hrun ⟨hint, h⟩
    refine ⟨hs, fun hnone => ?_⟩
    rw [hnone] at hs
    exact hs.all_free

/-- Two ranges that touch each other fill a table, and the first is freed. -/
theorem rangeRun_encodes_touching :
    ∃ s, Run RangeStep ⟨⟨⟨fun _ => 0, 3, []⟩, 0⟩, ∅⟩
        [.take ⟨0, 2, by decide⟩, .take ⟨2, 1, by decide⟩, .free ⟨0, 2, by decide⟩] s ∧
      EncodesInside s.heap.table s.live := by
  have hstart : EncodesInside ⟨fun _ => 0, 3, []⟩ ∅ :=
    ⟨Encodes.empty fun _ _ => rfl, fun r hr => absurd hr (Set.notMem_empty r)⟩
  obtain ⟨s, hrun⟩ : ∃ s, Run RangeStep ⟨⟨⟨fun _ => 0, 3, []⟩, 0⟩, ∅⟩
      [.take ⟨0, 2, by decide⟩, .take ⟨2, 1, by decide⟩, .free ⟨0, 2, by decide⟩] s := by
    refine ⟨_, Run.cons (RangeStep.take (by decide) ?_) (Run.cons (RangeStep.take (by decide) ?_)
      (Run.cons (RangeStep.free ?_) (Run.nil _)))⟩
    · rintro i -
      exact (rfl : heapGetEntryType 0 = blockTableEntryFree)
    · rintro i ⟨hlo, hhi⟩
      simp only [BlockRange.stop] at hlo hhi
      obtain rfl : i = 2 := by omega
      decide
    · exact Set.mem_insert_of_mem _ (Set.mem_insert _ _)
  exact ⟨s, hrun, ((rangeRun_encodes _ ∅ (by decide) hstart).2.2 _ _ hrun).1⟩

end PeachOS
