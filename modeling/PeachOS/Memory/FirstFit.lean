import PeachOS.Memory.HeapSafety
import Mathlib.Order.Bounds.Defs

/-!
# Where a request is granted

`heap_get_start_block` returns the first run of free blocks that is long
enough.  A request for no blocks is never satisfied on the way, so it is
answered with the free blocks at the end of the table.  `heap_malloc` makes
such a request for the sizes that wrap when they are rounded up.
-/

namespace PeachOS

open Lib

section Search

variable {heap : Heap}

theorem heapGetStartBlock_of_isLeast
    {n b : Nat} (hn : 1 ≤ n) (h : IsLeast {b | FreeRun heap.table n b} b) :
    heapGetStartBlock heap n = b := by
  rcases heapGetStartBlock_cases heap hn with
    ⟨-, hnone, -⟩ | ⟨b', hres, hrun, hfirst⟩ | ⟨b', -, -, -, -, hnone⟩
  · exact absurd h.1 (hnone b)
  · rcases Nat.lt_trichotomy b b' with hlt | rfl | hlt
    · exact absurd h.1 (hfirst b hlt)
    · exact hres
    · exact absurd (h.2 hrun) (Nat.not_le.mpr hlt)
  · exact absurd h.1 (hnone b)

/-- The run of free blocks that is found is the first one. -/
theorem heapGetStartBlock_firstFit
    {n : Nat} (hn : 1 ≤ n) (h : ∃ b, FreeRun heap.table n b) :
    ∃ b : Nat, heapGetStartBlock heap n = b ∧ IsLeast {b | FreeRun heap.table n b} b := by
  have hleast : IsLeast {b | FreeRun heap.table n b} (Nat.find h) :=
    ⟨Nat.find_spec h, fun _ hrun => Nat.find_min' h hrun⟩
  exact ⟨Nat.find h, heapGetStartBlock_of_isLeast hn hleast, hleast⟩

/-- Blocks 1 and 2 are free, and so is block 4. -/
theorem heapGetStartBlock_firstFit_fragmented :
    heapGetStartBlock ⟨⟨fun i => if i = 0 ∨ i = 3 then 1 else 0, 5, []⟩, 0⟩ 2 = 1 := by
  obtain ⟨b, hres, hleast⟩ :=
    @heapGetStartBlock_firstFit ⟨⟨fun i => if i = 0 ∨ i = 3 then 1 else 0, 5, []⟩, 0⟩ 2 (by decide)
      ⟨1, by decide⟩
  have hle : b ≤ 1 :=
    hleast.2 (by decide : FreeRun ⟨fun i => if i = 0 ∨ i = 3 then 1 else 0, 5, []⟩ 2 1)
  have hne : b ≠ 0 := by
    rintro rfl
    exact absurd hleast.1
      (by decide : ¬ FreeRun ⟨fun i => if i = 0 ∨ i = 3 then 1 else 0, 5, []⟩ 2 0)
  rw [hres]
  omega

/-- The first run of free blocks that is long enough is taken. -/
theorem heapMalloc_first
    {size : Word} {b : Nat} (hsize : heapTotalBlocks size ≠ 0)
    (h : IsLeast {b | FreeRun heap.table (heapTotalBlocks size) b} b) :
    heapMalloc heap size =
      (heapBlockToAddress heap b, heapMarkBlocksTaken heap b (heapTotalBlocks size)) := by
  rw [heapMalloc, heapMallocBlocks, heapGetStartBlock_of_isLeast (Nat.pos_of_ne_zero hsize) h]
  exact if_neg (by omega)

end Search

/-- The free blocks right before `i` are those from `b` on. -/
structure LastRun (t : HeapTable) (i b : Nat) : Prop where
  lt : b < i
  free : ∀ j, b ≤ j → j < i → FreeBlock t j
  edge : b = 0 ∨ ¬ FreeBlock t (b - 1)

section NoBlock

variable {heap : Heap} {t : HeapTable}

/-- A free block makes the run longer, or is the first one of it. -/
theorem LastRun.extend
    {i b : Nat} (h : LastRun t i b) (hfree : FreeBlock t i) :
    LastRun t (i + 1) b := by
  refine ⟨Nat.lt_succ_of_lt h.lt, fun j hlo hhi => ?_, h.edge⟩
  rcases Nat.eq_or_lt_of_le (Nat.le_of_lt_succ hhi) with rfl | hlt
  · exact hfree
  · exact h.free j hlo hlt

theorem LastRun.single
    {i : Nat} (hfree : FreeBlock t i) (hedge : i = 0 ∨ ¬ FreeBlock t (i - 1)) :
    LastRun t (i + 1) i := by
  refine ⟨Nat.lt_succ_self i, fun j hlo hhi => ?_, hedge⟩
  obtain rfl : j = i := by omega
  exact hfree

/-- A count of no blocks is never reached, so the loop returns the run at the
end. -/
theorem heapGetStartBlockLoop_noBlock
    {m i : Nat} (bc : Nat) {bs : Int}
    (h : (bs = -1 ∧ (i = 0 ∨ ¬ FreeBlock t (i - 1))) ∨ ∃ b : Nat, bs = b ∧ LastRun t i b) :
    (heapGetStartBlockLoop t 0 m i bc bs = -1 ∧ (i + m = 0 ∨ ¬ FreeBlock t (i + m - 1))) ∨
      ∃ b : Nat, heapGetStartBlockLoop t 0 m i bc bs = b ∧ LastRun t (i + m) b := by
  induction m generalizing i bc bs with
  | zero => exact h
  | succ m ih =>
      rw [show i + (m + 1) = i + 1 + m by omega, heapGetStartBlockLoop]
      by_cases hfree : FreeBlock t i
      · have hif : heapGetEntryType (t.entries i) = blockTableEntryFree := hfree
        rw [if_neg (not_not.mpr hif)]
        dsimp only
        rw [if_neg (by omega : ¬ bc + 1 = 0)]
        refine ih (bc + 1) (Or.inr ?_)
        rcases h with ⟨rfl, hedge⟩ | ⟨b, rfl, hrun⟩
        · exact ⟨i, if_pos rfl, LastRun.single hfree hedge⟩
        · exact ⟨b, if_neg (by omega), hrun.extend hfree⟩
      · have hif : heapGetEntryType (t.entries i) ≠ blockTableEntryFree := hfree
        rw [if_pos hif]
        exact ih 0 (Or.inl ⟨rfl, Or.inr hfree⟩)

/-- A request that needs no block is answered with the first of the free blocks
at the end of the table, and takes none. -/
theorem heapMalloc_noBlock
    {size : Word} {b : Nat} (hsize : heapTotalBlocks size = 0)
    (hrun : LastRun heap.table heap.table.total b) :
    heapMalloc heap size = (heapBlockToAddress heap b, heap) := by
  have hunique (c : Nat) (hc : LastRun heap.table heap.table.total c) : c = b := by
    rcases Nat.lt_trichotomy c b with hlt | heq | hlt
    · refine hrun.edge.elim (fun h0 => absurd hlt (by omega)) fun hedge => ?_
      exact absurd (hc.free (b - 1) (by omega) (by have := hrun.lt; omega)) hedge
    · exact heq
    · refine hc.edge.elim (fun h0 => absurd hlt (by omega)) fun hedge => ?_
      exact absurd (hrun.free (c - 1) (by omega) (by have := hc.lt; omega)) hedge
  have hloop : heapGetStartBlockLoop heap.table 0 heap.table.total 0 0 (-1) = b := by
    have hcases := @heapGetStartBlockLoop_noBlock heap.table heap.table.total 0 0 (-1)
      (Or.inl ⟨rfl, Or.inl rfl⟩)
    rw [Nat.zero_add] at hcases
    rcases hcases with ⟨-, hnone⟩ | ⟨c, hres, hc⟩
    · have hlt := hrun.lt
      rcases hnone with h0 | hlast
      · omega
      · exact absurd (hrun.free _ (by omega) (by omega)) hlast
    · rw [hres, hunique c hc]
  have hstart : heapGetStartBlock heap 0 = b := by
    rw [heapGetStartBlock, hloop]
    exact if_neg (by omega)
  have hmark : heapMarkBlocksTaken heap b (0 : Nat) = heap := by
    rw [heapMarkBlocksTaken, show ((b : Int) + (0 : Nat) - 1 + 1 - b).toNat = 0 by omega]
    rfl
  rw [heapMalloc, heapMallocBlocks, hsize, hstart, hmark]
  exact if_neg (by omega)

/-- Without free blocks at the end of the table it is refused. -/
theorem heapMalloc_noBlock_refused
    {size : Word} (hsize : heapTotalBlocks size = 0)
    (hnone : ∀ b, ¬ LastRun heap.table heap.table.total b) :
    heapMalloc heap size = (0, heap) := by
  have hloop : heapGetStartBlockLoop heap.table 0 heap.table.total 0 0 (-1) = -1 := by
    have hcases := @heapGetStartBlockLoop_noBlock heap.table heap.table.total 0 0 (-1)
      (Or.inl ⟨rfl, Or.inl rfl⟩)
    rw [Nat.zero_add] at hcases
    rcases hcases with ⟨hres, -⟩ | ⟨c, -, hc⟩
    · exact hres
    · exact absurd hc (hnone c)
  have hstart : heapGetStartBlock heap 0 = -enomem := by
    rw [heapGetStartBlock, hloop]
    rfl
  rw [heapMalloc, heapMallocBlocks, hsize, hstart]
  rfl

/-- The blocks that a granted request is given hold its bytes. -/
def KeepsBytes (heap : Heap) (size : Word) : Prop :=
  (heapMalloc heap size).1 = 0 ∨ size.toNat ≤ heapTotalBlocks size * heapBlockSize

/-- Bytes are lost exactly for the sizes that wrap, when the table ends in free
blocks whose address is not 0. -/
theorem heapMalloc_keepsBytes_iff
    (heap : Heap) (size : Word) (hsize : 1 ≤ size.toNat) :
    KeepsBytes heap size ↔
      size.toNat ≤ 0xFFFFF000 ∨
        ∀ b, LastRun heap.table heap.table.total b → heapBlockToAddress heap b = 0 := by
  by_cases hsmall : size.toNat ≤ 0xFFFFF000
  · refine iff_of_true (Or.inr ?_) (Or.inl hsmall)
    rw [heapTotalBlocks_eq hsmall, heapBlockSize]
    omega
  · have hzero : heapTotalBlocks size = 0 :=
      (heapTotalBlocks_eq_zero_iff size).mpr (Or.inr (Nat.lt_of_not_le hsmall))
    have hlost : ¬ size.toNat ≤ heapTotalBlocks size * heapBlockSize := by
      rw [hzero]
      omega
    rw [KeepsBytes, or_iff_left hlost, or_iff_right hsmall]
    constructor
    · intro h b hrun
      rwa [heapMalloc_noBlock hzero hrun] at h
    · intro h
      rcases Classical.em (∃ b, LastRun heap.table heap.table.total b) with ⟨b, hrun⟩ | hnone
      · rw [heapMalloc_noBlock hzero hrun]
        exact h b hrun
      · rw [heapMalloc_noBlock_refused hzero fun b hb => hnone ⟨b, hb⟩]

end NoBlock

/-- The heap that `kheap_init` makes. -/
def emptyHeap : Heap :=
  (heapCreate ⟨freshTable 25600, 0⟩ (BitVec.ofNat 32 heapAddress)
    (BitVec.ofNat 32 (heapAddress + heapSizeBytes)) (freshTable 25600)).2

theorem emptyHeap_create :
    (heapCreate ⟨freshTable 25600, 0⟩ (BitVec.ofNat 32 heapAddress)
      (BitVec.ofNat 32 (heapAddress + heapSizeBytes)) (freshTable 25600)).1 = 0 := by
  decide

theorem emptyHeap_eq :
    emptyHeap =
      { table := memsetEntries blockTableEntryFree 25600 (freshTable 25600), saddr := 0x1000000 } :=
  (heapCreate_eq emptyHeap_create).2

theorem emptyHeap_total : emptyHeap.table.total = 25600 := by
  rw [emptyHeap_eq, memsetEntries_total]
  rfl

theorem emptyHeap_lastRun : LastRun emptyHeap.table emptyHeap.table.total 0 := by
  refine ⟨?_, fun j _ hj => ?_, Or.inl rfl⟩
  · rw [emptyHeap_total]
    decide
  · rw [emptyHeap_total] at hj
    rw [FreeBlock, emptyHeap_eq, memsetEntries_entries _ _ _ _ hj]
    rfl

/-- A page of the heap is granted whole. -/
theorem heapMalloc_keepsBytes_iff_page : KeepsBytes emptyHeap 4096 :=
  (heapMalloc_keepsBytes_iff emptyHeap 4096 (by decide)).mpr (Or.inl (by decide))

def AlwaysKeepsBytes : Prop :=
  ∀ (heap : Heap) (size : Word), 1 ≤ size.toNat → KeepsBytes heap size

/-- All but the last byte of the address space are granted on the empty heap,
at its first block, and no block is reserved. -/
theorem alwaysKeepsBytes_false : ¬ AlwaysKeepsBytes := by
  intro h
  have hzero : heapTotalBlocks 0xFFFFFFFF = 0 := by decide
  rcases h emptyHeap 0xFFFFFFFF (by decide) with hrefused | hbytes
  · rw [heapMalloc_noBlock hzero emptyHeap_lastRun, heapBlockToAddress, emptyHeap_eq] at hrefused
    exact absurd hrefused (by decide)
  · rw [hzero] at hbytes
    exact absurd hbytes (by decide)

end PeachOS
