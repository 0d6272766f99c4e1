import PeachOS.Memory.HeapTable
import PeachOS.Lib.Run
import Mathlib.Tactic.Common
import Mathlib.Data.List.Pairwise

/-!
# Runs of the heap

A run starts from a pool set up by `heap_create` and calls `heap_malloc` and
`heap_free` in any order, frees only on live pointers.  The invariant is that
the table encodes a separated set of ranges inside the pool, one of them for
each live allocation.

One call can break it.  When no run of free blocks is long enough but the table
ends in free blocks, `heap_get_start_block` returns the first of these, and
`heap_mark_blocks_taken` stores past the end of the table.  In a pool of more
than 2^31 bytes the `int` in `heap_address_to_block` also turns negative.  The
runs below are safe as long as no step does either (`heapRun_safe`).
-/

namespace PeachOS

open Lib

/-- A live allocation: the pointer handed out and the size asked for. -/
structure Allocation where
  ptr : Ptr
  size : Word
deriving DecidableEq

/-- The block that the pointer of the allocation is the address of. -/
def Allocation.start (heap : Heap) (a : Allocation) : Nat :=
  (a.ptr - heap.saddr).toNat / heapBlockSize

/-- The blocks an allocation needs: its size in blocks, rounded up. -/
def blocksFor (size : Word) : Nat :=
  (size.toNat + (heapBlockSize - 1)) / heapBlockSize

structure HeapState where
  heap : Heap
  live : List Allocation

inductive HeapOp where
  | malloc (size : Word)
  | free (ptr : Ptr)

def HeapState.malloc (s : HeapState) (size : Word) : HeapState :=
  let (ptr, heap) := heapMalloc s.heap size
  { heap := heap
    live := if ptr = 0 then s.live else ⟨ptr, size⟩ :: s.live }

def HeapState.free (s : HeapState) (ptr : Ptr) : HeapState :=
  { heap := heapFree s.heap ptr
    live := s.live.filter fun a => a.ptr ≠ ptr }

inductive HeapStep : HeapState → HeapOp → HeapState → Prop
  | malloc (s : HeapState) (size : Word)
      (hlo : 1 ≤ size.toNat) (hhi : size.toNat ≤ 0xFFFFF000) :
      HeapStep s (.malloc size) (s.malloc size)
  | free (s : HeapState) (a : Allocation) (ha : a ∈ s.live) :
      HeapStep s (.free a.ptr) (s.free a.ptr)

/-- What the pool promises of a state. -/
structure HeapSafe (s : HeapState) : Prop where
  inside : ∀ a ∈ s.live, a.start s.heap + blocksFor a.size ≤ s.heap.table.total
  occupied : ∀ a ∈ s.live, ∀ i : Nat, a.start s.heap ≤ i →
    i < a.start s.heap + blocksFor a.size →
    heapGetEntryType (s.heap.table.entries i) = blockTableEntryTaken
  disjoint : s.live.Pairwise fun a b =>
    a.start s.heap + blocksFor a.size ≤ b.start s.heap ∨
      b.start s.heap + blocksFor b.size ≤ a.start s.heap
  confined : ∀ j ∈ s.heap.table.written, 0 ≤ j ∧ j < s.heap.table.total

/-- A request that no run of free blocks can satisfy returns 0 and changes
nothing. -/
def RefusesCleanly (s : HeapState) (size : Word) : Prop :=
  (∀ b, ¬ FreeRun s.heap.table (blocksFor size) b) → heapMalloc s.heap size = (0, s.heap)

/-- The search cannot end in free blocks at the end of the table that are too
few, and the block of a freed pointer is a non-negative `int`. -/
def HeapStepOk (s : HeapState) : HeapOp → Prop
  | .malloc size =>
      (∃ b, FreeRun s.heap.table (blocksFor size) b) ∨
        s.heap.table.total = 0 ∨ ¬ FreeBlock s.heap.table (s.heap.table.total - 1)
  | .free ptr => (ptr - s.heap.saddr).toNat < 2 ^ 31

/-- The pool is safe in every state that any run reaches, and refuses what it
cannot satisfy. -/
def HeapAlwaysSafe : Prop :=
  ∀ (heap : Heap) (ptr stop : Ptr) (table : HeapTable),
    table.written = [] →
    (heapCreate heap ptr stop table).1 = 0 →
    ∀ (ops : List HeapOp) (s : HeapState),
      Run HeapStep ⟨(heapCreate heap ptr stop table).2, []⟩ ops s →
      HeapSafe s ∧
        ∀ size : Word, 1 ≤ size.toNat → size.toNat ≤ 0xFFFFF000 → RefusesCleanly s size

theorem blocksFor_pos {size : Word} (h : 1 ≤ size.toNat) : 0 < blocksFor size := by
  unfold blocksFor heapBlockSize
  omega

theorem heapTotalBlocks_eq_blocksFor {size : Word} (h : size.toNat ≤ 0xFFFFF000) :
    heapTotalBlocks size = blocksFor size :=
  heapTotalBlocks_eq h

theorem toNat_blockOffset {b : Nat} (hb : b < 2 ^ 20) :
    (BitVec.ofInt 32 ((b : Int) * heapBlockSize)).toNat = b * 4096 := by
  rw [BitVec.toNat_ofInt]
  unfold heapBlockSize
  omega

/-- The address of a block leads back to the block. -/
theorem start_of_heapBlockToAddress {heap : Heap} {a : Allocation} {b : Nat}
    (hb : b < 2 ^ 20) (ha : a.ptr = heapBlockToAddress heap b) :
    a.start heap = b := by
  unfold Allocation.start
  rw [ha, heapBlockToAddress, add_sub_cancel_left, toNat_blockOffset hb]
  unfold heapBlockSize
  omega

theorem heapAddressToBlock_eq {heap : Heap} {ptr : Ptr}
    (h : (ptr - heap.saddr).toNat < 2 ^ 31) :
    heapAddressToBlock heap ptr = ((ptr - heap.saddr).toNat / heapBlockSize : Nat) := by
  unfold heapAddressToBlock heapBlockSize
  rw [BitVec.toInt_eq_toNat_of_lt (by omega), Int.tdiv_eq_ediv_of_nonneg (by omega)]
  omega

@[simp] theorem memsetEntries_total (c : BlockTableEntry) :
    ∀ (n : Nat) (t : HeapTable), (memsetEntries c n t).total = t.total
  | 0, _ => rfl
  | n + 1, t => by
      rw [memsetEntries, HeapTable.store_total, memsetEntries_total c n]

theorem memsetEntries_entries (c : BlockTableEntry) :
    ∀ (n : Nat) (t : HeapTable) (i : Nat), i < n → (memsetEntries c n t).entries i = c
  | 0, _, _, hi => absurd hi (by omega)
  | n + 1, t, i, hi => by
      rw [memsetEntries]
      by_cases h : i = n
      · subst h
        simp
      · rw [HeapTable.store_entries_of_ne _ _ (by omega)]
        exact memsetEntries_entries c n t i (by omega)

theorem mem_memsetEntries_written (c : BlockTableEntry) (j : Int) :
    ∀ (n : Nat) (t : HeapTable),
      j ∈ (memsetEntries c n t).written → (0 ≤ j ∧ j < n) ∨ j ∈ t.written
  | 0, _, h => Or.inr h
  | n + 1, t, h => by
      rw [memsetEntries, HeapTable.store_written, List.mem_cons] at h
      rcases h with rfl | h
      · exact Or.inl (by omega)
      · rcases mem_memsetEntries_written c j n t h with h | h
        · exact Or.inl (by omega)
        · exact Or.inr h

/-- A pool that `heap_create` accepts: the cleared table, at its address. -/
theorem heapCreate_eq {heap : Heap} {ptr stop : Ptr} {table : HeapTable}
    (h : (heapCreate heap ptr stop table).1 = 0) :
    table.total = (stop - ptr).toNat / heapBlockSize ∧
      (heapCreate heap ptr stop table).2 =
        { table := memsetEntries blockTableEntryFree table.total table, saddr := ptr } := by
  unfold heapCreate at h ⊢
  by_cases hal : (!heapValidateAlignment ptr || !heapValidateAlignment stop) = true
  · rw [if_pos hal] at h
    exact absurd h (by decide : ¬ -einvarg = 0)
  · rw [if_neg hal] at h ⊢
    by_cases hne : table.total = (stop - ptr).toNat / heapBlockSize
    · have hgood : heapValidateTable ptr stop table = 0 := if_neg (not_not.mpr hne)
      simp only [hgood]
      exact ⟨hne, rfl⟩
    · have hbad : heapValidateTable ptr stop table = -einvarg := if_pos hne
      simp only [hbad, show (-einvarg < 0) = True by decide, if_true] at h
      exact absurd h (by decide)

/-- The range of blocks that an allocation occupies. -/
def Occupies (heap : Heap) (a : Allocation) (r : BlockRange) : Prop :=
  a.ptr = heapBlockToAddress heap r.start ∧ blocksFor a.size = r.count

structure HeapInv (s : HeapState) (R : Set BlockRange) : Prop where
  small : s.heap.table.total < 2 ^ 20
  encodes : Encodes s.heap.table R
  inside : ∀ r ∈ R, r.stop ≤ s.heap.table.total
  owned : ∀ a ∈ s.live, ∃ r ∈ R, Occupies s.heap a r
  distinct : s.live.Pairwise fun a b => a.ptr ≠ b.ptr
  confined : ∀ j ∈ s.heap.table.written, 0 ≤ j ∧ j < s.heap.table.total

namespace HeapInv

variable {s : HeapState} {R : Set BlockRange}

theorem isInt_total (h : HeapInv s R) : IsInt s.heap.table.total := by
  have := h.small
  exact isInt_of_bounds (by omega) (by omega)

theorem start_eq (h : HeapInv s R) {a : Allocation} {r : BlockRange} (hr : r ∈ R)
    (ho : Occupies s.heap a r) : a.start s.heap = r.start := by
  apply start_of_heapBlockToAddress _ ho.1
  have := h.encodes.starts r hr
  have := h.small
  omega

/-- Allocations with different pointers lie in different ranges. -/
theorem range_ne {heap : Heap} {a b : Allocation} {q r : BlockRange}
    (ha : Occupies heap a q) (hb : Occupies heap b r) (hne : a.ptr ≠ b.ptr) : q ≠ r := by
  rintro rfl
  exact hne (ha.1.trans hb.1.symm)

theorem safe (h : HeapInv s R) : HeapSafe s where
  inside := by
    intro a ha
    obtain ⟨r, hr, ho⟩ := h.owned a ha
    rw [h.start_eq hr ho, ho.2]
    exact h.inside r hr
  occupied := by
    intro a ha i hi hi'
    obtain ⟨r, hr, ho⟩ := h.owned a ha
    rw [h.start_eq hr ho] at hi hi'
    rw [ho.2] at hi'
    have hc : r.Contains i := ⟨hi, hi'⟩
    have hstop := h.inside r hr
    exact h.encodes.taken_of_contains hr hc (Nat.lt_of_lt_of_le hc.2 hstop)
  disjoint := by
    refine h.distinct.imp_of_mem ?_
    intro a b ha hb hne
    obtain ⟨q, hq, hoq⟩ := h.owned a ha
    obtain ⟨r, hr, hor⟩ := h.owned b hb
    rw [h.start_eq hq hoq, h.start_eq hr hor, hoq.2, hor.2]
    exact h.encodes.separated hq hr (range_ne hoq hor hne)
  confined := h.confined

/-- What `heap_malloc` does from a state in which the search cannot end in too
few blocks: it takes a range that fits, or refuses and changes nothing. -/
theorem heapMalloc_cases (h : HeapInv s R) {size : Word}
    (hlo : 1 ≤ size.toNat) (hhi : size.toNat ≤ 0xFFFFF000)
    (hok : HeapStepOk s (.malloc size)) :
    ((∀ b, ¬ FreeRun s.heap.table (blocksFor size) b) ∧
      heapMalloc s.heap size = (0, s.heap)) ∨
    ∃ r : BlockRange, r.count = blocksFor size ∧ r.stop ≤ s.heap.table.total ∧
      FreeRun s.heap.table (blocksFor size) r.start ∧ (∀ q ∈ R, r.Apart q) ∧
      heapMalloc s.heap size =
        (heapBlockToAddress s.heap r.start, heapMarkBlocksTaken s.heap r.start r.count) := by
  have hpos := blocksFor_pos hlo
  have hmalloc : heapMalloc s.heap size = heapMallocBlocks s.heap (blocksFor size) := by
    rw [heapMalloc, heapTotalBlocks_eq_blocksFor hhi]
  rw [hmalloc, heapMallocBlocks]
  rcases heapGetStartBlock_cases s.heap hpos with
    ⟨hres, hno, -⟩ | ⟨b, hres, hrun, -⟩ | ⟨b, hres, hlt, -, hfree, hno⟩
  · refine Or.inl ⟨hno, ?_⟩
    rw [hres, if_pos (by decide)]
  · refine Or.inr ⟨⟨b, blocksFor size, hpos⟩, rfl, hrun.1, hrun, ?_, ?_⟩
    · intro q hq
      rw [BlockRange.apart_iff]
      intro i hi
      have hi' : i < s.heap.table.total := Nat.lt_of_lt_of_le hi.2 hrun.1
      exact (h.encodes.freeBlock_iff hi').mp (hrun.2 i hi.1 hi.2) q hq
    · rw [hres, if_neg (by omega)]
  · exfalso
    rcases hok with ⟨b', hb'⟩ | h0 | hlast
    · exact hno b' hb'
    · omega
    · exact hlast (hfree _ (by omega) (by omega))

/-- A range apart from those in use starts at the address of no allocation. -/
theorem ptr_ne_of_apart (h : HeapInv s R) {r : BlockRange}
    (hstart : r.start < s.heap.table.total) (hapart : ∀ q ∈ R, r.Apart q) :
    ∀ a ∈ s.live, heapBlockToAddress s.heap r.start ≠ a.ptr := by
  intro a ha heq
  obtain ⟨q, hq, ho⟩ := h.owned a ha
  have hsame : r.start = q.start := by
    have h₁ := h.start_eq hq ho
    have h₂ := start_of_heapBlockToAddress (a := a) (b := r.start)
      (by have := h.small; omega) heq.symm
    omega
  exact (hapart q hq).not_contains
    (hsame ▸ q.contains_start) (BlockRange.contains_start r)

theorem malloc_step (h : HeapInv s R) {size : Word}
    (hlo : 1 ≤ size.toNat) (hhi : size.toNat ≤ 0xFFFFF000)
    (hok : HeapStepOk s (.malloc size)) :
    ∃ R', HeapInv (s.malloc size) R' := by
  rcases h.heapMalloc_cases hlo hhi hok with ⟨-, heq⟩ | ⟨r, hcount, hstop, -, hapart, heq⟩
  · refine ⟨R, ?_⟩
    simpa [HeapState.malloc, heq] using h
  · have hstart : r.start < s.heap.table.total := by
      have := r.count_pos
      simp only [BlockRange.stop] at hstop
      omega
    have henc := h.encodes.taken r hstart hapart
    refine ⟨insert r R, ?_⟩
    simp only [HeapState.malloc, heq]
    have hkeep : ∀ a ∈ s.live, ∃ q ∈ insert r R,
        Occupies (heapMarkBlocksTaken s.heap r.start r.count) a q := by
      intro a ha
      obtain ⟨q, hq, ho⟩ := h.owned a ha
      exact ⟨q, Set.mem_insert_of_mem r hq, ho⟩
    refine
      { small := by simpa using h.small
        encodes := henc
        inside := ?_
        owned := ?_
        distinct := ?_
        confined := ?_ }
    · intro q hq
      rw [heapMarkBlocksTaken_total]
      rcases Set.mem_insert_iff.mp hq with rfl | hq
      · exact hstop
      · exact h.inside q hq
    · intro a ha
      split_ifs at ha
      · exact hkeep a ha
      · rcases List.mem_cons.mp ha with rfl | ha
        · exact ⟨r, Set.mem_insert r R, rfl, hcount.symm⟩
        · exact hkeep a ha
    · split_ifs
      · exact h.distinct
      · exact List.pairwise_cons.mpr ⟨h.ptr_ne_of_apart hstart hapart, h.distinct⟩
    · intro j hj
      rw [mem_heapMarkBlocksTaken_written] at hj
      rw [heapMarkBlocksTaken_total]
      rcases hj with hj | hj
      · simp only [BlockRange.stop] at hstop
        omega
      · exact h.confined j hj

theorem free_step (h : HeapInv s R) {a : Allocation} (ha : a ∈ s.live)
    (hok : HeapStepOk s (.free a.ptr)) :
    ∃ R', HeapInv (s.free a.ptr) R' := by
  obtain ⟨r, hr, ho⟩ := h.owned a ha
  have hblock : heapFree s.heap a.ptr = heapMarkBlocksFree s.heap r.start := by
    rw [heapFree, heapAddressToBlock_eq hok]
    have := h.start_eq hr ho
    rw [Allocation.start] at this
    rw [this]
  refine ⟨R \ {r}, ?_⟩
  simp only [HeapState.free, hblock]
  exact
    { small := by simpa using h.small
      encodes := h.encodes.freed h.isInt_total hr
      inside := by
        intro q hq
        rw [heapMarkBlocksFree_total]
        exact h.inside q hq.1
      owned := by
        intro b hb
        rw [List.mem_filter] at hb
        obtain ⟨q, hq, hoq⟩ := h.owned b hb.1
        have hne : b.ptr ≠ a.ptr := by simpa using hb.2
        exact ⟨q, ⟨hq, range_ne hoq ho hne⟩, hoq⟩
      distinct := h.distinct.filter _
      confined := by
        intro j hj
        rw [(h.encodes.heapMarkBlocksFree_spec h.isInt_total hr).2] at hj
        rw [heapMarkBlocksFree_total]
        rcases hj with hj | hj
        · have := h.encodes.starts r hr
          unfold tableCount at hj
          omega
        · exact h.confined j hj }

/-- A step that meets the guard keeps the invariant. -/
theorem step {s t : HeapState} {o : HeapOp}
    (h : ∃ R, HeapInv s R) (hstep : Guarded HeapStepOk HeapStep s o t) :
    ∃ R, HeapInv t R := by
  obtain ⟨R, h⟩ := h
  obtain ⟨hok, hstep⟩ := hstep
  cases hstep with
  | malloc size hlo hhi => exact h.malloc_step hlo hhi hok
  | free a ha => exact h.free_step ha hok

theorem create {heap : Heap} {ptr stop : Ptr} {table : HeapTable}
    (hw : table.written = [])
    (h : (heapCreate heap ptr stop table).1 = 0) :
    HeapInv ⟨(heapCreate heap ptr stop table).2, []⟩ ∅ := by
  obtain ⟨htotal, heq⟩ := heapCreate_eq h
  rw [heq]
  exact
    { small := by
        simp only [memsetEntries_total, htotal]
        have := (stop - ptr).isLt
        unfold heapBlockSize
        omega
      encodes := by
        apply Encodes.empty
        intro i hi
        rw [memsetEntries_total] at hi
        exact memsetEntries_entries _ _ _ i hi
      inside := by simp
      owned := by simp
      distinct := List.Pairwise.nil
      confined := by
        intro j hj
        rw [memsetEntries_total]
        rcases mem_memsetEntries_written _ j _ _ hj with hj | hj
        · exact hj
        · rw [hw] at hj
          simp at hj }

end HeapInv

/-- In a run from a fresh pool whose steps meet `HeapStepOk`, every reached
state is safe, and a further request that meets it is refused cleanly when no
run of free blocks can satisfy it. -/
theorem heapRun_safe
    (heap : Heap) (ptr stop : Ptr) (table : HeapTable)
    (hw : table.written = [])
    (hcreate : (heapCreate heap ptr stop table).1 = 0)
    (ops : List HeapOp) (s : HeapState)
    (hrun : Run (Guarded HeapStepOk HeapStep)
      ⟨(heapCreate heap ptr stop table).2, []⟩ ops s) :
    HeapSafe s ∧
      ∀ size : Word, 1 ≤ size.toNat → size.toNat ≤ 0xFFFFF000 →
        HeapStepOk s (.malloc size) → RefusesCleanly s size := by
  obtain ⟨R, h⟩ := Run.invariant (fun s => ∃ R, HeapInv s R)
    (fun _ _ _ h hstep => HeapInv.step h hstep) hrun ⟨∅, HeapInv.create hw hcreate⟩
  refine ⟨h.safe, ?_⟩
  intro size hlo hhi hok hno
  rcases h.heapMalloc_cases hlo hhi hok with ⟨-, heq⟩ | ⟨r, -, -, hrun, -, -⟩
  · exact heq
  · exact absurd hrun (hno r.start)

/-- A table of `n` free blocks. -/
def freshTable (n : Nat) : HeapTable where
  entries := fun _ => blockTableEntryFree
  total := n
  written := []

/-- The state right after `heap_create` on a pool of two blocks. -/
def twoBlockPool : HeapState :=
  ⟨(heapCreate ⟨freshTable 2, 0⟩ 0x1000000 0x1002000 (freshTable 2)).2, []⟩

/-- Two blocks are taken and the first of them is freed again. -/
theorem heapRun_safe_two_blocks :
    HeapSafe (((twoBlockPool.malloc 4096).malloc 1).free 0x1000000) := by
  have hrun : Run (Guarded HeapStepOk HeapStep) twoBlockPool
      [.malloc 4096, .malloc 1, .free 0x1000000]
      (((twoBlockPool.malloc 4096).malloc 1).free 0x1000000) := by
    refine Run.cons ⟨Or.inl ⟨0, by decide⟩, HeapStep.malloc _ _ (by decide) (by decide)⟩ ?_
    refine Run.cons ⟨Or.inl ⟨1, by decide⟩, HeapStep.malloc _ _ (by decide) (by decide)⟩ ?_
    exact Run.cons
      ⟨by unfold HeapStepOk; decide, HeapStep.free _ ⟨0x1000000, 4096⟩ (by decide)⟩
      (Run.nil _)
  exact (heapRun_safe ⟨freshTable 2, 0⟩ 0x1000000 0x1002000 (freshTable 2) rfl
    (by decide) _ _ hrun).1

/-- In a pool of one block, a request for two blocks is granted at block 0 and
the entry after the table is stored to. -/
theorem heapAlwaysSafe_false : ¬ HeapAlwaysSafe := by
  intro h
  have hrun : Run HeapStep
      ⟨(heapCreate ⟨freshTable 1, 0⟩ 0x1000000 0x1001000 (freshTable 1)).2, []⟩
      [.malloc 8192] _ :=
    Run.cons (HeapStep.malloc _ 8192 (by decide) (by decide)) (Run.nil _)
  have hsafe := (h ⟨freshTable 1, 0⟩ 0x1000000 0x1001000 (freshTable 1) rfl
    (by decide) _ _ hrun).1
  exact absurd (hsafe.confined 1 (by decide)) (by decide)

end PeachOS
