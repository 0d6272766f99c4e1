import PeachOS.Memory.Heap
import PeachOS.Lib.BlockRange
import Mathlib.Tactic.Common

/-!
# The block table as a set of ranges

The abstract heap is a separated set of block ranges.  `Encodes t R` says that
the table `t` is the encoding of `R`: the first block of a range carries
`FIRST`, every block but the last carries `HAS_NEXT`, and the blocks of no
range are free.  A range starts inside the table; that it also ends there is a
separate statement, because `heap_mark_blocks_taken` does not check it.

The three results that the rest of the development uses are
`Encodes.taken` (marking adds a range), `Encodes.freed` (freeing removes it)
and `heapGetStartBlock_cases` (what the search can return).
-/

namespace PeachOS

open Lib

/-- The table byte of block `i` of a range. -/
def rangeEntry (r : BlockRange) (i : Nat) : BlockTableEntry :=
  if i = r.start then
    if i + 1 < r.stop then blockTableEntryTaken ||| blockIsFirst ||| blockHasNext
    else blockTableEntryTaken ||| blockIsFirst
  else
    if i + 1 < r.stop then blockTableEntryTaken ||| blockHasNext
    else blockTableEntryTaken

structure Encodes (t : HeapTable) (R : Set BlockRange) : Prop where
  separated : Separated R
  starts : ∀ r ∈ R, r.start < t.total
  cell : ∀ r ∈ R, ∀ i : Nat, r.Contains i → i < t.total → t.entries i = rangeEntry r i
  free : ∀ i : Nat, i < t.total → (∀ r ∈ R, ¬ r.Contains i) →
    t.entries i = blockTableEntryFree

/-- The entry of block `i` is marked free. -/
def FreeBlock (t : HeapTable) (i : Nat) : Prop :=
  heapGetEntryType (t.entries i) = blockTableEntryFree

instance (t : HeapTable) (i : Nat) : Decidable (FreeBlock t i) :=
  inferInstanceAs (Decidable (_ = _))

/-- A run of `n` free blocks inside the table, starting at `s`. -/
def FreeRun (t : HeapTable) (n s : Nat) : Prop :=
  s + n ≤ t.total ∧ ∀ i, s ≤ i → i < s + n → FreeBlock t i

instance (t : HeapTable) (n s : Nat) : Decidable (FreeRun t n s) :=
  decidable_of_iff (s + n ≤ t.total ∧ ∀ k < n, FreeBlock t (s + k)) <| by
    refine and_congr_right fun _ => ⟨fun h i hi hi' => ?_, fun h k hk => ?_⟩
    · have := h (i - s) (by omega)
      rwa [show s + (i - s) = i by omega] at this
    · exact h (s + k) (by omega) (by omega)

theorem entryType_rangeEntry (r : BlockRange) (i : Nat) :
    heapGetEntryType (rangeEntry r i) = blockTableEntryTaken := by
  unfold rangeEntry
  split_ifs <;> rfl

theorem hasNext_rangeEntry (r : BlockRange) (i : Nat) :
    rangeEntry r i &&& blockHasNext = 0 ↔ ¬ i + 1 < r.stop := by
  unfold rangeEntry
  split_ifs with h₁ h₂ h₂
  · simp only [h₂, not_true_eq_false, iff_false]
    decide
  · simp only [h₂, not_false_eq_true, iff_true]
    decide
  · simp only [h₂, not_true_eq_false, iff_false]
    decide
  · simp only [h₂, not_false_eq_true, iff_true]
    decide

namespace Encodes

variable {t : HeapTable} {R : Set BlockRange}

theorem taken_of_contains
    (h : Encodes t R) {r : BlockRange} (hr : r ∈ R) {i : Nat}
    (hi : r.Contains i) (hlt : i < t.total) :
    heapGetEntryType (t.entries i) = blockTableEntryTaken := by
  rw [h.cell r hr i hi hlt, entryType_rangeEntry]

/-- Free blocks are the ones that lie in no range. -/
theorem freeBlock_iff (h : Encodes t R) {i : Nat} (hlt : i < t.total) :
    FreeBlock t i ↔ ∀ r ∈ R, ¬ r.Contains i := by
  constructor
  · intro hf r hr hi
    have htaken := h.taken_of_contains hr hi hlt
    rw [FreeBlock, htaken] at hf
    exact absurd hf (by decide)
  · intro hnone
    rw [FreeBlock, h.free i hlt hnone]
    rfl

/-- A fresh table encodes the empty set. -/
theorem empty (hz : ∀ i : Nat, i < t.total → t.entries i = blockTableEntryFree) :
    Encodes t ∅ where
  separated := Set.pairwise_empty _
  starts := by simp
  cell := by simp
  free := fun i hi _ => hz i hi

end Encodes

@[simp] theorem heapMarkBlocksTakenLoop_total (e : Int) :
    ∀ (n : Nat) (i : Int) (entry : BlockTableEntry) (t : HeapTable),
      (heapMarkBlocksTakenLoop e n i entry t).total = t.total
  | 0, _, _, _ => rfl
  | n + 1, i, entry, t => by
      rw [heapMarkBlocksTakenLoop, heapMarkBlocksTakenLoop_total e n]
      rfl

theorem mem_heapMarkBlocksTakenLoop_written (e : Int) (j : Int) :
    ∀ (n : Nat) (i : Int) (entry : BlockTableEntry) (t : HeapTable),
      j ∈ (heapMarkBlocksTakenLoop e n i entry t).written ↔
        (i ≤ j ∧ j < i + n) ∨ j ∈ t.written
  | 0, i, _, t => by
      have : ¬ (i ≤ j ∧ j < i + (0 : Nat)) := by omega
      simp only [heapMarkBlocksTakenLoop, this, false_or]
  | n + 1, i, entry, t => by
      rw [heapMarkBlocksTakenLoop, mem_heapMarkBlocksTakenLoop_written e j n,
        HeapTable.store_written, List.mem_cons]
      push_cast
      constructor
      · rintro (h | h | h)
        · exact Or.inl (by omega)
        · exact Or.inl (by omega)
        · exact Or.inr h
      · rintro (h | h)
        · by_cases hj : j = i
          · exact Or.inr (Or.inl hj)
          · exact Or.inl (by omega)
        · exact Or.inr (Or.inr h)

/-- The first entry written is `entry`; every later one carries `HAS_NEXT`
unless it is the last block. -/
theorem heapMarkBlocksTakenLoop_entries (e : Int) (j : Int) :
    ∀ (n : Nat) (i : Int) (entry : BlockTableEntry) (t : HeapTable),
      (heapMarkBlocksTakenLoop e n i entry t).entries j =
        if i ≤ j ∧ j < i + n then
          if j = i then entry
          else if j ≠ e then blockTableEntryTaken ||| blockHasNext
          else blockTableEntryTaken
        else t.entries j
  | 0, i, _, t => by
      have : ¬ (i ≤ j ∧ j < i + (0 : Nat)) := by omega
      rw [if_neg this, heapMarkBlocksTakenLoop]
  | n + 1, i, entry, t => by
      rw [heapMarkBlocksTakenLoop, heapMarkBlocksTakenLoop_entries e j n]
      push_cast
      by_cases hji : j = i
      · subst hji
        rw [if_neg (by omega), if_pos (by omega), if_pos rfl]
        simp
      · by_cases hin : i + 1 ≤ j ∧ j < i + 1 + n
        · have hin' : i ≤ j ∧ j < i + (n + 1) := by omega
          rw [if_pos hin, if_pos hin', if_neg hji]
          by_cases hj1 : j = i + 1
          · have hie : i ≠ e - 1 ↔ j ≠ e := by omega
            rw [if_pos hj1]
            simp only [hie]
          · rw [if_neg hj1]
        · have hin' : ¬ (i ≤ j ∧ j < i + (n + 1)) := by omega
          rw [if_neg hin, if_neg hin', HeapTable.store_entries_of_ne _ _ hji]

@[simp] theorem heapMarkBlocksTaken_total (heap : Heap) (s n : Int) :
    (heapMarkBlocksTaken heap s n).table.total = heap.table.total := by
  simp [heapMarkBlocksTaken]

@[simp] theorem heapMarkBlocksTaken_saddr (heap : Heap) (s n : Int) :
    (heapMarkBlocksTaken heap s n).saddr = heap.saddr :=
  rfl

theorem mem_heapMarkBlocksTaken_written (heap : Heap) (s : Int) (n : Nat) (j : Int) :
    j ∈ (heapMarkBlocksTaken heap s n).table.written ↔
      (s ≤ j ∧ j < s + n) ∨ j ∈ heap.table.written := by
  unfold heapMarkBlocksTaken
  rw [mem_heapMarkBlocksTakenLoop_written]
  have : ((s + n - 1 + 1 - s).toNat : Int) = n := by omega
  rw [this]

/-- The marked blocks read as the entries of the range, the others are kept. -/
theorem heapMarkBlocksTaken_entries (heap : Heap) (r : BlockRange) (j : Nat) :
    (heapMarkBlocksTaken heap r.start r.count).table.entries j =
      if r.Contains j then rangeEntry r j else heap.table.entries j := by
  have hpos := r.count_pos
  unfold heapMarkBlocksTaken
  rw [heapMarkBlocksTakenLoop_entries]
  have hn : (((r.start : Int) + r.count - 1 + 1 - r.start).toNat : Int) = r.count := by omega
  rw [hn]
  by_cases hc : r.Contains j
  · have hc' := hc
    simp only [BlockRange.Contains, BlockRange.stop] at hc'
    rw [if_pos hc, if_pos (by omega)]
    unfold rangeEntry BlockRange.stop
    by_cases hj : j = r.start
    · rw [if_pos (by omega), if_pos hj]
      by_cases hone : 1 < r.count
      · rw [if_pos (by omega), if_pos (by omega)]
      · rw [if_neg (by omega), if_neg (by omega)]
    · rw [if_neg (by omega), if_neg hj]
      by_cases hlast : j + 1 < r.start + r.count
      · rw [if_pos (by omega), if_pos hlast]
      · rw [if_neg (by omega), if_neg hlast]
  · have hc' := hc
    simp only [BlockRange.Contains, BlockRange.stop] at hc'
    rw [if_neg hc, if_neg (by omega)]

/-- Marking a run of blocks that lie in no range adds the range. -/
theorem Encodes.taken
    {heap : Heap} {R : Set BlockRange} (h : Encodes heap.table R)
    (r : BlockRange) (hstart : r.start < heap.table.total)
    (hapart : ∀ s ∈ R, r.Apart s) :
    Encodes (heapMarkBlocksTaken heap r.start r.count).table (insert r R) where
  separated := h.separated.insert_range hapart
  starts := by
    intro s hs
    rw [heapMarkBlocksTaken_total]
    rcases Set.mem_insert_iff.mp hs with rfl | hs
    · exact hstart
    · exact h.starts s hs
  cell := by
    intro s hs i hi hlt
    rw [heapMarkBlocksTaken_total] at hlt
    rw [heapMarkBlocksTaken_entries]
    rcases Set.mem_insert_iff.mp hs with rfl | hs
    · rw [if_pos hi]
    · rw [if_neg ((hapart s hs).not_contains hi)]
      exact h.cell s hs i hi hlt
  free := by
    intro i hlt hnone
    rw [heapMarkBlocksTaken_total] at hlt
    rw [heapMarkBlocksTaken_entries, if_neg (hnone r (Set.mem_insert r R))]
    exact h.free i hlt fun s hs => hnone s (Set.mem_insert_of_mem r hs)

@[simp] theorem heapMarkBlocksFreeLoop_total :
    ∀ (n : Nat) (i : Int) (t : HeapTable),
      (heapMarkBlocksFreeLoop n i t).total = t.total
  | 0, _, _ => rfl
  | n + 1, i, t => by
      unfold heapMarkBlocksFreeLoop
      by_cases h : t.entries i &&& blockHasNext = 0
      · simp [h]
      · simp only [h, if_false]
        rw [heapMarkBlocksFreeLoop_total n]
        rfl

/-- The entries below the first block are left alone. -/
theorem heapMarkBlocksFreeLoop_below {j : Int} :
    ∀ (n : Nat) (i : Int) (t : HeapTable),
      j < i → (heapMarkBlocksFreeLoop n i t).entries j = t.entries j
  | 0, _, _, _ => rfl
  | n + 1, i, t, hj => by
      rw [heapMarkBlocksFreeLoop]
      split_ifs
      · exact HeapTable.store_entries_of_ne _ _ (by omega)
      · rw [heapMarkBlocksFreeLoop_below n (i + 1) _ (by omega)]
        exact HeapTable.store_entries_of_ne _ _ (by omega)

/-- Nothing changes if and only if the first entry is `FREE`. -/
theorem heapMarkBlocksFreeLoop_unchanged_iff (n : Nat) (i : Int) (t : HeapTable) :
    (heapMarkBlocksFreeLoop (n + 1) i t).entries = t.entries ↔
      t.entries i = blockTableEntryFree := by
  rw [heapMarkBlocksFreeLoop]
  constructor
  · intro h
    rw [← h]
    split_ifs
    · exact HeapTable.store_entries_same _ _ _
    · rw [heapMarkBlocksFreeLoop_below n (i + 1) _ (by omega), HeapTable.store_entries_same]
  · intro h
    rw [if_pos (by rw [h]; rfl), HeapTable.store, ← h]
    exact Function.update_eq_self i t.entries

/-- The `m` entries from `i` on are cleared, and nothing else is stored. -/
structure FreesEntries (t : HeapTable) (i : Int) (m : Nat) (t' : HeapTable) : Prop where
  entries : ∀ j, t'.entries j = if i ≤ j ∧ j < i + m then blockTableEntryFree else t.entries j
  written : ∀ j, j ∈ t'.written ↔ (i ≤ j ∧ j < i + m) ∨ j ∈ t.written

theorem FreesEntries.one (t : HeapTable) (i : Int) :
    FreesEntries t i 1 (t.store i blockTableEntryFree) := by
  have hone (j : Int) : i ≤ j ∧ j < i + (1 : Nat) ↔ j = i := by omega
  refine ⟨fun j => ?_, fun j => ?_⟩
  · simp only [hone]
    split_ifs with hj
    · rw [hj, HeapTable.store_entries_same]
    · exact HeapTable.store_entries_of_ne _ _ hj
  · rw [hone, HeapTable.store_written, List.mem_cons]

theorem FreesEntries.cons
    {t t' : HeapTable} {i : Int} {m : Nat}
    (h : FreesEntries (t.store i blockTableEntryFree) (i + 1) m t') :
    FreesEntries t i (m + 1) t' := by
  refine ⟨fun j => ?_, fun j => ?_⟩
  · rw [h.entries j]
    by_cases hj : j = i
    · rw [hj, if_neg (by omega), if_pos (by omega), HeapTable.store_entries_same]
    · rw [HeapTable.store_entries_of_ne _ _ hj]
      by_cases hin : i + 1 ≤ j ∧ j < i + 1 + m
      · rw [if_pos hin, if_pos (by omega)]
      · rw [if_neg hin, if_neg (by omega)]
  · rw [h.written j, HeapTable.store_written, List.mem_cons]
    constructor
    · rintro (h | h | h)
      · exact Or.inl (by omega)
      · exact Or.inl (by omega)
      · exact Or.inr h
    · rintro (h | h)
      · by_cases hj : j = i
        · exact Or.inr (Or.inl hj)
        · exact Or.inl (by omega)
      · exact Or.inr (Or.inr h)

/-- When the entries from `i` on carry `HAS_NEXT` up to the `m`-th, and the
`m`-th ends the chain or the table, the loop clears exactly these `m`. -/
theorem heapMarkBlocksFreeLoop_spec
    {m n : Nat} {i : Int} {t : HeapTable} (hm : 0 < m) (hmn : m ≤ n)
    (hnext : ∀ j, i ≤ j → j + 1 < i + m → t.entries j &&& blockHasNext ≠ 0)
    (hlast : m < n → t.entries (i + m - 1) &&& blockHasNext = 0) :
    FreesEntries t i m (heapMarkBlocksFreeLoop n i t) := by
  induction n generalizing m i t with
  | zero => omega
  | succ n ih =>
      obtain ⟨m, rfl⟩ := Nat.exists_eq_succ_of_ne_zero (Nat.ne_of_gt hm)
      rw [heapMarkBlocksFreeLoop]
      by_cases hone : m = 0
      · subst hone
        split_ifs with hcar
        · exact FreesEntries.one t i
        · have hn : n = 0 := by
            by_contra hn
            have hend := hlast (by omega)
            rw [show i + ((Nat.succ 0 : Nat) : Int) - 1 = i by omega] at hend
            exact hcar hend
          rw [hn, heapMarkBlocksFreeLoop]
          exact FreesEntries.one t i
      · rw [if_neg (hnext i (by omega) (by omega))]
        refine FreesEntries.cons (ih (by omega) (by omega) (fun j hj hj' => ?_) fun hlt => ?_)
        · rw [HeapTable.store_entries_of_ne _ _ (by omega)]
          exact hnext j (by omega) (by omega)
        · have hend := hlast (by omega)
          rw [HeapTable.store_entries_of_ne _ _ (by omega)]
          rwa [show i + ((Nat.succ m : Nat) : Int) - 1 = i + 1 + m - 1 by omega] at hend

/-- The blocks of a range that lie inside the table. -/
def tableCount (total : Nat) (r : BlockRange) : Nat :=
  min r.count (total - r.start)

@[simp] theorem heapMarkBlocksFree_total (heap : Heap) (s : Int) :
    (heapMarkBlocksFree heap s).table.total = heap.table.total := by
  simp [heapMarkBlocksFree]

/-- Freeing at the first block of a range clears the blocks of the range that
lie inside the table, and stores nowhere else. -/
theorem Encodes.heapMarkBlocksFree_spec
    {heap : Heap} {R : Set BlockRange} (h : Encodes heap.table R)
    (hint : IsInt heap.table.total) {r : BlockRange} (hr : r ∈ R) :
    FreesEntries heap.table r.start (tableCount heap.table.total r)
      (heapMarkBlocksFree heap r.start).table := by
  have hstart := h.starts r hr
  have hpos := r.count_pos
  have hcell : ∀ i : Nat, r.Contains i → i < heap.table.total →
      heap.table.entries i = rangeEntry r i := h.cell r hr
  unfold heapMarkBlocksFree
  have hn : (toInt heap.table.total - r.start).toNat = heap.table.total - r.start := by
    rw [toInt_of_isInt hint]
    omega
  rw [hn]
  apply heapMarkBlocksFreeLoop_spec
  · unfold tableCount
    omega
  · unfold tableCount
    omega
  · intro j hj hj'
    unfold tableCount at hj'
    obtain ⟨i, rfl⟩ : ∃ i : Nat, j = i := ⟨j.toNat, by omega⟩
    rw [hcell i ⟨by omega, by simp only [BlockRange.stop]; omega⟩ (by omega)]
    intro hzero
    have := (hasNext_rangeEntry r i).mp hzero
    simp only [BlockRange.stop] at this
    omega
  · intro hlt
    unfold tableCount at hlt ⊢
    have hlast : (r.start : Int) + (min r.count (heap.table.total - r.start) : Nat) - 1 =
        ((r.start + r.count - 1 : Nat) : Int) := by
      omega
    rw [hlast, hcell (r.start + r.count - 1)
      ⟨by omega, by simp only [BlockRange.stop]; omega⟩ (by omega)]
    rw [hasNext_rangeEntry]
    simp only [BlockRange.stop]
    omega

/-- Freeing at the first block of a range removes the range. -/
theorem Encodes.freed
    {heap : Heap} {R : Set BlockRange} (h : Encodes heap.table R)
    (hint : IsInt heap.table.total) {r : BlockRange} (hr : r ∈ R) :
    Encodes (heapMarkBlocksFree heap r.start).table (R \ {r}) where
  separated := h.separated.remove_range r
  starts := by
    intro s hs
    rw [heapMarkBlocksFree_total]
    exact h.starts s hs.1
  cell := by
    intro s hs i hi hlt
    rw [heapMarkBlocksFree_total] at hlt
    have hne : r ≠ s := fun heq => hs.2 heq.symm
    have hnot := (h.separated hr hs.1 hne).not_contains hi
    rw [(h.heapMarkBlocksFree_spec hint hr).1, if_neg]
    · exact h.cell s hs.1 i hi hlt
    · intro hin
      apply hnot
      simp only [BlockRange.Contains, BlockRange.stop, tableCount] at hin ⊢
      omega
  free := by
    intro i hlt hnone
    rw [heapMarkBlocksFree_total] at hlt
    rw [(h.heapMarkBlocksFree_spec hint hr).1]
    split_ifs with hin
    · rfl
    · apply h.free i hlt
      intro s hs hi
      by_cases hsr : s = r
      · subst hsr
        apply hin
        simp only [BlockRange.Contains, BlockRange.stop, tableCount] at hi ⊢
        omega
      · exact hnone s ⟨hs, hsr⟩ hi

@[simp] theorem heapFree_total (heap : Heap) (ptr : Ptr) :
    (heapFree heap ptr).table.total = heap.table.total :=
  heapMarkBlocksFree_total heap _

@[simp] theorem heapMalloc_total (heap : Heap) (size : Word) :
    (heapMalloc heap size).2.table.total = heap.table.total := by
  rw [heapMalloc, heapMallocBlocks]
  split_ifs
  · rfl
  · exact heapMarkBlocksTaken_total heap _ _

@[simp] theorem heapMalloc_saddr (heap : Heap) (size : Word) :
    (heapMalloc heap size).2.saddr = heap.saddr := by
  rw [heapMalloc, heapMallocBlocks]
  split_ifs <;> rfl

/-- What the search has established when it is about to look at entry `i`:
no run ends before `i`, and the free blocks right before `i` are the `bc`
blocks from `bs` on. -/
structure SearchState (t : HeapTable) (n i bc : Nat) (bs : Int) : Prop where
  noRun : ∀ s, s + n ≤ i → ¬ FreeRun t n s
  short : bc < n
  start : (bs = -1 ∧ bc = 0) ∨ (bs = (i - bc : Nat) ∧ 0 < bc)
  within : bc ≤ i
  free : ∀ j, i - bc ≤ j → j < i → FreeBlock t j
  edge : i - bc = 0 ∨ ¬ FreeBlock t (i - bc - 1)

/-- A request of at least one block: nothing found, a first fit, or a start of
free blocks at the end of the table that are fewer than asked for. -/
inductive SearchResult (t : HeapTable) (n : Nat) : Int → Prop
  | none (hno : ∀ s, ¬ FreeRun t n s)
      (hend : t.total = 0 ∨ ¬ FreeBlock t (t.total - 1)) :
      SearchResult t n (-1)
  | fit (s : Nat) (hrun : FreeRun t n s) (hfirst : ∀ s' < s, ¬ FreeRun t n s') :
      SearchResult t n s
  | short (s : Nat) (hlt : s < t.total) (hover : t.total < s + n)
      (hfree : ∀ i, s ≤ i → i < t.total → FreeBlock t i)
      (hno : ∀ s', ¬ FreeRun t n s') :
      SearchResult t n s

namespace SearchState

variable {t : HeapTable} {n i bc : Nat} {bs : Int}

/-- Where the run of free blocks that the search is in starts. -/
theorem start_eq (st : SearchState t n i bc bs) :
    (if bs = -1 then (i : Int) else bs) = (i - bc : Nat) := by
  have hw := st.within
  rcases st.start with ⟨rfl, rfl⟩ | ⟨rfl, hbc⟩
  · simp
  · rw [if_neg (by omega)]

/-- A free entry extends the running run. -/
theorem free_succ (st : SearchState t n i bc bs) (hfree : FreeBlock t i) :
    ∀ j, i - bc ≤ j → j < i + 1 → FreeBlock t j := by
  intro j hj hj'
  by_cases hji : j = i
  · exact hji ▸ hfree
  · exact st.free j hj (by omega)

/-- No run of enough blocks starts before the running one. -/
theorem noRun_before (st : SearchState t n i bc bs) {s : Nat} (hle : s + n ≤ i + 1)
    (hlt : s < i - bc) : ¬ FreeRun t n s := by
  intro hr
  by_cases hold : s + n ≤ i
  · exact st.noRun s hold hr
  · rcases st.edge with h | h
    · omega
    · exact h (hr.2 (i - bc - 1) (by omega) (by omega))

theorem extend (st : SearchState t n i bc bs) (hfree : FreeBlock t i) (hne : bc + 1 ≠ n) :
    SearchState t n (i + 1) (bc + 1) (i - bc : Nat) := by
  have hw := st.within
  have hs := st.short
  have hi : i + 1 - (bc + 1) = i - bc := by omega
  refine ⟨fun s hle => st.noRun_before hle (by omega), by omega, Or.inr ⟨by rw [hi], by omega⟩,
    by omega, ?_, ?_⟩
  · rw [hi]
    exact st.free_succ hfree
  · rw [hi]
    exact st.edge

/-- A taken entry resets the count and the start. -/
theorem reset (st : SearchState t n i bc bs) (htaken : ¬ FreeBlock t i) :
    SearchState t n (i + 1) 0 (-1) := by
  have hs := st.short
  refine ⟨fun s hle hr => ?_, by omega, Or.inl ⟨rfl, rfl⟩, by omega, fun j hj hj' => by omega,
    Or.inr (by simpa using htaken)⟩
  by_cases hold : s + n ≤ i
  · exact st.noRun s hold hr
  · exact htaken (hr.2 i (by omega) (by omega))

/-- The running run has become long enough. -/
theorem fit (st : SearchState t n i bc bs) (hfree : FreeBlock t i) (hdone : bc + 1 = n)
    (hi : i < t.total) : SearchResult t n (i - bc : Nat) := by
  have hw := st.within
  refine SearchResult.fit (i - bc)
    ⟨by omega, fun j hj hj' => st.free_succ hfree j hj (by omega)⟩ fun s hlt => ?_
  exact st.noRun_before (by omega) hlt

/-- The end of the table. -/
theorem finish (st : SearchState t n i bc bs) (hi : i = t.total) : SearchResult t n bs := by
  have hw := st.within
  have hs := st.short
  have hno : ∀ s, ¬ FreeRun t n s := by
    intro s hr
    exact st.noRun s (by have := hr.1; omega) hr
  rcases st.start with ⟨rfl, rfl⟩ | ⟨rfl, hbc⟩
  · refine SearchResult.none hno ?_
    rcases st.edge with hedge | hedge
    · exact Or.inl (by omega)
    · exact Or.inr (hi ▸ hedge)
  · exact SearchResult.short (i - bc) (by omega) (by omega)
      (fun j hj hj' => st.free j hj (by omega)) hno

end SearchState

theorem heapGetStartBlockLoop_result
    {t : HeapTable} {n m i bc : Nat} {bs : Int} (hm : i + m = t.total)
    (st : SearchState t n i bc bs) :
    SearchResult t n (heapGetStartBlockLoop t n m i bc bs) := by
  induction m generalizing i bc bs with
  | zero => exact st.finish hm
  | succ m ih =>
      rw [heapGetStartBlockLoop]
      by_cases hfree : FreeBlock t i
      · have hif : ¬ heapGetEntryType (t.entries i) ≠ blockTableEntryFree := not_not.mpr hfree
        rw [if_neg hif]
        dsimp only
        rw [st.start_eq]
        by_cases hdone : bc + 1 = n
        · rw [if_pos hdone]
          exact st.fit hfree hdone (by omega)
        · rw [if_neg hdone]
          exact ih (by omega) (st.extend hfree hdone)
      · have hif : heapGetEntryType (t.entries i) ≠ blockTableEntryFree := hfree
        rw [if_pos hif]
        exact ih (by omega) (st.reset hfree)

/-- What `heap_get_start_block` returns for a request of at least one block. -/
theorem heapGetStartBlock_cases (heap : Heap) {n : Nat} (hn : 0 < n) :
    (heapGetStartBlock heap n = -enomem ∧ (∀ s, ¬ FreeRun heap.table n s) ∧
      (heap.table.total = 0 ∨ ¬ FreeBlock heap.table (heap.table.total - 1))) ∨
    (∃ s : Nat, heapGetStartBlock heap n = s ∧ FreeRun heap.table n s ∧
      ∀ s' < s, ¬ FreeRun heap.table n s') ∨
    (∃ s : Nat, heapGetStartBlock heap n = s ∧ s < heap.table.total ∧
      heap.table.total < s + n ∧
      (∀ i, s ≤ i → i < heap.table.total → FreeBlock heap.table i) ∧
      ∀ s', ¬ FreeRun heap.table n s') := by
  have hres : SearchResult heap.table n
      (heapGetStartBlockLoop heap.table n heap.table.total 0 0 (-1)) := by
    apply heapGetStartBlockLoop_result (by omega)
    exact
      { noRun := by
          intro s hle
          omega
        short := hn
        start := Or.inl ⟨rfl, rfl⟩
        within := by omega
        free := by
          intro j hj hj'
          omega
        edge := Or.inl rfl }
  unfold heapGetStartBlock
  generalize heapGetStartBlockLoop heap.table n heap.table.total 0 0 (-1) = bs at hres
  cases hres with
  | none hno hend => exact Or.inl ⟨by simp, hno, hend⟩
  | fit s hrun hfirst =>
      refine Or.inr (Or.inl ⟨s, ?_, hrun, hfirst⟩)
      simp only
      rw [if_neg (by omega)]
  | short s hlt hover hfree hno =>
      refine Or.inr (Or.inr ⟨s, ?_, hlt, hover, hfree, hno⟩)
      simp only
      rw [if_neg (by omega)]

end PeachOS
