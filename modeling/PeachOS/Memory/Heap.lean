import PeachOS.Config
import PeachOS.Lib.CInt
import Mathlib.Logic.Function.Basic
import Mathlib.Tactic.Common

/-!
# The kernel heap (`memory/heap/heap.c`)

The heap hands out runs of 4096-byte blocks and records them in a table with
one byte for each block.  The table is an array in kernel memory without bounds
checks, so `entries` is defined at every index, negative ones and ones past
`total` included: these are the bytes around the table.  `written` records the
indices that have been stored to, newest first; no function reads it.

A definition that models a function of the source bears its name in camel case;
a loop of the source is a definition of its own, with `Loop` after the name.
-/

namespace PeachOS

open Lib

abbrev BlockTableEntry := Byte

def blockTableEntryTaken : BlockTableEntry := 0x01

def blockTableEntryFree : BlockTableEntry := 0x00

def blockHasNext : BlockTableEntry := 0b10000000

def blockIsFirst : BlockTableEntry := 0b01000000

structure HeapTable where
  entries : Int → BlockTableEntry
  total : Nat
  written : List Int

/-- The assignment `table->entries[i] = entry`. -/
def HeapTable.store (t : HeapTable) (i : Int) (entry : BlockTableEntry) : HeapTable :=
  { t with
    entries := Function.update t.entries i entry
    written := i :: t.written }

structure Heap where
  table : HeapTable
  saddr : Ptr

/-- `memset(table->entries, c, size)`. -/
def memsetEntries (c : BlockTableEntry) : Nat → HeapTable → HeapTable
  | 0, t => t
  | size + 1, t => (memsetEntries c size t).store size c

def heapValidateTable (ptr stop : Ptr) (table : HeapTable) : Int :=
  let tableSize := stop - ptr
  let totalBlocks := tableSize.toNat / heapBlockSize
  if table.total ≠ totalBlocks then -einvarg else 0

def heapValidateAlignment (ptr : Ptr) : Bool :=
  ptr.toNat % heapBlockSize = 0

/-- `heap_create`: the result code, and the heap record after the call. -/
def heapCreate (heap : Heap) (ptr stop : Ptr) (table : HeapTable) : Int × Heap :=
  if !heapValidateAlignment ptr || !heapValidateAlignment stop then
    (-einvarg, heap)
  else
    let heap : Heap := { table := table, saddr := ptr }
    let res := heapValidateTable ptr stop table
    if res < 0 then (res, heap)
    else (res, { heap with table := memsetEntries blockTableEntryFree table.total table })

def heapAlignValueToUpper (val : Word) : Word :=
  if val % 4096 = 0 then val else val - val % 4096 + 4096

def heapGetEntryType (entry : BlockTableEntry) : BlockTableEntry :=
  entry &&& 0x0f

/-- The loop of `heap_get_start_block` at index `i` with `n` entries to go, the
running count `bc` and the running start `bs`. -/
def heapGetStartBlockLoop (table : HeapTable) (totalBlocks : Nat) :
    Nat → Nat → Nat → Int → Int
  | 0, _, _, bs => bs
  | n + 1, i, bc, bs =>
      if heapGetEntryType (table.entries i) ≠ blockTableEntryFree then
        heapGetStartBlockLoop table totalBlocks n (i + 1) 0 (-1)
      else
        -- if this is first block
        let bs : Int := if bs = -1 then i else bs
        let bc := bc + 1
        if bc = totalBlocks then bs
        else heapGetStartBlockLoop table totalBlocks n (i + 1) bc bs

def heapGetStartBlock (heap : Heap) (totalBlocks : Nat) : Int :=
  let bs := heapGetStartBlockLoop heap.table totalBlocks heap.table.total 0 0 (-1)
  if bs = -1 then -enomem else bs

/-- The product of the source is an `int`; where it is too large for one, here it
wraps. -/
def heapBlockToAddress (heap : Heap) (block : Int) : Ptr :=
  heap.saddr + BitVec.ofInt 32 (block * heapBlockSize)

/-- The loop of `heap_mark_blocks_taken` at index `i` with `n` blocks to go. -/
def heapMarkBlocksTakenLoop (endBlock : Int) :
    Nat → Int → BlockTableEntry → HeapTable → HeapTable
  | 0, _, _, t => t
  | n + 1, i, entry, t =>
      heapMarkBlocksTakenLoop endBlock n (i + 1)
        (if i ≠ endBlock - 1 then blockTableEntryTaken ||| blockHasNext
          else blockTableEntryTaken)
        (t.store i entry)

def heapMarkBlocksTaken (heap : Heap) (startBlock totalBlocks : Int) : Heap :=
  let endBlock := startBlock + totalBlocks - 1
  let entry := blockTableEntryTaken ||| blockIsFirst
  let entry := if totalBlocks > 1 then entry ||| blockHasNext else entry
  { heap with
    table := heapMarkBlocksTakenLoop endBlock (endBlock + 1 - startBlock).toNat
      startBlock entry heap.table }

def heapMallocBlocks (heap : Heap) (totalBlocks : Nat) : Ptr × Heap :=
  let startBlock := heapGetStartBlock heap totalBlocks
  if startBlock < 0 then (0, heap)
  else
    (heapBlockToAddress heap startBlock, heapMarkBlocksTaken heap startBlock totalBlocks)

/-- The loop of `heap_mark_blocks_free` at index `i` with `n` entries to go. -/
def heapMarkBlocksFreeLoop : Nat → Int → HeapTable → HeapTable
  | 0, _, t => t
  | n + 1, i, t =>
      let entry := t.entries i
      let t := t.store i blockTableEntryFree
      if entry &&& blockHasNext = 0 then t
      else heapMarkBlocksFreeLoop n (i + 1) t

def heapMarkBlocksFree (heap : Heap) (startingBlock : Int) : Heap :=
  { heap with
    table := heapMarkBlocksFreeLoop (toInt heap.table.total - startingBlock).toNat
      startingBlock heap.table }

def heapAddressToBlock (heap : Heap) (address : Ptr) : Int :=
  (address - heap.saddr).toInt.tdiv heapBlockSize

/-- The number of blocks that `heap_malloc` asks for. -/
def heapTotalBlocks (size : Word) : Nat :=
  (heapAlignValueToUpper size).toNat / heapBlockSize

def heapMalloc (heap : Heap) (size : Word) : Ptr × Heap :=
  heapMallocBlocks heap (heapTotalBlocks size)

def heapFree (heap : Heap) (ptr : Ptr) : Heap :=
  heapMarkBlocksFree heap (heapAddressToBlock heap ptr)

namespace HeapTable

@[simp] theorem store_total (t : HeapTable) (i : Int) (e : BlockTableEntry) :
    (t.store i e).total = t.total :=
  rfl

@[simp] theorem store_written (t : HeapTable) (i : Int) (e : BlockTableEntry) :
    (t.store i e).written = i :: t.written :=
  rfl

@[simp] theorem store_entries_same (t : HeapTable) (i : Int) (e : BlockTableEntry) :
    (t.store i e).entries i = e := by
  simp [store]

theorem store_entries_of_ne (t : HeapTable) {i j : Int} (e : BlockTableEntry)
    (h : j ≠ i) : (t.store i e).entries j = t.entries j := by
  simp [store, h]

end HeapTable

/-- A size from 1 to `0xFFFFF000` is rounded up to whole blocks without
wrapping. -/
theorem heapTotalBlocks_eq {size : Word} (h : size.toNat ≤ 0xFFFFF000) :
    heapTotalBlocks size = (size.toNat + 4095) / 4096 := by
  unfold heapTotalBlocks heapAlignValueToUpper heapBlockSize
  have hmod : (size % 4096).toNat = size.toNat % 4096 := by simp [BitVec.toNat_umod]
  split
  · rename_i hz
    have : size.toNat % 4096 = 0 := by rw [← hmod, hz]; rfl
    omega
  · rename_i hz
    have hne : size.toNat % 4096 ≠ 0 := by
      intro h0
      exact hz (BitVec.eq_of_toNat_eq (by rw [hmod, h0]; rfl))
    have hsub : (size - size % 4096 + 4096).toNat = size.toNat - size.toNat % 4096 + 4096 := by
      rw [BitVec.toNat_add, BitVec.toNat_sub, hmod]
      have := size.isLt
      have h4096 : (4096 : Word).toNat = 4096 := rfl
      omega
    rw [hsub]
    omega

/-- The block count is zero exactly for size zero and for the sizes that wrap. -/
theorem heapTotalBlocks_eq_zero_iff (size : Word) :
    heapTotalBlocks size = 0 ↔ size = 0 ∨ 0xFFFFF000 < size.toNat := by
  by_cases h : size.toNat ≤ 0xFFFFF000
  · rw [heapTotalBlocks_eq h]
    constructor
    · intro h0
      exact Or.inl (BitVec.eq_of_toNat_eq (by simp; omega))
    · rintro (rfl | h')
      · simp
      · omega
  · refine ⟨fun _ => Or.inr (by omega), fun _ => ?_⟩
    unfold heapTotalBlocks heapAlignValueToUpper heapBlockSize
    have hlt := size.isLt
    have hmod : (size % 4096).toNat = size.toNat % 4096 := by simp [BitVec.toNat_umod]
    have hne : size % 4096 ≠ 0 := by
      intro h0
      rw [h0] at hmod
      simp at hmod
      omega
    have h4096 : (4096 : Word).toNat = 4096 := rfl
    rw [if_neg hne, BitVec.toNat_add, BitVec.toNat_sub, hmod]
    omega

end PeachOS
