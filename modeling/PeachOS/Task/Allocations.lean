import PeachOS.Task.ProcessMemory

/-!
# The allocations of a process

What a process owns at any time, through its record, its task and its page
directory, and what `process_malloc` and `process_free` make of it.
-/

namespace PeachOS

open Lib

/-- The blocks that the entries `is` point to. -/
def allocatedIn (record : ProcessRecord) (is : List Nat) : List Ptr :=
  (is.map fun i => (record.allocations i).ptr).filter (· ≠ 0)

/-- The allocations that are live. -/
def allocated (record : ProcessRecord) : List Ptr :=
  allocatedIn record (List.range maxProgramAllocations)

theorem mem_allocated
    {record : ProcessRecord} {p : Ptr} :
    p ∈ allocated record ↔
      ∃ i < maxProgramAllocations, (record.allocations i).ptr = p ∧ p ≠ 0 := by
  rw [allocated, allocatedIn, List.mem_filter, List.mem_map]
  simp only [List.mem_range, ne_eq, decide_eq_true_eq]
  constructor
  · rintro ⟨⟨i, hi, hp⟩, h0⟩
    exact ⟨i, hi, hp, h0⟩
  · rintro ⟨i, hi, hp, h0⟩
    exact ⟨⟨i, hi, hp⟩, h0⟩

theorem length_allocated_le
    (record : ProcessRecord) :
    (allocated record).length ≤ maxProgramAllocations := by
  refine (List.length_filter_le _ _).trans ?_
  rw [List.length_map, List.length_range]

/-- Entries that have not changed. -/
theorem allocatedIn_congr
    {record record' : ProcessRecord} {is : List Nat}
    (h : ∀ i ∈ is, (record'.allocations i).ptr = (record.allocations i).ptr) :
    allocatedIn record' is = allocatedIn record is := by
  rw [allocatedIn, allocatedIn, List.map_congr_left h]

theorem allocatedIn_cons
    (record : ProcessRecord) (i : Nat) (is : List Nat) :
    allocatedIn record (i :: is) =
      if (record.allocations i).ptr = 0 then allocatedIn record is
      else (record.allocations i).ptr :: allocatedIn record is := by
  rw [allocatedIn, List.map_cons, List.filter_cons]
  split_ifs with hfilter h0 h0
  · exact absurd h0 (of_decide_eq_true hfilter)
  · rfl
  · rfl
  · exact absurd (decide_eq_true h0) hfilter

/-- One entry in front of the others. -/
theorem allocated_perm
    (record : ProcessRecord) {i : Nat} (hi : i < maxProgramAllocations) :
    (allocated record).Perm
      (allocatedIn record (i :: (List.range maxProgramAllocations).erase i)) := by
  rw [allocated, allocatedIn, allocatedIn]
  exact ((List.perm_cons_erase (List.mem_range.mpr hi)).map _).filter _

/-- An entry that was free is used. -/
theorem allocated_use
    {record : ProcessRecord} {i : Nat} (hi : i < maxProgramAllocations)
    (hfree : (record.allocations i).ptr = 0) {p : Ptr} (hp : p ≠ 0) (size : Word) :
    (allocated { record with
      allocations := fun j => if j = i then ⟨p, size⟩ else record.allocations j }).Perm
      (p :: allocated record) := by
  let record' := { record with
    allocations := fun j => if j = i then (⟨p, size⟩ : ProcessAllocation) else record.allocations j }
  have hself : record'.allocations i = ⟨p, size⟩ := if_pos rfl
  have hothers : allocatedIn record' ((List.range maxProgramAllocations).erase i) =
      allocatedIn record ((List.range maxProgramAllocations).erase i) := by
    refine allocatedIn_congr fun j hj => ?_
    have hne : j ≠ i := ((List.nodup_range).mem_erase_iff.mp hj).1
    exact congrArg ProcessAllocation.ptr (if_neg hne)
  have hbefore := allocated_perm record hi
  have hafter := allocated_perm record' hi
  rw [allocatedIn_cons, if_pos hfree] at hbefore
  rw [allocatedIn_cons, hself, if_neg hp, hothers] at hafter
  exact hafter.trans (hbefore.symm.cons p)

/-- The entries of a block are cleared. -/
theorem allocated_unjoin
    (record : ProcessRecord) (p : Ptr) :
    allocated (Kernel.processAllocationUnjoin record p) = (allocated record).filter (· ≠ p) := by
  rw [allocated, allocated]
  induction List.range maxProgramAllocations with
  | nil => rfl
  | cons i is ih =>
      rw [allocatedIn_cons, allocatedIn_cons, ih]
      by_cases hp : (record.allocations i).ptr = p
      · have hentry : (Kernel.processAllocationUnjoin record p).allocations i = ⟨0, 0⟩ := if_pos hp
        rw [hentry, if_pos rfl]
        split_ifs with h0
        · rfl
        · rw [List.filter_cons_of_neg (by simp [hp])]
      · have hentry : (Kernel.processAllocationUnjoin record p).allocations i =
            record.allocations i := if_neg hp
        rw [hentry]
        split_ifs with h0
        · rfl
        · rw [List.filter_cons_of_pos (by simp [hp])]

/-- A block that is live is no longer. -/
theorem allocated_unjoin_perm
    {record : ProcessRecord} {p : Ptr} (hnodup : (allocated record).Nodup)
    (hp : p ∈ allocated record) :
    (allocated record).Perm (p :: allocated (Kernel.processAllocationUnjoin record p)) := by
  have herase :
      allocated (Kernel.processAllocationUnjoin record p) = (allocated record).erase p := by
    rw [allocated_unjoin, hnodup.erase_eq_filter]
    refine List.filter_congr fun q _ => ?_
    rw [Bool.eq_iff_iff]
    simp
  rw [herase]
  exact List.perm_cons_erase hp

namespace Kernel

theorem processFindFreeAllocationIndex_some
    {record : ProcessRecord} {i : Nat} (h : processFindFreeAllocationIndex record = some i) :
    i < maxProgramAllocations ∧ (record.allocations i).ptr = 0 := by
  rw [processFindFreeAllocationIndex] at h
  have hmem := List.mem_of_find?_eq_some h
  have hfree := List.find?_some h
  rw [List.mem_range] at hmem
  exact ⟨hmem, of_decide_eq_true hfree⟩

/-- Without a free entry all of them are in use. -/
theorem processFindFreeAllocationIndex_none
    {record : ProcessRecord} (h : processFindFreeAllocationIndex record = none) :
    (allocated record).length = maxProgramAllocations := by
  have hused (i : Nat) (hi : i ∈ List.range maxProgramAllocations) :
      (record.allocations i).ptr ≠ 0 := fun h0 =>
    absurd (decide_eq_true h0) (List.find?_eq_none.mp h i hi)
  rw [allocated, allocatedIn, List.filter_eq_self.mpr, List.length_map, List.length_range]
  intro p hp
  obtain ⟨i, hi, rfl⟩ := List.mem_map.mp hp
  exact decide_eq_true (hused i hi)

theorem processGetAllocationByAddr_some
    {record : ProcessRecord} {addr : Ptr} {allocation : ProcessAllocation}
    (h : processGetAllocationByAddr record addr = some allocation) :
    ∃ i < maxProgramAllocations, record.allocations i = allocation ∧ allocation.ptr = addr := by
  obtain ⟨i, hi, rfl⟩ := Option.map_eq_some_iff.mp h
  have hmem := List.mem_of_find?_eq_some hi
  have haddr := List.find?_some hi
  rw [List.mem_range] at hmem
  exact ⟨i, hmem, rfl, of_decide_eq_true haddr⟩

theorem processGetAllocationByAddr_none
    {record : ProcessRecord} {addr : Ptr} (h : processGetAllocationByAddr record addr = none)
    {i : Nat} (hi : i < maxProgramAllocations) :
    (record.allocations i).ptr ≠ addr := by
  rw [processGetAllocationByAddr, Option.map_eq_none_iff] at h
  exact fun heq => absurd (List.find?_eq_none.mp h i (List.mem_range.mpr hi))
    (not_not.mpr (decide_eq_true heq))

end Kernel

end PeachOS
