import PeachOS.Memory.FirstFit
import PeachOS.Task.Allocations

/-!
# Processes on the heap of the kernel

The system calls malloc and free over the table of `heap.c`.  What a process
owns is in its own table of allocations, and what is taken is in the table of
the heap.  The two agree as long as every request needs a block
(`userRun_releasesOwn`): a request that needs none is answered with a block that
stays free.
-/

namespace PeachOS

open Lib

/-- The heap, the processes with their directories, and what the kernel itself
has allocated.  `received` remembers the pointers that malloc has returned to a
process; no call reads it. -/
structure HeapUsers where
  heap : Heap
  mem : Pages
  records : Ptr → Option ProcessRecord
  directories : Ptr → Option Ptr
  kernel : List Allocation
  received : Ptr → List Ptr

namespace HeapUsers

/-- A request that is too large can be granted a run that is too short for it, or no
block at all.  The source zeroes its bytes and marks its blocks all the same: here
that changes `mem` and the table, behind its end too, and not the records or the
code that the bytes belong to. -/
def kzalloc (s : HeapUsers) (size : Word) : Ptr × HeapUsers :=
  let (ptr, heap) := heapMalloc s.heap size
  if ptr = 0 then
    (0, { s with heap := heap })
  else
    (ptr,
      { s with heap := heap, mem := Pages.ofBytes (fill s.mem.bytes ptr 0 size.toNat) })

def kfree (s : HeapUsers) (ptr : Ptr) : HeapUsers :=
  { s with heap := heapFree s.heap ptr }

def setRecord (s : HeapUsers) (process : Ptr) (record : ProcessRecord) : HeapUsers :=
  { s with records := fun q => if q = process then some record else s.records q }

def processMalloc (s : HeapUsers) (process : Ptr) (size : Word) :
    Except Halt (Ptr × HeapUsers) := do
  let (ptr, s) := s.kzalloc size
  if ptr = 0 then
    pure (0, s)
  else
    let record ← follow s.records process
    match Kernel.processFindFreeAllocationIndex record with
    | none => pure (0, s.kfree ptr)
    | some index =>
        let directory ← follow s.directories process
        let (_, mem) := pagingMapTo s.mem directory ptr ptr (pagingIsAllignedAddress (ptr + size))
          (pagingIsWriteable ||| pagingIsPresent ||| pagingAccessFromAll)
        pure (ptr,
          { s with mem := mem }.setRecord process
            { record with
              allocations := fun i =>
                if i = index then ⟨ptr, size⟩ else record.allocations i })

def processFree (s : HeapUsers) (process ptr : Ptr) : Except Halt HeapUsers := do
  let record ← follow s.records process
  match Kernel.processGetAllocationByAddr record ptr with
  | none => pure s
  | some allocation =>
      let directory ← follow s.directories process
      let (res, mem) := pagingMapTo s.mem directory allocation.ptr allocation.ptr
        (pagingIsAllignedAddress (allocation.ptr + allocation.size)) 0
      let s := { s with mem := mem }
      if res < 0 then
        pure s
      else
        pure ((s.setRecord process (Kernel.processAllocationUnjoin record ptr)).kfree ptr)

/-- The system call 4 of the process that runs. -/
def isr80hCommand4Malloc (s : HeapUsers) (process : Ptr) (size : Word) : Except Halt HeapUsers := do
  let (ptr, s) ← s.processMalloc process size
  pure
    { s with
      received := fun q =>
        if q = process ∧ ptr ≠ 0 then ptr :: s.received q else s.received q }

/-- The system call 5 of the process that runs. -/
def isr80hCommand5Free (s : HeapUsers) (process ptr : Ptr) : Except Halt HeapUsers :=
  s.processFree process ptr

end HeapUsers

inductive UserCall where
  | malloc (process : Ptr) (size : Word)
  | free (process ptr : Ptr)

/-- A process frees what it has received. -/
inductive UserStep : HeapUsers → UserCall → HeapUsers → Prop
  | malloc {s s' : HeapUsers} {process : Ptr} {size : Word}
      (hcall : s.isr80hCommand4Malloc process size = .ok s') :
      UserStep s (.malloc process size) s'
  | free {s s' : HeapUsers} {process ptr : Ptr} (hreceived : ptr ∈ s.received process)
      (hcall : s.isr80hCommand5Free process ptr = .ok s') :
      UserStep s (.free process ptr) s'

/-- The block `i` is part of an allocation. -/
def Allocation.Has (heap : Heap) (a : Allocation) (i : Nat) : Prop :=
  a.start heap ≤ i ∧ i < a.start heap + blocksFor a.size

/-- The entry `i` of the allocations of a process. -/
def HeapUsers.Entry (s : HeapUsers) (process : Ptr) (i : Nat) (a : Allocation) : Prop :=
  ∃ record, s.records process = some record ∧ i < maxProgramAllocations ∧
    (record.allocations i).ptr ≠ 0 ∧ a = ⟨(record.allocations i).ptr, (record.allocations i).size⟩

/-- Each block that is taken in `s` and free in `s'` was part of an allocation of
the process, and of no allocation of another process or of the kernel. -/
def ReleasesOwn (s : HeapUsers) (process : Ptr) (s' : HeapUsers) : Prop :=
  ∀ i < s.heap.table.total, ¬ FreeBlock s.heap.table i → FreeBlock s'.heap.table i →
    (∃ j a, s.Entry process j a ∧ a.Has s.heap i) ∧
      (∀ other j a, other ≠ process → s.Entry other j a → ¬ a.Has s.heap i) ∧
      ∀ a ∈ s.kernel, ¬ a.Has s.heap i

/-- The processes have been loaded and have no allocations yet.  What the kernel
has allocated for them and for itself is on the heap that `kheap_init` has
made. -/
structure UsersStart (s : HeapUsers) : Prop where
  kernel : ∃ heap table ops, (heapCreate heap (BitVec.ofNat 32 heapAddress)
      (BitVec.ofNat 32 (heapAddress + heapSizeBytes)) table).1 = 0 ∧ table.written = [] ∧
    Run HeapStep ⟨(heapCreate heap (BitVec.ofNat 32 heapAddress)
      (BitVec.ofNat 32 (heapAddress + heapSizeBytes)) table).2, []⟩ ops ⟨s.heap, s.kernel⟩
  records : ∀ process record, s.records process = some record → ∀ i,
    (record.allocations i).ptr = 0
  received : ∀ process, s.received process = []

/-- In every run every free releases blocks of its caller only. -/
def AlwaysReleasesOwn : Prop :=
  ∀ s₀ calls s process ptr s', UsersStart s₀ → Run UserStep s₀ calls s →
    UserStep s (.free process ptr) s' → ReleasesOwn s process s'

/-- A request that needs a block. -/
def NeedsBlock (_ : HeapUsers) : UserCall → Prop
  | .malloc _ size => heapTotalBlocks size ≠ 0
  | .free _ _ => True

/-- On the heap of the kernel every allocation of `owns` has a range of its own.
A range may run over the end of the table. -/
structure Holding (heap : Heap) (R : Set BlockRange) (owns : Allocation → Prop) : Prop where
  total : heap.table.total = 25600
  encodes : Encodes heap.table R
  owned : ∀ a, owns a → ∃ r ∈ R, Occupies heap a r

namespace Holding

variable {heap : Heap} {R : Set BlockRange} {owns owns' : Allocation → Prop}

theorem mono
    (h : Holding heap R owns) (hsub : ∀ a, owns' a → owns a) :
    Holding heap R owns' where
  total := h.total
  encodes := h.encodes
  owned := fun a ha => h.owned a (hsub a ha)

theorem isInt_total
    (h : Holding heap R owns) :
    IsInt heap.table.total := by
  rw [h.total]
  decide

theorem start_lt
    (h : Holding heap R owns) {r : BlockRange} (hr : r ∈ R) :
    r.start < 25600 := by
  have hstart := h.encodes.starts r hr
  rwa [h.total] at hstart

/-- The blocks of an allocation are those of its range. -/
theorem has_iff
    (h : Holding heap R owns) {a : Allocation} {r : BlockRange} (hr : r ∈ R)
    (ha : Occupies heap a r) (i : Nat) :
    a.Has heap i ↔ r.Contains i := by
  have hstart := h.start_lt hr
  rw [Allocation.Has, start_of_heapBlockToAddress (by omega) ha.1, ha.2]
  rfl

/-- A request for at least one block is refused or given a range of its own. -/
theorem heapMalloc_cases
    (h : Holding heap R owns) {size : Word} (hsize : heapTotalBlocks size ≠ 0) :
    heapMalloc heap size = (0, heap) ∨
      ∃ r : BlockRange, r.count = heapTotalBlocks size ∧ r.start < heap.table.total ∧
        (∀ q ∈ R, r.Apart q) ∧
        heapMalloc heap size =
          (heapBlockToAddress heap r.start, heapMarkBlocksTaken heap r.start r.count) := by
  have hpos : 0 < heapTotalBlocks size := Nat.pos_of_ne_zero hsize
  rw [heapMalloc, heapMallocBlocks]
  have hgranted (b : Nat) (hres : heapGetStartBlock heap (heapTotalBlocks size) = b)
      (hlt : b < heap.table.total)
      (hfree : ∀ i, b ≤ i → i < b + heapTotalBlocks size → i < heap.table.total →
        FreeBlock heap.table i)
      (hlast : ∀ q ∈ R, heap.table.total < b + heapTotalBlocks size →
        ¬ q.Contains (heap.table.total - 1)) :
      ∃ r : BlockRange, r.count = heapTotalBlocks size ∧ r.start < heap.table.total ∧
        (∀ q ∈ R, r.Apart q) ∧
        (if heapGetStartBlock heap (heapTotalBlocks size) < 0 then (0, heap)
          else
            (heapBlockToAddress heap (heapGetStartBlock heap (heapTotalBlocks size)),
              heapMarkBlocksTaken heap (heapGetStartBlock heap (heapTotalBlocks size))
                (heapTotalBlocks size))) =
          (heapBlockToAddress heap r.start, heapMarkBlocksTaken heap r.start r.count) := by
    refine ⟨⟨b, heapTotalBlocks size, hpos⟩, rfl, hlt, fun q hq => ?_, ?_⟩
    · rw [BlockRange.apart_iff]
      intro i hi hin
      have hstart := h.encodes.starts q hq
      simp only [BlockRange.Contains, BlockRange.stop] at hi hin
      by_cases hi' : i < heap.table.total
      · exact (h.encodes.freeBlock_iff hi').mp (hfree i hi.1 hi.2 hi') q hq hin
      · refine hlast q hq (by omega) ?_
        simp only [BlockRange.Contains, BlockRange.stop]
        omega
    · rw [hres]
      exact if_neg (by omega)
  rcases heapGetStartBlock_cases heap hpos with
    ⟨hres, -, -⟩ | ⟨b, hres, hrun, -⟩ | ⟨b, hres, hlt, -, hfree, -⟩
  · left
    rw [hres, if_pos (by decide)]
  · refine Or.inr (hgranted b hres (by have := hrun.1; omega) (fun i hi hi' _ => hrun.2 i hi hi')
      fun q _ hover => ?_)
    have := hrun.1
    omega
  · refine Or.inr (hgranted b hres hlt (fun i hi _ hi' => hfree i hi hi') fun q hq _ => ?_)
    exact (h.encodes.freeBlock_iff (by omega)).mp (hfree _ (by omega) (by omega)) q hq

theorem malloc
    (h : Holding heap R owns) {size : Word} (hsize : heapTotalBlocks size ≠ 0) {p : Ptr}
    {heap' : Heap} (hcall : heapMalloc heap size = (p, heap')) :
    (p = 0 ∧ heap' = heap) ∨
      (∃ R', Holding heap' R' fun a => owns a ∨ a = ⟨p, size⟩) ∧ ∀ a, owns a → a.ptr ≠ p := by
  rcases h.heapMalloc_cases hsize with heq | ⟨r, hcount, hstart, hapart, heq⟩
  · cases heq.symm.trans hcall
    exact Or.inl ⟨rfl, rfl⟩
  · cases heq.symm.trans hcall
    have hblocks : blocksFor size = r.count := by
      rw [hcount, heapTotalBlocks_eq_blocksFor]
      by_contra hover
      exact hsize ((heapTotalBlocks_eq_zero_iff size).mpr (Or.inr (by omega)))
    refine Or.inr ⟨⟨insert r R, ?_, h.encodes.taken r hstart hapart, ?_⟩, fun a ha hptr => ?_⟩
    · rw [heapMarkBlocksTaken_total, h.total]
    · rintro a (ha | rfl)
      · obtain ⟨q, hq, hoccupies⟩ := h.owned a ha
        exact ⟨q, Set.mem_insert_of_mem r hq, hoccupies⟩
      · exact ⟨r, Set.mem_insert r R, rfl, hblocks⟩
    · obtain ⟨q, hq, hoccupies⟩ := h.owned a ha
      have hq' := h.start_lt hq
      rw [h.total] at hstart
      have hsame : r.start = q.start := by
        have hfirst := @start_of_heapBlockToAddress heap a r.start (by omega) hptr
        have hsecond := @start_of_heapBlockToAddress heap a q.start (by omega) hoccupies.1
        omega
      exact (hapart q hq).not_contains (hsame ▸ q.contains_start) r.contains_start

/-- A release changes the range of the allocation and nothing else. -/
theorem free
    (h : Holding heap R owns) {a : Allocation} (ha : owns a) :
    (∃ R', Holding (heapFree heap a.ptr) R' fun b => owns b ∧ b.ptr ≠ a.ptr) ∧
      ∀ i < heap.table.total, ¬ FreeBlock heap.table i →
        FreeBlock (heapFree heap a.ptr).table i →
        a.Has heap i ∧ ∀ b, owns b → b.ptr ≠ a.ptr → ¬ b.Has heap i := by
  obtain ⟨r, hr, hoccupies⟩ := h.owned a ha
  have hstart := h.start_lt hr
  have hoffset : (a.ptr - heap.saddr).toNat = r.start * 4096 := by
    rw [hoccupies.1, heapBlockToAddress, add_sub_cancel_left, toNat_blockOffset (by omega)]
  have hblock : heapFree heap a.ptr = heapMarkBlocksFree heap r.start := by
    rw [heapFree, heapAddressToBlock_eq (by omega), hoffset, heapBlockSize,
      Nat.mul_div_cancel _ (by decide)]
  have hother (b : Allocation) (hb : owns b) (hne : b.ptr ≠ a.ptr) :
      ∃ q ∈ R, Occupies heap b q ∧ q ≠ r := by
    obtain ⟨q, hq, hq'⟩ := h.owned b hb
    exact ⟨q, hq, hq', HeapInv.range_ne hq' hoccupies hne⟩
  rw [hblock]
  refine ⟨⟨R \ {r}, ?_, h.encodes.freed h.isInt_total hr, ?_⟩, fun i hi htaken hfree => ?_⟩
  · rw [heapMarkBlocksFree_total, h.total]
  · rintro b ⟨hb, hne⟩
    obtain ⟨q, hq, hq', hqr⟩ := hother b hb hne
    exact ⟨q, ⟨hq, hqr⟩, hq'⟩
  · rw [FreeBlock, (h.encodes.heapMarkBlocksFree_spec h.isInt_total hr).1] at hfree
    split_ifs at hfree with hin
    · have hcontains : r.Contains i := by
        simp only [tableCount] at hin
        simp only [BlockRange.Contains, BlockRange.stop]
        omega
      refine ⟨(h.has_iff hr hoccupies i).mpr hcontains, fun b hb hne => ?_⟩
      obtain ⟨q, hq, hq', hqr⟩ := hother b hb hne
      rw [h.has_iff hq hq']
      exact BlockRange.apart_iff.mp (h.encodes.separated hr hq hqr.symm) i hcontains
    · exact absurd hfree htaken

end Holding

/-- What the kernel has allocated is held from the first call on. -/
theorem Run.holding
    {heap heap' : Heap} {kernel : List Allocation} {ptr stop : Ptr} {table : HeapTable}
    {ops : List HeapOp} (hcreate : (heapCreate heap ptr stop table).1 = 0)
    (hwritten : table.written = []) (hstop : stop - ptr = 0x6400000)
    (hrun : Run HeapStep ⟨(heapCreate heap ptr stop table).2, []⟩ ops ⟨heap', kernel⟩) :
    ∃ R, Holding heap' R fun a => a ∈ kernel := by
  refine Run.invariant (fun s : HeapState => ∃ R, Holding s.heap R fun a => a ∈ s.live) ?_ hrun ?_
  · rintro s op s' ⟨R, h⟩ hstep
    cases hstep with
    | malloc size hlo hhi =>
        have hsize : heapTotalBlocks size ≠ 0 := by
          rw [heapTotalBlocks_eq hhi]
          omega
        rw [HeapState.malloc]
        rcases hcall : heapMalloc s.heap size with ⟨p, heap₁⟩
        rcases h.malloc hsize hcall with ⟨rfl, rfl⟩ | ⟨⟨R', h'⟩, -⟩
        · exact ⟨R, h⟩
        · refine ⟨R', h'.mono fun a ha => ?_⟩
          dsimp only at ha
          split_ifs at ha
          · exact Or.inl ha
          · exact (List.mem_cons.mp ha).symm
    | free a ha =>
        obtain ⟨⟨R', h'⟩, -⟩ := h.free ha
        refine ⟨R', h'.mono fun b hb => ?_⟩
        rw [HeapState.free, List.mem_filter] at hb
        exact ⟨hb.1, of_decide_eq_true hb.2⟩
  · obtain ⟨htotal, heq⟩ := heapCreate_eq hcreate
    have hfresh := (HeapInv.create hwritten hcreate).encodes
    refine ⟨∅, ?_, hfresh, fun a ha => absurd ha List.not_mem_nil⟩
    rw [heq, memsetEntries_total, htotal, hstop]
    rfl

def HeapUsers.Owned (s : HeapUsers) (a : Allocation) : Prop :=
  a ∈ s.kernel ∨ ∃ q i, s.Entry q i a

/-- No two processes, and no process and the kernel, have an allocation at the
same pointer. -/
structure Shared (s : HeapUsers) : Prop where
  holding : ∃ R, Holding s.heap R s.Owned
  apart : ∀ q i a, s.Entry q i a → ∀ b ∈ s.kernel, b.ptr ≠ a.ptr
  distinct : ∀ q i a q' i' a', s.Entry q i a → s.Entry q' i' a' → a.ptr = a'.ptr → q = q'
  received : ∀ q, ∀ p ∈ s.received q, p ≠ 0

section Shared

variable {s s' : HeapUsers} {process : Ptr}

theorem HeapUsers.entry_setRecord
    {record : ProcessRecord} {t : HeapUsers} (hrecords : t.records = s.records) {q : Ptr} {i : Nat}
    {a : Allocation} (h : (t.setRecord process record).Entry q i a) :
    (q = process ∧ i < maxProgramAllocations ∧ (record.allocations i).ptr ≠ 0 ∧
      a = ⟨(record.allocations i).ptr, (record.allocations i).size⟩) ∨
    (q ≠ process ∧ s.Entry q i a) := by
  obtain ⟨record', hrecord, hi, hne, rfl⟩ := h
  rw [HeapUsers.setRecord, hrecords] at hrecord
  dsimp only at hrecord
  split_ifs at hrecord with hq
  · cases hrecord
    exact Or.inl ⟨hq, hi, hne, rfl⟩
  · exact Or.inr ⟨hq, record', hrecord, hi, hne, rfl⟩

/-- An entry is the new one or from before. -/
theorem HeapUsers.entry_use
    {record : ProcessRecord} {index : Nat} {p : Ptr} {size : Word} {t : HeapUsers}
    (hrecord : s.records process = some record) (hrecords : t.records = s.records)
    {q : Ptr} {i : Nat} {a : Allocation}
    (h : (t.setRecord process { record with
      allocations := fun i => if i = index then ⟨p, size⟩ else record.allocations i }).Entry q i a) :
    (q = process ∧ a = ⟨p, size⟩) ∨ s.Entry q i a := by
  rcases HeapUsers.entry_setRecord hrecords h with ⟨rfl, hi, hne, rfl⟩ | ⟨-, hold⟩
  · dsimp only at hne ⊢
    split_ifs at hne ⊢ with hindex
    · exact Or.inl ⟨rfl, rfl⟩
    · exact Or.inr ⟨record, hrecord, hi, hne, rfl⟩
  · exact Or.inr hold

/-- An entry that is left is not at the pointer. -/
theorem HeapUsers.entry_unjoin
    {record : ProcessRecord} {p : Ptr} {t : HeapUsers} (hrecord : s.records process = some record)
    (hrecords : t.records = s.records) {q : Ptr} {i : Nat} {a : Allocation}
    (h : (t.setRecord process (Kernel.processAllocationUnjoin record p)).Entry q i a) :
    (q = process ∧ s.Entry q i a ∧ a.ptr ≠ p) ∨ (q ≠ process ∧ s.Entry q i a) := by
  rcases HeapUsers.entry_setRecord hrecords h with ⟨rfl, hi, hne, rfl⟩ | hother
  · rw [Kernel.processAllocationUnjoin] at hne ⊢
    dsimp only at hne ⊢
    split_ifs at hne ⊢ with heq
    · exact absurd rfl hne
    · exact Or.inl ⟨rfl, ⟨record, hrecord, hi, hne, rfl⟩, heq⟩
  · exact Or.inr hother

/-- A new allocation is entered. -/
theorem Shared.use
    {record : ProcessRecord} {index : Nat} {p : Ptr} {size : Word} {t : HeapUsers}
    {R : Set BlockRange} (h : Shared s) (hrecord : s.records process = some record)
    (hrecords : t.records = s.records) (hkernel : t.kernel = s.kernel)
    (hreceived : t.received = s.received)
    (hholding : Holding t.heap R fun a => s.Owned a ∨ a = ⟨p, size⟩)
    (hfresh : ∀ a, s.Owned a → a.ptr ≠ p) :
    Shared (t.setRecord process { record with
      allocations := fun i => if i = index then ⟨p, size⟩ else record.allocations i }) := by
  have hentry := @HeapUsers.entry_use s process record index p size t hrecord hrecords
  refine ⟨⟨R, hholding.mono fun a ha => ?_⟩, fun q i a ha b hb => ?_,
    fun q i a q' i' a' ha ha' hptr => ?_, fun q => ?_⟩
  · rcases ha with ha | ⟨q, i, ha⟩
    · exact Or.inl (Or.inl (hkernel ▸ ha))
    · rcases hentry ha with ⟨-, rfl⟩ | hold
      · exact Or.inr rfl
      · exact Or.inl (Or.inr ⟨q, i, hold⟩)
  · replace hb : b ∈ s.kernel := hkernel ▸ hb
    rcases hentry ha with ⟨-, rfl⟩ | hold
    · exact hfresh b (Or.inl hb)
    · exact h.apart q i a hold b hb
  · rcases hentry ha with ⟨rfl, rfl⟩ | hold
    · rcases hentry ha' with ⟨rfl, rfl⟩ | hold'
      · rfl
      · exact absurd hptr.symm (hfresh a' (Or.inr ⟨q', i', hold'⟩))
    · rcases hentry ha' with ⟨rfl, rfl⟩ | hold'
      · exact absurd hptr (hfresh a (Or.inr ⟨q, i, hold⟩))
      · exact h.distinct q i a q' i' a' hold hold' hptr
  · change ∀ p ∈ t.received q, p ≠ 0
    rw [hreceived]
    exact h.received q

/-- The allocation of an entry is taken out. -/
theorem Shared.unjoin
    {record : ProcessRecord} {i : Nat} {a : Allocation} {t : HeapUsers} {R : Set BlockRange}
    (h : Shared s) (hrecord : s.records process = some record) (hentry : s.Entry process i a)
    (hrecords : t.records = s.records) (hkernel : t.kernel = s.kernel)
    (hreceived : t.received = s.received)
    (hholding : Holding (heapFree t.heap a.ptr) R fun b => s.Owned b ∧ b.ptr ≠ a.ptr) :
    Shared ((t.setRecord process (Kernel.processAllocationUnjoin record a.ptr)).kfree a.ptr) := by
  have hleft {q : Ptr} {j : Nat} {b : Allocation}
      (hb : (t.setRecord process (Kernel.processAllocationUnjoin record a.ptr)).Entry q j b) :
      s.Entry q j b ∧ b.ptr ≠ a.ptr := by
    rcases HeapUsers.entry_unjoin hrecord hrecords hb with ⟨-, hold, hne⟩ | ⟨hq, hold⟩
    · exact ⟨hold, hne⟩
    · exact ⟨hold, fun heq => hq (h.distinct q j b process i a hold hentry heq)⟩
  refine ⟨⟨R, hholding.mono fun b hb => ?_⟩, fun q j b hb c hc => ?_,
    fun q j b q' j' b' hb hb' => ?_, fun q => ?_⟩
  · rcases hb with hb | ⟨q, j, hb⟩
    · replace hb : b ∈ s.kernel := hkernel ▸ hb
      exact ⟨Or.inl hb, h.apart process i a hentry b hb⟩
    · obtain ⟨hold, hne⟩ := hleft hb
      exact ⟨Or.inr ⟨q, j, hold⟩, hne⟩
  · exact h.apart q j b (hleft hb).1 c (hkernel ▸ hc)
  · exact h.distinct q j b q' j' b' (hleft hb).1 (hleft hb').1
  · change ∀ p ∈ t.received q, p ≠ 0
    rw [hreceived]
    exact h.received q

theorem Shared.setHeap
    (h : Shared s) {heap : Heap} {R : Set BlockRange} (hholding : Holding heap R s.Owned)
    (mem : Pages) :
    Shared { s with heap := heap, mem := mem } :=
  ⟨⟨R, hholding⟩, h.apart, h.distinct, h.received⟩

/-- A request that fails changes nothing of what is owned, and one that succeeds
adds an allocation at a new pointer. -/
theorem Shared.kzalloc
    (h : Shared s) {size : Word} (hsize : heapTotalBlocks size ≠ 0) {p : Ptr}
    (hcall : s.kzalloc size = (p, s')) :
    Shared s' ∧ (∃ heap mem, s' = { s with heap := heap, mem := mem }) ∧
      (p ≠ 0 → (∃ R, Holding s'.heap R fun a => s.Owned a ∨ a = ⟨p, size⟩) ∧
        ∀ a, s.Owned a → a.ptr ≠ p) := by
  obtain ⟨R, hholding⟩ := h.holding
  rw [HeapUsers.kzalloc] at hcall
  rcases hk : heapMalloc s.heap size with ⟨ptr, heap⟩
  rw [hk] at hcall
  dsimp only at hcall
  rcases hholding.malloc hsize hk with ⟨rfl, rfl⟩ | ⟨⟨R', hgranted⟩, hfresh⟩
  · rw [if_pos rfl] at hcall
    cases hcall
    exact ⟨h, ⟨_, _, rfl⟩, fun hne => absurd rfl hne⟩
  · have hkept : Holding heap R' s.Owned := hgranted.mono fun a ha => Or.inl ha
    by_cases h0 : ptr = 0
    · rw [if_pos h0] at hcall
      cases hcall
      exact ⟨h.setHeap hkept s.mem, ⟨_, _, rfl⟩, fun hne => absurd rfl hne⟩
    · rw [if_neg h0] at hcall
      cases hcall
      exact ⟨h.setHeap hkept _, ⟨_, _, rfl⟩, fun _ => ⟨⟨R', hgranted⟩, hfresh⟩⟩

theorem Shared.processMalloc
    (h : Shared s) {size : Word} (hsize : heapTotalBlocks size ≠ 0) {p : Ptr}
    (hcall : s.processMalloc process size = .ok (p, s')) :
    Shared s' ∧ s'.received = s.received := by
  rw [HeapUsers.processMalloc] at hcall
  rcases hk : s.kzalloc size with ⟨ptr, s₁⟩
  rw [hk] at hcall
  dsimp only at hcall
  obtain ⟨h₁, ⟨heap, mem, rfl⟩, hnew⟩ := h.kzalloc hsize hk
  by_cases h0 : ptr = 0
  · rw [if_pos h0] at hcall
    cases hcall
    exact ⟨h₁, rfl⟩
  · rw [if_neg h0] at hcall
    obtain ⟨⟨R, hholding⟩, hfresh⟩ := hnew h0
    obtain ⟨record, hrecord, hcall⟩ := bind_eq_ok_iff.mp hcall
    replace hrecord := (follow_inv hrecord).2
    cases hindex : Kernel.processFindFreeAllocationIndex record with
    | none =>
        rw [hindex] at hcall
        cases hcall
        obtain ⟨⟨R', hback⟩, -⟩ := hholding.free (Or.inr rfl)
        exact ⟨h₁.setHeap (hback.mono fun a ha => ⟨Or.inl ha, hfresh a ha⟩) _, rfl⟩
    | some index =>
        rw [hindex] at hcall
        obtain ⟨directory, -, hcall⟩ := bind_eq_ok_iff.mp hcall
        cases hcall
        exact ⟨h.use hrecord rfl rfl rfl hholding hfresh, rfl⟩

/-- A call that leaves the heap as it is. -/
theorem releasesOwn_of_heap_eq
    (hheap : s'.heap = s.heap) :
    ReleasesOwn s process s' := by
  intro i _ htaken hfree
  rw [hheap] at hfree
  exact absurd hfree htaken

theorem Shared.processFree
    (h : Shared s) {ptr : Ptr} (hptr : ptr ≠ 0) (hcall : s.processFree process ptr = .ok s') :
    Shared s' ∧ ReleasesOwn s process s' ∧ s'.received = s.received := by
  rw [HeapUsers.processFree] at hcall
  obtain ⟨record, hrecord, hcall⟩ := bind_eq_ok_iff.mp hcall
  replace hrecord := (follow_inv hrecord).2
  cases hget : Kernel.processGetAllocationByAddr record ptr with
  | none =>
      rw [hget] at hcall
      cases hcall
      exact ⟨h, releasesOwn_of_heap_eq rfl, rfl⟩
  | some allocation =>
      obtain ⟨i, hi, rfl, rfl⟩ := Kernel.processGetAllocationByAddr_some hget
      rw [hget] at hcall
      obtain ⟨directory, -, hcall⟩ := bind_eq_ok_iff.mp hcall
      rcases hmap : pagingMapTo s.mem directory (record.allocations i).ptr
        (record.allocations i).ptr
        (pagingIsAllignedAddress ((record.allocations i).ptr + (record.allocations i).size)) 0
        with ⟨res, mem⟩
      rw [hmap] at hcall
      dsimp only at hcall
      by_cases hres : res < 0
      · rw [if_pos hres] at hcall
        cases hcall
        exact ⟨⟨h.holding, h.apart, h.distinct, h.received⟩, releasesOwn_of_heap_eq rfl, rfl⟩
      · rw [if_neg hres] at hcall
        let a : Allocation := ⟨(record.allocations i).ptr, (record.allocations i).size⟩
        have hentry : s.Entry process i a := ⟨record, hrecord, hi, hptr, rfl⟩
        obtain ⟨R, hholding⟩ := h.holding
        obtain ⟨⟨R', hfreed⟩, hreleased⟩ := hholding.free (Or.inr ⟨process, i, hentry⟩)
        have hshared := @Shared.unjoin s process record i a { s with mem := mem } R' h hrecord
          hentry rfl rfl rfl hfreed
        rw [← Except.ok.inj hcall]
        refine ⟨hshared, fun n hn htaken hfree => ?_, rfl⟩
        obtain ⟨hhas, hothers⟩ := hreleased n hn htaken hfree
        refine ⟨⟨i, a, hentry, hhas⟩, fun other j b hother hb => ?_, fun b hb => ?_⟩
        · exact hothers b (Or.inr ⟨other, j, hb⟩) fun heq =>
            hother (h.distinct other j b process i a hb hentry heq)
        · exact hothers b (Or.inl hb) (h.apart process i a hentry b hb)

/-- A call of a request that needs a block, or of a free. -/
theorem Shared.step
    {call : UserCall} (h : Shared s) (hstep : Guarded NeedsBlock UserStep s call s') :
    Shared s' := by
  obtain ⟨hneeds, hstep⟩ := hstep
  cases hstep with
  | malloc hcall =>
      obtain ⟨⟨p, s₁⟩, hmalloc, heq⟩ := bind_eq_ok_iff.mp hcall
      obtain ⟨h₁, hreceived⟩ := h.processMalloc hneeds hmalloc
      cases heq
      refine ⟨h₁.holding, h₁.apart, h₁.distinct, fun q p' hp' => ?_⟩
      dsimp only at hp'
      split_ifs at hp' with hq
      · rcases List.mem_cons.mp hp' with rfl | hp'
        · exact hq.2
        · exact h₁.received q p' hp'
      · exact h₁.received q p' hp'
  | free hreceived hcall => exact (h.processFree (h.received _ _ hreceived) hcall).1

theorem UsersStart.shared (h : UsersStart s) : Shared s := by
  obtain ⟨heap, table, ops, hcreate, hwritten, hrun⟩ := h.kernel
  obtain ⟨R, hholding⟩ := Run.holding hcreate hwritten (by decide) hrun
  have hnone (q : Ptr) (i : Nat) (a : Allocation) : ¬ s.Entry q i a := by
    rintro ⟨record, hrecord, -, hne, -⟩
    exact hne (h.records q record hrecord i)
  refine ⟨⟨R, hholding.mono fun a ha => ?_⟩, fun q i a ha => absurd ha (hnone q i a),
    fun q i a _ _ _ ha => absurd ha (hnone q i a), fun q p hp => ?_⟩
  · rcases ha with ha | ⟨q, i, ha⟩
    · exact ha
    · exact absurd ha (hnone q i a)
  · rw [h.received q] at hp
    cases hp

/-- As long as every request needs a block, a free releases blocks of its caller
only. -/
theorem userRun_releasesOwn
    {s₀ : HeapUsers} {calls : List UserCall} {ptr : Ptr} (hstart : UsersStart s₀)
    (hrun : Run (Guarded NeedsBlock UserStep) s₀ calls s)
    (hfree : UserStep s (.free process ptr) s') :
    ReleasesOwn s process s' := by
  have h : Shared s := Run.invariant Shared (fun _ _ _ h hstep => h.step hstep) hrun hstart.shared
  cases hfree with
  | free hreceived hcall => exact (h.processFree (h.received _ _ hreceived) hcall).2.1

end Shared

section First

variable {s : HeapUsers} {process p directory : Ptr} {size : Word} {record : ProcessRecord}

theorem find_first
    {P : Nat → Bool} (h : P 0 = true) :
    (List.range maxProgramAllocations).find? P = some 0 :=
  List.find?_range_eq_some.mpr ⟨h, List.mem_range.mpr (by decide), fun _ hj => absurd hj (by omega)⟩

/-- What a process without allocations is given goes into its first entry. -/
theorem HeapUsers.processMalloc_first
    {heap : Heap} (hprocess : process ≠ 0) (hrecord : s.records process = some record)
    (hdirectory : s.directories process = some directory) (hempty : (record.allocations 0).ptr = 0)
    (hcall : heapMalloc s.heap size = (p, heap)) (hp : p ≠ 0) :
    ∃ s', s.processMalloc process size = .ok (p, s') ∧ s'.heap = heap ∧
      s'.directories = s.directories ∧ s'.received = s.received ∧
      ∀ q, s'.records q = if q = process then
        some { record with
          allocations := fun i => if i = 0 then ⟨p, size⟩ else record.allocations i }
        else s.records q := by
  have hindex : Kernel.processFindFreeAllocationIndex record = some 0 :=
    find_first (decide_eq_true hempty)
  have hk : s.kzalloc size = (p, { s with
      heap := heap
      mem := Pages.ofBytes (fill s.mem.bytes p 0 size.toNat) }) := by
    rw [HeapUsers.kzalloc, hcall]
    exact if_neg hp
  rw [HeapUsers.processMalloc, hk]
  dsimp only
  rw [if_neg hp, follow_of_some hprocess hrecord, ok_bind, hindex]
  dsimp only
  rw [follow_of_some hprocess hdirectory, ok_bind]
  exact ⟨_, rfl, rfl, rfl, rfl, fun _ => rfl⟩

theorem HeapUsers.command4_first
    {heap : Heap} (hprocess : process ≠ 0) (hrecord : s.records process = some record)
    (hdirectory : s.directories process = some directory) (hempty : (record.allocations 0).ptr = 0)
    (hcall : heapMalloc s.heap size = (p, heap)) (hp : p ≠ 0) :
    ∃ s', s.isr80hCommand4Malloc process size = .ok s' ∧ s'.heap = heap ∧
      s'.directories = s.directories ∧
      (∀ q, s'.records q = if q = process then
        some { record with
          allocations := fun i => if i = 0 then ⟨p, size⟩ else record.allocations i }
        else s.records q) ∧
      p ∈ s'.received process ∧ ∀ q, s.received q ⊆ s'.received q := by
  obtain ⟨s₁, hmalloc, hheap, hdirectories, hreceived, hrecords⟩ :=
    HeapUsers.processMalloc_first hprocess hrecord hdirectory hempty hcall hp
  rw [HeapUsers.isr80hCommand4Malloc, hmalloc, ok_bind]
  refine ⟨_, rfl, hheap, hdirectories, hrecords, ?_, fun q => ?_⟩
  · change p ∈ if process = process ∧ p ≠ 0 then p :: s₁.received process else s₁.received process
    rw [if_pos ⟨rfl, hp⟩]
    exact List.mem_cons_self
  · change s.received q ⊆ if q = process ∧ p ≠ 0 then p :: s₁.received q else s₁.received q
    rw [hreceived]
    split_ifs
    · exact List.subset_cons_self p (s.received q)
    · exact List.Subset.refl (s.received q)

/-- What the first entry has is freed. -/
theorem HeapUsers.command5_first
    (hprocess : process ≠ 0) (hrecord : s.records process = some record)
    (hdirectory : s.directories process = some directory)
    (hfirst : record.allocations 0 = ⟨p, size⟩)
    (hmap : Mappable p p (pagingIsAllignedAddress (p + size))) :
    ∃ s', s.isr80hCommand5Free process p = .ok s' ∧ s'.heap = heapFree s.heap p := by
  have hget : Kernel.processGetAllocationByAddr record p = some ⟨p, size⟩ := by
    have hfind := @find_first (fun i => decide ((record.allocations i).ptr = p))
      (by rw [hfirst]; exact decide_eq_true rfl)
    rw [Kernel.processGetAllocationByAddr, hfind, Option.map_some, hfirst]
  rw [HeapUsers.isr80hCommand5Free, HeapUsers.processFree, follow_of_some hprocess hrecord, ok_bind,
    hget]
  dsimp only
  rw [follow_of_some hprocess hdirectory, ok_bind, pagingMapTo_of_mappable hmap,
    pagingMapRange_returns hmap.alignedVirt hmap.alignedPhys, if_neg (by decide)]
  exact ⟨_, rfl, rfl⟩

end First

/-- Two processes beside what the kernel has allocated. -/
def twoUsers (k : HeapState) : HeapUsers where
  heap := k.heap
  mem := fun _ _ => 0
  records := fun q => if q = 0x1000000 ∨ q = 0x1003000 then some processInit else none
  directories := fun q => if q = 0x1000000 ∨ q = 0x1003000 then some 0x1006000 else none
  kernel := k.live
  received := fun _ => []

theorem twoUsers_start
    {k : HeapState} {ops : List HeapOp} (hrun : Run HeapStep ⟨emptyHeap, []⟩ ops k) :
    UsersStart (twoUsers k) where
  kernel := ⟨_, _, ops, emptyHeap_create, rfl, hrun⟩
  records := by
    intro process record hrecord i
    rw [twoUsers] at hrecord
    dsimp only at hrecord
    split_ifs at hrecord
    cases hrecord
    rfl
  received := fun _ => rfl

/-- The first blocks of the heap, 2048 of them, are taken by the kernel. -/
def kernelBlocks : BlockRange := ⟨0, 2048, by decide⟩

theorem usedHeap_encodes
    {heap : Heap} (htotal : heap.table.total = 25600) (hempty : Encodes heap.table ∅) :
    (HeapState.malloc ⟨heap, []⟩ 0x800000).heap.saddr = heap.saddr ∧
      (HeapState.malloc ⟨heap, []⟩ 0x800000).heap.table.total = 25600 ∧
      Encodes (HeapState.malloc ⟨heap, []⟩ 0x800000).heap.table {kernelBlocks} := by
  have hblocks : heapTotalBlocks 0x800000 = kernelBlocks.count := by decide
  have hcount : kernelBlocks.count = 2048 := rfl
  have hrun : FreeRun heap.table (heapTotalBlocks 0x800000) kernelBlocks.start := by
    refine ⟨?_, fun i _ hi => ?_⟩
    · rw [hblocks, htotal]
      decide
    · refine (hempty.freeBlock_iff ?_).mpr fun r hr => absurd hr (Set.notMem_empty r)
      have hstart : kernelBlocks.start = 0 := rfl
      omega
  have hmalloc := heapMalloc_first (by rw [hblocks, hcount]; decide)
    ⟨hrun, fun _ _ => Nat.zero_le _⟩
  have htaken := hempty.taken kernelBlocks (by rw [htotal]; decide)
    fun r hr => absurd hr (Set.notMem_empty r)
  rw [insert_empty_eq] at htaken
  rw [HeapState.malloc, hmalloc, hblocks]
  exact ⟨heapMarkBlocksTaken_saddr _ _ _, (heapMarkBlocksTaken_total _ _ _).trans htotal, htaken⟩

section TwoUsers

variable {k : HeapState}

theorem exists_usedHeap :
    ∃ k, Run HeapStep ⟨emptyHeap, []⟩ [.malloc 0x800000] k ∧ k.heap.saddr = 0x1000000 ∧
      k.heap.table.total = 25600 ∧ Encodes k.heap.table {kernelBlocks} := by
  obtain ⟨hsaddr, htotal', hencodes⟩ :=
    usedHeap_encodes emptyHeap_total (HeapInv.create rfl emptyHeap_create).encodes
  refine ⟨HeapState.malloc ⟨emptyHeap, []⟩ 0x800000,
    Run.cons (HeapStep.malloc _ _ (by decide) (by decide)) (Run.nil _), ?_, htotal', hencodes⟩
  rw [hsaddr, emptyHeap_eq]

/-- Behind those of the kernel all blocks are free. -/
theorem usedHeap_freeBlock_iff
    (htotal : k.heap.table.total = 25600) (hencodes : Encodes k.heap.table {kernelBlocks}) {i : Nat}
    (hi : i < 25600) :
    FreeBlock k.heap.table i ↔ 2048 ≤ i := by
  rw [hencodes.freeBlock_iff (by omega)]
  simp only [Set.mem_singleton_iff, forall_eq, BlockRange.Contains, BlockRange.stop, kernelBlocks]
  omega

/-- A request for one block is given the first of them. -/
theorem usedHeap_malloc
    (hsaddr : k.heap.saddr = 0x1000000) (htotal : k.heap.table.total = 25600)
    (hencodes : Encodes k.heap.table {kernelBlocks}) :
    heapMalloc k.heap 1 = (0x1800000, heapMarkBlocksTaken k.heap 2048 1) := by
  have hblocks : heapTotalBlocks 1 = 1 := by decide
  have hmalloc := @heapMalloc_first k.heap 1 2048 (by decide)
    (by
      rw [hblocks]
      refine ⟨⟨by omega, fun i hi hi' => ?_⟩, fun b hrun => ?_⟩
      · exact (usedHeap_freeBlock_iff htotal hencodes (by omega)).mpr hi
      · have hlt := hrun.1
        have hfree := hrun.2 b (Nat.le_refl b) (Nat.lt_succ_self b)
        exact (usedHeap_freeBlock_iff htotal hencodes (by omega)).mp hfree)
  rw [hmalloc, hblocks, heapBlockToAddress, hsaddr]
  rfl

/-- A request for nothing is answered with the same block, which stays free. -/
theorem usedHeap_malloc_nothing
    (hsaddr : k.heap.saddr = 0x1000000) (htotal : k.heap.table.total = 25600)
    (hencodes : Encodes k.heap.table {kernelBlocks}) :
    heapMalloc k.heap 0 = (0x1800000, k.heap) := by
  have hrun : LastRun k.heap.table k.heap.table.total 2048 := by
    refine ⟨by omega, fun i hi hi' => ?_, Or.inr fun hfree => ?_⟩
    · exact (usedHeap_freeBlock_iff htotal hencodes (by omega)).mpr hi
    · have hle := (usedHeap_freeBlock_iff htotal hencodes (by decide)).mp hfree
      omega
  rw [heapMalloc_noBlock (by decide) hrun, heapBlockToAddress, hsaddr]
  rfl

/-- The block 2048 is taken, and `heap_free` of its address frees it. -/
theorem usedHeap_taken_freed
    (hsaddr : k.heap.saddr = 0x1000000) (htotal : k.heap.table.total = 25600)
    (hencodes : Encodes k.heap.table {kernelBlocks}) {heap : Heap}
    (hheap : heap = heapMarkBlocksTaken k.heap 2048 1) :
    ¬ FreeBlock heap.table 2048 ∧ FreeBlock (heapFree heap 0x1800000).table 2048 := by
  let r : BlockRange := ⟨2048, 1, Nat.one_pos⟩
  subst hheap
  have htotal' := (heapMarkBlocksTaken_total k.heap 2048 1).trans htotal
  have hencodes' : Encodes (heapMarkBlocksTaken k.heap 2048 1).table (insert r {kernelBlocks}) := by
    refine hencodes.taken r (by rw [htotal]; decide) fun q hq => ?_
    rw [Set.mem_singleton_iff.mp hq]
    exact Or.inr (by decide)
  refine ⟨?_, ?_⟩
  · rw [hencodes'.freeBlock_iff (by omega)]
    exact fun hall => hall r (Set.mem_insert r _) r.contains_start
  · have hblock : heapAddressToBlock (heapMarkBlocksTaken k.heap 2048 1) 0x1800000 = r.start := by
      rw [heapAddressToBlock, heapMarkBlocksTaken_saddr, hsaddr]
      rfl
    rw [heapFree, hblock, FreeBlock, (hencodes'.heapMarkBlocksFree_spec (by rw [htotal']; decide)
      (Set.mem_insert r _)).1, tableCount, htotal']
    exact congrArg heapGetEntryType (if_pos (by decide))

/-- A process frees the block that it has. -/
theorem userRun_releasesOwn_oneUser :
    ∃ k s s', Run (Guarded NeedsBlock UserStep) (twoUsers k) [.malloc 0x1000000 1] s ∧
      UserStep s (.free 0x1000000 0x1800000) s' ∧ ReleasesOwn s 0x1000000 s' := by
  obtain ⟨k, hrun, hsaddr, htotal, hencodes⟩ := exists_usedHeap
  obtain ⟨s, hcall, -, hdirectories, hrecords, hreceived, -⟩ :=
    @HeapUsers.command4_first (twoUsers k) 0x1000000 0x1800000 0x1006000 1 processInit _ (by decide)
      rfl rfl rfl (usedHeap_malloc hsaddr htotal hencodes) (by decide)
  obtain ⟨s', hfree, -⟩ := @HeapUsers.command5_first s 0x1000000 0x1800000 0x1006000 1 _ (by decide)
    ((hrecords _).trans (if_pos rfl)) (by rw [hdirectories]; rfl) rfl
    ⟨by decide, by decide, by decide, by decide⟩
  have hcalls : Run (Guarded NeedsBlock UserStep) (twoUsers k) [.malloc 0x1000000 1] s :=
    Run.cons ⟨(by decide : heapTotalBlocks 1 ≠ 0), UserStep.malloc hcall⟩ (Run.nil s)
  have hstep : UserStep s (.free 0x1000000 0x1800000) s' := UserStep.free hreceived hfree
  exact ⟨k, s, s', hcalls, hstep, userRun_releasesOwn (twoUsers_start hrun) hcalls hstep⟩

/-- The block that a request for nothing is answered with goes to the next
process, from which the first one frees it. -/
theorem alwaysReleasesOwn_false : ¬ AlwaysReleasesOwn := by
  intro h
  obtain ⟨k, hrun, hsaddr, htotal, hencodes⟩ := exists_usedHeap
  have hnothing := usedHeap_malloc_nothing hsaddr htotal hencodes
  obtain ⟨s₁, hcall₁, hheap₁, hdirectories₁, hrecords₁, hreceived₁, -⟩ :=
    @HeapUsers.command4_first (twoUsers k) 0x1000000 0x1800000 0x1006000 0 processInit _ (by decide)
      rfl rfl rfl hnothing (by decide)
  obtain ⟨s₂, hcall₂, hheap₂, hdirectories₂, hrecords₂, -, hreceived₂⟩ :=
    @HeapUsers.command4_first s₁ 0x1003000 0x1800000 0x1006000 1 processInit _ (by decide)
      ((hrecords₁ _).trans (if_neg (by decide))) (by rw [hdirectories₁]; rfl) rfl
      (by rw [hheap₁]; exact usedHeap_malloc hsaddr htotal hencodes) (by decide)
  have hrecord : s₂.records 0x1000000 = _ :=
    ((hrecords₂ _).trans (if_neg (by decide))).trans ((hrecords₁ _).trans (if_pos rfl))
  obtain ⟨s₃, hfree, hheap₃⟩ := @HeapUsers.command5_first s₂ 0x1000000 0x1800000 0x1006000 0 _
    (by decide) hrecord (by rw [hdirectories₂, hdirectories₁]; rfl) rfl
    ⟨by decide, by decide, by decide, by decide⟩
  have hcalls : Run UserStep (twoUsers k) [.malloc 0x1000000 0, .malloc 0x1003000 1] s₂ :=
    Run.cons (UserStep.malloc hcall₁) (Run.cons (UserStep.malloc hcall₂) (Run.nil s₂))
  have hreleases := h _ _ s₂ 0x1000000 0x1800000 s₃ (twoUsers_start hrun) hcalls
    (UserStep.free (hreceived₂ _ hreceived₁) hfree)
  obtain ⟨htaken, hfreed⟩ := usedHeap_taken_freed hsaddr htotal hencodes hheap₂
  rw [← hheap₃] at hfreed
  obtain ⟨⟨j, a, ⟨record, hrecord', -, hne, rfl⟩, hhas⟩, -⟩ :=
    hreleases 2048 (by rw [hheap₂, heapMarkBlocksTaken_total, htotal]; decide) htaken hfreed
  obtain rfl := Option.some.inj (hrecord.symm.trans hrecord')
  dsimp only at hne hhas
  split_ifs at hne hhas
  · have hnone : blocksFor 0 = 0 := by decide
    rw [Allocation.Has] at hhas
    dsimp only at hhas
    omega
  · exact hne rfl

end TwoUsers

end PeachOS
