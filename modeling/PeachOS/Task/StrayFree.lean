import PeachOS.Task.HeapUsers

/-!
# Frees of what is not allocated

`process_free` with a pointer that the process has not been given, or has freed
before.  The lookup finds such a pointer in no entry, or in one whose pages
cannot be unmapped, and nothing happens.  The null pointer is the exception: it
is found in every entry that is not used, and is then freed like an allocation,
at a block before the table.
-/

namespace PeachOS

open Lib

/-- What each process has been given and has not freed is kept beside the state:
no call reads it. -/
structure Holders where
  users : HeapUsers
  live : Ptr → List Ptr

/-- A process frees any pointer. -/
inductive HolderStep : Holders → UserCall → Holders → Prop
  | malloc {s : Holders} {users : HeapUsers} {process p : Ptr} {size : Word}
      (hsize : 1 ≤ size.toNat) (hcall : s.users.processMalloc process size = .ok (p, users)) :
      HolderStep s (.malloc process size)
        ⟨users, fun q => if q = process ∧ p ≠ 0 then p :: s.live q else s.live q⟩
  | free {s : Holders} {users : HeapUsers} {process p : Ptr}
      (hcall : s.users.processFree process p = .ok users) :
      HolderStep s (.free process p)
        ⟨users, fun q => if q = process then (s.live q).filter (· ≠ p) else s.live q⟩

/-- A process that has just been loaded, on the heap of the kernel. -/
structure JustLoaded (s : Holders) (process : Ptr) : Prop where
  saddr : s.users.heap.saddr = BitVec.ofNat 32 heapAddress
  total : s.users.heap.table.total = heapSizeBytes / heapBlockSize
  notNull : process ≠ 0
  directory : ∃ directory, s.users.directories process = some directory
  record : ∃ record, s.users.records process = some record ∧ ∀ i, record.allocations i = ⟨0, 0⟩
  live : s.live process = []

/-- The free returns and leaves the allocations, the pages and the block table with
all that is around it as they are. -/
def FreesNothing (s : HeapUsers) (process p : Ptr) : Prop :=
  ∃ s', s.processFree process p = .ok s' ∧ s'.records = s.records ∧ s'.mem = s.mem ∧
    s'.heap.table.entries = s.heap.table.entries

/-- The pages of an entry can be mapped and unmapped. -/
def Unmappable (allocation : ProcessAllocation) : Prop :=
  Mappable allocation.ptr allocation.ptr
    (pagingIsAllignedAddress (allocation.ptr + allocation.size))

/-- Unused entries are cleared, and one at a pointer that is not live stays for
good. -/
structure StrayRecord (record : ProcessRecord) (live : List Ptr) : Prop where
  unused : ∀ i, (record.allocations i).ptr = 0 → record.allocations i = ⟨0, 0⟩
  stays : ∀ p, p ≠ 0 → p ∉ live → ∀ allocation,
    Kernel.processGetAllocationByAddr record p = some allocation → ¬ Unmappable allocation

structure StrayInv (process : Ptr) (s : Holders) : Prop where
  saddr : s.users.heap.saddr = BitVec.ofNat 32 heapAddress
  total : s.users.heap.table.total = heapSizeBytes / heapBlockSize
  directory : ∃ directory, s.users.directories process = some directory
  record : ∃ record, s.users.records process = some record ∧ StrayRecord record (s.live process)

/-- The lookup of a pointer sees the entries at that pointer only. -/
theorem Kernel.processGetAllocationByAddr_congr
    {record record' : ProcessRecord} {p : Ptr}
    (hptr : ∀ i, (record'.allocations i).ptr = p ↔ (record.allocations i).ptr = p)
    (hentry : ∀ i, (record.allocations i).ptr = p → record'.allocations i = record.allocations i) :
    Kernel.processGetAllocationByAddr record' p = Kernel.processGetAllocationByAddr record p := by
  have hpred : (fun i => decide ((record'.allocations i).ptr = p)) =
      fun i => decide ((record.allocations i).ptr = p) := by
    funext i
    rw [decide_eq_decide]
    exact hptr i
  rw [Kernel.processGetAllocationByAddr, Kernel.processGetAllocationByAddr, hpred]
  generalize List.range maxProgramAllocations = indexes
  cases hfind : indexes.find? fun i => decide ((record.allocations i).ptr = p) with
  | none => rfl
  | some i =>
      have hptr := List.find?_some hfind
      exact congrArg some (hentry i (of_decide_eq_true hptr))

namespace StrayRecord

variable {record : ProcessRecord} {live : List Ptr}

/-- A new entry is live. -/
theorem use
    (h : StrayRecord record live) {index : Nat}
    (hindex : Kernel.processFindFreeAllocationIndex record = some index) {p : Ptr} (hp : p ≠ 0)
    (size : Word) :
    StrayRecord { record with
      allocations := fun i => if i = index then ⟨p, size⟩ else record.allocations i }
      (p :: live) := by
  obtain ⟨-, hfree⟩ := Kernel.processFindFreeAllocationIndex_some hindex
  constructor
  · intro i hi
    dsimp only at hi ⊢
    split_ifs at hi ⊢
    · exact absurd hi hp
    · exact h.unused i hi
  · intro q hq hlive allocation hget
    have hne : p ≠ q := fun heq => hlive (heq ▸ List.mem_cons_self)
    have hothers (i : Nat) (hi : (record.allocations i).ptr = q) : i ≠ index := by
      rintro rfl
      exact hq (hi.symm.trans hfree)
    refine h.stays q hq (fun hmem => hlive (List.mem_cons_of_mem p hmem)) allocation ?_
    rw [← hget]
    refine (Kernel.processGetAllocationByAddr_congr (fun i => ?_) fun i hi => ?_).symm
    · dsimp only
      split_ifs with hi
      · subst hi
        exact iff_of_false hne fun heq => hq (heq.symm.trans hfree)
      · rfl
    · exact if_neg (hothers i hi)

/-- A pointer whose entries have been cleared is found no more. -/
theorem unjoin
    (h : StrayRecord record live) (p : Ptr) :
    StrayRecord (Kernel.processAllocationUnjoin record p) (live.filter (· ≠ p)) := by
  constructor
  · intro i hi
    rw [Kernel.processAllocationUnjoin] at hi ⊢
    dsimp only at hi ⊢
    split_ifs at hi ⊢
    · rfl
    · exact h.unused i hi
  · intro q hq hlive allocation hget
    by_cases hqp : q = p
    · obtain ⟨i, -, hentry, hptr⟩ := Kernel.processGetAllocationByAddr_some hget
      rw [← hentry, hqp, Kernel.processAllocationUnjoin] at hptr
      dsimp only at hptr
      split_ifs at hptr with hi
      · exact absurd (hqp.trans hptr.symm) hq
      · exact absurd hptr hi
    · refine h.stays q hq (fun hmem => hlive ?_) allocation ?_
      · exact List.mem_filter.mpr ⟨hmem, decide_eq_true hqp⟩
      · rw [← hget]
        refine (Kernel.processGetAllocationByAddr_congr (fun i => ?_) fun i hi => ?_).symm
        · rw [Kernel.processAllocationUnjoin]
          dsimp only
          split_ifs with hi
          · exact iff_of_false (fun heq => hq heq.symm) fun heq => hqp (heq.symm.trans hi)
          · rfl
        · exact if_neg fun heq => hqp (hi.symm.trans heq)

/-- A free that finds nothing, or cannot unmap what it finds. -/
theorem drop
    (h : StrayRecord record live) {p : Ptr}
    (hp : ∀ allocation, Kernel.processGetAllocationByAddr record p = some allocation →
      ¬ Unmappable allocation) :
    StrayRecord record (live.filter (· ≠ p)) := by
  refine ⟨h.unused, fun q hq hlive allocation hget => ?_⟩
  by_cases hqp : q = p
  · exact hp allocation (hqp ▸ hget)
  · exact h.stays q hq (fun hmem => hlive (List.mem_filter.mpr ⟨hmem, decide_eq_true hqp⟩))
      allocation hget

/-- Clearing the unused entries changes nothing. -/
theorem unjoin_null
    (h : StrayRecord record live) :
    Kernel.processAllocationUnjoin record 0 = record := by
  have hsame : (Kernel.processAllocationUnjoin record 0).allocations = record.allocations := by
    funext i
    rw [Kernel.processAllocationUnjoin]
    dsimp only
    split_ifs with hi
    · exact (h.unused i hi).symm
    · rfl
  rw [Kernel.processAllocationUnjoin] at hsame ⊢
  dsimp only at hsame
  rw [hsame]

end StrayRecord

section Calls

variable {s s' : HeapUsers} {process p : Ptr} {record : ProcessRecord}

theorem HeapUsers.processFree_of_none
    (hprocess : process ≠ 0) (hrecord : s.records process = some record)
    (hget : Kernel.processGetAllocationByAddr record p = none) :
    s.processFree process p = .ok s := by
  rw [HeapUsers.processFree, follow_of_some hprocess hrecord, ok_bind, hget]
  rfl

/-- The entry that is found stays, or it is unmapped and cleared. -/
theorem HeapUsers.processFree_of_some
    {allocation : ProcessAllocation} {directory : Ptr} (hprocess : process ≠ 0)
    (hrecord : s.records process = some record) (hdirectory : s.directories process = some directory)
    (hget : Kernel.processGetAllocationByAddr record p = some allocation) :
    (¬ Unmappable allocation ∧ s.processFree process p = .ok s) ∨
      Unmappable allocation ∧ s.processFree process p =
        .ok (({ s with
          mem := (pagingMapTo s.mem directory allocation.ptr allocation.ptr
            (pagingIsAllignedAddress (allocation.ptr + allocation.size)) 0).2 }.setRecord process
          (Kernel.processAllocationUnjoin record p)).kfree p) := by
  rw [HeapUsers.processFree, follow_of_some hprocess hrecord, ok_bind, hget]
  dsimp only
  rw [follow_of_some hprocess hdirectory, ok_bind]
  by_cases hmap : Unmappable allocation
  · have hres := @pagingMapRange_returns s.mem directory allocation.ptr allocation.ptr
      hmap.alignedVirt hmap.alignedPhys 0 ((pagingIsAllignedAddress
        (allocation.ptr + allocation.size) - allocation.ptr).toNat / pagingPageSize)
    refine Or.inr ⟨hmap, ?_⟩
    rw [pagingMapTo_of_mappable hmap, hres, if_neg (by decide)]
    rfl
  · refine Or.inl ⟨hmap, ?_⟩
    rw [pagingMapTo_of_not_mappable hmap]
    rfl

/-- What a request does to the table of allocations. -/
theorem HeapUsers.processMalloc_cases
    {size : Word} (hcall : s.processMalloc process size = .ok (p, s')) :
    s'.heap.saddr = s.heap.saddr ∧ s'.heap.table.total = s.heap.table.total ∧
      s'.directories = s.directories ∧
      (p = 0 ∧ s'.records = s.records ∨
        p ≠ 0 ∧ ∃ record index, s.records process = some record ∧
          Kernel.processFindFreeAllocationIndex record = some index ∧
          s'.records = (s.setRecord process { record with
            allocations := fun i =>
              if i = index then ⟨p, size⟩ else record.allocations i }).records) := by
  have htotal := heapMalloc_total s.heap size
  have hsaddr := heapMalloc_saddr s.heap size
  rw [HeapUsers.processMalloc, HeapUsers.kzalloc] at hcall
  rcases hk : heapMalloc s.heap size with ⟨ptr, heap⟩
  rw [hk] at hcall htotal hsaddr
  dsimp only at hcall htotal hsaddr
  by_cases h0 : ptr = 0
  · rw [if_pos h0] at hcall
    dsimp only at hcall
    rw [if_pos rfl] at hcall
    cases hcall
    exact ⟨hsaddr, htotal, rfl, Or.inl ⟨rfl, rfl⟩⟩
  · rw [if_neg h0] at hcall
    dsimp only at hcall
    rw [if_neg h0] at hcall
    obtain ⟨record, hrecord, hcall⟩ := bind_eq_ok_iff.mp hcall
    replace hrecord := (follow_inv hrecord).2
    cases hindex : Kernel.processFindFreeAllocationIndex record with
    | none =>
        rw [hindex] at hcall
        cases hcall
        refine ⟨hsaddr, (heapFree_total heap ptr).trans htotal, rfl, Or.inl ⟨rfl, rfl⟩⟩
    | some index =>
        rw [hindex] at hcall
        obtain ⟨directory, -, hcall⟩ := bind_eq_ok_iff.mp hcall
        cases hcall
        exact ⟨hsaddr, htotal, rfl, Or.inr ⟨h0, record, index, hrecord, hindex, rfl⟩⟩

/-- What a free does to the table of allocations. -/
theorem HeapUsers.processFree_cases
    (hcall : s.processFree process p = .ok s') :
    s'.heap.saddr = s.heap.saddr ∧ s'.heap.table.total = s.heap.table.total ∧
      s'.directories = s.directories ∧ ∃ record, s.records process = some record ∧
      ((∀ allocation, Kernel.processGetAllocationByAddr record p = some allocation →
          ¬ Unmappable allocation) ∧ s'.records = s.records ∨
        s'.records =
          (s.setRecord process (Kernel.processAllocationUnjoin record p)).records) := by
  have hcall' := hcall
  rw [HeapUsers.processFree] at hcall
  obtain ⟨record, hfollow, hcall⟩ := bind_eq_ok_iff.mp hcall
  obtain ⟨hprocess, hrecord⟩ := follow_inv hfollow
  cases hget : Kernel.processGetAllocationByAddr record p with
  | none =>
      rw [hget] at hcall
      cases hcall
      exact ⟨rfl, rfl, rfl, record, hrecord, Or.inl ⟨fun _ h => absurd h (by simp [hget]), rfl⟩⟩
  | some allocation =>
      rw [hget] at hcall
      obtain ⟨directory, hfollow, -⟩ := bind_eq_ok_iff.mp hcall
      obtain ⟨-, hdirectory⟩ := follow_inv hfollow
      rcases HeapUsers.processFree_of_some hprocess hrecord hdirectory hget with
        ⟨hstays, heq⟩ | ⟨-, heq⟩
      · cases heq.symm.trans hcall'
        refine ⟨rfl, rfl, rfl, record, hrecord, Or.inl ⟨fun _ h => ?_, rfl⟩⟩
        cases hget.symm.trans h
        exact hstays
      · cases heq.symm.trans hcall'
        exact ⟨rfl, heapFree_total s.heap p, rfl, record, hrecord, Or.inr rfl⟩

end Calls

section Runs

variable {s s' : Holders} {process : Ptr}

theorem JustLoaded.inv
    (h : JustLoaded s process) :
    StrayInv process s := by
  obtain ⟨record, hrecord, hempty⟩ := h.record
  refine ⟨h.saddr, h.total, h.directory, record, hrecord, fun i _ => hempty i, ?_⟩
  intro p hp _ allocation hget
  obtain ⟨i, -, hentry, hptr⟩ := Kernel.processGetAllocationByAddr_some hget
  rw [← hentry, hempty i] at hptr
  exact absurd hptr.symm hp

/-- The calls of other processes leave the record alone. -/
theorem StrayInv.step
    {call : UserCall} (h : StrayInv process s) (hstep : HolderStep s call s') :
    StrayInv process s' := by
  obtain ⟨hsaddr, htotal, ⟨directory, hdirectory⟩, record, hrecord, hstray⟩ := h
  cases hstep with
  | @malloc users caller p size hsize hcall =>
      obtain ⟨hsaddr', htotal', hdirectories, hcases⟩ := HeapUsers.processMalloc_cases hcall
      refine ⟨hsaddr'.trans hsaddr, htotal'.trans htotal, ⟨directory, ?_⟩, ?_⟩
      · dsimp only
        rw [hdirectories, hdirectory]
      · dsimp only
        rcases hcases with ⟨rfl, hrecords⟩ | ⟨hp, record', index, hrecord', hindex, hrecords⟩
        · rw [hrecords, if_neg (fun h => h.2 rfl)]
          exact ⟨record, hrecord, hstray⟩
        · rw [hrecords]
          by_cases hq : process = caller
          · subst hq
            obtain rfl := Option.some.inj (hrecord.symm.trans hrecord')
            rw [if_pos ⟨rfl, hp⟩]
            exact ⟨_, if_pos rfl, hstray.use hindex hp size⟩
          · rw [if_neg (fun h => hq h.1)]
            exact ⟨record, (if_neg hq).trans hrecord, hstray⟩
  | @free users caller p hcall =>
      obtain ⟨hsaddr', htotal', hdirectories, record', hrecord', hcases⟩ :=
        HeapUsers.processFree_cases hcall
      refine ⟨hsaddr'.trans hsaddr, htotal'.trans htotal, ⟨directory, ?_⟩, ?_⟩
      · dsimp only
        rw [hdirectories, hdirectory]
      · dsimp only
        by_cases hq : process = caller
        · subst hq
          obtain rfl := Option.some.inj (hrecord.symm.trans hrecord')
          rw [if_pos rfl]
          rcases hcases with ⟨hstays, hrecords⟩ | hrecords
          · rw [hrecords]
            exact ⟨record, hrecord, hstray.drop hstays⟩
          · rw [hrecords]
            exact ⟨_, if_pos rfl, hstray.unjoin p⟩
        · rw [if_neg hq]
          rcases hcases with ⟨-, hrecords⟩ | hrecords
          · rw [hrecords]
            exact ⟨record, hrecord, hstray⟩
          · rw [hrecords]
            exact ⟨record, (if_neg hq).trans hrecord, hstray⟩

theorem JustLoaded.run
    {s₀ : Holders} {calls : List UserCall} (h : JustLoaded s₀ process)
    (hrun : Run HolderStep s₀ calls s) :
    StrayInv process s :=
  Run.invariant (StrayInv process) (fun _ _ _ h hstep => h.step hstep) hrun h.inv

/-- The free of a null pointer that finds an unused entry. -/
theorem HeapUsers.processFree_null
    {users : HeapUsers} {record : ProcessRecord} {live : List Ptr} {directory : Ptr}
    {allocation : ProcessAllocation} (hprocess : process ≠ 0)
    (hrecord : users.records process = some record) (hstray : StrayRecord record live)
    (hdirectory : users.directories process = some directory)
    (hget : Kernel.processGetAllocationByAddr record 0 = some allocation) :
    users.processFree process 0 = .ok { users with heap := heapFree users.heap 0 } := by
  obtain ⟨i, -, rfl, hptr⟩ := Kernel.processGetAllocationByAddr_some hget
  have hentry := hstray.unused i hptr
  rw [hentry] at hget
  have hmap : Unmappable ⟨0, 0⟩ := ⟨by decide, by decide, by decide, by decide⟩
  rcases HeapUsers.processFree_of_some hprocess hrecord hdirectory hget with ⟨hnot, -⟩ | ⟨-, heq⟩
  · exact absurd hmap hnot
  · have hrecords : (fun q => if q = process then some record else users.records q) =
        users.records := by
      funext q
      split_ifs with hq
      · rw [hq, hrecord]
      · rfl
    rw [heq, hstray.unjoin_null, HeapUsers.setRecord, hrecords]
    rfl

/-- The block of the null pointer is 4096 blocks before the table. -/
theorem heapFree_null_unchanged_iff
    {heap : Heap} (hsaddr : heap.saddr = BitVec.ofNat 32 heapAddress)
    (htotal : heap.table.total = heapSizeBytes / heapBlockSize) :
    (heapFree heap 0).table.entries = heap.table.entries ↔
      heap.table.entries (-4096) = blockTableEntryFree := by
  have hblock : heapAddressToBlock heap 0 = -4096 := by
    rw [heapAddressToBlock, hsaddr]
    rfl
  have hcount : (toInt heap.table.total - -4096).toNat = 29695 + 1 := by
    rw [htotal]
    rfl
  rw [heapFree, hblock, heapMarkBlocksFree, hcount]
  exact heapMarkBlocksFreeLoop_unchanged_iff 29695 (-4096) heap.table

/-- Freeing a pointer that is not live changes nothing, unless it is the null
pointer, an entry is unused and the byte 4096 bytes before the table is not
zero. -/
theorem processFree_notLive_iff
    {s₀ : Holders} {calls : List UserCall} (hloaded : JustLoaded s₀ process)
    (hrun : Run HolderStep s₀ calls s) (p : Ptr) (hp : p ∉ s.live process) :
    FreesNothing s.users process p ↔
      p ≠ 0 ∨
        (∀ record, s.users.records process = some record →
          ∀ i < maxProgramAllocations, (record.allocations i).ptr ≠ 0) ∨
        s.users.heap.table.entries (-4096) = blockTableEntryFree := by
  have hprocess := hloaded.notNull
  obtain ⟨hsaddr, htotal, ⟨directory, hdirectory⟩, record, hrecord, hstray⟩ := hloaded.run hrun
  cases hget : Kernel.processGetAllocationByAddr record p with
  | none =>
      refine iff_of_true ⟨_, HeapUsers.processFree_of_none hprocess hrecord hget, rfl, rfl, rfl⟩ ?_
      by_cases h0 : p = 0
      · refine Or.inr (Or.inl fun record' hrecord' i hi => ?_)
        obtain rfl := Option.some.inj (hrecord.symm.trans hrecord')
        exact h0 ▸ Kernel.processGetAllocationByAddr_none hget hi
      · exact Or.inl h0
  | some allocation =>
      by_cases h0 : p = 0
      · subst h0
        have heq := HeapUsers.processFree_null hprocess hrecord hstray hdirectory hget
        have hunchanged := heapFree_null_unchanged_iff hsaddr htotal
        obtain ⟨i, hi, rfl, hptr⟩ := Kernel.processGetAllocationByAddr_some hget
        constructor
        · rintro ⟨users, hcall, -, -, hentries⟩
          cases heq.symm.trans hcall
          exact Or.inr (Or.inr (hunchanged.mp hentries))
        · rintro (hne | hfull | hzero)
          · exact absurd rfl hne
          · exact absurd hptr (hfull record hrecord i hi)
          · exact ⟨_, heq, rfl, rfl, hunchanged.mpr hzero⟩
      · have hstays := hstray.stays p h0 hp allocation hget
        refine iff_of_true ?_ (Or.inl h0)
        rcases HeapUsers.processFree_of_some hprocess hrecord hdirectory hget with
          ⟨-, heq⟩ | ⟨hmap, -⟩
        · exact ⟨_, heq, rfl, rfl, rfl⟩
        · exact absurd hmap hstays

end Runs

/-- The first 2048 blocks are taken; `below` is the byte 4096 bytes before the table. -/
def kernelEntries (below : Byte) (i : Int) : BlockTableEntry :=
  if i = -4096 then below else if 0 ≤ i ∧ i < 2048 then blockTableEntryTaken else blockTableEntryFree

/-- One process on a heap whose first blocks are the kernel's. -/
def oneHolder (below : Byte) : Holders where
  users :=
    { heap := ⟨⟨kernelEntries below, 25600, []⟩, 0x1000000⟩
      mem := fun _ _ => 0
      records := fun q => if q = 0x1000000 then some processInit else none
      directories := fun q => if q = 0x1000000 then some 0x1006000 else none
      kernel := []
      received := fun _ => [] }
  live := fun _ => []

theorem oneHolder_loaded (below : Byte) : JustLoaded (oneHolder below) 0x1000000 :=
  ⟨rfl, rfl, by decide, ⟨0x1006000, rfl⟩, ⟨processInit, rfl, fun _ => rfl⟩, rfl⟩

theorem oneHolder_freeBlock_iff
    (below : Byte) (i : Nat) :
    FreeBlock (oneHolder below).users.heap.table i ↔ 2048 ≤ i := by
  have hentries : (oneHolder below).users.heap.table.entries = kernelEntries below := rfl
  rw [FreeBlock, hentries, kernelEntries, if_neg (by omega)]
  by_cases hi : i < 2048
  · rw [if_pos (by omega)]
    exact iff_of_false (by decide) (Nat.not_le_of_lt hi)
  · rw [if_neg (by omega)]
    exact iff_of_true (by decide) (Nat.le_of_not_lt hi)

/-- A process gets a block and frees it. -/
theorem oneHolder_run (below : Byte) :
    ∃ s, Run HolderStep (oneHolder below)
        [.malloc 0x1000000 1, .free 0x1000000 0x1800000] s ∧ s.live 0x1000000 = [] := by
  have hblocks : heapTotalBlocks 1 = 1 := by decide
  have hmalloc := @heapMalloc_first (oneHolder below).users.heap 1 2048 (by decide) (by
    rw [hblocks]
    refine ⟨⟨?_, fun i hi _ => (oneHolder_freeBlock_iff below i).mpr hi⟩, fun b hrun =>
      (oneHolder_freeBlock_iff below b).mp (hrun.2 b (Nat.le_refl b) (Nat.lt_succ_self b))⟩
    exact (by decide : 2048 + 1 ≤ 25600))
  have haddress : heapBlockToAddress (oneHolder below).users.heap (2048 : Nat) = 0x1800000 := by
    rw [heapBlockToAddress, (oneHolder_loaded below).saddr]
    rfl
  rw [haddress] at hmalloc
  obtain ⟨users, hcall, -, hdirectories, -, hrecords⟩ :=
    @HeapUsers.processMalloc_first (oneHolder below).users 0x1000000 0x1800000 0x1006000 1
      processInit _ (by decide) rfl rfl rfl hmalloc (by decide)
  obtain ⟨users', hfree, -⟩ := @HeapUsers.command5_first users 0x1000000 0x1800000 0x1006000 1 _
    (by decide) ((hrecords _).trans (if_pos rfl)) (by rw [hdirectories]; rfl) rfl
    ⟨by decide, by decide, by decide, by decide⟩
  exact ⟨_, .cons (.malloc (by decide) hcall) (.cons (.free hfree) (.nil _)), rfl⟩

/-- The same block is freed again. -/
theorem processFree_notLive_iff_twice :
    ∃ s, Run HolderStep (oneHolder 1) [.malloc 0x1000000 1, .free 0x1000000 0x1800000] s ∧
      FreesNothing s.users 0x1000000 0x1800000 := by
  obtain ⟨s, hrun, hlive⟩ := oneHolder_run 1
  refine ⟨s, hrun, (processFree_notLive_iff (oneHolder_loaded 1) hrun 0x1800000 ?_).mpr
    (Or.inl (by decide))⟩
  rw [hlive]
  exact List.not_mem_nil

def AlwaysFreesNothing : Prop :=
  ∀ s₀ process calls s p, JustLoaded s₀ process → Run HolderStep s₀ calls s →
    p ∉ s.live process → FreesNothing s.users process p

/-- The null pointer clears the byte. -/
theorem alwaysFreesNothing_false : ¬ AlwaysFreesNothing := by
  intro h
  have hstart := oneHolder_loaded 1
  obtain ⟨-, -, ⟨directory, hdirectory⟩, record, hrecord, hstray⟩ := hstart.inv
  obtain ⟨users, hcall, -, -, hentries⟩ :=
    h (oneHolder 1) 0x1000000 [] (oneHolder 1) 0 hstart (Run.nil _) List.not_mem_nil
  have hget : Kernel.processGetAllocationByAddr processInit 0 = some ⟨0, 0⟩ := by
    have hfirst := @find_first (fun i => decide ((processInit.allocations i).ptr = 0)) rfl
    rw [Kernel.processGetAllocationByAddr, hfirst]
    rfl
  obtain rfl := Option.some.inj (hrecord : some processInit = some record)
  have heq := HeapUsers.processFree_null hstart.notNull hrecord hstray hdirectory hget
  cases heq.symm.trans hcall
  have hzero := (heapFree_null_unchanged_iff hstart.saddr hstart.total).mp hentries
  exact absurd hzero (by decide)

end PeachOS
