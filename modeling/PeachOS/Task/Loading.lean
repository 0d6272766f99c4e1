import PeachOS.Loader.HeaderReads
import PeachOS.Task.Ownership

/-!
# A load that succeeds

The process has its blocks for itself, and its directory maps every page to
itself but for the pages of its program and of its stack.
-/

namespace PeachOS

open Lib

namespace Kernel

section Mapping

variable {k₀ k k' : Kernel} {process : Ptr} {f : Footprint} {rest os : List Ptr}

theorem HoldsProgram.elf_inv
    {record : ProcessRecord} {filesize : Word} {buffer : Ptr} {bs : List Ptr}
    (h : HoldsProgram k record filesize buffer bs) (helf : record.filetype = .elf) :
    ∃ file, k.elfFiles record.data = some file ∧ file.elfMemory = buffer := by
  cases h with
  | elf _ hfile _ => exact ⟨_, hfile, rfl⟩
  | binary hbinary _ _ => cases helf.symm.trans hbinary

theorem HoldsProgram.binary_inv
    {record : ProcessRecord} {filesize : Word} {buffer : Ptr} {bs : List Ptr}
    (h : HoldsProgram k record filesize buffer bs) (hbinary : record.filetype = .binary) :
    record.data = buffer ∧ record.size = filesize := by
  cases h with
  | elf helf _ _ => cases helf.symm.trans hbinary
  | binary _ hsize _ => exact ⟨rfl, hsize⟩

/-- Pages that the program and the stack are mapped to. -/
structure Leads (k : Kernel) (f : Footprint) (S : Ptr → Prop) : Prop where
  elf : f.record.filetype = .elf → ∀ phdr ∈ mappedPhdrs k.mem f.directory f.buffer,
    ∀ i < phdr.pages f.buffer, S (pageAt (phdr.phys f.buffer) i)
  binary : ∀ i < pagesOf f.filesize, S (pageAt f.buffer i)
  stack : ∀ i < pagesOf userProgramStackSize, S (pageAt f.record.stack i)

/-- Every load has pages that its program and its stack lead to. -/
theorem Leads.any (k : Kernel) (f : Footprint) : Leads k f fun _ => True :=
  ⟨fun _ _ _ _ _ => trivial, fun _ _ => trivial, fun _ _ => trivial⟩

theorem processMapProgram_remaps
    {S : Ptr → Prop} {res : Int} (h : Keeps k₀ process f rest os k) (hleads : Leads k f S)
    (hcall : k.processMapProgram f.record f.directory = .ok (res, k')) :
    ∃ mem, k' = { k with mem := mem } ∧ Remaps k.mem mem f.directory S := by
  rw [processMapProgram] at hcall
  obtain ⟨hmem, hlive⟩ := h.owns.held.buffer_mem
  cases hfiletype : f.record.filetype with
  | elf =>
      rw [hfiletype] at hcall
      obtain ⟨file, hfollow, heq⟩ := bind_eq_ok_iff.mp hcall
      obtain ⟨file', hfile, hbuffer⟩ := h.owns.held.elf_inv hfiletype
      obtain rfl : file = file' := Option.some.inj ((follow_inv hfollow).2.symm.trans hfile)
      cases heq
      refine ⟨_, rfl, ?_⟩
      rw [hbuffer]
      exact processMapElfLoop_remaps h.pageDirectory (hleads.elf hfiletype)
  | binary =>
      rw [hfiletype] at hcall
      obtain ⟨hdata, hsize⟩ := h.owns.held.binary_inv hfiletype
      have hplaced := h.holds.inv.placed f.buffer _ hlive
      have hremaps := @pagingMapTo_remaps k.mem f.directory programVirtualAddress f.record.data
        (pagingIsAllignedAddress (f.record.data + f.record.size))
        (pagingIsPresent ||| pagingAccessFromAll ||| pagingIsWriteable) S h.pageDirectory
        (by decide) fun _ i hi => by
          rw [hdata] at hi ⊢
          rw [hsize, (hplaced.mappable (by decide : PageAligned programVirtualAddress)).2] at hi
          exact hleads.binary i hi
      refine ⟨_, ?_, hremaps⟩
      cases hcall
      rfl

theorem processMapMemory_remaps
    {S : Ptr → Prop} {res : Int} (h : Keeps k₀ process f rest os k) (hleads : Leads k f S)
    (hcall : k.processMapMemory process = .ok (res, k')) :
    ∃ mem, k' = { k with mem := mem } ∧ Remaps k.mem mem f.directory S := by
  rw [processMapMemory, follow_of_some h.process_ne_zero h.owns.recorded, ok_bind, h.directoryOf,
    ok_bind] at hcall
  obtain ⟨⟨resProgram, k₁⟩, hprogram, hcall⟩ := bind_eq_ok_iff.mp hcall
  obtain ⟨mem, rfl, hremaps⟩ := processMapProgram_remaps h hleads hprogram
  dsimp only at hcall
  split_ifs at hcall with hneg
  · cases hcall
    exact ⟨mem, rfl, hremaps⟩
  · have hplaced := h.holds.inv.placed f.record.stack _ h.owns.stack
    have hstack := @pagingMapTo_remaps mem f.directory programVirtualStackAddressEnd
      f.record.stack (pagingIsAllignedAddress (f.record.stack + userProgramStackSize))
      (pagingIsPresent ||| pagingAccessFromAll ||| pagingIsWriteable) S
      (h.pageDirectory.congr hremaps.entries) (by decide) fun _ i hi => by
        rw [(hplaced.mappable (by decide : PageAligned programVirtualStackAddressEnd)).2] at hi
        exact hleads.stack i hi
    refine ⟨_, ?_, hremaps.trans hstack⟩
    cases hcall
    rfl

/-- The stack is mapped behind the program. -/
theorem processMapMemory_stack
    {res : Int} (h : Keeps k₀ process f rest os k)
    (hcall : k.processMapMemory process = .ok (res, k')) (hres : ¬ res < 0) :
    ∀ i < pagesOf userProgramStackSize,
      pagingGet k'.mem f.directory (pageAt programVirtualStackAddressEnd i) =
        pageAt f.record.stack i ||| 7 := by
  rw [processMapMemory, follow_of_some h.process_ne_zero h.owns.recorded, ok_bind, h.directoryOf,
    ok_bind] at hcall
  obtain ⟨⟨resProgram, k₁⟩, hprogram, hcall⟩ := bind_eq_ok_iff.mp hcall
  obtain ⟨mem, rfl, hremaps⟩ := processMapProgram_remaps h (Leads.any k f) hprogram
  dsimp only at hcall
  split_ifs at hcall with hneg
  · cases hcall
    exact absurd hneg hres
  · have hplaced := h.holds.inv.placed f.record.stack _ h.owns.stack
    obtain ⟨hmappable, hcount⟩ :=
      hplaced.mappable (by decide : PageAligned programVirtualStackAddressEnd)
    obtain ⟨mem', hmap, hmaps⟩ := pagingMapTo_spec (h.pageDirectory.congr hremaps.entries) hmappable
      (pagingIsPresent ||| pagingAccessFromAll ||| pagingIsWriteable)
    rw [hcount] at hmaps
    rw [hmap] at hcall
    cases hcall
    exact hmaps.mapped

/-- The tables of a process are blocks beside its program. -/
theorem Keeps.table_ne_buffer
    (h : Keeps k₀ process f rest os k) (j : Fin 1024) :
    tableAt k.mem f.directory j ≠ f.buffer := by
  obtain ⟨-, hfixed, -⟩ := List.nodup_append.mp h.nodup
  obtain ⟨-, -, hapart⟩ := List.nodup_append.mp hfixed
  obtain ⟨hbuffer, -⟩ := h.owns.held.buffer_mem
  refine hapart _ (by simp [taskBlocks, tablesOf]) _ ?_
  exact List.mem_cons_of_mem _ (List.mem_append_left _ hbuffer)

/-- What comes between the load and the mapping keeps to blocks of its own. -/
theorem Keeps.elfKept
    {k₁ : Kernel} (h : Keeps k₀ process f rest os k) (hspares : Spares [] k₁ k)
    (hloaded : k₁.pool.live f.buffer = some (pagesOf f.filesize)) :
    ElfKept k₁.mem.bytes k.mem f.directory f.buffer f.filesize := by
  obtain ⟨-, hlive⟩ := h.owns.held.buffer_mem
  have hplaced := h.holds.inv.placed f.buffer _ hlive
  have haligned := hplaced.aligned
  have hupper := hplaced.upper
  have hpage (a : Ptr) (ha : (a - f.buffer).toNat < f.filesize.toNat) :
      InBlock f.buffer (pagesOf f.filesize) (pagingAlignToLowerPage a) := by
    rw [BitVec.toNat_sub] at ha
    rw [InBlock, toNat_alignToLowerPage]
    unfold PageAligned pagesOf heapAddress heapSizeBytes pagingPageSize at *
    omega
  refine ⟨h.pageDirectory, ?_, fun a ha => ?_, fun a ha j heq => ?_⟩
  · unfold pagesOf heapAddress heapSizeBytes pagingPageSize at hupper
    omega
  · have hsame := hspares f.buffer (by rw [hloaded]; rfl) List.not_mem_nil
    rw [Pages.bytes, Pages.bytes,
      hsame.mem _ _ hloaded (pageAligned_alignToLowerPage a) (hpage a ha)]
  · obtain ⟨n, hn, -, hin⟩ := h.page (f.table_mem process k.mem j)
    have hapart := h.holds.inv.apart _ _ _ _ hn hlive (h.table_ne_buffer j)
    exact hapart.not_inBlock hin (heq ▸ hpage a ha)

end Mapping

section Load

variable {k k₁ k₂ k' : Kernel} {program : Program} {process task : Ptr} {slot : Nat}

/-- A load that succeeds has come to the mapping and behind it. -/
theorem processLoadForSlot_inv
    (hinv : k.pool.Inv) (h : k.processLoadForSlot program slot = .ok (0, process, k')) :
    ∃ k₁ resTask task k₂ resMap k₃, k.processNew = (process, k₁) ∧ process ≠ 0 ∧
      k₁.loadTask program process slot = .ok (resTask, task, k₂) ∧ ¬ resTask < 0 ∧
      k₂.processMapMemory process = .ok (resMap, k₃) ∧ ¬ resMap < 0 ∧
      k' = { k₃ with
        sched :=
          { k₃.sched with
            processes := fun i => if i = slot then process else k₃.sched.processes i } } := by
  rw [processLoadForSlot] at h
  split_ifs at h with hslot
  rcases hnew : k.processNew with ⟨process', k₁⟩
  rw [hnew] at h
  dsimp only at h
  by_cases hne : process' = 0
  · rw [if_pos hne] at h
    cases h
  · rw [if_neg hne] at h
    obtain ⟨⟨resTask, task, k₂⟩, htask, h⟩ := bind_eq_ok_iff.mp h
    dsimp only at h
    by_cases hneg : resTask < 0
    · rw [if_pos hneg] at h
      obtain ⟨k₃, -, heq⟩ := bind_eq_ok_iff.mp h
      cases heq
      cases hneg
    · rw [if_neg hneg] at h
      obtain ⟨-, -, -, -, -, chunk, directory, record, buffer, bs, os, hstarted⟩ :=
        (processNew_inv hinv hnew hne).start htask hneg
      rw [if_neg hstarted.task_ne_zero] at h
      obtain ⟨⟨resMap, k₃⟩, hmap, h⟩ := bind_eq_ok_iff.mp h
      dsimp only at h
      by_cases hneg' : resMap < 0
      · rw [if_pos hneg'] at h
        obtain ⟨k₄, -, heq⟩ := bind_eq_ok_iff.mp h
        cases heq
        cases hneg'
      · rw [if_neg hneg'] at h
        cases h
        exact ⟨k₁, resTask, task, k₂, resMap, k₃, rfl, hne, htask, hneg, hmap, hneg', rfl⟩

theorem allocated_none
    {record : ProcessRecord} (h : record.allocations = processInit.allocations) :
    allocated record = [] := by
  refine List.eq_nil_iff_forall_not_mem.mpr fun p hp => ?_
  obtain ⟨i, -, heq, hne⟩ := mem_allocated.mp hp
  rw [h] at heq
  exact hne heq.symm

/-- A new directory maps every page to itself. -/
theorem pagingGet_identity
    {mem : Pages} {directory : Ptr} {flags : Word}
    (h : ∀ i, mem (tableAt mem directory i) = identityTable i flags) {v : Ptr}
    (hv : PageAligned v) :
    pagingGet mem directory v = v ||| flags := by
  rw [pagingGet_of_aligned hv, h, identityTable]
  refine congrArg (· ||| flags) (BitVec.eq_of_toNat_eq ?_)
  have hlt := v.isLt
  unfold PageAligned at hv
  rw [BitVec.toNat_ofNat]
  simp only [directoryIndex, tableIndex, pagingTotalEntriesPerTable, pagingPageSize] at *
  omega

/-- What a load leaves behind that succeeds. -/
structure Loaded (k : Kernel) (process : Ptr) (f : Footprint) (os : List Ptr) (S : Ptr → Prop)
    (k' : Kernel) : Prop where
  keeps : Keeps k process f [] os k'
  spares : Spares [] k k'
  none : allocated f.record = []
  procs : ∀ q, q ≠ process → k'.sched.procs q = k.sched.procs q
  pageDirectoryOf : ∀ q, q ≠ f.task → k'.sched.pageDirectoryOf q = k.sched.pageDirectoryOf q
  currentProcess : k'.sched.currentProcess = k.sched.currentProcess
  leaves : k'.sched.CanLeave f.task
  processOf : k'.sched.processOf f.task = some process
  tail : k'.sched.taskTail = f.task
  entry : ∀ i, k'.mem f.directory i = tableAt k'.mem f.directory i ||| 7
  get : ∀ v, PageAligned v → pagingGet k'.mem f.directory v = v ||| 5 ∨
    S (pagingGet k'.mem f.directory v &&& 0xfffff000)
  stack : ∀ i < pagesOf userProgramStackSize,
    pagingGet k'.mem f.directory (pageAt programVirtualStackAddressEnd i) =
      pageAt f.record.stack i ||| 7

def startFootprint (program : Program) (record : ProcessRecord) (task chunk directory buffer : Ptr)
    (bs : List Ptr) : Footprint where
  record := record
  task := task
  chunk := chunk
  directory := directory
  filesize := program.filesize
  buffer := buffer
  program := bs

theorem ProcessStarted.keeps
    {chunk directory : Ptr} {record : ProcessRecord} {buffer : Ptr} {bs os : List Ptr}
    (h : ProcessStarted k program process task chunk directory record buffer bs os k') :
    Keeps k process (startFootprint program record task chunk directory buffer bs) [] os k' where
  owns := by
    refine ⟨h.recorded, h.held, h.link, ?_, h.chunk, h.stack, fun i _ hne => ?_⟩
    · exact (h.pageDirectoryOf task).trans (if_pos rfl)
    · refine absurd ?_ hne
      rw [show (startFootprint program record task chunk directory buffer bs).record.allocations =
        processInit.allocations from h.allocations]
      rfl
  holds := by
    have hnone : allocated (startFootprint program record task chunk directory buffer bs).record =
        [] := allocated_none h.allocations
    rw [Footprint.blocks, hnone, List.nil_append, List.append_nil]
    exact h.holds

theorem processLoadForSlot_loaded
    (S : Footprint → Ptr → Prop) (hinv : k.pool.Inv)
    (h : k.processLoadForSlot program slot = .ok (0, process, k'))
    (hleads : ∀ k₁ resTask task k₂ f os, k.processNew = (process, k₁) →
      k₁.loadTask program process slot = .ok (resTask, task, k₂) →
      Keeps k process f [] os k₂ → f.filesize = program.filesize → Leads k₂ f (S f)) :
    ∃ f os, Loaded k process f os (S f) k' := by
  obtain ⟨k₁, resTask, task, k₂, resMap, k₃, hnew, hne, htask, hneg, hmap, hmapped, rfl⟩ :=
    processLoadForSlot_inv hinv h
  obtain ⟨-, -, -, -, -, chunk, directory, record, buffer, bs, os, hstarted⟩ :=
    (processNew_inv hinv hnew hne).start htask hneg
  let f := startFootprint program record task chunk directory buffer bs
  have hkeeps : Keeps k process f [] os k₂ := hstarted.keeps
  obtain ⟨mem, rfl, hremaps⟩ := processMapMemory_remaps hkeeps
    (hleads k₁ resTask task k₂ f os hnew htask hkeeps rfl) hmap
  have htables := tableAt_congr hremaps.entries
  have hstack := processMapMemory_stack hkeeps hmap hmapped
  have hkeeps' := (hkeeps.map hremaps.entries).setSched
    { k₂.sched with processes := fun i => if i = slot then process else k₂.sched.processes i }
    rfl rfl
  refine ⟨f, os, ⟨hkeeps', ?_, allocated_none hstarted.allocations, ?_, ?_,
    hstarted.currentProcess, hstarted.leaves, hstarted.processOf, hstarted.tail, ?_, ?_, hstack⟩⟩
  · refine (hstarted.spares.trans (hkeeps.tables_spares hremaps.frame) fun b hb => ?_).trans
      (sched_spares _ _) fun _ hb => absurd hb List.not_mem_nil
    obtain ⟨i, -, rfl⟩ := List.mem_map.mp hb
    exact Or.inr (hkeeps.holds.grown.fresh _ (List.mem_append_left os
      (Keeps.mem_fixed (f.table_mem process k₂.mem i))))
  · exact hstarted.procs
  · intro q hq
    exact (hstarted.pageDirectoryOf q).trans (if_neg hq)
  · intro i
    change mem directory i = tableAt mem directory i ||| 7
    rw [show tableAt mem directory = _ from htables, show mem directory = _ from hremaps.entries]
    exact hstarted.entry i
  · intro v hv
    rcases hremaps.get v hv with heq | hS
    · exact Or.inl (heq.trans (pagingGet_identity hstarted.identity hv))
    · exact Or.inr hS

/-- The other slots of the process table stay. -/
theorem processLoadForSlot_processes
    (hinv : k.pool.Inv) (h : k.processLoadForSlot program slot = .ok (0, process, k')) {i : Nat}
    (hi : i ≠ slot) :
    k'.sched.processes i = k.sched.processes i := by
  obtain ⟨k₁, resTask, task, k₂, resMap, k₃, hnew, hne, htask, hneg, hmap, -, rfl⟩ :=
    processLoadForSlot_inv hinv h
  obtain ⟨-, -, -, -, -, chunk, directory, record, buffer, bs, os, hstarted⟩ :=
    (processNew_inv hinv hnew hne).start htask hneg
  have hkeeps : Keeps k process (startFootprint program record task chunk directory buffer bs) []
      os k₂ := hstarted.keeps
  obtain ⟨mem, rfl, -⟩ := processMapMemory_remaps hkeeps (Leads.any k₂ _) hmap
  rw [← hstarted.processes]
  exact if_neg hi

end Load

end Kernel

end PeachOS
