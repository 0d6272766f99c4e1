import PeachOS.Task.LoadSuccess

/-!
# Loads that run out of memory

A load that gets no stack puts everything back, apart from what `fopen` keeps of the
file.  At every later request the kernel goes on with the null pointer.
-/

namespace PeachOS

open Lib

namespace Kernel

/-- The tasks, the table of processes and the live blocks are the same. -/
structure SameTrace (k k' : Kernel) : Prop where
  processes : k'.sched.processes = k.sched.processes
  currentProcess : k'.sched.currentProcess = k.sched.currentProcess
  tasks : k'.sched.tasks = k.sched.tasks
  taskHead : k'.sched.taskHead = k.sched.taskHead
  taskTail : k'.sched.taskTail = k.sched.taskTail
  currentTask : k'.sched.currentTask = k.sched.currentTask
  live : k'.pool.live = k.pool.live

/-- What a load that fails should come to. -/
def LeavesNoTrace (k : Kernel) (result : Except Halt (Int × Ptr × Kernel)) : Prop :=
  ∃ res process k', result = .ok (res, process, k') ∧ res < 0 ∧ SameTrace k k'

section Failure

variable {k₀ k k₁ k₂ : Kernel} {program : Program} {process : Ptr} {slot : Nat}

/-- A process that has a program and nothing else is freed whole. -/
theorem processFreeProcess_unstarted
    {record : ProcessRecord} {filesize : Word} {buffer : Ptr} {bs os : List Ptr} {id : Nat}
    (hheld : Holds k₀ (bs ++ [process]) os k) (hrecord : k.records process = some record)
    (hprogram : HoldsProgram k record filesize buffer bs)
    (hnone : ∀ i, (record.allocations i).ptr = 0) (hstack : record.stack = 0)
    (hlink : k.sched.procs process = some ⟨id, 0⟩) :
    ∃ k', k.processFreeProcess process = .ok k' ∧ Holds k₀ [] os k' ∧
      k'.sched = k.sched.setProc process none := by
  have hmem : process ∈ bs ++ [process] := List.mem_append_right _ List.mem_cons_self
  have hne := hheld.ne_zero hmem
  have hout : process ∉ bs := by
    have hnodup := hheld.nodup
    rw [List.nodup_append] at hnodup
    exact fun hin => hnodup.2.2 _ hin _ List.mem_cons_self rfl
  have hrecord' : (bs.foldl kfree k).records process = some record := by
    rw [((kfrees_spares k bs) process (hheld.isSome hmem) hout).records, hrecord]
  refine ⟨{ (bs.foldl kfree k).kfree process with sched := k.sched.setProc process none },
    ?_, (hheld.kfrees.kfree).congr rfl rfl, rfl⟩
  have hfreeStack : (bs.foldl kfree k).processFreeStack process = .ok (bs.foldl kfree k) := by
    rw [processFreeStack, follow_of_some hne hrecord', ok_bind, if_neg (not_not.mpr hstack)]
    rfl
  have hfreeTask : (bs.foldl kfree k).processFreeTask process = .ok (bs.foldl kfree k) := by
    rw [processFreeTask, kfrees_sched, follow_of_some hne hlink, ok_bind,
      if_neg (not_not.mpr rfl)]
    rfl
  rw [processFreeProcess, processTerminateAllocations_none hne hrecord hnone, ok_bind,
    processFreeProgramData_eq hne hrecord hprogram fun b hb =>
      hheld.ne_zero (List.mem_append_left _ hb),
    ok_bind, hfreeStack, ok_bind, hfreeTask, ok_bind, kfrees_sched]
  rfl

theorem follow_setProc
    (s : Sched) (p : Ptr) (link : ProcessLink) (link' : Option ProcessLink) :
    (s.setProc p (some link)).setProc p link' = s.setProc p link' := by
  rw [Sched.setProc, Sched.setProc, Sched.setProc]
  refine congrArg (fun procs => { s with procs := procs }) (funext fun q => ?_)
  dsimp only
  split_ifs
  · rfl
  · rfl

/-- Without a stack the load ends with an error, and what it holds is what
`fopen` has left. -/
theorem processLoadForSlot_noStack
    {record : ProcessRecord} {buffer : Ptr} {bs os : List Ptr} {res : Int}
    (hslot : k.sched.processes slot = 0) (hmade : k.processNew = (process, k₁))
    (hread : k₁.processLoadData program process = .ok (res, k₂)) (hres : ¬ res < 0)
    (hloaded : ProgramLoaded k program process record buffer bs os k₂)
    (hstack : (k₂.pool.kmalloc userProgramStackSize).1 = 0) :
    ∃ k', k.processLoadForSlot program slot = .ok (-enomem, 0, k') ∧ Holds k [] os k' ∧
      k'.sched = k.sched.setProc process none := by
  have hmem : process ∈ bs ++ [process] := List.mem_append_right _ List.mem_cons_self
  have hne := hloaded.holds.ne_zero hmem
  rcases hk : k₂.kzalloc userProgramStackSize with ⟨stack, k₃⟩
  obtain rfl : stack = 0 := by
    rw [← hstack, ← kzallocFor_ptr k₂ .taken]
    exact (congrArg Prod.fst hk).symm
  have hrefused := kzalloc_refused hk
  have hrecord : k₃.records process = some record := by
    rw [hrefused.records, hloaded.recorded]
  let k₄ := k₃.setRecord process { record with stack := 0 }
  have hspares := hrefused.spares.mono (List.nil_subset [process])
  have hspares₄ : Spares [process] k₂ k₄ :=
    hspares.trans (setRecord_spares k₃ process _) fun b hb => Or.inl hb
  have hout : process ∉ bs := by
    have hnodup := hloaded.holds.nodup
    rw [List.nodup_append] at hnodup
    exact fun hin => hnodup.2.2 _ hin _ List.mem_cons_self rfl
  have hheld : Holds k (bs ++ [process]) os k₄ := (hloaded.holds.refused hrefused).congr rfl rfl
  have hprogram : HoldsProgram k₄ { record with stack := 0 } program.filesize buffer bs :=
    hloaded.held.same (fun b hb => hspares₄ b (hloaded.holds.isSome (List.mem_append_left _ hb))
      fun heq => hout (List.mem_singleton.mp heq ▸ hb)) rfl rfl rfl
  have hsched : k₄.sched = k.sched.setProc process (some ⟨0, 0⟩) :=
    hrefused.sched.trans hloaded.sched
  obtain ⟨k', hfree, hfreed, hfreedSched⟩ := processFreeProcess_unstarted hheld (if_pos rfl)
    hprogram (fun i => by rw [hloaded.allocations]; rfl) rfl (by rw [hsched]; exact if_pos rfl)
  refine ⟨k', ?_, hfreed, ?_⟩
  · have hstackFails : k₂.loadStack process = .ok (-enomem, k₄) := by
      rw [loadStack, hk]
      dsimp only
      rw [follow_of_some hne hrecord]
      rfl
    have htask : k₁.loadTask program process slot = .ok (-enomem, 0, k₄) := by
      rw [loadTask, hread, ok_bind]
      dsimp only
      rw [if_neg hres, hstackFails, ok_bind]
      exact if_pos (show -enomem < 0 by decide)
    rw [processLoadForSlot, if_neg (not_not.mpr hslot), hmade]
    dsimp only
    rw [if_neg hne, htask, ok_bind]
    dsimp only
    rw [if_pos (by decide), loadFailed, hfree]
    rfl
  · rw [hfreedSched, hsched, follow_setProc]

/-- A load that returns with a stack has been given all that it asked for. -/
theorem processLoadForSlot_granted
    {res : Int} (hinv : k.pool.Inv) (hslot : k.sched.processes slot = 0)
    (hmade : k.processNew = (process, k₁)) (hne : process ≠ 0)
    (hread : k₁.processLoadData program process = .ok (res, k₂)) (hres : ¬ res < 0)
    (hstack : (k₂.pool.kmalloc userProgramStackSize).1 ≠ 0) {r : Int × Ptr × Kernel}
    (hload : k.processLoadForSlot program slot = .ok r) :
    0 ∉ k₂.pool.requests laterSizes := by
  rw [processLoadForSlot, if_neg (not_not.mpr hslot), hmade] at hload
  dsimp only at hload
  rw [if_neg hne] at hload
  obtain ⟨⟨resTask, task, k₅⟩, htask, -⟩ := bind_eq_ok_iff.mp hload
  have hstarts : ¬ resTask < 0 := by
    rw [loadTask, hread, ok_bind] at htask
    dsimp only at htask
    rw [if_neg hres] at htask
    obtain ⟨⟨resStack, k₃⟩, hloadStack, htask⟩ := bind_eq_ok_iff.mp htask
    rw [loadStack] at hloadStack
    rw [← kzallocFor_ptr k₂ .taken] at hstack
    rcases hk : k₂.kzallocFor .taken userProgramStackSize with ⟨stack, k₄⟩
    rw [hk] at hstack
    rw [kzalloc, hk] at hloadStack
    obtain ⟨record, -, heq⟩ := bind_eq_ok_iff.mp hloadStack
    rw [if_neg hstack] at heq
    cases heq
    obtain ⟨⟨task', k₄⟩, -, heq⟩ := bind_eq_ok_iff.mp htask
    cases heq
    decide
  obtain ⟨resRead, k₂', hread', -, hgranted, -⟩ :=
    (processNew_inv hinv hmade hne).start htask hstarts
  cases hread.symm.trans hread'
  exact hgranted.not_mem

/-- No request behind the reading of the file can fail without a trace.  Without a stack the
load ends with an error, and the path and the descriptor of the file are left; without
anything later it does not end. -/
theorem processLoadForSlot_neverLeavesNoTrace
    {res : Int} (hinv : k.pool.Inv) (hslot : k.sched.processes slot = 0)
    (hmade : k.processNew = (process, k₁)) (hne : process ≠ 0)
    (hread : k₁.processLoadData program process = .ok (res, k₂)) (hres : ¬ res < 0)
    (hfails : 0 ∈ k₂.pool.requests laterSizes) :
    ¬ LeavesNoTrace k (k.processLoadForSlot program slot) := by
  obtain ⟨record, buffer, bs, os, hloaded⟩ := (processNew_inv hinv hmade hne).read hread hres
  rintro ⟨res', process', k', hload, -, htrace⟩
  by_cases hstack : (k₂.pool.kmalloc userProgramStackSize).1 = 0
  · obtain ⟨k₃, hload', hheld, -⟩ :=
      processLoadForSlot_noStack hslot hmade hread hres hloaded hstack
    cases hload.symm.trans hload'
    have hopened : program.opened = [] :=
      hloaded.opened.mp ((hheld.grown.live_eq_iff).mp htrace.live)
    exact absurd hopened (List.cons_ne_nil _ _)
  · exact absurd hfails
      (processLoadForSlot_granted hinv hslot hmade hne hread hres hstack hload)

end Failure

/-- The program of one byte is read with memory to spare. -/
theorem blank_reads
    {n : Nat} (hn : 4 * (n + 12) ≤ 25600) :
    ∃ process k₁ k₂, (blank (n + 12)).processNew = (process, k₁) ∧ process ≠ 0 ∧
      k₁.processLoadData oneByte process = .ok (0, k₂) ∧ Pool.HasSpace 4 k₂.pool n := by
  obtain ⟨process, k₁, hmade, hne, hroom⟩ := @processNew_room 4 (blank (n + 12)) (n + 11)
    (Nat.le_refl 4) (Pool.packed_hasSpace hn)
  have hprocess := processNew_inv (Pool.packed_inv hn) hmade hne
  obtain ⟨k₂, hread, hroom₂, -⟩ := @processLoadData_raw 4 k₁ oneByte process n (Nat.le_refl 4)
    oneByte_raw (by decide) hprocess.holds.inv hroom (hprocess.holds.isSome List.mem_cons_self)
    _ hne hprocess.record
  exact ⟨process, k₁, k₂, hmade, hne, hread, hroom₂⟩

/-- There is memory for the program and for no stack. -/
theorem processLoadForSlot_neverLeavesNoTrace_noStack :
    ¬ LeavesNoTrace (blank 12) ((blank 12).processLoadForSlot oneByte 0) := by
  obtain ⟨process, k₁, k₂, hmade, hne, hread, hroom⟩ := @blank_reads 0 (by decide)
  refine processLoadForSlot_neverLeavesNoTrace (Pool.packed_inv (by decide)) rfl hmade hne hread
    (by decide) ?_
  rw [laterSizes, Pool.requests, Pool.HasSpace.refuses hroom userProgramStackSize]
  exact List.mem_cons_self

/-- With memory for the stack as well, the task is refused and the load does not
return. -/
theorem alwaysLeavesNoTrace_false :
    ¬ ∀ (k k₁ k₂ : Kernel) (program : Program) (process : Ptr) (slot : Nat),
      k.pool.Inv → k.sched.processes slot = 0 → k.processNew = (process, k₁) → process ≠ 0 →
      k₁.processLoadData program process = .ok (0, k₂) → 0 ∈ k₂.pool.requests laterSizes →
      LeavesNoTrace k (k.processLoadForSlot program slot) := by
  intro hall
  obtain ⟨process, k₁, k₂, hmade, hne, hread, hroom⟩ := @blank_reads 1 (by decide)
  have hinv : (blank 13).pool.Inv := Pool.packed_inv (by decide)
  obtain ⟨hstack, hroom'⟩ :=
    Pool.HasSpace.kmalloc hroom (by decide : userProgramStackSize ≠ 0) (by decide)
  have hfails : 0 ∈ k₂.pool.requests laterSizes := by
    rw [laterSizes, Pool.requests, Pool.requests, Pool.HasSpace.refuses hroom']
    exact List.mem_cons_of_mem _ List.mem_cons_self
  obtain ⟨res, process', k', hload, -⟩ :=
    hall (blank 13) k₁ k₂ oneByte process 0 hinv rfl hmade hne hread hfails
  exact processLoadForSlot_granted hinv rfl hmade hne hread (by decide) hstack hload hfails

end Kernel

end PeachOS
