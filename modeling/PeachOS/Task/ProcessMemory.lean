import PeachOS.Task.TaskMemory

/-!
# The memory of a process

The record of a process when it is new, and the ends of the blocks that hang
off it.
-/

namespace PeachOS

open Lib

namespace Kernel

section Process

variable {k₀ k k' : Kernel} {process : Ptr}

/-- A process has been made that has no blocks yet. -/
structure ProcessMade (k : Kernel) (process : Ptr) (k' : Kernel) : Prop where
  holds : Holds k [process] [] k'
  spares : Spares [] k k'
  record : k'.records process = some processInit
  sched : k'.sched = k.sched.setProc process (some ⟨0, 0⟩)

theorem processNew_inv
    (hinv : k.pool.Inv) (h : k.processNew = (process, k')) (hne : process ≠ 0) :
    ProcessMade k process k' := by
  rw [processNew] at h
  rcases hk : k.kzalloc sizeofProcess with ⟨p, k₁⟩
  rw [hk] at h
  dsimp only at h
  split_ifs at h with h0
  · cases h
    exact absurd rfl hne
  · cases h
    obtain ⟨hext, -⟩ := extends_kzalloc hinv (by decide) hk h0
    have hset := hext.change List.mem_cons_self
      (setRecord_spares k₁ process processInit) rfl rfl rfl
    refine ⟨hset.holds.congr rfl rfl, ?_, if_pos rfl, ?_⟩
    · exact hset.spares.trans (sched_spares _ _) fun _ hb => absurd hb List.not_mem_nil
    · rw [← hext.sched]

theorem Holds.isSome
    {bs os : List Ptr} (h : Holds k₀ bs os k) {p : Ptr} (hp : p ∈ bs) :
    (k.pool.live p).isSome = true :=
  h.grown.live p (List.mem_append_left os hp)

/-- A process has been made, and its program has been read. -/
structure ProgramLoaded (k : Kernel) (program : Program) (process : Ptr) (record : ProcessRecord)
    (buffer : Ptr) (bs os : List Ptr) (k' : Kernel) : Prop where
  holds : Holds k (bs ++ [process]) os k'
  spares : Spares [] k k'
  recorded : k'.records process = some record
  held : HoldsProgram k' record program.filesize buffer bs
  opened : os = [] ↔ program.opened = []
  allocations : record.allocations = processInit.allocations
  stack : record.stack = 0
  sched : k'.sched = k.sched.setProc process (some ⟨0, 0⟩)

theorem ProcessMade.read
    {k₁ : Kernel} {program : Program} {res : Int} (h : ProcessMade k process k₁)
    (hread : k₁.processLoadData program process = .ok (res, k')) (hres : ¬ res < 0) :
    ∃ record buffer bs os, ProgramLoaded k program process record buffer bs os k' := by
  have hlive := h.holds.isSome List.mem_cons_self
  obtain ⟨buffer, bs, os, k₂, record, hadded, hheld, hopened, rfl, hkept⟩ :=
    processLoadData_inv h.holds.inv hlive h.record hread hres
  have hall := h.holds.trans hadded.holds
  have hfresh : k.pool.live process = none := h.holds.grown.fresh process List.mem_cons_self
  have hset := setRecord_spares k₂ process record
  have hout : process ∉ bs := by
    have hnodup := hall.nodup
    rw [List.nodup_append] at hnodup
    exact fun hin => hnodup.2.2 _ hin _ List.mem_cons_self rfl
  refine ⟨record, buffer, bs, os, ?_, ?_, if_pos rfl, ?_, hopened, ?_, ?_, ?_⟩
  · rw [List.append_nil] at hall
    exact hall.congr rfl rfl
  · refine (h.spares.trans hadded.spares fun _ hb => absurd hb List.not_mem_nil).trans hset ?_
    intro b hb
    rw [List.mem_singleton.mp hb]
    exact Or.inr hfresh
  · refine hheld.same (fun b hb => hset b (hadded.holds.isSome hb) fun heq => ?_) rfl rfl rfl
    exact hout (List.mem_singleton.mp heq ▸ hb)
  · rw [hkept]
  · rw [hkept]
    rfl
  · exact hadded.sched.trans h.sched

/-- A stack has been added. -/
structure StackMade (k : Kernel) (program : Program) (process : Ptr) (record : ProcessRecord)
    (buffer : Ptr) (bs os : List Ptr) (k' : Kernel) : Prop where
  holds : Holds k (record.stack :: (bs ++ [process])) os k'
  spares : Spares [] k k'
  recorded : k'.records process = some record
  held : HoldsProgram k' record program.filesize buffer bs
  allocations : record.allocations = processInit.allocations
  stack : k'.pool.live record.stack = some (pagesOf userProgramStackSize)
  sched : k'.sched = k.sched.setProc process (some ⟨0, 0⟩)

theorem ProgramLoaded.process_not_mem
    {program : Program} {record : ProcessRecord} {buffer : Ptr} {bs os : List Ptr}
    (h : ProgramLoaded k program process record buffer bs os k') :
    process ∉ bs := by
  have hnodup := h.holds.nodup
  rw [List.nodup_append] at hnodup
  exact fun hin => hnodup.2.2 _ hin _ List.mem_cons_self rfl

theorem ProgramLoaded.withStack
    {program : Program} {record : ProcessRecord} {buffer : Ptr} {bs os : List Ptr} {res : Int}
    {k₂ : Kernel} (h : ProgramLoaded k program process record buffer bs os k₂)
    (hstack : k₂.loadStack process = .ok (res, k')) (hres : ¬ res < 0) :
    ∃ record', StackMade k program process record' buffer bs os k' ∧
      Pool.Granted k₂.pool [userProgramStackSize] k'.pool := by
  have hmem : process ∈ bs ++ [process] := List.mem_append_right _ List.mem_cons_self
  rw [loadStack] at hstack
  rcases hk : k₂.kzalloc userProgramStackSize with ⟨stack, k₃⟩
  rw [hk] at hstack
  obtain ⟨record₃, hfollow, heq⟩ := bind_eq_ok_iff.mp hstack
  have h0 : stack ≠ 0 := by
    rintro rfl
    cases heq
    exact hres (by decide)
  rw [if_neg h0] at heq
  cases heq
  obtain ⟨hext, hlive⟩ := extends_kzalloc h.holds.inv (by decide) hk h0
  have hprocess := hext.spares process (h.holds.isSome hmem) List.not_mem_nil
  obtain rfl : record₃ = record := by
    have hsame := hprocess.records
    rw [(follow_inv hfollow).2, h.recorded] at hsame
    exact Option.some.inj hsame
  have hset := setRecord_spares k₃ process { record₃ with stack := stack }
  have hgranted : Pool.Granted k₂.pool [userProgramStackSize] k₃.pool := kzallocFor_granted hk h0
  refine ⟨{ record₃ with stack := stack }, ⟨?_, ?_, if_pos rfl, ?_, h.allocations, hlive,
    hext.sched.trans h.sched⟩, hgranted⟩
  · have hall := h.holds.trans hext.holds
    exact hall.congr rfl rfl
  · refine (h.spares.trans hext.spares fun _ hb => absurd hb List.not_mem_nil).trans hset ?_
    intro b hb
    rw [List.mem_singleton.mp hb]
    exact Or.inr (h.holds.grown.fresh process (List.mem_append_left os hmem))
  · refine h.held.same (fun b hb => ?_) rfl rfl rfl
    have hblive := h.holds.isSome (List.mem_append_left [process] hb)
    have hfirst := hext.spares b hblive List.not_mem_nil
    refine hfirst.trans (hset b (hfirst.live ▸ hblive) fun heq => ?_)
    exact h.process_not_mem (List.mem_singleton.mp heq ▸ hb)

/-- A process has been made that is ready to be mapped. -/
structure ProcessStarted (k : Kernel) (program : Program) (process task chunk directory : Ptr)
    (record : ProcessRecord) (buffer : Ptr) (bs os : List Ptr) (k' : Kernel) : Prop where
  holds : Holds k (taskBlocks k'.mem task chunk directory ++ (record.stack :: (bs ++ [process])))
    os k'
  spares : Spares [] k k'
  recorded : k'.records process = some record
  held : HoldsProgram k' record program.filesize buffer bs
  allocations : record.allocations = processInit.allocations
  stack : k'.pool.live record.stack = some (pagesOf userProgramStackSize)
  link : ∃ id, k'.sched.procs process = some ⟨id, task⟩
  procs : ∀ q, q ≠ process → k'.sched.procs q = k.sched.procs q
  pageDirectoryOf : ∀ q, k'.sched.pageDirectoryOf q =
    if q = task then some chunk else k.sched.pageDirectoryOf q
  processOf : k'.sched.processOf task = some process
  processes : k'.sched.processes = k.sched.processes
  tail : k'.sched.taskTail = task
  currentProcess : k'.sched.currentProcess = k.sched.currentProcess
  leaves : k'.sched.CanLeave task
  chunk : k'.chunks chunk = some directory
  entry : ∀ i, k'.mem directory i = tableAt k'.mem directory i ||| 7
  identity : ∀ i, k'.mem (tableAt k'.mem directory i) = identityTable i 5

theorem directoryOf_eq
    {id : Nat} {task chunk directory : Ptr} (hne : process ≠ 0) (htask : task ≠ 0)
    (hchunk : chunk ≠ 0) (hlink : k.sched.procs process = some ⟨id, task⟩)
    (hpaging : k.sched.pageDirectoryOf task = some chunk)
    (hdirectory : k.chunks chunk = some directory) :
    k.directoryOf process = .ok directory := by
  obtain ⟨record, hrecord, rfl⟩ := Option.map_eq_some_iff.mp hpaging
  rw [directoryOf, follow_of_some hne hlink, ok_bind, follow_of_some htask hrecord, ok_bind,
    follow_of_some hchunk hdirectory]

section Started

variable {program : Program} {task chunk directory : Ptr} {record : ProcessRecord} {buffer : Ptr}
  {bs os : List Ptr}

theorem ProcessStarted.task_ne_zero
    (h : ProcessStarted k program process task chunk directory record buffer bs os k') :
    task ≠ 0 :=
  h.holds.ne_zero (by simp [taskBlocks])

theorem ProcessStarted.directoryOf
    (h : ProcessStarted k program process task chunk directory record buffer bs os k') :
    k'.directoryOf process = .ok directory := by
  obtain ⟨id, hlink⟩ := h.link
  refine directoryOf_eq (h.holds.ne_zero (by simp)) h.task_ne_zero
    (h.holds.ne_zero (by simp [taskBlocks])) hlink ?_ h.chunk
  rw [h.pageDirectoryOf, if_pos rfl]

end Started

/-- The requests of a load behind the reading of its file: the stack, the task,
the directory, its tables and the chunk. -/
def laterSizes : List Word := userProgramStackSize :: sizeofTask :: directorySizes

theorem StackMade.withTask
    {program : Program} {record : ProcessRecord} {buffer : Ptr} {bs os : List Ptr}
    {k₁ k₂ k₃ : Kernel} {task : Ptr} {slot : Nat}
    (h : StackMade k program process record buffer bs os k₁)
    (hk₂ : k₂ = { k₁ with sched := k₁.sched.setProc process (some ⟨slot, 0⟩) })
    (hnew : k₂.taskNew process = .ok (task, k₃)) :
    ∃ chunk directory, ProcessStarted k program process task chunk directory record buffer bs os
        { k₃ with sched := k₃.sched.setProc process (some ⟨slot, task⟩) } ∧
      Pool.Granted k₁.pool (sizeofTask :: directorySizes) k₃.pool := by
  have hheld : Holds k (record.stack :: (bs ++ [process])) os k₂ := by
    rw [hk₂]
    exact h.holds.congr rfl rfl
  obtain ⟨chunk, directory, hmade⟩ := taskNew_inv hheld.inv hnew
  let k₄ := { k₃ with sched := k₃.sched.setProc process (some ⟨slot, task⟩) }
  have hspares₄ : Spares [] k₁ k₄ := by
    have hfirst := sched_spares k₁ (k₁.sched.setProc process (some ⟨slot, 0⟩))
    rw [← hk₂] at hfirst
    refine (hfirst.trans hmade.spares fun _ hb => absurd hb List.not_mem_nil).trans
      (sched_spares k₃ _) fun _ hb => absurd hb List.not_mem_nil
  have hsame (b : Ptr) (hb : b ∈ record.stack :: (bs ++ [process])) : SameBlock k₁ k₄ b :=
    hspares₄ b (h.holds.isSome hb) List.not_mem_nil
  obtain ⟨-, hcreated⟩ := Sched.taskNew_inv hmade.ne_zero hmade.sched
  have hdirectories := Sched.taskNew_pageDirectoryOf hmade.ne_zero hmade.sched
  refine ⟨chunk, directory, ⟨?_, ?_, ?_, ?_, h.allocations, ?_, ⟨slot, if_pos rfl⟩, ?_, ?_,
    (hcreated.processOf task).trans (if_pos rfl), ?_, hcreated.tail, ?_, hcreated.prev,
    hmade.chunk, hmade.entry, hmade.identity⟩, ?_⟩
  · refine ((hheld.trans hmade.holds).perm ?_).congr rfl rfl
    exact List.Perm.refl _
  · exact h.spares.trans hspares₄ fun _ hb => absurd hb List.not_mem_nil
  · rw [← h.recorded]
    exact (hsame process (by simp)).records
  · exact h.held.same (fun b hb => hsame b (by simp [hb])) rfl rfl rfl
  · rw [← h.stack]
    exact (hsame record.stack List.mem_cons_self).live
  · intro q hq
    refine (if_neg hq).trans ?_
    rw [hcreated.procs, hk₂, h.sched]
    exact (if_neg hq).trans (if_neg hq)
  · intro q
    refine (hdirectories q).trans ?_
    rw [hk₂, h.sched]
    rfl
  · refine hcreated.processes.trans ?_
    rw [hk₂, h.sched]
    rfl
  · refine hcreated.currentProcess.trans ?_
    rw [hk₂, h.sched]
    rfl
  · have hgranted := hmade.granted
    rwa [hk₂] at hgranted

/-- What a load has come to before it maps anything. -/
theorem ProcessMade.start
    {program : Program} {res : Int} {k₁ : Kernel} {task : Ptr} {slot : Nat}
    (h : ProcessMade k process k₁)
    (hload : k₁.loadTask program process slot = .ok (res, task, k')) (hres : ¬ res < 0) :
    ∃ resRead k₂, k₁.processLoadData program process = .ok (resRead, k₂) ∧ ¬ resRead < 0 ∧
      Pool.Granted k₂.pool laterSizes k'.pool ∧
      ∃ chunk directory record buffer bs os,
        ProcessStarted k program process task chunk directory record buffer bs os k' := by
  obtain ⟨⟨resRead, k₂⟩, hread, hload⟩ := bind_eq_ok_iff.mp hload
  dsimp only at hload
  by_cases hneg : resRead < 0
  · rw [if_pos hneg] at hload
    cases hload
    exact absurd hneg hres
  · rw [if_neg hneg] at hload
    obtain ⟨record, buffer, bs, os, hloaded⟩ := h.read hread hneg
    obtain ⟨⟨resStack, k₃⟩, hstack, hload⟩ := bind_eq_ok_iff.mp hload
    dsimp only at hload
    by_cases hneg' : resStack < 0
    · rw [if_pos hneg'] at hload
      cases hload
      exact absurd hneg' hres
    · rw [if_neg hneg'] at hload
      obtain ⟨record', hmade, hgranted⟩ := hloaded.withStack hstack hneg'
      obtain ⟨⟨task', k₄⟩, hnew, heq⟩ := bind_eq_ok_iff.mp hload
      cases heq
      obtain ⟨chunk, directory, hstarted, hgranted'⟩ := hmade.withTask rfl hnew
      exact ⟨resRead, k₂, hread, hneg, hgranted.append hgranted', chunk, directory, record',
        buffer, bs, os, hstarted⟩

theorem kfrees_spares (k : Kernel) (ps : List Ptr) : Spares ps k (ps.foldl kfree k) := by
  induction ps generalizing k with
  | nil => exact Spares.refl [] k
  | cons p ps ih =>
      refine Spares.trans ?_ (ih (k.kfree p)) fun b hb => Or.inl (List.mem_cons_of_mem p hb)
      exact (kfree_spares k p).mono (List.cons_subset_cons p (List.nil_subset ps))

/-- The union is read as the type of the file says. -/
theorem processFreeProgramData_eq
    {record : ProcessRecord} {filesize : Word} {buffer : Ptr} {bs : List Ptr}
    (hne : process ≠ 0) (hrecord : k.records process = some record)
    (hprogram : HoldsProgram k record filesize buffer bs) (hbs : ∀ b ∈ bs, b ≠ 0) :
    k.processFreeProgramData process = .ok (bs.foldl kfree k) := by
  rw [processFreeProgramData, follow_of_some hne hrecord, ok_bind]
  cases hprogram with
  | elf hfiletype hfile _ =>
      have hdata : record.data ≠ 0 := hbs _ (List.mem_cons_of_mem _ List.mem_cons_self)
      rw [if_neg hdata, hfiletype]
      change k.elfClose record.data = _
      rw [elfClose, follow_of_some hdata hfile]
      rfl
  | binary hfiletype _ _ =>
      rw [if_neg (hbs _ List.mem_cons_self), hfiletype]
      rfl

/-- Without allocations nothing is freed. -/
theorem processTerminateAllocations_none
    {record : ProcessRecord} (hne : process ≠ 0) (hrecord : k.records process = some record)
    (hnone : ∀ i, (record.allocations i).ptr = 0) :
    k.processTerminateAllocations process = .ok k := by
  obtain ⟨k', hloop, rfl⟩ := @foldlM_returns _ _ _ (processTerminateAllocation process)
    (List.range maxProgramAllocations) (fun _ k' => k' = k)
    (by
      rintro done i todo _ - rfl
      refine ⟨_, ?_, rfl⟩
      rw [processTerminateAllocation, follow_of_some hne hrecord, ok_bind,
        if_neg (not_not.mpr (hnone i))]
      rfl)
    k rfl
  exact hloop

end Process

end Kernel

end PeachOS
