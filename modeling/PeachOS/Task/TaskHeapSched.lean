import PeachOS.Task.TaskHeap

/-!
# The scheduler in its blocks

As long as a call follows no pointer to a freed task, what it does to the
blocks is what the scheduler does to its records.
-/

namespace PeachOS

def LoadBlocks.toMemory (mem : LoadBlocks) : Sched.LoadMemory :=
  ⟨mem.process, mem.task, mem.chunk⟩

namespace TaskHeap

open Lib

/-- There is neither a task nor a process. -/
def NoRecord (h : TaskHeap) (p : Ptr) : Prop :=
  h.toSched.tasks p = none ∧ h.toSched.procs p = none

section Records

variable {h h' : TaskHeap} {mem : LoadBlocks} {p q : Ptr} {record : Task} {id : Nat}

theorem toSched_setTask
    (hp : h.toSched.procs p = none) (record : Option Task) :
    (h.set p (record.map .task)).toSched = h.toSched.setTask p record := by
  refine Sched.ext (funext fun q => ?_) (funext fun q => ?_) rfl rfl rfl rfl rfl
  · change Option.bind (if q = p then record.map Block.task else h.blocks q) Block.task? =
      if q = p then record else (h.blocks q).bind Block.task?
    split_ifs
    · cases record with
      | none => rfl
      | some record => rfl
    · rfl
  · change Option.bind (if q = p then record.map Block.task else h.blocks q) Block.process? =
      h.toSched.procs q
    split_ifs with hq
    · rw [hq, hp]
      cases record with
      | none => rfl
      | some record => rfl
    · rfl

theorem toSched_setProc
    (hp : h.toSched.tasks p = none) (link : Option ProcessLink) :
    (h.set p (link.map .process)).toSched = h.toSched.setProc p link := by
  refine Sched.ext (funext fun q => ?_) (funext fun q => ?_) rfl rfl rfl rfl rfl
  · change Option.bind (if q = p then link.map Block.process else h.blocks q) Block.task? =
      h.toSched.tasks q
    split_ifs with hq
    · rw [hq, hp]
      cases link with
      | none => rfl
      | some link => rfl
    · rfl
  · change Option.bind (if q = p then link.map Block.process else h.blocks q) Block.process? =
      if q = p then link else (h.blocks q).bind Block.process?
    split_ifs
    · cases link with
      | none => rfl
      | some link => rfl
    · rfl

/-- Where no record is, the blocks are not seen in the scheduler. -/
theorem toSched_congr
    (hblocks : ∀ q, h'.blocks q = h.blocks q ∨ h.NoRecord q ∧ h'.NoRecord q)
    (hframe : ∃ blocks, h' = { h with blocks := blocks }) :
    h'.toSched = h.toSched := by
  have htasks : h'.toSched.tasks = h.toSched.tasks := by
    funext q
    rcases hblocks q with heq | ⟨hold, hnew⟩
    · exact congrArg (Option.bind · Block.task?) heq
    · rw [hold.1, hnew.1]
  have hprocs : h'.toSched.procs = h.toSched.procs := by
    funext q
    rcases hblocks q with heq | ⟨hold, hnew⟩
    · exact congrArg (Option.bind · Block.process?) heq
    · rw [hold.2, hnew.2]
  obtain ⟨blocks, rfl⟩ := hframe
  exact Sched.ext htasks hprocs rfl rfl rfl rfl rfl

theorem noRecord_of_none
    (hq : h.blocks q = none) :
    h.NoRecord q :=
  ⟨congrArg (Option.bind · Block.task?) hq, congrArg (Option.bind · Block.process?) hq⟩

theorem procs_of_task
    (hp : h.blocks p = some (.task record)) :
    h.toSched.procs p = none :=
  congrArg (Option.bind · Block.process?) hp

theorem tasks_of_process
    {link : ProcessLink} (hp : h.blocks p = some (.process link)) :
    h.toSched.tasks p = none :=
  congrArg (Option.bind · Block.task?) hp

theorem blocks_of_task_eq_ok
    (hp : h.toSched.task p = .ok record) :
    h.blocks p = some (.task record) := by
  cases htask : h.toSched.tasks p with
  | none =>
      rw [Sched.task, htask] at hp
      cases hp
  | some record' =>
      rw [Sched.task_eq_ok htask] at hp
      exact Except.ok.inj hp ▸ blocks_of_task htask

/-- The pages of a process hold no record. -/
theorem HoldsPages.noRecord
    (hpages : h.HoldsPages mem) (htables : ∀ i, h.blocks (mem.tables i) = some .table)
    (hq : q ∈ mem.pages) :
    h.NoRecord q := by
  have hblock (b : Block) (hb : h.blocks q = some b) (htask : b.task? = none)
      (hprocess : b.process? = none) : h.NoRecord q :=
    ⟨(congrArg (Option.bind · Block.task?) hb).trans htask,
      (congrArg (Option.bind · Block.process?) hb).trans hprocess⟩
  rcases LoadBlocks.mem_pages_iff.mp hq with ⟨i, rfl⟩ | rfl | rfl
  · exact hblock .table (htables i) rfl rfl
  · obtain ⟨entries, hdirectory, -⟩ := hpages.directory
    exact hblock (.directory entries) hdirectory rfl rfl
  · exact hblock (.chunk mem.directory) hpages.chunk rfl rfl

theorem toSched_setAll
    {ps : List Ptr} (hps : ∀ q ∈ ps, h.NoRecord q) :
    (h.setAll ps none).toSched = h.toSched := by
  refine toSched_congr (fun q => ?_) ⟨_, rfl⟩
  by_cases hq : q ∈ ps
  · exact Or.inr ⟨hps q hq, noRecord_of_none (setAll_blocks.trans (if_pos hq))⟩
  · exact Or.inl (setAll_blocks.trans (if_neg hq))

theorem toSched_storeNext
    (hq : h.blocks q = some (.task record)) (next : Ptr) :
    (h.storeNext q next).toSched = h.toSched.setTask q (some { record with next := next }) := by
  rw [storeNext, hq]
  exact toSched_setTask (procs_of_task hq) (some { record with next := next })

/-- A new task and its pages are seen as the record of the task. -/
theorem toSched_allocated
    (hfresh : h.Fresh mem) :
    (h.allocated mem).toSched =
      h.toSched.setTask mem.task (some ⟨mem.chunk, mem.process, 0, 0⟩) := by
  obtain ⟨hpages, htask, hprocess, hne⟩ := LoadBlocks.all_nodup hfresh.nodup
  have hunused (q : Ptr) (hq : q ∈ mem.pages) : h.blocks q = none :=
    hfresh.unused q (LoadBlocks.mem_all_of_mem_pages hq) (ne_of_mem_of_not_mem hq hprocess)
  have hnone := hfresh.unused mem.task LoadBlocks.task_mem_all hne.symm
  rw [← toSched_setTask (noRecord_of_none hnone).2]
  refine toSched_congr (fun q => ?_) ?_
  · by_cases hq : q ∈ mem.pages
    · refine Or.inr ⟨noRecord_of_none ?_, ?_⟩
      · rw [set_blocks, if_neg (ne_of_mem_of_not_mem hq htask), hunused q hq]
      · exact (pagingNew4gb_holdsPages hpages hfresh.aligned (by decide)).noRecord
          (pagingNew4gb_table hpages) hq
    · exact Or.inl (pagingNew4gb_of_not_mem hq)
  · obtain ⟨blocks, hframe⟩ := exists_allocated h mem
    exact ⟨blocks, hframe⟩

end Records

section Calls

variable {h : TaskHeap} {s' : Sched} {mem : LoadBlocks} {p : Ptr} {record : Task} {id : Nat}

/-- The end of the list and the current task, when a task is taken out. -/
theorem leaveList_toSched
    {prev : Ptr} (hs :
      (let s := if p = h.toSched.taskTail then { h.toSched with taskTail := prev } else h.toSched
      if p = s.currentTask then
        s.taskGetNext >>= fun next => pure { s with currentTask := next }
      else
        pure s) = Except.ok s') :
    ∃ h' : TaskHeap,
      (let h := if p = h.taskTail then { h with taskTail := prev } else h
      if p = h.currentTask then
        h.toSched.taskGetNext >>= fun next => pure { h with currentTask := next }
      else
        pure h) = Except.ok (ε := Halt) h' ∧ h'.toSched = s' := by
  let h₁ := if p = h.taskTail then { h with taskTail := prev } else h
  have hsched :
      (if p = h.toSched.taskTail then { h.toSched with taskTail := prev } else h.toSched) =
        h₁.toSched := by
    unfold h₁
    by_cases hp : p = h.taskTail
    · rw [if_pos hp]
      exact if_pos hp
    · rw [if_neg hp]
      exact if_neg hp
  dsimp only at hs
  rw [hsched] at hs
  change ∃ h', (if p = h₁.currentTask then
    h₁.toSched.taskGetNext >>= fun next => pure { h₁ with currentTask := next }
    else pure h₁) = _ ∧ _
  by_cases hcurrent : p = h₁.currentTask
  · obtain ⟨next, hnext, heq⟩ := bind_eq_ok_iff.mp ((if_pos hcurrent).symm.trans hs)
    rw [if_pos hcurrent, hnext]
    exact ⟨_, rfl, Except.ok.inj heq⟩
  · rw [if_neg hcurrent]
    exact ⟨_, rfl, Except.ok.inj ((if_neg hcurrent).symm.trans hs)⟩

theorem taskListRemove_toSched
    (hrecord : h.blocks p = some (.task record)) (hs : h.toSched.taskListRemove p = .ok s') :
    ∃ h', h.taskListRemove p = .ok h' ∧ h'.toSched = s' := by
  rw [Sched.taskListRemove, task_eq_ok hrecord, ok_bind] at hs
  rw [taskListRemove, task_eq_ok hrecord, ok_bind]
  by_cases h0 : record.prev = 0
  · rw [if_neg (not_not.mpr h0)] at hs ⊢
    exact leaveList_toSched hs
  · rw [if_pos h0] at hs ⊢
    cases hprev : h.toSched.tasks record.prev with
    | none =>
        rw [Sched.task, hprev] at hs
        cases hs
    | some prev =>
        rw [Sched.task_eq_ok hprev, ok_bind, ← toSched_storeNext (blocks_of_task hprev)] at hs
        exact leaveList_toSched hs

/-- A task that is freed with its pages. -/
theorem taskFree_toSched
    (hheld : h.Holds mem id) (htables : ∀ i, h.blocks (mem.tables i) = some .table)
    (hs : h.toSched.taskFree mem.task = .ok s') :
    ∃ h', h.taskFree mem.task = .ok h' ∧ h'.toSched = s' := by
  obtain ⟨hnodup, htask, -⟩ := LoadBlocks.all_nodup hheld.nodup
  obtain ⟨record, hrecord⟩ := hheld.exists_record
  have hrecord₁ : (h.setAll mem.pages none).blocks mem.task = some (.task record) := by
    rw [setAll_blocks, if_neg htask, hrecord]
  rw [taskFree, task_eq_ok hrecord, ok_bind, hheld.pageDirectory hrecord,
    pagingFree4gb_eq hheld.pages hnodup, ok_bind]
  rw [Sched.taskFree, ← toSched_setAll fun q hq => hheld.pages.noRecord htables hq] at hs
  generalize h.setAll mem.pages none = h₁ at hrecord₁ hs ⊢
  obtain ⟨s₁, hremove, heq⟩ := bind_eq_ok_iff.mp hs
  obtain ⟨h₂, hheap, rfl⟩ := taskListRemove_toSched hrecord₁ hremove
  obtain ⟨n, hlive⟩ : ∃ n, h₂.blocks mem.task = some (.task { record with next := n }) := by
    obtain ⟨current, hresult⟩ := taskListRemove_eq hrecord₁
    rw [hheap] at hresult
    obtain ⟨n, hlive⟩ := relink_task hrecord₁ record
    exact ⟨n, (congrArg (TaskHeap.blocks · mem.task) (Except.ok.inj hresult)).trans hlive⟩
  refine ⟨h₂.set mem.task none, ?_, ?_⟩
  · rw [hheap, ok_bind, kfree, hlive]
    rfl
  · exact (toSched_setTask (procs_of_task hlive) none).trans (Except.ok.inj heq)

/-- A process that is freed with its task. -/
theorem processFreeProcess_toSched
    (hheld : h.Holds mem id) (htables : ∀ i, h.blocks (mem.tables i) = some .table)
    (hs : h.toSched.processFreeProcess mem.process = .ok s') :
    ∃ h', h.processFreeProcess mem.process = .ok h' ∧ h'.toSched = s' := by
  obtain ⟨-, -, -, hne⟩ := LoadBlocks.all_nodup hheld.nodup
  obtain ⟨record, hrecord⟩ := hheld.exists_record
  rw [Sched.processFreeProcess, proc_eq_ok hheld.process, ok_bind, if_pos hheld.task_ne_zero] at hs
  obtain ⟨s₁, htask, heq⟩ := bind_eq_ok_iff.mp hs
  obtain ⟨h₁, hheap, rfl⟩ := taskFree_toSched hheld htables htask
  have hprocess : h₁.blocks mem.process = some (.process ⟨id, mem.task⟩) := by
    obtain ⟨current, hresult⟩ := taskFree_eq hheld hrecord
    rw [hheap] at hresult
    rw [Except.ok.inj hresult, set_blocks, if_neg hne]
    exact hheld.relink_process record
  refine ⟨h₁.set mem.process none, ?_, ?_⟩
  · rw [processFreeProcess, proc_eq_ok hheld.process, ok_bind, if_pos hheld.task_ne_zero, hheap,
      ok_bind]
    exact if_pos (by rw [hprocess]; rfl)
  · exact (toSched_setProc (tasks_of_process hprocess) none).trans (Except.ok.inj heq)

/-- A task is made and linked. -/
theorem taskNew_toSched
    (hfresh : h.Fresh mem) {task : Ptr}
    (hs : h.toSched.taskNew mem.task mem.process mem.chunk = .ok (task, s')) :
    task = mem.task ∧ ∃ h', h.taskNew mem = .ok h' ∧ h'.toSched = s' := by
  rw [Sched.taskNew, if_neg hfresh.task_ne_zero] at hs
  rw [taskNew_eq]
  rw [← toSched_allocated hfresh] at hs
  generalize h.allocated mem = h₁ at hs ⊢
  by_cases hhead : h₁.taskHead = 0
  · obtain ⟨htask, heq⟩ := Prod.mk.inj (Except.ok.inj ((if_pos hhead).symm.trans hs))
    rw [if_pos hhead]
    exact ⟨htask.symm, _, rfl, heq⟩
  · obtain ⟨tail, htail, hs⟩ := bind_eq_ok_iff.mp ((if_neg hhead).symm.trans hs)
    rw [if_neg hhead]
    have htail₁ : h₁.blocks h₁.taskTail = some (.task tail) := blocks_of_task_eq_ok htail
    have hstore : (h₁.storeNext h₁.taskTail mem.task).toSched =
        h₁.toSched.setTask h₁.toSched.taskTail (some { tail with next := mem.task }) :=
      toSched_storeNext htail₁ mem.task
    obtain ⟨new, hnew, hs⟩ := bind_eq_ok_iff.mp hs
    rw [← hstore] at hnew hs
    obtain ⟨htask, heq⟩ := Prod.mk.inj (Except.ok.inj hs)
    have hlink := toSched_setTask (procs_of_task (blocks_of_task_eq_ok hnew))
      (some { new with prev := (h₁.storeNext h₁.taskTail mem.task).taskTail })
    refine ⟨htask.symm, _, by dsimp only; rw [hnew]; rfl, ?_⟩
    exact (congrArg (fun s : Sched => { s with taskTail := mem.task }) hlink).trans heq

end Calls

end TaskHeap
end PeachOS
