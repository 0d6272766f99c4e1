import PeachOS.Task.TaskList

/-!
# Creating and freeing tasks in any list

The removals of `task.c` can leave pointers to freed tasks behind.  What a call
that returns has done to the records does not depend on the list, and neither
does when a call follows such a pointer.
-/

namespace PeachOS
namespace Sched

open Lib

theorem live_iff_exists_processOf (s : Sched) (t : Ptr) :
    s.Live t ↔ ∃ q, s.processOf t = some q := by
  rw [Live, processOf, ← Option.isSome_iff_exists, Option.isSome_map]

/-- The task that the tail of a list leads to when a record for `task` is new. -/
def TailOk (s : Sched) (task : Ptr) : Prop :=
  s.taskHead = 0 ∨ s.Live s.taskTail ∨ s.taskTail = task

/-- The links between processes and tasks are the same. -/
structure SameOwners (s s' : Sched) : Prop where
  procs : s'.procs = s.procs
  processes : s'.processes = s.processes
  currentProcess : s'.currentProcess = s.currentProcess
  processOf : s'.processOf = s.processOf

namespace SameOwners

variable {s s' : Sched}

theorem refl (s : Sched) : SameOwners s s := ⟨rfl, rfl, rfl, rfl⟩

theorem trans
    {s'' : Sched} (h : SameOwners s s') (h' : SameOwners s' s'') :
    SameOwners s s'' where
  procs := h'.procs.trans h.procs
  processes := h'.processes.trans h.processes
  currentProcess := h'.currentProcess.trans h.currentProcess
  processOf := h'.processOf.trans h.processOf

theorem live_iff
    (h : SameOwners s s') (p : Ptr) :
    s'.Live p ↔ s.Live p := by
  rw [live_iff_exists_processOf, live_iff_exists_processOf, h.processOf]

/-- A record is replaced by one of the same process. -/
theorem setTask
    {p : Ptr} {record record' : Task}
    (hrecord : s.tasks p = some record) (hprocess : record'.process = record.process) :
    SameOwners s (s.setTask p (some record')) where
  procs := rfl
  processes := rfl
  currentProcess := rfl
  processOf := by
    funext q
    simp only [Sched.processOf, setTask_tasks]
    split_ifs with hq
    · rw [hq, hrecord]
      exact congrArg some hprocess
    · rfl

end SameOwners

theorem task_eq_error
    {s : Sched} {p : Ptr}
    (h : ¬ s.Live p) :
    s.task p = .error .fault := by
  rw [Live, Bool.not_eq_true, Option.isSome_eq_false_iff, Option.isNone_iff_eq_none] at h
  rw [Sched.task, h]

theorem exists_of_live
    {s : Sched} {p : Ptr}
    (h : s.Live p) :
    ∃ record, s.tasks p = some record :=
  Option.isSome_iff_exists.mp h

/-- The first part of a removal, which follows the `prev` pointer. -/
def unlinkPrev (s : Sched) (record : Task) : Except Halt Sched :=
  if record.prev ≠ 0 then do
    let prev ← s.task record.prev
    pure (s.setTask record.prev (some { prev with next := record.next }))
  else
    pure s

/-- The second part, which moves the tail and the current task off `task`. -/
def leaveTask (s : Sched) (task : Ptr) (record : Task) : Except Halt Sched :=
  let s := if task = s.taskTail then { s with taskTail := record.prev } else s
  if task = s.currentTask then do
    let next ← s.taskGetNext
    pure { s with currentTask := next }
  else
    pure s

theorem taskListRemove_split
    {s : Sched} {task : Ptr} {record : Task}
    (hrecord : s.tasks task = some record) :
    s.taskListRemove task = (s.unlinkPrev record >>= fun s => s.leaveTask task record) := by
  rw [taskListRemove, task_eq_ok hrecord, ok_bind, unlinkPrev]
  by_cases h0 : record.prev ≠ 0
  · simp only [if_pos h0]
    cases s.task record.prev <;> rfl
  · simp only [if_neg h0]
    rfl

theorem unlinkPrev_spec
    {s : Sched} {record : Task}
    (hprev : record.prev = 0 ∨ s.Live record.prev) :
    ∃ s', s.unlinkPrev record = .ok s' ∧ SameOwners s s' := by
  by_cases h0 : record.prev = 0
  · refine ⟨s, ?_, SameOwners.refl s⟩
    rw [unlinkPrev, if_neg (not_not.mpr h0)]
    rfl
  · obtain ⟨prev, hlive⟩ := exists_of_live (hprev.resolve_left h0)
    refine ⟨s.setTask record.prev (some { prev with next := record.next }), ?_,
      SameOwners.setTask hlive rfl⟩
    rw [unlinkPrev, if_pos h0, task_eq_ok hlive]
    rfl

theorem unlinkPrev_fault
    {s : Sched} {record : Task}
    (h0 : record.prev ≠ 0) (hprev : ¬ s.Live record.prev) :
    s.unlinkPrev record = .error .fault := by
  rw [unlinkPrev, if_pos h0, task_eq_error hprev]
  rfl

theorem leaveTask_spec
    {s : Sched} {task : Ptr} (hlive : s.Live task) (record : Task) :
    ∃ s', s.leaveTask task record = .ok s' ∧ SameOwners s s' := by
  obtain ⟨current, hcurrent⟩ := exists_of_live hlive
  let s₁ : Sched := if task = s.taskTail then { s with taskTail := record.prev } else s
  have htasks : s₁.tasks = s.tasks := by
    dsimp only [s₁]
    split_ifs <;> rfl
  have hsame : SameOwners s s₁ := by
    dsimp only [s₁]
    split_ifs
    · exact ⟨rfl, rfl, rfl, rfl⟩
    · exact SameOwners.refl s
  change ∃ s', (if task = s₁.currentTask then do
      let next ← s₁.taskGetNext
      pure { s₁ with currentTask := next }
    else
      pure s₁) = .ok s' ∧ SameOwners s s'
  by_cases heq : task = s₁.currentTask
  · have hread : s₁.task s₁.currentTask = .ok current := by
      rw [← heq]
      exact task_eq_ok (htasks ▸ hcurrent)
    refine ⟨{ s₁ with currentTask := if current.next = 0 then s₁.taskHead else current.next },
      ?_, hsame.trans ⟨rfl, rfl, rfl, rfl⟩⟩
    rw [if_pos heq, taskGetNext, hread, ok_bind]
    split_ifs <;> rfl
  · exact ⟨s₁, if_neg heq, hsame⟩

/-- A task can be freed exactly when its `prev` pointer can be followed, and
then it is the only one that is gone. -/
theorem taskFree_removed
    {s : Sched} {task : Ptr} {record : Task}
    (hrecord : s.tasks task = some record)
    (hprev : record.prev = 0 ∨ s.Live record.prev) :
    ∃ s', s.taskFree task = .ok s' ∧ Removed s s' task := by
  obtain ⟨s₁, hunlink, hsame₁⟩ := unlinkPrev_spec hprev
  have hlive : s₁.Live task := by
    rw [hsame₁.live_iff, Live, hrecord]
    rfl
  obtain ⟨s₂, hleave, hsame₂⟩ := leaveTask_spec hlive record
  have hsame := hsame₁.trans hsame₂
  refine ⟨s₂.setTask task none, ?_, hsame.procs, hsame.processes, hsame.currentProcess,
    if_pos rfl, ?_⟩
  · rw [taskFree, taskListRemove_split hrecord, hunlink, ok_bind, hleave]
    rfl
  · intro q hq
    rw [← hsame.processOf]
    exact congrArg (Option.map Task.process) (if_neg hq)

theorem taskFree_fault
    {s : Sched} {task : Ptr} {record : Task}
    (hrecord : s.tasks task = some record)
    (h0 : record.prev ≠ 0) (hprev : ¬ s.Live record.prev) :
    s.taskFree task = .error .fault := by
  rw [taskFree, taskListRemove_split hrecord, unlinkPrev_fault h0 hprev]
  rfl

/-- The `prev` pointer of the task can be followed. -/
def CanLeave (s : Sched) (task : Ptr) : Prop :=
  ∃ record, s.tasks task = some record ∧ (record.prev = 0 ∨ s.Live record.prev)

/-- The new task is there with its process, and can be freed again. -/
structure Created (s s' : Sched) (task process : Ptr) : Prop where
  procs : s'.procs = s.procs
  processes : s'.processes = s.processes
  currentProcess : s'.currentProcess = s.currentProcess
  tail : s'.taskTail = task
  processOf : ∀ q, s'.processOf q = if q = task then some process else s.processOf q
  prev : s'.CanLeave task

theorem processOf_setTask
    (s : Sched) (p : Ptr) (record : Task) (q : Ptr) :
    (s.setTask p (some record)).processOf q =
      if q = p then some record.process else s.processOf q := by
  simp only [processOf, setTask_tasks]
  split_ifs <;> rfl

theorem taskNew_created
    {s : Sched} {task : Ptr} (h0 : task ≠ 0) (htail : s.TailOk task)
    (process pageDirectory : Ptr) :
    ∃ s', s.taskNew task process pageDirectory = .ok (task, s') ∧
      Created s s' task process := by
  let s₁ := s.setTask task (some ⟨pageDirectory, process, 0, 0⟩)
  by_cases hhead : s.taskHead = 0
  · refine ⟨{ s₁ with taskHead := task, taskTail := task, currentTask := task }, ?_,
      rfl, rfl, rfl, rfl, processOf_setTask s task _, ⟨_, if_pos rfl, Or.inl rfl⟩⟩
    rw [taskNew, if_neg h0]
    exact if_pos hhead
  · have hlive : s₁.Live s.taskTail := by
      rw [Live, setTask_tasks]
      split_ifs with heq
      · rfl
      · exact (htail.resolve_left hhead).resolve_right heq
    obtain ⟨tail, hrecord⟩ := exists_of_live hlive
    let s₂ := s₁.setTask s.taskTail (some { tail with next := task })
    have hsame₂ : SameOwners s₁ s₂ := SameOwners.setTask hrecord rfl
    have hnew : s₂.Live task := by
      rw [hsame₂.live_iff, Live, setTask_tasks, if_pos rfl]
      rfl
    obtain ⟨new, hnew⟩ := exists_of_live hnew
    let s₃ := s₂.setTask task (some { new with prev := s.taskTail })
    have hsame₃ : SameOwners s₂ s₃ := SameOwners.setTask hnew rfl
    have hsame := hsame₂.trans hsame₃
    refine ⟨{ s₃ with taskTail := task }, ?_, rfl, rfl, rfl, rfl, ?_,
      ⟨{ new with prev := s.taskTail }, if_pos rfl, Or.inr ?_⟩⟩
    · rw [taskNew, if_neg h0]
      refine (if_neg hhead).trans ?_
      rw [show s₁.taskTail = s.taskTail from rfl, task_eq_ok hrecord, ok_bind]
      change (s₂.task task >>= _) = _
      rw [task_eq_ok hnew]
      rfl
    · intro q
      rw [← processOf_setTask s task ⟨pageDirectory, process, 0, 0⟩]
      exact congrFun hsame.processOf q
    · exact (hsame.live_iff _).mpr hlive

theorem taskNew_fault
    {s : Sched} {task : Ptr} (h0 : task ≠ 0) (htail : ¬ s.TailOk task)
    (process pageDirectory : Ptr) :
    s.taskNew task process pageDirectory = .error .fault := by
  rw [TailOk, not_or, not_or] at htail
  obtain ⟨hhead, hdead, hne⟩ := htail
  have hdead' : ¬ (s.setTask task (some ⟨pageDirectory, process, 0, 0⟩)).Live s.taskTail := by
    rwa [Live, setTask_tasks, if_neg hne]
  rw [taskNew, if_neg h0]
  refine (if_neg hhead).trans ?_
  exact congrArg (· >>= _) (task_eq_error hdead')

theorem tasks_of_task
    {s : Sched} {p : Ptr} {record : Task}
    (h : s.task p = .ok record) :
    s.tasks p = some record := by
  rw [Sched.task] at h
  cases heq : s.tasks p with
  | none => simp [heq] at h
  | some record' =>
      rw [heq] at h
      cases h
      rfl

theorem taskSwitch_inv
    {s s' : Sched} {t : Ptr}
    (h : s.taskSwitch t = .ok s') :
    s' = { s with currentTask := t } ∧ s.Live t := by
  obtain ⟨record, hrecord, heq⟩ := bind_eq_ok_iff.mp h
  cases heq
  exact ⟨rfl, congrArg Option.isSome (tasks_of_task hrecord)⟩

theorem taskNext_inv
    {s s' : Sched}
    (h : s.taskNext = .ok s') :
    ∃ t, s' = { s with currentTask := t } ∧ s.Live t := by
  obtain ⟨next, -, h⟩ := bind_eq_ok_iff.mp h
  split_ifs at h
  exact ⟨next, taskSwitch_inv h⟩

theorem Created.live_iff
    {s s' : Sched} {task process : Ptr}
    (h : Created s s' task process) (t : Ptr) :
    s'.Live t ↔ t = task ∨ s.Live t := by
  rw [live_iff_exists_processOf, live_iff_exists_processOf, h.processOf]
  split_ifs with heq
  · simp [heq]
  · simp [heq]

theorem Removed.live_iff
    {s s' : Sched} {task : Ptr}
    (h : Removed s s' task) (t : Ptr) :
    s'.Live t ↔ t ≠ task ∧ s.Live t := by
  rcases Decidable.em (t = task) with rfl | hne
  · simp [Live, h.gone]
  · rw [live_iff_exists_processOf, live_iff_exists_processOf, h.others t hne]
    simp [hne]

theorem taskNew_inv
    {s s' : Sched} {task process pageDirectory t : Ptr} (h0 : task ≠ 0)
    (h : s.taskNew task process pageDirectory = .ok (t, s')) :
    t = task ∧ Created s s' task process := by
  rcases Classical.em (s.TailOk task) with htail | htail
  · obtain ⟨s₂, hnew, hcreated⟩ := taskNew_created h0 htail process pageDirectory
    cases hnew.symm.trans h
    exact ⟨rfl, hcreated⟩
  · cases (taskNew_fault h0 htail process pageDirectory).symm.trans h

def pageDirectoryOf (s : Sched) (t : Ptr) : Option Ptr := (s.tasks t).map Task.pageDirectory

theorem pageDirectoryOf_setTask
    (s : Sched) (p : Ptr) (record : Task) (q : Ptr) :
    (s.setTask p (some record)).pageDirectoryOf q =
      if q = p then some record.pageDirectory else s.pageDirectoryOf q := by
  simp only [pageDirectoryOf, setTask_tasks]
  split_ifs <;> rfl

/-- A record is replaced by one with the same directory. -/
theorem pageDirectoryOf_relink
    {s : Sched} {p : Ptr} {record : Task} (hrecord : s.task p = .ok record) (record' : Task)
    (hsame : record'.pageDirectory = record.pageDirectory) (q : Ptr) :
    (s.setTask p (some record')).pageDirectoryOf q = s.pageDirectoryOf q := by
  rw [pageDirectoryOf_setTask]
  split_ifs with hq
  · rw [hq, hsame, pageDirectoryOf, tasks_of_task hrecord, Option.map_some]
  · rfl

theorem taskNew_pageDirectoryOf
    {s s' : Sched} {task process pageDirectory t : Ptr} (h0 : task ≠ 0)
    (h : s.taskNew task process pageDirectory = .ok (t, s')) (q : Ptr) :
    s'.pageDirectoryOf q = if q = task then some pageDirectory else s.pageDirectoryOf q := by
  have hnew := pageDirectoryOf_setTask s task ⟨pageDirectory, process, 0, 0⟩ q
  rw [taskNew, if_neg h0] at h
  dsimp only at h
  by_cases hhead : (s.setTask task (some ⟨pageDirectory, process, 0, 0⟩)).taskHead = 0
  · rw [if_pos hhead] at h
    cases h
    exact hnew
  · rw [if_neg hhead] at h
    obtain ⟨tail, htail, h⟩ := bind_eq_ok_iff.mp h
    obtain ⟨new, hread, h⟩ := bind_eq_ok_iff.mp h
    cases h
    have hnext := pageDirectoryOf_relink htail { tail with next := task } rfl q
    have hprev := pageDirectoryOf_relink hread { new with prev := s.taskTail } rfl q
    exact (hprev.trans hnext).trans hnew

theorem taskFree_inv
    {s s' : Sched} {task : Ptr}
    (h : s.taskFree task = .ok s') :
    Removed s s' task := by
  cases hrecord : s.tasks task with
  | none =>
      have hdead : ¬ s.Live task := by simp [Live, hrecord]
      rw [taskFree, taskListRemove, task_eq_error hdead] at h
      cases h
  | some record =>
      rcases Classical.em (record.prev = 0 ∨ s.Live record.prev) with hprev | hprev
      · obtain ⟨s₂, hfree, hremoved⟩ := taskFree_removed hrecord hprev
        cases hfree.symm.trans h
        exact hremoved
      · rw [not_or] at hprev
        cases (taskFree_fault hrecord hprev.1 hprev.2).symm.trans h

end Sched
end PeachOS
