import Mathlib.Tactic.SplitIfs
import PeachOS.Lib.CInt
import PeachOS.Lib.Linked
import PeachOS.Task.Sched

/-!
# The task list

The tasks that are live are the cells of one list, linked through `next` from
the head to the tail.  Nothing is said of the `prev` pointers: an append keeps
such a list, and so does the removal of a task whose own `prev` is right.
-/

namespace PeachOS
namespace Sched

open Lib

def nextOf (s : Sched) (p : Ptr) : Option Ptr := (s.tasks p).map Task.next

def processOf (s : Sched) (p : Ptr) : Option Ptr := (s.tasks p).map Task.process

/-- A task that was created and has not been freed. -/
def Live (s : Sched) (p : Ptr) : Prop := (s.tasks p).isSome = true

structure ListInv (s : Sched) (ts : List Ptr) : Prop where
  linked : Linked s.nextOf 0 ts
  nodup : ts.Nodup
  mem : ∀ p, p ∈ ts ↔ s.Live p
  notNull : (0 : Ptr) ∉ ts
  head : s.taskHead = ts.headD 0
  tail : s.taskTail = ts.getLastD 0
  current : s.currentTask ∈ ts ∨ (ts = [] ∧ s.currentTask = 0)

@[simp] theorem setTask_tasks
    (s : Sched) (p q : Ptr) (task : Option Task) :
    (s.setTask p task).tasks q = if q = p then task else s.tasks q :=
  rfl

@[simp] theorem setProc_procs
    (s : Sched) (p q : Ptr) (link : Option ProcessLink) :
    (s.setProc p link).procs q = if q = p then link else s.procs q :=
  rfl

theorem task_eq_ok
    {s : Sched} {p : Ptr} {record : Task}
    (h : s.tasks p = some record) :
    s.task p = .ok record := by
  rw [Sched.task, h]

theorem proc_eq_ok
    {s : Sched} {p : Ptr} {link : ProcessLink}
    (h : s.procs p = some link) :
    s.proc p = .ok link := by
  rw [Sched.proc, h]

namespace ListInv

variable {s : Sched} {ts : List Ptr}

theorem empty : ListInv Sched.empty [] :=
  ⟨Linked.nil, List.nodup_nil, fun p => by simp [Live, Sched.empty], List.not_mem_nil,
    rfl, rfl, Or.inr ⟨rfl, rfl⟩⟩

theorem exists_task
    (h : ListInv s ts) {p : Ptr} (hp : p ∈ ts) :
    ∃ record, s.tasks p = some record :=
  Option.isSome_iff_exists.mp ((h.mem p).mp hp)

theorem tasks_eq_none
    (h : ListInv s ts) {p : Ptr} (hp : p ∉ ts) :
    s.tasks p = none := by
  cases heq : s.tasks p with
  | none => rfl
  | some record => exact absurd ((h.mem p).mpr (by rw [Live, heq]; rfl)) hp

theorem taskHead_eq_zero_iff
    (h : ListInv s ts) :
    s.taskHead = 0 ↔ ts = [] := by
  rw [h.head]
  cases ts with
  | nil => simp
  | cons t ts =>
      refine iff_of_false ?_ (List.cons_ne_nil t ts)
      intro h0
      exact h.notNull (h0 ▸ List.mem_cons_self)

/-- The next task is a live one as soon as there is any. -/
theorem taskGetNext
    (h : ListInv s ts) (hne : ts ≠ []) :
    ∃ next, s.taskGetNext = .ok next ∧ next ∈ ts := by
  have hcurrent : s.currentTask ∈ ts := h.current.resolve_right fun hc => hne hc.1
  obtain ⟨record, hrecord⟩ := h.exists_task hcurrent
  have hnext : s.nextOf s.currentTask = some record.next := by
    rw [nextOf, hrecord]
    rfl
  rw [Sched.taskGetNext, task_eq_ok hrecord, ok_bind]
  rcases Decidable.em (record.next = 0) with h0 | h0
  · refine ⟨s.taskHead, if_pos h0, ?_⟩
    rw [h.head]
    cases ts with
    | nil => exact absurd rfl hne
    | cons t ts => exact List.mem_cons_self
  · exact ⟨record.next, if_neg h0, (h.linked.next_mem hcurrent hnext).resolve_left h0⟩

theorem switch
    (h : ListInv s ts) {t : Ptr} (ht : t ∈ ts) :
    ListInv { s with currentTask := t } ts :=
  { h with current := Or.inl ht }

theorem taskSwitch
    (h : ListInv s ts) {t : Ptr} (ht : t ∈ ts) :
    s.taskSwitch t = .ok { s with currentTask := t } := by
  obtain ⟨record, hrecord⟩ := (h.switch ht).exists_task ht
  rw [Sched.taskSwitch, task_eq_ok hrecord, ok_bind]
  rfl

theorem taskNext
    (h : ListInv s ts) (hne : ts ≠ []) :
    ∃ next, s.taskNext = .ok { s with currentTask := next } ∧ next ∈ ts := by
  obtain ⟨next, hnext, hmem⟩ := h.taskGetNext hne
  have h0 : next ≠ 0 := fun h0 => h.notNull (h0 ▸ hmem)
  refine ⟨next, ?_, hmem⟩
  rw [Sched.taskNext, hnext, ok_bind, if_neg h0, h.taskSwitch hmem]

/-- A change that keeps the tasks and the three pointers keeps the list. -/
theorem congr
    (h : ListInv s ts) {s' : Sched} (htasks : s'.tasks = s.tasks)
    (hhead : s'.taskHead = s.taskHead) (htail : s'.taskTail = s.taskTail)
    (hcurrent : s'.currentTask = s.currentTask) :
    ListInv s' ts where
  linked := h.linked.congr fun x _ => by rw [nextOf, nextOf, htasks]
  nodup := h.nodup
  mem := fun p => by rw [Live, htasks]; exact h.mem p
  notNull := h.notNull
  head := hhead.trans h.head
  tail := htail.trans h.tail
  current := by rw [hcurrent]; exact h.current

end ListInv

/-- What `taskNew` leaves alone, and the record that it makes. -/
structure Appended (s s' : Sched) (task process pageDirectory : Ptr) : Prop where
  procs : s'.procs = s.procs
  processes : s'.processes = s.processes
  currentProcess : s'.currentProcess = s.currentProcess
  new : s'.tasks task = some ⟨pageDirectory, process, 0, s.taskTail⟩
  others : ∀ q, q ≠ task → s'.processOf q = s.processOf q
  tail : s.taskHead ≠ 0 → s'.nextOf s.taskTail = some task

theorem taskNew_nil
    {s : Sched} (h : ListInv s [])
    {task : Ptr} (h0 : task ≠ 0) (process pageDirectory : Ptr) :
    ∃ s', s.taskNew task process pageDirectory = .ok (task, s') ∧ ListInv s' [task] ∧
      Appended s s' task process pageDirectory := by
  have hhead := h.taskHead_eq_zero_iff.mpr rfl
  have htail : s.taskTail = 0 := h.tail
  refine ⟨_, (if_neg h0).trans (if_pos hhead), ?_, ?_⟩
  · refine ⟨?_, List.nodup_singleton task, ?_, ?_, rfl, rfl, Or.inl List.mem_cons_self⟩
    · exact Linked.singleton (by simp [nextOf])
    · intro p
      have hnone := h.tasks_eq_none (p := p) List.not_mem_nil
      simp only [List.mem_singleton, Live, setTask_tasks, hnone]
      split_ifs with heq <;> simp [heq]
    · exact fun hmem => h0 (List.mem_singleton.mp hmem).symm
  · refine ⟨rfl, rfl, rfl, ?_, ?_, fun hne => absurd hhead hne⟩
    · simp [htail]
    · intro q hq
      simp [processOf, hq]

/-- The tasks after an append behind `last`. -/
def appendTasks (s : Sched) (last task : Ptr) (record new : Task) (q : Ptr) : Option Task :=
  if q = task then some { new with prev := last }
  else if q = last then some { record with next := task }
  else s.tasks q

theorem taskNew_eq
    {s : Sched} {task : Ptr} {record : Task}
    (h0 : task ≠ 0) (hhead : s.taskHead ≠ 0) (hne : s.taskTail ≠ task)
    (hrecord : s.tasks s.taskTail = some record) (process pageDirectory : Ptr) :
    s.taskNew task process pageDirectory =
      .ok (task, { s with
        tasks := s.appendTasks s.taskTail task record ⟨pageDirectory, process, 0, 0⟩
        taskTail := task }) := by
  let new : Task := ⟨pageDirectory, process, 0, 0⟩
  let s₁ := s.setTask task (some new)
  let s₂ := s₁.setTask s.taskTail (some { record with next := task })
  have htail : s₁.task s.taskTail = .ok record :=
    task_eq_ok ((if_neg hne).trans hrecord)
  have hnew : s₂.task task = .ok new :=
    task_eq_ok ((if_neg hne.symm).trans (if_pos rfl))
  have hnew' : s₂.setTask task (some { new with prev := s.taskTail }) =
      { s with tasks := s.appendTasks s.taskTail task record new } := by
    refine congrArg (fun tasks => ({ s with tasks := tasks } : Sched)) (funext fun q => ?_)
    rcases Decidable.em (q = task) with rfl | hq
    · simp [appendTasks]
    · simp [appendTasks, s₂, s₁, hq]
  calc s.taskNew task process pageDirectory
      = (do
          let tail ← s₁.task s.taskTail
          let s := s₁.setTask s.taskTail (some { tail with next := task })
          let new ← s.task task
          let s := s.setTask task (some { new with prev := s.taskTail })
          pure (task, { s with taskTail := task })) := (if_neg h0).trans (if_neg hhead)
    _ = .ok (task, { s₂.setTask task (some { new with prev := s.taskTail }) with
          taskTail := task }) := by
        rw [htail, ok_bind]
        exact congrArg (· >>= _) hnew
    _ = _ := by rw [hnew']

/-- The state after a new task is appended behind the tail. -/
def appendTask (s : Sched) (task : Ptr) (record new : Task) : Sched :=
  { s with tasks := s.appendTasks s.taskTail task record new, taskTail := task }

section Append

variable {s : Sched} {ts : List Ptr} {last task : Ptr} {record new : Task}

theorem appendTask_linked
    (h : ListInv s (ts ++ [last])) (hfresh : task ∉ ts ++ [last]) (hnew : new.next = 0) :
    Linked (s.appendTask task record new).nextOf 0 (ts ++ [last] ++ [task]) := by
  have htail : s.taskTail = last := by rw [h.tail, List.getLastD_concat]
  have hne : last ≠ task := fun heq => hfresh (heq ▸ List.mem_append_right ts List.mem_cons_self)
  refine h.linked.snoc ?_ ?_ ?_
  · intro q hq
    have hq' : q ≠ task := fun heq => hfresh (heq ▸ List.mem_append_left _ hq)
    have hq'' : q ≠ last :=
      fun heq => (List.nodup_append.mp h.nodup).2.2 q hq last List.mem_cons_self heq
    simp [nextOf, appendTask, appendTasks, htail, hq', hq'']
  · simp [nextOf, appendTask, appendTasks, htail, hne]
  · simp [nextOf, appendTask, appendTasks, hnew]

theorem appendTask_inv
    (h : ListInv s (ts ++ [last])) (hrecord : s.tasks last = some record)
    (hfresh : task ∉ ts ++ [last]) (h0 : task ≠ 0) (hnew : new.next = 0) :
    ListInv (s.appendTask task record new) (ts ++ [last] ++ [task]) := by
  have htail : s.taskTail = last := by rw [h.tail, List.getLastD_concat]
  refine ⟨appendTask_linked h hfresh hnew, ?_, ?_, ?_, ?_, ?_, ?_⟩
  · exact List.nodup_append.mpr ⟨h.nodup, List.nodup_singleton task, fun a ha b hb hab =>
      hfresh (List.mem_singleton.mp hb ▸ hab ▸ ha)⟩
  · intro p
    rw [List.mem_append, List.mem_singleton, h.mem p, Live, Live]
    simp only [appendTask, appendTasks, htail]
    split_ifs with hp hp'
    · simp [hp]
    · simp [hp', hrecord]
    · simp [hp]
  · intro hmem
    rcases List.mem_append.mp hmem with hmem | hmem
    · exact h.notNull hmem
    · exact h0 (List.mem_singleton.mp hmem).symm
  · rw [show (s.appendTask task record new).taskHead = s.taskHead from rfl, h.head]
    cases ts with
    | nil => rfl
    | cons t ts => rfl
  · exact List.getLastD_concat.symm
  · exact Or.inl (List.mem_append_left _ (h.current.resolve_right fun hc => by simp at hc))

theorem appendTask_appended
    (hrecord : s.tasks s.taskTail = some record) (hne : s.taskTail ≠ task)
    (process pageDirectory : Ptr) :
    Appended s (s.appendTask task record ⟨pageDirectory, process, 0, 0⟩) task process
      pageDirectory := by
  refine ⟨rfl, rfl, rfl, ?_, ?_, ?_⟩
  · simp [appendTask, appendTasks]
  · intro q hq
    simp only [processOf, appendTask, appendTasks, if_neg hq]
    split_ifs with hq'
    · simp [hq', hrecord]
    · rfl
  · intro _
    simp [nextOf, appendTask, appendTasks, hne]

end Append

theorem taskNew_concat
    {s : Sched} {ts : List Ptr} {last : Ptr} (h : ListInv s (ts ++ [last]))
    {task : Ptr} (htask : s.tasks task = none) (h0 : task ≠ 0) (process pageDirectory : Ptr) :
    ∃ s', s.taskNew task process pageDirectory = .ok (task, s') ∧
      ListInv s' (ts ++ [last] ++ [task]) ∧ Appended s s' task process pageDirectory := by
  have hlast : last ∈ ts ++ [last] := by simp
  have hfresh : task ∉ ts ++ [last] := by
    intro hmem
    obtain ⟨record, hrecord⟩ := h.exists_task hmem
    rw [htask] at hrecord
    cases hrecord
  have htail : s.taskTail = last := by rw [h.tail, List.getLastD_concat]
  have hne : s.taskTail ≠ task := fun heq => hfresh (heq ▸ htail ▸ hlast)
  have hhead : s.taskHead ≠ 0 := fun h' => by simpa using h.taskHead_eq_zero_iff.mp h'
  obtain ⟨record, hrecord⟩ := h.exists_task hlast
  exact ⟨_, taskNew_eq h0 hhead hne (htail ▸ hrecord) process pageDirectory,
    appendTask_inv h hrecord hfresh h0 rfl,
    appendTask_appended (htail ▸ hrecord) hne process pageDirectory⟩

theorem taskNew_spec
    {s : Sched} {ts : List Ptr} (h : ListInv s ts)
    {task : Ptr} (htask : s.tasks task = none) (h0 : task ≠ 0) (process pageDirectory : Ptr) :
    ∃ s', s.taskNew task process pageDirectory = .ok (task, s') ∧ ListInv s' (ts ++ [task]) ∧
      Appended s s' task process pageDirectory := by
  rcases List.eq_nil_or_concat' ts with rfl | ⟨ts, last, rfl⟩
  · exact taskNew_nil h h0 process pageDirectory
  · exact taskNew_concat h htask h0 process pageDirectory

/-- The `prev` pointer of a task leads to the live task that is linked to it. -/
def FreesLinked (s : Sched) (t : Ptr) : Prop :=
  ∃ record prev, s.tasks t = some record ∧ s.tasks record.prev = some prev ∧ prev.next = t

structure Removed (s s' : Sched) (task : Ptr) : Prop where
  procs : s'.procs = s.procs
  processes : s'.processes = s.processes
  currentProcess : s'.currentProcess = s.currentProcess
  gone : s'.tasks task = none
  others : ∀ q, q ≠ task → s'.processOf q = s.processOf q

/-- The tasks after the one behind `prev` is unlinked and freed. -/
def unlinkTasks (s : Sched) (task : Ptr) (record prev : Task) (q : Ptr) : Option Task :=
  if q = task then none
  else if q = record.prev then some { prev with next := record.next }
  else s.tasks q

/-- The current task after `task` is freed. -/
def nextCurrent (s : Sched) (task : Ptr) (record : Task) : Ptr :=
  if task = s.currentTask then
    if record.next = 0 then s.taskHead else record.next
  else
    s.currentTask

theorem taskListRemove_eq
    {s : Sched} {task : Ptr} {record prev : Task}
    (hrecord : s.tasks task = some record) (hprev : s.tasks record.prev = some prev)
    (h0 : record.prev ≠ 0) (hne : record.prev ≠ task) :
    s.taskListRemove task =
      .ok { s.setTask record.prev (some { prev with next := record.next }) with
        taskTail := if task = s.taskTail then record.prev else s.taskTail
        currentTask := s.nextCurrent task record } := by
  let s₁ := s.setTask record.prev (some { prev with next := record.next })
  let s₂ := if task = s.taskTail then { s₁ with taskTail := record.prev } else s₁
  have hs₂ : s₂ = { s₁ with
      taskTail := if task = s.taskTail then record.prev else s.taskTail } :=
    (apply_ite (fun tail => ({ s₁ with taskTail := tail } : Sched)) _ _ _).symm
  have htask : s₂.task task = .ok record := by
    rw [hs₂]
    exact task_eq_ok ((if_neg hne.symm).trans hrecord)
  have hnext : task = s₂.currentTask →
      s₂.taskGetNext = .ok (if record.next = 0 then s.taskHead else record.next) := by
    intro hcurrent
    rw [Sched.taskGetNext, ← hcurrent, htask, ok_bind, hs₂]
    exact (apply_ite Except.ok _ _ _).symm
  calc s.taskListRemove task
      = (if task = s₂.currentTask then do
            let next ← s₂.taskGetNext
            pure { s₂ with currentTask := next }
          else
            pure s₂) := by
        rw [Sched.taskListRemove, task_eq_ok hrecord, ok_bind, if_pos h0,
          task_eq_ok hprev, ok_bind]
        rfl
    _ = .ok { s₂ with currentTask := s.nextCurrent task record } := by
        have hcurrent : s₂.currentTask = s.currentTask := by rw [hs₂]; rfl
        rw [nextCurrent, ← hcurrent]
        rcases Decidable.em (task = s₂.currentTask) with heq | heq
        · rw [if_pos heq, if_pos heq, hnext heq, ok_bind]
          rfl
        · rw [if_neg heq, if_neg heq]
          rfl
    _ = _ := by rw [hs₂]

theorem taskFree_eq
    {s : Sched} {task : Ptr} {record prev : Task}
    (hrecord : s.tasks task = some record) (hprev : s.tasks record.prev = some prev)
    (h0 : record.prev ≠ 0) (hne : record.prev ≠ task) :
    s.taskFree task =
      .ok { s with
        tasks := s.unlinkTasks task record prev
        taskTail := if task = s.taskTail then record.prev else s.taskTail
        currentTask := s.nextCurrent task record } := by
  rw [taskFree, taskListRemove_eq hrecord hprev h0 hne]
  rfl

/-- The task that is freed, and where it is in the list. -/
structure Between (s : Sched) (ts as bs : List Ptr) (task : Ptr) (record prev : Task) : Prop where
  split : ts = as ++ record.prev :: task :: bs
  recorded : s.tasks task = some record
  before : s.tasks record.prev = some prev
  ne : record.prev ≠ task
  outside : ∀ q ∈ as ++ bs, q ≠ task ∧ q ≠ record.prev
  erase : ts.erase task = as ++ record.prev :: bs
  behind : record.next = bs.headD 0

theorem ListInv.between
    {s : Sched} {ts : List Ptr} (h : ListInv s ts) {task : Ptr} (htask : s.FreesLinked task) :
    ∃ as bs record prev, Between s ts as bs task record prev := by
  obtain ⟨record, prev, hrecord, hprev, hnext⟩ := htask
  have hmem : task ∈ ts := (h.mem task).mpr (by rw [Live, hrecord]; rfl)
  have hpmem : record.prev ∈ ts := (h.mem _).mpr (by rw [Live, hprev]; rfl)
  have hplink : s.nextOf record.prev = some task := by simp [nextOf, hprev, hnext]
  obtain ⟨as, bs, rfl⟩ := h.linked.split_of_next hpmem hplink fun h0 => h.notNull (h0 ▸ hmem)
  have hnodup := h.nodup
  simp only [List.nodup_append, List.nodup_cons, List.mem_cons, not_or] at hnodup
  obtain ⟨-, ⟨⟨hne, hpbs⟩, htbs, -⟩, hdisj⟩ := hnodup
  have htas : task ∉ as := fun hq => hdisj task hq task (Or.inr (Or.inl rfl)) rfl
  have hpas : record.prev ∉ as := fun hq => hdisj _ hq _ (Or.inl rfl) rfl
  refine ⟨as, bs, record, prev, rfl, hrecord, hprev, hne, fun q hq => ⟨?_, ?_⟩, ?_, ?_⟩
  · rintro rfl
    exact (List.mem_append.mp hq).elim htas htbs
  · rintro rfl
    exact (List.mem_append.mp hq).elim hpas hpbs
  · rw [List.erase_append_right _ htas, List.erase_cons_tail (by simpa using hne),
      List.erase_cons_head]
  · have hlink := h.linked
    rw [List.append_cons] at hlink
    refine Option.some.inj (Eq.trans ?_ hlink.next_of_append)
    rw [nextOf, hrecord]
    rfl

section Between

variable {s : Sched} {ts as bs : List Ptr} {task : Ptr} {record prev : Task}

theorem Between.linked
    (h : Between s ts as bs task record prev) (hinv : ListInv s ts) {s' : Sched}
    (htasks : s'.tasks = s.unlinkTasks task record prev) :
    Linked s'.nextOf 0 (ts.erase task) := by
  have hlinked := hinv.linked
  rw [h.split] at hlinked
  rw [h.erase]
  refine hlinked.unlink ?_ fun q hq => ?_
  · simp [nextOf, htasks, unlinkTasks, h.ne, h.recorded]
  · obtain ⟨hqt, hqp⟩ := h.outside q hq
    simp [nextOf, htasks, unlinkTasks, hqt, hqp]

theorem Between.mem
    (h : Between s ts as bs task record prev) (hinv : ListInv s ts) {s' : Sched}
    (htasks : s'.tasks = s.unlinkTasks task record prev) (q : Ptr) :
    q ∈ ts.erase task ↔ s'.Live q := by
  rw [hinv.nodup.mem_erase_iff, hinv.mem, Live, Live, htasks]
  simp only [unlinkTasks]
  split_ifs with hqt hqp
  · simp [hqt]
  · simp [hqp, h.ne, h.before]
  · simp [hqt]

theorem Between.head
    (h : Between s ts as bs task record prev) (hinv : ListInv s ts) :
    s.taskHead = (ts.erase task).headD 0 := by
  rw [hinv.head, h.erase, h.split]
  cases as with
  | nil => rfl
  | cons a as => rfl

theorem Between.tail
    (h : Between s ts as bs task record prev) (hinv : ListInv s ts) :
    (if task = s.taskTail then record.prev else s.taskTail) = (ts.erase task).getLastD 0 := by
  have htail := hinv.tail
  rw [h.split] at htail
  rw [h.erase]
  rcases List.eq_nil_or_concat' bs with rfl | ⟨bs, b, rfl⟩
  · rw [List.append_cons, List.getLastD_concat] at htail
    rw [List.getLastD_concat]
    exact if_pos htail.symm
  · rw [← List.cons_append, ← List.cons_append, ← List.append_assoc, List.getLastD_concat] at htail
    rw [← List.cons_append, ← List.append_assoc, List.getLastD_concat, ← htail]
    refine if_neg fun heq => ?_
    exact (h.outside s.taskTail (by simp [htail])).1 heq.symm

/-- The task that runs is one of those that are left. -/
theorem Between.current
    (h : Between s ts as bs task record prev) (hinv : ListInv s ts) :
    s.nextCurrent task record ∈ ts.erase task := by
  have hmem : task ∈ ts := (hinv.mem task).mpr (by rw [Live, h.recorded]; rfl)
  have hnext := h.behind
  rw [nextCurrent]
  split_ifs with hcurrent hnull
  · rw [h.head hinv, h.erase]
    cases as with
    | nil => exact List.mem_cons_self
    | cons a as => exact List.mem_cons_self
  · rw [h.erase, hnext]
    cases bs with
    | nil => exact absurd hnext hnull
    | cons b bs => simp
  · refine (hinv.nodup.mem_erase_iff).mpr ⟨fun heq => hcurrent heq.symm, ?_⟩
    exact hinv.current.resolve_right fun hc => List.ne_nil_of_mem hmem hc.1

end Between

theorem taskFree_spec
    {s : Sched} {ts : List Ptr} (h : ListInv s ts)
    {task : Ptr} (htask : s.FreesLinked task) :
    ∃ s', s.taskFree task = .ok s' ∧ ListInv s' (ts.erase task) ∧ Removed s s' task := by
  obtain ⟨as, bs, record, prev, hbetween⟩ := h.between htask
  have hpmem : record.prev ∈ ts := (h.mem _).mpr (by rw [Live, hbetween.before]; rfl)
  refine ⟨_, taskFree_eq hbetween.recorded hbetween.before (fun h0 => h.notNull (h0 ▸ hpmem))
    hbetween.ne, ?_, ?_⟩
  · exact ⟨hbetween.linked h rfl, h.nodup.erase task, hbetween.mem h rfl,
      fun h0 => h.notNull (List.mem_of_mem_erase h0), hbetween.head h, hbetween.tail h,
      Or.inl (hbetween.current h)⟩
  · refine ⟨rfl, rfl, rfl, if_pos rfl, fun q hq => ?_⟩
    simp only [processOf, unlinkTasks, if_neg hq]
    split_ifs with hqp
    · simp [hqp, hbetween.before]
    · rfl

end Sched
end PeachOS
