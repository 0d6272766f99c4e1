import PeachOS.Lib.DoublyLinked
import PeachOS.Lib.Run
import PeachOS.Task.TaskList

/-!
# The task list in both directions

`task_new` links the new task to the last one and back.  `task_list_remove`
unlinks a task from the one before it only: the task behind it keeps its `prev`
pointer.  So the list stays doubly linked exactly when it is the last task that
is removed.
-/

namespace PeachOS
namespace Sched

open Lib

def prevOf (s : Sched) (p : Ptr) : Option Ptr := (s.tasks p).map Task.prev

/-- The live tasks `ts` are linked both ways from the head to the tail. -/
structure WellFormed (s : Sched) (ts : List Ptr) : Prop where
  both : DoublyLinked s.nextOf s.prevOf 0 ts
  nodup : ts.Nodup
  notNull : (0 : Ptr) ∉ ts
  head : s.taskHead = ts.headD 0
  tail : s.taskTail = ts.getLastD 0

namespace WellFormed

variable {s : Sched} {ts : List Ptr}

theorem empty : WellFormed Sched.empty [] :=
  ⟨DoublyLinked.nil, List.nodup_nil, List.not_mem_nil, rfl, rfl⟩

theorem ne_zero
    (h : WellFormed s ts) {p : Ptr} (hp : p ∈ ts) :
    p ≠ 0 :=
  fun h0 => h.notNull (h0 ▸ hp)

theorem exists_task
    (h : WellFormed s ts) {p : Ptr} (hp : p ∈ ts) :
    ∃ record, s.tasks p = some record := by
  obtain ⟨q, hq⟩ := h.both.linked.exists_next hp
  obtain ⟨record, hrecord, -⟩ := Option.map_eq_some_iff.mp hq
  exact ⟨record, hrecord⟩

theorem taskNew_nil
    (h : WellFormed s []) {task : Ptr} (h0 : task ≠ 0) (process pageDirectory : Ptr) :
    ∃ s', s.taskNew task process pageDirectory = .ok (task, s') ∧ WellFormed s' [task] := by
  refine ⟨_, (if_neg h0).trans (if_pos h.head), ?_, List.nodup_singleton task, ?_, rfl, rfl⟩
  · exact DoublyLinked.singleton (by simp [nextOf]) (by simp [prevOf])
  · exact fun hmem => h0 (List.mem_singleton.mp hmem).symm

theorem taskNew_concat
    {last : Ptr} (h : WellFormed s (ts ++ [last])) {task : Ptr} (hfresh : task ∉ ts ++ [last])
    (h0 : task ≠ 0) (process pageDirectory : Ptr) :
    ∃ s', s.taskNew task process pageDirectory = .ok (task, s') ∧
      WellFormed s' (ts ++ [last] ++ [task]) := by
  have hmem : last ∈ ts ++ [last] := by simp
  have htail : s.taskTail = last := by rw [h.tail, List.getLastD_concat]
  have hne : last ≠ task := fun heq => hfresh (heq ▸ hmem)
  have hhead : s.taskHead ≠ 0 := by
    rw [h.head]
    cases ts with
    | nil => exact h.ne_zero List.mem_cons_self
    | cons t ts => exact h.ne_zero List.mem_cons_self
  have hlast : last ∉ ts := by
    have hnodup := h.nodup
    rw [List.nodup_append] at hnodup
    exact fun hin => hnodup.2.2 last hin last List.mem_cons_self rfl
  obtain ⟨record, hrecord⟩ := h.exists_task hmem
  have heq := taskNew_eq h0 hhead (htail ▸ hne) (htail ▸ hrecord) process pageDirectory
  rw [htail] at heq
  have hold (q : Ptr) (hq : q ∈ ts ++ [last]) : q ≠ task := fun heq => hfresh (heq ▸ hq)
  refine ⟨_, heq, ?_, ?_, ?_, ?_, List.getLastD_concat.symm⟩
  · refine h.both.snoc hlast h.notNull hfresh h0 (fun q hq => ?_) ?_ ?_ (fun q hq => ?_) ?_
    · have hq' : q ≠ last := fun heq => hlast (heq ▸ hq)
      simp [nextOf, appendTasks, hold q (List.mem_append_left _ hq), hq']
    · simp [nextOf, appendTasks, hne]
    · simp [nextOf, appendTasks]
    · simp only [prevOf, appendTasks, if_neg (hold q hq)]
      split_ifs with hq'
      · simp [hq', hrecord]
      · rfl
    · simp [prevOf, appendTasks]
  · exact List.nodup_append.mpr ⟨h.nodup, List.nodup_singleton task, fun a ha b hb hab =>
      hfresh (List.mem_singleton.mp hb ▸ hab ▸ ha)⟩
  · intro hnull
    rcases List.mem_append.mp hnull with hnull | hnull
    · exact h.notNull hnull
    · exact h0 (List.mem_singleton.mp hnull).symm
  · rw [show _ = s.taskHead from rfl, h.head]
    cases ts with
    | nil => rfl
    | cons t ts => rfl

/-- An append keeps the two directions together. -/
theorem taskNew
    (h : WellFormed s ts) {task : Ptr} (hfresh : task ∉ ts) (h0 : task ≠ 0)
    (process pageDirectory : Ptr) :
    ∃ s', s.taskNew task process pageDirectory = .ok (task, s') ∧ WellFormed s' (ts ++ [task]) := by
  rcases List.eq_nil_or_concat' ts with rfl | ⟨ts, last, rfl⟩
  · exact h.taskNew_nil h0 process pageDirectory
  · exact h.taskNew_concat hfresh h0 process pageDirectory

/-- The tasks after `t` behind `p` is unlinked. -/
structure Unlinked (s s' : Sched) (p t : Ptr) : Prop where
  next : ∀ q, s'.nextOf q = if q = p then s.nextOf t else s.nextOf q
  prev : ∀ q, s'.prevOf q = s.prevOf q
  head : s'.taskHead = s.taskHead
  tail : s'.taskTail = if t = s.taskTail then p else s.taskTail

theorem taskListRemove
    {as bs : List Ptr} {p t : Ptr} (h : WellFormed s (as ++ p :: t :: bs)) :
    ∃ s', s.taskListRemove t = .ok s' ∧ Unlinked s s' p t := by
  have hp : p ∈ as ++ p :: t :: bs := by simp
  obtain ⟨record, hrecord⟩ := h.exists_task (show t ∈ as ++ p :: t :: bs by simp)
  obtain ⟨prev, hprev⟩ := h.exists_task hp
  have hback : record.prev = p := by
    have hlink : s.prevOf t = some p := h.both.prev_of_append
    rw [prevOf, hrecord] at hlink
    exact Option.some.inj hlink
  have hne : p ≠ t := by
    have hnodup := (List.nodup_append.mp h.nodup).2.1
    rw [List.nodup_cons, List.mem_cons, not_or] at hnodup
    exact hnodup.1.1
  have heq := taskListRemove_eq hrecord (hback ▸ hprev) (hback ▸ h.ne_zero hp) (hback ▸ hne)
  rw [hback] at heq
  refine ⟨_, heq, fun q => ?_, fun q => ?_, rfl, rfl⟩
  · simp only [nextOf, setTask_tasks]
    split_ifs
    · simp [hrecord]
    · rfl
  · simp only [prevOf, setTask_tasks]
    split_ifs with hq
    · simp [hq, hprev]
    · rfl

/-- A task that is not the first one stands behind another. -/
theorem exists_before
    (h : WellFormed s ts) {t : Ptr} (ht : t ∈ ts) (hhead : t ≠ s.taskHead) :
    ∃ as p bs, ts = as ++ p :: t :: bs := by
  obtain ⟨as, bs, rfl⟩ := List.append_of_mem ht
  rcases List.eq_nil_or_concat' as with rfl | ⟨as, p, rfl⟩
  · exact absurd h.head.symm hhead
  · exact ⟨as, p, bs, by simp⟩

theorem erase_eq
    {as bs : List Ptr} {p t : Ptr} (h : WellFormed s (as ++ p :: t :: bs)) :
    (as ++ p :: t :: bs).erase t = as ++ p :: bs := by
  have hnodup := h.nodup
  rw [List.append_cons, List.nodup_append] at hnodup
  have ht : t ∉ as ++ [p] := fun hin => hnodup.2.2 t hin t List.mem_cons_self rfl
  rw [List.append_cons, List.erase_append_right _ ht, List.erase_cons_head, ← List.append_cons]

/-- A removal keeps the list well formed if and only if it removes the last
task. -/
theorem taskListRemove_iff
    (h : WellFormed s ts) {t : Ptr} (ht : t ∈ ts) (hhead : t ≠ s.taskHead) :
    ∃ s', s.taskListRemove t = .ok s' ∧ (WellFormed s' (ts.erase t) ↔ t = s.taskTail) := by
  obtain ⟨as, p, bs, rfl⟩ := h.exists_before ht hhead
  obtain ⟨s', hremove, hunlinked⟩ := h.taskListRemove
  refine ⟨s', hremove, ?_⟩
  rw [h.erase_eq]
  have hnodup := h.nodup
  rw [List.append_cons, List.nodup_append, List.nodup_cons] at hnodup
  obtain ⟨hfront, ⟨hbehind, -⟩, hapart⟩ := hnodup
  have hbefore : t ∉ as ++ [p] := fun hin => hapart t hin t List.mem_cons_self rfl
  have hpt : p ≠ t := fun heq => hbefore (by simp [heq])
  cases bs with
  | nil =>
      have htail : t = s.taskTail := by
        rw [h.tail, List.append_cons, List.getLastD_concat]
      have hnull : (0 : Ptr) ∉ as ++ [p] := by
        intro hin
        refine h.notNull ?_
        rw [List.append_cons]
        exact List.mem_append_left _ hin
      refine iff_of_true ⟨?_, hfront, hnull, ?_, ?_⟩ htail
      · refine h.both.unlinkLast hnull hbefore ?_ (fun q hq => ?_) fun q _ => hunlinked.prev q
        · rw [hunlinked.next, if_pos rfl]
        · have hqp : q ≠ p := by
            rintro rfl
            exact (List.nodup_append.mp hfront).2.2 q hq q List.mem_cons_self rfl
          rw [hunlinked.next, if_neg hqp]
      · rw [hunlinked.head, h.head]
        cases as <;> rfl
      · rw [hunlinked.tail, if_pos htail, List.getLastD_concat]
  | cons b bs =>
      refine iff_of_false (fun h' => ?_) fun heq => ?_
      · exact h.both.not_unlink hpt (hunlinked.prev b) h'.both
      · -- the last task is behind `t`
        have hlast : s.taskTail ∈ b :: bs := by
          rw [h.tail, show as ++ p :: t :: b :: bs = (as ++ [p, t]) ++ b :: bs by simp]
          rw [List.getLastD_eq_getLast?, List.getLast?_append_of_ne_nil _ (List.cons_ne_nil b bs)]
          rw [List.getLast?_eq_getLast_of_ne_nil (List.cons_ne_nil b bs)]
          exact List.getLast_mem _
        exact hbehind (heq ▸ hlast)

/-- Another task leaves no trace in the list when it is freed. -/
theorem setTask_none
    (h : WellFormed s ts) {t : Ptr} (ht : t ∉ ts) :
    WellFormed (s.setTask t none) ts := by
  have hold (q : Ptr) (hq : q ∈ ts) : (s.setTask t none).tasks q = s.tasks q := by
    rw [setTask_tasks, if_neg]
    rintro rfl
    exact ht hq
  have hnext (q : Ptr) (hq : q ∈ ts) : (s.setTask t none).nextOf q = s.nextOf q := by
    rw [nextOf, nextOf, hold q hq]
  have hprev (q : Ptr) (hq : q ∈ ts) : (s.setTask t none).prevOf q = s.prevOf q := by
    rw [prevOf, prevOf, hold q hq]
  refine ⟨⟨h.both.linked.congr hnext, fun q hq => ?_, fun x hx y hy => ?_⟩, h.nodup, h.notNull,
    h.head, h.tail⟩
  · rw [hprev q (List.mem_of_mem_head? hq), h.both.first q hq]
  · rw [hnext x hx, hprev y hy, h.both.links x hx y hy]

theorem taskFree_last
    (h : WellFormed s ts) {t : Ptr} (ht : t ∈ ts) (hhead : t ≠ s.taskHead)
    (htail : t = s.taskTail) :
    ∃ s', s.taskFree t = .ok s' ∧ WellFormed s' (ts.erase t) := by
  obtain ⟨s', hremove, hiff⟩ := h.taskListRemove_iff ht hhead
  refine ⟨s'.setTask t none, ?_, (hiff.mpr htail).setTask_none h.nodup.not_mem_erase⟩
  rw [taskFree, hremove, ok_bind]
  rfl

end WellFormed

/-- The scheduler, and the tasks that have been created and not freed. -/
structure TaskRun where
  sched : Sched
  live : List Ptr

inductive TaskOp where
  | new (task process pageDirectory : Ptr)
  | free (task : Ptr)

/-- A task is created in a block that no live task has, and is freed when it is
not the first one. -/
inductive TaskStep : TaskRun → TaskOp → TaskRun → Prop
  | new {r : TaskRun} {s : Sched} {task process pageDirectory : Ptr} (h0 : task ≠ 0)
      (hfresh : task ∉ r.live)
      (hcall : r.sched.taskNew task process pageDirectory = .ok (task, s)) :
      TaskStep r (.new task process pageDirectory) ⟨s, r.live ++ [task]⟩
  | free {r : TaskRun} {s : Sched} {task : Ptr} (hlive : task ∈ r.live)
      (hhead : task ≠ r.sched.taskHead) (hcall : r.sched.taskFree task = .ok s) :
      TaskStep r (.free task) ⟨s, r.live.erase task⟩

/-- It is the last task that is freed. -/
def FreesLast (r : TaskRun) : TaskOp → Prop
  | .new _ _ _ => True
  | .free task => task = r.sched.taskTail

theorem TaskRun.step
    {r r' : TaskRun} {op : TaskOp} (h : WellFormed r.sched r.live)
    (hstep : Guarded FreesLast TaskStep r op r') :
    WellFormed r'.sched r'.live := by
  obtain ⟨hlast, hstep⟩ := hstep
  cases hstep with
  | @new s task process pageDirectory h0 hfresh hcall =>
      obtain ⟨s', hcall', h'⟩ := h.taskNew hfresh h0 process pageDirectory
      cases hcall.symm.trans hcall'
      exact h'
  | free hlive hhead hcall =>
      obtain ⟨s', hcall', h'⟩ := h.taskFree_last hlive hhead hlast
      cases hcall.symm.trans hcall'
      exact h'

/-- A removal keeps the list well formed exactly when it removes the last task,
every append keeps it, and so does every run of appends and such removals. -/
theorem taskList_wellFormed_iff
    (s : Sched) (ts : List Ptr) (h : WellFormed s ts) :
    (∀ t ∈ ts, t ≠ s.taskHead →
      ∃ s', s.taskListRemove t = .ok s' ∧ (WellFormed s' (ts.erase t) ↔ t = s.taskTail)) ∧
    (∀ task process pageDirectory, task ∉ ts → task ≠ 0 →
      ∃ s', s.taskNew task process pageDirectory = .ok (task, s') ∧
        WellFormed s' (ts ++ [task])) ∧
    ∀ ops r, Run (Guarded FreesLast TaskStep) ⟨s, ts⟩ ops r → WellFormed r.sched r.live := by
  refine ⟨fun t ht hhead => h.taskListRemove_iff ht hhead,
    fun task process pageDirectory hfresh h0 => h.taskNew hfresh h0 process pageDirectory, ?_⟩
  intro ops r hrun
  exact Run.invariant (fun r : TaskRun => WellFormed r.sched r.live)
    (fun _ _ _ h hstep => TaskRun.step h hstep) hrun h

/-- Three tasks, created one after the other. -/
def threeTasks : Sched where
  tasks := fun q =>
    if q = 0x1000 then some ⟨0, 0, 0x2000, 0⟩
    else if q = 0x2000 then some ⟨0, 0, 0x3000, 0x1000⟩
    else if q = 0x3000 then some ⟨0, 0, 0, 0x2000⟩
    else none
  procs := fun _ => none
  taskHead := 0x1000
  taskTail := 0x3000
  currentTask := 0x1000
  processes := fun _ => 0
  currentProcess := 0

theorem threeTasks_wellFormed : WellFormed threeTasks [0x1000, 0x2000, 0x3000] := by
  refine ⟨⟨?_, ?_, ?_⟩, by decide, by decide, rfl, rfl⟩
  · exact List.isChain_cons_cons.mpr
      ⟨rfl, List.isChain_cons_cons.mpr ⟨rfl, List.isChain_pair.mpr rfl⟩⟩
  · intro x hx
    obtain rfl : 0x1000 = x := Option.some.inj hx
    rfl
  · simp [nextOf, prevOf, threeTasks]

/-- The third task is removed. -/
theorem taskList_wellFormed_iff_threeTasks :
    ∃ s', threeTasks.taskListRemove 0x3000 = .ok s' ∧ WellFormed s' [0x1000, 0x2000] := by
  obtain ⟨s', hremove, hiff⟩ := (taskList_wellFormed_iff threeTasks _ threeTasks_wellFormed).1
    0x3000 (by decide) (by decide)
  exact ⟨s', hremove, hiff.mpr rfl⟩

def AlwaysWellFormed : Prop :=
  ∀ s ts t, WellFormed s ts → t ∈ ts → t ≠ s.taskHead →
    ∃ s', s.taskListRemove t = .ok s' ∧ WellFormed s' (ts.erase t)

/-- When the second of three tasks is removed the third one still holds it. -/
theorem alwaysWellFormed_false : ¬ AlwaysWellFormed := by
  intro h
  obtain ⟨s', hremove, hwell⟩ :=
    h threeTasks _ 0x2000 threeTasks_wellFormed (by decide) (by decide)
  obtain ⟨s'', hremove', hiff⟩ :=
    threeTasks_wellFormed.taskListRemove_iff (show (0x2000 : Ptr) ∈ _ by decide) (by decide)
  cases hremove.symm.trans hremove'
  exact absurd (hiff.mp hwell) (by decide)

end Sched
end PeachOS
