import Mathlib.Data.List.GetD
import Mathlib.Data.List.Rotate
import PeachOS.Task.TaskList

/-!
# Round robin

`task_next` goes from the current task to the one created after it, and from
the last one back to the first.  As many calls as there are tasks come to each
of them once.
-/

namespace PeachOS
namespace Sched

open Lib

/-- A task for `task_new`, in the block that `kzalloc` returns for it. -/
structure NewTask where
  task : Ptr
  process : Ptr
  pageDirectory : Ptr

def createTasks (s : Sched) : List NewTask → Except Halt Sched
  | [] => .ok s
  | new :: news => do
      let (_, s) ← s.taskNew new.task new.process new.pageDirectory
      createTasks s news

/-- The tasks that the next `n` calls of `task_next` choose. -/
def nextTasks (s : Sched) : Nat → Except Halt (List Ptr × Sched)
  | 0 => .ok ([], s)
  | n + 1 => do
      let s ← s.taskNext
      let (chosen, s') ← nextTasks s n
      pure (s.currentTask :: chosen, s')

/-- The tasks are listed in the order of their creation. -/
theorem createTasks_spec
    {s : Sched} {ts : List Ptr} (h : ListInv s ts) {news : List NewTask}
    (hnodup : (ts ++ news.map NewTask.task).Nodup) (h0 : ∀ new ∈ news, new.task ≠ 0) :
    ∃ s', s.createTasks news = .ok s' ∧ ListInv s' (ts ++ news.map NewTask.task) := by
  induction news generalizing s ts with
  | nil => exact ⟨s, rfl, by simpa using h⟩
  | cons new news ih =>
      rw [List.map_cons, List.append_cons] at hnodup ⊢
      have hfresh : new.task ∉ ts := by
        intro hmem
        have hfront := (List.nodup_append.mp hnodup).1
        exact (List.nodup_append.mp hfront).2.2 _ hmem _ List.mem_cons_self rfl
      obtain ⟨s₁, hnew, h₁, -⟩ := taskNew_spec h (h.tasks_eq_none hfresh)
        (h0 new List.mem_cons_self) new.process new.pageDirectory
      obtain ⟨s', hnews, h'⟩ := ih h₁ hnodup fun n hn => h0 n (List.mem_cons_of_mem new hn)
      refine ⟨s', ?_, h'⟩
      rw [createTasks, hnew, ok_bind]
      exact hnews

/-- The task at a place of the list, counted round and round. -/
def taskAt (ts : List Ptr) (i : Nat) : Ptr := ts.getD (i % ts.length) 0

theorem taskAt_of_lt
    {ts : List Ptr} {i : Nat} (hi : i < ts.length) :
    taskAt ts i = ts[i] := by
  rw [taskAt, Nat.mod_eq_of_lt hi, List.getD_eq_getElem _ _ hi]

theorem taskAt_mem
    {ts : List Ptr} (hne : ts ≠ []) (i : Nat) :
    taskAt ts i ∈ ts := by
  have hi : i % ts.length < ts.length := Nat.mod_lt _ (List.length_pos_iff.mpr hne)
  rw [taskAt, List.getD_eq_getElem _ _ hi]
  exact List.getElem_mem hi

/-- Once round the list from a place on. -/
theorem map_taskAt
    (ts : List Ptr) (i : Nat) :
    (List.range ts.length).map (fun k => taskAt ts (i + k)) = ts.rotate i := by
  refine List.ext_getElem (by simp) fun k hk hk' => ?_
  have hpos : (k + i) % ts.length < ts.length := Nat.mod_lt _ (by simp at hk; omega)
  rw [List.getElem_map, List.getElem_range, List.getElem_rotate, taskAt, Nat.add_comm i k,
    List.getD_eq_getElem _ _ hpos]

namespace ListInv

variable {s : Sched} {ts : List Ptr}

/-- Every task holds the one behind it, and the last one nothing. -/
theorem nextOf_getElem
    (h : ListInv s ts) {i : Nat} (hi : i < ts.length) :
    s.nextOf ts[i] = some (if i + 1 < ts.length then taskAt ts (i + 1) else 0) := by
  have hlinked := h.linked
  rw [← List.take_append_drop i ts, List.drop_eq_getElem_cons hi] at hlinked
  rw [hlinked.next_of_append]
  split_ifs with hlt
  · rw [List.drop_eq_getElem_cons hlt, taskAt_of_lt hlt]
    rfl
  · rw [List.drop_of_length_le (Nat.le_of_not_lt hlt)]
    rfl

/-- The next task is the one behind the current one, round the list. -/
theorem taskNext_at
    (h : ListInv s ts) (hne : ts ≠ []) {i : Nat} (hcurrent : s.currentTask = taskAt ts i) :
    s.taskNext = .ok { s with currentTask := taskAt ts (i + 1) } := by
  have hpos : 0 < ts.length := List.length_pos_iff.mpr hne
  have hi : i % ts.length < ts.length := Nat.mod_lt _ hpos
  have hmem := taskAt_mem hne (i + 1)
  have hround : taskAt ts (i + 1) = taskAt ts (i % ts.length + 1) := by
    rw [taskAt, taskAt, Nat.mod_add_mod]
  rw [taskAt, List.getD_eq_getElem _ _ hi] at hcurrent
  obtain ⟨record, hrecord⟩ := h.exists_task (List.getElem_mem hi)
  have hnext := h.nextOf_getElem hi
  rw [nextOf, hrecord, Option.map_some, Option.some.injEq] at hnext
  have hget : s.taskGetNext = .ok (taskAt ts (i + 1)) := by
    rw [Sched.taskGetNext, hcurrent, task_eq_ok hrecord, ok_bind, hnext, hround]
    split_ifs with hlt h0 h0
    · exact absurd (h0 ▸ taskAt_mem hne _) h.notNull
    · rfl
    · -- behind the last task comes the first
      have hlast : i % ts.length + 1 = ts.length := by omega
      rw [h.head, hlast, taskAt, Nat.mod_self]
      cases ts <;> rfl
    · exact absurd rfl h0
  have h0 : taskAt ts (i + 1) ≠ 0 := fun h0 => h.notNull (h0 ▸ hmem)
  rw [Sched.taskNext, hget, ok_bind, if_neg h0, h.taskSwitch hmem]

/-- The calls walk round the list. -/
theorem nextTasks_at
    (h : ListInv s ts) (hne : ts ≠ []) {i : Nat} (hcurrent : s.currentTask = taskAt ts i)
    (n : Nat) :
    s.nextTasks n = .ok ((List.range n).map fun k => taskAt ts (i + 1 + k),
      { s with currentTask := taskAt ts (i + n) }) := by
  induction n generalizing s i with
  | zero => simp [nextTasks, ← hcurrent]
  | succ n ih =>
      have hrest := ih (h.switch (taskAt_mem hne (i + 1))) rfl
      rw [nextTasks, h.taskNext_at hne hcurrent, ok_bind, hrest, ok_bind, List.range_succ_eq_map,
        List.map_cons, List.map_map, show i + 1 + n = i + (n + 1) by omega]
      have hshift : (fun k => taskAt ts (i + 1 + k)) ∘ Nat.succ =
          fun k => taskAt ts (i + 1 + 1 + k) := by
        funext k
        rw [Function.comp_apply, show i + 1 + k.succ = i + 1 + 1 + k by omega]
      rw [hshift]
      rfl

end ListInv

/-- From any of the tasks that have been created, as many calls as there are tasks
choose each of them once, in the order of creation round to the one that they
started from. -/
theorem taskNext_fair
    (news : List NewTask) (hne : news ≠ []) (h0 : ∀ new ∈ news, new.task ≠ 0)
    (hnodup : (news.map NewTask.task).Nodup) :
    ∃ s, Sched.empty.createTasks news = .ok s ∧
      ∀ current i, (news.map NewTask.task)[i]? = some current →
        ∃ s', nextTasks { s with currentTask := current } news.length =
            .ok ((news.map NewTask.task).rotate (i + 1), s') ∧
          ((news.map NewTask.task).rotate (i + 1)).Perm (news.map NewTask.task) ∧
          ((news.map NewTask.task).rotate (i + 1)).Nodup ∧
          s'.currentTask = current := by
  obtain ⟨s, hcreate, h⟩ := createTasks_spec ListInv.empty hnodup h0
  rw [List.nil_append] at h
  refine ⟨s, hcreate, fun current i hcurrent => ?_⟩
  obtain ⟨hi, rfl⟩ := List.getElem?_eq_some_iff.mp hcurrent
  have hts : news.map NewTask.task ≠ [] := by simpa using hne
  have hat := (taskAt_of_lt hi).symm
  have hwalk := (h.switch (List.getElem_mem hi)).nextTasks_at hts hat news.length
  have hround : taskAt (news.map NewTask.task) (i + news.length) = (news.map NewTask.task)[i] := by
    rw [hat, taskAt, taskAt, List.length_map, Nat.add_mod_right]
  have hchosen := map_taskAt (news.map NewTask.task) (i + 1)
  rw [List.length_map] at hchosen
  rw [hchosen] at hwalk
  exact ⟨_, hwalk, List.rotate_perm _ _, List.nodup_rotate.mpr hnodup, hround⟩

/-- Three tasks, from the second one on. -/
theorem taskNext_fair_threeTasks :
    ∃ s s', Sched.empty.createTasks [⟨0x1000, 0, 0⟩, ⟨0x2000, 0, 0⟩, ⟨0x3000, 0, 0⟩] = .ok s ∧
      nextTasks { s with currentTask := 0x2000 } 3 = .ok ([0x3000, 0x1000, 0x2000], s') := by
  obtain ⟨s, hcreate, hfair⟩ := taskNext_fair
    [⟨0x1000, 0, 0⟩, ⟨0x2000, 0, 0⟩, ⟨0x3000, 0, 0⟩] (by simp) (by decide) (by decide)
  obtain ⟨s', hchosen, -⟩ := hfair 0x2000 1 rfl
  exact ⟨s, s', hcreate, hchosen⟩

end Sched
end PeachOS
