import PeachOS.Lib.Run
import PeachOS.Task.TaskCalls

/-!
# The scheduler runs live tasks only

A process in the table and its task lead to each other.  With the list of the
tasks this is an invariant of loads, exits and ticks, as long as no task is freed
whose removal the list does not survive: the head, and a task whose `prev`
pointer an earlier removal has left behind.
-/

namespace PeachOS
namespace Sched

open Lib

/-- Some process is in the table. -/
def AnyProcess (s : Sched) : Prop :=
  ∃ i, i < maxProcesses ∧ s.processes i ≠ 0

/-- The list pointers and the next task to run are live tasks. -/
structure RunsLive (s : Sched) : Prop where
  head : s.Live s.taskHead
  tail : s.Live s.taskTail
  current : s.Live s.currentTask
  next : ∃ next, s.taskGetNext = .ok next ∧ s.Live next

def SchedSafe (s : Sched) : Prop := s.AnyProcess → s.RunsLive

/-- The memory of a load holds no record that is in use, and an exit is one of
a task that runs. -/
def OpValid (s : Sched) : Op → Prop
  | .load mem _ | .loadStart mem _ => s.procs mem.process = none ∧ s.tasks mem.task = none
  | .exit => s.Live s.currentTask
  | .tick => True

def Step (s : Sched) (o : Op) (s' : Sched) : Prop :=
  s.OpValid o ∧ s.apply o = .ok s'

/-- A load that comes to `task_new`. -/
def ReachesTask (s : Sched) (mem : LoadMemory) (outcome : LoadOutcome) : Prop :=
  s.processGetFreeSlot ≠ none ∧ mem.process ≠ 0 ∧ outcome ≠ .noProgram

/-- Tasks are made with memory and, if the list is empty, not freed again. -/
def LoadOk (s : Sched) (mem : LoadMemory) (outcome : LoadOutcome) : Prop :=
  s.ReachesTask mem outcome → mem.task ≠ 0 ∧ (outcome = .notMapped → s.taskHead ≠ 0)

/-- The task that is freed is linked behind another one, or is the only one. -/
def ExitOk (s : Sched) : Prop :=
  s.FreesLinked s.currentTask ∨ ∀ t, s.Live t → t = s.currentTask

def StepOk (s : Sched) : Op → Prop
  | .load mem outcome | .loadStart mem outcome => s.LoadOk mem outcome
  | .exit => s.ExitOk
  | .tick => True

/-- Every reached state is safe. -/
def AlwaysSafe : Prop :=
  ∀ ops s, Run Step Sched.empty ops s → s.SchedSafe

/-- The processes in the table and the tasks lead to each other, and the current
process is one of them. -/
structure OwnerInv (s : Sched) : Prop where
  owner : ∀ t q, s.processOf t = some q → q ≠ 0 ∧ ∃ link, s.procs q = some link ∧
    link.task = t ∧ link.id < maxProcesses ∧ s.processes link.id = q
  slot : ∀ i, i < maxProcesses → s.processes i ≠ 0 → ∃ link,
    s.procs (s.processes i) = some link ∧ link.id = i ∧
    s.processOf link.task = some (s.processes i)
  current : s.AnyProcess →
    ∃ i, i < maxProcesses ∧ s.processes i = s.currentProcess ∧ s.currentProcess ≠ 0

theorem findSlot_eq_some
    {p : Nat → Bool} {i : Nat}
    (h : findSlot p = some i) :
    i < maxProcesses ∧ p i = true :=
  ⟨List.mem_range.mp (List.mem_of_find?_eq_some h), List.find?_some h⟩

/-- A load that comes to `task_new`. -/
theorem processLoadSwitch_eq
    {s : Sched} {mem : LoadMemory} {outcome : LoadOutcome} {slot : Nat}
    (hslot : s.processGetFreeSlot = some slot) (hp : mem.process ≠ 0)
    (houtcome : outcome ≠ .noProgram) :
    s.processLoadSwitch mem outcome =
      ((s.setProc mem.process (some ⟨slot, 0⟩)).taskNew mem.task mem.process mem.pageDirectory >>=
        fun (task, s) =>
          let s := s.setProc mem.process (some ⟨slot, task⟩)
          if outcome = .notMapped then do
            let s ← s.processFreeProcess mem.process
            pure (-einvarg, s)
          else
            pure (0,
              { s with
                processes := fun i => if i = slot then mem.process else s.processes i
                currentProcess := mem.process })) := by
  rw [processLoadSwitch, hslot]
  refine (if_neg hp).trans ?_
  rw [if_neg houtcome]

theorem setProc_none_of_fresh
    {s : Sched} {p : Ptr}
    (h : s.procs p = none) (link : Option ProcessLink) :
    (s.setProc p link).setProc p none = s := by
  have hprocs : ((s.setProc p link).setProc p none).procs = s.procs := by
    funext q
    rw [setProc_procs, setProc_procs]
    split_ifs with hq
    · rw [hq, h]
    · rfl
  calc (s.setProc p link).setProc p none
      = { s with procs := ((s.setProc p link).setProc p none).procs } := rfl
    _ = s := by rw [hprocs]

theorem processLoadSwitch_noProgram_eq
    {s : Sched} {mem : LoadMemory} {slot : Nat}
    (hslot : s.processGetFreeSlot = some slot) (hp : mem.process ≠ 0)
    (hfresh : s.procs mem.process = none) :
    s.processLoadSwitch mem .noProgram = .ok (-eio, s) := by
  have hfree : (s.setProc mem.process (some ⟨slot, 0⟩)).processFreeProcess mem.process = .ok s := by
    rw [processFreeProcess, proc_eq_ok (if_pos rfl), ok_bind]
    exact congrArg Except.ok (setProc_none_of_fresh hfresh _)
  rw [processLoadSwitch, hslot]
  exact (if_neg hp).trans (congrArg (· >>= _) hfree)

/-- Unlinking a process panics if the table is empty after it. -/
theorem processUnlink_cases
    {s : Sched} (hcurrent : s.AnyProcess →
      ∃ i, i < maxProcesses ∧ s.processes i = s.currentProcess ∧ s.currentProcess ≠ 0)
    {q : Ptr} {link : ProcessLink} (hlink : s.procs q = some link)
    (hid : link.id < maxProcesses) (hat : s.processes link.id = q) (hq : q ≠ 0) :
    (s.processUnlink q = .error .panic ∧
      ∀ i, i < maxProcesses → i ≠ link.id → s.processes i = 0) ∨
    ∃ processes current,
      s.processUnlink q = .ok { s with processes := processes, currentProcess := current } ∧
      (∀ i, processes i = if i = link.id then 0 else s.processes i) ∧
      ∃ i, i < maxProcesses ∧ processes i = current ∧ current ≠ 0 := by
  let processes : Nat → Ptr := fun i => if i = link.id then 0 else s.processes i
  let s₁ : Sched := { s with processes := processes }
  have heq : s.processUnlink q =
      if s.currentProcess = q then s₁.processSwitchToAny else .ok s₁ := by
    rw [Sched.processUnlink, proc_eq_ok hlink, ok_bind]
    rfl
  rw [heq]
  rcases Decidable.em (s.currentProcess = q) with hown | hown
  · rw [if_pos hown, processSwitchToAny]
    cases hany : findSlot fun i => s₁.processes i ≠ 0 with
    | none =>
        refine Or.inl ⟨rfl, fun i hi hne => ?_⟩
        have hzero := List.find?_eq_none.mp hany i (List.mem_range.mpr hi)
        simpa [s₁, processes, hne] using hzero
    | some i =>
        obtain ⟨hi, hne⟩ := findSlot_eq_some hany
        exact Or.inr ⟨processes, processes i, rfl, fun _ => rfl, i, hi, rfl,
          of_decide_eq_true hne⟩
  · rw [if_neg hown]
    obtain ⟨i, hi, hicurrent, h0⟩ := hcurrent ⟨link.id, hid, hat ▸ hq⟩
    refine Or.inr ⟨processes, s.currentProcess, rfl, fun _ => rfl, i, hi, ?_, h0⟩
    have hne : i ≠ link.id := by
      rintro rfl
      exact hown (hicurrent.symm.trans hat)
    exact (if_neg hne).trans hicurrent

namespace OwnerInv

variable {s s' : Sched}

/-- The task of a process in the table is live. -/
theorem exists_live
    (h : OwnerInv s) (hany : s.AnyProcess) :
    ∃ t, s.Live t := by
  obtain ⟨i, hi, hne⟩ := hany
  obtain ⟨link, -, -, htask⟩ := h.slot i hi hne
  exact ⟨link.task, (live_iff_exists_processOf s _).mpr ⟨_, htask⟩⟩

theorem congr
    (h : OwnerInv s) (hprocs : s'.procs = s.procs)
    (hprocessOf : s'.processOf = s.processOf) (hprocesses : s'.processes = s.processes)
    (hcurrent : s'.currentProcess = s.currentProcess) :
    OwnerInv s' := by
  refine ⟨?_, ?_, ?_⟩
  · rw [hprocs, hprocessOf, hprocesses]
    exact h.owner
  · rw [hprocs, hprocessOf, hprocesses]
    exact h.slot
  · rw [AnyProcess, hprocesses, hcurrent]
    exact h.current

/-- A new process and its task enter the table at a free slot. -/
theorem insert
    (h : OwnerInv s) {slot : Nat} (hslot : slot < maxProcesses) (hfree : s.processes slot = 0)
    {q t : Ptr} (hq : q ≠ 0) (hfresh : s.procs q = none) (ht : s.processOf t = none)
    (hprocs : ∀ p, s'.procs p = if p = q then some ⟨slot, t⟩ else s.procs p)
    (hprocessOf : ∀ u, s'.processOf u = if u = t then some q else s.processOf u)
    (hprocesses : ∀ i, s'.processes i = if i = slot then q else s.processes i)
    (hcurrent : s'.currentProcess = q) :
    OwnerInv s' := by
  refine ⟨?_, ?_, ?_⟩
  · intro u p hup
    rw [hprocessOf] at hup
    rcases Decidable.em (u = t) with rfl | hu
    · rw [if_pos rfl] at hup
      cases hup
      refine ⟨hq, ⟨slot, u⟩, ?_, rfl, hslot, ?_⟩
      · rw [hprocs, if_pos rfl]
      · rw [hprocesses, if_pos rfl]
    · rw [if_neg hu] at hup
      obtain ⟨hp, link, hlink, htask, hid, hat⟩ := h.owner u p hup
      refine ⟨hp, link, ?_, htask, hid, ?_⟩
      · rw [hprocs, if_neg]
        · exact hlink
        · rintro rfl
          rw [hfresh] at hlink
          cases hlink
      · rw [hprocesses, if_neg]
        · exact hat
        · intro heq
          rw [heq, hfree] at hat
          exact hp hat.symm
  · intro i hi hne
    rcases Decidable.em (i = slot) with rfl | his
    · rw [hprocesses, if_pos rfl]
      refine ⟨⟨i, t⟩, ?_, rfl, ?_⟩
      · rw [hprocs, if_pos rfl]
      · rw [hprocessOf, if_pos rfl]
    · rw [hprocesses, if_neg his] at hne ⊢
      obtain ⟨link, hlink, hid, htask⟩ := h.slot i hi hne
      refine ⟨link, ?_, hid, ?_⟩
      · rw [hprocs, if_neg]
        · exact hlink
        · intro heq
          rw [heq, hfresh] at hlink
          cases hlink
      · rw [hprocessOf, if_neg]
        · exact htask
        · intro heq
          rw [heq, ht] at htask
          cases htask
  · intro _
    refine ⟨slot, hslot, ?_, ?_⟩
    · rw [hprocesses, if_pos rfl, hcurrent]
    · rw [hcurrent]
      exact hq

/-- A process leaves the table with its task. -/
theorem erase
    (h : OwnerInv s) {q : Ptr} {link : ProcessLink} (hlink : s.procs q = some link)
    (hat : s.processes link.id = q) (htask : s.processOf link.task = some q)
    (hprocs : ∀ p, s'.procs p = if p = q then none else s.procs p)
    (hgone : s'.processOf link.task = none)
    (hprocessOf : ∀ u, u ≠ link.task → s'.processOf u = s.processOf u)
    (hprocesses : ∀ i, s'.processes i = if i = link.id then 0 else s.processes i)
    (hcurrent : ∃ i, i < maxProcesses ∧ s'.processes i = s'.currentProcess ∧
      s'.currentProcess ≠ 0) :
    OwnerInv s' := by
  refine ⟨?_, ?_, fun _ => hcurrent⟩
  · intro u p hup
    have hu : u ≠ link.task := by
      rintro rfl
      rw [hgone] at hup
      cases hup
    rw [hprocessOf u hu] at hup
    obtain ⟨hp, other, hother, htask, hid, hat'⟩ := h.owner u p hup
    have hpq : p ≠ q := by
      rintro rfl
      rw [hlink] at hother
      cases hother
      exact hu htask.symm
    refine ⟨hp, other, ?_, htask, hid, ?_⟩
    · rw [hprocs, if_neg hpq]
      exact hother
    · rw [hprocesses, if_neg]
      · exact hat'
      · intro heq
        exact hpq (hat'.symm.trans (heq ▸ hat))
  · intro i hi hne
    have hid : i ≠ link.id := by
      rintro rfl
      exact hne (by rw [hprocesses, if_pos rfl])
    rw [hprocesses, if_neg hid] at hne ⊢
    obtain ⟨other, hother, hid', htask'⟩ := h.slot i hi hne
    have hpq : s.processes i ≠ q := by
      intro heq
      rw [heq, hlink] at hother
      cases hother
      exact hid hid'.symm
    refine ⟨other, ?_, hid', ?_⟩
    · rw [hprocs, if_neg hpq]
      exact hother
    · rw [hprocessOf]
      · exact htask'
      · intro heq
        rw [heq, htask] at htask'
        exact hpq (Option.some.inj htask').symm

/-- A process that has been unlinked is freed with its task. -/
theorem afterFree
    (h : OwnerInv s) {q : Ptr} {link : ProcessLink} (hlink : s.procs q = some link)
    (hat : s.processes link.id = q) (htask : s.processOf link.task = some q)
    {processes : Nat → Ptr} {current : Ptr}
    (hprocesses : ∀ i, processes i = if i = link.id then 0 else s.processes i)
    (hcurrent : ∃ i, i < maxProcesses ∧ processes i = current ∧ current ≠ 0)
    (hgone : Removed { s with processes := processes, currentProcess := current } s' link.task) :
    OwnerInv (s'.setProc q none) := by
  refine h.erase hlink hat htask ?_ ?_ ?_ ?_ ?_
  · intro p
    rw [setProc_procs, hgone.procs]
  · exact congrArg (Option.map Task.process) hgone.gone
  · exact hgone.others
  · intro i
    exact (congrFun hgone.processes i).trans (hprocesses i)
  · change ∃ i, i < maxProcesses ∧ s'.processes i = s'.currentProcess ∧ s'.currentProcess ≠ 0
    rw [hgone.processes, hgone.currentProcess]
    exact hcurrent

end OwnerInv

/-- What holds between the operations: `ts` are the tasks in list order. -/
structure SchedInv (s : Sched) : Prop where
  list : ∃ ts, ListInv s ts
  owned : OwnerInv s

/-- A call that keeps the invariant, if it returns. -/
def Keeps (x : Except Halt Sched) : Prop :=
  x = .error .panic ∨ ∃ s', x = .ok s' ∧ SchedInv s'

theorem OwnerInv.switch
    {s : Sched} (h : OwnerInv s) (t : Ptr) :
    OwnerInv { s with currentTask := t } :=
  h.congr rfl rfl rfl rfl

namespace SchedInv

variable {s : Sched}

theorem empty : SchedInv Sched.empty where
  list := ⟨[], ListInv.empty⟩
  owned := by
    refine ⟨?_, ?_, ?_⟩
    · intro t q h
      cases h
    · intro i _ h
      exact absurd rfl h
    · rintro ⟨i, _, h⟩
      exact absurd rfl h

theorem safe (h : SchedInv s) : s.SchedSafe := by
  intro hany
  obtain ⟨ts, hts⟩ := h.list
  obtain ⟨t, ht⟩ := h.owned.exists_live hany
  have hne : ts ≠ [] := List.ne_nil_of_mem ((hts.mem t).mpr ht)
  refine ⟨?_, ?_, ?_, ?_⟩
  · rw [← hts.mem, hts.head]
    cases ts with
    | nil => exact absurd rfl hne
    | cons t ts => exact List.mem_cons_self
  · rw [← hts.mem, hts.tail]
    rcases List.eq_nil_or_concat' ts with rfl | ⟨ts, last, rfl⟩
    · exact absurd rfl hne
    · rw [List.getLastD_concat]
      exact List.mem_append_right _ List.mem_cons_self
  · exact (hts.mem _).mp (hts.current.resolve_right fun hc => hne hc.1)
  · obtain ⟨next, hnext, hmem⟩ := hts.taskGetNext hne
    exact ⟨next, hnext, (hts.mem next).mp hmem⟩

theorem taskNext
    (h : SchedInv s) (hlive : ∃ t, s.Live t) :
    ∃ s', s.taskNext = .ok s' ∧ SchedInv s' := by
  obtain ⟨ts, hts⟩ := h.list
  obtain ⟨t, ht⟩ := hlive
  obtain ⟨next, hnext, hmem⟩ := hts.taskNext (List.ne_nil_of_mem ((hts.mem t).mpr ht))
  exact ⟨_, hnext, ⟨ts, hts.switch hmem⟩, h.owned.switch next⟩

theorem idtClock (h : SchedInv s) : Keeps s.idtClock := by
  rw [Sched.idtClock]
  rcases Decidable.em (s.currentTask = 0) with h0 | h0
  · exact Or.inl (if_pos h0)
  · rw [if_neg h0]
    obtain ⟨ts, hts⟩ := h.list
    have hmem := hts.current.resolve_right fun hc => h0 hc.2
    exact Or.inr (h.taskNext ⟨_, (hts.mem _).mp hmem⟩)

theorem processLoadSwitch_noProgram
    (h : SchedInv s) {mem : LoadMemory} {slot : Nat}
    (hslot : s.processGetFreeSlot = some slot) (hp : mem.process ≠ 0)
    (hprocs : s.procs mem.process = none) :
    ∃ s', s.processLoadSwitch mem .noProgram = .ok (-eio, s') ∧ SchedInv s' := by
  let s₁ := s.setProc mem.process (some ⟨slot, 0⟩)
  have hfree : s₁.processFreeProcess mem.process = .ok (s₁.setProc mem.process none) := by
    rw [processFreeProcess, proc_eq_ok (if_pos rfl), ok_bind]
    rfl
  refine ⟨s₁.setProc mem.process none, ?_, ?_, ?_⟩
  · rw [Sched.processLoadSwitch, hslot]
    exact (if_neg hp).trans (congrArg (· >>= _) hfree)
  · obtain ⟨ts, hts⟩ := h.list
    exact ⟨ts, hts.congr rfl rfl rfl rfl⟩
  · refine h.owned.congr (funext fun q => ?_) rfl rfl rfl
    simp only [s₁, setProc_procs]
    split_ifs with hq
    · rw [hq, hprocs]
    · rfl

/-- The call of `task_new` in a load. -/
theorem taskNew_load
    (h : SchedInv s) {mem : LoadMemory} (slot : Nat)
    (htasks : s.tasks mem.task = none) (h0 : mem.task ≠ 0) :
    ∃ ts s₂, (s.setProc mem.process (some ⟨slot, 0⟩)).taskNew mem.task mem.process
        mem.pageDirectory = .ok (mem.task, s₂) ∧
      ListInv (s₂.setProc mem.process (some ⟨slot, mem.task⟩)) (ts ++ [mem.task]) ∧
      Appended (s.setProc mem.process (some ⟨slot, 0⟩)) s₂ mem.task mem.process
        mem.pageDirectory := by
  obtain ⟨ts, hts⟩ := h.list
  have hts₁ : ListInv (s.setProc mem.process (some ⟨slot, 0⟩)) ts := hts.congr rfl rfl rfl rfl
  obtain ⟨s₂, heq, hts₂, happ⟩ := taskNew_spec hts₁ htasks h0 mem.process mem.pageDirectory
  exact ⟨ts, s₂, heq, hts₂.congr rfl rfl rfl rfl, happ⟩

theorem processLoadSwitch_notMapped
    (h : SchedInv s) {mem : LoadMemory} {slot : Nat}
    (hslot : s.processGetFreeSlot = some slot) (hp : mem.process ≠ 0)
    (hprocs : s.procs mem.process = none) (htasks : s.tasks mem.task = none)
    (h0 : mem.task ≠ 0) (hhead : s.taskHead ≠ 0) :
    ∃ s', s.processLoadSwitch mem .notMapped = .ok (-einvarg, s') ∧ SchedInv s' := by
  obtain ⟨ts, s₂, heq, hts, happ⟩ := h.taskNew_load slot htasks h0
  let s₃ := s₂.setProc mem.process (some ⟨slot, mem.task⟩)
  have htail := happ.tail hhead
  obtain ⟨prev, hprev, hnext⟩ := Option.map_eq_some_iff.mp htail
  have hlinked : s₃.FreesLinked mem.task := ⟨_, prev, happ.new, hprev, hnext⟩
  obtain ⟨s₄, hfree, hts₄, hgone⟩ := taskFree_spec hts hlinked
  have hfreeProcess : s₃.processFreeProcess mem.process =
      .ok (s₄.setProc mem.process none) := by
    rw [processFreeProcess, proc_eq_ok (if_pos rfl), ok_bind, if_pos h0, hfree]
    rfl
  refine ⟨s₄.setProc mem.process none, ?_, ⟨_, hts₄.congr rfl rfl rfl rfl⟩, ?_⟩
  · rw [Sched.processLoadSwitch, hslot]
    refine (if_neg hp).trans ?_
    rw [if_neg (by decide), heq, ok_bind]
    refine (if_pos rfl).trans ?_
    exact congrArg (fun x => x >>= fun s => pure (-einvarg, s)) hfreeProcess
  · refine h.owned.congr (funext fun q => ?_) (funext fun u => ?_) ?_ ?_
    · rw [setProc_procs, hgone.procs, setProc_procs, happ.procs, setProc_procs]
      split_ifs with hq
      · rw [hq, hprocs]
      · rfl
    · rcases Decidable.em (u = mem.task) with rfl | hu
      · rw [processOf, processOf, htasks]
        exact congrArg (Option.map Task.process) hgone.gone
      · exact (hgone.others u hu).trans (happ.others u hu)
    · exact hgone.processes.trans happ.processes
    · exact hgone.currentProcess.trans happ.currentProcess

theorem processLoadSwitch_mapped
    (h : SchedInv s) {mem : LoadMemory} {slot : Nat}
    (hslot : s.processGetFreeSlot = some slot) (hp : mem.process ≠ 0)
    (hprocs : s.procs mem.process = none) (htasks : s.tasks mem.task = none)
    (h0 : mem.task ≠ 0) :
    ∃ s', s.processLoadSwitch mem .mapped = .ok (0, s') ∧ SchedInv s' ∧
      ∃ link, s'.procs mem.process = some link ∧ s'.Live link.task := by
  obtain ⟨ts, s₂, heq, hts, happ⟩ := h.taskNew_load slot htasks h0
  obtain ⟨hlt, hfree⟩ := findSlot_eq_some hslot
  let s₃ := s₂.setProc mem.process (some ⟨slot, mem.task⟩)
  refine ⟨{ s₃ with
      processes := fun i => if i = slot then mem.process else s₃.processes i
      currentProcess := mem.process },
    ?_, ⟨⟨_, hts.congr rfl rfl rfl rfl⟩, ?_⟩, ⟨slot, mem.task⟩, if_pos rfl, ?_⟩
  · rw [Sched.processLoadSwitch, hslot]
    refine (if_neg hp).trans ?_
    rw [if_neg (by decide), heq]
    rfl
  · refine h.owned.insert (t := mem.task) hlt (of_decide_eq_true hfree) hp hprocs
      ?_ ?_ ?_ ?_ rfl
    · rw [processOf, htasks]
      rfl
    · intro q
      change (if q = mem.process then some ⟨slot, mem.task⟩ else s₂.procs q) = _
      rw [happ.procs, setProc_procs]
      split_ifs <;> rfl
    · intro u
      rcases Decidable.em (u = mem.task) with rfl | hu
      · rw [if_pos rfl]
        exact congrArg (Option.map Task.process) happ.new
      · rw [if_neg hu]
        exact happ.others u hu
    · intro i
      exact congrArg (fun f => if i = slot then mem.process else f i) happ.processes
  · exact congrArg Option.isSome happ.new

/-- A load leaves the invariant, and after a success the task of the process. -/
theorem processLoadSwitch
    (h : SchedInv s) {mem : LoadMemory} {outcome : LoadOutcome}
    (hprocs : s.procs mem.process = none) (htasks : s.tasks mem.task = none)
    (hok : s.LoadOk mem outcome) :
    ∃ res s', s.processLoadSwitch mem outcome = .ok (res, s') ∧ SchedInv s' ∧
      (res < 0 ∨ ∃ link, s'.procs mem.process = some link ∧ s'.Live link.task) := by
  cases hslot : s.processGetFreeSlot with
  | none =>
      refine ⟨_, s, ?_, h, Or.inl (by decide : -eistkn < 0)⟩
      rw [Sched.processLoadSwitch, hslot]
  | some slot =>
      have hslot' : s.processGetFreeSlot ≠ none := by rw [hslot]; exact Option.some_ne_none slot
      rcases Decidable.em (mem.process = 0) with hp | hp
      · refine ⟨_, s, ?_, h, Or.inl (by decide : -enomem < 0)⟩
        rw [Sched.processLoadSwitch, hslot]
        exact if_pos hp
      · cases outcome with
        | noProgram =>
            obtain ⟨s', heq, hinv⟩ := h.processLoadSwitch_noProgram hslot hp hprocs
            exact ⟨_, s', heq, hinv, Or.inl (by decide)⟩
        | notMapped =>
            obtain ⟨h0, hhead⟩ := hok ⟨hslot', hp, by decide⟩
            obtain ⟨s', heq, hinv⟩ :=
              h.processLoadSwitch_notMapped hslot hp hprocs htasks h0 (hhead rfl)
            exact ⟨_, s', heq, hinv, Or.inl (by decide)⟩
        | mapped =>
            obtain ⟨h0, -⟩ := hok ⟨hslot', hp, by decide⟩
            obtain ⟨s', heq, hinv, hlink⟩ :=
              h.processLoadSwitch_mapped hslot hp hprocs htasks h0
            exact ⟨_, s', heq, hinv, Or.inr hlink⟩

/-- A process leaves with a task that is linked behind another one. -/
theorem processFreeProcess
    (h : SchedInv s) {q : Ptr} {link : ProcessLink} (hlink : s.procs q = some link)
    (hat : s.processes link.id = q) (htask : s.processOf link.task = some q)
    (hlinked : s.FreesLinked link.task) {processes : Nat → Ptr} {current : Ptr}
    (hprocesses : ∀ i, processes i = if i = link.id then 0 else s.processes i)
    (hcurrent : ∃ i, i < maxProcesses ∧ processes i = current ∧ current ≠ 0) :
    ∃ s', Sched.processFreeProcess
        { s with processes := processes, currentProcess := current } q = .ok s' ∧
      SchedInv s' ∧ ∃ t, s'.Live t := by
  let s₁ : Sched := { s with processes := processes, currentProcess := current }
  obtain ⟨ts, hts⟩ := h.list
  have hts₁ : ListInv s₁ ts := hts.congr rfl rfl rfl rfl
  obtain ⟨s₂, hfree, hts₂, hgone⟩ := @taskFree_spec _ _ hts₁ link.task hlinked
  have h0 : link.task ≠ 0 := by
    intro h0
    obtain ⟨record, -, hrecord, -⟩ := hlinked
    exact hts.notNull ((hts.mem 0).mpr (h0 ▸ congrArg Option.isSome hrecord))
  have hinv : SchedInv (s₂.setProc q none) :=
    ⟨⟨_, hts₂.congr rfl rfl rfl rfl⟩,
      h.owned.afterFree hlink hat htask hprocesses hcurrent hgone⟩
  refine ⟨s₂.setProc q none, ?_, hinv, hinv.owned.exists_live ?_⟩
  · rw [Sched.processFreeProcess, proc_eq_ok (s := s₁) hlink, ok_bind, if_pos h0, hfree]
    rfl
  · obtain ⟨i, hi, heq, hne⟩ := hcurrent
    refine ⟨i, hi, fun h0 => hne ?_⟩
    rw [← heq, ← h0]
    exact congrFun hgone.processes.symm i

theorem isr80hCommand9Exit
    (h : SchedInv s) (hlive : s.Live s.currentTask) (hok : s.ExitOk) :
    Keeps s.isr80hCommand9Exit := by
  obtain ⟨q, hprocess⟩ := (live_iff_exists_processOf s _).mp hlive
  obtain ⟨record, hrecord, hq⟩ := Option.map_eq_some_iff.mp hprocess
  obtain ⟨h0, link, hlink, htask, hid, hat⟩ := h.owned.owner _ q hprocess
  have hexit : s.isr80hCommand9Exit = (s.processTerminate q >>= Sched.taskNext) := by
    rw [Sched.isr80hCommand9Exit, task_eq_ok hrecord, ok_bind, hq]
  rw [hexit, processTerminate]
  rcases processUnlink_cases h.owned.current hlink hid hat h0 with
    ⟨hpanic, -⟩ | ⟨processes, current, heq, hprocesses, hcurrent⟩
  · rw [hpanic]
    exact Or.inl rfl
  · rw [heq, ok_bind]
    rcases hok with hlinked | honly
    · obtain ⟨s₁, hfree, hinv, hlive₁⟩ := h.processFreeProcess hlink hat (htask ▸ hprocess)
        (htask ▸ hlinked) hprocesses hcurrent
      rw [hfree, ok_bind]
      exact Or.inr (hinv.taskNext hlive₁)
    · -- the only task: what is left in the table would be a second process
      obtain ⟨i, hi, hicurrent, hne⟩ := hcurrent
      have hslot : i ≠ link.id := by
        rintro rfl
        exact hne (by rw [← hicurrent, hprocesses, if_pos rfl])
      rw [hprocesses, if_neg hslot] at hicurrent
      obtain ⟨other, hother, hid', htask'⟩ := h.owned.slot i hi (hicurrent ▸ hne)
      have hsame := honly other.task ((live_iff_exists_processOf s _).mpr ⟨_, htask'⟩)
      rw [hsame, hprocess] at htask'
      rw [← Option.some.inj htask', hlink] at hother
      exact absurd (Option.some.inj hother ▸ hid').symm hslot

theorem apply
    (h : SchedInv s) {o : Op} (hvalid : s.OpValid o) (hok : s.StepOk o) :
    Keeps (s.apply o) := by
  cases o with
  | load mem outcome =>
      obtain ⟨res, s', heq, hinv, -⟩ := h.processLoadSwitch hvalid.1 hvalid.2 hok
      refine Or.inr ⟨s', ?_, hinv⟩
      rw [Sched.apply, heq]
      rfl
  | loadStart mem outcome =>
      obtain ⟨res, s', heq, hinv, hres⟩ := h.processLoadSwitch hvalid.1 hvalid.2 hok
      rw [Sched.apply, heq, ok_bind]
      rcases Decidable.em (res < 0) with hneg | hneg
      · exact Or.inr ⟨s', if_pos hneg, hinv⟩
      · obtain ⟨link, hlink, hlive⟩ := hres.resolve_left hneg
        obtain ⟨ts, hts⟩ := hinv.list
        have hmem : link.task ∈ ts := (hts.mem _).mpr hlive
        refine Or.inr ⟨{ s' with currentTask := link.task }, (if_neg hneg).trans ?_,
          ⟨ts, hts.switch hmem⟩, hinv.owned.switch _⟩
        rw [proc_eq_ok hlink, ok_bind, hts.taskSwitch hmem]
  | exit => exact h.isr80hCommand9Exit hvalid hok
  | tick => exact h.idtClock

theorem step
    {o : Op} {s' : Sched} (h : SchedInv s) (hstep : Guarded StepOk Step s o s') :
    SchedInv s' := by
  obtain ⟨hok, hvalid, heq⟩ := hstep
  rcases h.apply hvalid hok with hpanic | ⟨s'', heq', hinv⟩
  · rw [heq] at hpanic
    cases hpanic
  · rw [heq] at heq'
    cases heq'
    exact hinv

end SchedInv

/-- While no task is freed that the list does not survive, the scheduler runs
live tasks, and no operation goes wrong other than by a panic. -/
theorem schedRun_safe
    {ops : List Op} {s : Sched}
    (hrun : Run (Guarded StepOk Step) Sched.empty ops s) :
    s.SchedSafe ∧ ∀ o, s.OpValid o → s.StepOk o →
      s.apply o = .error .panic ∨ ∃ s', s.apply o = .ok s' ∧ s'.SchedSafe := by
  have hinv : SchedInv s :=
    hrun.invariant SchedInv (fun _ _ _ h hstep => h.step hstep) SchedInv.empty
  refine ⟨hinv.safe, fun o hvalid hok => ?_⟩
  rcases hinv.apply hvalid hok with hpanic | ⟨s', heq, hinv'⟩
  · exact Or.inl hpanic
  · exact Or.inr ⟨s', heq, hinv'.safe⟩

/-- The state after an operation that returns. -/
def resultOf (s : Sched) (o : Op) : Sched :=
  match s.apply o with
  | .ok s' => s'
  | .error _ => s

def finalState (ops : List Op) : Sched :=
  ops.foldl resultOf Sched.empty

theorem step_resultOf
    {s : Sched} {o : Op}
    (hvalid : s.OpValid o) (hok : (s.apply o).isOk = true) :
    Step s o (s.resultOf o) := by
  refine ⟨hvalid, ?_⟩
  rw [resultOf]
  cases heq : s.apply o with
  | ok s' => rfl
  | error e => rw [heq] at hok; cases hok

def memA : LoadMemory := ⟨0x1010000, 0x1020000, 0x1030000⟩

def memB : LoadMemory := ⟨0x1040000, 0x1050000, 0x1060000⟩

def memC : LoadMemory := ⟨0x1070000, 0x1080000, 0x1090000⟩

/-- Two processes, of which the second leaves. -/
def secondLeaves : List Op :=
  [.load memA .mapped, .load memB .mapped, .tick, .exit]

/-- Three processes, of which the first leaves. -/
def firstLeaves : List Op :=
  [.load memA .mapped, .load memB .mapped, .load memC .mapped, .exit]

theorem schedRun_safe_secondLeaves :
    (finalState secondLeaves).SchedSafe := by
  have hload (s : Sched) (mem : LoadMemory) (h0 : mem.task ≠ 0) :
      s.StepOk (.load mem .mapped) :=
    fun _ => ⟨h0, fun h => by cases h⟩
  refine (@schedRun_safe secondLeaves _ ?_).1
  refine .cons ⟨hload _ _ (by decide), step_resultOf ⟨rfl, rfl⟩ rfl⟩ ?_
  refine .cons ⟨hload _ _ (by decide), step_resultOf ⟨rfl, rfl⟩ rfl⟩ ?_
  refine .cons ⟨trivial, step_resultOf trivial rfl⟩ ?_
  refine .cons ⟨Or.inl ⟨_, _, rfl, rfl, rfl⟩, step_resultOf rfl rfl⟩ ?_
  exact .nil _

theorem alwaysSafe_false : ¬ AlwaysSafe := by
  intro h
  have hrun : Run Step Sched.empty firstLeaves (finalState firstLeaves) := by
    refine .cons (step_resultOf ⟨rfl, rfl⟩ rfl) ?_
    refine .cons (step_resultOf ⟨rfl, rfl⟩ rfl) ?_
    refine .cons (step_resultOf ⟨rfl, rfl⟩ rfl) ?_
    refine .cons (step_resultOf rfl rfl) ?_
    exact .nil _
  have hlive := (h _ _ hrun ⟨1, by decide, by decide⟩).head
  cases hlive

end Sched
end PeachOS
