import PeachOS.Task.TaskHeapSched

/-!
# The process table

Loads and terminations keep the table, the ids and the current process
consistent, as long as no `next` is stored in a page directory.  A removal leaves
pointers to the freed task behind, and its block may become a directory, whose
pages then lead to the task of another process.
-/

namespace PeachOS

open Lib

inductive TableOp where
  | load (mem : LoadBlocks) (outcome : Sched.LoadOutcome)
  | terminate (process : Ptr)

/-- The table, the processes and their tasks agree. -/
structure Sched.TableSafe (s : Sched) : Prop where
  entry : ∀ i, i < maxProcesses → s.processes i ≠ 0 →
    ∃ link, s.procs (s.processes i) = some link ∧ link.id = i
  task : ∀ p link, s.procs p = some link → s.processOf link.task = some p
  own : ∀ p q link link', s.procs p = some link → s.procs q = some link' →
    link.task = link'.task → p = q
  current : (s.currentProcess = 0 ∧ ¬ s.AnyProcess) ∨
    ∃ i, i < maxProcesses ∧ s.processes i = s.currentProcess ∧ s.currentProcess ≠ 0

def Sched.tableApply (s : Sched) : TableOp → Except Halt Sched
  | .load mem outcome => do
      let (_, s) ← s.processLoadSwitch mem.toMemory outcome
      pure s
  | .terminate process => s.processTerminate process

namespace TaskHeap

def tableApply (h : TaskHeap) : TableOp → Except Halt TaskHeap
  | .load mem outcome => do
      let (_, h) ← h.processLoadSwitch mem outcome
      pure h
  | .terminate process => h.processTerminate process

/-- Allocations succeed with blocks that are not in use, and a process that is
terminated has not been freed. -/
def TableOpValid (h : TaskHeap) : TableOp → Prop
  | .load mem _ => h.blocks mem.process = none ∧ h.Fresh mem
  | .terminate process => ∃ link, h.blocks process = some (.process link)

def TableStep (h : TaskHeap) (o : TableOp) (h' : TaskHeap) : Prop :=
  h.TableOpValid o ∧ h.tableApply o = .ok h'

/-- A load leaves every occupied slot as it is. -/
def KeepsSlots (h : TaskHeap) (o : TableOp) (h' : TaskHeap) : Prop :=
  ∀ mem outcome, o = .load mem outcome → ∀ i, h.processes i ≠ 0 → h'.processes i = h.processes i

/-- The call panics, or returns and the table is as it should be. -/
def Tabled (h : TaskHeap) (o : TableOp) : Prop :=
  h.tableApply o = .error .panic ∨
    ∃ h', h.tableApply o = .ok h' ∧ h'.toSched.TableSafe ∧ h.KeepsSlots o h'

def AlwaysTabled : Prop :=
  ∀ ops h, Run TableStep TaskHeap.empty ops h →
    h.toSched.TableSafe ∧ ∀ o h', h.TableStep o h' → h.KeepsSlots o h'

/-- No `next` is stored in a page directory: by a load that comes to `task_new`
through the tail, and by a termination that does not panic through `prev`. -/
def TableOpOk (h : TaskHeap) : TableOp → Prop
  | .load mem outcome => h.toSched.processGetFreeSlot ≠ none → outcome ≠ .noProgram → h.TailOk mem
  | .terminate process => ∀ link record, h.blocks process = some (.process link) →
      (∃ i, i < maxProcesses ∧ i ≠ link.id ∧ h.processes i ≠ 0) →
      h.blocks link.task = some (.task record) → record.prev ≠ 0 → h.NotDirectory record.prev

def Occupied (h : TaskHeap) (i : Nat) : Prop := i < maxProcesses ∧ h.processes i ≠ 0

/-- The process in the slot `i` is in the blocks `loads i`, and there are no others. -/
structure Tabulates (h : TaskHeap) (loads : Nat → LoadBlocks) : Prop where
  held : ∀ i, h.Occupied i → h.Holds (loads i) i
  process : ∀ i, h.Occupied i → (loads i).process = h.processes i
  tables : ∀ i, h.Occupied i → ∀ k, h.blocks ((loads i).tables k) = some .table
  apart : ∀ i j q, h.Occupied i → h.Occupied j → q ∈ (loads i).all → q ∈ (loads j).all → i = j
  covered : ∀ q, h.blocks q ≠ none → ∃ i, h.Occupied i ∧ q ∈ (loads i).all
  current : h.toSched.AnyProcess →
    ∃ i, i < maxProcesses ∧ h.processes i = h.currentProcess ∧ h.currentProcess ≠ 0
  noCurrent : h.currentProcess ≠ 0 → h.toSched.AnyProcess

section Load

variable {h : TaskHeap} {mem : LoadBlocks} {outcome : Sched.LoadOutcome} {slot : Nat}

/-- A process has been loaded, and is not in the table yet. -/
structure Loaded (h h' : TaskHeap) (mem : LoadBlocks) (slot : Nat) : Prop where
  held : h'.Holds mem slot
  tables : ∀ k, h'.blocks (mem.tables k) = some .table
  prev : ∃ record, h'.blocks mem.task = some (.task record) ∧
    (record.prev ≠ 0 → h'.NotDirectory record.prev)
  others : ∀ q, q ∉ mem.all → h'.shape q = h.shape q
  processes : h'.processes = h.processes
  currentProcess : h'.currentProcess = h.currentProcess

/-- A load that comes to `task_new`. -/
theorem processLoadSwitch_eq
    (hslot : h.toSched.processGetFreeSlot = some slot) (houtcome : outcome ≠ .noProgram) :
    h.processLoadSwitch mem outcome =
      ((h.set mem.process (some (.process ⟨slot, 0⟩))).taskNew mem >>= fun h =>
        let h := h.set mem.process (some (.process ⟨slot, mem.task⟩))
        if outcome = .notMapped then do
          let h ← h.processFreeProcess mem.process
          pure (-einvarg, h)
        else
          pure (0,
            { h with
              processes := fun i => if i = slot then mem.process else h.processes i
              currentProcess := mem.process })) := by
  rw [processLoadSwitch, hslot]
  exact if_neg houtcome

theorem taskNew_loaded
    (hfresh : h.Fresh mem) (htail : h.TailOk mem) :
    ∃ h', (h.set mem.process (some (.process ⟨slot, 0⟩))).taskNew mem = .ok h' ∧
      h.Loaded (h'.set mem.process (some (.process ⟨slot, mem.task⟩))) mem slot := by
  obtain ⟨-, htask, hpages, hne⟩ := LoadBlocks.all_nodup hfresh.nodup
  have htail₁ : (h.set mem.process (some (.process ⟨slot, 0⟩))).TailOk mem := by
    intro h0
    obtain ⟨hdirectory, hnot⟩ := htail h0
    refine ⟨hdirectory, fun entries hentries => ?_⟩
    rw [set_blocks] at hentries
    split_ifs at hentries
    · cases hentries
    · exact hnot entries hentries
  obtain ⟨h₁, hnew, hmade⟩ := taskNew_made (hfresh.set _) htail₁
  obtain ⟨record, hrecord, hchunk, hlink, hprev⟩ := hmade.task
  let h₂ := h₁.set mem.process (some (.process ⟨slot, mem.task⟩))
  have hkept (q : Ptr) (hq : q ≠ mem.process) : h₂.blocks q = h₁.blocks q := if_neg hq
  refine ⟨h₁, hnew, ⟨hfresh.nodup, hfresh.notNull, if_pos rfl, ?_, ?_⟩, fun k => ?_,
    ⟨record, (hkept _ hne.symm).trans hrecord, ?_⟩, fun q hq => ?_, hmade.processes,
    hmade.currentProcess⟩
  · rw [shape, hkept _ hne.symm, hrecord]
    change some (Block.task ⟨record.pageDirectory, record.process, 0, 0⟩) = _
    rw [hchunk, hlink]
  · exact hmade.pages.congr fun q hq => shape_of_blocks (hkept q (ne_of_mem_of_not_mem hq hpages))
  · have htable : mem.tables k ∈ mem.pages := LoadBlocks.table_mem_pages k
    exact (hkept _ (ne_of_mem_of_not_mem htable hpages)).trans (hmade.tables k)
  · intro h0 entries hentries
    rw [set_blocks] at hentries
    split_ifs at hentries
    · cases hentries
    · exact hprev h0 entries hentries
  · rw [LoadBlocks.mem_all_iff, not_or, not_or] at hq
    rw [shape_of_blocks (hkept q hq.2.2), hmade.others q hq.1 hq.2.1]
    exact shape_of_blocks (if_neg hq.2.2)

/-- A process that is freed again leaves nothing behind. -/
theorem Loaded.freed
    {h' : TaskHeap} (hloaded : h.Loaded h' mem slot) (hfresh : h.Fresh mem)
    (hprocess : h.blocks mem.process = none) :
    ∃ h'', h'.processFreeProcess mem.process = .ok h'' ∧ h''.shape = h.shape ∧
      h''.processes = h.processes ∧ h''.currentProcess = h.currentProcess := by
  obtain ⟨record, hrecord, hprev⟩ := hloaded.prev
  obtain ⟨h'', hfree, herased⟩ := processFreeProcess_erased hloaded.held hrecord
  refine ⟨h'', hfree, funext fun q => ?_, herased.processes.trans hloaded.processes,
    herased.currentProcess.trans hloaded.currentProcess⟩
  rw [herased.shape hprev]
  split_ifs with hq
  · refine (shape_eq_none.mpr ?_).symm
    by_cases hown : q = mem.process
    · rw [hown, hprocess]
    · exact hfresh.unused q hq hown
  · exact hloaded.others q hq

theorem processLoadSwitch_noProgram
    (hslot : h.toSched.processGetFreeSlot = some slot) (hprocess : h.blocks mem.process = none) :
    h.processLoadSwitch mem .noProgram = .ok (-eio, h) := by
  let h₁ := h.set mem.process (some (.process ⟨slot, 0⟩))
  have hfree : h₁.processFreeProcess mem.process = .ok (h₁.set mem.process none) := by
    rw [processFreeProcess, proc_eq_ok (if_pos rfl), ok_bind]
    exact if_pos (congrArg Option.isSome (if_pos rfl))
  have hblocks : (h₁.set mem.process none).blocks = h.blocks := by
    funext q
    rw [set_blocks]
    split_ifs with hq
    · rw [hq, hprocess]
    · exact if_neg hq
  rw [processLoadSwitch, hslot]
  refine (if_pos rfl).trans ?_
  rw [hfree]
  exact congrArg (fun blocks => Except.ok (-eio, ({ h with blocks := blocks } : TaskHeap))) hblocks

theorem processLoadSwitch_notMapped
    (hslot : h.toSched.processGetFreeSlot = some slot) (hprocess : h.blocks mem.process = none)
    (hfresh : h.Fresh mem) (htail : h.TailOk mem) :
    ∃ h', h.processLoadSwitch mem .notMapped = .ok (-einvarg, h') ∧ h'.shape = h.shape ∧
      h'.processes = h.processes ∧ h'.currentProcess = h.currentProcess := by
  obtain ⟨h₁, hnew, hloaded⟩ := @taskNew_loaded h mem slot hfresh htail
  obtain ⟨h', hfree, hsame⟩ := hloaded.freed hfresh hprocess
  refine ⟨h', ?_, hsame⟩
  rw [processLoadSwitch_eq hslot (by decide), hnew, ok_bind]
  refine (if_pos rfl).trans ?_
  rw [hfree]
  rfl

/-- A process that is mapped enters the table. -/
theorem processLoadSwitch_mapped
    (hslot : h.toSched.processGetFreeSlot = some slot) (hfresh : h.Fresh mem)
    (htail : h.TailOk mem) :
    ∃ h₁ h', h.Loaded h₁ mem slot ∧ h.processLoadSwitch mem .mapped = .ok (0, h') ∧
      h' = { h₁ with
        processes := fun i => if i = slot then mem.process else h.processes i
        currentProcess := mem.process } := by
  obtain ⟨h₁, hnew, hloaded⟩ := @taskNew_loaded h mem slot hfresh htail
  refine ⟨_, _, hloaded, ?_, rfl⟩
  rw [processLoadSwitch_eq hslot (by decide), hnew, ok_bind, ← hloaded.processes]
  rfl

/-- A termination unlinks the process and frees its blocks. -/
theorem processTerminate_cases
    (hcurrent : h.toSched.AnyProcess →
      ∃ i, i < maxProcesses ∧ h.processes i = h.currentProcess ∧ h.currentProcess ≠ 0)
    {i : Nat} (hi : h.Occupied i) (hat : h.processes i = mem.process) (hheld : h.Holds mem i)
    {record : Task} (hrecord : h.blocks mem.task = some (.task record)) :
    (h.processTerminate mem.process = .error .panic ∧
      ∀ j, j < maxProcesses → j ≠ i → h.processes j = 0) ∨
    ∃ h₁ h' : TaskHeap, h.processTerminate mem.process = .ok h' ∧ h₁.Erased h' mem record ∧
      h₁.blocks = h.blocks ∧ h₁.taskTail = h.taskTail ∧
      (∀ j, h₁.processes j = if j = i then 0 else h.processes j) ∧
      ∃ j, j < maxProcesses ∧ h₁.processes j = h₁.currentProcess ∧ h₁.currentProcess ≠ 0 := by
  have hlink : h.toSched.procs mem.process = some ⟨i, mem.task⟩ :=
    congrArg (Option.bind · Block.process?) hheld.process
  rcases Sched.processUnlink_cases hcurrent hlink hi.1 hat (hat ▸ hi.2) with
    ⟨hpanic, hnone⟩ | ⟨processes, current, hunlink, hprocesses, hlisted⟩
  · refine Or.inl ⟨?_, hnone⟩
    rw [processTerminate, processUnlink, hpanic]
    rfl
  · let h₁ : TaskHeap := { h with processes := processes, currentProcess := current }
    have hheld₁ : h₁.Holds mem i := hheld.congr fun _ _ => rfl
    obtain ⟨h', hfree, herased⟩ := processFreeProcess_erased hheld₁ hrecord
    refine Or.inr ⟨h₁, h', ?_, herased, rfl, rfl, hprocesses, hlisted⟩
    rw [processTerminate, processUnlink, hunlink]
    exact hfree

end Load

namespace Tabulates

variable {h h' : TaskHeap} {loads : Nat → LoadBlocks} {mem : LoadBlocks} {slot : Nat} {p : Ptr}

theorem empty (loads : Nat → LoadBlocks) : TaskHeap.empty.Tabulates loads where
  held := fun _ hi => absurd rfl hi.2
  process := fun _ hi => absurd rfl hi.2
  tables := fun _ hi => absurd rfl hi.2
  apart := fun _ _ _ hi => absurd rfl hi.2
  covered := fun _ hq => absurd rfl hq
  current := fun ⟨_, _, hne⟩ => absurd rfl hne
  noCurrent := fun hne => absurd rfl hne

/-- A process is in the blocks of its slot. -/
theorem exists_slot
    (htab : h.Tabulates loads) {link : ProcessLink} (hlink : h.blocks p = some (.process link)) :
    ∃ i, h.Occupied i ∧ p = (loads i).process ∧ link = ⟨i, (loads i).task⟩ := by
  obtain ⟨i, hi, hmem⟩ := htab.covered p (by rw [hlink]; exact Option.some_ne_none _)
  have hheld := htab.held i hi
  refine ⟨i, hi, ?_⟩
  rcases LoadBlocks.mem_all_iff.mp hmem with hpage | rfl | rfl
  · have hnone := (hheld.pages.noRecord (htab.tables i hi) hpage).2
    rw [show h.toSched.procs p = some link from congrArg (Option.bind · Block.process?) hlink]
      at hnone
    cases hnone
  · have htask := hheld.task
    rw [shape_of_process hlink] at htask
    cases htask
  · rw [hheld.process] at hlink
    exact ⟨rfl, (Block.process.inj (Option.some.inj hlink)).symm⟩

theorem processOf_link
    (htab : h.Tabulates loads) {i : Nat} (hi : h.Occupied i) :
    h.toSched.processOf (loads i).task = some (loads i).process := by
  obtain ⟨next, prev, htask⟩ := task_of_shape (htab.held i hi).task
  exact congrArg (Option.map Task.process) (congrArg (Option.bind · Block.task?) htask)

theorem safe (htab : h.Tabulates loads) : h.toSched.TableSafe where
  entry := by
    intro i hi hne
    have hprocess := (htab.held i ⟨hi, hne⟩).process
    rw [htab.process i ⟨hi, hne⟩] at hprocess
    exact ⟨_, congrArg (Option.bind · Block.process?) hprocess, rfl⟩
  task := by
    intro p link hlink
    obtain ⟨i, hi, rfl, rfl⟩ := htab.exists_slot (blocks_of_proc hlink)
    exact htab.processOf_link hi
  own := by
    intro p q link link' hp hq htask
    obtain ⟨i, hi, rfl, rfl⟩ := htab.exists_slot (blocks_of_proc hp)
    obtain ⟨j, hj, rfl, rfl⟩ := htab.exists_slot (blocks_of_proc hq)
    have hprocess := htab.processOf_link hi
    rw [show (loads i).task = (loads j).task from htask, htab.processOf_link hj] at hprocess
    exact (Option.some.inj hprocess).symm
  current := by
    by_cases hnull : h.currentProcess = 0
    · refine Or.inl ⟨hnull, fun hany => ?_⟩
      obtain ⟨i, -, -, hne⟩ := htab.current hany
      exact hne hnull
    · exact Or.inr (htab.current (htab.noCurrent hnull))

theorem congr
    (htab : h.Tabulates loads) (hshape : h'.shape = h.shape)
    (hprocesses : h'.processes = h.processes) (hcurrent : h'.currentProcess = h.currentProcess) :
    h'.Tabulates loads := by
  have hoccupied (i : Nat) : h'.Occupied i ↔ h.Occupied i := by
    rw [Occupied, Occupied, hprocesses]
  have hany : h'.toSched.AnyProcess ↔ h.toSched.AnyProcess := by
    rw [Sched.AnyProcess, Sched.AnyProcess, toSched, hprocesses]
    rfl
  refine ⟨fun i hi => ?_, fun i hi => ?_, fun i hi k => ?_, fun i j q hi hj => ?_,
    fun q hq => ?_, fun hex => ?_, fun hne => ?_⟩
  · exact (htab.held i ((hoccupied i).mp hi)).congr fun q _ => congrFun hshape q
  · rw [hprocesses]
    exact htab.process i ((hoccupied i).mp hi)
  · exact blocks_congr (by intro _ hb; cases hb) (congrFun hshape _)
      (htab.tables i ((hoccupied i).mp hi) k)
  · exact htab.apart i j q ((hoccupied i).mp hi) ((hoccupied j).mp hj)
  · obtain ⟨i, hi, hmem⟩ := htab.covered q fun hnone =>
      hq (shape_eq_none.mp (hshape ▸ shape_eq_none.mpr hnone))
    exact ⟨i, (hoccupied i).mpr hi, hmem⟩
  · rw [hprocesses, hcurrent]
    exact htab.current (hany.mp hex)
  · exact hany.mpr (htab.noCurrent (hcurrent ▸ hne))

/-- The blocks of a load are none of those of the processes in the table. -/
theorem fresh_apart
    (htab : h.Tabulates loads) (hprocess : h.blocks mem.process = none) (hfresh : h.Fresh mem)
    {i : Nat} (hi : h.Occupied i) {q : Ptr} (hq : q ∈ (loads i).all) :
    q ∉ mem.all := by
  intro hmem
  refine (htab.held i hi).live hq ?_
  by_cases hown : q = mem.process
  · rw [hown, hprocess]
  · exact hfresh.unused q hmem hown

theorem load
    (htab : h.Tabulates loads) (hslot : h.toSched.processGetFreeSlot = some slot)
    (hprocess : h.blocks mem.process = none) (hfresh : h.Fresh mem) (htail : h.TailOk mem) :
    ∃ h', h.processLoadSwitch mem .mapped = .ok (0, h') ∧
      h'.Tabulates (Function.update loads slot mem) ∧
      h'.processes = (fun i => if i = slot then mem.process else h.processes i) ∧
      ∀ q, q ∉ mem.all → h'.shape q = h.shape q := by
  obtain ⟨hlt, hfree⟩ := Sched.findSlot_eq_some hslot
  have hzero : h.processes slot = 0 := of_decide_eq_true hfree
  obtain ⟨h₁, h', hloaded, heq, hresult⟩ := processLoadSwitch_mapped hslot hfresh htail
  have hprocesses : h'.processes = fun i => if i = slot then mem.process else h.processes i := by
    rw [hresult]
  have hat : h'.processes slot = mem.process := by
    rw [hprocesses]
    exact if_pos rfl
  have hother {i : Nat} (hne : i ≠ slot) : h'.processes i = h.processes i := by
    rw [hprocesses]
    exact if_neg hne
  have hcurrent : h'.currentProcess = mem.process := by rw [hresult]
  have hshape (q : Ptr) : h'.shape q = h₁.shape q := by
    rw [hresult]
    rfl
  have hnull := hfresh.process_ne_zero
  have hown : h'.Occupied slot := ⟨hlt, hat.trans_ne hnull⟩
  have hold {i : Nat} (hi : h'.Occupied i) (hne : i ≠ slot) : h.Occupied i :=
    ⟨hi.1, hother hne ▸ hi.2⟩
  have hkept {i : Nat} (hi : h.Occupied i) (q : Ptr) (hq : q ∈ (loads i).all) :
      h'.shape q = h.shape q :=
    (hshape q).trans (hloaded.others q (htab.fresh_apart hprocess hfresh hi hq))
  refine ⟨h', heq, ⟨fun i hi => ?_, fun i hi => ?_, fun i hi k => ?_, fun i j q hi hj hqi hqj => ?_,
    fun q hq => ?_, fun _ => ⟨slot, hlt, hat.trans hcurrent.symm, hcurrent.trans_ne hnull⟩,
    fun _ => ⟨slot, hown⟩⟩, hprocesses, fun q hq => (hshape q).trans (hloaded.others q hq)⟩
  · by_cases hne : i = slot
    · rw [hne, Function.update_self]
      exact hloaded.held.congr fun q _ => hshape q
    · rw [Function.update_of_ne hne]
      exact (htab.held i (hold hi hne)).congr (hkept (hold hi hne))
  · by_cases hne : i = slot
    · rw [hne, Function.update_self, hat]
    · rw [Function.update_of_ne hne, hother hne]
      exact htab.process i (hold hi hne)
  · by_cases hne : i = slot
    · rw [hne, Function.update_self]
      exact blocks_congr (by intro _ hb; cases hb) (hshape _) (hloaded.tables k)
    · rw [Function.update_of_ne hne]
      refine blocks_congr (by intro _ hb; cases hb) (hkept (hold hi hne) _ ?_)
        (htab.tables i (hold hi hne) k)
      exact LoadBlocks.mem_all_of_mem_pages (LoadBlocks.table_mem_pages k)
  · by_cases hi0 : i = slot
    · by_cases hj0 : j = slot
      · rw [hi0, hj0]
      · rw [hi0, Function.update_self] at hqi
        rw [Function.update_of_ne hj0] at hqj
        exact absurd hqi (htab.fresh_apart hprocess hfresh (hold hj hj0) hqj)
    · rw [Function.update_of_ne hi0] at hqi
      by_cases hj0 : j = slot
      · rw [hj0, Function.update_self] at hqj
        exact absurd hqj (htab.fresh_apart hprocess hfresh (hold hi hi0) hqi)
      · rw [Function.update_of_ne hj0] at hqj
        exact htab.apart i j q (hold hi hi0) (hold hj hj0) hqi hqj
  · by_cases hmem : q ∈ mem.all
    · exact ⟨slot, hown, by rwa [Function.update_self]⟩
    · have hlive : h.blocks q ≠ none := by
        rw [ne_eq, ← shape_eq_none, ← hloaded.others q hmem, ← hshape, shape_eq_none]
        exact hq
      obtain ⟨i, hi, hqi⟩ := htab.covered q hlive
      have hne : i ≠ slot := fun heq => hi.2 (heq ▸ hzero)
      exact ⟨i, ⟨hi.1, hother hne ▸ hi.2⟩, by rwa [Function.update_of_ne hne]⟩

/-- A process leaves the table with all of its blocks. -/
theorem terminate
    (htab : h.Tabulates loads) {i : Nat} (hi : h.Occupied i) {record : Task}
    (hrecord : h.blocks (loads i).task = some (.task record))
    (hprev : (∃ j, j < maxProcesses ∧ j ≠ i ∧ h.processes j ≠ 0) → record.prev ≠ 0 →
      h.NotDirectory record.prev) :
    h.processTerminate (loads i).process = .error .panic ∨
    ∃ h', h.processTerminate (loads i).process = .ok h' ∧ h'.Tabulates loads ∧
      ∀ q, h'.shape q = if q ∈ (loads i).all then none else h.shape q := by
  rcases processTerminate_cases htab.current hi (htab.process i hi).symm (htab.held i hi)
    hrecord with ⟨hpanic, -⟩ | ⟨h₁, h', heq, herased, hblocks, -, hprocesses, j, hj, hcurrent, hne⟩
  · exact Or.inl hpanic
  have hji : j ≠ i := by
    rintro rfl
    exact hne (by rw [← hcurrent, hprocesses, if_pos rfl])
  have hprev₁ : record.prev ≠ 0 → h₁.NotDirectory record.prev := by
    intro h0
    have hother : h.processes j ≠ 0 := by
      rw [hprocesses, if_neg hji] at hcurrent
      exact hcurrent.trans_ne hne
    rw [NotDirectory, hblocks]
    exact hprev ⟨j, hj, hji, hother⟩ h0
  have hshape (q : Ptr) : h'.shape q = if q ∈ (loads i).all then none else h.shape q := by
    rw [herased.shape hprev₁]
    exact if_congr Iff.rfl rfl (shape_of_blocks (congrFun hblocks q))
  have hprocesses' (k : Nat) : h'.processes k = if k = i then 0 else h.processes k :=
    (congrFun herased.processes k).trans (hprocesses k)
  have hold {k : Nat} (hk : h'.Occupied k) : k ≠ i ∧ h.Occupied k := by
    have hki : k ≠ i := by
      rintro rfl
      exact hk.2 (by rw [hprocesses', if_pos rfl])
    refine ⟨hki, hk.1, ?_⟩
    rw [← show h'.processes k = h.processes k by rw [hprocesses', if_neg hki]]
    exact hk.2
  have hkept {k : Nat} (hk : h'.Occupied k) (q : Ptr) (hq : q ∈ (loads k).all) :
      h'.shape q = h.shape q := by
    rw [hshape, if_neg]
    intro hmem
    exact (hold hk).1 (htab.apart k i q (hold hk).2 hi hq hmem)
  refine Or.inr ⟨h', heq, ⟨fun k hk => ?_, fun k hk => ?_, fun k hk n => ?_, fun k l q hk hl => ?_,
    fun q hq => ?_, fun _ => ?_, fun _ => ?_⟩, hshape⟩
  · exact (htab.held k (hold hk).2).congr (hkept hk)
  · rw [hprocesses', if_neg (hold hk).1]
    exact htab.process k (hold hk).2
  · refine blocks_congr (by intro _ hb; cases hb) (hkept hk _ ?_) (htab.tables k (hold hk).2 n)
    exact LoadBlocks.mem_all_of_mem_pages (LoadBlocks.table_mem_pages n)
  · exact htab.apart k l q (hold hk).2 (hold hl).2
  · have hlive : q ∉ (loads i).all ∧ h.blocks q ≠ none := by
      rw [ne_eq, ← shape_eq_none, hshape] at hq
      split_ifs at hq with hmem
      · exact absurd rfl hq
      · exact ⟨hmem, fun hnone => hq (shape_eq_none.mpr hnone)⟩
    obtain ⟨k, hk, hqk⟩ := htab.covered q hlive.2
    have hki : k ≠ i := fun hki => hlive.1 (hki ▸ hqk)
    exact ⟨k, ⟨hk.1, by rw [hprocesses', if_neg hki]; exact hk.2⟩, hqk⟩
  · refine ⟨j, hj, ?_, ?_⟩
    · rw [herased.processes, herased.currentProcess, hcurrent]
    · rw [herased.currentProcess]
      exact hne
  · refine ⟨j, hj, ?_⟩
    change h'.processes j ≠ 0
    rw [herased.processes, hcurrent]
    exact hne

/-- A call that stores no `next` in a page directory. -/
theorem apply
    (htab : h.Tabulates loads) {o : TableOp} (hvalid : h.TableOpValid o) (hok : h.TableOpOk o) :
    h.tableApply o = .error .panic ∨
      ∃ h' loads', h.tableApply o = .ok h' ∧ h'.Tabulates loads' ∧ h.KeepsSlots o h' := by
  cases o with
  | load mem outcome =>
      obtain ⟨hprocess, hfresh⟩ := hvalid
      refine Or.inr ?_
      cases hslot : h.toSched.processGetFreeSlot with
      | none =>
          refine ⟨h, loads, ?_, htab, fun _ _ _ _ _ => rfl⟩
          rw [TaskHeap.tableApply, processLoadSwitch, hslot]
          rfl
      | some slot =>
          have htail (houtcome : outcome ≠ .noProgram) : h.TailOk mem :=
            hok (by rw [hslot]; exact Option.some_ne_none slot) houtcome
          cases outcome with
          | noProgram =>
              refine ⟨h, loads, ?_, htab, fun _ _ _ _ _ => rfl⟩
              rw [TaskHeap.tableApply, processLoadSwitch_noProgram hslot hprocess]
              rfl
          | notMapped =>
              obtain ⟨h', heq, hshape, hprocesses, hcurrent⟩ :=
                processLoadSwitch_notMapped hslot hprocess hfresh (htail (by decide))
              refine ⟨h', loads, ?_, htab.congr hshape hprocesses hcurrent,
                fun _ _ _ i _ => congrFun hprocesses i⟩
              rw [TaskHeap.tableApply, heq]
              rfl
          | mapped =>
              obtain ⟨h', heq, htab', hprocesses, -⟩ :=
                htab.load hslot hprocess hfresh (htail (by decide))
              refine ⟨h', _, ?_, htab', fun _ _ _ i hi => ?_⟩
              · rw [TaskHeap.tableApply, heq]
                rfl
              · have hzero : h.processes slot = 0 :=
                  of_decide_eq_true (Sched.findSlot_eq_some hslot).2
                have hne : i ≠ slot := fun heq => hi (heq ▸ hzero)
                rw [hprocesses]
                exact if_neg hne
  | terminate p =>
      obtain ⟨link, hlink⟩ := hvalid
      obtain ⟨i, hi, rfl, rfl⟩ := htab.exists_slot hlink
      obtain ⟨record, hrecord⟩ := (htab.held i hi).exists_record
      rcases htab.terminate hi hrecord fun hother h0 => hok _ record hlink hother hrecord h0 with
        hpanic | ⟨h', heq, htab', -⟩
      · exact Or.inl hpanic
      · refine Or.inr ⟨h', loads, heq, htab', ?_⟩
        intro _ _ ho
        cases ho

end Tabulates

section Sched

variable {h : TaskHeap} {s' : Sched} {mem : LoadBlocks} {loads : Nat → LoadBlocks} {slot : Nat}
  {outcome : Sched.LoadOutcome} {o : TableOp}

/-- The tail is a task, where the scheduler finds one. -/
theorem tailOk_of_taskNew
    (hfresh : h.Fresh mem) {res : Ptr × Sched}
    (hs : h.toSched.taskNew mem.task mem.process mem.chunk = .ok res) :
    h.TailOk mem := by
  intro hhead
  have htail : h.toSched.TailOk mem.task := by
    by_contra hdead
    rw [Sched.taskNew_fault hfresh.task_ne_zero hdead] at hs
    cases hs
  obtain ⟨-, htask, hprocess, hne⟩ := LoadBlocks.all_nodup hfresh.nodup
  have hdirectory : mem.directory ∈ mem.pages := LoadBlocks.directory_mem_pages
  rcases htail with hzero | hlive | hown
  · exact absurd hzero hhead
  · obtain ⟨record, hrecord⟩ := Option.isSome_iff_exists.mp hlive
    have hblock : h.blocks h.taskTail = some (.task record) := blocks_of_task hrecord
    refine ⟨fun heq => ?_, fun entries hentries => ?_⟩
    · rw [heq, hfresh.unused _ (LoadBlocks.mem_all_of_mem_pages hdirectory)
        (ne_of_mem_of_not_mem hdirectory hprocess)] at hblock
      cases hblock
    · rw [hblock] at hentries
      cases hentries
  · rw [show h.taskTail = mem.task from hown]
    refine ⟨(ne_of_mem_of_not_mem hdirectory htask).symm, fun entries hentries => ?_⟩
    rw [hfresh.unused _ LoadBlocks.task_mem_all hne.symm] at hentries
    cases hentries

/-- A load that returns in the scheduler. -/
theorem processLoadSwitch_toSched
    (hprocess : h.blocks mem.process = none) (hfresh : h.Fresh mem) {res : Int}
    (hs : h.toSched.processLoadSwitch mem.toMemory outcome = .ok (res, s')) :
    h.TableOpOk (.load mem outcome) ∧
      ∃ h', h.processLoadSwitch mem outcome = .ok (res, h') ∧ h'.toSched = s' := by
  have hnull := hfresh.process_ne_zero
  have hprocs : h.toSched.procs mem.process = none := (noRecord_of_none hprocess).2
  cases hslot : h.toSched.processGetFreeSlot with
  | none =>
      rw [Sched.processLoadSwitch, hslot] at hs
      obtain ⟨rfl, rfl⟩ := Prod.mk.inj (Except.ok.inj hs)
      refine ⟨fun hfree => absurd hslot hfree, h, ?_, rfl⟩
      rw [processLoadSwitch, hslot]
  | some slot =>
      by_cases houtcome : outcome = .noProgram
      · subst houtcome
        rw [Sched.processLoadSwitch_noProgram_eq hslot hnull hprocs] at hs
        obtain ⟨rfl, rfl⟩ := Prod.mk.inj (Except.ok.inj hs)
        exact ⟨fun _ hne => absurd rfl hne, h, processLoadSwitch_noProgram hslot hprocess, rfl⟩
      · rw [Sched.processLoadSwitch_eq hslot hnull houtcome] at hs
        obtain ⟨⟨task, s₁⟩, hnew, hs⟩ := bind_eq_ok_iff.mp hs
        have hset : (h.set mem.process (some (.process ⟨slot, 0⟩))).toSched =
            h.toSched.setProc mem.toMemory.process (some ⟨slot, 0⟩) :=
          toSched_setProc (noRecord_of_none hprocess).1 (some ⟨slot, 0⟩)
        rw [← hset] at hnew
        obtain ⟨rfl, h₁, hheap, rfl⟩ := taskNew_toSched (hfresh.set _) hnew
        have htail₁ := tailOk_of_taskNew (hfresh.set _) hnew
        have htail : h.TailOk mem := by
          intro hhead
          obtain ⟨hne, hnot⟩ := htail₁ hhead
          refine ⟨hne, fun entries hentries => hnot entries ((if_neg ?_).trans hentries)⟩
          intro heq
          rw [show h.taskTail = mem.process from heq, hprocess] at hentries
          cases hentries
        have hnone : h₁.toSched.tasks mem.process = none := by
          obtain ⟨h₁', hheap', hmade⟩ := taskNew_made (hfresh.set _) htail₁
          rw [hheap] at hheap'
          obtain rfl := Except.ok.inj hheap'
          obtain ⟨-, -, hpages, hne⟩ := LoadBlocks.all_nodup hfresh.nodup
          refine tasks_of_process (blocks_of_shape (by intro _ hb; cases hb)
            ((hmade.others _ hpages hne).trans (shape_of_process (if_pos rfl))))
        obtain ⟨h₁', hheap', hloaded⟩ := @taskNew_loaded h mem slot hfresh htail
        rw [hheap] at hheap'
        obtain rfl := Except.ok.inj hheap'
        have hset₁ := toSched_setProc hnone (some ⟨slot, mem.task⟩)
        refine ⟨fun _ _ => htail, ?_⟩
        rw [processLoadSwitch_eq hslot houtcome, hheap, ok_bind]
        by_cases hmapped : outcome = .notMapped
        · obtain ⟨s₂, hfree, heq⟩ := bind_eq_ok_iff.mp ((if_pos hmapped).symm.trans hs)
          rw [show h₁.toSched.setProc mem.toMemory.process (some ⟨slot, mem.task⟩) =
            (h₁.set mem.process (some (.process ⟨slot, mem.task⟩))).toSched from hset₁.symm]
            at hfree
          obtain ⟨h₂, hfree₂, rfl⟩ := processFreeProcess_toSched hloaded.held hloaded.tables hfree
          obtain ⟨rfl, rfl⟩ := Prod.mk.inj (Except.ok.inj heq)
          refine ⟨h₂, (if_pos hmapped).trans ?_, rfl⟩
          rw [hfree₂]
          rfl
        · obtain ⟨rfl, rfl⟩ := Prod.mk.inj (Except.ok.inj ((if_neg hmapped).symm.trans hs))
          refine ⟨_, if_neg hmapped, ?_⟩
          exact congrArg (fun s : Sched => { s with
            processes := fun i => if i = slot then mem.process else s.processes i
            currentProcess := mem.process }) hset₁

/-- A termination that returns in the scheduler. -/
theorem processTerminate_toSched
    (htab : h.Tabulates loads) {i : Nat} (hi : h.Occupied i)
    (hs : h.toSched.processTerminate (loads i).process = .ok s') :
    h.TableOpOk (.terminate (loads i).process) ∧
      ∃ h', h.processTerminate (loads i).process = .ok h' ∧ h'.toSched = s' := by
  obtain ⟨s₁, hunlink, hfree⟩ := bind_eq_ok_iff.mp hs
  have hheld := htab.held i hi
  have hlink : h.toSched.procs (loads i).process = some ⟨i, (loads i).task⟩ :=
    congrArg (Option.bind · Block.process?) hheld.process
  have hat : h.processes i = (loads i).process := (htab.process i hi).symm
  rcases Sched.processUnlink_cases htab.current hlink hi.1 hat (hat ▸ hi.2) with
    ⟨hpanic, -⟩ | ⟨processes, current, hunlink', -⟩
  · rw [hpanic] at hunlink
    cases hunlink
  rw [hunlink'] at hunlink
  obtain rfl := Except.ok.inj hunlink
  let h₁ : TaskHeap := { h with processes := processes, currentProcess := current }
  have hheld₁ : h₁.Holds (loads i) i := hheld.congr fun _ _ => rfl
  have hfree₁ : h₁.toSched.processFreeProcess (loads i).process = .ok s' := hfree
  obtain ⟨h', hheap, heq⟩ := processFreeProcess_toSched hheld₁ (htab.tables i hi) hfree₁
  refine ⟨?_, h', ?_, heq⟩
  · intro link record hprocess _ hrecord h0 entries hentries
    rw [hheld.process] at hprocess
    obtain rfl := Block.process.inj (Option.some.inj hprocess)
    have hdead : ¬ h₁.toSched.Live record.prev := by
      rw [Sched.Live, show h₁.toSched.tasks record.prev = none from
        congrArg (Option.bind · Block.task?) hentries]
      exact Bool.false_ne_true
    have htask : h₁.toSched.tasks (loads i).task = some record :=
      congrArg (Option.bind · Block.task?) hrecord
    rw [Sched.processFreeProcess, proc_eq_ok hheld₁.process, ok_bind,
      if_pos hheld.task_ne_zero, Sched.taskFree_fault htask h0 hdead] at hfree₁
    cases hfree₁
  · rw [processTerminate, processUnlink, hunlink']
    exact hheap

/-- As long as the calls of the scheduler return, the blocks follow its records, and no
`next` is stored in a page directory. -/
theorem Tabulates.tableApply_toSched
    (htab : h.Tabulates loads) (hvalid : h.TableOpValid o)
    (hs : h.toSched.tableApply o = .ok s') :
    h.TableOpOk o ∧ ∃ h', h.tableApply o = .ok h' ∧ h'.toSched = s' := by
  cases o with
  | load mem outcome =>
      obtain ⟨⟨res, s₁⟩, hload, heq⟩ := bind_eq_ok_iff.mp hs
      obtain ⟨hok, h', hheap, rfl⟩ := processLoadSwitch_toSched hvalid.1 hvalid.2 hload
      refine ⟨hok, h', ?_, Except.ok.inj heq⟩
      rw [TaskHeap.tableApply, hheap]
      rfl
  | terminate p =>
      obtain ⟨link, hlink⟩ := hvalid
      obtain ⟨i, hi, rfl, -⟩ := htab.exists_slot hlink
      exact processTerminate_toSched htab hi hs

end Sched

/-- The blocks of the heap are those of the processes in the table. -/
def TableInv (h : TaskHeap) : Prop := ∃ loads, h.Tabulates loads

theorem TableInv.step
    {h h' : TaskHeap} {o : TableOp} (hinv : h.TableInv)
    (hstep : Guarded TableOpOk TableStep h o h') :
    h'.TableInv := by
  obtain ⟨loads, htab⟩ := hinv
  obtain ⟨hok, hvalid, heq⟩ := hstep
  rcases htab.apply hvalid hok with hpanic | ⟨h'', loads', heq', htab', -⟩
  · rw [heq] at hpanic
    cases hpanic
  · rw [heq] at heq'
    exact ⟨loads', Except.ok.inj heq' ▸ htab'⟩

/-- While no `next` is stored in a page directory the table is consistent, and a call
returns and leaves it so, or panics. -/
theorem tableRun_safe
    {ops : List TableOp} {h : TaskHeap}
    (hrun : Run (Guarded TableOpOk TableStep) TaskHeap.empty ops h) :
    h.toSched.TableSafe ∧ ∀ o, h.TableOpValid o → h.TableOpOk o → h.Tabled o := by
  obtain ⟨loads, htab⟩ : h.TableInv :=
    hrun.invariant TableInv (fun _ _ _ hinv hstep => hinv.step hstep)
      ⟨fun _ => ⟨0, 0, 0, fun _ => 0, 0⟩, .empty _⟩
  refine ⟨htab.safe, fun o hvalid hok => ?_⟩
  rcases htab.apply hvalid hok with hpanic | ⟨h', loads', heq, htab', hkept⟩
  · exact Or.inl hpanic
  · exact Or.inr ⟨h', heq, htab'.safe, hkept⟩

def blockAt (n k : Nat) : Ptr := BitVec.ofNat 32 (n * 0x800000 + k * 0x1000)

/-- The blocks of the load `n`, with the places of the directory and of the table 14. -/
def blocksWith (n : Nat) (directory table : Ptr) : LoadBlocks where
  process := blockAt n 0
  task := blockAt n 1
  directory := directory
  tables := fun i => if i = 14 then table else blockAt n (4 + i)
  chunk := blockAt n 3

def blocksAt (n : Nat) : LoadBlocks := blocksWith n (blockAt n 2) (blockAt n 18)

def UnusedFrom (h : TaskHeap) (n : Nat) : Prop :=
  ∀ q : Ptr, n * 0x800000 ≤ q.toNat → h.blocks q = none

section Places

variable {h h' : TaskHeap} {n m k l a b c d : Nat}

theorem blockAt_toNat
    (hn : n < 256) (hk : k < 2048) :
    (blockAt n k).toNat = n * 0x800000 + k * 0x1000 := by
  rw [blockAt, BitVec.toNat_ofNat]
  omega

theorem blockAt_inj
    (hn : n < 256) (hk : k < 2048) (hm : m < 256) (hl : l < 2048)
    (heq : blockAt n k = blockAt m l) :
    n = m ∧ k = l := by
  have hnat := congrArg BitVec.toNat heq
  rw [blockAt_toNat hn hk, blockAt_toNat hm hl] at hnat
  omega

theorem blockAt_ne_zero
    (hn : 1 ≤ n) (hn' : n < 256) (hk : k < 2048) :
    blockAt n k ≠ 0 := by
  intro heq
  have hnat := congrArg BitVec.toNat heq
  rw [blockAt_toNat hn' hk] at hnat
  change _ = 0 at hnat
  omega

theorem blockAt_aligned
    (hn : n < 256) (hk : k < 2048) :
    PageAligned (blockAt n k) := by
  rw [PageAligned, blockAt_toNat hn hk, show pagingPageSize = 0x1000 from rfl]
  omega

/-- Blocks in different places. -/
theorem all_nodup_of_ne
    {mem : LoadBlocks} (htables : Function.Injective mem.tables)
    (hpages : ∀ i, mem.tables i ∉ [mem.directory, mem.chunk, mem.task, mem.process])
    (hrest : [mem.directory, mem.chunk, mem.task, mem.process].Nodup) :
    mem.all.Nodup := by
  have hall : mem.all = (List.finRange 1024).map mem.tables ++
      [mem.directory, mem.chunk, mem.task, mem.process] := by
    rw [LoadBlocks.all, LoadBlocks.pages, List.append_assoc]
    rfl
  rw [hall]
  refine List.nodup_append.mpr ⟨(List.nodup_finRange 1024).map htables, hrest, ?_⟩
  intro q hq r hr heq
  obtain ⟨i, -, rfl⟩ := List.mem_map.mp hq
  exact hpages i (heq ▸ hr)

theorem mem_blocksWith
    {directory table q : Ptr} (hq : q ∈ (blocksWith n directory table).all) :
    q = directory ∨ q = table ∨ ∃ k, k < 2048 ∧ q = blockAt n k := by
  rcases LoadBlocks.mem_all_iff.mp hq with hpage | rfl | rfl
  · rcases LoadBlocks.mem_pages_iff.mp hpage with ⟨i, rfl⟩ | rfl | rfl
    · by_cases hi : i = 14
      · exact Or.inr (Or.inl (if_pos hi))
      · exact Or.inr (Or.inr ⟨4 + i, by omega, if_neg hi⟩)
    · exact Or.inl rfl
    · exact Or.inr (Or.inr ⟨3, by omega, rfl⟩)
  · exact Or.inr (Or.inr ⟨1, by omega, rfl⟩)
  · exact Or.inr (Or.inr ⟨0, by omega, rfl⟩)

theorem blockAt_not_mem_blocksWith
    (hn : n < 256) (hm : m < 256) (hk : k < 2048) (ha : a < 256) (hb : b < 2048) (hc : c < 256)
    (hd : d < 2048) (hmn : m ≠ n) (hdirectory : m ≠ a ∨ k ≠ b) (htable : m ≠ c ∨ k ≠ d) :
    blockAt m k ∉ (blocksWith n (blockAt a b) (blockAt c d)).all := by
  intro hmem
  rcases mem_blocksWith hmem with heq | heq | ⟨l, hl, heq⟩
  · obtain ⟨hma, hkb⟩ := blockAt_inj hm hk ha hb heq
    omega
  · obtain ⟨hmc, hkd⟩ := blockAt_inj hm hk hc hd heq
    omega
  · exact hmn (blockAt_inj hm hk hn hl heq).1

theorem blocksWith_nodup
    (hn : n < 256) (ha : a < 256) (hb : b < 2048) (hc : c < 256) (hd : d < 2048)
    (hdirectory : a ≠ n ∨ b = 2) (htable : c ≠ n ∨ d = 18) (hne : a ≠ c ∨ b ≠ d) :
    (blocksWith n (blockAt a b) (blockAt c d)).all.Nodup := by
  have hapart {k : Nat} (hk : k < 2048) (hk18 : k ≠ 18) : blockAt c d ≠ blockAt n k := by
    intro heq
    obtain ⟨hcn, hdk⟩ := blockAt_inj hc hd hn hk heq
    omega
  have hapart' {k : Nat} (hk : k < 2048) (hk2 : k ≠ 2) : blockAt a b ≠ blockAt n k := by
    intro heq
    obtain ⟨han, hbk⟩ := blockAt_inj ha hb hn hk heq
    omega
  have hown {k l : Nat} (hk : k < 2048) (hl : l < 2048) (hkl : k ≠ l) :
      blockAt n k ≠ blockAt n l :=
    fun heq => hkl (blockAt_inj hn hk hn hl heq).2
  refine all_nodup_of_ne (fun i j heq => ?_) (fun i hmem => ?_) ?_
  · have hlt : 4 + i.val < 2048 := by omega
    have hlt' : 4 + j.val < 2048 := by omega
    change (if i = 14 then blockAt c d else blockAt n (4 + i)) =
      if j = 14 then blockAt c d else blockAt n (4 + j) at heq
    split_ifs at heq with hi hj hj
    · rw [hi, hj]
    · exact absurd heq (hapart hlt' fun h18 => hj (Fin.ext (Nat.add_left_cancel h18)))
    · exact absurd heq.symm (hapart hlt fun h18 => hi (Fin.ext (Nat.add_left_cancel h18)))
    · exact Fin.ext (Nat.add_left_cancel (blockAt_inj hn hlt hn hlt' heq).2)
  · have hlt : 4 + i.val < 2048 := by omega
    change (if i = 14 then blockAt c d else blockAt n (4 + i)) ∈
      [blockAt a b, blockAt n 3, blockAt n 1, blockAt n 0] at hmem
    simp only [List.mem_cons, List.not_mem_nil, or_false] at hmem
    split_ifs at hmem
    · rcases hmem with heq | heq | heq | heq
      · obtain ⟨hca, hdb⟩ := blockAt_inj hc hd ha hb heq
        omega
      · exact hapart (by decide) (by decide) heq
      · exact hapart (by decide) (by decide) heq
      · exact hapart (by decide) (by decide) heq
    · rcases hmem with heq | heq | heq | heq
      · exact hapart' hlt (by omega) heq.symm
      · exact hown hlt (by decide) (by omega) heq
      · exact hown hlt (by decide) (by omega) heq
      · exact hown hlt (by decide) (by omega) heq
  · change [blockAt a b, blockAt n 3, blockAt n 1, blockAt n 0].Nodup
    simp only [List.nodup_cons, List.mem_cons, List.not_mem_nil, or_false, not_or,
      not_false_eq_true, List.nodup_nil, and_true]
    exact ⟨⟨hapart' (by decide) (by decide), hapart' (by decide) (by decide),
      hapart' (by decide) (by decide)⟩, ⟨hown (by decide) (by decide) (by decide),
      hown (by decide) (by decide) (by decide)⟩, hown (by decide) (by decide) (by decide)⟩

theorem blocksWith_notNull
    (hn : 1 ≤ n) (hn' : n < 256) (ha : 1 ≤ a) (ha' : a < 256) (hb : b < 2048) (hc : 1 ≤ c)
    (hc' : c < 256) (hd : d < 2048) :
    0 ∉ (blocksWith n (blockAt a b) (blockAt c d)).all := by
  intro hmem
  rcases mem_blocksWith hmem with heq | heq | ⟨k, hk, heq⟩
  · exact blockAt_ne_zero ha ha' hb heq.symm
  · exact blockAt_ne_zero hc hc' hd heq.symm
  · exact blockAt_ne_zero hn hn' hk heq.symm

/-- The places of a load are not in use, with two places that others may have had. -/
theorem blocksWith_valid
    (hn : 1 ≤ n) (hn' : n < 256) (ha : 1 ≤ a) (ha' : a < 256) (hb : b < 2048) (hc : 1 ≤ c)
    (hc' : c < 256) (hd : d < 2048) (hdirectory : a ≠ n ∨ b = 2) (htable : c ≠ n ∨ d = 18)
    (hne : a ≠ c ∨ b ≠ d) (hunused : h.UnusedFrom n) (hab : h.blocks (blockAt a b) = none)
    (hcd : h.blocks (blockAt c d) = none) (outcome : Sched.LoadOutcome) :
    h.TableOpValid (.load (blocksWith n (blockAt a b) (blockAt c d)) outcome) := by
  have hnone {q : Ptr} (hq : q ∈ (blocksWith n (blockAt a b) (blockAt c d)).all) :
      h.blocks q = none := by
    rcases mem_blocksWith hq with rfl | rfl | ⟨k, hk, rfl⟩
    · exact hab
    · exact hcd
    · refine hunused _ ?_
      rw [blockAt_toNat hn' hk]
      omega
  refine ⟨hnone LoadBlocks.process_mem_all,
    blocksWith_nodup hn' ha' hb hc' hd hdirectory htable hne,
    blocksWith_notNull hn hn' ha ha' hb hc hc' hd, fun i => ?_, fun q hq _ => hnone hq⟩
  change PageAligned (if i = 14 then blockAt c d else blockAt n (4 + i))
  split_ifs
  · exact blockAt_aligned hc' hd
  · exact blockAt_aligned hn' (by omega)

theorem UnusedFrom.load
    (hunused : h.UnusedFrom n) (hn : n < 256) (ha : a ≤ n) (hb : b < 2048) (hc : c ≤ n)
    (hd : d < 2048)
    (hothers : ∀ q, q ∉ (blocksWith n (blockAt a b) (blockAt c d)).all → h'.shape q = h.shape q) :
    h'.UnusedFrom (n + 1) := by
  intro q hq
  have hle : n * 0x800000 ≤ q.toNat := Nat.le_trans (Nat.mul_le_mul_right _ (Nat.le_succ n)) hq
  have hmem : q ∉ (blocksWith n (blockAt a b) (blockAt c d)).all := by
    intro hmem
    rcases mem_blocksWith hmem with rfl | rfl | ⟨k, hk, rfl⟩
    · rw [blockAt_toNat (by omega) hb] at hq
      omega
    · rw [blockAt_toNat (by omega) hd] at hq
      omega
    · rw [blockAt_toNat hn hk] at hq
      omega
  rw [← shape_eq_none, hothers q hmem, shape_eq_none]
  exact hunused q hle

theorem UnusedFrom.terminate
    {ps : List Ptr} (hunused : h.UnusedFrom n)
    (hshape : ∀ q, h'.shape q = if q ∈ ps then none else h.shape q) :
    h'.UnusedFrom n := by
  intro q hq
  rw [← shape_eq_none, hshape, shape_eq_none.mpr (hunused q hq), ite_self]

end Places

section Runs

variable {h : TaskHeap} {s' : Sched} {mem : LoadBlocks} {loads : Nat → LoadBlocks} {slot : Nat}

theorem exists_load
    (htab : h.Tabulates loads) (hvalid : h.TableOpValid (.load mem .mapped))
    (hslot : h.toSched.processGetFreeSlot = some slot)
    (hs : h.toSched.tableApply (.load mem .mapped) = .ok s') :
    ∃ h', Guarded TableOpOk TableStep h (.load mem .mapped) h' ∧ h'.toSched = s' ∧
      h'.Tabulates (Function.update loads slot mem) ∧
      ∀ q, q ∉ mem.all → h'.shape q = h.shape q := by
  obtain ⟨hok, h', heq, hsched⟩ := htab.tableApply_toSched hvalid hs
  have htail : h.TailOk mem := hok (by rw [hslot]; exact Option.some_ne_none slot) (by decide)
  obtain ⟨h'', heq', htab', -, hothers⟩ := htab.load hslot hvalid.1 hvalid.2 htail
  have happly : h.tableApply (.load mem .mapped) = .ok h'' := by
    rw [TaskHeap.tableApply, heq']
    rfl
  rw [heq] at happly
  obtain rfl := Except.ok.inj happly
  exact ⟨h', ⟨hok, hvalid, heq⟩, hsched, htab', hothers⟩

theorem exists_loadAt
    (htab : h.Tabulates loads) {n : Nat} (hn : 1 ≤ n) (hn' : n < 256) (hunused : h.UnusedFrom n)
    (hslot : h.toSched.processGetFreeSlot = some slot)
    (hs : h.toSched.tableApply (.load (blocksAt n) .mapped) = .ok s') :
    ∃ h', Guarded TableOpOk TableStep h (.load (blocksAt n) .mapped) h' ∧ h'.toSched = s' ∧
      h'.Tabulates (Function.update loads slot (blocksAt n)) ∧ h'.UnusedFrom (n + 1) := by
  have hplace {k : Nat} (hk : k < 2048) : h.blocks (blockAt n k) = none :=
    hunused _ (by rw [blockAt_toNat hn' hk]; omega)
  have hvalid : h.TableOpValid (.load (blocksAt n) .mapped) :=
    blocksWith_valid hn hn' hn hn' (by decide) hn hn' (by decide) (Or.inr rfl) (Or.inr rfl)
      (Or.inr (by decide)) hunused (hplace (by decide)) (hplace (by decide)) .mapped
  obtain ⟨h', hstep, hsched, htab', hothers⟩ := exists_load htab hvalid hslot hs
  exact ⟨h', hstep, hsched, htab',
    hunused.load hn' (Nat.le_refl n) (by decide) (Nat.le_refl n) (by decide) hothers⟩

theorem exists_terminate
    (htab : h.Tabulates loads) {i : Nat} (hi : h.Occupied i)
    (hs : h.toSched.tableApply (.terminate (loads i).process) = .ok s') :
    ∃ h', Guarded TableOpOk TableStep h (.terminate (loads i).process) h' ∧ h'.toSched = s' ∧
      h'.Tabulates loads ∧
      ∀ q, h'.shape q = if q ∈ (loads i).all then none else h.shape q := by
  have hvalid : h.TableOpValid (.terminate (loads i).process) := ⟨_, (htab.held i hi).process⟩
  obtain ⟨hok, h', heq, hsched⟩ := htab.tableApply_toSched hvalid hs
  obtain ⟨record, hrecord⟩ := (htab.held i hi).exists_record
  rcases htab.terminate hi hrecord fun hother h0 =>
    hok _ record (htab.held i hi).process hother hrecord h0 with hpanic | ⟨h'', heq', hrest⟩
  · rw [show h.processTerminate (loads i).process = .ok h' from heq] at hpanic
    cases hpanic
  · rw [show h.processTerminate (loads i).process = .ok h' from heq] at heq'
    obtain rfl := Except.ok.inj heq'
    exact ⟨h', ⟨hok, hvalid, heq⟩, hsched, hrest⟩

end Runs

theorem Occupied.of_toSched
    {h : TaskHeap} {s : Sched} (hs : h.toSched = s) {i : Nat} (hi : i < maxProcesses)
    (hne : s.processes i ≠ 0) :
    h.Occupied i :=
  ⟨hi, by rw [← hs] at hne; exact hne⟩

def schedAfter (ops : List TableOp) : Sched := ops.foldl (after Sched.tableApply) Sched.empty

/-- Three processes; the first one is terminated. -/
def firstTerminated : List TableOp :=
  [.load (blocksAt 1) .mapped, .load (blocksAt 2) .mapped, .load (blocksAt 3) .mapped,
    .terminate (blockAt 1 0)]

def threeLoads : Nat → LoadBlocks :=
  Function.update (Function.update (Function.update (fun _ => blocksAt 0) 0 (blocksAt 1)) 1
    (blocksAt 2)) 2 (blocksAt 3)

theorem exists_firstTerminated :
    ∃ h, Run (Guarded TableOpOk TableStep) TaskHeap.empty firstTerminated h ∧
      h.toSched = schedAfter firstTerminated ∧ h.Tabulates threeLoads ∧ h.UnusedFrom 4 ∧
      h.blocks (blockAt 1 1) = none := by
  obtain ⟨h₁, hstep₁, hsched₁, htab₁, hunused₁⟩ :=
    exists_loadAt (.empty fun _ => blocksAt 0) (by decide) (by decide) (fun _ _ => rfl)
      (show TaskHeap.empty.toSched.processGetFreeSlot = some 0 from rfl)
      (@apply_after _ _ _ Sched.tableApply Sched.empty (.load (blocksAt 1) .mapped) rfl)
  obtain ⟨h₂, hstep₂, hsched₂, htab₂, hunused₂⟩ :=
    exists_loadAt htab₁ (by decide) (by decide) hunused₁
      (show h₁.toSched.processGetFreeSlot = some 1 by rw [hsched₁]; rfl)
      (apply_after (by rw [hsched₁]; rfl))
  obtain ⟨h₃, hstep₃, hsched₃, htab₃, hunused₃⟩ :=
    exists_loadAt htab₂ (by decide) (by decide) hunused₂
      (show h₂.toSched.processGetFreeSlot = some 2 by rw [hsched₂, hsched₁]; rfl)
      (apply_after (by rw [hsched₂, hsched₁]; rfl))
  have hsched : h₃.toSched = schedAfter (firstTerminated.take 3) := by
    rw [hsched₃, hsched₂, hsched₁]
    rfl
  have hfirst : h₃.Occupied 0 := .of_toSched hsched (by decide) (by decide)
  obtain ⟨h₄, hstep₄, hsched₄, htab₄, hshape⟩ :=
    exists_terminate htab₃ hfirst (apply_after (by rw [hsched]; rfl))
  refine ⟨h₄, .cons hstep₁ (.cons hstep₂ (.cons hstep₃ (.cons hstep₄ (.nil h₄)))), ?_, htab₄,
    hunused₃.terminate hshape, ?_⟩
  · rw [hsched₄, hsched]
    rfl
  · rw [← shape_eq_none, hshape]
    exact if_pos LoadBlocks.task_mem_all

/-- The second task is linked to the first one, whose block is free. -/
theorem tableRun_safe_secondTerminated :
    ∃ h, Run (Guarded TableOpOk TableStep) TaskHeap.empty
      (firstTerminated ++ [.terminate (blockAt 2 0)]) h ∧ h.toSched.TableSafe := by
  obtain ⟨h, hrun, hsched, htab, -, hfree⟩ := exists_firstTerminated
  have hsecond : h.Occupied 1 := .of_toSched hsched (by decide) (by decide)
  have hheld := htab.held 1 hsecond
  have hrecord : h.blocks (blockAt 2 1) =
      some (.task ⟨blockAt 2 3, blockAt 2 0, blockAt 3 1, blockAt 1 1⟩) :=
    blocks_of_task (by rw [hsched]; rfl)
  rcases processTerminate_cases htab.current hsecond (htab.process 1 hsecond).symm hheld
    hrecord with ⟨-, hnone⟩ | ⟨-, h', heq, -⟩
  · have hthird : h.toSched.processes 2 = 0 := hnone 2 (by decide) (by decide)
    rw [hsched] at hthird
    exact absurd hthird (by decide)
  · have hok : h.TableOpOk (.terminate (blockAt 2 0)) := by
      intro link record hlink _ htask _ entries hentries
      obtain rfl := Block.process.inj (Option.some.inj (hheld.process.symm.trans hlink))
      obtain rfl := Block.task.inj (Option.some.inj (hrecord.symm.trans htask))
      rw [hfree] at hentries
      cases hentries
    have hrun' := hrun.append (.cons ⟨hok, ⟨_, hheld.process⟩, heq⟩ (.nil h'))
    exact ⟨h', hrun', (tableRun_safe hrun').1⟩

/-- A process whose directory is the block of the first task. -/
def reused : LoadBlocks := blocksWith 4 (blockAt 1 1) (blockAt 4 18)

/-- The pages to which the directory of that process leads in the end. -/
def redirected : LoadBlocks := blocksWith 4 (blockAt 1 1) (blockAt 3 1)

/-- A process of which a table is the block of the third task. -/
def overlaid : LoadBlocks := blocksWith 5 (blockAt 5 2) (blockAt 3 1)

section Reused

variable {h h' : TaskHeap} {record : Task} {q : Ptr}

theorem relink_directory
    {entries : Fin 1024 → Word} (h0 : record.prev ≠ 0)
    (hprev : h.blocks record.prev = some (.directory entries)) :
    (h.relink record).blocks q =
      if q = record.prev then
        some (.directory fun i => if i = 14 then record.next else entries i)
      else h.blocks q := by
  rw [relink, if_pos h0, storeNext, hprev]
  rfl

/-- The fourth process is loaded where the first task was. -/
theorem exists_reused :
    ∃ h, Run TableStep TaskHeap.empty (firstTerminated ++ [.load reused .mapped]) h ∧
      h.toSched = schedAfter (firstTerminated ++ [.load reused .mapped]) ∧
      h.Tabulates (Function.update threeLoads 0 reused) ∧ h.UnusedFrom 5 := by
  obtain ⟨h, hrun, hsched, htab, hunused, hfree⟩ := exists_firstTerminated
  have hvalid : h.TableOpValid (.load reused .mapped) := by
    refine blocksWith_valid (by decide) (by decide) (by decide) (by decide) (by decide) (by decide)
      (by decide) (by decide) (Or.inl (by decide)) (Or.inr rfl) (Or.inl (by decide)) hunused hfree
      (hunused _ ?_) .mapped
    rw [blockAt_toNat (by decide) (by decide)]
    decide
  obtain ⟨h', hstep, hsched', htab', hothers⟩ :=
    exists_load htab hvalid (show h.toSched.processGetFreeSlot = some 0 by rw [hsched]; rfl)
      (apply_after (by rw [hsched]; rfl))
  refine ⟨h', (hrun.append (.cons hstep (.nil h'))).mono fun _ _ _ hguarded => hguarded.2, ?_,
    htab', hunused.load (by decide) (by decide) (by decide) (Nat.le_refl 4) (by decide) hothers⟩
  rw [hsched', hsched]
  rfl

/-- The `next` of the second task is stored in the directory of the fourth process. -/
theorem exists_stored
    (hsched : h.toSched = schedAfter (firstTerminated ++ [.load reused .mapped]))
    (htab : h.Tabulates (Function.update threeLoads 0 reused)) {entries : Fin 1024 → Word}
    (hentries : h.blocks (blockAt 1 1) = some (.directory entries)) :
    ∃ h', h.processTerminate (blockAt 2 0) = .ok h' ∧
      (∀ q, h'.blocks q =
        if q ∈ (blocksAt 2).all then none
        else if q = blockAt 1 1 then
          some (.directory fun i => if i = 14 then blockAt 3 1 else entries i)
        else h.blocks q) ∧
      h'.taskTail = h.taskTail ∧ (∀ j, h'.processes j = if j = 1 then 0 else h.processes j) ∧
      ∃ j, j < maxProcesses ∧ h'.processes j = h'.currentProcess ∧ h'.currentProcess ≠ 0 := by
  have hfirst : h.Occupied 0 := .of_toSched hsched (by decide) (by decide)
  have hsecond : h.Occupied 1 := .of_toSched hsched (by decide) (by decide)
  let record : Task := ⟨blockAt 2 3, blockAt 2 0, blockAt 3 1, blockAt 1 1⟩
  have hrecord : h.blocks (blockAt 2 1) = some (.task record) :=
    blocks_of_task (by rw [hsched]; rfl)
  have hdirectory : blockAt 1 1 ∉ (blocksAt 2).all := by
    intro hmem
    have hown : blockAt 1 1 ∈ reused.all :=
      LoadBlocks.mem_all_of_mem_pages LoadBlocks.directory_mem_pages
    exact absurd (htab.apart 0 1 _ hfirst hsecond hown hmem) (by decide)
  have hheld : h.Holds (blocksAt 2) 1 := htab.held 1 hsecond
  have hat : h.processes 1 = (blocksAt 2).process := (htab.process 1 hsecond).symm
  rcases processTerminate_cases htab.current hsecond hat hheld hrecord with
    ⟨-, hnone⟩ | ⟨h₁, h', heq, herased, hblocks, htail, hprocesses, hlisted⟩
  · exact absurd (hnone 0 (by decide) (by decide)) hfirst.2
  refine ⟨h', heq, fun q => ?_, ?_, fun j => ?_, ?_⟩
  · have hprev : (h₁.setAll (blocksAt 2).pages none).blocks record.prev =
        some (.directory entries) := by
      change (h₁.setAll (blocksAt 2).pages none).blocks (blockAt 1 1) = _
      rw [setAll_blocks, if_neg fun hpage => hdirectory (LoadBlocks.mem_all_of_mem_pages hpage),
        hblocks, hentries]
    refine (herased.blocks q).trans (if_ctx_congr Iff.rfl (fun _ => rfl) fun hq => ?_)
    have h0 : record.prev ≠ 0 := blockAt_ne_zero (by decide) (by decide) (by decide)
    rw [relink_directory h0 hprev]
    refine if_congr Iff.rfl rfl ?_
    rw [setAll_blocks, if_neg fun hpage => hq (LoadBlocks.mem_all_of_mem_pages hpage), hblocks]
  · rw [herased.taskTail, htail, if_neg]
    rw [show h.taskTail = blockAt 4 1 from (congrArg Sched.taskTail hsched).trans rfl]
    decide
  · rw [herased.processes, hprocesses]
  · rw [herased.processes, herased.currentProcess]
    exact hlisted

/-- The blocks of the fourth process, with what its directory leads to then. -/
theorem redirected_holds
    {entries : Fin 1024 → Word} (hheld : h.Holds reused 0)
    (hmask : ∀ i, entries i &&& 0xfffff000 = reused.tables i)
    (hstored : h'.blocks (blockAt 1 1) =
      some (.directory fun i => if i = 14 then blockAt 3 1 else entries i))
    (hkept : ∀ q, q ∈ reused.all → q ≠ blockAt 1 1 → h'.blocks q = h.blocks q)
    (hlive : h'.blocks (blockAt 3 1) ≠ none) :
    h'.Holds redirected 0 := by
  have hne {k : Nat} (hk : k < 2048) : blockAt 4 k ≠ blockAt 1 1 := fun heq =>
    absurd (blockAt_inj (by decide) hk (by decide) (by decide) heq).1 (by decide)
  have hpage {q : Ptr} (hq : q ∈ reused.pages) : q ∈ reused.all :=
    LoadBlocks.mem_all_of_mem_pages hq
  have hprocess : h'.blocks (blockAt 4 0) = h.blocks (blockAt 4 0) :=
    hkept _ LoadBlocks.process_mem_all (hne (by decide))
  have htask : h'.blocks (blockAt 4 1) = h.blocks (blockAt 4 1) :=
    hkept _ LoadBlocks.task_mem_all (hne (by decide))
  have hchunk : h'.blocks (blockAt 4 3) = h.blocks (blockAt 4 3) :=
    hkept _ (hpage LoadBlocks.chunk_mem_pages) (hne (by decide))
  refine ⟨?_, ?_, hprocess.trans hheld.process, (shape_of_blocks htask).trans hheld.task,
    hchunk.trans hheld.pages.chunk, ⟨_, hstored, fun i => ?_⟩, fun i => ?_⟩
  · exact blocksWith_nodup (by decide) (by decide) (by decide) (by decide) (by decide)
      (Or.inl (by decide)) (Or.inl (by decide)) (Or.inl (by decide))
  · exact blocksWith_notNull (by decide) (by decide) (by decide) (by decide) (by decide) (by decide)
      (by decide) (by decide)
  · change (if i = 14 then blockAt 3 1 else entries i) &&& 0xfffff000 =
      if i = 14 then blockAt 3 1 else blockAt 4 (4 + i)
    split_ifs with hi
    · decide
    · exact (hmask i).trans (if_neg hi)
  · change h'.blocks (if i = 14 then blockAt 3 1 else blockAt 4 (4 + i)) ≠ none
    split_ifs with hi
    · exact hlive
    · have hmem : blockAt 4 (4 + i) ∈ reused.pages :=
        LoadBlocks.mem_pages_iff.mpr (Or.inl ⟨i, if_neg hi⟩)
      rw [hkept _ (hpage hmem) (hne (by omega))]
      exact hheld.live (hpage hmem)

/-- The directory of the fourth process leads to the third task. -/
theorem exists_redirected :
    ∃ h, Run TableStep TaskHeap.empty
        (firstTerminated ++ [.load reused .mapped, .terminate (blockAt 2 0)]) h ∧
      h.Holds redirected 0 ∧
      h.blocks (blockAt 4 1) = some (.task ⟨blockAt 4 3, blockAt 4 0, 0, blockAt 3 1⟩) ∧
      h.blocks (blockAt 3 0) = some (.process ⟨2, blockAt 3 1⟩) ∧ h.NotDirectory (blockAt 3 1) ∧
      h.UnusedFrom 5 ∧ h.taskTail = blockAt 4 1 ∧ h.processes 0 = blockAt 4 0 ∧
      h.processes 2 ≠ 0 ∧
      ∃ j, j < maxProcesses ∧ h.processes j = h.currentProcess ∧ h.currentProcess ≠ 0 := by
  obtain ⟨h, hrun, hsched, htab, hunused⟩ := exists_reused
  have hfirst : h.Occupied 0 := .of_toSched hsched (by decide) (by decide)
  have hsecond : h.Occupied 1 := .of_toSched hsched (by decide) (by decide)
  have hthird : h.Occupied 2 := .of_toSched hsched (by decide) (by decide)
  have hheld : h.Holds reused 0 := htab.held 0 hfirst
  have hheld₂ : h.Holds (blocksAt 2) 1 := htab.held 1 hsecond
  have hheld₃ : h.Holds (blocksAt 3) 2 := htab.held 2 hthird
  obtain ⟨entries, hentries, hmask⟩ := hheld.pages.directory
  obtain ⟨h', heq, hblocks, htail, hprocesses, hlisted⟩ := exists_stored hsched htab hentries
  have hdirectory : blockAt 1 1 ∈ reused.all :=
    LoadBlocks.mem_all_of_mem_pages LoadBlocks.directory_mem_pages
  have hfourth (q : Ptr) (hq : q ∈ reused.all) : q ∉ (blocksAt 2).all := fun hmem =>
    absurd (htab.apart 0 1 q hfirst hsecond hq hmem) (by decide)
  have hkept (q : Ptr) (hq : q ∈ reused.all) (hne : q ≠ blockAt 1 1) :
      h'.blocks q = h.blocks q := by
    rw [hblocks, if_neg (hfourth q hq), if_neg hne]
  have hkept₃ (q : Ptr) (hq : q ∈ (blocksAt 3).all) : h'.blocks q = h.blocks q := by
    have hne : q ≠ blockAt 1 1 := by
      rintro rfl
      exact absurd (htab.apart 0 2 _ hfirst hthird hdirectory hq) (by decide)
    have hother : q ∉ (blocksAt 2).all := fun hmem =>
      absurd (htab.apart 2 1 q hthird hsecond hq hmem) (by decide)
    rw [hblocks, if_neg hother, if_neg hne]
  have hne {k : Nat} (hk : k < 2048) : blockAt 4 k ≠ blockAt 1 1 := fun heq =>
    absurd (blockAt_inj (by decide) hk (by decide) (by decide) heq).1 (by decide)
  have hlost : h'.blocks (blockAt 3 1) =
      some (.task ⟨blockAt 3 3, blockAt 3 0, blockAt 4 1, blockAt 2 1⟩) := by
    refine (hkept₃ (blockAt 3 1) LoadBlocks.task_mem_all).trans ?_
    exact blocks_of_task (by rw [hsched]; rfl)
  refine ⟨h', hrun.append (.cons ⟨⟨_, hheld₂.process⟩, heq⟩ (.nil h')),
    redirected_holds hheld hmask ?_ hkept ?_, ?_, ?_, ?_, ?_, ?_, ?_, ?_, hlisted⟩
  · rw [hblocks, if_neg (hfourth _ hdirectory), if_pos rfl]
  · rw [hlost]
    exact Option.some_ne_none _
  · refine (hkept (blockAt 4 1) LoadBlocks.task_mem_all (hne (by decide))).trans ?_
    exact blocks_of_task (by rw [hsched]; rfl)
  · exact (hkept₃ (blockAt 3 0) LoadBlocks.process_mem_all).trans
      hheld₃.process
  · intro entries' hentries'
    rw [hlost] at hentries'
    cases hentries'
  · intro q hq
    have hq₁ : q ≠ blockAt 1 1 := by
      rintro rfl
      rw [blockAt_toNat (by decide) (by decide)] at hq
      exact absurd hq (by decide)
    rw [hblocks, if_neg hq₁, hunused q hq, ite_self]
  · exact htail.trans ((congrArg Sched.taskTail hsched).trans rfl)
  · exact (hprocesses 0).trans ((congrArg (Sched.processes · 0) hsched).trans rfl)
  · rw [hprocesses]
    exact hthird.2

/-- The third task is freed with the fourth process. -/
theorem exists_lost :
    ∃ h, Run TableStep TaskHeap.empty
        (firstTerminated ++ [.load reused .mapped, .terminate (blockAt 2 0),
          .terminate (blockAt 4 0)]) h ∧
      h.UnusedFrom 5 ∧ h.blocks (blockAt 3 1) = none ∧ h.taskTail = blockAt 3 1 ∧
      h.processes 0 = 0 ∧ h.blocks (blockAt 3 0) = some (.process ⟨2, blockAt 3 1⟩) := by
  obtain ⟨h, hrun, hheld, hrecord, hprocess, hnot, hunused, htail, hat, hthird, hlisted⟩ :=
    exists_redirected
  have hfirst : h.Occupied 0 :=
    ⟨by decide, hat.trans_ne (blockAt_ne_zero (by decide) (by decide) (by decide))⟩
  rcases processTerminate_cases (fun _ => hlisted) hfirst hat hheld hrecord with
    ⟨-, hnone⟩ | ⟨h₁, h', heq, herased, hblocks, htail₁, hprocesses, -⟩
  · exact absurd (hnone 2 (by decide) (by decide)) hthird
  have hshape (q : Ptr) : h'.shape q = if q ∈ redirected.all then none else h.shape q := by
    rw [herased.shape fun _ => by rw [NotDirectory, hblocks]; exact hnot]
    exact if_congr Iff.rfl rfl (shape_of_blocks (congrFun hblocks q))
  refine ⟨h', ?_, hunused.terminate hshape, ?_, ?_, ?_, ?_⟩
  · exact hrun.append (.cons ⟨⟨_, hheld.process⟩, heq⟩ (.nil h'))
  · rw [← shape_eq_none, hshape]
    exact if_pos (LoadBlocks.mem_all_of_mem_pages (LoadBlocks.table_mem_pages 14))
  · rw [herased.taskTail, htail₁, htail]
    exact if_pos rfl
  · rw [herased.processes, hprocesses, if_pos rfl]
  · have hmem : blockAt 3 0 ∉ redirected.all :=
      blockAt_not_mem_blocksWith (by decide) (by decide) (by decide) (by decide) (by decide)
        (by decide) (by decide) (by decide) (Or.inl (by decide)) (Or.inr (by decide))
    refine blocks_of_shape (by intro _ hb; cases hb) ?_
    rw [hshape, if_neg hmem, shape_of_process hprocess]

end Reused

/-- The third process is in the table, and the block of its task is a page table. -/
theorem alwaysTabled_false : ¬ AlwaysTabled := by
  intro halways
  obtain ⟨h, hrun, hunused, hlost, htail, hzero, hprocess⟩ := exists_lost
  have hvalid : h.TableOpValid (.load overlaid .mapped) := by
    refine blocksWith_valid (by decide) (by decide) (by decide) (by decide) (by decide) (by decide)
      (by decide) (by decide) (Or.inr rfl) (Or.inl (by decide)) (Or.inl (by decide)) hunused
      (hunused _ ?_) hlost .mapped
    rw [blockAt_toNat (by decide) (by decide)]
    decide
  have htailOk : h.TailOk overlaid := by
    intro _
    rw [htail]
    refine ⟨fun heq => ?_, fun entries hentries => ?_⟩
    · exact absurd (blockAt_inj (by decide) (by decide) (by decide) (by decide) heq).1 (by decide)
    · rw [hlost] at hentries
      cases hentries
  obtain ⟨slot, hslot⟩ : ∃ slot, h.toSched.processGetFreeSlot = some slot := by
    refine Option.ne_none_iff_exists'.mp fun hfull => ?_
    have hfree := List.find?_eq_none.mp hfull 0 (List.mem_range.mpr (by decide))
    exact hfree (decide_eq_true hzero)
  obtain ⟨h₁, h', hloaded, heq, hresult⟩ := processLoadSwitch_mapped hslot hvalid.2 htailOk
  have happly : h.tableApply (.load overlaid .mapped) = .ok h' := by
    rw [tableApply, heq]
    rfl
  have hblocks : h'.blocks = h₁.blocks := by rw [hresult]
  have hmem : blockAt 3 0 ∉ overlaid.all :=
    blockAt_not_mem_blocksWith (by decide) (by decide) (by decide) (by decide) (by decide)
      (by decide) (by decide) (by decide) (Or.inl (by decide)) (Or.inr (by decide))
  have hlink : h'.blocks (blockAt 3 0) = some (.process ⟨2, blockAt 3 1⟩) := by
    rw [hblocks]
    exact blocks_congr (by intro _ hb; cases hb) (hloaded.others _ hmem) hprocess
  have htable : h'.blocks (blockAt 3 1) = some .table := by
    rw [hblocks]
    exact hloaded.tables 14
  have hsafe := (halways _ h' (hrun.append (.cons ⟨hvalid, happly⟩ (.nil h')))).1
  have htask := hsafe.task (blockAt 3 0) ⟨2, blockAt 3 1⟩
    (congrArg (Option.bind · Block.process?) hlink)
  rw [Sched.processOf, show h'.toSched.tasks (blockAt 3 1) = none from
    congrArg (Option.bind · Block.task?) htable] at htask
  cases htask

end TaskHeap
end PeachOS
