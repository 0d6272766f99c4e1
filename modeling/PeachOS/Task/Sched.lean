import PeachOS.Config

/-!
# Tasks and the processes they run

The task list of `task.c` and the process table of `process.c`, with the
fields that link them.  The memory that a process owns is modelled apart:
where the source frees or maps some of it, nothing happens here.  Pointers
lead to records through `tasks` and `procs`, and following one that leads to
no record is a fault.
-/

namespace PeachOS

structure Task where
  pageDirectory : Ptr
  process : Ptr
  next : Ptr
  prev : Ptr
deriving DecidableEq

/-- The fields of `struct process` that its task and its slot are found by. -/
structure ProcessLink where
  id : Nat
  task : Ptr
deriving DecidableEq

@[ext]
structure Sched where
  tasks : Ptr → Option Task
  procs : Ptr → Option ProcessLink
  taskHead : Ptr
  taskTail : Ptr
  currentTask : Ptr
  processes : Nat → Ptr
  currentProcess : Ptr

/-- The kernel before the first process is loaded. -/
def Sched.empty : Sched where
  tasks := fun _ => none
  procs := fun _ => none
  taskHead := 0
  taskTail := 0
  currentTask := 0
  processes := fun _ => 0
  currentProcess := 0

namespace Sched

def task (s : Sched) (p : Ptr) : Except Halt Task :=
  match s.tasks p with
  | some task => .ok task
  | none => .error .fault

def proc (s : Sched) (p : Ptr) : Except Halt ProcessLink :=
  match s.procs p with
  | some link => .ok link
  | none => .error .fault

def setTask (s : Sched) (p : Ptr) (task : Option Task) : Sched :=
  { s with tasks := fun q => if q = p then task else s.tasks q }

def setProc (s : Sched) (p : Ptr) (link : Option ProcessLink) : Sched :=
  { s with procs := fun q => if q = p then link else s.procs q }

def taskGetNext (s : Sched) : Except Halt Ptr := do
  let current ← s.task s.currentTask
  if current.next = 0 then
    pure s.taskHead
  else
    pure current.next

def taskListRemove (s : Sched) (task : Ptr) : Except Halt Sched := do
  let record ← s.task task
  let s ← if record.prev ≠ 0 then do
      let prev ← s.task record.prev
      pure (s.setTask record.prev (some { prev with next := record.next }))
    else
      pure s
  -- at the head the source compares the head with the next task and stores nothing
  let s := if task = s.taskTail then { s with taskTail := record.prev } else s
  if task = s.currentTask then do
    let next ← s.taskGetNext
    pure { s with currentTask := next }
  else
    pure s

def taskFree (s : Sched) (task : Ptr) : Except Halt Sched := do
  let s ← s.taskListRemove task
  pure (s.setTask task none)

/-- `task` is what `kzalloc` returns; `task_init` fills the record in.  Without
memory the null pointer goes to `task_free`. -/
def taskNew (s : Sched) (task process pageDirectory : Ptr) : Except Halt (Ptr × Sched) :=
  if task = 0 then do
    let s ← s.taskFree task
    pure (BitVec.ofInt 32 (-enomem), s)
  else do
    let s := s.setTask task (some ⟨pageDirectory, process, 0, 0⟩)
    if s.taskHead = 0 then
      pure (task, { s with taskHead := task, taskTail := task, currentTask := task })
    else
      let tail ← s.task s.taskTail
      let s := s.setTask s.taskTail (some { tail with next := task })
      let new ← s.task task
      let s := s.setTask task (some { new with prev := s.taskTail })
      pure (task, { s with taskTail := task })

/-- The switch follows the task to its page directory. -/
def taskSwitch (s : Sched) (task : Ptr) : Except Halt Sched := do
  let s := { s with currentTask := task }
  let _pageDirectory ← s.task task
  pure s

def taskNext (s : Sched) : Except Halt Sched := do
  let next ← s.taskGetNext
  if next = 0 then
    .error .panic
  else
    s.taskSwitch next

/-- The first slot of the table with a property. -/
def findSlot (p : Nat → Bool) : Option Nat :=
  (List.range maxProcesses).find? p

def processGetFreeSlot (s : Sched) : Option Nat :=
  findSlot fun i => s.processes i = 0

def processSwitchToAny (s : Sched) : Except Halt Sched :=
  match findSlot fun i => s.processes i ≠ 0 with
  | some i => .ok { s with currentProcess := s.processes i }
  | none => .error .panic

def processUnlink (s : Sched) (process : Ptr) : Except Halt Sched := do
  let link ← s.proc process
  let s := { s with processes := fun i => if i = link.id then 0 else s.processes i }
  if s.currentProcess = process then
    s.processSwitchToAny
  else
    pure s

def processFreeProcess (s : Sched) (process : Ptr) : Except Halt Sched := do
  let link ← s.proc process
  let s ← if link.task ≠ 0 then s.taskFree link.task else pure s
  pure (s.setProc process none)

def processTerminate (s : Sched) (process : Ptr) : Except Halt Sched := do
  let s ← s.processUnlink process
  s.processFreeProcess process

/-- What `kzalloc` and `paging_new_4gb` return during a load. -/
structure LoadMemory where
  process : Ptr
  task : Ptr
  pageDirectory : Ptr

/-- How far a load comes beside the tasks: it may find no file or no memory for
it, or a program that cannot be mapped. -/
inductive LoadOutcome where
  | noProgram
  | notMapped
  | mapped
deriving DecidableEq

/-- The status is returned as well. -/
def processLoadSwitch (s : Sched) (mem : LoadMemory) (outcome : LoadOutcome) :
    Except Halt (Int × Sched) :=
  match s.processGetFreeSlot with
  | none => .ok (-eistkn, s)
  | some slot =>
      if mem.process = 0 then
        .ok (-enomem, s)
      else do
        let s := s.setProc mem.process (some ⟨slot, 0⟩)
        if outcome = .noProgram then
          let s ← s.processFreeProcess mem.process
          pure (-eio, s)
        else
          let (task, s) ← s.taskNew mem.task mem.process mem.pageDirectory
          let s := s.setProc mem.process (some ⟨slot, task⟩)
          if outcome = .notMapped then
            let s ← s.processFreeProcess mem.process
            pure (-einvarg, s)
          else
            pure (0,
              { s with
                processes := fun i => if i = slot then mem.process else s.processes i
                currentProcess := mem.process })

inductive Op where
  /-- A load that the caller goes on after. -/
  | load (mem : LoadMemory) (outcome : LoadOutcome)
  /-- The system calls 6 and 7: the new process runs next. -/
  | loadStart (mem : LoadMemory) (outcome : LoadOutcome)
  /-- The system call 9, or an exception of the running process. -/
  | exit
  | tick

def isr80hCommand9Exit (s : Sched) : Except Halt Sched := do
  let current ← s.task s.currentTask
  let s ← s.processTerminate current.process
  s.taskNext

/-- The handler of interrupts saves the state of the current task before it
calls `idt_clock`. -/
def idtClock (s : Sched) : Except Halt Sched :=
  if s.currentTask = 0 then
    .error .panic
  else
    s.taskNext

def apply (s : Sched) : Op → Except Halt Sched
  | .load mem outcome => do
      let (_, s) ← s.processLoadSwitch mem outcome
      pure s
  | .loadStart mem outcome => do
      let (res, s) ← s.processLoadSwitch mem outcome
      if res < 0 then
        pure s
      else
        let link ← s.proc mem.process
        s.taskSwitch link.task
  | .exit => s.isr80hCommand9Exit
  | .tick => s.idtClock

end Sched

end PeachOS
