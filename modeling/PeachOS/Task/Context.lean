import PeachOS.Lib.Run
import PeachOS.Task.Switch
import PeachOS.Task.TaskCalls

/-!
# Context switches

Tasks run in user mode and are interrupted.  What the compiler makes of the C
code between the assembly is left open: it may use every register, its part of
the stack and all memory but the saved registers of the tasks and the frame
that it is called with.  `last` remembers for each task the frame of its last
interruption, or what `task_init` gave it; no step reads it.
-/

namespace PeachOS

open Lib Lib.Machine

/-- What `interrupt_callbacks` holds: `idt_clock`, or a callback that returns. -/
inductive Callback where
  | clock
  | returns
deriving DecidableEq

structure Context where
  sched : Sched
  cpu : Machine
  user : Bool
  last : Ptr → Field → Word

namespace Context

inductive Event where
  /-- `task_new`, before the first task runs. -/
  | create (task process pageDirectory : Ptr) (entry : Option Word)
  /-- `task_run_first_ever_task`. -/
  | start
  /-- The running task executes. -/
  | user
  | interrupt (n : Word)

def InHeap (task : Ptr) : Prop :=
  heapAddress ≤ task.toNat ∧ task.toNat + heapBlockSize ≤ heapAddress + heapSizeBytes ∧
    task.toNat % heapBlockSize = 0

def KeepsTasks (s : Sched) (mem mem' : Memory) : Prop :=
  ∀ t, s.Live t → ∀ b, InRegisters t b → mem' b = mem b

/-- Kernel code that runs before the first task. -/
structure KernelRuns (s : Sched) (m m' : Machine) : Prop where
  cs : m'.cs = m.cs
  tasks : KeepsTasks s m.mem m'.mem

/-- `interrupt_handler` returns, by way of `task_page`. -/
structure HandlerReturns (s : Sched) (m m' : Machine) : Prop where
  esp : m'.reg .esp = m.reg .esp
  cs : m'.cs = m.cs
  seg : m'.seg = (m.steps userRegisters).seg
  frame : ∀ b : Ptr, interruptFrame.toNat ≤ b.toNat → b.toNat < kernelStack.toNat →
    m'.mem b = m.mem b
  tasks : KeepsTasks s m.mem m'.mem

/-- C code calls `task_return(regs)` from somewhere on the stack. -/
structure CallsTaskReturn (s : Sched) (m m' : Machine) (regs : Ptr) : Prop where
  stack : ∃ ra, Stack m' 32 [ra, regs]
  esp : (m'.reg .esp).toNat ≤ kernelStack.toNat
  cs : m'.cs = m.cs
  tasks : KeepsTasks s m.mem m'.mem

def setLast (last : Ptr → Field → Word) (task : Ptr) (frame : Field → Word) :
    Ptr → Field → Word :=
  fun t => if t = task then frame else last t

/-- The frame that `interrupt_handler` is called with. -/
def frameArgument (m : Machine) : Ptr := load32 m.mem (m.reg .esp + 4)

/-- The machine after `task_current_save_state`. -/
def saveState (m : Machine) (task : Ptr) : Machine :=
  { m with mem := taskSaveState m.mem task (frameArgument m) }

/-- `next` stands for the address behind the call in `task_return`. -/
inductive Step (callbacks : Word → Option Callback) (next : Word) :
    Context → Event → Context → Prop
  | create {s : Context} {m : Machine} {sched : Sched}
      {task process pageDirectory : Ptr} {entry : Option Word}
      (boot : s.user = false) (fresh : s.sched.tasks task = none) (inHeap : InHeap task)
      (runs : KernelRuns s.sched s.cpu m)
      (new : s.sched.taskNew task process pageDirectory = .ok (task, sched)) :
      Step callbacks next s (.create task process pageDirectory entry)
        { sched := sched
          cpu := { m with mem := taskInit m.mem task entry }
          user := false
          last := setLast s.last task (initialRegisters entry) }
  | start {s : Context} {m m' : Machine} {sched : Sched}
      (boot : s.user = false) (current : s.sched.currentTask ≠ 0)
      (switch : s.sched.taskSwitch s.sched.taskHead = .ok sched)
      (calls : CallsTaskReturn s.sched s.cpu m (taskRegisters s.sched.taskHead))
      (exec : m.exec (taskReturn next) = some m') :
      Step callbacks next s .start
        { sched := sched, cpu := m', user := true, last := s.last }
  | user {s : Context} {m : Machine}
      (running : s.user = true) (mode : m.cs &&& 3 = 3)
      (tasks : KeepsTasks s.sched s.cpu.mem m.mem) :
      Step callbacks next s .user { s with cpu := m }
  /-- An interrupt without a callback: nothing is saved. -/
  | direct {s : Context} {n : Word} {m m' : Machine} {sched : Sched}
      (running : s.user = true) (enter : enterInterrupt s.cpu n = m)
      (callback : callbacks m.top = none)
      (switch : s.sched.taskSwitch s.sched.currentTask = .ok sched)
      (returns : HandlerReturns s.sched m m') :
      Step callbacks next s (.interrupt n)
        { sched := sched
          cpu := m'.steps interruptReturn
          user := true
          last := setLast s.last s.sched.currentTask (frameAt m.mem (frameArgument m)) }
  | callback {s : Context} {n : Word} {m m' : Machine} {sched : Sched}
      (running : s.user = true) (enter : enterInterrupt s.cpu n = m)
      (callback : callbacks m.top = some .returns) (current : s.sched.currentTask ≠ 0)
      (switch : s.sched.taskSwitch s.sched.currentTask = .ok sched)
      (returns : HandlerReturns s.sched (saveState m s.sched.currentTask) m') :
      Step callbacks next s (.interrupt n)
        { sched := sched
          cpu := m'.steps interruptReturn
          user := true
          last := setLast s.last s.sched.currentTask (frameAt m.mem (frameArgument m)) }
  | clock {s : Context} {n : Word} {m m' m'' : Machine} {sched : Sched}
      (running : s.user = true) (enter : enterInterrupt s.cpu n = m)
      (callback : callbacks m.top = some .clock) (current : s.sched.currentTask ≠ 0)
      (switch : s.sched.taskNext = .ok sched)
      (calls : CallsTaskReturn s.sched (saveState m s.sched.currentTask) m'
        (taskRegisters sched.currentTask))
      (exec : m'.exec (taskReturn next) = some m'') :
      Step callbacks next s (.interrupt n)
        { sched := sched
          cpu := m''
          user := true
          last := setLast s.last s.sched.currentTask (frameAt m.mem (frameArgument m)) }

/-- The running task has the registers that are remembered for it; `flags` says
what becomes of the flags. -/
structure ResumesWith (s : Context) (flags : Word → Word) : Prop where
  flags : userRegister s.cpu .flags = flags (s.last s.sched.currentTask .flags)
  others : ∀ f ∈ registersLayout, f ≠ .flags →
    userRegister s.cpu f = s.last s.sched.currentTask f

/-- The frame holds the registers of the interrupted task, and the other tasks
keep what was saved of them. -/
structure Interrupted (s s' : Context) : Prop where
  frame : ∀ f ∈ registersLayout, s'.last s.sched.currentTask f = userRegister s.cpu f
  saved : ∀ t, s.sched.Live t → t ≠ s.sched.currentTask → ∀ f ∈ registersLayout,
    registersAt s'.cpu.mem (taskRegisters t) f = registersAt s.cpu.mem (taskRegisters t) f
  last : ∀ t, t ≠ s.sched.currentTask → s'.last t = s.last t

/-- What is promised of one step. -/
def StepPreserves (callbacks : Word → Option Callback) (s s' : Context) : Event → Prop
  | .create task _ _ entry =>
      s'.last task = initialRegisters entry ∧ ∀ t, t ≠ task → s'.last t = s.last t
  | .start => s'.last = s.last ∧ ResumesWith s' (· ||| 0x200)
  | .user => s'.last = s.last
  | .interrupt n => Interrupted s s' ∧
      ResumesWith s' (if callbacks n = some .clock then (· ||| 0x200) else id)

/-- The kernel before the first task is made. -/
structure Boot (s : Context) : Prop where
  sched : s.sched = Sched.empty
  user : s.user = false
  cs : s.cpu.cs &&& 3 = 0

namespace InHeap

variable {t u : Ptr}

theorem bounds (h : InHeap t) : 0x1000000 ≤ t.toNat ∧ t.toNat + 64 ≤ 2 ^ 32 := by
  obtain ⟨hlo, hhi, -⟩ := h
  rw [heapAddress] at hlo hhi
  rw [heapBlockSize, heapSizeBytes] at hhi
  omega

theorem ne_zero (h : InHeap t) : t ≠ 0 := by
  rintro rfl
  have := h.bounds
  simp at this

/-- A frame ends before every task. -/
theorem frame (h : InHeap t) : interruptFrame.toNat + 52 ≤ t.toNat + 4 := by
  have hframe : interruptFrame.toNat = 0x5FFFCC := by decide
  have := h.bounds
  omega

theorem area
    (h : InHeap t) {m : Machine} (hesp : (m.reg .esp).toNat ≤ kernelStack.toNat) :
    AreaAbove m (taskRegisters t) := by
  have hstack : kernelStack.toNat = 0x600000 := by decide
  have h4 : (4 : Word).toNat = 4 := rfl
  have hbounds := h.bounds
  have hadd : (taskRegisters t).toNat = t.toNat + 4 := by
    rw [taskRegisters, BitVec.toNat_add, h4]
    omega
  exact ⟨by omega, by omega⟩

/-- Two tasks do not share a block. -/
theorem apart
    (ht : InHeap t) (hu : InHeap u) (hne : t ≠ u) :
    t.toNat + 64 ≤ u.toNat ∨ u.toNat + 64 ≤ t.toNat := by
  have htu : t.toNat ≠ u.toNat := fun h => hne (BitVec.eq_of_toNat_eq h)
  obtain ⟨-, -, hmod⟩ := ht
  obtain ⟨-, -, hmod'⟩ := hu
  rw [heapBlockSize] at hmod hmod'
  omega

theorem not_inRegisters
    (ht : InHeap t) (hu : InHeap u) (hne : t ≠ u) {b : Ptr} (hb : InRegisters u b) :
    ¬ InRegisters t b := by
  rw [InRegisters] at *
  rcases ht.apart hu hne with h | h
  · omega
  · omega

/-- The registers of a task are above the kernel stack. -/
theorem above
    (h : InHeap t) {b : Ptr} (hb : InRegisters t b) :
    kernelStack.toNat ≤ b.toNat := by
  have hstack : kernelStack.toNat = 0x600000 := by decide
  have := h.bounds
  rw [InRegisters] at hb
  omega

end InHeap

theorem registersAt_congr
    {t : Ptr} {mem mem' : Memory}
    (ht : InHeap t) (hmem : ∀ b, InRegisters t b → mem' b = mem b)
    {f : Field} (hf : f ∈ registersLayout) :
    registersAt mem' (taskRegisters t) f = registersAt mem (taskRegisters t) f := by
  have hbounds := ht.bounds
  have hle := offsetOf_le f hf
  have hadd := toNat_field hbounds.2 hf
  refine load32_congr fun b hb => hmem b ?_
  have := toNat_of_sub_lt hb (by omega)
  rw [InRegisters]
  omega

/-- The saved registers are those that are remembered. -/
structure SavedInv (s : Context) : Prop where
  placed : ∀ t, s.sched.Live t → InHeap t
  saved : ∀ t, s.sched.Live t → (s.user = true → t ≠ s.sched.currentTask) →
    ∀ f ∈ registersLayout, registersAt s.cpu.mem (taskRegisters t) f = s.last t f
  lastCs : ∀ t, s.sched.Live t → s.last t .cs &&& 3 = 3
  boot : s.user = false → s.cpu.cs &&& 3 = 0
  mode : s.user = true → s.cpu.cs &&& 3 = 3
  running : s.user = true → s.sched.Live s.sched.currentTask

structure ContextInv (s : Context) : Prop extends SavedInv s where
  list : ∃ ts, s.sched.ListInv ts

namespace SavedInv

variable {s : Context}

theorem of_boot (h : Boot s) : SavedInv s := by
  have hlive (t : Ptr) : ¬ s.sched.Live t := by
    rw [h.sched]
    intro ht
    cases ht
  have huser {p : Prop} (huser : s.user = true) : p := Bool.noConfusion (h.user.symm.trans huser)
  exact ⟨fun t ht => absurd ht (hlive t), fun t ht => absurd ht (hlive t),
    fun t ht => absurd ht (hlive t), fun _ => h.cs, huser, huser⟩

theorem keepsTasks_trans
    {sched : Sched} {mem mem' mem'' : Memory}
    (h : KeepsTasks sched mem mem') (h' : KeepsTasks sched mem' mem'') :
    KeepsTasks sched mem mem'' :=
  fun t ht b hb => (h' t ht b hb).trans (h t ht b hb)

/-- What is written to the kernel stack does not reach the tasks. -/
theorem keepsTasks_of_keepsFrom
    (h : SavedInv s) {mem mem' : Memory} {a : Nat}
    (hkeeps : KeepsFrom a mem mem') (ha : a ≤ kernelStack.toNat) :
    KeepsTasks s.sched mem mem' :=
  fun t ht b hb => hkeeps b (ha.trans ((h.placed t ht).above hb))

theorem registersAt_keeps
    (h : SavedInv s) {mem mem' : Memory} (hkeeps : KeepsTasks s.sched mem mem')
    {t : Ptr} (ht : s.sched.Live t) {f : Field} (hf : f ∈ registersLayout) :
    registersAt mem' (taskRegisters t) f = registersAt mem (taskRegisters t) f :=
  registersAt_congr (h.placed t ht) (hkeeps t ht) hf

/-- The state of the current task is saved, and nothing else changes. -/
theorem saveState_spec
    (h : SavedInv s) (huser : s.user = true) {m : Machine} {n : Word}
    (he : Entered s.cpu m n) :
    (∀ f ∈ registersLayout, registersAt (saveState m s.sched.currentTask).mem
      (taskRegisters s.sched.currentTask) f = userRegister s.cpu f) ∧
      ∀ b, ¬ InRegisters s.sched.currentTask b →
        (saveState m s.sched.currentTask).mem b = m.mem b := by
  have hplaced := h.placed _ (h.running huser)
  have hargument : frameArgument m = interruptFrame := he.argument
  obtain ⟨hfields, hrest⟩ := taskSaveState_spec hplaced.frame hplaced.bounds.2 m.mem
  rw [saveState, hargument]
  exact ⟨fun f hf => (hfields f hf).trans (frameAt_eq he.words hf), hrest⟩

/-- After the save the memory holds what is remembered of every task. -/
theorem saved_of_saveState
    (h : SavedInv s) (huser : s.user = true) {m : Machine} {n : Word}
    (he : Entered s.cpu m n) {mem : Memory}
    (hkeeps : KeepsTasks s.sched (saveState m s.sched.currentTask).mem mem)
    {t : Ptr} (ht : s.sched.Live t) {f : Field} (hf : f ∈ registersLayout) :
    registersAt mem (taskRegisters t) f =
      if t = s.sched.currentTask then userRegister s.cpu f
      else registersAt s.cpu.mem (taskRegisters t) f := by
  obtain ⟨hfields, hrest⟩ := h.saveState_spec huser he
  rw [h.registersAt_keeps hkeeps ht hf]
  rcases Decidable.em (t = s.sched.currentTask) with rfl | hne
  · rw [if_pos rfl]
    exact hfields f hf
  · rw [if_neg hne]
    refine registersAt_congr (h.placed t ht) (fun b hb => ?_) hf
    have hcurrent := h.placed _ (h.running huser)
    rw [hrest b (hcurrent.not_inRegisters (h.placed t ht) (Ne.symm hne) hb)]
    exact he.keeps b ((h.placed t ht).above hb)

/-- The frame is still there when the handler returns. -/
theorem frame_of_returns
    {u m m' m'' : Machine} {n : Word} {sched : Sched}
    (he : Entered u m n) (hesp : m'.reg .esp = m.reg .esp) (hcs : m'.cs = m.cs)
    (hframe : ∀ b : Ptr, b.toNat < kernelStack.toNat → m'.mem b = m.mem b)
    (hr : HandlerReturns sched m' m'') (hmode : u.cs &&& 3 = 3) :
    (∀ f ∈ registersLayout, userRegister (m''.steps interruptReturn) f = userRegister u f) ∧
      (m''.steps interruptReturn).mem = m''.mem := by
  have hstack : kernelStack.toNat = interruptFrame.toNat + 52 := by decide
  have hlength : (frameWords u).length = 13 := rfl
  refine interruptReturn_spec ?_ ?_ ?_
  · rw [hr.esp, hesp]
    exact he.esp
  · refine he.words.congr ?_ fun b hlo hhi => ?_
    · rw [hlength]
      decide
    · rw [hlength] at hhi
      exact (hr.frame b hlo (by omega)).trans (hframe b (by omega))
  · rw [hmode, hr.cs, hcs, he.cs]
    decide

theorem setLast_same
    (last : Ptr → Field → Word) (t : Ptr) (frame : Field → Word) :
    setLast last t frame t = frame :=
  if_pos rfl

theorem setLast_of_ne
    (last : Ptr → Field → Word) {t u : Ptr} (frame : Field → Word) (hne : u ≠ t) :
    setLast last t frame u = last u :=
  if_neg hne

/-- What the frame of an interruption is remembered as. -/
theorem frame_eq
    {u m : Machine} {n : Word} (he : Entered u m n) {f : Field} (hf : f ∈ registersLayout) :
    frameAt m.mem (frameArgument m) f = userRegister u f := by
  rw [show frameArgument m = interruptFrame from he.argument]
  exact frameAt_eq he.words hf

/-- An interrupt whose handler returns: `m'` is the machine when it has saved
what it saves. -/
theorem returning
    (h : SavedInv s) (huser : s.user = true) {m m' m'' : Machine} {n : Word}
    (he : Entered s.cpu m n) (hesp : m'.reg .esp = m.reg .esp) (hcs : m'.cs = m.cs)
    (hframe : ∀ b, ¬ InRegisters s.sched.currentTask b → m'.mem b = m.mem b)
    (hr : HandlerReturns s.sched m' m'') :
    let s' : Context :=
      { sched := s.sched
        cpu := m''.steps interruptReturn
        user := true
        last := setLast s.last s.sched.currentTask (frameAt m.mem (frameArgument m)) }
    SavedInv s' ∧ Interrupted s s' ∧ ResumesWith s' id := by
  have hlive := h.running huser
  have hbelow (b : Ptr) (hb : b.toNat < kernelStack.toNat) : m'.mem b = m.mem b :=
    hframe b fun hin => absurd ((h.placed _ hlive).above hin) (by omega)
  obtain ⟨hregs, hmem⟩ := frame_of_returns he hesp hcs hbelow hr (h.mode huser)
  have hothers (t : Ptr) (ht : s.sched.Live t) (hne : t ≠ s.sched.currentTask) (f : Field)
      (hf : f ∈ registersLayout) :
      registersAt (m''.steps interruptReturn).mem (taskRegisters t) f =
        registersAt s.cpu.mem (taskRegisters t) f := by
    rw [hmem, h.registersAt_keeps hr.tasks ht hf]
    refine registersAt_congr (h.placed t ht) (fun b hb => ?_) hf
    rw [hframe b ((h.placed _ hlive).not_inRegisters (h.placed t ht) (Ne.symm hne) hb)]
    exact he.keeps b ((h.placed t ht).above hb)
  intro s'
  refine ⟨⟨h.placed, ?_, ?_, fun hf => Bool.noConfusion hf, ?_, fun _ => hlive⟩,
    ⟨?_, hothers, fun t hne => setLast_of_ne _ _ hne⟩, ?_, ?_⟩
  · intro t ht hne f hf
    dsimp only [s']
    rw [setLast_of_ne _ _ (hne rfl), hothers t ht (hne rfl) f hf]
    exact h.saved t ht (fun _ => hne rfl) f hf
  · intro t ht
    dsimp only [s']
    rcases Decidable.em (t = s.sched.currentTask) with rfl | hne
    · rw [setLast_same, frame_eq he (by decide)]
      exact h.mode huser
    · rw [setLast_of_ne _ _ hne]
      exact h.lastCs t ht
  · intro _
    change userRegister (m''.steps interruptReturn) .cs &&& 3 = 3
    rw [hregs .cs (by decide)]
    exact h.mode huser
  · intro f hf
    dsimp only [s']
    rw [setLast_same, frame_eq he hf]
  · dsimp only [s', id_eq]
    rw [setLast_same, frame_eq he (by decide)]
    exact hregs .flags (by decide)
  · intro f hf _
    dsimp only [s']
    rw [setLast_same, frame_eq he hf]
    exact hregs f hf

/-- The task that `task_return` leaves to. -/
theorem returned
    (h : SavedInv s) {m m' : Machine} {next : Word} {t : Ptr} (ht : s.sched.Live t)
    (hstack : ∃ ra, Stack m 32 [ra, taskRegisters t])
    (hesp : (m.reg .esp).toNat ≤ kernelStack.toNat) (hkernel : m.cs &&& 3 = 0)
    (hcs : registersAt m.mem (taskRegisters t) .cs &&& 3 = 3)
    (hexec : m.exec (taskReturn next) = some m') :
    ReturnedFrom m.mem (taskRegisters t) m' ∧ KeepsTasks s.sched m.mem m'.mem := by
  obtain ⟨ra, hstack⟩ := hstack
  obtain ⟨m'', heq, hreturned, hkeeps⟩ :=
    taskReturn_spec next hstack ((h.placed t ht).area hesp) (by rw [hcs, hkernel]; decide)
  cases hexec.symm.trans heq
  exact ⟨hreturned, h.keepsTasks_of_keepsFrom hkeeps hesp⟩

/-- The kernel when it has saved the interrupted task. -/
theorem parked
    (h : SavedInv s) (huser : s.user = true) {m : Machine} {n : Word}
    (he : Entered s.cpu m n) :
    SavedInv
      { sched := s.sched
        cpu := saveState m s.sched.currentTask
        user := false
        last := setLast s.last s.sched.currentTask (frameAt m.mem (frameArgument m)) } := by
  refine ⟨h.placed, ?_, ?_, ?_, fun hf => Bool.noConfusion hf, fun hf => Bool.noConfusion hf⟩
  · intro t ht _ f hf
    dsimp only
    rw [h.saved_of_saveState huser he (fun _ _ _ _ => rfl) ht hf]
    rcases Decidable.em (t = s.sched.currentTask) with rfl | hne
    · rw [if_pos rfl, setLast_same, frame_eq he hf]
    · rw [if_neg hne, setLast_of_ne _ _ hne]
      exact h.saved t ht (fun _ => hne) f hf
  · intro t ht
    dsimp only
    rcases Decidable.em (t = s.sched.currentTask) with rfl | hne
    · rw [setLast_same, frame_eq he (by decide)]
      exact h.mode huser
    · rw [setLast_of_ne _ _ hne]
      exact h.lastCs t ht
  · intro _
    change m.cs &&& 3 = 0
    rw [he.cs]
    decide

/-- The kernel leaves to a task by `task_return`. -/
theorem leaves
    (h : SavedInv s) (hboot : s.user = false) {t : Ptr} (ht : s.sched.Live t)
    {m m' : Machine} {next : Word} (hcalls : CallsTaskReturn s.sched s.cpu m (taskRegisters t))
    (hexec : m.exec (taskReturn next) = some m') :
    let s' : Context :=
      { sched := { s.sched with currentTask := t }, cpu := m', user := true, last := s.last }
    SavedInv s' ∧ ResumesWith s' (· ||| 0x200) ∧
      ∀ u, s.sched.Live u → ∀ f ∈ registersLayout,
        registersAt m'.mem (taskRegisters u) f = s.last u f := by
  have hsaved (u : Ptr) (hu : s.sched.Live u) (f : Field) (hf : f ∈ registersLayout) :
      registersAt m.mem (taskRegisters u) f = s.last u f :=
    (h.registersAt_keeps hcalls.tasks hu hf).trans
      (h.saved u hu (fun huser => Bool.noConfusion (hboot.symm.trans huser)) f hf)
  have hlast := h.lastCs t ht
  obtain ⟨hreturned, hkeeps⟩ := h.returned ht hcalls.stack hcalls.esp
    (by rw [hcalls.cs]; exact h.boot hboot)
    (by rw [hsaved t ht .cs (by decide)]; exact hlast) hexec
  intro s'
  have hkept (u : Ptr) (hu : s.sched.Live u) (f : Field) (hf : f ∈ registersLayout) :
      registersAt m'.mem (taskRegisters u) f = s.last u f :=
    (h.registersAt_keeps hkeeps hu hf).trans (hsaved u hu f hf)
  refine ⟨⟨h.placed, fun u hu _ => hkept u hu, h.lastCs, fun hf => Bool.noConfusion hf, ?_,
    fun _ => ht⟩, ⟨?_, ?_⟩, hkept⟩
  · intro _
    change userRegister m' .cs &&& 3 = 3
    rw [hreturned.others .cs (by decide) (by decide), hsaved t ht .cs (by decide)]
    exact hlast
  · exact hreturned.flags.trans (congrArg (· ||| 0x200) (hsaved t ht .flags (by decide)))
  · intro f hf hne
    exact (hreturned.others f hf hne).trans (hsaved t ht f hf)

/-- A timer interrupt saves the current task and leaves to the next one. -/
theorem clock
    (h : SavedInv s) (huser : s.user = true) {m m' m'' : Machine} {n next : Word}
    {sched : Sched} (he : Entered s.cpu m n) (hswitch : s.sched.taskNext = .ok sched)
    (hcalls : CallsTaskReturn s.sched (saveState m s.sched.currentTask) m'
      (taskRegisters sched.currentTask))
    (hexec : m'.exec (taskReturn next) = some m'') :
    let s' : Context :=
      { sched := sched
        cpu := m''
        user := true
        last := setLast s.last s.sched.currentTask (frameAt m.mem (frameArgument m)) }
    SavedInv s' ∧ Interrupted s s' ∧ ResumesWith s' (· ||| 0x200) := by
  obtain ⟨t, rfl, ht⟩ := Sched.taskNext_inv hswitch
  obtain ⟨hinv, hresumes, hkept⟩ := (h.parked huser he).leaves rfl ht hcalls hexec
  refine ⟨hinv, ⟨fun f hf => ?_, fun u hu hne f hf => ?_, fun u hne => setLast_of_ne _ _ hne⟩,
    hresumes⟩
  · dsimp only
    rw [setLast_same, frame_eq he hf]
  · refine (hkept u hu f hf).trans ?_
    dsimp only
    rw [setLast_of_ne _ _ hne]
    exact (h.saved u hu (fun _ => hne) f hf).symm

/-- C code runs. -/
theorem runs
    (h : SavedInv s) (hboot : s.user = false) {m : Machine} (hruns : KernelRuns s.sched s.cpu m) :
    SavedInv { s with cpu := m } where
  placed := h.placed
  saved := fun t ht hne f hf =>
    (h.registersAt_keeps hruns.tasks ht hf).trans (h.saved t ht hne f hf)
  lastCs := h.lastCs
  boot := fun _ => (congrArg (· &&& 3) hruns.cs).trans (h.boot hboot)
  mode := fun hf => Bool.noConfusion (hboot.symm.trans hf)
  running := fun hf => Bool.noConfusion (hboot.symm.trans hf)

/-- Tasks are freed. -/
theorem frees
    (h : SavedInv s) (hboot : s.user = false) {sched : Sched}
    (hlive : ∀ t, sched.Live t → s.sched.Live t) :
    SavedInv { s with sched := sched } where
  placed := fun t ht => h.placed t (hlive t ht)
  saved := fun t ht _ =>
    h.saved t (hlive t ht) fun hf => Bool.noConfusion (hboot.symm.trans hf)
  lastCs := fun t ht => h.lastCs t (hlive t ht)
  boot := h.boot
  mode := fun hf => Bool.noConfusion (hboot.symm.trans hf)
  running := fun hf => Bool.noConfusion (hboot.symm.trans hf)

/-- A task is made, which `task_init` fills in. -/
theorem makes
    (h : SavedInv s) (hboot : s.user = false) {sched : Sched} {task : Ptr} (entry : Option Word)
    (hheap : InHeap task) (hlive : ∀ t, sched.Live t → t = task ∨ s.sched.Live t) :
    SavedInv
      { sched := sched
        cpu := { s.cpu with mem := taskInit s.cpu.mem task entry }
        user := false
        last := setLast s.last task (initialRegisters entry) } := by
  obtain ⟨hfields, hrest⟩ := taskInit_spec hheap.bounds.2 s.cpu.mem entry
  have hcases (t : Ptr) (ht : sched.Live t) : t = task ∨ (t ≠ task ∧ s.sched.Live t) := by
    rcases Decidable.em (t = task) with heq | hne
    · exact Or.inl heq
    · exact Or.inr ⟨hne, (hlive t ht).resolve_left hne⟩
  refine ⟨?_, ?_, ?_, fun _ => h.boot hboot, fun hf => Bool.noConfusion hf,
    fun hf => Bool.noConfusion hf⟩
  · intro t ht
    rcases hcases t ht with rfl | ⟨-, ht'⟩
    · exact hheap
    · exact h.placed t ht'
  · intro t ht _ f hf
    dsimp only at ht ⊢
    rcases hcases t ht with rfl | ⟨hne, ht'⟩
    · rw [setLast_same]
      exact hfields f hf
    · rw [setLast_of_ne _ _ hne]
      refine Eq.trans ?_ (h.saved t ht' (fun huser => ?_) f hf)
      · refine registersAt_congr (h.placed t ht') (fun b hb => hrest b ?_) hf
        rw [InRegisters] at hb
        have := hheap.apart (h.placed t ht') (Ne.symm hne)
        omega
      · rw [hboot] at huser
        cases huser
  · intro t ht
    dsimp only at ht ⊢
    rcases hcases t ht with rfl | ⟨hne, ht'⟩
    · rw [setLast_same]
      change userCodeSegment &&& 3 = 3
      decide
    · rw [setLast_of_ne _ _ hne]
      exact h.lastCs t ht'

theorem user
    (h : SavedInv s) (huser : s.user = true) {m : Machine} (hmode : m.cs &&& 3 = 3)
    (hkeeps : KeepsTasks s.sched s.cpu.mem m.mem) :
    SavedInv { s with cpu := m } where
  placed := h.placed
  saved := fun t ht hne f hf => (h.registersAt_keeps hkeeps ht hf).trans (h.saved t ht hne f hf)
  lastCs := h.lastCs
  boot := fun hf => Bool.noConfusion (huser.symm.trans hf)
  mode := fun _ => hmode
  running := h.running

theorem step
    {callbacks : Word → Option Callback} {next : Word} {e : Event} {s' : Context}
    (h : SavedInv s) (hstep : Step callbacks next s e s') :
    SavedInv s' ∧ StepPreserves callbacks s s' e := by
  cases hstep with
  | @create m sched task process pageDirectory entry boot fresh inHeap runs new =>
      have h0 : task ≠ 0 := inHeap.ne_zero
      have hlive := (Sched.taskNew_inv h0 new).2.live_iff
      exact ⟨(h.runs boot runs).makes boot entry inHeap fun t ht => (hlive t).mp ht,
        setLast_same _ _ _, fun t hne => setLast_of_ne _ _ hne⟩
  | start boot current switch calls exec =>
      obtain ⟨rfl, hlive⟩ := Sched.taskSwitch_inv switch
      obtain ⟨hinv, hresumes, -⟩ := h.leaves boot hlive calls exec
      exact ⟨hinv, rfl, hresumes⟩
  | user running mode tasks => exact ⟨h.user running mode tasks, rfl⟩
  | @direct n m m' sched running enter callback switch returns =>
      have he : Entered s.cpu m n := enter ▸ enterInterrupt_spec s.cpu n
      have hclock : callbacks n ≠ some .clock := by
        rw [← he.top, callback]
        decide
      obtain ⟨rfl, -⟩ := Sched.taskSwitch_inv switch
      rw [StepPreserves, if_neg hclock]
      exact h.returning running he rfl rfl (fun _ _ => rfl) returns
  | @callback n m m' sched running enter callback current switch returns =>
      have he : Entered s.cpu m n := enter ▸ enterInterrupt_spec s.cpu n
      have hclock : callbacks n ≠ some .clock := by
        rw [← he.top, callback]
        decide
      obtain ⟨rfl, -⟩ := Sched.taskSwitch_inv switch
      rw [StepPreserves, if_neg hclock]
      have hesp : (saveState m s.sched.currentTask).reg .esp = m.reg .esp := rfl
      exact h.returning running he hesp rfl (h.saveState_spec running he).2 returns
  | @clock n m m' m'' sched running enter callback current switch calls exec =>
      have he : Entered s.cpu m n := enter ▸ enterInterrupt_spec s.cpu n
      have hclock : callbacks n = some .clock := by
        rw [← he.top, callback]
      rw [StepPreserves, if_pos hclock]
      exact h.clock running he switch calls exec

/-- C code can come to a call of `task_return`, and the call leaves the kernel. -/
theorem exists_taskReturn
    (h : SavedInv s) (m : Machine) {t : Ptr} (ht : s.sched.Live t) (next : Word)
    (hkernel : m.cs &&& 3 = 0) (hcs : registersAt m.mem (taskRegisters t) .cs &&& 3 = 3) :
    ∃ m' m'', CallsTaskReturn s.sched m m' (taskRegisters t) ∧
      m'.exec (taskReturn next) = some m'' := by
  have h0 : Stack (m.set .esp interruptFrame) 40 [] := stack_set_esp m (by decide)
  have h1 := h0.push (taskRegisters t)
  have h2 := h1.push 0
  have hpush : Pushes (m.set .esp interruptFrame)
      (((m.set .esp interruptFrame).push (taskRegisters t)).push 0) :=
    ((⟨fun _ _ => rfl, Nat.le_refl _⟩ : Pushes _ _).push h0 _).push h1 0
  have hle : interruptFrame.toNat ≤ kernelStack.toNat := by decide
  have hkeeps := h.keepsTasks_of_keepsFrom hpush.keeps hle
  have hcalls : CallsTaskReturn s.sched m _ (taskRegisters t) :=
    ⟨⟨0, h2⟩, hpush.esp.trans hle, rfl, hkeeps⟩
  obtain ⟨m'', hexec, -, -⟩ := taskReturn_spec next h2 ((h.placed t ht).area hcalls.esp)
    (by
      rw [h.registersAt_keeps hkeeps ht (by decide)]
      change registersAt m.mem (taskRegisters t) .cs &&& 3 ≠ m.cs &&& 3
      rw [hcs, hkernel]
      decide)
  exact ⟨_, m'', hcalls, hexec⟩

/-- A handler can return. -/
theorem exists_returns (s : Sched) (m : Machine) : ∃ m', HandlerReturns s m m' :=
  ⟨{ m with seg := (m.steps userRegisters).seg }, rfl, rfl, rfl, fun _ _ _ => rfl,
    fun _ _ _ _ => rfl⟩

/-- The kernel can leave to every task that is there. -/
theorem exists_leave
    (h : SavedInv s) (hboot : s.user = false) {t : Ptr} (ht : s.sched.Live t) (next : Word) :
    ∃ m' m'', CallsTaskReturn s.sched s.cpu m' (taskRegisters t) ∧
      m'.exec (taskReturn next) = some m'' := by
  refine h.exists_taskReturn s.cpu ht next (h.boot hboot) ?_
  rw [h.saved t ht (fun huser => Bool.noConfusion (hboot.symm.trans huser)) .cs (by decide)]
  exact h.lastCs t ht

/-- A timer interrupt can leave to the next task. -/
theorem exists_clock
    (h : SavedInv s) (huser : s.user = true) {callbacks : Word → Option Callback} {n : Word}
    (hcallback : callbacks n = some .clock) (hcurrent : s.sched.currentTask ≠ 0) {sched : Sched}
    (hswitch : s.sched.taskNext = .ok sched) (next : Word) :
    ∃ s', Step callbacks next s (.interrupt n) s' ∧ s'.sched = sched := by
  obtain ⟨m, hm⟩ : ∃ m, enterInterrupt s.cpu n = m := ⟨_, rfl⟩
  have he : Entered s.cpu m n := hm ▸ enterInterrupt_spec s.cpu n
  obtain ⟨t, rfl, ht⟩ := Sched.taskNext_inv hswitch
  obtain ⟨m', m'', hcalls, hexec⟩ := (h.parked huser he).exists_leave rfl ht next
  exact ⟨_, .clock huser hm (he.top.symm ▸ hcallback) hcurrent hswitch hcalls hexec, rfl⟩

end SavedInv

namespace ContextInv

variable {s : Context}

theorem of_boot (h : Boot s) : ContextInv s where
  toSavedInv := SavedInv.of_boot h
  list := ⟨[], by rw [h.sched]; exact Sched.ListInv.empty⟩

theorem current_ne_zero
    (h : ContextInv s) (huser : s.user = true) :
    s.sched.currentTask ≠ 0 :=
  (h.placed _ (h.running huser)).ne_zero

theorem step
    {callbacks : Word → Option Callback} {next : Word} {e : Event} {s' : Context}
    (h : ContextInv s) (hstep : Step callbacks next s e s') :
    ContextInv s' ∧ StepPreserves callbacks s s' e := by
  obtain ⟨hinv, hpreserves⟩ := h.toSavedInv.step hstep
  refine ⟨⟨hinv, ?_⟩, hpreserves⟩
  obtain ⟨ts, hts⟩ := h.list
  have hswitch {sched : Sched} {t : Ptr} (heq : s.sched.taskSwitch t = .ok sched) :
      ∃ ts, sched.ListInv ts := by
    obtain ⟨rfl, hlive⟩ := Sched.taskSwitch_inv heq
    exact ⟨ts, hts.switch ((hts.mem t).mpr hlive)⟩
  cases hstep with
  | @create m sched task process pageDirectory entry boot fresh inHeap runs new =>
      obtain ⟨sched', hnew, hts', -⟩ :=
        Sched.taskNew_spec hts fresh inHeap.ne_zero process pageDirectory
      cases new.symm.trans hnew
      exact ⟨_, hts'⟩
  | start boot current switch calls exec => exact hswitch switch
  | user running mode tasks => exact ⟨ts, hts⟩
  | direct running enter callback switch returns => exact hswitch switch
  | callback running enter callback current switch returns => exact hswitch switch
  | clock running enter callback current switch calls exec =>
      obtain ⟨t, rfl, ht⟩ := Sched.taskNext_inv switch
      exact ⟨ts, hts.switch ((hts.mem t).mpr ht)⟩

/-- Every interrupt of a running task comes back to user mode. -/
theorem exists_interrupt
    (h : ContextInv s) (huser : s.user = true) (callbacks : Word → Option Callback)
    (next n : Word) :
    ∃ s', Step callbacks next s (.interrupt n) s' := by
  obtain ⟨m, hm⟩ : ∃ m, enterInterrupt s.cpu n = m := ⟨_, rfl⟩
  have he : Entered s.cpu m n := hm ▸ enterInterrupt_spec s.cpu n
  obtain ⟨ts, hts⟩ := h.list
  have hmem := (hts.mem _).mpr (h.running huser)
  cases hcallback : callbacks n with
  | none =>
      obtain ⟨m', hm'⟩ := SavedInv.exists_returns s.sched m
      exact ⟨_, .direct huser hm (he.top.symm ▸ hcallback) (hts.taskSwitch hmem) hm'⟩
  | some callback =>
      cases callback with
      | returns =>
          obtain ⟨m', hm'⟩ := SavedInv.exists_returns s.sched (saveState m s.sched.currentTask)
          exact ⟨_, .callback huser hm (he.top.symm ▸ hcallback) (h.current_ne_zero huser)
            (hts.taskSwitch hmem) hm'⟩
      | clock =>
          obtain ⟨t, hnext, -⟩ := hts.taskNext (List.ne_nil_of_mem hmem)
          obtain ⟨s', hstep, -⟩ :=
            h.exists_clock huser hcallback (h.current_ne_zero huser) hnext next
          exact ⟨s', hstep⟩

/-- A task can be made of every free block before the first one is started. -/
theorem exists_create
    (h : ContextInv s) (hboot : s.user = false) {task : Ptr} (hfresh : s.sched.tasks task = none)
    (hheap : InHeap task) (process pageDirectory : Ptr) (entry : Option Word)
    (callbacks : Word → Option Callback) (next : Word) :
    ∃ s', Step callbacks next s (.create task process pageDirectory entry) s' ∧
      s'.user = false ∧ s'.sched.Live task ∧
      ∀ t, t ≠ task → s'.sched.processOf t = s.sched.processOf t := by
  obtain ⟨ts, hts⟩ := h.list
  obtain ⟨sched, hnew, -, happ⟩ :=
    Sched.taskNew_spec hts hfresh hheap.ne_zero process pageDirectory
  exact ⟨_, .create hboot hfresh hheap ⟨rfl, fun _ _ _ _ => rfl⟩ hnew, rfl,
    congrArg Option.isSome happ.new, happ.others⟩

/-- The first task can be started once there is one. -/
theorem exists_start
    (h : ContextInv s) (hboot : s.user = false) {t : Ptr} (ht : s.sched.Live t)
    (callbacks : Word → Option Callback) (next : Word) :
    ∃ s', Step callbacks next s .start s' := by
  obtain ⟨ts, hts⟩ := h.list
  have hne : ts ≠ [] := List.ne_nil_of_mem ((hts.mem t).mpr ht)
  have hcurrent := hts.current.resolve_right fun hc => hne hc.1
  have hhead : s.sched.taskHead ∈ ts := by
    rw [hts.head]
    cases ts with
    | nil => exact absurd rfl hne
    | cons t ts => exact List.mem_cons_self
  obtain ⟨m', m'', hcalls, hexec⟩ := h.exists_leave hboot ((hts.mem _).mp hhead) next
  exact ⟨_, .start hboot (fun h0 => hts.notNull (h0 ▸ hcurrent)) (hts.taskSwitch hhead) hcalls
    hexec⟩

end ContextInv

/-- In every run every step keeps the registers of every task, and every
interrupt of the running task comes back to user mode. -/
theorem contextRun_preserves
    (callbacks : Word → Option Callback) (next : Word) {s₀ s : Context} {events : List Event}
    (hboot : Boot s₀) (hrun : Run (Step callbacks next) s₀ events s) :
    (∀ e s', Step callbacks next s e s' → StepPreserves callbacks s s' e) ∧
      (s.user = true → ∀ n, ∃ s', Step callbacks next s (.interrupt n) s') := by
  have hinv : ContextInv s :=
    hrun.invariant ContextInv (fun _ _ _ h hstep => (h.step hstep).1) (ContextInv.of_boot hboot)
  exact ⟨fun e s' hstep => (hinv.step hstep).2,
    fun huser n => hinv.exists_interrupt huser callbacks next n⟩

def bootContext : Context where
  sched := Sched.empty
  cpu :=
    { reg := fun _ => 0
      seg := fun _ => 0x10
      eip := 0
      cs := kernelCodeSelector
      ss := kernelDataSelector
      eflags := 0
      mem := fun _ => 0 }
  user := false
  last := fun _ _ => 0

/-- The timer at interrupt `0x20` and the keyboard behind it. -/
def twoCallbacks (n : Word) : Option Callback :=
  if n = 0x20 then some .clock
  else if n = 0x21 then some .returns
  else none

def twoTasks : List Event :=
  [.create 0x1010000 0x1020000 0x1030000 none, .create 0x1040000 0x1050000 0x1060000 none, .start]

theorem contextRun_preserves_twoTasks :
    ∃ s s', Run (Step twoCallbacks 0) bootContext twoTasks s ∧
      Step twoCallbacks 0 s (.interrupt 0x20) s' ∧
      StepPreserves twoCallbacks s s' (.interrupt 0x20) := by
  have hboot : Boot bootContext := ⟨rfl, rfl, by decide⟩
  have hheap : InHeap 0x1010000 ∧ InHeap 0x1040000 := by
    rw [InHeap, InHeap]
    decide
  have hinv := ContextInv.of_boot hboot
  obtain ⟨s₁, hfirst, huser₁, hlive₁, hothers₁⟩ := hinv.exists_create rfl rfl hheap.1
    0x1020000 0x1030000 none twoCallbacks 0
  have hinv₁ := (hinv.step hfirst).1
  have hfresh : s₁.sched.tasks 0x1040000 = none :=
    Option.map_eq_none_iff.mp (hothers₁ 0x1040000 (by decide))
  obtain ⟨s₂, hsecond, huser₂, hlive₂, -⟩ := hinv₁.exists_create huser₁ hfresh hheap.2
    0x1050000 0x1060000 none twoCallbacks 0
  obtain ⟨s, hstart⟩ := (hinv₁.step hsecond).1.exists_start huser₂ hlive₂ twoCallbacks 0
  have hrun : Run (Step twoCallbacks 0) bootContext twoTasks s :=
    .cons hfirst (.cons hsecond (.cons hstart (.nil s)))
  obtain ⟨hsteps, hinterrupts⟩ := contextRun_preserves twoCallbacks 0 hboot hrun
  have huser : s.user = true := by
    cases hstart
    rfl
  obtain ⟨s', hinterrupt⟩ := hinterrupts huser 0x20
  exact ⟨s, s', hrun, hinterrupt, hsteps _ s' hinterrupt⟩

end Context
end PeachOS
