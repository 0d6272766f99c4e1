import PeachOS.Memory.Heap
import PeachOS.Screen
import PeachOS.Task.Context
import PeachOS.Task.Kernel
import PeachOS.Task.SchedSafety

/-!
# System calls

A task asks the kernel for something through `int 0x80` and goes on with the
result in `eax`.  `isr80h_wrapper` hands over what the handler returns; a
handler that starts another process never returns to it, and the caller goes on
from its saved registers when the scheduler comes to it.
-/

namespace PeachOS

open Lib Lib.Machine
open Sched (LoadMemory LoadOutcome)

/-- `isr80h_wrapper` up to its call of `isr80h_handler`. -/
def isr80hPushes : List Instr :=
  [.pushad,
    .push .esp,
    .push .eax]

/-- `isr80h_wrapper` behind the call. -/
def isr80hReturn (tmpRes : Ptr) : List Instr :=
  [.storeAt tmpRes .eax,
    .add .esp 8,
    .popad,
    .loadAt .eax tmpRes,
    .iretd]

/-- The processor and `isr80h_wrapper` on the way to `isr80h_handler`. -/
def enterSyscall (m : Machine) : Machine :=
  (m.interrupt kernelCodeSelector kernelDataSelector kernelStack).steps isr80hPushes

/-- The bytes that `boot.asm` loads the kernel from. -/
def kernelImageSize : Nat := 100 * sectorSize

/-- A word of the kernel's image. -/
def InKernelImage (addr : Ptr) : Prop :=
  kernelAddress ≤ addr.toNat ∧ addr.toNat + 4 ≤ kernelAddress + kernelImageSize

theorem InKernelImage.below_frame
    {addr : Ptr} (h : InKernelImage addr) :
    addr.toNat + 4 ≤ interruptFrame.toNat := by
  have hframe : interruptFrame.toNat = 0x5FFFCC := by decide
  obtain ⟨-, hend⟩ := h
  unfold kernelAddress kernelImageSize sectorSize at hend
  omega

/-- A word of the kernel's image is written apart from the frame and the tasks. -/
theorem InKernelImage.keepsFrom
    {addr : Ptr} (h : InKernelImage addr) (mem : Memory) (v : Word) :
    KeepsFrom interruptFrame.toNat mem (store32 mem addr v) := by
  intro b hb
  have hbelow := h.below_frame
  exact store32_of_ge mem v (by rw [Below]; omega)

/-- The wrapper restores the frame, but for the result in `eax`. -/
theorem isr80hReturn_spec
    {m u : Machine} {tmpRes : Ptr} (htmp : InKernelImage tmpRes)
    (hesp : m.reg .esp + 8 = interruptFrame) (h : Words m.mem interruptFrame (frameWords u))
    (hcs : u.cs &&& 3 ≠ m.cs &&& 3) :
    (∀ f ∈ registersLayout, userRegister (m.steps (isr80hReturn tmpRes)) f =
      if f = .eax then m.reg .eax else userRegister u f) ∧
      (m.steps (isr80hReturn tmpRes)).mem = store32 m.mem tmpRes (m.reg .eax) := by
  let m₁ := m.step (.storeAt tmpRes .eax)
  have hlength : (frameWords u).length = 13 := rfl
  have hwords : Words m₁.mem interruptFrame (frameWords u) := by
    refine h.congr ?_ fun b hlo _ => htmp.keepsFrom m.mem (m.reg .eax) b hlo
    rw [hlength]
    decide
  obtain ⟨hregs, hmem⟩ := @interruptReturn_spec m₁ u hesp hwords hcs
  obtain ⟨hstack, hcs', hmem', -⟩ := (@frame_stack m₁ u hesp hwords).popad
  have hresult : load32 (m₁.step (.add .esp 8)).popad.mem tmpRes = m.reg .eax := by
    rw [hmem']
    exact load32_store32_same _ _ _
  have heq : m.steps (isr80hReturn tmpRes) =
      (m₁.steps interruptReturn).set .eax (m.reg .eax) := by
    have hiretd := set_iretd hstack (by rw [hcs']; exact hcs) (by decide : Reg.eax ≠ .esp)
      (m.reg .eax)
    rw [← hresult] at hiretd ⊢
    exact hiretd
  rw [heq]
  refine ⟨fun f hf => ?_, hmem⟩
  rw [← hregs f hf]
  cases f <;> rfl

inductive Syscall where
  /-- The calls 0, 2, 4 and 5, with the value that their handlers return. -/
  | plain (command value : Word)
  /-- The calls 1 and 3, with the screen and the text that they print. -/
  | prints (command : Word) (terminal : Terminal) (text : List Byte)
  /-- Call 8, with the address that the caller's pointer leads to. -/
  | getArguments (arguments argc argv : Word)
  /-- Call 6; `copied` is what `copy_string_from_task` returns. -/
  | loadStart (copied : Int) (mem : LoadMemory) (outcome : LoadOutcome) (entry : Option Word)
  /-- Call 7, with arguments or without; `injected` is what
  `process_inject_arguments` returns. -/
  | invoke (arguments : Bool) (mem : LoadMemory) (outcome : LoadOutcome) (entry : Option Word)
      (injected : Int)

/-- How a handler ends: it returns, or calls `task_return` for another task. -/
inductive Handled where
  | returns (value : Word)
  | starts (task : Ptr)
deriving DecidableEq

/-- What the kernel's macro `ERROR` makes of a status. -/
def errorValue (status : Int) : Word := BitVec.ofInt 32 status

namespace Sched

/-- The calls 6 and 7 behind a load that succeeded. -/
def startProcess (s : Sched) (process : Ptr) : Except Halt (Handled × Sched) := do
  let link ← s.proc process
  let s ← s.taskSwitch link.task
  pure (.starts link.task, s)

def isr80hCommand6ProcessLoadStart (s : Sched) (copied : Int) (mem : LoadMemory)
    (outcome : LoadOutcome) : Except Halt (Handled × Sched) :=
  if copied < 0 then
    .ok (.returns 0, s)
  else do
    let (res, s) ← s.processLoadSwitch mem outcome
    if res < 0 then
      pure (.returns 0, s)
    else
      s.startProcess mem.process

def isr80hCommand7InvokeSystemCommand (s : Sched) (arguments : Bool) (mem : LoadMemory)
    (outcome : LoadOutcome) (injected : Int) : Except Halt (Handled × Sched) :=
  if ¬ arguments then
    .ok (.returns (errorValue (-einvarg)), s)
  else do
    let (res, s) ← s.processLoadSwitch mem outcome
    if res < 0 then
      pure (.returns (errorValue res), s)
    else if injected < 0 then
      pure (.returns (errorValue injected), s)
    else
      s.startProcess mem.process

def isr80hHandlerCommand (s : Sched) : Syscall → Except Halt (Handled × Sched)
  | .plain _ value => .ok (.returns value, s)
  | .prints .. => .ok (.returns 0, s)
  | .getArguments .. => .ok (.returns 0, s)
  | .loadStart copied mem outcome _ => s.isr80hCommand6ProcessLoadStart copied mem outcome
  | .invoke arguments mem outcome _ injected =>
      s.isr80hCommand7InvokeSystemCommand arguments mem outcome injected

/-- A load ends before the new process is in the table. -/
def LoadFails (s : Sched) (mem : LoadMemory) (outcome : LoadOutcome) : Prop :=
  s.processGetFreeSlot = none ∨ mem.process = 0 ∨ outcome ≠ .mapped

instance (s : Sched) (mem : LoadMemory) (outcome : LoadOutcome) :
    Decidable (s.LoadFails mem outcome) :=
  inferInstanceAs (Decidable (_ ∨ _ ∨ _))

instance (s : Sched) (mem : LoadMemory) (outcome : LoadOutcome) :
    Decidable (s.ReachesTask mem outcome) :=
  inferInstanceAs (Decidable (_ ∧ _ ∧ _))

end Sched

namespace Syscall

/-- What the caller puts into `eax`. -/
def command : Syscall → Word
  | .plain command _ => command
  | .prints command .. => command
  | .getArguments .. => 8
  | .loadStart .. => 6
  | .invoke .. => 7

/-- The load that a call comes to, with the entry point of an ELF file. -/
def load? : Syscall → Option (LoadMemory × LoadOutcome × Option Word)
  | .plain .. => none
  | .prints .. => none
  | .getArguments .. => none
  | .loadStart copied mem outcome entry => if copied < 0 then none else some (mem, outcome, entry)
  | .invoke arguments mem outcome entry _ =>
      if arguments then some (mem, outcome, entry) else none

/-- The task that is made on the way, with its entry point. -/
def made (call : Syscall) (s : Sched) : Option (Ptr × Option Word) :=
  match call.load? with
  | none => none
  | some (mem, outcome, entry) =>
      if s.ReachesTask mem outcome then some (mem.task, entry) else none

/-- What a handler stores on the screen or where its caller says. -/
def stores : Syscall → Memory → Memory
  | .prints _ terminal text => (terminal.print text).showCells (terminal.cellsOf text)
  | .getArguments arguments argc argv => fun mem =>
      store32 (store32 mem arguments argc) (arguments + 4) argv
  | _ => id

/-- The bytes that it stores there. -/
def Reaches : Syscall → Ptr → Prop
  | .prints _ terminal text, b => Terminal.InCells (terminal.cellsOf text) b
  | .getArguments arguments .., b => (b - arguments).toNat < 8
  | _, _ => False

theorem stores_of_not_reaches
    {call : Syscall} (mem : Memory) {b : Ptr} (hb : ¬ call.Reaches b) :
    call.stores mem b = mem b := by
  cases call with
  | prints command terminal text => exact (terminal.print text).showCells_of_not_inCells mem hb
  | getArguments arguments argc argv =>
      have hb' : ¬ (b - arguments).toNat < 8 := hb
      have h4 : b - (arguments + 4) = b - arguments - 4 := (BitVec.sub_sub b arguments 4).symm
      have hsecond : ¬ (b - (arguments + 4)).toNat < 4 := by
        have hfour : (4 : Word).toNat = 4 := rfl
        rw [h4, BitVec.toNat_sub, hfour]
        omega
      exact (if_neg hsecond).trans (if_neg (by omega))
  | plain command value => rfl
  | loadStart copied mem outcome entry => rfl
  | invoke arguments mem outcome entry injected => rfl

end Syscall

/-- What `kzalloc` gives during a call. -/
structure ZeroedBlock where
  block : Ptr
  size : Word

/-- Where the entries end that the block takes of the table of the heap, from that table on;
the search keeps a last run that is too short, and then the end is behind the table. -/
def ZeroedBlock.endBlock (z : ZeroedBlock) : Nat :=
  (z.block.toNat - heapAddress) / heapBlockSize + heapTotalBlocks z.size

/-- The bytes that are filled with zeroes, and those behind the table that are marked. -/
def ZeroedBlock.Reaches (z : ZeroedBlock) (b : Ptr) : Prop :=
  (b - z.block).toNat < z.size.toNat ∨
    (heapTableAddress + heapSizeBytes / heapBlockSize ≤ b.toNat ∧
      b.toNat < heapTableAddress + z.endBlock)

/-- A block whose entries are in the table reaches no further than its bytes. -/
theorem ZeroedBlock.Reaches.bounds
    {z : ZeroedBlock} {b : Ptr} (h : z.Reaches b)
    (hend : z.endBlock ≤ heapSizeBytes / heapBlockSize)
    (hfit : z.block.toNat + z.size.toNat ≤ 2 ^ 32) :
    z.block.toNat ≤ b.toNat ∧ b.toNat < z.block.toNat + z.size.toNat := by
  rcases h with hzeroed | ⟨hlo, hhi⟩
  · rw [BitVec.toNat_sub] at hzeroed
    have hlt := b.isLt
    omega
  · omega

/-- The bytes that a call stores to which are not the kernel's own: its handler where the
caller says, and `kzalloc` with what the handler asks for. -/
def Syscall.ReachesWith (call : Syscall) (zeroed : List ZeroedBlock) (b : Ptr) : Prop :=
  call.Reaches b ∨ ∃ z ∈ zeroed, z.Reaches b

namespace Sched

/-- Blocks that are not in use. -/
structure LoadValid (s : Sched) (mem : LoadMemory) : Prop where
  process : mem.process ≠ 0 → s.procs mem.process = none
  task : mem.task ≠ 0 → Context.InHeap mem.task ∧ s.tasks mem.task = none

/-- What a load that returns has done. -/
structure LoadDone (s : Sched) (mem : LoadMemory) (outcome : LoadOutcome) (res : Int)
    (s' : Sched) : Prop where
  live : ∀ t, s'.Live t → (t = mem.task ∧ s.ReachesTask mem outcome) ∨ s.Live t
  made : s.ReachesTask mem outcome → mem.task ≠ 0
  current : s.taskHead ≠ 0 → s.Live s.currentTask → s'.currentTask = s.currentTask
  head : s.taskHead ≠ 0 → s'.taskHead = s.taskHead
  result : (res < 0 ∧ IsInt res ∧ s.LoadFails mem outcome) ∨
    (res = 0 ∧ ¬ s.LoadFails mem outcome ∧
      ∃ link, s'.procs mem.process = some link ∧ link.task = mem.task)

theorem taskNew_zero
    {s : Sched} (hzero : ¬ s.Live 0) (process pageDirectory : Ptr) :
    s.taskNew 0 process pageDirectory = .error .fault := by
  rw [taskNew, if_pos rfl, taskFree, taskListRemove, task_eq_error hzero]
  rfl

/-- With a list that is not empty a new task goes behind its tail. -/
theorem taskNew_listed
    {s s' : Sched} {task process pageDirectory t : Ptr} (h0 : task ≠ 0) (hhead : s.taskHead ≠ 0)
    (h : s.taskNew task process pageDirectory = .ok (t, s')) :
    s'.currentTask = s.currentTask ∧ s'.taskHead = s.taskHead := by
  rw [taskNew, if_neg h0] at h
  replace h := (if_neg hhead).symm.trans h
  obtain ⟨tail, -, h⟩ := bind_eq_ok_iff.mp h
  obtain ⟨new, -, h⟩ := bind_eq_ok_iff.mp h
  cases h
  exact ⟨rfl, rfl⟩

theorem unlinkPrev_listed
    {s s' : Sched} {record : Task}
    (h : s.unlinkPrev record = .ok s') :
    s'.currentTask = s.currentTask ∧ s'.taskHead = s.taskHead := by
  rw [unlinkPrev] at h
  split_ifs at h
  · obtain ⟨prev, -, h⟩ := bind_eq_ok_iff.mp h
    cases h
    exact ⟨rfl, rfl⟩
  · cases h
    exact ⟨rfl, rfl⟩

theorem leaveTask_listed
    {s s' : Sched} {task : Ptr} {record : Task}
    (h : s.leaveTask task record = .ok s') :
    (task ≠ s.currentTask → s'.currentTask = s.currentTask) ∧ s'.taskHead = s.taskHead := by
  let s₁ : Sched := if task = s.taskTail then { s with taskTail := record.prev } else s
  have hsame : s₁.currentTask = s.currentTask ∧ s₁.taskHead = s.taskHead := by
    dsimp only [s₁]
    split_ifs <;> exact ⟨rfl, rfl⟩
  by_cases heq : task = s₁.currentTask
  · obtain ⟨next, -, hnext⟩ := bind_eq_ok_iff.mp ((if_pos heq).symm.trans h)
    cases hnext
    exact ⟨fun hne => absurd (heq.trans hsame.1) hne, hsame.2⟩
  · have hleave : s.leaveTask task record = .ok s₁ := if_neg heq
    rw [← Except.ok.inj (hleave.symm.trans h)]
    exact ⟨fun _ => hsame.1, hsame.2⟩

/-- No removal moves the head, and that of another task leaves the current one. -/
theorem taskFree_listed
    {s s' : Sched} {task : Ptr}
    (h : s.taskFree task = .ok s') :
    (task ≠ s.currentTask → s'.currentTask = s.currentTask) ∧ s'.taskHead = s.taskHead := by
  obtain ⟨s₂, hremove, hset⟩ := bind_eq_ok_iff.mp h
  cases hset
  cases hrecord : s.tasks task with
  | none =>
      have hdead : ¬ s.Live task := by simp [Live, hrecord]
      rw [taskListRemove, task_eq_error hdead] at hremove
      cases hremove
  | some record =>
      rw [taskListRemove_split hrecord] at hremove
      obtain ⟨s₁, hunlink, hleave⟩ := bind_eq_ok_iff.mp hremove
      obtain ⟨hcurrent₁, hhead₁⟩ := unlinkPrev_listed hunlink
      obtain ⟨hcurrent₂, hhead₂⟩ := leaveTask_listed hleave
      rw [hcurrent₁] at hcurrent₂
      exact ⟨hcurrent₂, hhead₂.trans hhead₁⟩

/-- The tasks after a process is freed. -/
theorem processFreeProcess_inv
    {s s' : Sched} {process : Ptr} {link : ProcessLink} (hlink : s.procs process = some link)
    (h : s.processFreeProcess process = .ok s') :
    (∀ t, s'.Live t → s.Live t ∧ (link.task ≠ 0 → t ≠ link.task)) ∧
      s'.taskHead = s.taskHead ∧
      (link.task ≠ s.currentTask → s'.currentTask = s.currentTask) := by
  rw [processFreeProcess, proc_eq_ok hlink, ok_bind] at h
  by_cases h0 : link.task = 0
  · rw [if_neg (not_not.mpr h0)] at h
    cases h
    exact ⟨fun t ht => ⟨ht, fun hne => absurd h0 hne⟩, rfl, fun _ => rfl⟩
  · rw [if_pos h0] at h
    obtain ⟨s₁, hfree, heq⟩ := bind_eq_ok_iff.mp h
    cases heq
    obtain ⟨hcurrent, hhead⟩ := taskFree_listed hfree
    have hremoved := taskFree_inv hfree
    refine ⟨fun t ht => ?_, hhead, hcurrent⟩
    obtain ⟨hne, hlive⟩ := (hremoved.live_iff t).mp ht
    exact ⟨hlive, fun _ => hne⟩

section Load

variable {s s' : Sched} {mem : LoadMemory} {outcome : LoadOutcome} {res : Int}

/-- A load that ends before `task_new` leaves everything as it is. -/
theorem LoadDone.unchanged
    (hneg : res < 0) (hint : IsInt res) (hfails : s.LoadFails mem outcome)
    (hreaches : ¬ s.ReachesTask mem outcome) :
    LoadDone s mem outcome res s where
  live := fun _ ht => Or.inr ht
  made := fun h => absurd h hreaches
  current := fun _ _ => rfl
  head := fun _ => rfl
  result := Or.inl ⟨hneg, hint, hfails⟩

/-- A load that comes to `task_new` has made its task, and the list that was
there keeps its head and current task. -/
theorem taskNew_ofLoad
    (hzero : ¬ s.Live 0) {slot : Nat} (hreaches : s.ReachesTask mem outcome) {task : Ptr}
    {s₂ : Sched}
    (hnew : (s.setProc mem.process (some ⟨slot, 0⟩)).taskNew mem.task mem.process
      mem.pageDirectory = .ok (task, s₂)) :
    task = mem.task ∧ mem.task ≠ 0 ∧
      (s.taskHead ≠ 0 → s₂.currentTask = s.currentTask ∧ s₂.taskHead = s.taskHead) ∧
      ∀ t, s₂.Live t → (t = mem.task ∧ s.ReachesTask mem outcome) ∨ s.Live t := by
  let s₁ := s.setProc mem.process (some ⟨slot, 0⟩)
  have h0 : mem.task ≠ 0 := by
    intro h0
    rw [h0] at hnew
    cases (@taskNew_zero s₁ hzero _ _).symm.trans hnew
  obtain ⟨rfl, hcreated⟩ := taskNew_inv h0 hnew
  exact ⟨rfl, h0, fun hhead => @taskNew_listed s₁ _ _ _ _ _ h0 hhead hnew,
    fun t ht => ((hcreated.live_iff t).mp ht).imp (fun heq => ⟨heq, hreaches⟩) id⟩

/-- A load that comes to the end of `process_load_switch` does not fail. -/
theorem not_loadFails_of_slot
    {slot : Nat} (hslot : s.processGetFreeSlot = some slot) (hp : mem.process ≠ 0)
    (hprogram : outcome ≠ .noProgram) (hmapped : outcome ≠ .notMapped) :
    ¬ s.LoadFails mem outcome := by
  rintro (hnone | hzero | hout)
  · rw [hslot] at hnone
    cases hnone
  · exact hp hzero
  · cases outcome with
    | noProgram => exact hprogram rfl
    | notMapped => exact hmapped rfl
    | mapped => exact hout rfl

theorem processLoadSwitch_done
    (hzero : ¬ s.Live 0) (hvalid : s.LoadValid mem)
    (heq : s.processLoadSwitch mem outcome = .ok (res, s')) :
    LoadDone s mem outcome res s' := by
  cases hslot : s.processGetFreeSlot with
  | none =>
      rw [processLoadSwitch, hslot] at heq
      cases heq
      exact LoadDone.unchanged (by decide) (by decide) (Or.inl hslot) fun h => h.1 hslot
  | some slot =>
      by_cases hp : mem.process = 0
      · rw [processLoadSwitch, hslot] at heq
        cases (if_pos hp).symm.trans heq
        exact LoadDone.unchanged (by decide) (by decide) (Or.inr (Or.inl hp)) fun h => h.2.1 hp
      · by_cases houtcome : outcome = .noProgram
        · rw [houtcome, processLoadSwitch_noProgram_eq hslot hp (hvalid.process hp)] at heq
          cases heq
          exact LoadDone.unchanged (by decide) (by decide)
            (Or.inr (Or.inr (by rw [houtcome]; decide))) fun h => h.2.2 houtcome
        · have hreaches : s.ReachesTask mem outcome :=
            ⟨by rw [hslot]; exact Option.some_ne_none slot, hp, houtcome⟩
          rw [processLoadSwitch_eq hslot hp houtcome] at heq
          obtain ⟨⟨task, s₂⟩, hnew, heq⟩ := bind_eq_ok_iff.mp heq
          obtain ⟨rfl, h0, hlisted, hlive⟩ := taskNew_ofLoad hzero hreaches hnew
          let s₃ := s₂.setProc mem.process (some ⟨slot, mem.task⟩)
          by_cases hmapped : outcome = .notMapped
          · obtain ⟨s₄, hfree, hpure⟩ := bind_eq_ok_iff.mp ((if_pos hmapped).symm.trans heq)
            cases hpure
            obtain ⟨hlive₄, hhead₄, hcurrent₄⟩ :=
              @processFreeProcess_inv s₃ _ _ ⟨slot, mem.task⟩ (if_pos rfl) hfree
            refine ⟨fun t ht => hlive t (hlive₄ t ht).1, fun _ => h0, fun hhead hcurrent => ?_,
              fun hhead => hhead₄.trans (hlisted hhead).2,
              Or.inl ⟨by decide, by decide, Or.inr (Or.inr (by rw [hmapped]; decide))⟩⟩
            have hcurrent₂ : s₃.currentTask = s.currentTask := (hlisted hhead).1
            refine (hcurrent₄ fun heq => ?_).trans hcurrent₂
            rw [Live, ← hcurrent₂, ← heq, (hvalid.task h0).2] at hcurrent
            cases hcurrent
          · cases (if_neg hmapped).symm.trans heq
            refine ⟨hlive, fun _ => h0, fun hhead _ => (hlisted hhead).1,
              fun hhead => (hlisted hhead).2,
              Or.inr ⟨rfl, not_loadFails_of_slot hslot hp houtcome hmapped, ⟨slot, mem.task⟩,
                if_pos rfl, rfl⟩⟩

end Load

/-- An exit that returns has freed tasks and gone on with one that is left. -/
theorem isr80hCommand9Exit_inv
    {s s' : Sched}
    (h : s.isr80hCommand9Exit = .ok s') :
    (∀ t, s'.Live t → s.Live t) ∧ s'.taskHead = s.taskHead ∧ s'.Live s'.currentTask := by
  obtain ⟨current, -, h⟩ := bind_eq_ok_iff.mp h
  obtain ⟨s₂, hterminate, hnext⟩ := bind_eq_ok_iff.mp h
  obtain ⟨t, rfl, ht⟩ := taskNext_inv hnext
  obtain ⟨s₁, hunlink, hfree⟩ := bind_eq_ok_iff.mp hterminate
  have hunlinked : s₁.tasks = s.tasks ∧ s₁.taskHead = s.taskHead := by
    obtain ⟨link, -, hunlink⟩ := bind_eq_ok_iff.mp hunlink
    dsimp only at hunlink
    split_ifs at hunlink
    · rw [processSwitchToAny] at hunlink
      split at hunlink
      · cases hunlink
        exact ⟨rfl, rfl⟩
      · cases hunlink
    · cases hunlink
      exact ⟨rfl, rfl⟩
  obtain ⟨link, hlink, -⟩ := bind_eq_ok_iff.mp hfree
  rw [proc] at hlink
  cases hlinked : s₁.procs current.process with
  | none =>
      rw [hlinked] at hlink
      cases hlink
  | some link' =>
      obtain ⟨hlive, hhead, -⟩ := processFreeProcess_inv hlinked hfree
      refine ⟨fun t ht => ?_, hhead.trans hunlinked.2, ht⟩
      have hlive₁ := (hlive t ht).1
      rw [Live, hunlinked.1] at hlive₁
      exact hlive₁

end Sched

namespace Syscall

def Valid (s : Sched) : Syscall → Prop
  | .plain command _ => command ∉ [1, 3, 6, 7, 8, 9]
  | .prints command _ text => command = 1 ∨ command = 3 ∧ text.length = 1
  | .getArguments .. => True
  | .loadStart copied mem _ _ => IsInt copied ∧ s.LoadValid mem
  | .invoke _ mem _ _ injected => IsInt injected ∧ s.LoadValid mem

def loadStatus (s : Sched) (mem : LoadMemory) (outcome : LoadOutcome) : Int :=
  match s.processLoadSwitch mem outcome with
  | .ok (res, _) => res
  | .error _ => 0

/-- The first error on the way of the calls 6 and 7, or zero. -/
def status (s : Sched) : Syscall → Int
  | .plain .. => 0
  | .prints .. => 0
  | .getArguments .. => 0
  | .loadStart copied mem outcome _ =>
      if copied < 0 then copied else loadStatus s mem outcome
  | .invoke arguments mem outcome _ injected =>
      if ¬ arguments then -einvarg
      else if loadStatus s mem outcome < 0 then loadStatus s mem outcome
      else if injected < 0 then injected
      else 0

/-- What the caller is to find in `eax`. -/
def wanted (s : Sched) (call : Syscall) : Word :=
  match call with
  | .plain _ value => value
  | .prints .. => 0
  | .getArguments .. => 0
  | .loadStart .. => errorValue (call.status s)
  | .invoke .. => errorValue (call.status s)

/-- The call 6 never tells its caller the status, and the call 7 does when it
starts no process. -/
def Delivers (s : Sched) : Syscall → Prop
  | .plain .. => True
  | .prints .. => True
  | .getArguments .. => True
  | .loadStart .. => False
  | .invoke arguments mem outcome _ injected =>
      arguments = false ∨ s.LoadFails mem outcome ∨ injected < 0

end Syscall

/-- What the call promises when a handler ends. -/
def Handled.Done (s : Sched) (call : Syscall) (s' : Sched) : Handled → Prop
  | .returns value => s'.currentTask = s.currentTask ∧ (value = call.wanted s ↔ call.Delivers s)
  | .starts task => s'.currentTask = task ∧ s'.Live task ∧ ¬ s.Live task ∧
      call.wanted s = 0 ∧ call.command ≠ 0 ∧ ¬ call.Delivers s

structure HandlerDone (s : Sched) (call : Syscall) (handled : Handled) (s' : Sched) : Prop where
  live : ∀ t, s'.Live t → (∃ entry, call.made s = some (t, entry)) ∨ s.Live t
  made : ∀ t entry, call.made s = some (t, entry) → Context.InHeap t ∧ s.tasks t = none
  head : s'.taskHead = s.taskHead
  done : handled.Done s call s'

theorem errorValue_ne_zero
    {status : Int} (hint : IsInt status) (hneg : status < 0) :
    errorValue status ≠ 0 := by
  intro h
  have htoInt := toInt_of_isInt hint
  rw [toInt, show BitVec.ofInt 32 status = 0 from h] at htoInt
  rw [← htoInt] at hneg
  exact absurd hneg (by decide)

section Handlers

variable {s s' : Sched} {mem : LoadMemory} {outcome : LoadOutcome} {entry : Option Word}

theorem Syscall.loadStatus_eq
    {res : Int} (h : s.processLoadSwitch mem outcome = .ok (res, s')) :
    Syscall.loadStatus s mem outcome = res := by
  rw [Syscall.loadStatus, h]

/-- A handler that gives up before it loads. -/
theorem HandlerDone.unchanged
    {call : Syscall} {value : Word} (hload : call.load? = none)
    (hvalue : value = call.wanted s ↔ call.Delivers s) :
    HandlerDone s call (.returns value) s where
  live := fun _ ht => Or.inr ht
  made := fun t entry h => by
    rw [Syscall.made, hload] at h
    cases h
  head := rfl
  done := ⟨rfl, hvalue⟩

/-- A handler behind its load. -/
theorem HandlerDone.ofLoad
    {call : Syscall} {handled : Handled} {res : Int} {s₁ : Sched}
    (hload : call.load? = some (mem, outcome, entry)) (hvalid : s.LoadValid mem)
    (hdone : s.LoadDone mem outcome res s₁) (hhead : s.taskHead ≠ 0)
    (hsame : s'.tasks = s₁.tasks ∧ s'.taskHead = s₁.taskHead)
    (h : handled.Done s call s') :
    HandlerDone s call handled s' := by
  have hmade : call.made s =
      if s.ReachesTask mem outcome then some (mem.task, entry) else none := by
    rw [Syscall.made, hload]
  refine ⟨fun t ht => ?_, fun t entry' heq => ?_, hsame.2.trans (hdone.head hhead), h⟩
  · rw [Sched.Live, hsame.1] at ht
    refine (hdone.live t ht).imp (fun hnew => ⟨entry, ?_⟩) id
    rw [hmade, if_pos hnew.2, hnew.1]
  · rw [hmade] at heq
    split_ifs at heq with hreaches
    cases heq
    exact hvalid.task (hdone.made hreaches)

/-- The calls 6 and 7 start the process that they have loaded. -/
theorem startProcess_done
    {call : Syscall} {handled : Handled} {s₁ : Sched}
    (hload : call.load? = some (mem, outcome, entry)) (hvalid : s.LoadValid mem)
    (hdone : s.LoadDone mem outcome 0 s₁) (hhead : s.taskHead ≠ 0)
    (hwanted : call.wanted s = 0) (hcommand : call.command ≠ 0) (hdelivers : ¬ call.Delivers s)
    (h : s₁.startProcess mem.process = .ok (handled, s')) :
    HandlerDone s call handled s' := by
  obtain ⟨-, hfails, link, hlink, htask⟩ :=
    hdone.result.resolve_left fun hneg => absurd hneg.1 (by decide)
  rw [Sched.startProcess, Sched.proc_eq_ok hlink, ok_bind, htask] at h
  obtain ⟨s₂, hswitch, heq⟩ := bind_eq_ok_iff.mp h
  cases heq
  obtain ⟨rfl, hlive⟩ := Sched.taskSwitch_inv hswitch
  have hreaches : s.ReachesTask mem outcome := by
    rw [Sched.LoadFails, not_or, not_or, not_not] at hfails
    refine ⟨hfails.1, hfails.2.1, ?_⟩
    rw [hfails.2.2]
    decide
  have hfresh : ¬ s.Live mem.task := by
    rw [Sched.Live, (hvalid.task (hdone.made hreaches)).2]
    decide
  exact HandlerDone.ofLoad hload hvalid hdone hhead ⟨rfl, rfl⟩
    ⟨rfl, hlive, hfresh, hwanted, hcommand, hdelivers⟩

theorem isr80hCommand6ProcessLoadStart_done
    {copied : Int} {handled : Handled} (hzero : ¬ s.Live 0) (hhead : s.taskHead ≠ 0)
    (hcurrent : s.Live s.currentTask)
    (hvalid : (Syscall.loadStart copied mem outcome entry).Valid s)
    (h : s.isr80hCommand6ProcessLoadStart copied mem outcome = .ok (handled, s')) :
    HandlerDone s (.loadStart copied mem outcome entry) handled s' := by
  obtain ⟨hint, hvalid⟩ := hvalid
  rw [Sched.isr80hCommand6ProcessLoadStart] at h
  by_cases hcopied : copied < 0
  · rw [if_pos hcopied] at h
    cases h
    refine HandlerDone.unchanged (if_pos hcopied) (iff_of_false (fun heq => ?_) id)
    rw [Syscall.wanted, Syscall.status, if_pos hcopied] at heq
    exact errorValue_ne_zero hint hcopied heq.symm
  · rw [if_neg hcopied] at h
    obtain ⟨⟨res, s₁⟩, hload, h⟩ := bind_eq_ok_iff.mp h
    have hdone := Sched.processLoadSwitch_done hzero hvalid hload
    have hload? : (Syscall.loadStart copied mem outcome entry).load? = some (mem, outcome, entry) :=
      if_neg hcopied
    have hwanted : (Syscall.loadStart copied mem outcome entry).wanted s = errorValue res := by
      rw [Syscall.wanted, Syscall.status, if_neg hcopied, Syscall.loadStatus_eq hload]
    dsimp only at h
    rcases hdone.result with ⟨hneg, hres, -⟩ | ⟨rfl, -⟩
    · rw [if_pos hneg] at h
      cases h
      refine HandlerDone.ofLoad hload? hvalid hdone hhead ⟨rfl, rfl⟩
        ⟨hdone.current hhead hcurrent, iff_of_false (fun heq => ?_) id⟩
      rw [hwanted] at heq
      exact errorValue_ne_zero hres hneg heq.symm
    · exact startProcess_done hload? hvalid hdone hhead hwanted (by decide : (6 : Word) ≠ 0) id h

theorem isr80hCommand7InvokeSystemCommand_done
    {arguments : Bool} {injected : Int} {handled : Handled} (hzero : ¬ s.Live 0)
    (hhead : s.taskHead ≠ 0) (hcurrent : s.Live s.currentTask)
    (hvalid : (Syscall.invoke arguments mem outcome entry injected).Valid s)
    (h : s.isr80hCommand7InvokeSystemCommand arguments mem outcome injected =
      .ok (handled, s')) :
    HandlerDone s (.invoke arguments mem outcome entry injected) handled s' := by
  obtain ⟨hint, hvalid⟩ := hvalid
  rw [Sched.isr80hCommand7InvokeSystemCommand] at h
  cases arguments with
  | false =>
      rw [if_pos (by decide)] at h
      cases h
      exact HandlerDone.unchanged rfl (iff_of_true rfl (Or.inl rfl))
  | true =>
      rw [if_neg (by decide)] at h
      obtain ⟨⟨res, s₁⟩, hload, h⟩ := bind_eq_ok_iff.mp h
      have hdone := Sched.processLoadSwitch_done hzero hvalid hload
      have hstatus : (Syscall.invoke true mem outcome entry injected).status s =
          if res < 0 then res else if injected < 0 then injected else 0 := by
        rw [Syscall.status, if_neg (by decide), Syscall.loadStatus_eq hload]
      have hreturn {status : Int}
          (heq : (Syscall.invoke true mem outcome entry injected).status s = status)
          (hdelivers : (Syscall.invoke true mem outcome entry injected).Delivers s) :
          HandlerDone s (.invoke true mem outcome entry injected)
            (.returns (errorValue status)) s₁ :=
        HandlerDone.ofLoad rfl hvalid hdone hhead ⟨rfl, rfl⟩
          ⟨hdone.current hhead hcurrent, iff_of_true (by rw [Syscall.wanted, heq]) hdelivers⟩
      dsimp only at h
      rcases hdone.result with ⟨hneg, -, hfails⟩ | ⟨rfl, hfails, -⟩
      · rw [if_pos hneg] at h hstatus
        cases h
        exact hreturn hstatus (Or.inr (Or.inl hfails))
      · rw [if_neg (by decide)] at h hstatus
        by_cases hinjected : injected < 0
        · rw [if_pos hinjected] at h hstatus
          cases h
          exact hreturn hstatus (Or.inr (Or.inr hinjected))
        · rw [if_neg hinjected] at h hstatus
          refine startProcess_done rfl hvalid hdone hhead ?_ (by decide : (7 : Word) ≠ 0) ?_ h
          · rw [Syscall.wanted, hstatus]
            decide
          · rintro (hnone | hfails' | hneg)
            · cases hnone
            · exact hfails hfails'
            · exact hinjected hneg

/-- Every handler that ends has done what its call promises, where it can. -/
theorem isr80hHandlerCommand_done
    {call : Syscall} {handled : Handled} (hzero : ¬ s.Live 0) (hhead : s.taskHead ≠ 0)
    (hcurrent : s.Live s.currentTask) (hvalid : call.Valid s)
    (h : s.isr80hHandlerCommand call = .ok (handled, s')) :
    HandlerDone s call handled s' := by
  cases call with
  | plain command value =>
      cases h
      exact HandlerDone.unchanged rfl (iff_of_true rfl trivial)
  | prints command terminal text =>
      cases h
      exact HandlerDone.unchanged rfl (iff_of_true rfl trivial)
  | getArguments arguments argc argv =>
      cases h
      exact HandlerDone.unchanged rfl (iff_of_true rfl trivial)
  | loadStart copied mem outcome entry =>
      exact isr80hCommand6ProcessLoadStart_done hzero hhead hcurrent hvalid h
  | invoke arguments mem outcome entry injected =>
      exact isr80hCommand7InvokeSystemCommand_done hzero hhead hcurrent hvalid h

end Handlers

namespace Context

/-- Everything but the making of tasks, which a load does. -/
def Event.AfterLoad : Event → Prop
  | .create .. => False
  | _ => True

inductive CallEvent where
  /-- `process_load_switch` in `kernel_main`, which panics when it fails. -/
  | load (mem : LoadMemory) (entry : Option Word)
  | event (e : Event)
  /-- `zeroed` is what `kzalloc` gives during the call. -/
  | call (call : Syscall) (zeroed : List ZeroedBlock)
  /-- The call 9, or an exception without an error code: `n` is the number that is
  pushed. -/
  | exit (n : Word)

/-- What a handler has written when it comes to `task_init` or ends; apart from what it gets
of `kzalloc` it keeps the stack of the kernel above it and the tasks for the rest. -/
structure HandlerWrites (s : Sched) (call : Syscall) (zeroed : List ZeroedBlock)
    (mem mem' : Memory) : Prop where
  frame : ∀ b : Ptr, interruptFrame.toNat ≤ b.toNat → b.toNat < kernelStack.toNat →
    (∀ z ∈ zeroed, ¬ z.Reaches b) → mem' b = call.stores mem b
  tasks : ∀ t, s.Live t → ∀ b, InRegisters t b → (∀ z ∈ zeroed, ¬ z.Reaches b) →
    mem' b = call.stores mem b

/-- The bytes that the kernel has for itself: the table of its heap, its image and its stack,
and what the heap holds of the tasks and the processes. -/
def KernelKeeps (s : Sched) (b : Ptr) : Prop :=
  (heapTableAddress ≤ b.toNat ∧ b.toNat < heapTableAddress + heapSizeBytes / heapBlockSize) ∨
    (kernelAddress ≤ b.toNat ∧ b.toNat < kernelStack.toNat) ∨
    (∃ t, s.Live t ∧ (b - t).toNat < sizeofTask.toNat) ∨
    ∃ p, s.procs p ≠ none ∧ (b - p).toNat < sizeofProcess.toNat

/-- The call stores nothing there. -/
def CallEvent.Apart (s : Sched) : CallEvent → Prop
  | .call c zeroed => ∀ b, c.ReachesWith zeroed b → ¬ KernelKeeps s b
  | _ => True

def makeTask (made : Option (Ptr × Option Word)) (mem : Memory) : Memory :=
  made.elim mem fun (task, entry) => taskInit mem task entry

def makeLast (made : Option (Ptr × Option Word)) (last : Ptr → Field → Word) :
    Ptr → Field → Word :=
  made.elim last fun (task, entry) => setLast last task (initialRegisters entry)

/-- The kernel when the handler of a call has made its task. -/
def handling (s : Context) (m : Machine) (call : Syscall) (sched : Sched) (mem : Memory) :
    Context where
  sched := sched
  cpu := { saveState m s.sched.currentTask with mem := makeTask (call.made s.sched) mem }
  user := false
  last := makeLast (call.made s.sched)
    (setLast s.last s.sched.currentTask (frameAt m.mem (frameArgument m)))

/-- `tmpRes` is the address of `tmp_res`. -/
inductive CallStep (callbacks : Word → Option Callback) (next : Word) (tmpRes : Ptr) :
    Context → CallEvent → Context → Prop
  | load {s : Context} {m : Machine} {sched : Sched} {mem : LoadMemory} {entry : Option Word}
      (boot : s.user = false) (valid : s.sched.LoadValid mem)
      (runs : KernelRuns s.sched s.cpu m)
      (loads : s.sched.processLoadSwitch mem .mapped = .ok (0, sched)) :
      CallStep callbacks next tmpRes s (.load mem entry)
        { sched := sched
          cpu := { m with mem := taskInit m.mem mem.task entry }
          user := false
          last := setLast s.last mem.task (initialRegisters entry) }
  | event {s s' : Context} {e : Event}
      (afterLoad : e.AfterLoad) (step : Step callbacks next s e s') :
      CallStep callbacks next tmpRes s (.event e) s'
  | returns {s : Context} {m m' : Machine} {mem : Memory} {sched sched' : Sched}
      {call : Syscall} {zeroed : List ZeroedBlock} {value : Word}
      (running : s.user = true) (command : s.cpu.reg .eax = call.command)
      (valid : call.Valid s.sched) (enter : enterSyscall s.cpu = m)
      (current : s.sched.currentTask ≠ 0)
      (handler : s.sched.isr80hHandlerCommand call = .ok (.returns value, sched))
      (writes : HandlerWrites s.sched call zeroed (saveState m s.sched.currentTask).mem mem)
      (returns : HandlerReturns sched (s.handling m call sched mem).cpu m')
      (result : m'.reg .eax = value)
      (switch : sched.taskSwitch sched.currentTask = .ok sched') :
      CallStep callbacks next tmpRes s (.call call zeroed)
        { sched := sched'
          cpu := m'.steps (isr80hReturn tmpRes)
          user := true
          last := (s.handling m call sched mem).last }
  | starts {s : Context} {m m' m'' : Machine} {mem : Memory} {sched : Sched}
      {call : Syscall} {zeroed : List ZeroedBlock} {task : Ptr}
      (running : s.user = true) (command : s.cpu.reg .eax = call.command)
      (valid : call.Valid s.sched) (enter : enterSyscall s.cpu = m)
      (current : s.sched.currentTask ≠ 0)
      (handler : s.sched.isr80hHandlerCommand call = .ok (.starts task, sched))
      (writes : HandlerWrites s.sched call zeroed (saveState m s.sched.currentTask).mem mem)
      (calls : CallsTaskReturn sched (s.handling m call sched mem).cpu m' (taskRegisters task))
      (exec : m'.exec (taskReturn next) = some m'') :
      CallStep callbacks next tmpRes s (.call call zeroed)
        { sched := sched
          cpu := m''
          user := true
          last := (s.handling m call sched mem).last }
  | exit {s : Context} {n : Word} {m m' m'' : Machine} {sched : Sched}
      (running : s.user = true) (number : n.toNat < 0x20) (enter : enterInterrupt s.cpu n = m)
      (current : s.sched.currentTask ≠ 0) (exits : s.sched.isr80hCommand9Exit = .ok sched)
      (calls : CallsTaskReturn sched (saveState m s.sched.currentTask) m'
        (taskRegisters sched.currentTask))
      (exec : m'.exec (taskReturn next) = some m'') :
      CallStep callbacks next tmpRes s (.exit n)
        { sched := sched
          cpu := m''
          user := true
          last := setLast s.last s.sched.currentTask (frameAt m.mem (frameArgument m)) }

/-- A step of a run in which no call stores over what the kernel has for itself. -/
def ApartStep (callbacks : Word → Option Callback) (next : Word) (tmpRes : Ptr) :
    Context → CallEvent → Context → Prop :=
  Guarded (fun s e => e.Apart s.sched) (CallStep callbacks next tmpRes)

structure CallInv (s : Context) : Prop extends SavedInv s where
  head : s.user = true → s.sched.taskHead ≠ 0

/-- What a step leaves of the tasks that do not run. -/
structure StepWaits (s s' : Context) : Prop where
  user : s'.user = true
  last : ∀ t, s.sched.Live t → t ≠ s.sched.currentTask → s'.last t = s.last t
  resumes : s'.sched.currentTask ≠ s.sched.currentTask → ∀ f ∈ registersLayout, f ≠ .flags →
    userRegister s'.cpu f = s'.last s'.sched.currentTask f

/-- What a call has done when a task runs again. -/
structure CallDone (s : Context) (call : Syscall) (s' : Context) : Prop extends
    StepWaits s s' where
  direct : s'.sched.currentTask = s.sched.currentTask →
    (userRegister s'.cpu .eax = call.wanted s.sched ↔ call.Delivers s.sched) ∧
      ∀ f ∈ registersLayout, f ≠ .eax → userRegister s'.cpu f = userRegister s.cpu f
  later : s'.sched.currentTask ≠ s.sched.currentTask →
    call.wanted s.sched = 0 ∧ call.command ≠ 0 ∧ ¬ call.Delivers s.sched ∧
      s.cpu.reg .eax = call.command ∧
      ∀ f ∈ registersLayout, s'.last s.sched.currentTask f = userRegister s.cpu f

/-- The frame and the tasks are as they were. -/
structure KeepsSaved (s : Sched) (mem mem' : Memory) : Prop where
  frame : ∀ b : Ptr, interruptFrame.toNat ≤ b.toNat → b.toNat < kernelStack.toNat →
    mem' b = mem b
  tasks : KeepsTasks s mem mem'

/-- What is stored apart from the kernel is apart from the frame and the tasks. -/
theorem HandlerWrites.keepsSaved
    {s : Sched} {call : Syscall} {zeroed : List ZeroedBlock} {mem mem' : Memory}
    (h : HandlerWrites s call zeroed mem mem')
    (hapart : ∀ b, call.ReachesWith zeroed b → ¬ KernelKeeps s b) :
    KeepsSaved s mem mem' := by
  have hzeroed {b : Ptr} (hb : KernelKeeps s b) (z : ZeroedBlock) (hz : z ∈ zeroed) :
      ¬ z.Reaches b :=
    fun hreach => hapart b (Or.inr ⟨z, hz, hreach⟩) hb
  have hstores {b : Ptr} (hb : KernelKeeps s b) : call.stores mem b = mem b :=
    Syscall.stores_of_not_reaches mem fun hreach => hapart b (Or.inl hreach) hb
  constructor
  · intro b hlo hhi
    have hb : KernelKeeps s b := Or.inr (Or.inl ⟨Nat.le_trans (by decide) hlo, hhi⟩)
    exact (h.frame b hlo hhi (hzeroed hb)).trans (hstores hb)
  · intro t ht b hin
    have hb : KernelKeeps s b := by
      refine Or.inr (Or.inr (Or.inl ⟨t, ht, ?_⟩))
      have hsize : sizeofTask.toNat = 64 := rfl
      rw [InRegisters] at hin
      rw [BitVec.toNat_sub, hsize]
      omega
    exact (h.tasks t ht b hin (hzeroed hb)).trans (hstores hb)

namespace SavedInv

variable {s : Context}

/-- What the handler has saved, written and made. -/
theorem handling
    (h : SavedInv s) (huser : s.user = true) {m : Machine} {n : Word} (he : Entered s.cpu m n)
    {call : Syscall} {sched : Sched} {mem : Memory}
    (hwrites : KeepsSaved s.sched (saveState m s.sched.currentTask).mem mem)
    (hlive : ∀ t, sched.Live t → (∃ entry, call.made s.sched = some (t, entry)) ∨ s.sched.Live t)
    (hmade : ∀ t entry, call.made s.sched = some (t, entry) → InHeap t) :
    SavedInv (s.handling m call sched mem) := by
  have hruns := (h.parked huser he).runs rfl
    (m := { saveState m s.sched.currentTask with mem := mem }) ⟨rfl, hwrites.tasks⟩
  cases hcall : call.made s.sched with
  | none =>
      rw [Context.handling, hcall]
      refine hruns.frees rfl fun t ht => (hlive t ht).resolve_left ?_
      rintro ⟨entry, heq⟩
      rw [hcall] at heq
      cases heq
  | some made =>
      obtain ⟨task, entry⟩ := made
      rw [Context.handling, hcall]
      refine hruns.makes rfl entry (hmade task entry hcall) fun t ht => (hlive t ht).imp ?_ id
      rintro ⟨entry', heq⟩
      rw [hcall] at heq
      cases heq
      rfl

/-- The frame is above what a handler writes and below the tasks. -/
theorem handling_frame
    (h : SavedInv s) (huser : s.user = true) {m : Machine} {n : Word} (he : Entered s.cpu m n)
    {call : Syscall} {sched : Sched} {mem : Memory}
    (hwrites : KeepsSaved s.sched (saveState m s.sched.currentTask).mem mem)
    (hmade : ∀ t entry, call.made s.sched = some (t, entry) → InHeap t) :
    Words (s.handling m call sched mem).cpu.mem interruptFrame (frameWords s.cpu) := by
  have hstack : kernelStack.toNat = interruptFrame.toNat + 52 := by decide
  have hlength : (frameWords s.cpu).length = 13 := rfl
  have htask (mem' : Memory) (b : Ptr) (hb : b.toNat < kernelStack.toNat) :
      makeTask (call.made s.sched) mem' b = mem' b := by
    cases hcall : call.made s.sched with
    | none => rfl
    | some made =>
        have hbounds := (hmade made.1 made.2 hcall).bounds
        have hkernel : kernelStack.toNat = 0x600000 := by decide
        exact (taskInit_spec hbounds.2 mem' made.2).2 b (Or.inl (by omega))
  refine he.words.congr (by rw [hlength]; decide) fun b hlo hhi => ?_
  rw [hlength] at hhi
  have hb : b.toNat < kernelStack.toNat := by omega
  refine (htask mem b hb).trans ((hwrites.frame b hlo hb).trans ?_)
  refine (h.saveState_spec huser he).2 b fun hin => ?_
  exact absurd ((h.placed _ (h.running huser)).above hin) (by omega)

/-- The wrapper goes back to the task that the frame is of. -/
theorem answers
    (h : SavedInv s) (hboot : s.user = false) {u m : Machine} {tmpRes t : Ptr}
    (htmp : InKernelImage tmpRes) (hwords : Words s.cpu.mem interruptFrame (frameWords u))
    (hesp : s.cpu.reg .esp + 8 = interruptFrame) (hmode : u.cs &&& 3 = 3)
    (hreturns : HandlerReturns s.sched s.cpu m) (ht : s.sched.Live t) :
    let s' : Context :=
      { sched := { s.sched with currentTask := t }
        cpu := m.steps (isr80hReturn tmpRes)
        user := true
        last := s.last }
    SavedInv s' ∧ ∀ f ∈ registersLayout, userRegister s'.cpu f =
      if f = .eax then m.reg .eax else userRegister u f := by
  have hstack : kernelStack.toNat = interruptFrame.toNat + 52 := by decide
  have hlength : (frameWords u).length = 13 := rfl
  have hwords' : Words m.mem interruptFrame (frameWords u) := by
    refine hwords.congr (by rw [hlength]; decide) fun b hlo hhi => ?_
    rw [hlength] at hhi
    exact hreturns.frame b hlo (by omega)
  obtain ⟨hregs, hmem⟩ := isr80hReturn_spec htmp (by rw [hreturns.esp, hesp]) hwords' (by
    rw [hmode, hreturns.cs, h.boot hboot]
    decide)
  have hkeeps : KeepsTasks s.sched m.mem (m.steps (isr80hReturn tmpRes)).mem := by
    rw [hmem]
    exact h.keepsTasks_of_keepsFrom (htmp.keepsFrom _ _) (by omega)
  intro s'
  refine ⟨⟨h.placed, ?_, h.lastCs, fun hf => Bool.noConfusion hf, ?_, fun _ => ht⟩, hregs⟩
  · intro v hv _ f hf
    refine (h.registersAt_keeps (keepsTasks_trans hreturns.tasks hkeeps) hv hf).trans ?_
    exact h.saved v hv (fun huser => Bool.noConfusion (hboot.symm.trans huser)) f hf
  · intro _
    change userRegister (m.steps (isr80hReturn tmpRes)) .cs &&& 3 = 3
    rw [hregs .cs (by decide), if_neg (by decide)]
    exact hmode

end SavedInv

theorem makeLast_of_ne
    {made : Option (Ptr × Option Word)} {t : Ptr} (last : Ptr → Field → Word)
    (hne : ∀ u entry, made = some (u, entry) → t ≠ u) :
    makeLast made last t = last t := by
  cases made with
  | none => rfl
  | some made => exact SavedInv.setLast_of_ne _ _ (hne made.1 made.2 rfl)

namespace CallInv

variable {s s' : Context} {callbacks : Word → Option Callback} {next : Word} {tmpRes : Ptr}

theorem of_boot (h : Boot s) : CallInv s where
  toSavedInv := SavedInv.of_boot h
  head := fun huser => Bool.noConfusion (h.user.symm.trans huser)

theorem not_live_zero (h : CallInv s) : ¬ s.sched.Live 0 :=
  fun hlive => (h.placed 0 hlive).ne_zero rfl

/-- The last registers of a call's caller and of the others that wait. -/
theorem handling_last
    {m : Machine} {n : Word} (he : Entered s.cpu m n) {call : Syscall} {sched : Sched}
    {mem : Memory} (hmade : ∀ t entry, call.made s.sched = some (t, entry) → s.sched.tasks t = none)
    {t : Ptr} (ht : s.sched.Live t) :
    (t ≠ s.sched.currentTask → (s.handling m call sched mem).last t = s.last t) ∧
      (t = s.sched.currentTask → ∀ f ∈ registersLayout,
        (s.handling m call sched mem).last t f = userRegister s.cpu f) := by
  have hne (u : Ptr) (entry : Option Word) (hu : call.made s.sched = some (u, entry)) : t ≠ u := by
    rintro rfl
    rw [Sched.Live, hmade t entry hu] at ht
    cases ht
  have hlast : (s.handling m call sched mem).last t =
      setLast s.last s.sched.currentTask (frameAt m.mem (frameArgument m)) t :=
    makeLast_of_ne _ hne
  rw [hlast]
  refine ⟨SavedInv.setLast_of_ne _ _, ?_⟩
  rintro rfl f hf
  rw [SavedInv.setLast_same]
  exact SavedInv.frame_eq he hf

/-- A call goes back to its caller, or to the task that it has made. -/
theorem call
    (h : CallInv s) (htmp : InKernelImage tmpRes) {call : Syscall} {zeroed : List ZeroedBlock}
    (hstep : ApartStep callbacks next tmpRes s (.call call zeroed) s') :
    CallInv s' ∧ CallDone s call s' := by
  obtain ⟨hapart, hstep⟩ := hstep
  cases hstep with
  | @returns m m' mem sched sched' _ _ value running command valid enter current handler writes
      returns result switch =>
      have he : Entered s.cpu m (s.cpu.reg .eax) := enter ▸ enterInterrupt_spec s.cpu _
      have hlive := h.running running
      have hhead := h.head running
      obtain ⟨hlives, hmade, hhead', hcurrent, hvalue⟩ :=
        isr80hHandlerCommand_done h.not_live_zero hhead hlive valid handler
      have hinHeap := fun t entry heq => (hmade t entry heq).1
      have hkeeps := writes.keepsSaved hapart
      have hhandling := h.handling running he hkeeps hlives hinHeap
      obtain ⟨rfl, hlive'⟩ := Sched.taskSwitch_inv switch
      obtain ⟨hinv, hregs⟩ := hhandling.answers rfl htmp
        (h.handling_frame running he hkeeps hinHeap) he.esp (h.mode running) returns hlive'
      have hlast := fun t ht => (@handling_last s m _ he call sched mem
        (fun t entry heq => (hmade t entry heq).2) t ht).1
      refine ⟨⟨hinv, fun _ => hhead'.trans_ne hhead⟩, ⟨rfl, hlast, fun hne => absurd hcurrent hne⟩,
        fun _ => ⟨?_, fun f hf hne => ?_⟩, fun hne => absurd hcurrent hne⟩
      · rw [hregs .eax (by decide), if_pos rfl, result]
        exact hvalue
      · rw [hregs f hf, if_neg hne]
  | @starts m m' m'' mem sched _ _ task running command valid enter current handler writes calls
      exec =>
      have he : Entered s.cpu m (s.cpu.reg .eax) := enter ▸ enterInterrupt_spec s.cpu _
      have hlive := h.running running
      have hhead := h.head running
      obtain ⟨hlives, hmade, hhead', hcurrent, hlive', hfresh, hwanted, hcommand, hdelivers⟩ :=
        isr80hHandlerCommand_done h.not_live_zero hhead hlive valid handler
      have hhandling := h.handling running he (writes.keepsSaved hapart) hlives
        fun t entry heq => (hmade t entry heq).1
      obtain ⟨hinv, hresumes, -⟩ := hhandling.leaves rfl hlive' calls exec
      subst hcurrent
      have hlast := fun t ht => @handling_last s m _ he call sched mem
        (fun t entry heq => (hmade t entry heq).2) t ht
      have hne : sched.currentTask ≠ s.sched.currentTask := by
        intro heq
        rw [heq] at hfresh
        exact hfresh hlive
      exact ⟨⟨hinv, fun _ => hhead'.trans_ne hhead⟩,
        ⟨rfl, fun t ht => (hlast t ht).1, fun _ => hresumes.others⟩, fun heq => absurd heq hne,
        fun _ => ⟨hwanted, hcommand, hdelivers, command, (hlast _ hlive).2 rfl⟩⟩

theorem exit
    (h : CallInv s) {n : Word} (hstep : CallStep callbacks next tmpRes s (.exit n) s') :
    CallInv s' ∧ StepWaits s s' := by
  cases hstep with
  | @exit _ m m' m'' sched running number enter current exits calls exec =>
      have he : Entered s.cpu m n := enter ▸ enterInterrupt_spec s.cpu n
      obtain ⟨hlives, hhead, hlive⟩ := Sched.isr80hCommand9Exit_inv exits
      obtain ⟨hinv, hresumes, -⟩ :=
        ((h.parked running he).frees rfl hlives).leaves rfl hlive calls exec
      exact ⟨⟨hinv, fun _ => hhead.trans_ne (h.head running)⟩, rfl,
        fun t _ hne => SavedInv.setLast_of_ne _ _ hne, fun _ => hresumes.others⟩

theorem load
    (h : CallInv s) {mem : LoadMemory} {entry : Option Word}
    (hstep : CallStep callbacks next tmpRes s (.load mem entry) s') :
    CallInv s' := by
  cases hstep with
  | @load m sched _ _ boot valid runs loads =>
      have hdone := Sched.processLoadSwitch_done h.not_live_zero valid loads
      have hslot : s.sched.processGetFreeSlot ≠ none ∧ mem.process ≠ 0 := by
        obtain ⟨-, hfails, -⟩ := hdone.result.resolve_left fun hneg => absurd hneg.1 (by decide)
        rw [Sched.LoadFails, not_or, not_or] at hfails
        exact ⟨hfails.1, hfails.2.1⟩
      have h0 := hdone.made ⟨hslot.1, hslot.2, by decide⟩
      exact ⟨(h.runs boot runs).makes boot entry (valid.task h0).1
        fun t ht => (hdone.live t ht).imp And.left id, fun hf => Bool.noConfusion hf⟩

theorem event
    (h : CallInv s) {e : Event} (hafter : e.AfterLoad) (hstep : Step callbacks next s e s') :
    CallInv s' ∧ (s.user = true → StepWaits s s') := by
  obtain ⟨hinv, hpreserves⟩ := h.toSavedInv.step hstep
  have hinterrupt {n : Word} {flags : Word → Word} (huser : s'.user = true)
      (hp : Interrupted s s' ∧ ResumesWith s' flags) : StepWaits s s' :=
    ⟨huser, fun t _ hne => hp.1.last t hne, fun _ => hp.2.others⟩
  cases hstep with
  | create boot fresh inHeap runs new => cases hafter
  | start boot current switch calls exec =>
      obtain ⟨rfl, hlive⟩ := Sched.taskSwitch_inv switch
      exact ⟨⟨hinv, fun _ => (h.placed _ hlive).ne_zero⟩,
        fun huser => Bool.noConfusion (boot.symm.trans huser)⟩
  | user running mode tasks =>
      exact ⟨⟨hinv, fun _ => h.head running⟩,
        fun _ => ⟨running, fun _ _ _ => rfl, fun hne => absurd rfl hne⟩⟩
  | @direct n m m' sched running enter callback switch returns =>
      obtain ⟨rfl, -⟩ := Sched.taskSwitch_inv switch
      exact ⟨⟨hinv, fun _ => h.head running⟩, fun _ => @hinterrupt n _ rfl hpreserves⟩
  | @callback n m m' sched running enter callback current switch returns =>
      obtain ⟨rfl, -⟩ := Sched.taskSwitch_inv switch
      exact ⟨⟨hinv, fun _ => h.head running⟩, fun _ => @hinterrupt n _ rfl hpreserves⟩
  | @clock n m m' m'' sched running enter callback current switch calls exec =>
      obtain ⟨t, rfl, -⟩ := Sched.taskNext_inv switch
      exact ⟨⟨hinv, fun _ => h.head running⟩, fun _ => @hinterrupt n _ rfl hpreserves⟩

theorem step
    (h : CallInv s) (htmp : InKernelImage tmpRes) {e : CallEvent}
    (hstep : ApartStep callbacks next tmpRes s e s') :
    CallInv s' ∧ (s.user = true → StepWaits s s') := by
  cases e with
  | load mem entry =>
      refine ⟨h.load hstep.2, fun huser => ?_⟩
      cases hstep.2 with
      | load boot valid runs loads => exact Bool.noConfusion (boot.symm.trans huser)
  | event e =>
      cases hstep.2 with
      | event afterLoad step => exact h.event afterLoad step
  | call call zeroed =>
      obtain ⟨hinv, hdone⟩ := h.call htmp hstep
      exact ⟨hinv, fun _ => hdone.toStepWaits⟩
  | exit n =>
      obtain ⟨hinv, hwaits⟩ := h.exit hstep.2
      exact ⟨hinv, fun _ => hwaits⟩

theorem exists_load
    (h : CallInv s) (hboot : s.user = false) {mem : LoadMemory} (entry : Option Word)
    {sched : Sched} (hvalid : s.sched.LoadValid mem)
    (hloads : s.sched.processLoadSwitch mem .mapped = .ok (0, sched)) :
    ∃ s', ApartStep callbacks next tmpRes s (.load mem entry) s' ∧ CallInv s' ∧
      s'.user = false ∧ s'.sched = sched := by
  have hruns : KernelRuns s.sched s.cpu s.cpu := ⟨rfl, fun _ _ _ _ => rfl⟩
  have hstep := @CallStep.load callbacks next tmpRes _ _ _ _ entry hboot hvalid hruns hloads
  exact ⟨_, ⟨trivial, hstep⟩, h.load hstep, rfl, rfl⟩

theorem exists_start
    (h : CallInv s) (hboot : s.user = false) {sched : Sched} (hcurrent : s.sched.currentTask ≠ 0)
    (hswitch : s.sched.taskSwitch s.sched.taskHead = .ok sched) :
    ∃ s', ApartStep callbacks next tmpRes s (.event .start) s' ∧ CallInv s' ∧
      s'.user = true ∧ s'.sched = sched := by
  obtain ⟨m, m', hcalls, hexec⟩ := h.exists_leave hboot (Sched.taskSwitch_inv hswitch).2 next
  have hstep := @Step.start callbacks next _ _ _ _ hboot hcurrent hswitch hcalls hexec
  exact ⟨_, ⟨trivial, .event trivial hstep⟩, (@event _ _ _ _ h .start trivial hstep).1, rfl, rfl⟩

/-- The running task can put a command into `eax`. -/
theorem exists_user
    (h : CallInv s) (huser : s.user = true) (command : Word) :
    ∃ s', ApartStep callbacks next tmpRes s (.event .user) s' ∧ CallInv s' ∧
      s'.user = true ∧ s'.sched = s.sched ∧ s'.cpu.reg .eax = command := by
  have hmode : (s.cpu.set .eax command).cs &&& 3 = 3 := h.mode huser
  have hstep := @Step.user callbacks next _ _ huser hmode fun _ _ _ _ => rfl
  exact ⟨_, ⟨trivial, .event trivial hstep⟩, (@event _ _ _ _ h .user trivial hstep).1, huser,
    rfl, rfl⟩

end CallInv

def shellMemory : LoadMemory := ⟨0x1020000, 0x1010000, 0x1030000⟩

/-- The scheduler with the shell alone. -/
def shellSched : Sched := after Sched.apply Sched.empty (.load shellMemory .mapped)

/-- An address for `tmp_res`. -/
def imageWord : Ptr := 0x10C000

/-- The shell runs, and has put a command into `eax`. -/
theorem exists_shell (command : Word) :
    ∃ s, Run (ApartStep twoCallbacks 0 imageWord) bootContext
        [.load shellMemory none, .event .start, .event .user] s ∧ CallInv s ∧
      s.user = true ∧ s.sched = shellSched ∧ s.cpu.reg .eax = command := by
  have hheap : InHeap 0x1010000 := by
    rw [InHeap]
    decide
  have hinv : CallInv bootContext := CallInv.of_boot ⟨rfl, rfl, by decide⟩
  have hvalid : bootContext.sched.LoadValid shellMemory := ⟨fun _ => rfl, fun _ => ⟨hheap, rfl⟩⟩
  have hloads : bootContext.sched.processLoadSwitch shellMemory .mapped = .ok (0, shellSched) := rfl
  obtain ⟨s₁, hload, hinv₁, hboot₁, hsched₁⟩ := hinv.exists_load rfl none hvalid hloads
  have hcurrent : s₁.sched.currentTask ≠ 0 := by
    rw [hsched₁]
    decide
  have hswitch : s₁.sched.taskSwitch s₁.sched.taskHead = .ok shellSched := by
    rw [hsched₁]
    rfl
  obtain ⟨s₂, hstart, hinv₂, huser₂, hsched₂⟩ := hinv₁.exists_start hboot₁ hcurrent hswitch
  obtain ⟨s, huser, hinv, hrunning, hsched, heax⟩ := hinv₂.exists_user huser₂ command
  exact ⟨s, .cons hload (.cons hstart (.cons huser (.nil s))), hinv, hrunning,
    hsched.trans hsched₂, heax⟩

end Context

end PeachOS
