import PeachOS.Lib.ByteStrings
import PeachOS.Shell.Strtok
import PeachOS.Task.Kernel
import PeachOS.Task.Syscall

/-!
# From a command line to a process

`peachos_system_run` in the address space of the process that calls it, the
system calls 4, 7 and 8, and `process_inject_arguments`.  `strncpy` is the one
that its comment describes: the code compares bytes where it should copy them.
Buffers on a stack are the strings that they hold; the list of arguments, which
the program and the kernel share, is in memory.
-/

namespace PeachOS

open Lib

/-- `sizeof(struct command_argument)`. -/
def sizeofCommandArgument : Word := 516

/-- Where `next` is in `struct command_argument`, behind `argument`. -/
def nextOffset : Word := 512

/-- `strncpy` between buffers on a stack, or from one. -/
def strncpyString (src : List Byte) (count : Nat) : List Byte := src.take (count - 1)

/-- `strncpy` in the memory of the kernel. -/
def strncpy (m : Memory) (dest src : Ptr) (count : Nat) : Memory :=
  copyString m dest src (count - 1)

namespace Kernel

def taskCurrent (k : Kernel) : Except Halt Task := follow k.sched.tasks k.sched.currentTask

/-- The page directory of the current task. -/
def currentDirectory (k : Kernel) : Except Halt Ptr := do
  let task ← k.taskCurrent
  follow k.chunks task.pageDirectory

/-- What the processor makes of an address of the running program, whose page
has to be open for `access`. -/
def userAddress (k : Kernel) (access : Word) (addr : Ptr) : Except Halt Ptr := do
  let directory ← k.currentDirectory
  let page := pagingAlignToLowerPage addr
  if k.mem directory (directoryIndex page) &&& access = access ∧
      pagingGet k.mem directory page &&& access = access then
    pure (pagingGetPhysicalAddress k.mem directory addr)
  else
    .error .fault

def userLoad (k : Kernel) (addr : Ptr) : Except Halt Byte := do
  let phys ← k.userAddress (pagingIsPresent ||| pagingAccessFromAll) addr
  pure (k.mem.bytes phys)

def userStore (k : Kernel) (addr : Ptr) (c : Byte) : Except Halt Kernel := do
  let phys ← k.userAddress (pagingIsPresent ||| pagingAccessFromAll ||| pagingIsWriteable) addr
  pure { k with mem := Pages.ofBytes (storeBytes k.mem.bytes phys [c]) }

def userStores (k : Kernel) (addr : Ptr) : List Byte → Except Halt Kernel
  | [] => .ok k
  | c :: cs => do
      let k ← k.userStore addr c
      k.userStores (addr + 1) cs

/-- `peachos_malloc`, which is `isr80h_command4_malloc`. -/
def peachosMalloc (k : Kernel) (size : Word) : Except Halt (Ptr × Kernel) := do
  let task ← k.taskCurrent
  k.processMalloc task.process size

/-- A `struct command_argument` for a token, with no next one. -/
def newCommandArgument (k : Kernel) (token : List Byte) : Except Halt (Ptr × Kernel) := do
  let (new, k) ← k.peachosMalloc sizeofCommandArgument
  if new = 0 then
    pure (0, k)
  else
    let k ← k.userStores new (strncpyString token sizeofArgument.toNat ++ [0])
    let k ← k.userStores (new + nextOffset) (wordBytes 0)
    pure (new, k)

/-- What `strtok` leaves to the next call is shorter. -/
theorem strtok_length_lt
    {sp sp' : Option (List Byte)} {token : List Byte}
    (h : strtok none sp [space] = (some token, sp')) :
    (sp'.map fun s => s.length + 1).getD 0 < (sp.map fun s => s.length + 1).getD 0 := by
  cases sp with
  | none => cases h
  | some s =>
      rcases strtok_spec none s with ⟨-, hnone⟩ | ⟨token', rest, -, hne, -, hlength, hsome⟩
      · cases hnone.symm.trans h
      · cases hsome.symm.trans h
        have hpos := List.length_pos_of_ne_nil hne
        simp only [Option.map_some, Option.getD_some]
        omega

/-- The loop of `peachos_parse_command`: what it leaves `sp` at. -/
def parseCommandLoop (k : Kernel) (current : Ptr) (sp : Option (List Byte)) :
    Except Halt (Option (List Byte) × Kernel) :=
  match _hstrtok : strtok none sp [space] with
  | (none, sp') => .ok (sp', k)
  | (some token, sp') => do
      let (new, k) ← k.newCommandArgument token
      if new = 0 then
        pure (sp', k)
      else
        let k ← k.userStores (current + nextOffset) (wordBytes new)
        k.parseCommandLoop new sp'
termination_by (sp.map fun s => s.length + 1).getD 0
decreasing_by exact strtok_length_lt _hstrtok

theorem parseCommandLoop_none
    {k : Kernel} {current : Ptr} {sp sp' : Option (List Byte)}
    (h : strtok none sp [space] = (none, sp')) :
    k.parseCommandLoop current sp = .ok (sp', k) := by
  rw [parseCommandLoop]
  split
  next heq =>
    cases h.symm.trans heq
    rfl
  next heq => cases h.symm.trans heq

theorem parseCommandLoop_some
    {k : Kernel} {current : Ptr} {sp sp' : Option (List Byte)} {token : List Byte}
    (h : strtok none sp [space] = (some token, sp')) :
    k.parseCommandLoop current sp = (do
      let (new, k) ← k.newCommandArgument token
      if new = 0 then
        pure (sp', k)
      else
        let k ← k.userStores (current + nextOffset) (wordBytes new)
        k.parseCommandLoop new sp') := by
  rw [parseCommandLoop]
  split
  next heq => cases h.symm.trans heq
  next heq =>
    cases h.symm.trans heq
    rfl

/-- The root of the list. -/
def peachosParseCommand (k : Kernel) (sp : Option (List Byte)) (command : List Byte) (max : Int) :
    Except Halt (Ptr × Option (List Byte) × Kernel) :=
  if 1025 ≤ max then
    .ok (0, sp, k)
  else
    let scommand := strncpyString command 1025
    match strtok (some scommand) sp [space] with
    | (none, sp) => .ok (0, sp, k)
    | (some token, sp) => do
        let (root, k) ← k.newCommandArgument token
        if root = 0 then
          pure (0, sp, k)
        else
          let (sp, k) ← k.parseCommandLoop root sp
          pure (root, sp, k)

/-- `fuel` bounds the walks through a list that the program has made. -/
def processCountCommandArguments (m : Memory) : Nat → Ptr → Except Halt Nat
  | 0, _ => .error .fault
  | fuel + 1, current =>
      if current = 0 then
        .ok 0
      else do
        let n ← processCountCommandArguments m fuel (load32 m (current + nextOffset))
        pure (n + 1)

/-- The loop of `process_inject_arguments` at argument `i`. -/
def injectCommandArguments (process argv : Ptr) :
    Nat → Kernel → Ptr → Nat → Except Halt (Int × Kernel)
  | 0, _, _, _ => .error .fault
  | fuel + 1, k, current, i =>
      if current = 0 then
        .ok (0, k)
      else do
        let (argumentStr, k) ← k.processMalloc process sizeofArgument
        if argumentStr = 0 then
          pure (-enomem, k)
        else
          let m := strncpy k.mem.bytes argumentStr current sizeofArgument.toNat
          let m := store32 m (argv + BitVec.ofNat 32 (4 * i)) argumentStr
          injectCommandArguments process argv fuel { k with mem := Pages.ofBytes m }
            (load32 m (current + nextOffset)) (i + 1)

/-- `process_inject_arguments` with the arguments that it copies. -/
def processInjectCommandArguments (fuel : Nat) (k : Kernel) (process rootArgument : Ptr) :
    Except Halt (Int × Kernel) := do
  let argc ← processCountCommandArguments k.mem.bytes fuel rootArgument
  if argc = 0 then
    pure (-eio, k)
  else
    let (argv, k) ← k.processMalloc process (BitVec.ofNat 32 (4 * argc))
    if argv = 0 then
      pure (-enomem, k)
    else
      let (res, k) ← injectCommandArguments process argv fuel k rootArgument 0
      if res < 0 then
        pure (res, k)
      else
        let record ← follow k.records process
        pure (0, k.setRecord process { record with argc := BitVec.ofNat 32 argc, argv := argv })

/-- What `process_load_for_slot` does with a path. -/
abbrev Loader := List Byte → Kernel → Nat → Except Halt (Int × Ptr × Kernel)

def processLoad (load : Loader) (k : Kernel) (filename : List Byte) :
    Except Halt (Int × Ptr × Kernel) :=
  match k.sched.processGetFreeSlot with
  | none => .ok (-eistkn, 0, k)
  | some slot => load filename k slot

def processLoadSwitch (load : Loader) (k : Kernel) (filename : List Byte) :
    Except Halt (Int × Ptr × Kernel) := do
  let (res, process, k) ← k.processLoad load filename
  if res = 0 then
    pure (res, process, { k with sched := { k.sched with currentProcess := process } })
  else
    pure (res, process, k)

/-- `"0:/"`. -/
def driveRoot : List Byte := [48, 58, 47]

/-- `argument` is what the program has on its stack. -/
def isr80hCommand7InvokeSystemCommand (load : Loader) (fuel : Nat) (k : Kernel) (argument : Ptr) :
    Except Halt (Handled × Kernel) := do
  let directory ← k.currentDirectory
  let arguments := pagingGetPhysicalAddress k.mem directory argument
  if arguments = 0 ∨ k.mem.bytes arguments = 0 then
    pure (.returns (errorValue (-einvarg)), k)
  else
    -- a name that is longer than 104 bytes runs over the end of `path`
    let path := driveRoot ++ readString k.mem.bytes arguments (maxPath - 1)
    let (res, process, k) ← k.processLoadSwitch load path
    if res < 0 then
      pure (.returns (errorValue res), k)
    else
      let (res, k) ← processInjectCommandArguments fuel k process arguments
      if res < 0 then
        pure (.returns (errorValue res), k)
      else
        let link ← follow k.sched.procs process
        let sched ← k.sched.taskSwitch link.task
        pure (.starts link.task, { k with sched := sched })

/-- `process_get_arguments` writes to the `struct process_arguments` that the
program has on its stack. -/
def isr80hCommand8GetProgramArguments (k : Kernel) (argument : Ptr) : Except Halt Kernel := do
  let task ← k.taskCurrent
  let directory ← k.currentDirectory
  let arguments := pagingGetPhysicalAddress k.mem directory argument
  let record ← follow k.records task.process
  pure
    { k with
      mem := Pages.ofBytes (store32 (store32 k.mem.bytes arguments record.argc) (arguments + 4)
        record.argv) }

/-- What becomes of the command, and `sp` behind it. -/
def peachosSystemRun (load : Loader) (fuel : Nat) (k : Kernel) (sp : Option (List Byte))
    (command : List Byte) : Except Halt (Handled × Option (List Byte) × Kernel) := do
  let buf := strncpyString command 1024
  let (rootCommandArgument, sp, k) ← k.peachosParseCommand sp buf 1024
  if rootCommandArgument = 0 then
    pure (.returns (-1), sp, k)
  else
    let (handled, k) ← k.isr80hCommand7InvokeSystemCommand load fuel rootCommandArgument
    pure (handled, sp, k)

end Kernel

end PeachOS
