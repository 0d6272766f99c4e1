import PeachOS.Loader.Elf
import PeachOS.Memory.Pool
import PeachOS.Task.Sched

/-!
# Processes and their memory

`process.c`, `task.c` and `paging.c` over the blocks that they allocate and
free.  The records that the C code reaches through pointers are typed, and what
it follows a pointer for must be there; page directories, page tables and the
programs are in the pages of memory.
-/

namespace PeachOS

open Lib

structure ProcessAllocation where
  ptr : Ptr
  size : Word
deriving DecidableEq

inductive Filetype where
  | elf
  | binary
deriving DecidableEq

/-- `struct process`, without what `ProcessLink` has of it and what only the
keyboard uses.  `data` is the union of `ptr` and `elf_file`. -/
structure ProcessRecord where
  allocations : Nat → ProcessAllocation
  filetype : Filetype
  data : Ptr
  stack : Ptr
  size : Word
  argc : Word
  argv : Ptr

/-- A record of zero bytes. -/
def processInit : ProcessRecord where
  allocations := fun _ => ⟨0, 0⟩
  filetype := .elf
  data := 0
  stack := 0
  size := 0
  argc := 0
  argv := 0

def sizeofPathRoot : Word := 8
def sizeofPathPart : Word := 8
def sizeofFileDescriptor : Word := 16

/-- The size of the buffer for the name of a component. -/
def sizeofPathName : Word := BitVec.ofNat 32 maxPath

/-- What a load counts on behind `fopen`, `fstat` and `fread`: the contents of a file. -/
structure Program where
  filesize : Word
  contents : Nat → Byte
  /-- How many components the path of the file has. -/
  parts : Nat

/-- What opening a file allocates and closing it does not free: `root_path`, of each
component the name and the record, and the descriptor. -/
def Program.opened (program : Program) : List Word :=
  sizeofPathRoot ::
    ((List.replicate program.parts [sizeofPathName, sizeofPathPart]).flatten ++
      [sizeofFileDescriptor])

theorem Program.opened_small
    (program : Program) :
    ∀ size ∈ program.opened, size ≠ 0 ∧ pagesOf size = 1 := by
  intro size hsize
  rcases List.mem_cons.mp hsize with rfl | hsize
  · decide
  · rcases List.mem_append.mp hsize with hpart | hlast
    · obtain ⟨sizes, hsizes, hmem⟩ := List.mem_flatten.mp hpart
      rw [List.eq_of_mem_replicate hsizes] at hmem
      rcases List.mem_cons.mp hmem with rfl | hmem
      · decide
      · rw [List.mem_singleton.mp hmem]
        decide
    · rw [List.mem_singleton.mp hlast]
      decide

theorem Program.opened_ne
    (program : Program) :
    ∀ size ∈ program.opened, size ≠ 0 :=
  fun size hsize => (program.opened_small size hsize).1

/-- What happens to a block. -/
inductive HeapEvent where
  | taken (p : Ptr)
  /-- Allocated by `fopen`. -/
  | opened (p : Ptr)
  | freed (p : Ptr)
deriving DecidableEq

/-- `log` remembers what has become of blocks; no call reads it. -/
structure Kernel where
  pool : Pool
  log : List HeapEvent
  mem : Pages
  /-- `directory_entry` of each `struct paging_4gb_chunk`. -/
  chunks : Ptr → Option Ptr
  elfFiles : Ptr → Option ElfFile
  records : Ptr → Option ProcessRecord
  sched : Sched

def sizeofProcess : Word := 9364
def sizeofElfFile : Word := 132
def sizeofTask : Word := 64
def sizeofChunk : Word := 4
/-- `sizeof(sizeof(uint32_t) * PAGING_TOTAL_ENTRIES_PER_TABLE)`, a `size_t`. -/
def sizeofDirectory : Word := 4
def sizeofTable : Word := 4096
/-- `sizeof` of `argument` in `struct command_argument`. -/
def sizeofArgument : Word := 512

/-- The record behind a pointer. -/
def follow {α : Type} (records : Ptr → Option α) (p : Ptr) : Except Halt α :=
  if p = 0 then
    .error .fault
  else
    match records p with
    | some record => .ok record
    | none => .error .fault

namespace Kernel

/-- `kzalloc`, with what is remembered of it. -/
def kzallocFor (k : Kernel) (event : Ptr → HeapEvent) (size : Word) : Ptr × Kernel :=
  let (p, pool) := k.pool.kmalloc size
  if p = 0 then
    (0, { k with pool := pool })
  else
    (p,
      { k with
        pool := pool
        log := k.log ++ [event p]
        mem := Pages.ofBytes (fill k.mem.bytes p 0 size.toNat) })

def kzalloc (k : Kernel) (size : Word) : Ptr × Kernel := k.kzallocFor .taken size

/-- What was in the block cannot be reached any more. -/
def kfree (k : Kernel) (p : Ptr) : Kernel :=
  { k with
    pool := k.pool.kfree p
    log := k.log ++ [.freed p]
    chunks := fun q => if q = p then none else k.chunks q
    elfFiles := fun q => if q = p then none else k.elfFiles q
    records := fun q => if q = p then none else k.records q }

def setRecord (k : Kernel) (p : Ptr) (record : ProcessRecord) : Kernel :=
  { k with records := fun q => if q = p then some record else k.records q }

/-- A table of `paging_new_4gb`, which maps to itself.  The `int` offset of the
source is too large for one from the table 512 on; here it wraps. -/
def identityTable (i : Fin 1024) (flags : Word) (b : Fin 1024) : Word :=
  BitVec.ofNat 32 (4194304 * i + 4096 * b) ||| flags

def pagingNew4gbTable (directory : Ptr) (flags : Word) (k : Kernel) (i : Fin 1024) :
    Except Halt Kernel :=
  let (entry, k) := k.kzalloc sizeofTable
  if entry = 0 ∨ directory = 0 then
    .error .fault
  else
    let mem : Pages := fun page j =>
      if page = entry then identityTable i flags j else k.mem page j
    .ok { k with mem := mem.store directory i (entry ||| flags ||| pagingIsWriteable) }

/-- No allocation is looked at before it is written to. -/
def pagingNew4gb (k : Kernel) (flags : Word) : Except Halt (Ptr × Kernel) := do
  let (directory, k) := k.kzalloc sizeofDirectory
  let k ← (List.finRange 1024).foldlM (pagingNew4gbTable directory flags) k
  let (chunk, k) := k.kzalloc sizeofChunk
  if chunk = 0 then
    .error .fault
  else
    pure (chunk, { k with chunks := fun q => if q = chunk then some directory else k.chunks q })

def pagingFree4gb (k : Kernel) (chunk : Ptr) : Except Halt Kernel := do
  let directory ← follow k.chunks chunk
  let k := (List.finRange 1024).foldl (fun k i => k.kfree (tableAt k.mem directory i)) k
  pure ((k.kfree directory).kfree chunk)

def taskFree (k : Kernel) (task : Ptr) : Except Halt Kernel := do
  let record ← follow k.sched.tasks task
  let k ← k.pagingFree4gb record.pageDirectory
  let sched ← k.sched.taskFree task
  pure { k.kfree task with sched := sched }

/-- The task, or an error in its place.  The registers that `task_init` sets are
modelled with the context switch. -/
def taskNew (k : Kernel) (process : Ptr) : Except Halt (Ptr × Kernel) := do
  let (task, k) := k.kzalloc sizeofTask
  if task = 0 then
    let k ← k.taskFree task
    pure (BitVec.ofInt 32 (-enomem), k)
  else
    let (chunk, k) ← k.pagingNew4gb (pagingIsPresent ||| pagingAccessFromAll)
    if chunk = 0 then
      let k ← k.taskFree task
      pure (BitVec.ofInt 32 (-eio), k)
    else
      let (task, sched) ← k.sched.taskNew task process chunk
      pure (task, { k with sched := sched })

/-- `process->task->page_directory->directory_entry`. -/
def directoryOf (k : Kernel) (process : Ptr) : Except Halt Ptr := do
  let link ← follow k.sched.procs process
  let task ← follow k.sched.tasks link.task
  follow k.chunks task.pageDirectory

def processFindFreeAllocationIndex (record : ProcessRecord) : Option Nat :=
  (List.range maxProgramAllocations).find? fun i => (record.allocations i).ptr = 0

def processGetAllocationByAddr (record : ProcessRecord) (addr : Ptr) :
    Option ProcessAllocation :=
  ((List.range maxProgramAllocations).find? fun i => (record.allocations i).ptr = addr).map
    record.allocations

def processAllocationUnjoin (record : ProcessRecord) (ptr : Ptr) : ProcessRecord :=
  { record with
    allocations := fun i =>
      if (record.allocations i).ptr = ptr then ⟨0, 0⟩ else record.allocations i }

def processMalloc (k : Kernel) (process : Ptr) (size : Word) : Except Halt (Ptr × Kernel) := do
  let (ptr, k) := k.kzalloc size
  if ptr = 0 then
    pure (0, k)
  else
    let record ← follow k.records process
    match processFindFreeAllocationIndex record with
    | none => pure (0, k.kfree ptr)
    | some index =>
        let directory ← k.directoryOf process
        let (_, mem) := pagingMapTo k.mem directory ptr ptr (pagingIsAllignedAddress (ptr + size))
          (pagingIsWriteable ||| pagingIsPresent ||| pagingAccessFromAll)
        pure (ptr,
          { k with mem := mem }.setRecord process
            { record with
              allocations := fun i =>
                if i = index then ⟨ptr, size⟩ else record.allocations i })

def processFree (k : Kernel) (process ptr : Ptr) : Except Halt Kernel := do
  let record ← follow k.records process
  match processGetAllocationByAddr record ptr with
  | none => pure k
  | some allocation =>
      let directory ← k.directoryOf process
      let (res, mem) := pagingMapTo k.mem directory allocation.ptr allocation.ptr
        (pagingIsAllignedAddress (allocation.ptr + allocation.size)) 0
      let k := { k with mem := mem }
      if res < 0 then
        pure k
      else
        pure ((k.setRecord process (processAllocationUnjoin record ptr)).kfree ptr)

/-- One argument: `strncpy` copies nothing, as it compares where it should
assign. -/
def injectArgument (process argv : Ptr) (k : Kernel) (i : Nat) :
    Except Halt (Int × Kernel) := do
  let (argumentStr, k) ← k.processMalloc process sizeofArgument
  if argumentStr = 0 then
    pure (-enomem, k)
  else
    pure (0,
      { k with
        mem := Pages.ofBytes
          (store32 k.mem.bytes (argv + BitVec.ofNat 32 (4 * i)) argumentStr) })

/-- The loop of `process_inject_arguments` at argument `i`. -/
def injectArguments (process argv : Ptr) (k : Kernel) (i : Nat) :
    Nat → Except Halt (Int × Kernel)
  | 0 => .ok (0, k)
  | count + 1 => do
      let (res, k) ← injectArgument process argv k i
      if res < 0 then
        pure (res, k)
      else
        injectArguments process argv k (i + 1) count

/-- `argc` is the number of arguments in the list. -/
def processInjectArguments (k : Kernel) (process : Ptr) (argc : Nat) :
    Except Halt (Int × Kernel) := do
  if argc = 0 then
    pure (-eio, k)
  else
    let (argv, k) ← k.processMalloc process (BitVec.ofNat 32 (4 * argc))
    if argv = 0 then
      pure (-enomem, k)
    else
      let (res, k) ← injectArguments process argv k 0 argc
      if res < 0 then
        pure (res, k)
      else
        let record ← follow k.records process
        pure (0, k.setRecord process { record with argc := BitVec.ofNat 32 argc, argv := argv })

def processTerminateAllocation (process : Ptr) (k : Kernel) (i : Nat) : Except Halt Kernel := do
  let record ← follow k.records process
  if (record.allocations i).ptr ≠ 0 then
    k.processFree process (record.allocations i).ptr
  else
    pure k

def processTerminateAllocations (k : Kernel) (process : Ptr) : Except Halt Kernel :=
  (List.range maxProgramAllocations).foldlM (processTerminateAllocation process) k

def elfClose (k : Kernel) (file : Ptr) : Except Halt Kernel := do
  let elfFile ← follow k.elfFiles file
  pure ((k.kfree elfFile.elfMemory).kfree file)

def processFreeProgramData (k : Kernel) (process : Ptr) : Except Halt Kernel := do
  let record ← follow k.records process
  if record.data = 0 then
    pure k
  else
    match record.filetype with
    | .binary => pure (k.kfree record.data)
    | .elf => k.elfClose record.data

def processFreeStack (k : Kernel) (process : Ptr) : Except Halt Kernel := do
  let record ← follow k.records process
  if record.stack ≠ 0 then
    pure ((k.kfree record.stack).setRecord process { record with stack := 0 })
  else
    pure k

def processFreeTask (k : Kernel) (process : Ptr) : Except Halt Kernel := do
  let link ← follow k.sched.procs process
  if link.task ≠ 0 then
    k.taskFree link.task
  else
    pure k

def processFreeProcess (k : Kernel) (process : Ptr) : Except Halt Kernel := do
  let k ← k.processTerminateAllocations process
  let k ← k.processFreeProgramData process
  let k ← k.processFreeStack process
  let k ← k.processFreeTask process
  pure { k.kfree process with sched := k.sched.setProc process none }

def processTerminate (k : Kernel) (process : Ptr) : Except Halt Kernel := do
  let sched ← k.sched.processUnlink process
  { k with sched := sched }.processFreeProcess process

/-- The `fopen` that a load counts on: whether there is memory for what it keeps of the
file.  What was allocated before that failed is freed. -/
def fopen (k : Kernel) (taken : List Ptr) : List Word → Bool × Kernel
  | [] => (true, k)
  | size :: sizes =>
      let (p, k) := k.kzallocFor .opened size
      if p = 0 then
        (false, taken.foldl kfree k)
      else
        fopen k (p :: taken) sizes

/-- `fread` of the whole file; nothing is read of an empty one. -/
def freadProgram (k : Kernel) (program : Program) (p : Ptr) : Except Halt (Int × Kernel) :=
  if program.filesize = 0 then
    .ok (-einvarg, k)
  else if p = 0 then
    .error .fault
  else
    .ok (1,
      { k with
        mem := Pages.ofBytes fun a =>
          if (a - p).toNat < program.filesize.toNat then program.contents (a - p).toNat
          else k.mem.bytes a })

def elfFileFree (k : Kernel) (file : Ptr) : Except Halt Kernel := do
  let elfFile ← follow k.elfFiles file
  let k := if elfFile.elfMemory ≠ 0 then k.kfree elfFile.elfMemory else k
  pure (k.kfree file)

def setElfFile (k : Kernel) (file : Ptr) (elfFile : ElfFile) : Kernel :=
  { k with elfFiles := fun q => if q = file then some elfFile else k.elfFiles q }

/-- `elf_load` behind its allocations: the status, and the kernel without the
file when it is an error. -/
def elfLoadRead (k : Kernel) (program : Program) (file elfMemory : Ptr) :
    Except Halt (Int × Kernel) := do
  let (res, k) ← k.freadProgram program elfMemory
  let elfFile ← follow k.elfFiles file
  if res < 0 then
    let k ← k.elfFileFree file
    pure (res, k)
  else
    let (res, elfFile) := elfProcessLoaded k.mem.bytes elfFile
    let k := k.setElfFile file elfFile
    if res < 0 then
      let k ← k.elfFileFree file
      pure (res, k)
    else
      pure (res, k)

/-- The status and the file. -/
def elfLoad (k : Kernel) (program : Program) : Except Halt (Int × Ptr × Kernel) := do
  let (file, k) := k.kzalloc sizeofElfFile
  let k := if file = 0 then k else k.setElfFile file ⟨0, 0, 0, 0, 0⟩
  let (opened, k) := k.fopen [] program.opened
  if ¬ opened then
    let k ← k.elfFileFree file
    pure (-eio, file, k)
  else
    let (elfMemory, k) := k.kzalloc program.filesize
    let elfFile ← follow k.elfFiles file
    let k := k.setElfFile file { elfFile with elfMemory := elfMemory }
    let (res, k) ← k.elfLoadRead program file elfMemory
    pure (res, file, k)

def processLoadElf (k : Kernel) (program : Program) (process : Ptr) :
    Except Halt (Int × Kernel) := do
  let (res, file, k) ← k.elfLoad program
  if res < 0 then
    pure (res, k)
  else
    let record ← follow k.records process
    pure (res, k.setRecord process { record with filetype := .elf, data := file })

def processLoadBinary (k : Kernel) (program : Program) (process : Ptr) :
    Except Halt (Int × Kernel) := do
  let (opened, k) := k.fopen [] program.opened
  if ¬ opened then
    pure (-eio, k)
  else
    let (programDataPtr, k) := k.kzalloc program.filesize
    if programDataPtr = 0 then
      pure (-enomem, k)
    else
      let (res, k) ← k.freadProgram program programDataPtr
      if res ≠ 1 then
        pure (-eio, k.kfree programDataPtr)
      else
        let record ← follow k.records process
        pure (0,
          k.setRecord process
            { record with
              filetype := .binary
              data := programDataPtr
              size := program.filesize })

def processLoadData (k : Kernel) (program : Program) (process : Ptr) :
    Except Halt (Int × Kernel) := do
  let (res, k) ← k.processLoadElf program process
  if res = -einformat then
    k.processLoadBinary program process
  else
    pure (res, k)

/-- The status of `process_map_elf`, or 0 for a binary whatever comes of it. -/
def processMapProgram (k : Kernel) (record : ProcessRecord) (directory : Ptr) :
    Except Halt (Int × Kernel) :=
  match record.filetype with
  | .elf => do
      let elfFile ← follow k.elfFiles record.data
      let (res, mem) := processMapElf k.mem directory elfFile.elfMemory
      pure (res, { k with mem := mem })
  | .binary =>
      let (_, mem) := pagingMapTo k.mem directory programVirtualAddress record.data
        (pagingIsAllignedAddress (record.data + record.size))
        (pagingIsPresent ||| pagingAccessFromAll ||| pagingIsWriteable)
      .ok (0, { k with mem := mem })

def processMapMemory (k : Kernel) (process : Ptr) : Except Halt (Int × Kernel) := do
  let record ← follow k.records process
  let directory ← k.directoryOf process
  let (res, k) ← k.processMapProgram record directory
  if res < 0 then
    pure (res, k)
  else
    let (_, mem) := pagingMapTo k.mem directory programVirtualStackAddressEnd record.stack
      (pagingIsAllignedAddress (record.stack + userProgramStackSize))
      (pagingIsPresent ||| pagingAccessFromAll ||| pagingIsWriteable)
    pure (res, { k with mem := mem })

/-- The process, in `process_load_for_slot`. -/
def processNew (k : Kernel) : Ptr × Kernel :=
  let (process, k) := k.kzalloc sizeofProcess
  if process = 0 then
    (0, k)
  else
    (process,
      { k.setRecord process processInit with
        sched := k.sched.setProc process (some ⟨0, 0⟩) })

/-- The stack of the process. -/
def loadStack (k : Kernel) (process : Ptr) : Except Halt (Int × Kernel) := do
  let (stack, k) := k.kzalloc userProgramStackSize
  let record ← follow k.records process
  pure (if stack = 0 then -enomem else 0, k.setRecord process { record with stack := stack })

/-- `process_load_for_slot` between the process and the mapping: the status and
the task. -/
def loadTask (k : Kernel) (program : Program) (process : Ptr) (slot : Nat) :
    Except Halt (Int × Ptr × Kernel) := do
  let (res, k) ← k.processLoadData program process
  if res < 0 then
    pure (res, 0, k)
  else
    let (res, k) ← k.loadStack process
    if res < 0 then
      pure (res, 0, k)
    else
      let k := { k with sched := k.sched.setProc process (some ⟨slot, 0⟩) }
      let (task, k) ← k.taskNew process
      pure (0, task, { k with sched := k.sched.setProc process (some ⟨slot, task⟩) })

/-- `process_load_for_slot` behind `out` with a process and an error. -/
def loadFailed (k : Kernel) (process : Ptr) (res : Int) : Except Halt (Int × Ptr × Kernel) := do
  let k ← k.processFreeProcess process
  pure (res, 0, k)

/-- The status and the process. -/
def processLoadForSlot (k : Kernel) (program : Program) (slot : Nat) :
    Except Halt (Int × Ptr × Kernel) := do
  if k.sched.processes slot ≠ 0 then
    -- behind `out` the process is read that has not been set yet
    .error .fault
  else
    let (process, k) := k.processNew
    if process = 0 then
      pure (-enomem, 0, k)
    else
      let (res, task, k) ← k.loadTask program process slot
      if res < 0 then
        k.loadFailed process res
      else if task = 0 then
        -- what is tested for an error is whether the task is null
        pure (0, 0, k)
      else
        let (res, k) ← k.processMapMemory process
        if res < 0 then
          k.loadFailed process res
        else
          pure (0, process,
            { k with
              sched :=
                { k.sched with
                  processes := fun i => if i = slot then process else k.sched.processes i } })

end Kernel

end PeachOS
