import Mathlib.Data.List.FinRange
import PeachOS.Lib.CInt
import PeachOS.Memory.Paging
import PeachOS.Task.SchedSafety

/-!
# The blocks of processes and tasks

The records of the processes and the tasks, the page directories and the page
tables are blocks of one heap, where a block that has been freed is given out
again.  A pointer that is left of a freed task leads to what its block is now,
and a `next` that is stored through it is stored there.  What else a process
owns is left out: no pointer of these blocks leads to it.
-/

namespace PeachOS

open Lib

inductive Block where
  | process (link : ProcessLink)
  | task (task : Task)
  /-- `struct paging_4gb_chunk`. -/
  | chunk (directory : Ptr)
  | directory (entries : Fin 1024 → Word)
  | table

/-- The scheduler, with the blocks in the place of the records. -/
structure TaskHeap where
  blocks : Ptr → Option Block
  taskHead : Ptr
  taskTail : Ptr
  currentTask : Ptr
  processes : Nat → Ptr
  currentProcess : Ptr

/-- What the heap gives out during a load. -/
structure LoadBlocks where
  process : Ptr
  task : Ptr
  directory : Ptr
  tables : Fin 1024 → Ptr
  chunk : Ptr

def Block.task? : Block → Option Task
  | .task record => some record
  | _ => none

def Block.process? : Block → Option ProcessLink
  | .process link => some link
  | _ => none

namespace TaskHeap

/-- The kernel before the first process is loaded. -/
def empty : TaskHeap where
  blocks := fun _ => none
  taskHead := 0
  taskTail := 0
  currentTask := 0
  processes := fun _ => 0
  currentProcess := 0

/-- The records that are among the blocks. -/
def toSched (h : TaskHeap) : Sched where
  tasks := fun p => (h.blocks p).bind Block.task?
  procs := fun p => (h.blocks p).bind Block.process?
  taskHead := h.taskHead
  taskTail := h.taskTail
  currentTask := h.currentTask
  processes := h.processes
  currentProcess := h.currentProcess

def set (h : TaskHeap) (p : Ptr) (block : Option Block) : TaskHeap :=
  { h with blocks := fun q => if q = p then block else h.blocks q }

def setAll (h : TaskHeap) (ps : List Ptr) (block : Option Block) : TaskHeap :=
  { h with blocks := fun q => if ps.contains q then block else h.blocks q }

/-- Freeing what is not a block is a fault. -/
def kfree (h : TaskHeap) (p : Ptr) : Except Halt TaskHeap :=
  if (h.blocks p).isSome then .ok (h.set p none) else .error .fault

/-- A pointer is stored where a task has its `next`, at the offset 56: a directory has
its entry 14 there, and of the other blocks nothing is kept here that is there. -/
def storeNext (h : TaskHeap) (p next : Ptr) : TaskHeap :=
  match h.blocks p with
  | some (.task record) => h.set p (some (.task { record with next := next }))
  | some (.directory entries) =>
      h.set p (some (.directory fun i => if i = 14 then next else entries i))
  | _ => h

def taskListRemove (h : TaskHeap) (task : Ptr) : Except Halt TaskHeap := do
  let record ← h.toSched.task task
  let h := if record.prev ≠ 0 then h.storeNext record.prev record.next else h
  let h := if task = h.taskTail then { h with taskTail := record.prev } else h
  if task = h.currentTask then do
    let next ← h.toSched.taskGetNext
    pure { h with currentTask := next }
  else
    pure h

def pagingNew4gb (h : TaskHeap) (mem : LoadBlocks) (flags : Word) : TaskHeap :=
  let h := h.set mem.directory
    (some (.directory fun i => mem.tables i ||| flags ||| pagingIsWriteable))
  let h := (List.finRange 1024).foldl (fun h i => h.set (mem.tables i) (some .table)) h
  h.set mem.chunk (some (.chunk mem.directory))

def pagingFree4gb (h : TaskHeap) (chunk : Ptr) : Except Halt TaskHeap :=
  match h.blocks chunk with
  | some (.chunk directory) =>
      match h.blocks directory with
      | some (.directory entries) => do
          let h ← (List.finRange 1024).foldlM (fun h i => h.kfree (entries i &&& 0xfffff000)) h
          let h ← h.kfree directory
          h.kfree chunk
      | _ => .error .fault
  | _ => .error .fault

def taskFree (h : TaskHeap) (task : Ptr) : Except Halt TaskHeap := do
  let record ← h.toSched.task task
  let h ← h.pagingFree4gb record.pageDirectory
  let h ← h.taskListRemove task
  h.kfree task

def taskNew (h : TaskHeap) (mem : LoadBlocks) : Except Halt TaskHeap := do
  let h := h.set mem.task (some (.task ⟨mem.chunk, mem.process, 0, 0⟩))
  let h := h.pagingNew4gb mem (pagingIsPresent ||| pagingAccessFromAll)
  if h.taskHead = 0 then
    pure { h with taskHead := mem.task, taskTail := mem.task, currentTask := mem.task }
  else
    let h := h.storeNext h.taskTail mem.task
    let new ← h.toSched.task mem.task
    let h := h.set mem.task (some (.task { new with prev := h.taskTail }))
    pure { h with taskTail := mem.task }

def processUnlink (h : TaskHeap) (process : Ptr) : Except Halt TaskHeap := do
  let s ← h.toSched.processUnlink process
  pure { h with processes := s.processes, currentProcess := s.currentProcess }

def processFreeProcess (h : TaskHeap) (process : Ptr) : Except Halt TaskHeap := do
  let link ← h.toSched.proc process
  let h ← if link.task ≠ 0 then h.taskFree link.task else pure h
  h.kfree process

def processTerminate (h : TaskHeap) (process : Ptr) : Except Halt TaskHeap := do
  let h ← h.processUnlink process
  h.processFreeProcess process

/-- The status is returned as well.  Every request is granted. -/
def processLoadSwitch (h : TaskHeap) (mem : LoadBlocks) (outcome : Sched.LoadOutcome) :
    Except Halt (Int × TaskHeap) :=
  match h.toSched.processGetFreeSlot with
  | none => .ok (-eistkn, h)
  | some slot => do
      let h := h.set mem.process (some (.process ⟨slot, 0⟩))
      if outcome = .noProgram then
        let h ← h.processFreeProcess mem.process
        pure (-eio, h)
      else
        let h ← h.taskNew mem
        let h := h.set mem.process (some (.process ⟨slot, mem.task⟩))
        if outcome = .notMapped then
          let h ← h.processFreeProcess mem.process
          pure (-einvarg, h)
        else
          pure (0,
            { h with
              processes := fun i => if i = slot then mem.process else h.processes i
              currentProcess := mem.process })

/-- What the removal of a task stores in the task before it. -/
def relink (h : TaskHeap) (record : Task) : TaskHeap :=
  if record.prev ≠ 0 then h.storeNext record.prev record.next else h

/-- What there is at a place, without what links the tasks. -/
def shape (h : TaskHeap) (p : Ptr) : Option Block :=
  (h.blocks p).map fun block =>
    match block with
    | .task record => .task { record with next := 0, prev := 0 }
    | block => block

def NotDirectory (h : TaskHeap) (p : Ptr) : Prop :=
  ∀ entries, h.blocks p ≠ some (.directory entries)

section Blocks

variable {h h' : TaskHeap} {p q : Ptr} {block : Option Block} {record : Task} {ps : List Ptr}

theorem set_blocks :
    (h.set p block).blocks q = if q = p then block else h.blocks q :=
  rfl

theorem setAll_blocks :
    (h.setAll ps block).blocks q = if q ∈ ps then block else h.blocks q :=
  if_congr List.contains_iff_mem rfl rfl

theorem setAll_taskTail (h : TaskHeap) (ps : List Ptr) (block : Option Block) :
    (h.setAll ps block).taskTail = h.taskTail :=
  rfl

theorem setAll_processes (h : TaskHeap) (ps : List Ptr) (block : Option Block) :
    (h.setAll ps block).processes = h.processes :=
  rfl

theorem setAll_currentProcess (h : TaskHeap) (ps : List Ptr) (block : Option Block) :
    (h.setAll ps block).currentProcess = h.currentProcess :=
  rfl

theorem set_setAll
    (h : TaskHeap) (p : Ptr) (ps : List Ptr) (block : Option Block) :
    (h.set p block).setAll ps block = h.setAll (p :: ps) block := by
  have hblocks : ((h.set p block).setAll ps block).blocks = (h.setAll (p :: ps) block).blocks := by
    funext q
    rw [setAll_blocks, setAll_blocks, set_blocks]
    by_cases hq : q = p
    · rw [if_pos hq, ite_self, if_pos (hq ▸ List.mem_cons_self)]
    · rw [if_neg hq]
      exact if_congr (by rw [List.mem_cons, or_iff_right hq]) rfl rfl
  exact congrArg (fun blocks => ({ h with blocks := blocks } : TaskHeap)) hblocks

theorem foldl_set
    (h : TaskHeap) (ps : List Ptr) (block : Option Block) :
    ps.foldl (fun h p => h.set p block) h = h.setAll ps block := by
  induction ps generalizing h with
  | nil => rfl
  | cons p ps ih => rw [List.foldl_cons, ih, set_setAll]

/-- Blocks are freed one after the other. -/
theorem foldlM_kfree
    (hnodup : ps.Nodup) (hblocks : ∀ p ∈ ps, h.blocks p ≠ none) :
    ps.foldlM kfree h = .ok (h.setAll ps none) := by
  induction ps generalizing h with
  | nil => rfl
  | cons p ps ih =>
      obtain ⟨hp, hps⟩ := List.nodup_cons.mp hnodup
      have hfree : h.kfree p = .ok (h.set p none) :=
        if_pos (Option.isSome_iff_ne_none.mpr (hblocks p List.mem_cons_self))
      have hrest (q : Ptr) (hq : q ∈ ps) : (h.set p none).blocks q ≠ none := by
        rw [set_blocks, if_neg (ne_of_mem_of_not_mem hq hp)]
        exact hblocks q (List.mem_cons_of_mem p hq)
      rw [List.foldlM_cons, hfree, ← set_setAll]
      exact ih hps hrest

theorem shape_of_blocks
    (hp : h.blocks p = h'.blocks q) :
    h.shape p = h'.shape q := by
  rw [shape, shape, hp]

theorem shape_eq_none : h.shape p = none ↔ h.blocks p = none :=
  Option.map_eq_none_iff

theorem shape_of_process
    {link : ProcessLink} (hp : h.blocks p = some (.process link)) :
    h.shape p = some (.process link) := by
  rw [shape, hp]
  rfl

theorem blocks_of_shape
    {b : Block} (hb : ∀ record, b ≠ .task record) (hp : h.shape p = some b) :
    h.blocks p = some b := by
  obtain ⟨b', hb', rfl⟩ := Option.map_eq_some_iff.mp hp
  cases b' with
  | task record => exact absurd rfl (hb _)
  | process | chunk | directory | table => exact hb'

theorem task_of_shape
    (hp : h.shape p = some (.task record)) :
    ∃ next prev, h.blocks p = some (.task { record with next := next, prev := prev }) := by
  obtain ⟨b', hb', heq⟩ := Option.map_eq_some_iff.mp hp
  cases b' with
  | task record' =>
      cases heq
      exact ⟨record'.next, record'.prev, hb'⟩
  | process | chunk | directory | table => cases heq

/-- A block that is no task is the same where the shapes are. -/
theorem blocks_congr
    {b : Block} (hb : ∀ record, b ≠ .task record) (hshape : h'.shape p = h.shape p)
    (hp : h.blocks p = some b) :
    h'.blocks p = some b := by
  refine blocks_of_shape hb ?_
  rw [hshape, shape, hp]
  cases b with
  | task record => exact absurd rfl (hb record)
  | process | chunk | directory | table => rfl

theorem NotDirectory.congr
    (hp : h.NotDirectory p) (hshape : h'.shape p = h.shape p) :
    h'.NotDirectory p := by
  intro entries hdirectory
  exact hp entries (blocks_congr (by intro _ hb; cases hb) hshape.symm hdirectory)

theorem NotDirectory.setAll
    (hp : h.NotDirectory p) (ps : List Ptr) :
    (h.setAll ps none).NotDirectory p := by
  intro entries hdirectory
  rw [setAll_blocks] at hdirectory
  split_ifs at hdirectory
  exact hp entries hdirectory

theorem task_eq_ok
    (hp : h.blocks p = some (.task record)) :
    h.toSched.task p = .ok record :=
  Sched.task_eq_ok (congrArg (Option.bind · Block.task?) hp)

theorem proc_eq_ok
    {link : ProcessLink} (hp : h.blocks p = some (.process link)) :
    h.toSched.proc p = .ok link :=
  Sched.proc_eq_ok (congrArg (Option.bind · Block.process?) hp)

theorem blocks_of_task
    (hp : h.toSched.tasks p = some record) :
    h.blocks p = some (.task record) := by
  obtain ⟨b, hblock, htask⟩ := Option.bind_eq_some_iff.mp hp
  cases b with
  | task record' =>
      cases htask
      exact hblock
  | process | chunk | directory | table => cases htask

theorem blocks_of_proc
    {link : ProcessLink} (hp : h.toSched.procs p = some link) :
    h.blocks p = some (.process link) := by
  obtain ⟨b, hblock, hprocess⟩ := Option.bind_eq_some_iff.mp hp
  cases b with
  | process link' =>
      cases hprocess
      exact hblock
  | task | chunk | directory | table => cases hprocess

/-- Storing `next` changes one block and no pointer of the scheduler. -/
theorem exists_storeNext
    (h : TaskHeap) (p next : Ptr) :
    ∃ blocks, h.storeNext p next = { h with blocks := blocks } := by
  rw [storeNext]
  split
  · exact ⟨_, rfl⟩
  · exact ⟨_, rfl⟩
  · exact ⟨_, rfl⟩

theorem storeNext_others
    (hq : q ≠ p) (next : Ptr) :
    (h.storeNext p next).blocks q = h.blocks q := by
  rw [storeNext]
  split
  · exact if_neg hq
  · exact if_neg hq
  · rfl

theorem storeNext_task
    (hp : h.blocks p = some (.task record)) (q next : Ptr) :
    ∃ n, (h.storeNext q next).blocks p = some (.task { record with next := n }) := by
  by_cases hq : p = q
  · refine ⟨next, ?_⟩
    rw [← hq, storeNext, hp]
    exact if_pos rfl
  · exact ⟨record.next, by rw [storeNext_others hq, hp]⟩

theorem storeNext_none
    (hp : h.blocks p = none) (q next : Ptr) :
    (h.storeNext q next).blocks p = none := by
  by_cases hq : p = q
  · rw [← hq, storeNext, hp]
    exact hp
  · rw [storeNext_others hq, hp]

theorem storeNext_process
    {link : ProcessLink} (hp : h.blocks p = some (.process link)) (q next : Ptr) :
    (h.storeNext q next).blocks p = some (.process link) := by
  by_cases hq : p = q
  · rw [← hq, storeNext, hp]
    exact hp
  · rw [storeNext_others hq, hp]

theorem shape_setTask
    {record' : Task} (hrecord : h.blocks p = some (.task record))
    (hpageDirectory : record'.pageDirectory = record.pageDirectory)
    (hprocess : record'.process = record.process) :
    (h.set p (some (.task record'))).shape = h.shape := by
  refine funext fun q => ?_
  by_cases hq : q = p
  · rw [hq, shape, shape, set_blocks, if_pos rfl, hrecord]
    change some (Block.task ⟨record'.pageDirectory, record'.process, 0, 0⟩) =
      some (Block.task ⟨record.pageDirectory, record.process, 0, 0⟩)
    rw [hpageDirectory, hprocess]
  · exact shape_of_blocks (if_neg hq)

theorem storeNext_shape
    (hp : h.NotDirectory p) (next : Ptr) :
    (h.storeNext p next).shape = h.shape := by
  rw [storeNext]
  cases hblock : h.blocks p with
  | none => rfl
  | some b =>
      cases b with
      | directory entries => exact absurd hblock (hp entries)
      | process | chunk | table => rfl
      | task record => exact shape_setTask hblock rfl rfl

theorem relink_shape
    (hprev : record.prev ≠ 0 → h.NotDirectory record.prev) :
    (h.relink record).shape = h.shape := by
  rw [relink]
  split_ifs with h0
  · exact storeNext_shape (hprev h0) record.next
  · rfl

theorem exists_relink
    (h : TaskHeap) (record : Task) :
    ∃ blocks, h.relink record = { h with blocks := blocks } := by
  rw [relink]
  split_ifs
  · exact exists_storeNext h record.prev record.next
  · exact ⟨h.blocks, rfl⟩

theorem relink_processes (h : TaskHeap) (record : Task) :
    (h.relink record).processes = h.processes := by
  obtain ⟨blocks, hrelink⟩ := exists_relink h record
  rw [hrelink]

theorem relink_currentProcess (h : TaskHeap) (record : Task) :
    (h.relink record).currentProcess = h.currentProcess := by
  obtain ⟨blocks, hrelink⟩ := exists_relink h record
  rw [hrelink]

theorem relink_task
    (hp : h.blocks p = some (.task record)) (record' : Task) :
    ∃ n, (h.relink record').blocks p = some (.task { record with next := n }) := by
  rw [relink]
  split_ifs
  · exact storeNext_task hp record'.prev record'.next
  · exact ⟨record.next, hp⟩

theorem relink_process
    {link : ProcessLink} (hp : h.blocks p = some (.process link)) (record : Task) :
    (h.relink record).blocks p = some (.process link) := by
  rw [relink]
  split_ifs
  · exact storeNext_process hp record.prev record.next
  · exact hp

theorem relink_none
    (hp : h.blocks p = none) (record : Task) :
    (h.relink record).blocks p = none := by
  rw [relink]
  split_ifs
  · exact storeNext_none hp record.prev record.next
  · exact hp

/-- The next task is found as long as there is a current one. -/
theorem exists_taskGetNext
    (hcurrent : h.blocks h.currentTask = some (.task record)) :
    ∃ next, h.toSched.taskGetNext = .ok next := by
  rw [Sched.taskGetNext, show h.toSched.currentTask = h.currentTask from rfl, task_eq_ok hcurrent,
    ok_bind]
  split_ifs
  · exact ⟨_, rfl⟩
  · exact ⟨_, rfl⟩

/-- A task is taken out of the list. -/
theorem taskListRemove_eq
    (hrecord : h.blocks p = some (.task record)) :
    ∃ current, h.taskListRemove p = .ok
      { h.relink record with
        taskTail := if p = h.taskTail then record.prev else h.taskTail
        currentTask := current } := by
  obtain ⟨blocks, hrelink⟩ := exists_relink h record
  obtain ⟨n, htask⟩ := relink_task hrecord record
  let h₁ := h.relink record
  let h₂ := if p = h₁.taskTail then { h₁ with taskTail := record.prev } else h₁
  have heq : h.taskListRemove p =
      if p = h₂.currentTask then
        h₂.toSched.taskGetNext >>= fun next => pure { h₂ with currentTask := next }
      else
        pure h₂ := by
    rw [taskListRemove, task_eq_ok hrecord]
    rfl
  have htail (current : Ptr) : { h₂ with currentTask := current } =
      { h₁ with
        taskTail := if p = h.taskTail then record.prev else h.taskTail
        currentTask := current } := by
    unfold h₂ h₁
    rw [hrelink]
    by_cases hp : p = h.taskTail
    · rw [if_pos hp, if_pos hp]
    · rw [if_neg hp, if_neg hp]
  rw [heq]
  by_cases hcurrent : p = h₂.currentTask
  · have hblocks : h₂.blocks = h₁.blocks := by
      unfold h₂
      split_ifs
      · rfl
      · rfl
    have htask₂ : h₂.blocks h₂.currentTask = some (.task { record with next := n }) := by
      rw [← hcurrent, hblocks]
      exact htask
    obtain ⟨next, hnext⟩ := exists_taskGetNext htask₂
    rw [if_pos hcurrent, hnext]
    exact ⟨next, congrArg Except.ok (htail next)⟩
  · rw [if_neg hcurrent]
    exact ⟨h₂.currentTask, congrArg Except.ok (htail h₂.currentTask)⟩

end Blocks

end TaskHeap

/-- The blocks of a page directory, as they are freed. -/
def LoadBlocks.pages (mem : LoadBlocks) : List Ptr :=
  (List.finRange 1024).map mem.tables ++ [mem.directory, mem.chunk]

def LoadBlocks.all (mem : LoadBlocks) : List Ptr := mem.pages ++ [mem.task, mem.process]

section LoadBlocks

variable {mem : LoadBlocks} {q : Ptr}

theorem LoadBlocks.mem_pages_iff :
    q ∈ mem.pages ↔ (∃ i, mem.tables i = q) ∨ q = mem.directory ∨ q = mem.chunk := by
  rw [LoadBlocks.pages, List.mem_append, List.mem_cons, List.mem_singleton]
  refine or_congr_left ⟨fun hmem => ?_, ?_⟩
  · obtain ⟨i, -, heq⟩ := List.mem_map.mp hmem
    exact ⟨i, heq⟩
  · rintro ⟨i, rfl⟩
    exact List.mem_map_of_mem (List.mem_finRange i)

theorem LoadBlocks.mem_all_iff :
    q ∈ mem.all ↔ q ∈ mem.pages ∨ q = mem.task ∨ q = mem.process := by
  rw [LoadBlocks.all, List.mem_append, List.mem_cons, List.mem_singleton]

theorem LoadBlocks.table_mem_pages
    (i : Fin 1024) :
    mem.tables i ∈ mem.pages :=
  LoadBlocks.mem_pages_iff.mpr (Or.inl ⟨i, rfl⟩)

theorem LoadBlocks.directory_mem_pages : mem.directory ∈ mem.pages :=
  LoadBlocks.mem_pages_iff.mpr (Or.inr (Or.inl rfl))

theorem LoadBlocks.chunk_mem_pages : mem.chunk ∈ mem.pages :=
  LoadBlocks.mem_pages_iff.mpr (Or.inr (Or.inr rfl))

theorem LoadBlocks.mem_all_of_mem_pages
    (hq : q ∈ mem.pages) :
    q ∈ mem.all :=
  LoadBlocks.mem_all_iff.mpr (Or.inl hq)

theorem LoadBlocks.task_mem_all : mem.task ∈ mem.all :=
  LoadBlocks.mem_all_iff.mpr (Or.inr (Or.inl rfl))

theorem LoadBlocks.process_mem_all : mem.process ∈ mem.all :=
  LoadBlocks.mem_all_iff.mpr (Or.inr (Or.inr rfl))

theorem LoadBlocks.all_nodup
    (hnodup : mem.all.Nodup) :
    mem.pages.Nodup ∧ mem.task ∉ mem.pages ∧ mem.process ∉ mem.pages ∧ mem.process ≠ mem.task := by
  obtain ⟨hpages, hrest, hapart⟩ := List.nodup_append.mp hnodup
  refine ⟨hpages, fun hmem => ?_, fun hmem => ?_, fun heq => ?_⟩
  · exact hapart _ hmem _ List.mem_cons_self rfl
  · exact hapart _ hmem _ (List.mem_cons_of_mem _ List.mem_cons_self) rfl
  · exact (List.nodup_cons.mp hrest).1 (heq ▸ List.mem_cons_self)

end LoadBlocks

namespace TaskHeap

/-- The pages are where the chunk leads. -/
structure HoldsPages (h : TaskHeap) (mem : LoadBlocks) : Prop where
  chunk : h.blocks mem.chunk = some (.chunk mem.directory)
  directory : ∃ entries, h.blocks mem.directory = some (.directory entries) ∧
    ∀ i, entries i &&& 0xfffff000 = mem.tables i
  tables : ∀ i, h.blocks (mem.tables i) ≠ none

/-- The process `id` has been loaded into these blocks. -/
structure Holds (h : TaskHeap) (mem : LoadBlocks) (id : Nat) : Prop where
  nodup : mem.all.Nodup
  notNull : 0 ∉ mem.all
  process : h.blocks mem.process = some (.process ⟨id, mem.task⟩)
  task : h.shape mem.task = some (.task ⟨mem.chunk, mem.process, 0, 0⟩)
  pages : h.HoldsPages mem

/-- The task of `record` has been freed with its process and all of their blocks. -/
structure Erased (h h' : TaskHeap) (mem : LoadBlocks) (record : Task) : Prop where
  blocks : ∀ q, h'.blocks q =
    if q ∈ mem.all then none else ((h.setAll mem.pages none).relink record).blocks q
  taskTail : h'.taskTail = if mem.task = h.taskTail then record.prev else h.taskTail
  processes : h'.processes = h.processes
  currentProcess : h'.currentProcess = h.currentProcess

section Pages

variable {h h' : TaskHeap} {mem : LoadBlocks} {id : Nat} {record : Task} {q : Ptr}

theorem HoldsPages.live
    (hpages : h.HoldsPages mem) (hq : q ∈ mem.pages) :
    h.blocks q ≠ none := by
  rcases LoadBlocks.mem_pages_iff.mp hq with ⟨i, rfl⟩ | rfl | rfl
  · exact hpages.tables i
  · obtain ⟨entries, hdirectory, -⟩ := hpages.directory
    rw [hdirectory]
    exact Option.some_ne_none _
  · rw [hpages.chunk]
    exact Option.some_ne_none _

theorem Holds.live
    (hheld : h.Holds mem id) (hq : q ∈ mem.all) :
    h.blocks q ≠ none := by
  rcases LoadBlocks.mem_all_iff.mp hq with hpage | rfl | rfl
  · exact hheld.pages.live hpage
  · rw [ne_eq, ← shape_eq_none, hheld.task]
    exact Option.some_ne_none _
  · rw [hheld.process]
    exact Option.some_ne_none _

theorem Holds.task_ne_zero
    (hheld : h.Holds mem id) :
    mem.task ≠ 0 :=
  ne_of_mem_of_not_mem LoadBlocks.task_mem_all hheld.notNull

theorem HoldsPages.congr
    (hpages : h.HoldsPages mem) (hshape : ∀ q ∈ mem.pages, h'.shape q = h.shape q) :
    h'.HoldsPages mem := by
  obtain ⟨entries, hdirectory, hentries⟩ := hpages.directory
  refine ⟨blocks_congr (by intro _ hb; cases hb) (hshape _ ?_) hpages.chunk,
    ⟨entries, blocks_congr (by intro _ hb; cases hb) (hshape _ ?_) hdirectory, hentries⟩,
    fun i hnone => hpages.tables i (shape_eq_none.mp ?_)⟩
  · exact LoadBlocks.chunk_mem_pages
  · exact LoadBlocks.directory_mem_pages
  · rw [← hshape _ (LoadBlocks.table_mem_pages i), shape_eq_none, hnone]

theorem Holds.congr
    (hheld : h.Holds mem id) (hshape : ∀ q ∈ mem.all, h'.shape q = h.shape q) :
    h'.Holds mem id where
  nodup := hheld.nodup
  notNull := hheld.notNull
  process := by
    refine blocks_congr (by intro _ hb; cases hb) (hshape _ ?_) hheld.process
    exact LoadBlocks.process_mem_all
  task := (hshape _ LoadBlocks.task_mem_all).trans hheld.task
  pages := hheld.pages.congr fun q hq => hshape q (LoadBlocks.mem_all_of_mem_pages hq)

/-- A page directory is freed with its tables. -/
theorem pagingFree4gb_eq
    (hpages : h.HoldsPages mem) (hnodup : mem.pages.Nodup) :
    h.pagingFree4gb mem.chunk = .ok (h.setAll mem.pages none) := by
  obtain ⟨entries, hdirectory, hentries⟩ := hpages.directory
  rw [← foldlM_kfree hnodup fun q hq => hpages.live hq, LoadBlocks.pages, List.foldlM_append,
    List.foldlM_map, pagingFree4gb, hpages.chunk]
  dsimp only
  rw [hdirectory]
  dsimp only
  simp only [hentries, List.foldlM_cons, List.foldlM_nil, bind_pure]

theorem Holds.exists_record
    (hheld : h.Holds mem id) :
    ∃ record, h.blocks mem.task = some (.task record) := by
  obtain ⟨next, prev, htask⟩ := task_of_shape hheld.task
  exact ⟨_, htask⟩

theorem Holds.pageDirectory
    (hheld : h.Holds mem id) (hrecord : h.blocks mem.task = some (.task record)) :
    record.pageDirectory = mem.chunk := by
  obtain ⟨next, prev, htask⟩ := task_of_shape hheld.task
  rw [hrecord] at htask
  cases htask
  rfl

/-- A task is freed with its page directory. -/
theorem taskFree_eq
    (hheld : h.Holds mem id) (hrecord : h.blocks mem.task = some (.task record)) :
    ∃ current, h.taskFree mem.task = .ok
      (({ (h.setAll mem.pages none).relink record with
        taskTail := if mem.task = h.taskTail then record.prev else h.taskTail
        currentTask := current } : TaskHeap).set mem.task none) := by
  obtain ⟨hnodup, htask, -⟩ := LoadBlocks.all_nodup hheld.nodup
  rw [taskFree, task_eq_ok hrecord, ok_bind, hheld.pageDirectory hrecord,
    pagingFree4gb_eq hheld.pages hnodup, ok_bind]
  have hrecord₁ : (h.setAll mem.pages none).blocks mem.task = some (.task record) := by
    rw [setAll_blocks, if_neg htask, hrecord]
  rw [← setAll_taskTail h mem.pages none]
  generalize h.setAll mem.pages none = h₁ at hrecord₁ ⊢
  obtain ⟨current, hremove⟩ := taskListRemove_eq hrecord₁
  obtain ⟨n, hlive⟩ := relink_task hrecord₁ record
  refine ⟨current, ?_⟩
  rw [hremove, ok_bind]
  refine if_pos ?_
  change ((h₁.relink record).blocks mem.task).isSome = true
  rw [hlive]
  rfl

theorem Holds.relink_process
    (hheld : h.Holds mem id) (record : Task) :
    ((h.setAll mem.pages none).relink record).blocks mem.process =
      some (.process ⟨id, mem.task⟩) := by
  obtain ⟨-, -, hprocess, -⟩ := LoadBlocks.all_nodup hheld.nodup
  refine TaskHeap.relink_process ?_ record
  rw [setAll_blocks, if_neg hprocess, hheld.process]

theorem Erased.shape
    (herased : h.Erased h' mem record) (hprev : record.prev ≠ 0 → h.NotDirectory record.prev) :
    h'.shape q = if q ∈ mem.all then none else h.shape q := by
  have hrelink :
      ((h.setAll mem.pages none).relink record).shape = (h.setAll mem.pages none).shape :=
    relink_shape fun h0 => (hprev h0).setAll mem.pages
  by_cases hq : q ∈ mem.all
  · rw [if_pos hq, shape_eq_none, herased.blocks, if_pos hq]
  · have hpage : q ∉ mem.pages := fun hpage => hq (LoadBlocks.mem_all_of_mem_pages hpage)
    rw [if_neg hq, shape_of_blocks ((herased.blocks q).trans (if_neg hq)), hrelink]
    exact shape_of_blocks (by rw [setAll_blocks, if_neg hpage])

/-- A process is freed with all of its blocks. -/
theorem processFreeProcess_erased
    (hheld : h.Holds mem id) (hrecord : h.blocks mem.task = some (.task record)) :
    ∃ h', h.processFreeProcess mem.process = .ok h' ∧ h.Erased h' mem record := by
  obtain ⟨-, -, -, hne⟩ := LoadBlocks.all_nodup hheld.nodup
  obtain ⟨current, hfree⟩ := taskFree_eq hheld hrecord
  rw [processFreeProcess, proc_eq_ok hheld.process, ok_bind, if_pos hheld.task_ne_zero, hfree,
    ok_bind]
  have hpages (q : Ptr) (hq : q ∈ mem.pages) :
      ((h.setAll mem.pages none).relink record).blocks q = none :=
    relink_none (by rw [setAll_blocks, if_pos hq]) record
  refine ⟨_, if_pos (Option.isSome_iff_ne_none.mpr ?_), fun q => ?_, rfl,
    (relink_processes _ record).trans (setAll_processes h mem.pages none),
    (relink_currentProcess _ record).trans (setAll_currentProcess h mem.pages none)⟩
  · rw [set_blocks, if_neg hne]
    exact hheld.relink_process record ▸ Option.some_ne_none _
  · rw [set_blocks, set_blocks]
    by_cases hq : q ∈ mem.all
    · rw [if_pos hq]
      rcases LoadBlocks.mem_all_iff.mp hq with hpage | rfl | rfl
      · rw [hpages q hpage, ite_self, ite_self]
      · rw [if_pos rfl, ite_self]
      · rw [if_pos rfl]
    · rw [if_neg hq, if_neg, if_neg]
      · rintro rfl
        exact hq LoadBlocks.task_mem_all
      · rintro rfl
        exact hq LoadBlocks.process_mem_all

end Pages

/-- What the heap gives out behind the process of a load is not in use. -/
structure Fresh (h : TaskHeap) (mem : LoadBlocks) : Prop where
  nodup : mem.all.Nodup
  notNull : 0 ∉ mem.all
  aligned : ∀ i, PageAligned (mem.tables i)
  unused : ∀ q ∈ mem.all, q ≠ mem.process → h.blocks q = none

/-- The `next` of the last task is not stored in a page directory. -/
def TailOk (h : TaskHeap) (mem : LoadBlocks) : Prop :=
  h.taskHead ≠ 0 → h.taskTail ≠ mem.directory ∧ h.NotDirectory h.taskTail

/-- The task of a load in its blocks, before it is linked. -/
def allocated (h : TaskHeap) (mem : LoadBlocks) : TaskHeap :=
  (h.set mem.task (some (.task ⟨mem.chunk, mem.process, 0, 0⟩))).pagingNew4gb mem
    (pagingIsPresent ||| pagingAccessFromAll)

/-- A task has been made in its blocks. -/
structure Made (h h' : TaskHeap) (mem : LoadBlocks) : Prop where
  task : ∃ record, h'.blocks mem.task = some (.task record) ∧ record.pageDirectory = mem.chunk ∧
    record.process = mem.process ∧ (record.prev ≠ 0 → h'.NotDirectory record.prev)
  pages : h'.HoldsPages mem
  tables : ∀ i, h'.blocks (mem.tables i) = some .table
  others : ∀ q, q ∉ mem.pages → q ≠ mem.task → h'.shape q = h.shape q
  processes : h'.processes = h.processes
  currentProcess : h'.currentProcess = h.currentProcess

section Load

variable {h h' : TaskHeap} {mem : LoadBlocks} {flags : Word} {q : Ptr}

theorem Fresh.task_ne_zero
    (hfresh : h.Fresh mem) :
    mem.task ≠ 0 :=
  ne_of_mem_of_not_mem LoadBlocks.task_mem_all hfresh.notNull

theorem Fresh.process_ne_zero
    (hfresh : h.Fresh mem) :
    mem.process ≠ 0 :=
  ne_of_mem_of_not_mem LoadBlocks.process_mem_all hfresh.notNull

theorem Fresh.set
    (hfresh : h.Fresh mem) (block : Option Block) :
    (h.set mem.process block).Fresh mem :=
  ⟨hfresh.nodup, hfresh.notNull, hfresh.aligned,
    fun q hq hne => (if_neg hne).trans (hfresh.unused q hq hne)⟩

theorem pagingNew4gb_eq
    (h : TaskHeap) (mem : LoadBlocks) (flags : Word) :
    h.pagingNew4gb mem flags =
      ((h.set mem.directory
        (some (.directory fun i => mem.tables i ||| flags ||| pagingIsWriteable))).setAll
          ((List.finRange 1024).map mem.tables) (some .table)).set mem.chunk
            (some (.chunk mem.directory)) := by
  rw [pagingNew4gb, ← foldl_set, List.foldl_map]

theorem pagingNew4gb_blocks :
    (h.pagingNew4gb mem flags).blocks q =
      if q = mem.chunk then some (.chunk mem.directory)
      else if ∃ i, mem.tables i = q then some .table
      else if q = mem.directory then
        some (.directory fun i => mem.tables i ||| flags ||| pagingIsWriteable)
      else h.blocks q := by
  have htables : q ∈ (List.finRange 1024).map mem.tables ↔ ∃ i, mem.tables i = q := by
    rw [List.mem_map]
    exact ⟨fun ⟨i, _, hi⟩ => ⟨i, hi⟩, fun ⟨i, hi⟩ => ⟨i, List.mem_finRange i, hi⟩⟩
  rw [pagingNew4gb_eq, set_blocks, setAll_blocks, set_blocks]
  exact if_congr Iff.rfl rfl (if_congr htables rfl rfl)

theorem exists_pagingNew4gb
    (h : TaskHeap) (mem : LoadBlocks) (flags : Word) :
    ∃ blocks, h.pagingNew4gb mem flags = { h with blocks := blocks } := by
  rw [pagingNew4gb_eq]
  generalize (List.finRange 1024).map mem.tables = ps
  exact ⟨_, rfl⟩

theorem pagingNew4gb_of_not_mem
    (hq : q ∉ mem.pages) :
    (h.pagingNew4gb mem flags).blocks q = h.blocks q := by
  rw [LoadBlocks.mem_pages_iff, not_or, not_or] at hq
  rw [pagingNew4gb_blocks, if_neg hq.2.2, if_neg hq.1, if_neg hq.2.1]

theorem pagingNew4gb_directory
    {entries : Fin 1024 → Word}
    (hq : (h.pagingNew4gb mem flags).blocks q = some (.directory entries)) :
    q = mem.directory ∨ h.blocks q = some (.directory entries) := by
  rw [pagingNew4gb_blocks] at hq
  split_ifs at hq with hchunk htable hdirectory
  · cases hq
  · cases hq
  · exact Or.inl hdirectory
  · exact Or.inr hq

/-- The tables, the directory and the chunk are different blocks. -/
theorem LoadBlocks.pages_nodup
    (hnodup : mem.pages.Nodup) :
    mem.directory ≠ mem.chunk ∧ ∀ i, mem.tables i ≠ mem.directory ∧ mem.tables i ≠ mem.chunk := by
  obtain ⟨-, hrest, hapart⟩ := List.nodup_append.mp hnodup
  refine ⟨fun heq => (List.nodup_cons.mp hrest).1 (heq ▸ List.mem_singleton_self _), fun i => ?_⟩
  have htable : mem.tables i ∈ (List.finRange 1024).map mem.tables :=
    List.mem_map_of_mem (List.mem_finRange i)
  exact ⟨hapart _ htable _ List.mem_cons_self,
    hapart _ htable _ (List.mem_cons_of_mem _ (List.mem_singleton_self _))⟩

theorem pagingNew4gb_table
    (hnodup : mem.pages.Nodup) (i : Fin 1024) :
    (h.pagingNew4gb mem flags).blocks (mem.tables i) = some .table := by
  rw [pagingNew4gb_blocks, if_neg ((LoadBlocks.pages_nodup hnodup).2 i).2, if_pos ⟨i, rfl⟩]

theorem pagingNew4gb_holdsPages
    (hnodup : mem.pages.Nodup) (haligned : ∀ i, PageAligned (mem.tables i))
    (hflags : (flags ||| pagingIsWriteable).toNat < 4096) :
    (h.pagingNew4gb mem flags).HoldsPages mem := by
  obtain ⟨hne, htables⟩ := LoadBlocks.pages_nodup hnodup
  refine ⟨?_, ⟨fun i => mem.tables i ||| flags ||| pagingIsWriteable, ?_, fun i => ?_⟩, fun i => ?_⟩
  · rw [pagingNew4gb_blocks, if_pos rfl]
  · rw [pagingNew4gb_blocks, if_neg hne, if_neg, if_pos rfl]
    rintro ⟨i, hi⟩
    exact (htables i).1 hi
  · dsimp only
    rw [BitVec.or_assoc]
    exact or_and_pageMask (haligned i) hflags
  · rw [pagingNew4gb_table hnodup]
    exact Option.some_ne_none _

theorem exists_allocated
    (h : TaskHeap) (mem : LoadBlocks) :
    ∃ blocks, h.allocated mem = { h with blocks := blocks } := by
  obtain ⟨blocks, heq⟩ := exists_pagingNew4gb
    (h.set mem.task (some (.task ⟨mem.chunk, mem.process, 0, 0⟩))) mem
    (pagingIsPresent ||| pagingAccessFromAll)
  exact ⟨blocks, heq⟩

theorem allocated_task
    (hnodup : mem.all.Nodup) :
    (h.allocated mem).blocks mem.task = some (.task ⟨mem.chunk, mem.process, 0, 0⟩) := by
  rw [allocated, pagingNew4gb_of_not_mem (LoadBlocks.all_nodup hnodup).2.1, set_blocks, if_pos rfl]

theorem allocated_others
    (hq : q ∉ mem.pages) (hne : q ≠ mem.task) :
    (h.allocated mem).blocks q = h.blocks q := by
  rw [allocated, pagingNew4gb_of_not_mem hq, set_blocks, if_neg hne]

theorem allocated_notDirectory
    (hne : q ≠ mem.directory) (hq : h.NotDirectory q) :
    (h.allocated mem).NotDirectory q := by
  intro entries hdirectory
  rcases pagingNew4gb_directory hdirectory with hown | hold
  · exact hne hown
  · rw [set_blocks] at hold
    split_ifs at hold
    · cases hold
    · exact hq entries hold

theorem taskNew_eq
    (h : TaskHeap) (mem : LoadBlocks) :
    h.taskNew mem =
      if (h.allocated mem).taskHead = 0 then
        pure { h.allocated mem with
          taskHead := mem.task, taskTail := mem.task, currentTask := mem.task }
      else
        let h := (h.allocated mem).storeNext (h.allocated mem).taskTail mem.task
        h.toSched.task mem.task >>= fun new =>
          pure { h.set mem.task (some (.task { new with prev := h.taskTail })) with
            taskTail := mem.task } :=
  rfl

/-- A new task is linked to the last one. -/
theorem taskNew_made
    (hfresh : h.Fresh mem) (htail : h.TailOk mem) :
    ∃ h', h.taskNew mem = .ok h' ∧ h.Made h' mem := by
  obtain ⟨hpages, htask, -⟩ := LoadBlocks.all_nodup hfresh.nodup
  have hheld : (h.allocated mem).HoldsPages mem :=
    pagingNew4gb_holdsPages hpages hfresh.aligned (by decide)
  have htables (i : Fin 1024) : (h.allocated mem).blocks (mem.tables i) = some .table :=
    pagingNew4gb_table hpages i
  have hrecord := @allocated_task h mem hfresh.nodup
  have hothers (q : Ptr) (hq : q ∉ mem.pages) (hne : q ≠ mem.task) :
      (h.allocated mem).shape q = h.shape q :=
    shape_of_blocks (allocated_others hq hne)
  have hnot : h.taskHead ≠ 0 → (h.allocated mem).NotDirectory h.taskTail := fun hhead =>
    allocated_notDirectory (htail hhead).1 (htail hhead).2
  obtain ⟨blocks, hframe⟩ := exists_allocated h mem
  have hhead : (h.allocated mem).taskHead = h.taskHead := by rw [hframe]
  have htail₁ : (h.allocated mem).taskTail = h.taskTail := by rw [hframe]
  have hprocesses : (h.allocated mem).processes = h.processes := by rw [hframe]
  have hcurrent : (h.allocated mem).currentProcess = h.currentProcess := by rw [hframe]
  rw [taskNew_eq, hhead]
  generalize h.allocated mem = h₁ at hheld htables hrecord hothers hnot htail₁ hprocesses hcurrent ⊢
  split_ifs with hzero
  · refine ⟨_, rfl, ⟨_, hrecord, rfl, rfl, fun h0 => absurd rfl h0⟩, ?_, htables, hothers,
      hprocesses, hcurrent⟩
    exact hheld.congr fun _ _ => rfl
  · have hnot₁ : h₁.NotDirectory h₁.taskTail := htail₁ ▸ hnot hzero
    have hstored := storeNext_shape hnot₁ mem.task
    obtain ⟨n, hnew⟩ := storeNext_task hrecord h₁.taskTail mem.task
    obtain ⟨blocks, hstore⟩ := exists_storeNext h₁ h₁.taskTail mem.task
    let h₂ := h₁.storeNext h₁.taskTail mem.task
    obtain ⟨htail₂, hprocesses₂, hcurrent₂⟩ : h₂.taskTail = h₁.taskTail ∧
        h₂.processes = h₁.processes ∧ h₂.currentProcess = h₁.currentProcess := by
      unfold h₂
      rw [hstore]
      exact ⟨rfl, rfl, rfl⟩
    let record : Task := ⟨mem.chunk, mem.process, n, h₂.taskTail⟩
    let h₃ : TaskHeap := { h₂.set mem.task (some (.task record)) with taskTail := mem.task }
    have hshape : h₃.shape = h₁.shape :=
      (@shape_setTask h₂ mem.task _ record hnew rfl rfl).trans hstored
    refine ⟨h₃, by dsimp only; rw [task_eq_ok hnew]; rfl,
      ⟨record, if_pos rfl, rfl, rfl, fun _ => ?_⟩, hheld.congr fun q _ => congrFun hshape q,
      fun i => ?_, fun q hq hne => (congrFun hshape q).trans (hothers q hq hne), ?_, ?_⟩
    · change h₃.NotDirectory h₂.taskTail
      rw [htail₂]
      exact hnot₁.congr (congrFun hshape _)
    · exact blocks_congr (by intro _ hb; cases hb) (congrFun hshape _) (htables i)
    · exact hprocesses₂.trans hprocesses
    · exact hcurrent₂.trans hcurrent

end Load

end TaskHeap
end PeachOS
