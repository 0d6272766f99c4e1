import PeachOS.Task.ProcessMemory

/-!
# Loads that have the memory they need

A raw binary is loaded whenever its file can be read and every request is
granted.
-/

namespace PeachOS

open Lib

/-- A file that is not an ELF file. -/
structure RawBinary (program : Program) : Prop where
  size : program.filesize ≠ 0
  signature : program.contents 0 ≠ 0x7f

namespace Kernel

section Room

variable {pages : Nat} {k : Kernel} {program : Program} {process : Ptr} {n : Nat}

theorem kzallocFor_room
    (hroom : Pool.HasSpace pages k.pool (n + 1)) (event : Ptr → HeapEvent) {size : Word}
    (hsize : size ≠ 0) (hpages : pagesOf size ≤ pages) :
    ∃ p k', k.kzallocFor event size = (p, k') ∧ p ≠ 0 ∧ Pool.HasSpace pages k'.pool n := by
  obtain ⟨hne, hroom'⟩ := Pool.HasSpace.kmalloc hroom hsize hpages
  refine ⟨(k.kzallocFor event size).1, (k.kzallocFor event size).2, rfl, ?_, ?_⟩
  · rwa [kzallocFor_ptr]
  · rwa [kzallocFor_pool]

theorem kzalloc_room
    (hroom : Pool.HasSpace pages k.pool (n + 1)) {size : Word} (hsize : size ≠ 0)
    (hpages : pagesOf size ≤ pages) :
    ∃ p k', k.kzalloc size = (p, k') ∧ p ≠ 0 ∧ Pool.HasSpace pages k'.pool n :=
  kzallocFor_room hroom .taken hsize hpages

theorem freadProgram_eq
    (hsize : program.filesize ≠ 0) {p : Ptr} (hne : p ≠ 0) :
    k.freadProgram program p = .ok (1,
      { k with
        mem := Pages.ofBytes fun a =>
          if (a - p).toNat < program.filesize.toNat then program.contents (a - p).toNat
          else k.mem.bytes a }) := by
  rw [freadProgram, if_neg hsize, if_neg hne]

/-- The first byte of the file is not that of an ELF file. -/
theorem elfValidateLoaded_raw
    (hraw : RawBinary program) (p : Ptr) (m : Memory) :
    elfValidateLoaded (fun a =>
      if (a - p).toNat < program.filesize.toNat then program.contents (a - p).toNat else m a) p =
      -einformat := by
  have hpos : 0 < program.filesize.toNat :=
    Nat.pos_of_ne_zero fun h0 => hraw.size (BitVec.eq_of_toNat_eq h0)
  have hbyte : eIdent (fun a =>
      if (a - p).toNat < program.filesize.toNat then program.contents (a - p).toNat else m a)
      p 0 ≠ 0x7f := by
    have hzero : (p + 0 - p).toNat = 0 := by simp
    rw [eIdent, hzero, if_pos hpos]
    exact hraw.signature
  have hsignature : elfValidSignature (fun a =>
      if (a - p).toNat < program.filesize.toNat then program.contents (a - p).toNat else m a)
      p = false := by
    rw [elfValidSignature, decide_eq_false hbyte]
    rfl
  rw [elfValidateLoaded, hsignature]
  rfl

/-- The file is refused and nothing is kept of it. -/
theorem elfLoadRead_raw
    (hraw : RawBinary program) {file elfMemory : Ptr} (hfile : file ≠ 0) (hne : elfMemory ≠ 0)
    (hroom : Pool.HasSpace pages k.pool n)
    (hrecord : k.elfFiles file = some ⟨elfMemory, 0, 0, 0, 0⟩) :
    ∃ k', k.elfLoadRead program file elfMemory = .ok (-einformat, k') ∧
      Pool.HasSpace pages k'.pool n := by
  let m : Memory := fun a =>
    if (a - elfMemory).toNat < program.filesize.toNat then
      program.contents (a - elfMemory).toNat
    else k.mem.bytes a
  have hload : elfProcessLoaded (Pages.ofBytes m).bytes ⟨elfMemory, 0, 0, 0, 0⟩ =
      (-einformat, ⟨elfMemory, 0, 0, 0, 0⟩) := by
    rw [elfProcessLoaded, Pages.bytes_ofBytes]
    dsimp only
    rw [elfValidateLoaded_raw hraw elfMemory k.mem.bytes]
    exact if_pos (by decide)
  rw [elfLoadRead, freadProgram_eq hraw.size hne, ok_bind]
  dsimp only
  rw [follow_of_some hfile hrecord, ok_bind, if_neg (by decide), hload]
  dsimp only
  rw [if_pos (by decide), elfFileFree, follow_of_some hfile (if_pos rfl), ok_bind]
  dsimp only
  rw [if_pos hne]
  exact ⟨_, rfl, Pool.HasSpace.kfree (Pool.HasSpace.kfree hroom elfMemory) file⟩

theorem fopen_room
    {taken : List Ptr} {sizes : List Word} (hroom : Pool.HasSpace pages k.pool (n + sizes.length))
    (hsizes : ∀ size ∈ sizes, size ≠ 0 ∧ pagesOf size ≤ pages) :
    ∃ k', k.fopen taken sizes = (true, k') ∧ Pool.HasSpace pages k'.pool n := by
  induction sizes generalizing k taken with
  | nil => exact ⟨k, rfl, hroom⟩
  | cons size sizes ih =>
      obtain ⟨hsize, hpages⟩ := hsizes size List.mem_cons_self
      obtain ⟨p, k₁, hk₁, hp, hroom₁⟩ := kzallocFor_room hroom .opened hsize hpages
      obtain ⟨k', hopen, hroom'⟩ := @ih k₁ (p :: taken) hroom₁
        fun s hs => hsizes s (List.mem_cons_of_mem size hs)
      refine ⟨k', ?_, hroom'⟩
      rw [fopen, hk₁]
      dsimp only
      rw [if_neg hp, hopen]

theorem Program.opened_fits
    (hfour : 4 ≤ pages) (program : Program) :
    ∀ size ∈ program.opened, size ≠ 0 ∧ pagesOf size ≤ pages := by
  intro size hsize
  obtain ⟨hne, hone⟩ := program.opened_small size hsize
  exact ⟨hne, by omega⟩

theorem elfLoad_raw
    (hfour : 4 ≤ pages) (hraw : RawBinary program) (hpages : pagesOf program.filesize ≤ pages)
    (hinv : k.pool.Inv)
    (hroom : Pool.HasSpace pages k.pool (n + 1 + program.opened.length + 1)) :
    ∃ file k', k.elfLoad program = .ok (-einformat, file, k') ∧
      Pool.HasSpace pages k'.pool n := by
  obtain ⟨file, k₁, hk₁, hfile, hroom₁⟩ := kzalloc_room hroom (by decide : sizeofElfFile ≠ 0)
    (Nat.le_trans (by decide) hfour)
  obtain ⟨hfirst, -⟩ := extends_kzalloc hinv (by decide) hk₁ hfile
  have hext₁ := hfirst.change List.mem_cons_self
    (setElfFile_spares k₁ file ⟨0, 0, 0, 0, 0⟩) rfl rfl rfl
  obtain ⟨k₂, hopen, hroom₂⟩ := @fopen_room _ (k₁.setElfFile file ⟨0, 0, 0, 0, 0⟩) (n + 1) []
    program.opened hroom₁ (Program.opened_fits hfour program)
  obtain ⟨os, hopened, -⟩ := fopen_extends hext₁.holds.inv program.opened_ne hopen
  obtain ⟨elfMemory, k₃, hk₃, hne, hroom₃⟩ := kzalloc_room hroom₂ hraw.size hpages
  obtain ⟨hlast, -⟩ := extends_kzalloc hopened.holds.inv hraw.size hk₃ hne
  have hrecord : k₃.elfFiles file = some ⟨0, 0, 0, 0, 0⟩ := by
    have hsame := (hopened.trans hlast).spares file (hext₁.holds.isSome List.mem_cons_self)
      List.not_mem_nil
    exact hsame.elfFiles.trans (if_pos rfl)
  obtain ⟨k', hread, hroom'⟩ := @elfLoadRead_raw _ (k₃.setElfFile file ⟨elfMemory, 0, 0, 0, 0⟩)
    _ n hraw _ _ hfile hne hroom₃ (if_pos rfl)
  refine ⟨file, k', ?_, hroom'⟩
  rw [elfLoad, hk₁]
  dsimp only
  rw [if_neg hfile, hopen]
  dsimp only
  rw [if_neg (by decide), hk₃]
  dsimp only
  rw [follow_of_some hfile hrecord, ok_bind, hread]
  rfl

theorem processLoadBinary_raw
    (hfour : 4 ≤ pages) (hraw : RawBinary program) (hpages : pagesOf program.filesize ≤ pages)
    (hinv : k.pool.Inv) (hroom : Pool.HasSpace pages k.pool (n + 1 + program.opened.length))
    (hlive : (k.pool.live process).isSome = true) {record : ProcessRecord} (hne : process ≠ 0)
    (hrecord : k.records process = some record) :
    ∃ k', k.processLoadBinary program process = .ok (0, k') ∧ Pool.HasSpace pages k'.pool n ∧
      ∃ record', k'.records process = some record' ∧ record'.filetype = .binary := by
  obtain ⟨k₁, hopen, hroom₁⟩ := @fopen_room _ k (n + 1) [] program.opened hroom
    (Program.opened_fits hfour program)
  obtain ⟨os, hopened, -⟩ := fopen_extends hinv program.opened_ne hopen
  obtain ⟨p, k₂, hk₂, hp, hroom₂⟩ := kzalloc_room hroom₁ hraw.size hpages
  obtain ⟨hlast, -⟩ := extends_kzalloc hopened.holds.inv hraw.size hk₂ hp
  have hrecord₂ : k₂.records process = some record :=
    ((hopened.trans hlast).spares process hlive List.not_mem_nil).records.trans hrecord
  rw [processLoadBinary, hopen]
  dsimp only
  rw [if_neg (by decide), hk₂]
  dsimp only
  rw [if_neg hp, freadProgram_eq hraw.size hp, ok_bind]
  dsimp only
  rw [if_neg (by decide), follow_of_some hne hrecord₂, ok_bind]
  exact ⟨_, rfl, hroom₂, _, if_pos rfl, rfl⟩

/-- The file is opened and read twice. -/
theorem processLoadData_raw
    (hfour : 4 ≤ pages) (hraw : RawBinary program) (hpages : pagesOf program.filesize ≤ pages)
    (hinv : k.pool.Inv) (hroom : Pool.HasSpace pages k.pool (n + (2 * program.opened.length + 3)))
    (hlive : (k.pool.live process).isSome = true) {record : ProcessRecord} (hne : process ≠ 0)
    (hrecord : k.records process = some record) :
    ∃ k', k.processLoadData program process = .ok (0, k') ∧ Pool.HasSpace pages k'.pool n ∧
      ∃ record', k'.records process = some record' ∧ record'.filetype = .binary := by
  have hcount : n + (2 * program.opened.length + 3) =
      n + 1 + program.opened.length + 1 + program.opened.length + 1 := by omega
  rw [hcount] at hroom
  obtain ⟨file, k₁, hload, hroom₁⟩ := @elfLoad_raw _ k program _ hfour hraw hpages hinv hroom
  have helf : k.processLoadElf program process = .ok (-einformat, k₁) := by
    rw [processLoadElf, hload, ok_bind]
    exact if_pos (show -einformat < 0 by decide)
  obtain ⟨os, -, hext⟩ := (processLoadElf_inv hinv hlive hrecord helf).2 rfl
  have hsame := hext.spares process hlive List.not_mem_nil
  obtain ⟨k', hload', hrest⟩ := processLoadBinary_raw hfour hraw hpages hext.holds.inv hroom₁
    (hsame.live ▸ hlive) hne (hsame.records.trans hrecord)
  refine ⟨k', ?_, hrest⟩
  rw [processLoadData, helf, ok_bind]
  exact (if_pos rfl).trans hload'

theorem pagingNew4gbTable_room
    (hfour : 4 ≤ pages) (hroom : Pool.HasSpace pages k.pool (n + 1)) {directory : Ptr}
    (hne : directory ≠ 0) (flags : Word) (i : Fin 1024) :
    ∃ k', pagingNew4gbTable directory flags k i = .ok k' ∧ Pool.HasSpace pages k'.pool n := by
  obtain ⟨entry, k₁, hk₁, hentry, hroom₁⟩ := kzalloc_room hroom (by decide : sizeofTable ≠ 0)
    (Nat.le_trans (by decide) hfour)
  rw [pagingNew4gbTable, hk₁]
  dsimp only
  rw [if_neg (not_or.mpr ⟨hentry, hne⟩)]
  exact ⟨_, rfl, hroom₁⟩

theorem pagingNew4gb_room
    (hfour : 4 ≤ pages) (hroom : Pool.HasSpace pages k.pool (n + 1026)) (flags : Word) :
    ∃ chunk k', k.pagingNew4gb flags = .ok (chunk, k') ∧ chunk ≠ 0 ∧
      Pool.HasSpace pages k'.pool n := by
  obtain ⟨directory, k₁, hk₁, hne, hroom₁⟩ :=
    @kzalloc_room _ k (n + 1025) hroom _ (by decide : sizeofDirectory ≠ 0)
      (Nat.le_trans (by decide) hfour)
  obtain ⟨k₂, hloop, hroom₂⟩ := foldlM_returns
    (fun done (k : Kernel) => Pool.HasSpace pages k.pool (n + 1 + (1024 - done.length)))
    (fun done i todo k hall hk => by
      have hlength := congrArg List.length hall
      rw [List.length_finRange, List.length_append, List.length_cons] at hlength
      have hsucc : n + 1 + (1024 - done.length) = n + 1 + (1024 - (done ++ [i]).length) + 1 := by
        rw [List.length_append, List.length_singleton]
        omega
      rw [hsucc] at hk
      exact pagingNew4gbTable_room hfour hk hne flags i)
    (show Pool.HasSpace pages k₁.pool (n + 1 + (1024 - ([] : List (Fin 1024)).length)) from hroom₁)
  rw [List.length_finRange] at hroom₂
  obtain ⟨chunk, k₃, hk₃, hchunk, hroom₃⟩ := kzalloc_room hroom₂ (by decide : sizeofChunk ≠ 0)
    (Nat.le_trans (by decide) hfour)
  refine ⟨chunk, { k₃ with
    chunks := fun q => if q = chunk then some directory else k₃.chunks q }, ?_, hchunk, hroom₃⟩
  rw [pagingNew4gb, hk₁]
  dsimp only
  rw [hloop, ok_bind, hk₃]
  exact if_neg hchunk

theorem taskNew_room
    (hfour : 4 ≤ pages) (hroom : Pool.HasSpace pages k.pool (n + 1027)) (hinv : k.pool.Inv)
    (htail : k.sched.taskHead = 0 ∨ k.sched.Live k.sched.taskTail) (process : Ptr) :
    ∃ task k', k.taskNew process = .ok (task, k') ∧ Pool.HasSpace pages k'.pool n := by
  obtain ⟨task, k₁, hk₁, hne, hroom₁⟩ :=
    @kzalloc_room _ k (n + 1026) hroom _ (by decide : sizeofTask ≠ 0)
      (Nat.le_trans (by decide) hfour)
  obtain ⟨hext₁, -⟩ := extends_kzalloc hinv (by decide) hk₁ hne
  obtain ⟨chunk, k₂, hpaging, hchunk, hroom₂⟩ :=
    pagingNew4gb_room hfour hroom₁ (pagingIsPresent ||| pagingAccessFromAll)
  obtain ⟨directory, hmade⟩ := pagingNew4gb_inv hext₁.holds.inv (by decide) hpaging
  have hsched : k₂.sched = k.sched := hmade.added.sched.trans hext₁.sched
  obtain ⟨s', hnew, -⟩ := Sched.taskNew_created hne
    (show k₂.sched.TailOk task by rw [hsched]; exact htail.imp_right Or.inl) process chunk
  refine ⟨task, { k₂ with sched := s' }, ?_, hroom₂⟩
  rw [Kernel.taskNew, hk₁]
  dsimp only
  rw [if_neg hne, hpaging, ok_bind]
  dsimp only
  rw [if_neg hchunk, hnew]
  rfl

end Room

section Load

variable {pages : Nat} {k : Kernel} {program : Program} {process : Ptr} {n slot : Nat}

theorem processNew_room
    (hfour : 4 ≤ pages) (hroom : Pool.HasSpace pages k.pool (n + 1)) :
    ∃ process k', k.processNew = (process, k') ∧ process ≠ 0 ∧ Pool.HasSpace pages k'.pool n := by
  obtain ⟨process, k', hk, hne, hroom'⟩ := kzalloc_room hroom (by decide : sizeofProcess ≠ 0)
    (Nat.le_trans (by decide) hfour)
  refine ⟨process, { k'.setRecord process processInit with
    sched := k'.sched.setProc process (some ⟨0, 0⟩) }, ?_, hne, hroom'⟩
  rw [processNew, hk]
  exact if_neg hne

theorem loadStack_room
    (hfour : 4 ≤ pages) (hroom : Pool.HasSpace pages k.pool (n + 1)) (hinv : k.pool.Inv)
    (hlive : (k.pool.live process).isSome = true) (hne : process ≠ 0) {record : ProcessRecord}
    (hrecord : k.records process = some record) :
    ∃ stack k', k.loadStack process = .ok (0, k') ∧ Pool.HasSpace pages k'.pool n ∧ k'.pool.Inv ∧
      (k'.pool.live process).isSome = true ∧ k'.sched = k.sched ∧
      k'.records process = some { record with stack := stack } := by
  obtain ⟨stack, k₁, hk₁, hstack, hroom₁⟩ :=
    kzalloc_room hroom (by decide : userProgramStackSize ≠ 0) (Nat.le_trans (by decide) hfour)
  obtain ⟨hext, -⟩ := extends_kzalloc hinv (by decide) hk₁ hstack
  have hsame := hext.spares process hlive List.not_mem_nil
  refine ⟨stack, k₁.setRecord process { record with stack := stack }, ?_, hroom₁, hext.holds.inv,
    hsame.live ▸ hlive, hext.sched, if_pos rfl⟩
  rw [loadStack, hk₁]
  dsimp only
  rw [follow_of_some hne (hsame.records.trans hrecord), ok_bind, if_neg hstack]
  rfl

theorem loadTask_room
    (hfour : 4 ≤ pages) (hraw : RawBinary program)
    (hpages : pagesOf program.filesize ≤ pages)
    (hroom : Pool.HasSpace pages k.pool (n + (2 * program.opened.length + 1031)))
    (hinv : k.pool.Inv)
    (htail : k.sched.taskHead = 0 ∨ k.sched.Live k.sched.taskTail)
    (hlive : (k.pool.live process).isSome = true) (hne : process ≠ 0) {record : ProcessRecord}
    (hrecord : k.records process = some record) (slot : Nat) :
    ∃ task k', k.loadTask program process slot = .ok (0, task, k') ∧ Pool.HasSpace pages k'.pool n ∧
      ∃ record', k'.records process = some record' ∧ record'.filetype = .binary := by
  have hcount : n + (2 * program.opened.length + 1031) =
      n + 1028 + (2 * program.opened.length + 3) := by omega
  rw [hcount] at hroom
  obtain ⟨k₁, hread, hroom₁, record₁, hrecord₁, hbinary⟩ :=
    @processLoadData_raw _ k program process (n + 1028) hfour hraw hpages hinv hroom hlive record
      hne hrecord
  obtain ⟨buffer, bs, os, k₀, record₀, hadded, -, -, rfl, -⟩ :=
    processLoadData_inv hinv hlive hrecord hread (by decide)
  have hsame := hadded.spares process hlive List.not_mem_nil
  obtain ⟨stack, k₂, hstack, hroom₂, hinv₂, hlive₂, hsched₂, hrecord₂⟩ :=
    @loadStack_room _ _ process (n + 1027) hfour hroom₁ hadded.holds.inv (hsame.live ▸ hlive) hne _
      hrecord₁
  let k₃ : Kernel := { k₂ with sched := k₂.sched.setProc process (some ⟨slot, 0⟩) }
  have hsched₃ : k₃.sched = k.sched.setProc process (some ⟨slot, 0⟩) :=
    congrArg (Sched.setProc · process (some ⟨slot, 0⟩)) (hsched₂.trans hadded.sched)
  obtain ⟨task, k₄, hnew, hroom₄⟩ :=
    @taskNew_room _ k₃ n hfour hroom₂ hinv₂ (by rw [hsched₃]; exact htail) process
  obtain ⟨chunk, directory, hmade⟩ := taskNew_inv (show k₃.pool.Inv from hinv₂) hnew
  refine ⟨task, { k₄ with sched := k₄.sched.setProc process (some ⟨slot, task⟩) }, ?_,
    hroom₄, { record₁ with stack := stack }, ?_, hbinary⟩
  · rw [loadTask, hread, ok_bind]
    dsimp only
    rw [if_neg (by decide), hstack, ok_bind]
    dsimp only
    rw [if_neg (by decide), hnew]
    rfl
  · exact (hmade.spares process hlive₂ List.not_mem_nil).records.trans hrecord₂

/-- A raw binary is mapped whatever comes of it. -/
theorem processMapMemory_raw
    {record : ProcessRecord} {directory : Ptr} (hne : process ≠ 0)
    (hrecord : k.records process = some record) (hbinary : record.filetype = .binary)
    (hdirectory : k.directoryOf process = .ok directory) :
    ∃ k', k.processMapMemory process = .ok (0, k') ∧ k'.pool = k.pool := by
  rw [processMapMemory, follow_of_some hne hrecord, ok_bind, hdirectory, ok_bind,
    processMapProgram, hbinary, ok_bind]
  exact ⟨_, if_neg (by decide), rfl⟩

/-- With memory for its requests any raw binary is loaded. -/
theorem processLoadForSlot_room
    (hfour : 4 ≤ pages) (hraw : RawBinary program)
    (hpages : pagesOf program.filesize ≤ pages)
    (hroom : Pool.HasSpace pages k.pool (n + (2 * program.opened.length + 1032)))
    (hinv : k.pool.Inv)
    (hslot : k.sched.processes slot = 0)
    (htail : k.sched.taskHead = 0 ∨ k.sched.Live k.sched.taskTail) :
    ∃ process k', k.processLoadForSlot program slot = .ok (0, process, k') ∧
      Pool.HasSpace pages k'.pool n := by
  obtain ⟨process, k₁, hmade, hne, hroom₁⟩ :=
    @processNew_room _ k (n + (2 * program.opened.length + 1031)) hfour hroom
  have hprocess := processNew_inv hinv hmade hne
  have htail₁ : k₁.sched.taskHead = 0 ∨ k₁.sched.Live k₁.sched.taskTail := by
    rw [hprocess.sched]
    exact htail
  obtain ⟨task, k₂, htask, hroom₂, record, hrecord, hbinary⟩ := @loadTask_room _ k₁ program
    process n hfour hraw hpages hroom₁ hprocess.holds.inv htail₁
    (hprocess.holds.isSome List.mem_cons_self) hne _ hprocess.record slot
  obtain ⟨-, -, -, -, -, chunk, directory, record', buffer, bs, os, hstarted⟩ :=
    hprocess.start htask (by decide)
  obtain ⟨k₃, hmap, hpool⟩ := processMapMemory_raw hne hrecord hbinary hstarted.directoryOf
  refine ⟨process, { k₃ with
    sched :=
      { k₃.sched with
        processes := fun i => if i = slot then process else k₃.sched.processes i } }, ?_,
    show Pool.HasSpace pages k₃.pool n from hpool ▸ hroom₂⟩
  rw [processLoadForSlot, if_neg (not_not.mpr hslot), hmade]
  dsimp only
  rw [if_neg hne, htask, ok_bind]
  dsimp only
  rw [if_neg (by decide), if_neg hstarted.task_ne_zero, hmap, ok_bind]
  exact if_neg (show ¬ (0 : Int) < 0 by decide)

end Load

/-- A kernel that nothing has been loaded on, with memory for `limit` requests of four pages. -/
noncomputable def blank (limit : Nat) : Kernel where
  pool := Pool.packed 4 limit
  log := []
  mem := fun _ _ => 0
  chunks := fun _ => none
  elfFiles := fun _ => none
  records := fun _ => none
  sched := Sched.empty

/-- A program of one byte in the root directory. -/
def oneByte : Program where
  filesize := 1
  contents := fun _ => 0
  parts := 1

theorem oneByte_raw : RawBinary oneByte :=
  ⟨by decide, by decide⟩

/-- It takes 1040 requests to load it. -/
theorem processLoadForSlot_oneByte
    {k : Kernel} {n slot : Nat} (hroom : Pool.HasSpace 4 k.pool (n + 1040)) (hinv : k.pool.Inv)
    (hslot : k.sched.processes slot = 0)
    (htail : k.sched.taskHead = 0 ∨ k.sched.Live k.sched.taskTail) :
    ∃ process k', k.processLoadForSlot oneByte slot = .ok (0, process, k') ∧
      Pool.HasSpace 4 k'.pool n :=
  processLoadForSlot_room (Nat.le_refl 4) oneByte_raw (by decide) hroom hinv hslot htail

end Kernel

end PeachOS
