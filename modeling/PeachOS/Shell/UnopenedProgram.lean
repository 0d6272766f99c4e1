import PeachOS.File.Open
import PeachOS.Shell.ProgramArguments
import PeachOS.Task.LoadFailure

/-!
# A program that is never opened

`process_load_for_slot` with the `fopen` of `file.c` in the place of the one that a load
counts on.  The parser of the path has no root to return, so neither loader of a program
gets a file, and `peachos_system_run` starts none.
-/

namespace PeachOS

open Lib

universe u

namespace Kernel

/-- `fopen` of the file of a program: what it returns, and the kernel behind it. -/
abbrev Opener := Kernel → Except Halt (Int × Kernel)

namespace Opener

def elfLoad (fopen : Opener) (k : Kernel) (program : Program) :
    Except Halt (Int × Ptr × Kernel) := do
  let (file, k) := k.kzalloc sizeofElfFile
  let k := if file = 0 then k else k.setElfFile file ⟨0, 0, 0, 0, 0⟩
  let (res, k) ← fopen k
  if res ≤ 0 then
    let k ← k.elfFileFree file
    pure (-eio, file, k)
  else
    let (elfMemory, k) := k.kzalloc program.filesize
    let elfFile ← follow k.elfFiles file
    let k := k.setElfFile file { elfFile with elfMemory := elfMemory }
    let (res, k) ← k.elfLoadRead program file elfMemory
    pure (res, file, k)

def processLoadElf (fopen : Opener) (k : Kernel) (program : Program) (process : Ptr) :
    Except Halt (Int × Kernel) := do
  let (res, file, k) ← fopen.elfLoad k program
  if res < 0 then
    pure (res, k)
  else
    let record ← follow k.records process
    pure (res, k.setRecord process { record with filetype := .elf, data := file })

def processLoadBinary (fopen : Opener) (k : Kernel) (program : Program) (process : Ptr) :
    Except Halt (Int × Kernel) := do
  let (fd, k) ← fopen k
  if fd = 0 then
    pure (-eio, k)
  else
    let (programDataPtr, k) := k.kzalloc program.filesize
    if programDataPtr = 0 then
      pure (-enomem, k)
    else
      let (res, k) ← k.freadProgram program programDataPtr
      if res ≠ 1 then
        pure (-eio, k.kfree programDataPtr)
      else
        let record ← follow k.records process
        pure (0,
          k.setRecord process
            { record with
              filetype := .binary
              data := programDataPtr
              size := program.filesize })

def processLoadData (fopen : Opener) (k : Kernel) (program : Program) (process : Ptr) :
    Except Halt (Int × Kernel) := do
  let (res, k) ← fopen.processLoadElf k program process
  if res = -einformat then
    fopen.processLoadBinary k program process
  else
    pure (res, k)

def loadTask (fopen : Opener) (k : Kernel) (program : Program) (process : Ptr) (slot : Nat) :
    Except Halt (Int × Ptr × Kernel) := do
  let (res, k) ← fopen.processLoadData k program process
  if res < 0 then
    pure (res, 0, k)
  else
    let (res, k) ← k.loadStack process
    if res < 0 then
      pure (res, 0, k)
    else
      let k := { k with sched := k.sched.setProc process (some ⟨slot, 0⟩) }
      let (task, k) ← k.taskNew process
      pure (0, task, { k with sched := k.sched.setProc process (some ⟨slot, task⟩) })

def processLoadForSlot (fopen : Opener) (k : Kernel) (program : Program) (slot : Nat) :
    Except Halt (Int × Ptr × Kernel) := do
  if k.sched.processes slot ≠ 0 then
    .error .fault
  else
    let (process, k) := k.processNew
    if process = 0 then
      pure (-enomem, 0, k)
    else
      let (res, task, k) ← fopen.loadTask k program process slot
      if res < 0 then
        k.loadFailed process res
      else if task = 0 then
        pure (0, 0, k)
      else
        let (res, k) ← k.processMapMemory process
        if res < 0 then
          k.loadFailed process res
        else
          pure (0, process,
            { k with
              sched :=
                { k.sched with
                  processes := fun i => if i = slot then process else k.sched.processes i } })

/-- The `fopen` that a load counts on. -/
def counted (program : Program) : Opener := fun k =>
  let (opened, k) := k.fopen [] program.opened
  .ok (if opened then 1 else 0, k)

section Counted

variable (k : Kernel) (program : Program) (process : Ptr) (slot : Nat)

theorem elfLoad_counted : (counted program).elfLoad k program = k.elfLoad program := by
  rw [elfLoad, Kernel.elfLoad]
  dsimp only [counted]
  generalize (if (k.kzalloc sizeofElfFile).1 = 0 then _ else _ : Kernel) = k₁
  rcases k₁.fopen [] program.opened with ⟨opened, k₂⟩
  cases opened <;> rfl

theorem processLoadBinary_counted :
    (counted program).processLoadBinary k program process =
      k.processLoadBinary program process := by
  rw [processLoadBinary, Kernel.processLoadBinary, counted]
  rcases k.fopen [] program.opened with ⟨opened, k₁⟩
  cases opened <;> rfl

theorem processLoadData_counted :
    (counted program).processLoadData k program process =
      k.processLoadData program process := by
  have helf : (counted program).processLoadElf k program process =
      k.processLoadElf program process := by
    rw [processLoadElf, Kernel.processLoadElf, elfLoad_counted]
  rw [processLoadData, Kernel.processLoadData, helf]
  simp only [processLoadBinary_counted]

/-- With the `fopen` that it counts on a load is the one of the other modules. -/
theorem processLoadForSlot_counted :
    (counted program).processLoadForSlot k program slot = k.processLoadForSlot program slot := by
  have htask (k : Kernel) (process : Ptr) :
      (counted program).loadTask k program process slot = k.loadTask program process slot := by
    rw [loadTask, Kernel.loadTask, processLoadData_counted]
  rw [processLoadForSlot, Kernel.processLoadForSlot]
  simp only [htask]

end Counted

end Opener

section OpenFile

variable {σ : Type}

/-- What the parser of a path asks for: the root, then of each component the name and the
record. -/
def pathRequest (i : Nat) : Word :=
  if i = 0 then sizeofPathRoot else if i % 2 = 1 then sizeofPathName else sizeofPathPart

def afterRequests (k : Kernel) : Nat → Kernel
  | 0 => k
  | n + 1 => ((k.afterRequests n).kzalloc (pathRequest n)).2

/-- The heap as the parser finds it. -/
def pathBlocks (k : Kernel) : PathBlocks where
  answer := fun i => ((k.afterRequests i).kzalloc (pathRequest i)).1
  asked := 0
  block := fun _ => none

/-- The blocks that have been allocated and are gone. -/
def goneBlocks (b : PathBlocks) : List Ptr :=
  ((List.range b.asked).map b.answer).filter fun p => p ≠ 0 ∧ (b.live p).isNone

/-- `fopen` of `file.c`, with the blocks of its path on the heap of the kernel; `o` has the
table of descriptors and the filesystem. -/
def openFile (o : OpenKernel σ) (fuel : Nat) (path : CString) : Opener := fun k =>
  match PeachOS.fopen fuel { o with blocks := k.pathBlocks } path readMode with
  | (.error halt, _) => .error halt
  | (.ok fd, o') => .ok (fd, (goneBlocks o'.blocks).foldl kfree (k.afterRequests o'.blocks.asked))

variable {o : OpenKernel σ} {fuel : Nat} {path : CString} {k : Kernel} {b : Pool}

/-- It opens nothing. -/
theorem openFile_status
    {fd : Int} {k' : Kernel} (h : openFile o fuel path k = .ok (fd, k')) :
    fd = 0 := by
  rw [openFile] at h
  cases hparse : pathparserParse k.pathBlocks path with
  | error halt =>
      rw [PeachOS.fopen, hparse] at h
      cases h
  | ok out =>
      obtain ⟨root, blocks⟩ := out
      obtain rfl := pathparserParse_null hparse
      rw [fopen_of_null (k := { o with blocks := k.pathBlocks }) hparse] at h
      cases h
      rfl

/-- With memory for a root and for a name the parser frees the root and forgets the name. -/
theorem pathparserParse_forgets
    {b : PathBlocks} (hdrive : HasDrive path) (hroot : b.answer b.asked ≠ 0)
    (hname : b.answer (b.asked + 1) ≠ 0) (hne : b.answer (b.asked + 1) ≠ b.answer b.asked) :
    ∃ b', pathparserParse b path = .ok (0, b') ∧ b'.asked = b.asked + 2 ∧ b'.answer = b.answer ∧
      b'.live (b.answer b.asked) = none ∧ (b'.live (b.answer (b.asked + 1))).isSome = true := by
  have hparse := pathparserParse_root hdrive hroot
  rw [if_neg hname] at hparse
  obtain ⟨-, hanswer, hasked⟩ := Blocks.kzalloc_fields
    (b.withRoot (pathparserGetDriveByPath path.bytes).1) (.name [])
  refine ⟨_, hparse, hasked, hanswer, ?_, ?_⟩
  · rw [Blocks.live_set_none, if_pos rfl]
  · rw [Blocks.set_live_of_ne _ _ hne]
    have hlive := Blocks.kzalloc_live_self
      (b := b.withRoot (pathparserGetDriveByPath path.bytes).1) hname (.name [])
    exact Option.isSome_iff_exists.mpr ⟨_, hlive⟩

theorem kzalloc_of_granted
    {k : Kernel} {size : Word} {sizes : List Word} (h : Pool.Granted k.pool (size :: sizes) b) :
    ∃ p k', k.kzalloc size = (p, k') ∧ p ≠ 0 ∧ Pool.Granted k'.pool sizes b := by
  cases h with
  | cons hne hrest =>
      rw [← kzallocFor_ptr k .taken] at hne
      rw [← kzallocFor_pool k .taken] at hrest
      exact ⟨_, _, rfl, hne, hrest⟩

/-- With memory for a root and for a name the name is left. -/
theorem openFile_granted
    (hinv : k.pool.Inv) (hdrive : HasDrive path)
    (hgranted : Pool.Granted k.pool [sizeofPathRoot, sizeofPathName] b) :
    ∃ name k', openFile o fuel path k = .ok (0, k') ∧ Extends k [name] [] k' := by
  obtain ⟨root, k₁, hk₁, hroot, hgranted₁⟩ := kzalloc_of_granted hgranted
  obtain ⟨name, k₂, hk₂, hname, -⟩ := kzalloc_of_granted hgranted₁
  obtain ⟨hext₁, -⟩ := extends_kzalloc hinv (by decide) hk₁ hroot
  obtain ⟨hext₂, -⟩ := extends_kzalloc hext₁.holds.inv (by decide) hk₂ hname
  have hext : Extends k [root, name] [] k₂ :=
    (hext₁.trans hext₂).perm (List.Perm.swap root name [])
  have hne : name ≠ root := fun heq =>
    (List.nodup_cons.mp hext.holds.nodup).1 (heq ▸ List.mem_singleton_self name)
  have hrequests : k.afterRequests 2 = k₂ := by
    change ((k.kzalloc sizeofPathRoot).2.kzalloc sizeofPathName).2 = k₂
    rw [hk₁, hk₂]
  have hroot' : k.pathBlocks.answer k.pathBlocks.asked = root := congrArg Prod.fst hk₁
  have hname' : k.pathBlocks.answer (k.pathBlocks.asked + 1) = name := by
    change ((k.kzalloc sizeofPathRoot).2.kzalloc sizeofPathName).1 = name
    rw [hk₁, hk₂]
  obtain ⟨blocks, hparse, hasked, hanswer, hgone, hkept⟩ :=
    @pathparserParse_forgets path k.pathBlocks hdrive (hroot'.trans_ne hroot)
      (hname'.trans_ne hname) (by rw [hname', hroot']; exact hne)
  rw [hroot'] at hgone
  rw [hname'] at hkept
  have hfreed : goneBlocks blocks = [root] := by
    have hanswers : (List.range blocks.asked).map blocks.answer = [root, name] := by
      rw [hasked, hanswer, ← hroot', ← hname']
      rfl
    have hkept' : ¬ (name ≠ 0 ∧ (blocks.live name).isNone = true) := by
      rw [Option.isNone_eq_false_iff.mpr hkept]
      exact fun h => Bool.noConfusion h.2
    rw [goneBlocks, hanswers, List.filter_cons_of_pos, List.filter_cons_of_neg, List.filter_nil]
    · exact fun h => hkept' (of_decide_eq_true h)
    · exact decide_eq_true ⟨hroot, by rw [hgone]; rfl⟩
  refine ⟨name, k₂.kfree root, ?_, hext.kfree⟩
  rw [openFile, fopen_of_null (k := { o with blocks := k.pathBlocks }) hparse]
  dsimp only
  rw [hfreed, hasked, List.foldl_cons, List.foldl_nil, ← hrequests]
  rfl

/-- A process that has nothing yet is freed. -/
theorem loadFailed_empty
    {process : Ptr} {record : ProcessRecord} {id : Nat} (hne : process ≠ 0)
    (hrecord : k.records process = some record) (hnone : ∀ i, (record.allocations i).ptr = 0)
    (hdata : record.data = 0) (hstack : record.stack = 0)
    (hlink : k.sched.procs process = some ⟨id, 0⟩) (res : Int) :
    ∃ k', k.loadFailed process res = .ok (res, 0, k') := by
  have hfreeData : k.processFreeProgramData process = .ok k := by
    rw [processFreeProgramData, follow_of_some hne hrecord, ok_bind]
    exact if_pos hdata
  have hfreeStack : k.processFreeStack process = .ok k := by
    rw [processFreeStack, follow_of_some hne hrecord, ok_bind]
    exact if_neg (not_not.mpr hstack)
  have hfreeTask : k.processFreeTask process = .ok k := by
    rw [processFreeTask, follow_of_some hne hlink, ok_bind]
    exact if_neg (not_not.mpr rfl)
  rw [loadFailed, processFreeProcess, processTerminateAllocations_none hne hrecord hnone, ok_bind,
    hfreeData, ok_bind, hfreeStack, ok_bind, hfreeTask]
  exact ⟨_, rfl⟩

/-- The first loader gets no file. -/
theorem elfLoad_unopened
    (hinv : k.pool.Inv) (hdrive : HasDrive path)
    (hgranted : Pool.Granted k.pool [sizeofElfFile, sizeofPathRoot, sizeofPathName] b)
    (program : Program) :
    ∃ file name k', (openFile o fuel path).elfLoad k program = .ok (-eio, file, k') ∧
      Extends k [name] [] k' := by
  obtain ⟨file, k₁, hk, hfile, hgranted₁⟩ := kzalloc_of_granted hgranted
  obtain ⟨hfirst, -⟩ := extends_kzalloc hinv (by decide) hk hfile
  have hext₁ := hfirst.change List.mem_cons_self
    (setElfFile_spares k₁ file ⟨0, 0, 0, 0, 0⟩) rfl rfl rfl
  obtain ⟨name, k₂, hopen, hext₂⟩ :=
    @openFile_granted _ o fuel path (k₁.setElfFile file ⟨0, 0, 0, 0, 0⟩) b hext₁.holds.inv hdrive
      hgranted₁
  have hrecord : k₂.elfFiles file = some ⟨0, 0, 0, 0, 0⟩ := by
    have hsame := hext₂.spares file (hext₁.holds.isSome List.mem_cons_self) List.not_mem_nil
    exact hsame.elfFiles.trans (if_pos rfl)
  have hext : Extends k [file, name] [] k₂ :=
    (hext₁.trans hext₂).perm (List.Perm.swap file name [])
  refine ⟨file, name, k₂.kfree file, ?_, hext.kfree⟩
  rw [Opener.elfLoad, hk]
  dsimp only
  rw [if_neg hfile, hopen, ok_bind]
  dsimp only
  rw [if_pos (le_refl 0), elfFileFree, follow_of_some hfile hrecord]
  rfl

/-- The load gives up with the first loader. -/
theorem processLoadForSlot_unopened
    {slot : Nat} (hinv : k.pool.Inv) (hslot : k.sched.processes slot = 0) (hdrive : HasDrive path)
    (hgranted : Pool.Granted k.pool
      [sizeofProcess, sizeofElfFile, sizeofPathRoot, sizeofPathName] b)
    (program : Program) :
    ∃ k', (openFile o fuel path).processLoadForSlot k program slot = .ok (-eio, 0, k') := by
  obtain ⟨process, k₀, hk, hprocess, hgranted₁⟩ := kzalloc_of_granted hgranted
  have hmade : k.processNew = (process,
      { k₀.setRecord process processInit with
        sched := k₀.sched.setProc process (some ⟨0, 0⟩) }) := by
    rw [processNew, hk]
    exact if_neg hprocess
  have hnew := processNew_inv hinv hmade hprocess
  generalize hk₁ : ({ k₀.setRecord process processInit with
        sched := k₀.sched.setProc process (some ⟨0, 0⟩) } : Kernel) = k₁ at hmade hnew
  have hpool : k₁.pool = k₀.pool := by rw [← hk₁]; rfl
  obtain ⟨file, name, k₂, hload, hext⟩ := @elfLoad_unopened _ o fuel path k₁ b hnew.holds.inv hdrive
    (hpool ▸ hgranted₁) program
  have hsame := hext.spares process (hnew.holds.isSome List.mem_cons_self) List.not_mem_nil
  have hlink : k₂.sched.procs process = some ⟨0, 0⟩ := by
    rw [hext.sched, hnew.sched]
    exact if_pos rfl
  obtain ⟨k', hfailed⟩ := loadFailed_empty hprocess (hsame.records.trans hnew.record)
    (fun _ => rfl) rfl rfl hlink (-eio)
  have htask : (openFile o fuel path).loadTask k₁ program process slot = .ok (-eio, 0, k₂) := by
    rw [Opener.loadTask, Opener.processLoadData, Opener.processLoadElf, hload]
    rfl
  refine ⟨k', ?_⟩
  rw [Opener.processLoadForSlot, if_neg (not_not.mpr hslot), hmade]
  dsimp only
  rw [if_neg hprocess, htask, ok_bind]
  dsimp only
  rw [if_pos (by decide), hfailed]

end OpenFile

/-- The string that a path is for `fopen`. -/
def pathString (path : List Byte) : CString where
  bytes := path.takeWhile (· ≠ 0)
  noNul := fun h => of_decide_eq_true
    (@List.mem_takeWhile_imp _ (fun c : Byte => decide (c ≠ 0)) path 0 h) rfl

/-- The load of a program from the disk. -/
def fileLoader {σ : Type} (o : OpenKernel σ) (fuel : Nat) (programs : List Byte → Program) :
    Loader := fun path k slot =>
  (openFile o fuel (pathString path)).processLoadForSlot k (programs path) slot

section FileLoader

variable {σ : Type} {o : OpenKernel σ} {k₀ k : Kernel} {shell : Ptr} {f : Footprint}
  {rest os : List Ptr} {programs : List Byte → Program} {fuel fuel' : Nat} {b b' : Pool}

theorem pathString_hasDrive
    {name : List Byte} (hs : 0 ∉ name) (hlength : name.length ≤ 104) :
    HasDrive (pathString (driveRoot ++ name)) := by
  have hbytes : (pathString (driveRoot ++ name)).bytes = driveRoot ++ name := by
    refine List.takeWhile_eq_self_iff.mpr fun c hc => decide_eq_true ?_
    rintro rfl
    rcases List.mem_append.mp hc with hroot | hname
    · exact absurd hroot (by decide)
    · exact hs hname
  have hlong : (driveRoot ++ name).length = 3 + name.length := by
    rw [List.length_append]
    rfl
  constructor
  · rw [hbytes, hlong, maxPath]
    omega
  · rw [hbytes, pathparserPathValidFormat, decide_eq_true_eq, hlong]
    exact ⟨by rw [maxPath]; omega, (by decide : isdigit 48 = true), rfl⟩

/-- Without a free slot no load is tried, and a load gets no file. -/
theorem processLoadSwitch_unopened
    {name : List Byte} (hinv : k.pool.Inv) (hs : 0 ∉ name) (hlength : name.length ≤ 104)
    (hgranted : Pool.Granted k.pool
      [sizeofProcess, sizeofElfFile, sizeofPathRoot, sizeofPathName] b) :
    ∃ res k', res < 0 ∧
      k.processLoadSwitch (fileLoader o fuel programs) (driveRoot ++ name) = .ok (res, 0, k') := by
  cases hslot : k.sched.processGetFreeSlot with
  | none =>
      refine ⟨-eistkn, k, by decide, ?_⟩
      rw [processLoadSwitch, processLoad, hslot]
      dsimp only
      rw [ok_bind]
      exact if_neg (by decide : ¬ -eistkn = 0)
  | some slot =>
      have hfree : k.sched.processes slot = 0 :=
        of_decide_eq_true (Sched.findSlot_eq_some hslot).2
      obtain ⟨k', hload⟩ := @processLoadForSlot_unopened _ o fuel
        (pathString (driveRoot ++ name)) k b slot hinv hfree (pathString_hasDrive hs hlength)
        hgranted (programs (driveRoot ++ name))
      refine ⟨-eio, k', by decide, ?_⟩
      rw [processLoadSwitch, processLoad, hslot]
      dsimp only
      rw [fileLoader, hload, ok_bind]
      exact if_neg (by decide : ¬ -eio = 0)

/-- The program of a command is not found. -/
theorem Running.invokeSystemCommand_unopened
    {root : Ptr} {n : Nat} {ps : List Ptr} {name : List Byte} {ss : List (List Byte)}
    (h : Running k₀ shell f rest os k) (hroot : root ∈ allocated f.record)
    (hlive : k.pool.live root = some n) (hlist : CommandList k.mem.bytes root ps (name :: ss))
    (hne : name ≠ []) (hs : 0 ∉ name) (hlength : name.length ≤ 104)
    (hgranted : Pool.Granted k.pool
      [sizeofProcess, sizeofElfFile, sizeofPathRoot, sizeofPathName] b) :
    ∃ res k', k.isr80hCommand7InvokeSystemCommand (fileLoader o fuel programs) fuel' root =
      .ok (.returns (errorValue res), k') := by
  obtain ⟨hfirst, hread⟩ := hlist.path hne hs hlength
  obtain ⟨res, k', hres, hswitch⟩ :=
    @processLoadSwitch_unopened _ o k programs fuel b name h.keeps.holds.inv hs hlength hgranted
  refine ⟨res, k', ?_⟩
  rw [isr80hCommand7InvokeSystemCommand, h.currentDirectory, ok_bind]
  dsimp only
  rw [h.physicalAddress hroot hlive, if_neg (not_or.mpr ⟨(h.placed hlive).ne_zero, hfirst⟩), hread,
    hswitch, ok_bind]
  exact if_pos hres

/-- System call 7 fails for every line of the shell. -/
theorem Running.systemRun_unopened
    {line : List Byte} (h : Running k₀ shell f rest os k) (hnul : 0 ∉ line)
    (hlength : line.length ≤ 1023) (hspace : ∃ c ∈ line, c ≠ space)
    (hname : ∀ name ∈ (tokens line).head?, name.length ≤ 104)
    (hgranted : Pool.Granted k.pool
      (List.replicate (tokens line).length sizeofCommandArgument) b)
    (hentries : (allocated f.record).length + (tokens line).length ≤ maxProgramAllocations)
    (hload : Pool.Granted b [sizeofProcess, sizeofElfFile, sizeofPathRoot, sizeofPathName] b') :
    ∃ res k', k.peachosSystemRun (fileLoader o fuel programs) fuel' none line =
      .ok (.returns (errorValue res), none, k') := by
  obtain ⟨root, ps, f₁, k₁, hparse, hroot, hrunning, hparsed⟩ :=
    h.peachosParseCommand (Nat.le_succ_of_le hlength) (tokens_ne_nil hspace) hgranted hentries
  obtain ⟨name, names, htokens⟩ := List.exists_cons_of_ne_nil (tokens_ne_nil hspace)
  have hmem : name ∈ tokens line := htokens ▸ List.mem_cons_self
  have hlong : name.length ≤ 104 := hname name (by rw [htokens]; rfl)
  have hcut : cut name = name := List.take_of_length_le (by omega)
  have hlist := hparsed.list
  rw [htokens, List.map_cons, hcut] at hlist
  have hlive : k₁.pool.live root = some 1 := by
    cases hlist with
    | cons _ _ _ => exact hparsed.live root List.mem_cons_self
  obtain ⟨res, k', hcall⟩ := @Running.invokeSystemCommand_unopened σ o k₀ k₁ shell f₁ rest os
    programs fuel fuel' b' root 1 ps name (names.map cut) hrunning hparsed.root_mem hlive hlist
    (ne_nil_of_mem_tokens hmem) (fun h0 => hnul (subset_of_mem_tokens hmem h0)) hlong
    (hparsed.pool ▸ hload)
  refine ⟨res, k', ?_⟩
  rw [peachosSystemRun, show strncpyString line 1024 = line from List.take_of_length_le hlength,
    hparse, ok_bind]
  dsimp only
  rw [if_neg hroot, hcall]
  rfl

theorem not_deliversArguments_of_returns
    {load : Loader} {line : List Byte} {value : Word} {sp : Option (List Byte)} {k' : Kernel}
    (h : k.peachosSystemRun load fuel none line = .ok (.returns value, sp, k')) :
    ¬ DeliversArguments k load fuel line := by
  rintro ⟨task, k'', hstarts, -⟩
  cases h.symm.trans hstarts

/-- No process is started for a line of the shell. -/
theorem systemRun_deliversNothing
    {line : List Byte} (h : Running k₀ shell f rest os k) (hnul : 0 ∉ line)
    (hlength : line.length ≤ 1023) (hspace : ∃ c ∈ line, c ≠ space)
    (hname : ∀ name ∈ (tokens line).head?, name.length ≤ 104)
    (hgranted : Pool.Granted k.pool
      (List.replicate (tokens line).length sizeofCommandArgument) b)
    (hentries : (allocated f.record).length + (tokens line).length ≤ maxProgramAllocations)
    (hload : Pool.Granted b [sizeofProcess, sizeofElfFile, sizeofPathRoot, sizeofPathName] b') :
    ¬ DeliversArguments k (fileLoader o fuel programs) fuel' line := by
  obtain ⟨res, k', hrun⟩ := @Running.systemRun_unopened σ o k₀ k shell f rest os programs fuel fuel'
    b b' line h hnul hlength hspace hname hgranted hentries hload
  exact not_deliversArguments_of_returns hrun

end FileLoader

/-- A disk that opens every path. -/
def everyFile : OpenFilesystem Unit where
  read := fun fs _ _ _ => .ok ((1, [0]), fs)
  seek := fun fs _ _ _ => .ok (0, fs)
  stat := fun fs _ => .ok ((0, some ⟨0, 1⟩), fs)
  close := fun fs _ => .ok (0, fs)
  openFile := fun _ fs _ _ => .ok (heapAddress, fs)
  Holds := fun _ _ => False

/-- The programs of one byte are on a disk that opens every path. -/
def everyProgram : Loader :=
  fileLoader { idleKernel with filesystem := some everyFile } 1 fun _ => oneByte

/-- Every line is delivered to a program, for a shell with memory for that. -/
def AlwaysDeliversArguments (load : Loader) : Prop :=
  ∀ (k₀ k : Kernel) (shell : Ptr) (f : Footprint) (os : List Ptr) (line : List Byte)
    (slot fuel : Nat), Running k₀ shell f [] os k → Pool.HasSpace 4 k.pool 5360 →
    allocated f.record = [] → k.sched.processGetFreeSlot = some slot → 0 ∉ line →
    line.length ≤ 1023 → (∃ c ∈ line, c ≠ space) →
    (∀ name ∈ (tokens line).head?, name.length ≤ 104) → (tokens line).length < fuel →
    DeliversArguments k load fuel line

/-- A shell that has just been loaded, with memory for `a b` and the program. -/
theorem exists_shell_granted :
    ∃ k₀ shell f os k slot b b', Running k₀ shell f [] os k ∧ Pool.HasSpace 4 k.pool 5360 ∧
      allocated f.record = [] ∧ k.sched.processGetFreeSlot = some slot ∧
      Pool.Granted k.pool
        (List.replicate (tokens [97, space, 98]).length sizeofCommandArgument) b ∧
      Pool.Granted b [sizeofProcess, sizeofElfFile, sizeofPathRoot, sizeofPathName] b' := by
  obtain ⟨k₀, shell, f, os, k, hrunning, hspace, hnone, -, slot, hslot⟩ := exists_shell
  have hlength : (tokens [97, space, 98]).length = 2 := by decide
  obtain ⟨b, hgranted, hspace₁⟩ := @Pool.HasSpace.granted k.pool 4 5358
    (List.replicate 2 sizeofCommandArgument) hspace
    fun size hsize => by rw [List.eq_of_mem_replicate hsize]; decide
  obtain ⟨b', hgranted', -⟩ := @Pool.HasSpace.granted b 4 5354
    [sizeofProcess, sizeofElfFile, sizeofPathRoot, sizeofPathName] hspace₁
    fun size hsize => by
      simp only [List.mem_cons, List.not_mem_nil, or_false] at hsize
      rcases hsize with rfl | rfl | rfl | rfl <;> decide
  rw [← hlength] at hgranted
  exact ⟨k₀, shell, f, os, k, slot, b, b', hrunning, hspace, hnone, hslot, hgranted, hgranted'⟩

/-- `a b`, typed at a shell. -/
theorem systemRun_deliversNothing_ab :
    ∃ (k : Kernel), ¬ DeliversArguments k everyProgram 3 [97, space, 98] := by
  obtain ⟨k₀, shell, f, os, k, slot, b, b', hrunning, -, hnone, hslot, hgranted, hgranted'⟩ :=
    exists_shell_granted
  have hentries : (allocated f.record).length + (tokens [97, space, 98]).length ≤
      maxProgramAllocations := by
    rw [hnone]
    decide
  exact ⟨k, systemRun_deliversNothing hrunning (by decide) (by decide) ⟨97, by decide, by decide⟩
    (by decide) hgranted hentries hgranted'⟩

theorem alwaysDeliversArguments_false : ¬ AlwaysDeliversArguments everyProgram := by
  intro h
  obtain ⟨k₀, shell, f, os, k, slot, b, b', hrunning, hspace, hnone, hslot, hgranted, hgranted'⟩ :=
    exists_shell_granted
  have hname : ∀ name ∈ (tokens [97, space, 98]).head?, name.length ≤ 104 := by decide
  have hspaces : ∃ c ∈ ([97, space, 98] : List Byte), c ≠ space := ⟨97, by decide, by decide⟩
  obtain ⟨res, k', hrun⟩ := @Running.systemRun_unopened Unit
    { idleKernel with filesystem := some everyFile } k₀ k shell f [] os (fun _ => oneByte) 1 3
    b b' [97, space, 98] hrunning (by decide) (by decide) hspaces hname hgranted
    (by rw [hnone]; decide) hgranted'
  exact not_deliversArguments_of_returns hrun (h k₀ k shell f os [97, space, 98] slot 3 hrunning
    hspace hnone hslot (by decide) (by decide) hspaces hname (by decide))

end Kernel

end PeachOS
