import PeachOS.Shell.CommandLine
import PeachOS.Task.CopyString

/-!
# The path of a program

The system calls 6 and 7 put `"0:/"` in front of the name that a program passes, in a
buffer of `PEACHOS_MAX_PATH` bytes, and call `process_load_switch`.  Call 6 hands over
the name and not the path; call 7 gives the size of the whole buffer for the part behind
the prefix, and reads the name from one physical address on.  `filename` and `path` are
buffers on the stack of the kernel, and `copying` is what `strncpy` does.
-/

namespace PeachOS

open Lib

namespace Paged

/-- Call 6 up to `process_load_switch`: what is handed to it, if the call gets there. -/
def processLoadStartPath (copying : Copying) (kernelChunk : Ptr) (s : Paged)
    (filename path : List Byte) (filenameUserPtr : Ptr) :
    Except Halt (Option (List Byte) × Paged) := do
  let (res, filename, s) ← s.copyStringFromTask copying kernelChunk s.kernel.sched.currentTask
    filenameUserPtr filename maxPath
  if res < 0 then
    pure (none, s)
  else
    let path ← strcpy storeByte path 0 Kernel.driveRoot
    let name ← stringIn filename
    -- the path is written and not used
    let _path ← strcpy storeByte path 3 name
    pure (some name, s)

def isr80hCommand6ProcessLoadStart (load : Kernel.Loader) (copying : Copying) (kernelChunk : Ptr)
    (s : Paged) (filename path : List Byte) (filenameUserPtr : Ptr) :
    Except Halt (Handled × Kernel) := do
  let (name, s) ← s.processLoadStartPath copying kernelChunk filename path filenameUserPtr
  match name with
  | none => pure (.returns 0, s.kernel)
  | some name =>
      let (res, process, k) ← s.kernel.processLoadSwitch load name
      if res < 0 then
        pure (.returns 0, k)
      else
        let link ← follow k.sched.procs process
        let sched ← k.sched.taskSwitch link.task
        pure (.starts link.task, { k with sched := sched })

end Paged

namespace Kernel

/-- The physical address of what a program passes to call 7. -/
def argumentsOf (k : Kernel) (argument : Ptr) : Except Halt Ptr := do
  let directory ← k.currentDirectory
  pure (pagingGetPhysicalAddress k.mem directory argument)

/-- Call 7 up to `process_load_switch`. -/
def invokeSystemCommandPath (copying : Copying) (k : Kernel) (path : List Byte) (argument : Ptr) :
    Except Halt (Option (List Byte)) := do
  let arguments ← k.argumentsOf argument
  if arguments = 0 ∨ k.mem.bytes arguments = 0 then
    pure none
  else
    let path ← strcpy storeByte path 0 Kernel.driveRoot
    let path ← copying.strncpy (fun _ i => .ok (k.mem.bytes (arguments + BitVec.ofNat 32 i)))
      (fun path i c => storeByte path (3 + i) c) path maxPath
    let name ← stringIn path
    pure (some name)

/-- Call 7 with its buffer. -/
def isr80hCommand7InvokePath (load : Loader) (copying : Copying) (fuel : Nat) (k : Kernel)
    (path : List Byte) (argument : Ptr) : Except Halt (Handled × Kernel) := do
  let name ← k.invokeSystemCommandPath copying path argument
  match name with
  | none => pure (.returns (errorValue (-einvarg)), k)
  | some name =>
      let arguments ← k.argumentsOf argument
      let (res, process, k) ← k.processLoadSwitch load name
      if res < 0 then
        pure (.returns (errorValue res), k)
      else
        let (res, k) ← processInjectCommandArguments fuel k process arguments
        if res < 0 then
          pure (.returns (errorValue res), k)
        else
          let link ← follow k.sched.procs process
          let sched ← k.sched.taskSwitch link.task
          pure (.starts link.task, { k with sched := sched })

end Kernel

/-- The system calls that start a program by its name. -/
inductive LoadCall where
  | processLoadStart
  | invokeSystemCommand
deriving DecidableEq

/-- What a call hands to `process_load_switch`, with a `strncpy` that copies. -/
def LoadCall.path (call : LoadCall) (kernelChunk : Ptr) (s : Paged) (filename path : List Byte)
    (argument : Ptr) : Except Halt (Option (List Byte)) :=
  match call with
  | .processLoadStart => do
      let (name, _) ← s.processLoadStartPath .assigns kernelChunk filename path argument
      pure name
  | .invokeSystemCommand => s.kernel.invokeSystemCommandPath .assigns path argument

/-- The call stays in its buffers, and what it hands over, if it gets there, is the
path of the program. -/
def HandsPath (name : List Byte) (handed : Except Halt (Option (List Byte))) : Prop :=
  ∃ path, handed = .ok path ∧ ∀ p ∈ path, p = Kernel.driveRoot ++ name ∧ p.length ≤ 107

section LoadStart

variable {kernelChunk argument directory kernelDirectory : Ptr} {s : Paged} {record : Task}
  {name filename path : List Byte}

/-- What call 6 is promised: a free page or none, and a name that can be copied to it. -/
structure NameCopied (kernelChunk : Ptr) (s : Paged) (directory argument : Ptr)
    (name filename : List Byte) : Prop where
  task : ∃ record, Paged.TaskDirectory s.kernel s.kernel.sched.currentTask record directory
  kernel : ∃ kernelDirectory, follow s.kernel.chunks kernelChunk = .ok kernelDirectory
  free : Paged.FreePage s directory 108
  readable : s.tmpOf 108 ≠ 0 → s.Readable directory (s.tmpOf 108) argument name
  filename : filename.length = maxPath

/-- Without memory the call fails. -/
theorem processLoadStartPath_refused
    (h0 : s.tmpOf 108 = 0) :
    LoadCall.processLoadStart.path kernelChunk s filename path argument = .ok none := by
  have hcopy : s.copyStringFromTask .assigns kernelChunk s.kernel.sched.currentTask argument
      filename maxPath = .ok (-enomem, filename, s.allocated 108) :=
    (Paged.copyStringFromTask_eq (by decide)).trans (if_pos h0)
  rw [LoadCall.path, Paged.processLoadStartPath, hcopy]
  rfl

/-- With memory the beginning of the name is what is handed over, if anything is. -/
theorem processLoadStartPath_handed
    (h : NameCopied kernelChunk s directory argument name filename) (h0 : s.tmpOf 108 ≠ 0)
    {handed : Option (List Byte)}
    (hpath : LoadCall.processLoadStart.path kernelChunk s filename path argument = .ok handed) :
    handed = some (name.take 107) := by
  obtain ⟨record, htask⟩ := h.task
  obtain ⟨kernelDirectory, hkernel⟩ := h.kernel
  have hreads := h.readable h0
  have hreturns : ∃ s', s.copyStringFromTask .assigns kernelChunk s.kernel.sched.currentTask
      argument filename maxPath = .ok (0, Copying.assigns.copied filename name maxPath, s') :=
    Paged.copyStringFromTask_returns htask hkernel h.free (by decide) (by decide) h0 hreads
      (by rw [h.filename])
  obtain ⟨s', hcopy⟩ := hreturns
  have hname : stringIn (Copying.assigns.copied filename name maxPath) = .ok (name.take 107) := by
    have htake : name.take (copiedLength name maxPath) = name.take 107 := by
      rw [copiedLength, Nat.min_comm]
      exact List.take_eq_take_min.symm
    rw [Copying.copied, htake]
    exact stringIn_append (fun hmem => hreads.string.noNul (List.mem_of_mem_take hmem)) _
  obtain ⟨⟨found, s₁⟩, hfound, heq⟩ := bind_eq_ok_iff.mp hpath
  cases heq
  rw [Paged.processLoadStartPath, hcopy, ok_bind] at hfound
  dsimp only at hfound
  rw [if_neg (show ¬ (0 : Int) < 0 by decide)] at hfound
  obtain ⟨path₁, -, hfound⟩ := bind_eq_ok_iff.mp hfound
  rw [hname, ok_bind] at hfound
  obtain ⟨path₂, -, hfound⟩ := bind_eq_ok_iff.mp hfound
  cases hfound
  rfl

/-- The name is too short to be the path of itself. -/
theorem take_ne_path (name : List Byte) : name.take 107 ≠ Kernel.driveRoot ++ name := by
  intro heq
  have hlength := congrArg List.length heq
  rw [List.length_take, List.length_append, Kernel.driveRoot, List.length_cons, List.length_cons,
    List.length_cons, List.length_nil] at hlength
  omega

theorem processLoadStart_handsPath_iff
    (h : NameCopied kernelChunk s directory argument name filename) :
    HandsPath name (LoadCall.processLoadStart.path kernelChunk s filename path argument) ↔
      s.tmpOf 108 = 0 := by
  constructor
  · rintro ⟨handed, hpath, hhanded⟩
    by_contra h0
    obtain rfl := processLoadStartPath_handed h h0 hpath
    exact take_ne_path name (hhanded _ rfl).1
  · intro h0
    exact ⟨none, processLoadStartPath_refused h0, nofun⟩

/-- What call 6 starts has been loaded by its name, without the drive. -/
theorem isr80hCommand6ProcessLoadStart_starts
    {load : Kernel.Loader} {task : Ptr} {k' : Kernel}
    (h : NameCopied kernelChunk s directory argument name filename)
    (hcall : s.isr80hCommand6ProcessLoadStart load .assigns kernelChunk filename path argument =
      .ok (.starts task, k')) :
    ∃ s' res process k₁,
      s.processLoadStartPath .assigns kernelChunk filename path argument =
        .ok (some (name.take 107), s') ∧
      s'.kernel.processLoadSwitch load (name.take 107) = .ok (res, process, k₁) ∧ 0 ≤ res := by
  obtain ⟨⟨found, s'⟩, hfound, hstarts⟩ := bind_eq_ok_iff.mp hcall
  have hpath : LoadCall.processLoadStart.path kernelChunk s filename path argument = .ok found := by
    rw [LoadCall.path, hfound]
    rfl
  have h0 : s.tmpOf 108 ≠ 0 := by
    intro h0
    obtain rfl := Except.ok.inj (hpath.symm.trans (processLoadStartPath_refused h0))
    cases hstarts
  obtain rfl := processLoadStartPath_handed h h0 hpath
  obtain ⟨⟨res, process, k₁⟩, hload, hstarts⟩ := bind_eq_ok_iff.mp hstarts
  dsimp only at hstarts
  split_ifs at hstarts with hres
  · cases hstarts
  · exact ⟨s', res, process, k₁, hfound, hload, Int.not_lt.mp hres⟩

end LoadStart

section Invoke

variable {argument directory : Ptr} {k : Kernel} {name path : List Byte}

/-- A name at an address of the running program. -/
structure NamePassed (k : Kernel) (directory argument : Ptr) (name path : List Byte) : Prop where
  current : k.currentDirectory = .ok directory
  noNul : 0 ∉ name
  name : ∀ i c, (name ++ [0])[i]? = some c →
    k.mem.bytes (pagingGetPhysicalAddress k.mem directory (argument + BitVec.ofNat 32 i)) = c
  path : path.length = maxPath

theorem NamePassed.argumentsOf
    (h : NamePassed k directory argument name path) :
    k.argumentsOf argument = .ok (pagingGetPhysicalAddress k.mem directory argument) := by
  rw [Kernel.argumentsOf, h.current]
  rfl

/-- The first byte shows whether there is a name. -/
theorem NamePassed.first_eq_zero_iff
    (h : NamePassed k directory argument name path) :
    k.mem.bytes (pagingGetPhysicalAddress k.mem directory argument) = 0 ↔ name = [] := by
  cases hname : name with
  | nil =>
      have hbyte := h.name 0 0 (by rw [hname]; rfl)
      rw [BitVec.add_zero] at hbyte
      exact ⟨fun _ => rfl, fun _ => hbyte⟩
  | cons c rest =>
      have hbyte := h.name 0 c (by rw [hname]; rfl)
      rw [BitVec.add_zero] at hbyte
      have hc : c ≠ 0 := fun h0 => h.noNul (by rw [hname, h0]; exact List.mem_cons_self)
      exact ⟨fun h0 => absurd (hbyte.symm.trans h0) hc, nofun⟩

/-- The path behind the prefix. -/
theorem strcpy_driveRoot
    (hpath : path.length = maxPath) :
    ∃ tail, tail.length = 105 ∧ strcpy storeByte path 0 Kernel.driveRoot =
      .ok (Kernel.driveRoot ++ tail) := by
  refine ⟨0 :: path.drop 4, ?_, ?_⟩
  · rw [List.length_cons, List.length_drop, hpath]
    rfl
  · have hcopy := @strcpy_append Kernel.driveRoot [] path (by rw [hpath]; decide)
    exact hcopy

/-- The copy behind the prefix, of a string that has room there. -/
theorem strncpy_behindRoot
    {g : Nat → Byte} {str tail : List Byte} (htail : tail.length = 105) (hstr : 0 ∉ str)
    (hg : ∀ i c, (str ++ [0])[i]? = some c → g i = c) (hlength : str.length ≤ 104) :
    Copying.assigns.strncpy (fun _ i => .ok (g i)) (fun path i c => storeByte path (3 + i) c)
      (Kernel.driveRoot ++ tail) maxPath =
        .ok (Kernel.driveRoot ++ str ++ 0 :: tail.drop (str.length + 1)) := by
  have hstore (k : Nat) (hk : k ≤ str.length) (c : Byte) :
      storeByte (Kernel.driveRoot ++ str.take k ++ tail.drop k) (3 + k) c =
        .ok (Kernel.driveRoot ++ str.take k ++ c :: tail.drop (k + 1)) := by
    have hplace : (Kernel.driveRoot ++ str.take k).length = 3 + k := by
      rw [List.length_append, List.length_take_of_le hk]
      rfl
    have hlt : k < tail.length := by omega
    have hput := store_append_cons Halt.fault (Kernel.driveRoot ++ str.take k) tail[k]
      (tail.drop (k + 1)) c
    rwa [hplace, List.cons_getElem_drop_succ] at hput
  have hcopied : copiedLength str (maxPath : Int) = str.length := by
    rw [copiedLength, maxPath]
    omega
  obtain ⟨buf, hcopy, hbuf⟩ := Copying.strncpy_spec .assigns
    (fun path i c => storeByte path (3 + i) c) maxPath
    (fun k buf => buf = Kernel.driveRoot ++ str.take k ++ tail.drop k) hstr
    (fun k c _ hc _ => congrArg Except.ok (hg k c hc))
    (fun k c buf _ hc hbuf => by
      have hlt : k < str.length := (List.getElem?_eq_some_iff.mp hc).1
      refine ⟨_, ?_, rfl⟩
      rw [hbuf]
      change storeByte _ (3 + k) c = _
      rw [hstore k hlt.le, List.take_add_one, hc]
      simp)
    (show Kernel.driveRoot ++ tail = Kernel.driveRoot ++ str.take 0 ++ tail.drop 0 by simp)
  rw [hcopied] at hcopy hbuf
  rw [hcopy, hbuf]
  change storeByte _ (3 + str.length) 0 = _
  rw [hstore _ (Nat.le_refl _), List.take_length]

/-- The string that a copy behind the prefix has found. -/
theorem strncpy_behindRoot_inv
    {g : Nat → Byte} {tail path' : List Byte} (htail : tail.length = 105)
    (h : Copying.assigns.strncpy (fun _ i => .ok (g i)) (fun path i c => storeByte path (3 + i) c)
      (Kernel.driveRoot ++ tail) maxPath = .ok path') :
    ∃ j ≤ 104, g j = 0 ∧ ∀ i < j, g i ≠ 0 := by
  obtain ⟨⟨buf, j⟩, hloop, hlast⟩ := bind_eq_ok_iff.mp h
  have hlength : buf.length = 108 := (strncpyLoop_inv (fun buf => buf.length = 108)
    (fun _ _ _ _ _ hbuf hstore => (length_of_store hstore).trans hbuf)
    (by rw [List.length_append, htail]; rfl) hloop).1
  obtain ⟨-, -, hbefore, hstop⟩ := strncpyLoop_stops (fun _ _ => rfl) hloop
  have hj : j ≤ 104 := by
    by_contra hlarge
    have hfault := store_of_ge Halt.fault (show buf.length ≤ 3 + j by omega) (0 : Byte)
    cases hlast.symm.trans hfault
  refine ⟨j, hj, hstop ?_, fun i hi => hbefore i (Nat.zero_le i) hi⟩
  rw [maxPath]
  omega

/-- What call 7 hands over when the name has room behind the prefix. -/
theorem invokeSystemCommandPath_eq
    {arguments : Ptr} (harguments : k.argumentsOf argument = .ok arguments)
    (h0 : ¬ (arguments = 0 ∨ k.mem.bytes arguments = 0)) (hpath : path.length = maxPath)
    {str : List Byte} (hstr : 0 ∉ str) (hbytes : BytesAt k.mem.bytes arguments (str ++ [0]))
    (hlength : str.length ≤ 104) :
    k.invokeSystemCommandPath .assigns path argument = .ok (some (Kernel.driveRoot ++ str)) := by
  obtain ⟨tail, htail, hroot⟩ := strcpy_driveRoot hpath
  have hcopy := strncpy_behindRoot htail hstr hbytes hlength
  have hnul : 0 ∉ Kernel.driveRoot ++ str := by
    rw [List.mem_append, not_or]
    exact ⟨by decide, hstr⟩
  rw [Kernel.invokeSystemCommandPath, harguments, ok_bind, if_neg h0, hroot, ok_bind, hcopy,
    ok_bind, stringIn_append hnul]
  rfl

/-- What stands at the address, when call 7 comes to `process_load_switch`. -/
theorem invokeSystemCommandPath_inv
    {arguments : Ptr} (harguments : k.argumentsOf argument = .ok arguments)
    (h0 : ¬ (arguments = 0 ∨ k.mem.bytes arguments = 0)) (hpath : path.length = maxPath)
    {handed : Option (List Byte)}
    (h : k.invokeSystemCommandPath .assigns path argument = .ok handed) :
    ∃ str, 0 ∉ str ∧ str.length ≤ 104 ∧ BytesAt k.mem.bytes arguments (str ++ [0]) ∧
      handed = some (Kernel.driveRoot ++ str) := by
  obtain ⟨tail, htail, hroot⟩ := strcpy_driveRoot hpath
  have h' := h
  rw [Kernel.invokeSystemCommandPath, harguments, ok_bind, if_neg h0, hroot, ok_bind] at h'
  obtain ⟨path', hcopy, -⟩ := bind_eq_ok_iff.mp h'
  obtain ⟨j, hj, hend, hbefore⟩ := strncpy_behindRoot_inv htail hcopy
  let g : Nat → Byte := fun i => k.mem.bytes (arguments + BitVec.ofNat 32 i)
  have hstr : 0 ∉ (List.range j).map g := by
    intro hmem
    obtain ⟨i, hi, h0⟩ := List.mem_map.mp hmem
    exact hbefore i (List.mem_range.mp hi) h0
  have hlength : ((List.range j).map g).length = j := by
    rw [List.length_map, List.length_range]
  have hbytes : BytesAt k.mem.bytes arguments ((List.range j).map g ++ [0]) := by
    intro i c hi
    rcases Nat.lt_or_ge i j with hlt | hge
    · rw [List.getElem?_append_left (by omega), List.getElem?_map, List.getElem?_range hlt] at hi
      exact Option.some.inj hi
    · have hi' := (List.getElem?_eq_some_iff.mp hi).1
      rw [List.length_append, hlength, List.length_singleton] at hi'
      obtain rfl : i = j := by omega
      rw [List.getElem?_append_right hlength.le, hlength, Nat.sub_self] at hi
      cases hi
      exact hend
  have heq := invokeSystemCommandPath_eq harguments h0 hpath hstr hbytes (by omega)
  cases heq.symm.trans h
  exact ⟨_, hstr, by omega, hbytes, rfl⟩

/-- The name stands at the address, and has room behind the prefix. -/
structure FoundAt (k : Kernel) (arguments : Ptr) (name : List Byte) : Prop where
  short : name.length ≤ 104
  bytes : BytesAt k.mem.bytes arguments (name ++ [0])

theorem invokeSystemCommand_handsPath_iff
    (h : NamePassed k directory argument name path) :
    HandsPath name (k.invokeSystemCommandPath .assigns path argument) ↔
      pagingGetPhysicalAddress k.mem directory argument = 0 ∨ name = [] ∨
        FoundAt k (pagingGetPhysicalAddress k.mem directory argument) name := by
  have harguments := h.argumentsOf
  rw [← or_assoc, ← h.first_eq_zero_iff]
  by_cases h0 : pagingGetPhysicalAddress k.mem directory argument = 0 ∨
      k.mem.bytes (pagingGetPhysicalAddress k.mem directory argument) = 0
  · refine iff_of_true ⟨none, ?_, nofun⟩ (Or.inl h0)
    rw [Kernel.invokeSystemCommandPath, harguments, ok_bind, if_pos h0]
    rfl
  · rw [or_iff_right h0]
    constructor
    · rintro ⟨handed, hpath, hhanded⟩
      obtain ⟨str, -, hlength, hbytes, rfl⟩ :=
        invokeSystemCommandPath_inv harguments h0 h.path hpath
      obtain rfl := List.append_cancel_left (hhanded _ rfl).1
      exact ⟨hlength, hbytes⟩
    · intro hfound
      refine ⟨_, invokeSystemCommandPath_eq harguments h0 h.path h.noNul hfound.bytes hfound.short,
        fun p hp => ?_⟩
      cases hp
      refine ⟨rfl, ?_⟩
      have hshort := hfound.short
      rw [List.length_append, Kernel.driveRoot]
      change 3 + name.length ≤ 107
      omega

/-- Call 7 with its buffer is call 7, for a name that has room behind the prefix. -/
theorem isr80hCommand7InvokePath_eq
    (load : Kernel.Loader) (fuel : Nat) (h : NamePassed k directory argument name path)
    (hfound : FoundAt k (pagingGetPhysicalAddress k.mem directory argument) name) :
    k.isr80hCommand7InvokePath load .assigns fuel path argument =
      k.isr80hCommand7InvokeSystemCommand load fuel argument := by
  have harguments := h.argumentsOf
  have hshort := hfound.short
  rw [Kernel.isr80hCommand7InvokePath, Kernel.isr80hCommand7InvokeSystemCommand, h.current, ok_bind,
    harguments]
  dsimp only
  by_cases h0 : pagingGetPhysicalAddress k.mem directory argument = 0 ∨
      k.mem.bytes (pagingGetPhysicalAddress k.mem directory argument) = 0
  · rw [Kernel.invokeSystemCommandPath, harguments, ok_bind, if_pos h0, if_pos h0]
    rfl
  · have hread := readString_eq hfound.bytes h.noNul (maxPath - 1)
    rw [List.take_of_length_le (show name.length ≤ maxPath - 1 by rw [maxPath]; omega)] at hread
    rw [invokeSystemCommandPath_eq harguments h0 h.path h.noNul hfound.bytes hshort, if_neg h0,
      hread]
    rfl

end Invoke

/-- What a call finds of the name. -/
structure NameReceived (call : LoadCall) (kernelChunk : Ptr) (s : Paged)
    (directory argument : Ptr) (name filename path : List Byte) : Prop where
  passed : NamePassed s.kernel directory argument name path
  copied : call = .processLoadStart → NameCopied kernelChunk s directory argument name filename

/-- Call 6 has no memory for the copy of the name; call 7 is passed no name, or one of at
most 104 bytes that stands at one physical address. -/
def LoadCall.Fits (call : LoadCall) (s : Paged) (directory argument : Ptr) (name : List Byte) :
    Prop :=
  match call with
  | .processLoadStart => s.tmpOf 108 = 0
  | .invokeSystemCommand =>
      pagingGetPhysicalAddress s.kernel.mem directory argument = 0 ∨ name = [] ∨
        FoundAt s.kernel (pagingGetPhysicalAddress s.kernel.mem directory argument) name

/-- The path of the program is what a call hands over, if anything is, just for these. -/
theorem loadCall_handsPath_iff
    (call : LoadCall) (kernelChunk : Ptr) (s : Paged) (directory argument : Ptr)
    (name filename path : List Byte)
    (h : NameReceived call kernelChunk s directory argument name filename path) :
    HandsPath name (call.path kernelChunk s filename path argument) ↔
      call.Fits s directory argument name := by
  cases call with
  | processLoadStart => exact processLoadStart_handsPath_iff (h.copied rfl)
  | invokeSystemCommand => exact invokeSystemCommand_handsPath_iff h.passed

/-- The two buffers. -/
def zeroPath : List Byte := List.replicate 108 0

theorem oneTask_nameReceived (call : LoadCall) :
    NameReceived call 0x900000 Paged.oneTask 0 0xA00000 [97] zeroPath zeroPath where
  passed :=
    { current := rfl
      noNul := by decide
      name := fun i c hi => ((Paged.oneTask_readable 2).string.reads i c hi).byte
      path := rfl }
  copied := fun _ =>
    { task := ⟨_, Paged.oneTask_directory⟩
      kernel := ⟨0x900000, rfl⟩
      free := Paged.oneTask_freePage 108
      readable := fun _ => Paged.oneTask_readable 108
      filename := rfl }

/-- Call 7 with the name `"a"`. -/
theorem loadCall_handsPath_iff_letter :
    HandsPath [97] (LoadCall.invokeSystemCommand.path 0x900000 Paged.oneTask zeroPath zeroPath
      0xA00000) := by
  refine (loadCall_handsPath_iff .invokeSystemCommand 0x900000 Paged.oneTask 0 0xA00000 [97]
    zeroPath zeroPath (oneTask_nameReceived _)).mpr (Or.inr (Or.inr ⟨by decide, ?_⟩))
  intro i c hi
  have hlt : i < 2 := (List.getElem?_eq_some_iff.mp hi).1
  obtain rfl | rfl : i = 0 ∨ i = 1 := by omega
  · cases hi
    decide
  · cases hi
    decide

/-- Call 6 with the name `"a"` hands over `"a"`. -/
theorem loadCallsHandPath_false :
    ¬ ∀ (call : LoadCall) (kernelChunk : Ptr) (s : Paged) (directory argument : Ptr)
      (name filename path : List Byte),
      NameReceived call kernelChunk s directory argument name filename path →
        HandsPath name (call.path kernelChunk s filename path argument) := by
  intro h
  have hname := oneTask_nameReceived .processLoadStart
  have hhands := h _ _ _ _ _ _ _ _ hname
  have hnull : Paged.oneTask.tmpOf 108 = 0 :=
    (processLoadStart_handsPath_iff (hname.copied rfl)).mp hhands
  rw [Paged.oneTask_tmpOf] at hnull
  exact absurd hnull (by decide)

end PeachOS
