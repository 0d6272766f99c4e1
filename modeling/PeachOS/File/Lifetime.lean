import PeachOS.Fat.File

/-!
# The lifetime of a file descriptor

A descriptor should denote its record through reads, stats and seeks and be
released by the close.  `fseek` releases it instead, and `fclose` does not.
-/

namespace PeachOS

/-- `fd` denotes the record at `desc`, of an open file of the FAT16 filesystem. -/
structure FileOpen (files : Files Fat16State) (fd : Int) (desc : Ptr)
    (record : FileDescriptor Fat16State) : Prop where
  slot : fileGetDescriptor files fd = some desc
  recorded : files.records desc = some record
  filesystem : record.filesystem = fat16Fs
  file : OpenFile files.fs record.priv

/-- What a sequence of calls that are no closes owes to the descriptor: the
calls return and keep it, and a successful close behind them frees slot and
record and puts the private data out of the reach of later calls. -/
structure FileLifetime (files : Files Fat16State) (fd : Int) (desc : Ptr)
    (record : FileDescriptor Fat16State) (calls : List FileCall) : Prop where
  returns : (runCalls fd calls files).1 = .ok ()
  slot : fileGetDescriptor (runCalls fd calls files).2 fd = some desc
  recorded : (runCalls fd calls files).2.records desc = some record
  closed : ∀ files', fclose (runCalls fd calls files).2 fd = (.ok 0, files') →
    fileGetDescriptor files' fd = none ∧
      files'.freed.count desc = files.freed.count desc + 1 ∧
      ∀ later, record.priv ∉ (runCalls fd later { files' with reached := [] }).2.reached

/-- What the calls may have changed: the slot and the record may be gone, and
the file is open as before. -/
structure FileKept (fd : Int) (desc : Ptr) (record : FileDescriptor Fat16State)
    (files : Files Fat16State) : Prop where
  slot : ∀ p, fileGetDescriptor files fd = some p → p = desc
  recorded : ∀ r, files.records desc = some r → r = record
  file : OpenFile files.fs record.priv

section Calls

variable {fd : Int} {desc : Ptr} {record : FileDescriptor Fat16State}

/-- A call that keeps the file open keeps what is known of the descriptor. -/
theorem FileKept.afterCall
    {α : Type} {files : Files Fat16State} (h : FileKept fd desc record files)
    (op : FileDescriptor Fat16State → Except Halt (α × Fat16State))
    (hop : ∀ res fs, op record = .ok (res, fs) → OpenFile fs record.priv) :
    FileKept fd desc record (callFilesystem files desc op).2 := by
  obtain ⟨htable, hrecords⟩ := callFilesystem_table files desc op
  refine ⟨?_, ?_, ?_⟩
  · intro p hp
    rw [fileGetDescriptor_congr fd htable] at hp
    exact h.slot p hp
  · intro r hr
    rw [hrecords] at hr
    exact h.recorded r hr
  · cases hrecord : files.records desc with
    | none =>
        unfold callFilesystem
        simp only [hrecord]
        exact h.file
    | some r =>
        obtain rfl := h.recorded r hrecord
        exact callFilesystem_fs hrecord op (fun fs => OpenFile fs r.priv) h.file hop

theorem FileKept.afterFree
    {files : Files Fat16State} (h : FileKept fd desc record files) :
    FileKept fd desc record (fileFreeDescriptor files desc).2 := by
  unfold fileFreeDescriptor
  split
  · exact h
  · split_ifs
    · exact h
    · refine ⟨?_, ?_, h.file⟩
      · intro p hp
        simp only [fileGetDescriptor] at hp
        split_ifs at hp with hrange hindex
        exact h.slot p (by rw [fileGetDescriptor, if_neg hrange]; exact hp)
      · intro r hr
        simp at hr

theorem FileKept.afterRun
    (hfat : record.filesystem = fat16Fs)
    {files : Files Fat16State} (h : FileKept fd desc record files)
    {call : FileCall} (hcall : call ≠ .close) :
    FileKept fd desc record (call.run files fd).2 := by
  cases hslot : fileGetDescriptor files fd with
  | none =>
      rw [FileCall.run_of_none hslot]
      exact h
  | some p =>
      obtain rfl := h.slot p hslot
      cases call with
      | read size nmemb =>
          simp only [FileCall.run, fread, hslot]
          split_ifs
          · exact h
          · refine h.afterCall _ ?_
            intro res fs hop
            rw [hfat] at hop
            exact openFile_fat16Read hop h.file
      | stat =>
          simp only [FileCall.run, fstat, hslot]
          split_ifs
          · exact h
          · refine h.afterCall _ ?_
            intro res fs hop
            rw [hfat] at hop
            rw [fat16Stat_state hop]
            exact h.file
      | seek offset whence =>
          have hseek : FileKept fd p record (callFilesystem files p fun r =>
              r.filesystem.seek files.fs r.priv (BitVec.ofInt 32 offset) whence).2 := by
            refine h.afterCall _ ?_
            intro res fs hop
            rw [hfat] at hop
            exact openFile_fat16Seek hop h.file
          simp only [FileCall.run]
          rcases fseek_state hslot offset whence with heq | heq
          · rw [heq]
            exact hseek
          · rw [heq]
            exact hseek.afterFree
      | close => exact absurd rfl hcall

end Calls

/-- A close leaves every slot as it is. -/
theorem fclose_table
    {σ : Type} (files : Files σ) (fd : Int) :
    (fclose files fd).2.fileDescriptors = files.fileDescriptors := by
  unfold fclose
  split
  · rfl
  · exact (callFilesystem_table _ _ _).1

/-- A close that finds the record of an open file succeeds. -/
theorem fclose_of_fileOpen
    {files : Files Fat16State} {fd : Int} {desc : Ptr} {record : FileDescriptor Fat16State}
    (h : FileOpen files fd desc record) :
    (fclose files fd).1 = .ok 0 := by
  simp only [fclose, h.slot, callFilesystem, h.recorded, h.filesystem, fat16Fs,
    fat16Close_of_openFile h.file]

/-- However a descriptor is used, its lifetime does not go as it should: a close
that finds the record leaves the slot occupied. -/
theorem fileLifetime_never
    (files : Files Fat16State) (fd : Int) (desc : Ptr) (record : FileDescriptor Fat16State)
    (hopen : FileOpen files fd desc record)
    (calls : List FileCall) (hcalls : ∀ call ∈ calls, call ≠ .close) :
    ¬ FileLifetime files fd desc record calls := by
  intro h
  have hkept : FileKept fd desc record (runCalls fd calls files).2 := by
    refine runCalls_invariant (FileKept fd desc record) fd ?_ files ?_
    · intro call hmem files' hfiles'
      exact hfiles'.afterRun hopen.filesystem (hcalls call hmem)
    · refine ⟨?_, ?_, hopen.file⟩
      · intro p hp
        exact Option.some.inj (hp.symm.trans hopen.slot)
      · intro r hr
        exact Option.some.inj (hr.symm.trans hopen.recorded)
  have hstill : FileOpen (runCalls fd calls files).2 fd desc record :=
    ⟨h.slot, h.recorded, hopen.filesystem, hkept.file⟩
  have hfree := (h.closed _ (Prod.ext (fclose_of_fileOpen hstill) rfl)).1
  rw [fileGetDescriptor_congr fd (fclose_table _ _), h.slot] at hfree
  exact absurd hfree (Option.some_ne_none _)

/-- The lifetime of every descriptor of an open file goes as it should. -/
def FileLifetimes : Prop :=
  ∀ (files : Files Fat16State) (fd : Int) (desc : Ptr) (record : FileDescriptor Fat16State),
    FileOpen files fd desc record →
    ∀ calls : List FileCall, (∀ call ∈ calls, call ≠ .close) →
      FileLifetime files fd desc record calls

/-- One open file of 16 bytes, as descriptor 1. -/
def oneFile : Files Fat16State where
  fileDescriptors := fun i => if i = 0 then some 0x1005000 else none
  records := fun p => if p = 0x1005000 then some ⟨1, fat16Fs, 0x1004000⟩ else none
  fs :=
    { disk := linkedVolume.disk
      fatPrivate := linkedVolume.fatPrivate
      descriptors := fun p =>
        if p = 0x1004000 then some ⟨.file (some ⟨[0x41], [], 0, 0, 2, 16⟩), 0⟩ else none }
  freed := []
  reached := []

theorem oneFile_open :
    FileOpen oneFile 1 0x1005000 ⟨1, fat16Fs, 0x1004000⟩ where
  slot := rfl
  recorded := rfl
  filesystem := rfl
  file := ⟨_, rfl, by simp⟩

theorem fileLifetime_oneFile :
    ¬ FileLifetime oneFile 1 0x1005000 ⟨1, fat16Fs, 0x1004000⟩ [.stat, .read 1 1] :=
  fileLifetime_never oneFile 1 0x1005000 ⟨1, fat16Fs, 0x1004000⟩ oneFile_open
    [.stat, .read 1 1] (by simp)

/-- A seek to the start of the file releases its descriptor. -/
theorem fileLifetimes_false : ¬ FileLifetimes := by
  intro h
  have hslot := (h oneFile 1 0x1005000 ⟨1, fat16Fs, 0x1004000⟩ oneFile_open
    [.seek 0 seekSet] (by simp)).slot
  have hgone : fileGetDescriptor (runCalls 1 [.seek 0 seekSet] oneFile).2 1 = none := by
    decide
  exact absurd (hslot.symm.trans hgone) (Option.some_ne_none _)

end PeachOS
