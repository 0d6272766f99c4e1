import PeachOS.Config

/-!
# File descriptors

The table of open files of `file.c` and the calls on a descriptor.  A call
that does not return still has a state in which it stopped, so that what it
had reached by then can be said.
-/

namespace PeachOS

def fileStatReadOnly : Word := 0b00000001
def seekSet : Word := 0
def seekCur : Word := 1
def seekEnd : Word := 2

structure FileStat where
  flags : Word
  filesize : Word

/-- The functions of `struct filesystem`, over a state `σ` of the filesystem. -/
structure Filesystem (σ : Type) where
  read : σ → Ptr → Word → Word → Except Halt ((Int × List Byte) × σ)
  seek : σ → Ptr → Word → Word → Except Halt (Int × σ)
  stat : σ → Ptr → Except Halt ((Int × Option FileStat) × σ)
  close : σ → Ptr → Except Halt (Int × σ)

/-- `struct file_descriptor`; the disk of a file is part of its filesystem's
state, as there is only one. -/
structure FileDescriptor (σ : Type) where
  index : Int
  filesystem : Filesystem σ
  priv : Ptr

structure Files (σ : Type) where
  fileDescriptors : Nat → Option Ptr
  records : Ptr → Option (FileDescriptor σ)
  fs : σ
  /-- The records handed to `kfree`, in order. -/
  freed : List Ptr
  /-- The private data handed to the filesystem, in order. -/
  reached : List Ptr

variable {σ : Type} {α : Type}

def fileGetDescriptor (files : Files σ) (fd : Int) : Option Ptr :=
  if fd ≤ 0 ∨ fd ≥ maxFileDescriptor then
    none
  else
    files.fileDescriptors (fd - 1).toNat

/-- The slot is the one that the record names. -/
def fileFreeDescriptor (files : Files σ) (desc : Ptr) : Except Halt Unit × Files σ :=
  match files.records desc with
  | none => (.error .fault, files)
  | some record =>
      if record.index < 1 ∨ record.index > maxFileDescriptor then
        (.error .fault, files)
      else
        (.ok (),
          { files with
            fileDescriptors := fun i =>
              if i = (record.index - 1).toNat then none else files.fileDescriptors i
            records := fun p => if p = desc then none else files.records p
            freed := files.freed ++ [desc] })

/-- Follows a pointer to a record and calls a function of its filesystem on
the private data. -/
def callFilesystem (files : Files σ) (desc : Ptr)
    (op : FileDescriptor σ → Except Halt (α × σ)) : Except Halt α × Files σ :=
  match files.records desc with
  | none => (.error .fault, files)
  | some record =>
      match op record with
      | .error halt => (.error halt, { files with reached := files.reached ++ [record.priv] })
      | .ok (res, fs) =>
          (.ok res, { files with fs := fs, reached := files.reached ++ [record.priv] })

def fread (files : Files σ) (size nmemb : Word) (fd : Int) :
    Except Halt (Int × List Byte) × Files σ :=
  if size = 0 ∨ nmemb = 0 ∨ fd < 1 then
    (.ok (-einvarg, []), files)
  else
    match fileGetDescriptor files fd with
    | none => (.ok (-einvarg, []), files)
    | some desc =>
        callFilesystem files desc fun record =>
          record.filesystem.read files.fs record.priv size nmemb

/-- What is compared with 0 is the number, not the record that was found. -/
def fstat (files : Files σ) (fd : Int) : Except Halt (Int × Option FileStat) × Files σ :=
  if fd = 0 then
    (.ok (-eio, none), files)
  else
    match fileGetDescriptor files fd with
    | none => (.error .fault, files)
    | some desc =>
        callFilesystem files desc fun record => record.filesystem.stat files.fs record.priv

def fclose (files : Files σ) (fd : Int) : Except Halt Int × Files σ :=
  match fileGetDescriptor files fd with
  | none => (.ok (-eio), files)
  | some desc =>
      callFilesystem files desc fun record => record.filesystem.close files.fs record.priv

def fseek (files : Files σ) (fd offset : Int) (whence : Word) : Except Halt Int × Files σ :=
  match fileGetDescriptor files fd with
  | none => (.ok (-eio), files)
  | some desc =>
      match callFilesystem files desc fun record =>
        record.filesystem.seek files.fs record.priv (BitVec.ofInt 32 offset) whence with
      | (.ok 0, files) =>
          match fileFreeDescriptor files desc with
          | (.ok (), files) => (.ok 0, files)
          | (.error halt, files) => (.error halt, files)
      | (res, files) => (res, files)

inductive FileCall where
  | read (size nmemb : Word)
  | stat
  | seek (offset : Int) (whence : Word)
  | close

/-- Whether a call on a descriptor returns, and the state it leaves. -/
def FileCall.run (files : Files σ) (fd : Int) : FileCall → Except Halt Unit × Files σ
  | .read size nmemb =>
      let (res, files) := fread files size nmemb fd
      (res.map fun _ => (), files)
  | .stat =>
      let (res, files) := fstat files fd
      (res.map fun _ => (), files)
  | .seek offset whence =>
      let (res, files) := fseek files fd offset whence
      (res.map fun _ => (), files)
  | .close =>
      let (res, files) := fclose files fd
      (res.map fun _ => (), files)

/-- A sequence of calls on a descriptor ends at the first that does not return. -/
def runCalls (fd : Int) : List FileCall → Files σ → Except Halt Unit × Files σ
  | [], files => (.ok (), files)
  | call :: calls, files =>
      match call.run files fd with
      | (.ok (), files) => runCalls fd calls files
      | (.error halt, files) => (.error halt, files)

/-- What every call keeps, a sequence keeps. -/
theorem runCalls_invariant
    (P : Files σ → Prop) (fd : Int) {calls : List FileCall}
    (hstep : ∀ call ∈ calls, ∀ files, P files → P (call.run files fd).2)
    (files : Files σ) (h : P files) :
    P (runCalls fd calls files).2 := by
  induction calls generalizing files with
  | nil => exact h
  | cons call calls ih =>
      have hnext := hstep call List.mem_cons_self files h
      rw [runCalls]
      split
      · rename_i files' heq
        rw [heq] at hnext
        exact ih (fun call' hmem => hstep call' (List.mem_cons_of_mem _ hmem)) files' hnext
      · rename_i halt files' heq
        rw [heq] at hnext
        exact hnext

/-- A call through a record keeps the table and the records. -/
theorem callFilesystem_table
    (files : Files σ) (desc : Ptr) (op : FileDescriptor σ → Except Halt (α × σ)) :
    (callFilesystem files desc op).2.fileDescriptors = files.fileDescriptors ∧
      (callFilesystem files desc op).2.records = files.records := by
  unfold callFilesystem
  split
  · exact ⟨rfl, rfl⟩
  · split <;> exact ⟨rfl, rfl⟩

/-- A call that a record is found for changes the state of the filesystem as the
operation does. -/
theorem callFilesystem_fs
    {files : Files σ} {desc : Ptr} {record : FileDescriptor σ}
    (hrecord : files.records desc = some record)
    (op : FileDescriptor σ → Except Halt (α × σ)) (P : σ → Prop)
    (h : P files.fs) (hop : ∀ res fs, op record = .ok (res, fs) → P fs) :
    P (callFilesystem files desc op).2.fs := by
  unfold callFilesystem
  simp only [hrecord]
  split
  · exact h
  · rename_i res fs heq
    exact hop res fs heq

theorem fileGetDescriptor_congr
    {files files' : Files σ} (fd : Int)
    (h : files'.fileDescriptors = files.fileDescriptors) :
    fileGetDescriptor files' fd = fileGetDescriptor files fd := by
  rw [fileGetDescriptor, fileGetDescriptor, h]

/-- Without a record in the slot a call changes nothing. -/
theorem FileCall.run_of_none
    {files : Files σ} {fd : Int}
    (h : fileGetDescriptor files fd = none) (call : FileCall) :
    (call.run files fd).2 = files := by
  cases call with
  | read size nmemb =>
      simp only [FileCall.run, fread, h]
      split_ifs <;> rfl
  | stat =>
      simp only [FileCall.run, fstat, h]
      split_ifs <;> rfl
  | seek offset whence => simp only [FileCall.run, fseek, h]
  | close => simp only [FileCall.run, fclose, h]

/-- A seek leaves the state of the call to the filesystem, or frees the record
behind it. -/
theorem fseek_state
    {files : Files σ} {fd : Int} {desc : Ptr}
    (h : fileGetDescriptor files fd = some desc) (offset : Int) (whence : Word) :
    let called := (callFilesystem files desc fun record =>
      record.filesystem.seek files.fs record.priv (BitVec.ofInt 32 offset) whence).2
    (fseek files fd offset whence).2 = called ∨
      (fseek files fd offset whence).2 = (fileFreeDescriptor called desc).2 := by
  intro called
  simp only [fseek, h]
  split
  · rename_i files' heq
    refine Or.inr ?_
    simp only [called, heq]
    split <;> simp_all
  · rename_i res files' hres heq
    exact Or.inl (by simp only [called, heq])

end PeachOS
