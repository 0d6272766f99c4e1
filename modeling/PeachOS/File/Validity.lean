import PeachOS.File.Lifetime

/-!
# Valid descriptors

Every call on a descriptor tests it on its own, on top of the range check of
`file_get_descriptor`.  That check leaves the last slot out, and `fstat` tests the
number where the others test the record that was found.
-/

namespace PeachOS

variable {σ : Type}

/-- A call on a descriptor, with its status. -/
def FileCall.call (files : Files σ) (fd : Int) : FileCall → Except Halt Int × Files σ
  | .read size nmemb =>
      let (res, files) := fread files size nmemb fd
      (res.map Prod.fst, files)
  | .stat =>
      let (res, files) := fstat files fd
      (res.map Prod.fst, files)
  | .seek offset whence => fseek files fd offset whence
  | .close => fclose files fd

/-- The function of the filesystem that the call is made for. -/
def FileCall.operation (fs : σ) (record : FileDescriptor σ) : FileCall → Except Halt (Int × σ)
  | .read size nmemb =>
      (record.filesystem.read fs record.priv size nmemb).map fun out => (out.1.1, out.2)
  | .stat => (record.filesystem.stat fs record.priv).map fun out => (out.1.1, out.2)
  | .seek offset whence => record.filesystem.seek fs record.priv (BitVec.ofInt 32 offset) whence
  | .close => record.filesystem.close fs record.priv

/-- A read asks for something. -/
def FileCall.Asks : FileCall → Prop
  | .read size nmemb => size ≠ 0 ∧ nmemb ≠ 0
  | _ => True

/-- The record in the slot of a descriptor; descriptors start at 1. -/
def Files.record (files : Files σ) (fd : Int) : Option (FileDescriptor σ) :=
  if 1 ≤ fd ∧ fd ≤ maxFileDescriptor then
    (files.fileDescriptors (fd - 1).toNat).bind files.records
  else
    none

/-- Every occupied slot has a record with its number. -/
def Files.Numbered (files : Files σ) : Prop :=
  ∀ i < maxFileDescriptor, ∀ desc, files.fileDescriptors i = some desc →
    ∃ record, files.records desc = some record ∧ record.index = i + 1

/-- The call gets to the filesystem of a record: its status and the state of the
filesystem behind it are those of the function that it is made for. -/
structure ReachesFilesystem (files : Files σ) (fd : Int) (call : FileCall)
    (record : FileDescriptor σ) : Prop where
  reached : (call.call files fd).2.reached = files.reached ++ [record.priv]
  status : (call.call files fd).1 = (call.operation files.fs record).map Prod.fst
  fs : ∀ res fs, call.operation files.fs record = .ok (res, fs) → (call.call files fd).2.fs = fs

/-- The call returns an error and has followed no pointer. -/
def RefusesDescriptor (files : Files σ) (fd : Int) (call : FileCall) : Prop :=
  ∃ res < 0, call.call files fd = (.ok res, files)

/-- The call gets to the filesystem of an occupied slot, and refuses every other
number. -/
def ChecksDescriptor (files : Files σ) (fd : Int) (call : FileCall) : Prop :=
  match files.record fd with
  | some record => ReachesFilesystem files fd call record
  | none => RefusesDescriptor files fd call

section Calls

variable {files : Files σ} {fd : Int} {desc : Ptr} {record : FileDescriptor σ}

theorem fileGetDescriptor_of_lt
    (h₁ : 1 ≤ fd) (h₂ : fd < maxFileDescriptor) :
    fileGetDescriptor files fd = files.fileDescriptors (fd - 1).toNat :=
  if_neg (by omega)

theorem fileGetDescriptor_outside
    (h : fd < 1 ∨ maxFileDescriptor ≤ fd) :
    fileGetDescriptor files fd = none :=
  if_pos (by omega)

/-- A call that follows a record gets to its filesystem. -/
theorem reachesFilesystem_of_call
    {α : Type} (hrecord : files.records desc = some record)
    (op : FileDescriptor σ → Except Halt (α × σ)) {call : FileCall} (status : α → Int)
    (hcall : (call.call files fd).1 = (callFilesystem files desc op).1.map status)
    (hfs : (call.call files fd).2.fs = (callFilesystem files desc op).2.fs)
    (hreached : (call.call files fd).2.reached = (callFilesystem files desc op).2.reached)
    (hop : call.operation files.fs record =
      (op record).map fun out => (status out.1, out.2)) :
    ReachesFilesystem files fd call record := by
  rw [callFilesystem, hrecord] at hcall hfs hreached
  dsimp only at hcall hfs hreached
  cases hout : op record with
  | error halt =>
      rw [hout] at hcall hreached hop
      refine ⟨hreached, ?_, ?_⟩
      · rw [hcall, hop]
        rfl
      · intro res fs heq
        rw [hop] at heq
        cases heq
  | ok out =>
      rw [hout] at hcall hfs hreached hop
      refine ⟨hreached, ?_, ?_⟩
      · rw [hcall, hop]
        rfl
      · intro res fs heq
        rw [hop] at heq
        cases heq
        exact hfs

/-- A record that is numbered as a slot can be freed: nothing else of the state
that the filesystem sees changes. -/
theorem fileFreeDescriptor_of_record
    (hrecord : files.records desc = some record)
    (hindex : 1 ≤ record.index ∧ record.index ≤ maxFileDescriptor) :
    (fileFreeDescriptor files desc).1 = .ok () ∧
      (fileFreeDescriptor files desc).2.fs = files.fs ∧
      (fileFreeDescriptor files desc).2.reached = files.reached := by
  rw [fileFreeDescriptor, hrecord]
  dsimp only
  rw [if_neg (by omega)]
  exact ⟨rfl, rfl, rfl⟩

theorem fseek_of_record
    (hslot : fileGetDescriptor files fd = some desc) (hrecord : files.records desc = some record)
    (hindex : 1 ≤ record.index ∧ record.index ≤ maxFileDescriptor)
    (offset : Int) (whence : Word) :
    let called := callFilesystem files desc fun record =>
      record.filesystem.seek files.fs record.priv (BitVec.ofInt 32 offset) whence
    (fseek files fd offset whence).1 = called.1 ∧
      (fseek files fd offset whence).2.fs = called.2.fs ∧
      (fseek files fd offset whence).2.reached = called.2.reached := by
  intro called
  rw [fseek, hslot]
  dsimp only
  split
  · rename_i files' heq
    have hcalled : called = (.ok 0, files') := heq
    have hrecord' : files'.records desc = some record := by
      rw [← hrecord, ← (callFilesystem_table files desc _).2]
      exact congrArg (fun out => out.2.records desc) heq.symm
    obtain ⟨hok, hfs, hreached⟩ := fileFreeDescriptor_of_record hrecord' hindex
    rcases hfree : fileFreeDescriptor files' desc with ⟨res, files''⟩
    rw [hfree] at hok hfs hreached
    dsimp only at hok hfs hreached
    subst hok
    rw [hcalled]
    exact ⟨rfl, hfs, hreached⟩
  · rename_i res files' hnot heq
    rw [show called = (res, files') from heq]
    exact ⟨rfl, rfl, rfl⟩

/-- A call that finds a record gets to its filesystem. -/
theorem reachesFilesystem_of_some
    (hslot : fileGetDescriptor files fd = some desc) (hrecord : files.records desc = some record)
    (hindex : 1 ≤ record.index ∧ record.index ≤ maxFileDescriptor) (hfd : 1 ≤ fd)
    {call : FileCall} (hcall : call.Asks) :
    ReachesFilesystem files fd call record := by
  cases call with
  | read size nmemb =>
      have hread : ¬ (size = 0 ∨ nmemb = 0 ∨ fd < 1) := by
        rw [or_iff_right hcall.1, or_iff_right hcall.2]
        omega
      have heq : fread files size nmemb fd = callFilesystem files desc fun record =>
          record.filesystem.read files.fs record.priv size nmemb := by
        rw [fread, if_neg hread, hslot]
      refine reachesFilesystem_of_call hrecord (fun record =>
        record.filesystem.read files.fs record.priv size nmemb) Prod.fst ?_ ?_ ?_ rfl
      · simp only [FileCall.call, heq]
      · simp only [FileCall.call, heq]
      · simp only [FileCall.call, heq]
  | stat =>
      have heq : fstat files fd = callFilesystem files desc fun record =>
          record.filesystem.stat files.fs record.priv := by
        rw [fstat, if_neg (by omega), hslot]
      refine reachesFilesystem_of_call hrecord (fun record =>
        record.filesystem.stat files.fs record.priv) Prod.fst ?_ ?_ ?_ rfl
      · simp only [FileCall.call, heq]
      · simp only [FileCall.call, heq]
      · simp only [FileCall.call, heq]
  | seek offset whence =>
      obtain ⟨hres, hfs, hreached⟩ := fseek_of_record hslot hrecord hindex offset whence
      refine reachesFilesystem_of_call hrecord _ id ?_ hfs hreached ?_
      · rw [Except.map_id]
        exact hres
      · rw [FileCall.operation]
        exact (congrFun Except.map_id _).symm
  | close =>
      have heq : fclose files fd = callFilesystem files desc fun record =>
          record.filesystem.close files.fs record.priv := by
        rw [fclose, hslot]
      refine reachesFilesystem_of_call hrecord (fun record =>
        record.filesystem.close files.fs record.priv) id ?_ ?_ ?_ ?_
      · simp only [FileCall.call, heq, Except.map_id, id]
      · simp only [FileCall.call, heq]
      · simp only [FileCall.call, heq]
      · rw [FileCall.operation]
        exact (congrFun Except.map_id _).symm

/-- Without a record every call but `fstat` is refused. -/
theorem refusesDescriptor_of_none
    (hslot : fileGetDescriptor files fd = none) {call : FileCall} (hstat : call ≠ .stat) :
    RefusesDescriptor files fd call := by
  cases call with
  | read size nmemb =>
      refine ⟨-einvarg, by decide, ?_⟩
      simp only [FileCall.call, fread, hslot, ite_self]
      rfl
  | stat => exact absurd rfl hstat
  | seek offset whence => exact ⟨-eio, by decide, by simp only [FileCall.call, fseek, hslot]⟩
  | close => exact ⟨-eio, by decide, by simp only [FileCall.call, fclose, hslot]⟩

/-- `fstat` refuses the number 0 and no other one. -/
theorem refusesDescriptor_stat_iff
    (hslot : fileGetDescriptor files fd = none) :
    RefusesDescriptor files fd .stat ↔ fd = 0 := by
  constructor
  · rintro ⟨res, -, hcall⟩
    by_contra hfd
    simp only [FileCall.call, fstat, if_neg hfd, hslot] at hcall
    cases hcall
  · rintro rfl
    exact ⟨-eio, by decide, rfl⟩

/-- Without a record no call gets to a filesystem. -/
theorem not_reached_of_none
    (hslot : fileGetDescriptor files fd = none) (call : FileCall) (priv : Ptr) :
    (call.call files fd).2.reached ≠ files.reached ++ [priv] := by
  have hsame : (call.call files fd).2.reached = files.reached := by
    cases call with
    | read size nmemb => simp only [FileCall.call, fread, hslot, ite_self]
    | stat =>
        simp only [FileCall.call, fstat, hslot]
        split_ifs <;> rfl
    | seek offset whence => simp only [FileCall.call, fseek, hslot]
    | close => simp only [FileCall.call, fclose, hslot]
  rw [hsame]
  simp

/-- Without a record a call does what it should unless it is an `fstat` of a
number other than 0. -/
theorem checksDescriptor_of_none
    (hslot : fileGetDescriptor files fd = none) (hrecord : files.record fd = none)
    (call : FileCall) :
    ChecksDescriptor files fd call ↔ (call = .stat → fd = 0) := by
  rw [ChecksDescriptor, hrecord]
  dsimp only
  by_cases hstat : call = .stat
  · rw [hstat, refusesDescriptor_stat_iff hslot]
    simp
  · exact iff_of_true (refusesDescriptor_of_none hslot hstat) fun h => absurd h hstat

end Calls

/-- A call checks its descriptor exactly when this is not the last slot, occupied,
and an `fstat` is made on an occupied slot or on 0. -/
theorem fileCall_checksDescriptor_iff
    (files : Files σ) (fd : Int) (call : FileCall)
    (hnumbered : files.Numbered) (hcall : call.Asks) :
    ChecksDescriptor files fd call ↔
      (fd = maxFileDescriptor → files.record fd = none) ∧
        (call = .stat → fd = 0 ∨ (files.record fd).isSome = true) := by
  have hlast : maxFileDescriptor = 512 := rfl
  cases hrecord : files.record fd with
  | none =>
      have hslot : fileGetDescriptor files fd = none := by
        rw [fileGetDescriptor]
        split_ifs with hrange
        · rfl
        · rw [Files.record, if_pos (by omega)] at hrecord
          cases hdesc : files.fileDescriptors (fd - 1).toNat with
          | none => rfl
          | some desc =>
              obtain ⟨record, hfound, -⟩ := hnumbered (fd - 1).toNat (by omega) desc hdesc
              rw [hdesc, Option.bind_some, hfound] at hrecord
              cases hrecord
      rw [checksDescriptor_of_none hslot hrecord]
      simp
  | some record =>
      have hrange : 1 ≤ fd ∧ fd ≤ maxFileDescriptor := by
        by_contra hout
        rw [Files.record, if_neg hout] at hrecord
        cases hrecord
      rw [ChecksDescriptor, hrecord]
      dsimp only
      rcases Int.lt_or_eq_of_le hrange.2 with hlt | heq
      · rw [Files.record, if_pos hrange] at hrecord
        obtain ⟨desc, hdesc, hfound⟩ := Option.bind_eq_some_iff.mp hrecord
        obtain ⟨record', hfound', hindex⟩ := hnumbered (fd - 1).toNat (by omega) desc hdesc
        obtain rfl := Option.some.inj (hfound.symm.trans hfound')
        refine iff_of_true ?_ ⟨fun h => absurd h (by omega), fun _ => Or.inr rfl⟩
        exact reachesFilesystem_of_some ((fileGetDescriptor_of_lt hrange.1 hlt).trans hdesc) hfound
          (by omega) hrange.1 hcall
      · refine iff_of_false (fun h => ?_) fun h => absurd (h.1 heq) (Option.some_ne_none record)
        exact not_reached_of_none (fileGetDescriptor_outside (by omega)) call record.priv h.reached

/-- All calls agree on the descriptors that are valid. -/
def DescriptorsChecked : Prop :=
  ∀ (σ : Type) (files : Files σ) (fd : Int) (call : FileCall),
    files.Numbered → call.Asks → ChecksDescriptor files fd call

theorem oneFile_numbered : oneFile.Numbered := by
  intro i _ desc hslot
  obtain ⟨rfl, hdesc⟩ : i = 0 ∧ 0x1005000 = desc := by simpa [oneFile] using hslot
  exact ⟨⟨1, fat16Fs, 0x1004000⟩, by rw [← hdesc]; rfl, rfl⟩

theorem fileCall_checksDescriptor_oneFile : ChecksDescriptor oneFile 1 .stat :=
  (fileCall_checksDescriptor_iff oneFile 1 .stat oneFile_numbered trivial).mpr
    ⟨fun h => absurd h (by decide), fun _ => Or.inr rfl⟩

/-- `fstat` follows the pointer that it finds for a descriptor that was never
issued. -/
theorem descriptorsChecked_false : ¬ DescriptorsChecked := by
  intro h
  have hchecked := h Fat16State oneFile 2 .stat oneFile_numbered trivial
  rw [checksDescriptor_of_none rfl rfl] at hchecked
  exact absurd (hchecked rfl) (by decide)

end PeachOS
