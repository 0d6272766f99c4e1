import PeachOS.Fat.Directory

/-!
# Mounting a FAT16 volume

`fat16_resolve` reads the boot sector, compares one byte of it with a signature
and loads the root directory.  The other fields of the header are taken as they
stand on the disk.
-/

namespace PeachOS

open Lib

def fatSignature : Byte := 0x29

/-- `sizeof(struct fat_h)`. -/
def fatHeaderSize : Nat := 62

def FatHeader.ofBytes (bytes : List Byte) : FatHeader where
  sectorsPerCluster := bytes.getD 13 0
  reservedSectors := bytes.getD 15 0 ++ bytes.getD 14 0
  fatCopies := bytes.getD 16 0
  rootDirEntries := bytes.getD 18 0 ++ bytes.getD 17 0
  sectorsPerFat := bytes.getD 23 0 ++ bytes.getD 22 0

/-- The signature of the extended header. -/
def headerSignature (bytes : List Byte) : Byte := bytes.getD 38 0

/-- What `kzalloc` returns for the private data, the three streams of
`fat16_init_private`, the stream of the boot sector and the root directory. -/
structure ResolveMemory where
  fatPrivate : Bool
  clusterReadStream : Bool
  fatReadStream : Bool
  directoryStream : Bool
  stream : Bool
  directory : Bool

/-- The one disk is found under its number; a null pointer for the stream is
stored through. -/
def diskstreamerNew (disk : Disk) (memory : Bool) : Except Halt (Option DiskStream) :=
  if !disk.primary then
    .ok none
  else if !memory then
    .error .fault
  else
    .ok (some ⟨0, []⟩)

/-- The private data is cleared without a look at its pointer. -/
def fat16InitPrivate (disk : Disk) (mem : ResolveMemory) : Except Halt FatPrivate :=
  if !mem.fatPrivate then
    .error .fault
  else do
    let clusterReadStream ← diskstreamerNew disk mem.clusterReadStream
    let fatReadStream ← diskstreamerNew disk mem.fatReadStream
    let directoryStream ← diskstreamerNew disk mem.directoryStream
    pure
      { header := ⟨0, 0, 0, 0, 0⟩
        rootDirectory := ⟨[], 0, 0, 0⟩
        clusterReadStream := clusterReadStream
        fatReadStream := fatReadStream
        directoryStream := directoryStream }

/-- The status, and the private data that is hung on the disk; it is freed when
the status is negative, and stays on the disk. -/
def fat16Resolve (disk : Disk) (mem : ResolveMemory) : Except Halt (Int × FatPrivate) := do
  let fatPrivate ← fat16InitPrivate disk mem
  let stream ← diskstreamerNew disk mem.stream
  match stream with
  | none => pure (-enomem, fatPrivate)
  | some stream => do
      -- a read that fails sets the status and goes on with what it has stored
      let (read, _, bytes) ← diskstreamerRead disk stream fatHeaderSize
      let res := if read ≠ 0 then -eio else 0
      let fatPrivate := { fatPrivate with header := .ofBytes bytes }
      if headerSignature bytes ≠ fatSignature then
        pure (-efsnotus, fatPrivate)
      else do
        let (status, rootDirectory) ← fat16GetRootDirectory disk fatPrivate mem.directory
        if status ≠ 0 then
          pure (-eio, { fatPrivate with rootDirectory := rootDirectory })
        else
          pure (res, { fatPrivate with rootDirectory := rootDirectory })

/-- The boot sector, as far as it is read. -/
def bootBytes (disk : Disk) : List Byte := disk.bytes 0 fatHeaderSize

/-- The private data when the root directory of a disk is loaded. -/
def mountedPrivate (disk : Disk) : FatPrivate where
  header := .ofBytes (bootBytes disk)
  rootDirectory := ⟨[], 0, 0, 0⟩
  clusterReadStream := some ⟨0, []⟩
  fatReadStream := some ⟨0, []⟩
  directoryStream := some ⟨0, []⟩

/-- `fat16_resolve` accepts the header of a disk. -/
def HeaderAccepted (disk : Disk) : Prop := headerSignature (bootBytes disk) = fatSignature

instance (disk : Disk) : Decidable (HeaderAccepted disk) :=
  inferInstanceAs (Decidable (_ = _))

theorem diskstreamerNew_inv
    {disk : Disk} {memory : Bool} {stream : Option DiskStream}
    (h : diskstreamerNew disk memory = .ok stream) :
    stream = if disk.primary then some ⟨0, []⟩ else none := by
  unfold diskstreamerNew at h
  split_ifs at h with hdisk
  · rw [if_neg (by simpa using hdisk)]
    exact (Except.ok.inj h).symm
  · rw [if_pos (by simpa using hdisk)]
    exact (Except.ok.inj h).symm

theorem fat16InitPrivate_inv
    {disk : Disk} {mem : ResolveMemory} {fatPrivate : FatPrivate} (hdisk : disk.primary = true)
    (h : fat16InitPrivate disk mem = .ok fatPrivate) :
    fatPrivate = { mountedPrivate disk with header := ⟨0, 0, 0, 0, 0⟩ } := by
  unfold fat16InitPrivate at h
  split_ifs at h
  simp only [bind_eq_ok_iff] at h
  obtain ⟨cluster, hcluster, fat, hfat, directory, hdirectory, h⟩ := h
  rw [← Except.ok.inj h, diskstreamerNew_inv hcluster, diskstreamerNew_inv hfat,
    diskstreamerNew_inv hdirectory, if_pos hdisk]
  rfl

/-- A mount that succeeds has accepted the header and loaded the root directory. -/
theorem fat16Resolve_inv
    {disk : Disk} {mem : ResolveMemory} {fatPrivate : FatPrivate}
    (h : fat16Resolve disk mem = .ok (0, fatPrivate)) :
    disk.primary = true ∧ HeaderAccepted disk ∧
      ∃ rootDirectory,
        fat16GetRootDirectory disk (mountedPrivate disk) mem.directory = .ok (0, rootDirectory) ∧
        fatPrivate = { mountedPrivate disk with rootDirectory := rootDirectory } := by
  rw [fat16Resolve, bind_eq_ok_iff] at h
  obtain ⟨initial, hinitial, h⟩ := h
  rw [bind_eq_ok_iff] at h
  obtain ⟨stream, hstream, h⟩ := h
  have hsome := diskstreamerNew_inv hstream
  by_cases hdisk : disk.primary = true
  · rw [if_pos hdisk] at hsome
    obtain rfl := hsome
    obtain rfl := fat16InitPrivate_inv hdisk hinitial
    have hread := diskstreamerRead_eq_ok hdisk [] (show 0 + fatHeaderSize < 2147483648 by decide)
    simp only [Int.natCast_zero] at hread
    simp only [hread, ok_bind, ne_eq, not_true_eq_false, if_false] at h
    by_cases hsignature : headerSignature (disk.bytes 0 fatHeaderSize) = fatSignature
    · rw [if_neg (not_not.mpr hsignature), bind_eq_ok_iff] at h
      obtain ⟨⟨status, rootDirectory⟩, hroot, h⟩ := h
      dsimp only at h
      by_cases hstatus : status = 0
      · rw [if_neg (not_not.mpr hstatus)] at h
        subst hstatus
        exact ⟨hdisk, hsignature, rootDirectory, hroot,
          (Prod.mk.inj (Except.ok.inj h)).2.symm⟩
      · rw [if_pos hstatus] at h
        cases (Prod.mk.inj (Except.ok.inj h)).1
    · rw [if_pos hsignature] at h
      cases (Prod.mk.inj (Except.ok.inj h)).1
  · rw [if_neg hdisk] at hsome
    obtain rfl := hsome
    cases (Prod.mk.inj (Except.ok.inj h)).1

/-- A mount with memory for everything succeeds when the header is accepted and
the root directory is loaded. -/
theorem fat16Resolve_eq
    {disk : Disk} (hdisk : disk.primary = true) (haccepted : HeaderAccepted disk)
    {rootDirectory : FatDirectory}
    (hroot : fat16GetRootDirectory disk (mountedPrivate disk) true = .ok (0, rootDirectory)) :
    fat16Resolve disk ⟨true, true, true, true, true, true⟩ =
      .ok (0, { mountedPrivate disk with rootDirectory := rootDirectory }) := by
  have hnew : diskstreamerNew disk true = .ok (some ⟨0, []⟩) := by
    rw [diskstreamerNew, hdisk]
    rfl
  have hread := diskstreamerRead_eq_ok hdisk [] (show 0 + fatHeaderSize < 2147483648 by decide)
  simp only [Int.natCast_zero] at hread
  have hinitial : fat16InitPrivate disk ⟨true, true, true, true, true, true⟩ =
      .ok { mountedPrivate disk with header := ⟨0, 0, 0, 0, 0⟩ } := by
    simp only [fat16InitPrivate, hnew, ok_bind, Bool.not_true, Bool.false_eq_true, if_false]
    rfl
  rw [fat16Resolve, hinitial, ok_bind, hnew, ok_bind]
  simp only [hread, ok_bind]
  have hsignature : ¬ headerSignature (disk.bytes 0 fatHeaderSize) ≠ fatSignature :=
    not_not.mpr haccepted
  have hroot' : fat16GetRootDirectory disk
      { mountedPrivate disk with header := .ofBytes (disk.bytes 0 fatHeaderSize) } true =
        .ok (0, rootDirectory) := hroot
  rw [if_neg hsignature, hroot']
  rfl

end PeachOS
