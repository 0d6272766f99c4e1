import PeachOS.Fat.Resolve
import PeachOS.Fat.Subdirectory

/-!
# Divisions of a read

The size of a cluster is a product with a field of the boot sector, which
`fat16_resolve` takes as it stands on the disk.  `fat16_get_cluster_for_offset`
divides by it, `fat16_read_internal_from_stream` takes a remainder by it, and
its recursion gets ahead by it.
-/

namespace PeachOS

open Lib

/-- `fat16_read_internal_from_stream` up to its call of itself: the status, the
stream, the bytes stored, and the offset and the rest that it calls itself
with. -/
def fat16ReadPiece
    (getClusterForOffset : Int → Int → Except Halt Int)
    (disk : Disk) (fatPrivate : FatPrivate) (stream : DiskStream)
    (cluster offset total : Int) :
    Except Halt (Int × DiskStream × List Byte × Option (Int × Int)) := do
  let clusterToUse ← getClusterForOffset cluster offset
  if clusterToUse < 0 then
    pure (clusterToUse, stream, [], none)
  else if sizeOfClusterBytes fatPrivate = 0 then
    .error .divide
  else
    let offsetFromCluster := offset.tmod (sizeOfClusterBytes fatPrivate)
    let startingPos ← startingPos fatPrivate clusterToUse offsetFromCluster
    let totalToRead := clusterPart (sizeOfClusterBytes fatPrivate) total
    let (res, stream, out) ←
      diskstreamerRead disk (diskstreamerSeek stream startingPos) totalToRead
    if res ≠ 0 then
      pure (res, stream, out, none)
    else if total - totalToRead > 0 then
      let next ← checkInt .fault (offset + totalToRead)
      pure (res, stream, out, some (next, total - totalToRead))
    else
      pure (res, stream, out, none)

section Piece

variable {getClusterForOffset : Int → Int → Except Halt Int} {disk : Disk}
  {fatPrivate : FatPrivate}

/-- A read makes one piece and goes on with the rest. -/
theorem fat16ReadInternalFromStream_eq_piece
    (stream : DiskStream) (cluster offset total : Int) :
    fat16ReadInternalFromStream getClusterForOffset disk fatPrivate stream cluster offset total =
      fat16ReadPiece getClusterForOffset disk fatPrivate stream cluster offset total >>=
        fun (res, stream, out, more) =>
          match more with
          | none => pure (res, out)
          | some (next, left) =>
              fat16ReadInternalFromStream getClusterForOffset disk fatPrivate stream cluster
                next left >>= fun (res, rest) => pure (res, out ++ rest) := by
  rw [fat16ReadInternalFromStream, fat16ReadPiece]
  cases getClusterForOffset cluster offset with
  | error e => rfl
  | ok clusterToUse =>
    simp only [ok_bind]
    by_cases hcluster : clusterToUse < 0
    · rw [if_pos hcluster, if_pos hcluster]
      rfl
    rw [if_neg hcluster, if_neg hcluster]
    by_cases hsize : sizeOfClusterBytes fatPrivate = 0
    · rw [if_pos hsize, if_pos hsize]
      rfl
    · rw [if_neg hsize, if_neg hsize]
      cases startingPos fatPrivate clusterToUse (offset.tmod (sizeOfClusterBytes fatPrivate)) with
      | error e => rfl
      | ok startingPos =>
        simp only [ok_bind]
        cases diskstreamerRead disk (diskstreamerSeek stream startingPos)
            (clusterPart (sizeOfClusterBytes fatPrivate) total) with
        | error e => rfl
        | ok read =>
          simp only [ok_bind]
          split_ifs
          · rfl
          · cases checkInt Halt.fault
                (offset + clusterPart (sizeOfClusterBytes fatPrivate) total) <;> rfl
          · rfl

/-- What is left behind a piece is less than before it. -/
theorem fat16ReadPiece_progress
    {stream stream' : DiskStream} {cluster offset total res next left : Int} {out : List Byte}
    (h : fat16ReadPiece getClusterForOffset disk fatPrivate stream cluster offset total =
      .ok (res, stream', out, some (next, left))) :
    0 < left ∧ left < total := by
  rw [fat16ReadPiece, bind_eq_ok_iff] at h
  obtain ⟨clusterToUse, -, h⟩ := h
  split_ifs at h with hcluster hsize
  · cases h
  · dsimp only at h
    rw [bind_eq_ok_iff] at h
    obtain ⟨startingPos, -, h⟩ := h
    rw [bind_eq_ok_iff] at h
    obtain ⟨⟨status, after, piece⟩, -, h⟩ := h
    dsimp only at h
    split_ifs at h with hres hmore
    · cases h
    · rw [bind_eq_ok_iff] at h
      obtain ⟨offset', -, h⟩ := h
      cases h
      have hnonneg := sizeOfClusterBytes_nonneg fatPrivate
      obtain ⟨hlt, hpart⟩ := clusterPart_of_more hmore
      rw [hpart]
      omega
    · cases h

end Piece

theorem diskstreamerRead_avoids
    (disk : Disk) (stream : DiskStream) (total : Int) :
    Avoids .divide (diskstreamerRead disk stream total) := by
  induction hn : total.toNat using Nat.strong_induction_on generalizing stream total with
  | _ n ih =>
      rw [diskstreamerRead]
      dsimp only
      split_ifs with hfault hres hmove hover
      · exact avoids_error (by decide)
      · exact avoids_ok _ _
      · have hpart := sectorPart_of_overflow hover
        have hlt : stream.pos % sectorSize < sectorSize := Int.emod_lt_of_pos _ (by decide)
        exact (ih _ (by rw [hpart]; omega) _ _ rfl).bind fun _ _ => avoids_ok _ _
      · exact avoids_ok _ _
      · exact avoids_error (by decide)

theorem fat16GetFatEntry_avoids
    (disk : Disk) (fatPrivate : FatPrivate) (cluster : Int) :
    Avoids .divide (fat16GetFatEntry disk fatPrivate cluster) := by
  unfold fat16GetFatEntry
  split
  · exact avoids_ok _ _
  · exact (avoids_checkInt (by decide) _).bind fun _ _ =>
      (diskstreamerRead_avoids _ _ _).bind fun _ _ => avoids_ok _ _

theorem fat16GetClusterForOffsetLoop_avoids
    (disk : Disk) (fatPrivate : FatPrivate) (n : Nat) (cluster : Int) :
    Avoids .divide (fat16GetClusterForOffsetLoop disk fatPrivate n cluster) := by
  induction n generalizing cluster with
  | zero => exact avoids_ok _ _
  | succ n ih =>
      refine (fat16GetFatEntry_avoids disk fatPrivate cluster).bind fun entry _ => ?_
      split_ifs
      · exact avoids_ok _ _
      · exact avoids_ok _ _
      · exact avoids_ok _ _
      · exact avoids_ok _ _
      · exact ih entry

theorem fat16ClusterToSector_avoids
    (fatPrivate : FatPrivate) (cluster : Int) :
    Avoids .divide (fat16ClusterToSector fatPrivate cluster) :=
  (avoids_checkInt (by decide) _).bind fun _ _ =>
    (avoids_checkInt (by decide) _).bind fun _ _ => avoids_checkInt (by decide) _

theorem startingPos_avoids
    (fatPrivate : FatPrivate) (cluster offsetFromCluster : Int) :
    Avoids .divide (startingPos fatPrivate cluster offsetFromCluster) :=
  (fat16ClusterToSector_avoids fatPrivate cluster).bind fun _ _ =>
    (avoids_checkInt (by decide) _).bind fun _ _ => avoids_checkInt (by decide) _

theorem fat16GetItemsForDirectory_avoids
    (disk : Disk) (fatPrivate : FatPrivate) (directoryStartSector : Nat) :
    Avoids .divide (fat16GetItemsForDirectory disk fatPrivate directoryStartSector) := by
  have hloop (fuel : Nat) : ∀ (stream : DiskStream) (i : Int),
      Avoids .divide (fat16GetItemsForDirectoryLoop disk fuel stream i) := by
    induction fuel with
    | zero => exact fun _ _ => avoids_error (by decide)
    | succ fuel ih =>
        intro stream i
        refine (diskstreamerRead_avoids disk stream _).bind fun read _ => ?_
        dsimp only
        split_ifs
        · exact avoids_ok _ _
        · exact avoids_ok _ _
        · exact ih _ _
        · exact ih _ _
  unfold fat16GetItemsForDirectory
  split
  · exact avoids_error (by decide)
  · exact hloop _ _ _

section Size

variable {disk : Disk} {fatPrivate : FatPrivate}

/-- A piece of a read divides by zero only when a cluster has no bytes. -/
theorem fat16ReadPiece_avoids
    (hsize : sizeOfClusterBytes fatPrivate ≠ 0) (stream : DiskStream)
    (cluster offset total : Int) :
    Avoids .divide (fat16ReadPiece (fat16GetClusterForOffset disk fatPrivate) disk fatPrivate
      stream cluster offset total) := by
  have hcluster : Avoids .divide (fat16GetClusterForOffset disk fatPrivate cluster offset) := by
    rw [fat16GetClusterForOffset, if_neg hsize]
    exact fat16GetClusterForOffsetLoop_avoids _ _ _ _
  refine hcluster.bind fun clusterToUse _ => ?_
  rw [if_neg hsize]
  split_ifs
  · exact avoids_ok _ _
  · refine (startingPos_avoids _ _ _).bind fun startingPos _ => ?_
    refine (diskstreamerRead_avoids _ _ _).bind fun read _ => ?_
    dsimp only
    split_ifs
    · exact avoids_ok _ _
    · exact (avoids_checkInt (by decide) _).bind fun _ _ => avoids_ok _ _
    · exact avoids_ok _ _

theorem fat16ReadInternalFromStream_avoids
    (hsize : sizeOfClusterBytes fatPrivate ≠ 0) (stream : DiskStream)
    (cluster offset total : Int) :
    Avoids .divide (fat16ReadInternalFromStream (fat16GetClusterForOffset disk fatPrivate) disk
      fatPrivate stream cluster offset total) := by
  induction hn : total.toNat using Nat.strong_induction_on generalizing stream offset total with
  | _ n ih =>
      rw [fat16ReadInternalFromStream_eq_piece]
      refine (fat16ReadPiece_avoids hsize _ _ _ _).bind ?_
      rintro ⟨res, stream', out, more⟩ hpiece
      cases more with
      | none => exact avoids_ok _ _
      | some rest =>
          obtain ⟨hpos, hless⟩ := fat16ReadPiece_progress hpiece
          exact (ih _ (by omega) stream' _ _ rfl).bind fun _ _ => avoids_ok _ _

theorem fat16ReadInternal_avoids
    (hsize : sizeOfClusterBytes fatPrivate ≠ 0) (cluster offset total : Int) :
    Avoids .divide (fat16ReadInternal disk fatPrivate cluster offset total) := by
  unfold fat16ReadInternal
  split
  · exact avoids_error (by decide)
  · exact fat16ReadInternalFromStream_avoids hsize _ _ _ _

/-- Without a cluster size the first thing that a read does is a division. -/
theorem fat16ReadInternal_divides
    (hsize : sizeOfClusterBytes fatPrivate = 0)
    (hstream : fatPrivate.clusterReadStream.isSome = true) (cluster offset total : Int) :
    fat16ReadInternal disk fatPrivate cluster offset total = .error .divide := by
  obtain ⟨stream, hsome⟩ := Option.isSome_iff_exists.mp hstream
  simp only [fat16ReadInternal, hsome]
  rw [fat16ReadInternalFromStream, fat16GetClusterForOffset, if_pos hsize, error_bind]

end Size

/-- The calls that read from the clusters of a disk: `fat16_read` with the
records of the open files, and the load of a subdirectory. -/
inductive VolumeCall where
  | read (descriptors : Ptr → Option FatFileDescriptor) (priv : Ptr) (size nmemb : Word)
  | load (mem : DirectoryMemory) (item : FatDirectoryItem)

namespace VolumeCall

variable (disk : Disk) (fatPrivate : FatPrivate)

/-- The call divides by zero. -/
def Divides : VolumeCall → Prop
  | read descriptors priv size nmemb =>
      fat16Read ⟨disk, fatPrivate, descriptors⟩ priv size nmemb = .error .divide
  | load mem item => fat16LoadFatDirectory disk fatPrivate mem item = .error .divide

/-- The call comes to read from a cluster: elements of an open file are asked
for, or the entries of a subdirectory have been counted and there is memory for
them. -/
def ReadsCluster : VolumeCall → Prop
  | read descriptors priv _ nmemb =>
      nmemb ≠ 0 ∧ ∃ item pos, descriptors priv = some ⟨.file (some item), pos⟩
  | load mem item =>
      item.attributes &&& fatFileSubdirectory ≠ 0 ∧ mem.directory = true ∧ mem.items = true ∧
        ∃ sector total, fat16ClusterToSector fatPrivate (fat16GetFirstCluster item) = .ok sector ∧
          fat16GetItemsForDirectory disk fatPrivate (BitVec.ofInt 32 sector).toNat = .ok total

end VolumeCall

/-- Each call of `fat16_read_internal_from_stream` by itself has less left to
read. -/
def ReadsProgress (disk : Disk) (fatPrivate : FatPrivate) : Prop :=
  ∀ (stream stream' : DiskStream) (cluster offset total res next left : Int) (out : List Byte),
    fat16ReadPiece (fat16GetClusterForOffset disk fatPrivate) disk fatPrivate stream cluster
      offset total = .ok (res, stream', out, some (next, left)) →
    0 < left ∧ left < total

section Calls

variable {disk : Disk} {fatPrivate : FatPrivate}

theorem fat16ReadLoop_avoids
    (hsize : sizeOfClusterBytes fatPrivate ≠ 0)
    (descriptors : Ptr → Option FatFileDescriptor) (cluster : Int) (size : Word) (n : Nat)
    (offset : Int) :
    Avoids .divide (fat16ReadLoop ⟨disk, fatPrivate, descriptors⟩ cluster size n offset) := by
  induction n generalizing offset with
  | zero => exact avoids_ok _ _
  | succ n ih =>
      refine (fat16ReadInternal_avoids hsize _ _ _).bind fun read _ => ?_
      dsimp only
      split_ifs
      · exact avoids_ok _ _
      · exact (ih _).bind fun _ _ => avoids_ok _ _

theorem fat16Read_avoids
    (hsize : sizeOfClusterBytes fatPrivate ≠ 0)
    (descriptors : Ptr → Option FatFileDescriptor) (priv : Ptr) (size nmemb : Word) :
    Avoids .divide (fat16Read ⟨disk, fatPrivate, descriptors⟩ priv size nmemb) := by
  unfold fat16Read
  split
  · refine (fat16ReadLoop_avoids hsize _ _ _ _ _).bind fun read _ => ?_
    dsimp only
    split_ifs
    · exact avoids_ok _ _
    · exact avoids_ok _ _
  · exact avoids_error (by decide)

/-- A load divides by zero only where it comes to read. -/
theorem fat16LoadFatDirectory_avoids
    (mem : DirectoryMemory) (item : FatDirectoryItem)
    (hread : (VolumeCall.load mem item).ReadsCluster disk fatPrivate →
      sizeOfClusterBytes fatPrivate ≠ 0) :
    Avoids .divide (fat16LoadFatDirectory disk fatPrivate mem item) := by
  unfold fat16LoadFatDirectory
  split_ifs with hattribute hdirectory hitems
  · exact avoids_ok _ _
  · exact avoids_ok _ _
  · exact (fat16ClusterToSector_avoids _ _).bind fun sector _ =>
      (fat16GetItemsForDirectory_avoids _ _ _).bind fun total _ => avoids_ok _ _
  · refine (fat16ClusterToSector_avoids _ _).bind fun sector hsector => ?_
    refine (fat16GetItemsForDirectory_avoids _ _ _).bind fun total htotal => ?_
    have hsize := hread ⟨hattribute, by simpa using hdirectory, by simpa using hitems, sector,
      total, hsector, htotal⟩
    refine (fat16ReadInternal_avoids hsize _ _ _).bind fun read _ => ?_
    dsimp only
    split_ifs
    · exact avoids_ok _ _
    · exact avoids_ok _ _

/-- With a cluster size no call divides by zero. -/
theorem VolumeCall.not_divides
    (hsize : sizeOfClusterBytes fatPrivate ≠ 0) (call : VolumeCall) :
    ¬ call.Divides disk fatPrivate := by
  cases call with
  | read descriptors priv size nmemb => exact fat16Read_avoids hsize descriptors priv size nmemb
  | load mem item => exact fat16LoadFatDirectory_avoids mem item fun _ => hsize

section NoSize

variable (hsize : sizeOfClusterBytes fatPrivate = 0)
  (hstream : fatPrivate.clusterReadStream.isSome = true)

include hsize hstream

theorem fat16Read_divides_iff
    (descriptors : Ptr → Option FatFileDescriptor) (priv : Ptr) (size nmemb : Word) :
    (VolumeCall.read descriptors priv size nmemb).Divides disk fatPrivate ↔
      (VolumeCall.read descriptors priv size nmemb).ReadsCluster disk fatPrivate := by
  simp only [VolumeCall.Divides, VolumeCall.ReadsCluster, fat16Read]
  split
  · rename_i item pos hfile
    cases hn : nmemb.toNat with
    | zero => exact iff_of_false nofun fun h => h.1 (BitVec.eq_of_toNat_eq hn)
    | succ n =>
        refine iff_of_true ?_ ⟨fun h => ?_, item, pos, hfile⟩
        · rw [fat16ReadLoop, fat16ReadInternal_divides hsize hstream]
          rfl
        · rw [h] at hn
          cases hn
  · rename_i hnone
    refine iff_of_false nofun ?_
    rintro ⟨-, item, pos, hfile⟩
    exact hnone item pos hfile

theorem fat16LoadFatDirectory_divides_iff
    (mem : DirectoryMemory) (item : FatDirectoryItem) :
    (VolumeCall.load mem item).Divides disk fatPrivate ↔
      (VolumeCall.load mem item).ReadsCluster disk fatPrivate := by
  constructor
  · intro h
    by_contra hnot
    exact fat16LoadFatDirectory_avoids mem item (fun hread => absurd hread hnot) h
  · rintro ⟨hattribute, hdirectory, hitems, sector, total, hsector, htotal⟩
    rw [VolumeCall.Divides, fat16LoadFatDirectory, if_neg hattribute, hdirectory, hitems]
    simp only [Bool.not_true, Bool.false_eq_true, if_false, hsector, ok_bind, htotal,
      fat16ReadInternal_divides hsize hstream]
    rfl

/-- Without one a call divides by zero when it comes to read from a cluster. -/
theorem VolumeCall.divides_iff
    (call : VolumeCall) :
    call.Divides disk fatPrivate ↔ call.ReadsCluster disk fatPrivate := by
  cases call with
  | read descriptors priv size nmemb =>
      exact fat16Read_divides_iff hsize hstream descriptors priv size nmemb
  | load mem item => exact fat16LoadFatDirectory_divides_iff hsize hstream mem item

end NoSize

end Calls

/-- The sectors to a cluster of a mounted disk are those of its boot sector. -/
theorem sizeOfClusterBytes_mounted
    (disk : Disk) (rootDirectory : FatDirectory) :
    sizeOfClusterBytes { mountedPrivate disk with rootDirectory := rootDirectory } =
      (disk.content 13).toNat * sectorSize :=
  rfl

/-- On a disk that has been mounted a call divides by nothing and gets ahead
exactly when its boot sector has sectors to a cluster or the call does not come
to read from one. -/
theorem fat16Resolve_readsDivide_iff
    (disk : Disk) (mem : ResolveMemory) (fatPrivate : FatPrivate)
    (hmount : fat16Resolve disk mem = .ok (0, fatPrivate)) (call : VolumeCall) :
    ¬ call.Divides disk fatPrivate ∧ ReadsProgress disk fatPrivate ↔
      disk.content 13 ≠ 0 ∨ ¬ call.ReadsCluster disk fatPrivate := by
  obtain ⟨-, -, rootDirectory, -, rfl⟩ := fat16Resolve_inv hmount
  have hprogress : ReadsProgress disk { mountedPrivate disk with rootDirectory := rootDirectory } :=
    fun stream stream' cluster offset total res next left out => fat16ReadPiece_progress
  rw [and_iff_left hprogress]
  by_cases hspc : disk.content 13 = 0
  · have hsize : sizeOfClusterBytes { mountedPrivate disk with rootDirectory := rootDirectory } =
        0 := by
      rw [sizeOfClusterBytes_mounted, hspc]
      rfl
    rw [VolumeCall.divides_iff hsize rfl, or_iff_right (not_not.mpr hspc)]
  · refine iff_of_true (VolumeCall.not_divides ?_ call) (Or.inl hspc)
    exact (sizeOfClusterBytes_pos (show disk.content 13 ≠ 0 from hspc)).ne'

/-- A disk with an empty root directory of 16 entries in its fourth sector, and
nothing else on it. -/
def sparseDisk (sectorsPerCluster : Byte) : Disk where
  primary := true
  content := fun pos =>
    if pos = 13 then sectorsPerCluster
    else if pos = 14 ∨ pos = 16 then 1
    else if pos = 22 then 2
    else if pos = 17 then 16
    else if pos = 38 then fatSignature
    else 0

def sparseVolume (sectorsPerCluster : Byte) : Fat16Volume where
  disk := sparseDisk sectorsPerCluster
  fatPrivate := mountedPrivate (sparseDisk sectorsPerCluster)
  primary := rfl
  clusterStream := rfl
  fatStream := rfl
  directoryStream := rfl
  rootEnd := Int.le_refl 0

theorem sparseDisk_mounts
    (sectorsPerCluster : Byte) (h : sectorsPerCluster = 0 ∨ sectorsPerCluster = 1) :
    ∃ fatPrivate, fat16Resolve (sparseDisk sectorsPerCluster)
      ⟨true, true, true, true, true, true⟩ = .ok (0, fatPrivate) := by
  have hm : EndMarkerAt (sparseVolume sectorsPerCluster).disk
      (sparseVolume sectorsPerCluster).fatPrivate.header 0 := by
    rcases h with rfl | rfl
    · exact ⟨by decide, by decide, by decide⟩
    · exact ⟨by decide, by decide, by decide⟩
  have hin : rootDirPos (sparseVolume sectorsPerCluster).fatPrivate.header +
      rootDirSize (sparseVolume sectorsPerCluster).fatPrivate.header < 2147483648 := by
    rcases h with rfl | rfl <;> decide
  have haccepted : HeaderAccepted (sparseDisk sectorsPerCluster) := by
    rcases h with rfl | rfl <;> decide
  exact ⟨_, fat16Resolve_eq rfl haccepted (fat16GetRootDirectory_eq hm hin)⟩

/-- An open file of one byte in the first cluster. -/
def oneByteFile (priv : Ptr) : Option FatFileDescriptor :=
  if priv = 0x1004000 then some ⟨.file (some ⟨[0x41], [], 0, 0, 2, 1⟩), 0⟩ else none

/-- One sector to a cluster. -/
theorem fat16Resolve_readsDivide_one :
    ∃ fatPrivate,
      ¬ (VolumeCall.read oneByteFile 0x1004000 1 1).Divides (sparseDisk 1) fatPrivate := by
  obtain ⟨fatPrivate, hmount⟩ := sparseDisk_mounts 1 (Or.inr rfl)
  exact ⟨fatPrivate, ((fat16Resolve_readsDivide_iff (sparseDisk 1) _ fatPrivate hmount
    (.read oneByteFile 0x1004000 1 1)).mpr (Or.inl (by decide))).1⟩

/-- No call on a mounted disk divides by zero. -/
def MountedReadsNeverDivide : Prop :=
  ∀ (disk : Disk) (mem : ResolveMemory) (fatPrivate : FatPrivate),
    fat16Resolve disk mem = .ok (0, fatPrivate) → ∀ call : VolumeCall,
      ¬ call.Divides disk fatPrivate ∧ ReadsProgress disk fatPrivate

/-- The boot sector gives no sectors to a cluster. -/
theorem mountedReadsNeverDivide_false : ¬ MountedReadsNeverDivide := by
  intro h
  obtain ⟨fatPrivate, hmount⟩ := sparseDisk_mounts 0 (Or.inl rfl)
  obtain ⟨-, -, rootDirectory, -, hprivate⟩ := fat16Resolve_inv hmount
  refine (h _ _ _ hmount (.read oneByteFile 0x1004000 1 1)).1 ?_
  subst hprivate
  have hsize := sizeOfClusterBytes_mounted (sparseDisk 0) rootDirectory
  exact (VolumeCall.divides_iff hsize rfl _).mpr ⟨by decide, _, _, rfl⟩

end PeachOS
