import PeachOS.Fat.Read
import PeachOS.Fat.Resolve

/-!
# Byte positions of clusters

`fat16_read_internal_from_stream` computes the position of a byte of a cluster
in 32-bit arithmetic, from fields that the volume supplies.  The number of
sectors of a volume is in its boot sector, where no function of the kernel reads
it.
-/

namespace PeachOS

open Lib

/-- The position of the byte at `offset` of a cluster. -/
def exactPos (fatPrivate : FatPrivate) (cluster offset : Nat) : Int :=
  (fatPrivate.rootDirectory.endingSectorPos +
    ((cluster : Int) - 2) * fatPrivate.header.sectorsPerCluster.toNat) * sectorSize + offset

/-- The source computes the exact position, and it is not negative. -/
def PositionExact (fatPrivate : FatPrivate) (cluster offset : Nat) : Prop :=
  startingPos fatPrivate cluster offset = .ok (exactPos fatPrivate cluster offset) ∧
    0 ≤ exactPos fatPrivate cluster offset

/-- `NumSectors`, or `SectorsBig` where that is 0. -/
def totalSectors (disk : Disk) : Nat :=
  if disk.le16 19 = 0 then disk.le16 32 + 65536 * disk.le16 34 else disk.le16 19

/-- All of a cluster lies in the volume. -/
def InsideVolume (disk : Disk) (fatPrivate : FatPrivate) (cluster : Nat) : Prop :=
  clusterSector fatPrivate cluster + fatPrivate.header.sectorsPerCluster.toNat ≤ totalSectors disk

theorem exactPos_eq
    (volume : Fat16Volume) {cluster : Nat} (hcluster : IsDataCluster cluster) (offset : Nat) :
    exactPos volume.fatPrivate cluster offset =
      (clusterPos volume.fatPrivate cluster + offset : Nat) := by
  obtain ⟨root, hroot⟩ := Int.eq_ofNat_of_zero_le volume.rootEnd
  obtain ⟨m, rfl⟩ := Nat.exists_eq_add_of_le hcluster.1
  rw [exactPos, clusterPos, hroot]
  push_cast
  simp

/-- In every volume the position of a byte of a data cluster is computed exactly
if and only if it is below `2^31`. -/
theorem startingPos_exact_iff
    (volume : Fat16Volume) (cluster : Nat) (hcluster : IsDataCluster cluster) (offset : Nat) :
    PositionExact volume.fatPrivate cluster offset ↔
      exactPos volume.fatPrivate cluster offset < 2147483648 := by
  have hexact := exactPos_eq volume hcluster offset
  rw [PositionExact, startingPos_eq volume hcluster, hexact]
  constructor
  · rintro ⟨hpos, -⟩
    split_ifs at hpos with hlt
    exact_mod_cast hlt
  · intro hlt
    exact ⟨if_pos (by exact_mod_cast hlt), Int.natCast_nonneg _⟩

/-- In a volume of at most `2^22` sectors, 2 GB, every position is exact. -/
theorem positionExact_of_totalSectors
    (volume : Fat16Volume) (hsectors : totalSectors volume.disk ≤ 4194304)
    {cluster offset : Nat} (hcluster : IsDataCluster cluster)
    (hinside : InsideVolume volume.disk volume.fatPrivate cluster)
    (hoffset : offset < clusterLength volume.fatPrivate) :
    PositionExact volume.fatPrivate cluster offset := by
  have hend : (clusterSector volume.fatPrivate cluster +
      volume.fatPrivate.header.sectorsPerCluster.toNat) * sectorSize ≤ 4194304 * sectorSize :=
    Nat.mul_le_mul_right _ (Nat.le_trans hinside hsectors)
  rw [Nat.add_mul, ← clusterPos_eq] at hend
  unfold clusterLength at hoffset
  unfold sectorSize at hend hoffset
  have hlt : clusterPos volume.fatPrivate cluster + offset < 2147483648 := by omega
  have hexact := exactPos_eq volume hcluster offset
  rw [PositionExact, startingPos_eq volume hcluster, hexact]
  exact ⟨if_pos hlt, Int.natCast_nonneg _⟩

/-- The header of `boot.asm` up to its signature. -/
def bootHeader : List Byte :=
  [0xEB, 0x3C, 0x90, 0x50, 0x45, 0x41, 0x43, 0x48, 0x4F, 0x53, 0x20, 0x00, 0x02, 0x80, 0x00, 0x02,
    0x02, 0x40, 0x00, 0x00, 0x00, 0xF8, 0x00, 0x01, 0x20, 0x00, 0x40, 0x00, 0x00, 0x00, 0x00, 0x00,
    0x94, 0x35, 0x77, 0x00, 0x80, 0x00, 0x29]

/-- A disk with that header and an empty root directory. -/
def bootDisk : Disk where
  primary := true
  content := fun pos => bootHeader.getD pos 0

/-- The volume of that disk, with a record of the root directory. -/
def bootVolume (rootDirectory : FatDirectory) (hroot : 0 ≤ rootDirectory.endingSectorPos) :
    Fat16Volume where
  disk := bootDisk
  fatPrivate := { mountedPrivate bootDisk with rootDirectory := rootDirectory }
  primary := rfl
  clusterStream := rfl
  fatStream := rfl
  directoryStream := rfl
  rootEnd := hroot

/-- The record of the root directory that is loaded, which ends at sector 1028. -/
def bootRoot : FatDirectory := loadedRoot bootDisk (mountedPrivate bootDisk).header 0

def mountedBoot : Fat16Volume := bootVolume bootRoot (by decide)

theorem bootDisk_mounts :
    fat16Resolve bootDisk ⟨true, true, true, true, true, true⟩ =
      .ok (0, mountedBoot.fatPrivate) := by
  let volume := bootVolume ⟨[], 0, 0, 0⟩ (Int.le_refl 0)
  have hm : EndMarkerAt volume.disk volume.fatPrivate.header 0 :=
    ⟨by decide, by decide, by decide⟩
  exact fat16Resolve_eq rfl (by decide) (fat16GetRootDirectory_eq hm (by decide))

/-- The last byte of the first cluster. -/
theorem startingPos_exact_first :
    PositionExact mountedBoot.fatPrivate 2 65535 :=
  (startingPos_exact_iff mountedBoot 2 (by decide) 65535).mpr (by decide)

/-- The position of every byte of every cluster of a volume is computed exactly. -/
def BytePositionsExact : Prop :=
  ∀ (disk : Disk) (mem : ResolveMemory) (fatPrivate : FatPrivate),
    fat16Resolve disk mem = .ok (0, fatPrivate) →
    (∃ k ≤ 7, fatPrivate.header.sectorsPerCluster.toNat = 2 ^ k) →
    ∀ cluster offset : Nat, IsDataCluster cluster → InsideVolume disk fatPrivate cluster →
      offset < clusterLength fatPrivate → PositionExact fatPrivate cluster offset

/-- Cluster 32762 of the volume in `boot.asm` starts at sector 4194308, behind the
first 2 GB. -/
theorem bytePositionsExact_false : ¬ BytePositionsExact := by
  intro h
  obtain ⟨hpos, -⟩ := h bootDisk _ mountedBoot.fatPrivate bootDisk_mounts
    ⟨7, Nat.le_refl 7, by decide⟩ 32762 0 (by decide) (by unfold InsideVolume; decide) (by decide)
  rw [startingPos_eq mountedBoot (by decide), if_neg (by decide)] at hpos
  cases hpos

end PeachOS
