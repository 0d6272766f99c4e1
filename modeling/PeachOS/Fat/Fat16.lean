import PeachOS.Disk.Streamer

/-!
# The records of a FAT16 volume

The on-disk records of `fat16.c` and the private data that `fat16_resolve`
hangs on the disk.  Of the boot sector and of a directory entry only the
fields that some function reads are kept.
-/

namespace PeachOS

open Lib

def fatEntrySize : Nat := 2
def fatBadSector : Int := 0xFF7
def fatFileSubdirectory : Byte := 0x10

/-- `sizeof(struct fat_directory_item)`. -/
def directoryItemSize : Nat := 32

structure FatHeader where
  sectorsPerCluster : Byte
  reservedSectors : Half
  fatCopies : Byte
  rootDirEntries : Half
  sectorsPerFat : Half

structure FatDirectoryItem where
  filename : List Byte
  ext : List Byte
  attributes : Byte
  high16BitsFirstCluster : Half
  lower16BitsFirstCluster : Half
  filesize : Word
deriving DecidableEq

structure FatDirectory where
  /-- The buffer that `item` points to, as it was read from the disk. -/
  item : List Byte
  total : Int
  sectorPos : Int
  endingSectorPos : Int
deriving DecidableEq

/-- The record a path component resolves to; its `type` says which of the two
pointers of the union it holds. -/
inductive FatItem where
  | directory (directory : Option FatDirectory)
  | file (item : Option FatDirectoryItem)
deriving DecidableEq

structure FatPrivate where
  header : FatHeader
  rootDirectory : FatDirectory
  clusterReadStream : Option DiskStream
  fatReadStream : Option DiskStream
  directoryStream : Option DiskStream

/-- A disk with the private data of a successful mount: the streams are there,
since `diskstreamer_new` returns null for no disk but the missing ones. -/
structure Fat16Volume where
  disk : Disk
  fatPrivate : FatPrivate
  primary : disk.primary = true
  clusterStream : fatPrivate.clusterReadStream.isSome = true
  fatStream : fatPrivate.fatReadStream.isSome = true
  directoryStream : fatPrivate.directoryStream.isSome = true
  rootEnd : 0 ≤ fatPrivate.rootDirectory.endingSectorPos

def sizeOfClusterBytes (fatPrivate : FatPrivate) : Int :=
  fatPrivate.header.sectorsPerCluster.toNat * sectorSize

theorem sizeOfClusterBytes_nonneg
    (fatPrivate : FatPrivate) :
    0 ≤ sizeOfClusterBytes fatPrivate := by
  unfold sizeOfClusterBytes sectorSize
  omega

theorem sizeOfClusterBytes_pos
    {fatPrivate : FatPrivate}
    (h : fatPrivate.header.sectorsPerCluster ≠ 0) :
    0 < sizeOfClusterBytes fatPrivate := by
  have : fatPrivate.header.sectorsPerCluster.toNat ≠ 0 := by
    intro h0
    exact h (BitVec.eq_of_toNat_eq (by simpa using h0))
  unfold sizeOfClusterBytes sectorSize
  omega

end PeachOS
