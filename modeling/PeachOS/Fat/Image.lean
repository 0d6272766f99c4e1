import Mathlib.Data.List.GetD
import PeachOS.Fat.OpenFile
import PeachOS.Fat.BytePosition
import PeachOS.Fat.Names
import PeachOS.Lib.ByteStrings

/-!
# A volume with some files

The format that `fat16.c` reads, from the side that writes it: a boot sector, the
tables, a root directory with an entry for each file, and the bytes of each file in
a cluster of its own.  Such a volume is mounted, its files are found under their
names, and a program reads from them what was put there.
-/

namespace PeachOS

open Lib

/-- A file of the root directory. -/
structure VolumeFile where
  name : ShortName
  attributes : Byte
  cluster : Nat
  bytes : List Byte
  notDeleted : name.base.headD 0 ≠ 0xE5
  plain : attributes &&& fatFileSubdirectory = 0
  data : IsDataCluster cluster

namespace VolumeFile

variable (f : VolumeFile)

/-- The bytes of its entry behind the name.  What no function reads is 0. -/
def fields : List Byte :=
  f.attributes :: List.replicate 14 0 ++ halfBytes (BitVec.ofNat 16 f.cluster) ++
    wordBytes (BitVec.ofNat 32 f.bytes.length)

def entry : List Byte :=
  ShortName.padded 8 f.name.base ++ ShortName.padded 3 f.name.ext ++ f.fields

def item : FatDirectoryItem := .ofBytes f.entry

end VolumeFile

/-- The sector behind the root directory. -/
def dataSector (header : FatHeader) : Nat :=
  rootDirSectorPos header + rootDirTotalSectors header

/-- The first byte of a cluster. -/
def dataPos (header : FatHeader) (cluster : Nat) : Nat :=
  (dataSector header + (cluster - 2) * header.sectorsPerCluster.toNat) * sectorSize

/-- A header, and files that have a cluster each. -/
structure VolumeImage where
  header : FatHeader
  files : List VolumeFile
  clusterSize : header.sectorsPerCluster ≠ 0
  bootSector : header.reservedSectors ≠ 0
  room : files.length < header.rootDirEntries.toNat
  rootEnd : dataSector header * sectorSize < 2147483648
  apart : files.Pairwise fun f g => f.cluster ≠ g.cluster
  fits : ∀ f ∈ files, f.bytes.length ≤ header.sectorsPerCluster.toNat * sectorSize
  inside : ∀ f ∈ files, dataPos header f.cluster + f.bytes.length < 2147483648

/-- The disk holds the image. -/
structure HoldsImage (disk : Disk) (image : VolumeImage) : Prop where
  primary : disk.primary = true
  signature : HeaderAccepted disk
  header : FatHeader.ofBytes (bootBytes disk) = image.header
  entry : ∀ i (hi : i < image.files.length),
    disk.bytes (rootDirPos image.header + i * directoryItemSize) directoryItemSize =
      image.files[i].entry
  marker : disk.content (rootDirPos image.header + image.files.length * directoryItemSize) = 0
  bytes : ∀ f ∈ image.files,
    disk.bytes (dataPos image.header f.cluster) f.bytes.length = f.bytes

namespace VolumeImage

variable (image : VolumeImage)

/-- The boot sector up to the end of its header, with the fields that no function
reads as `boot.asm` has them. -/
def bootBytes : List Byte :=
  [0xEB, 0x3C, 0x90, 0x50, 0x45, 0x41, 0x43, 0x48, 0x4F, 0x53, 0x20, 0x00, 0x02,
    image.header.sectorsPerCluster] ++ halfBytes image.header.reservedSectors ++
  [image.header.fatCopies] ++ halfBytes image.header.rootDirEntries ++ [0x00, 0x00, 0xF8] ++
  halfBytes image.header.sectorsPerFat ++
  [0x20, 0x00, 0x40, 0x00, 0x00, 0x00, 0x00, 0x00, 0x94, 0x35, 0x77, 0x00, 0x80, 0x00,
    fatSignature, 0x05, 0xD1, 0x00, 0x00] ++ List.replicate 19 0x20

def rootBytes : List Byte := image.files.flatMap VolumeFile.entry

/-- A byte of a table.  Clusters 0 and 1 and those of the files end a chain. -/
def fatByte (i : Nat) : Byte :=
  if i / 2 < 2 ∨ ∃ f ∈ image.files, f.cluster = i / 2 then 0xFF else 0x00

/-- The file that has a byte of the disk in its cluster. -/
def fileAt (pos : Nat) : Option VolumeFile :=
  image.files.find? fun f =>
    dataPos image.header f.cluster ≤ pos ∧
      pos < dataPos image.header f.cluster + f.bytes.length

def content (pos : Nat) : Byte :=
  if pos < fatHeaderSize then
    image.bootBytes.getD pos 0
  else if pos < image.header.reservedSectors.toNat * sectorSize then
    0
  else if pos < rootDirPos image.header then
    image.fatByte ((pos - image.header.reservedSectors.toNat * sectorSize) %
      (image.header.sectorsPerFat.toNat * sectorSize))
  else if pos < dataSector image.header * sectorSize then
    image.rootBytes.getD (pos - rootDirPos image.header) 0
  else
    match image.fileAt pos with
    | none => 0
    | some f => f.bytes.getD (pos - dataPos image.header f.cluster) 0

/-- The disk with the image on it. -/
def disk : Disk where
  primary := true
  content := image.content

end VolumeImage

namespace VolumeFile

variable (f : VolumeFile)

theorem getD_entry (i : Nat) : f.entry.getD (11 + i) 0 = f.fields.getD i 0 := by
  have hname : (ShortName.padded 8 f.name.base ++ ShortName.padded 3 f.name.ext).length = 11 := by
    rw [List.length_append, ShortName.length_padded f.name.base_le,
      ShortName.length_padded f.name.ext_le]
  rw [entry, List.getD_append_right _ _ _ _ (by omega), hname, Nat.add_sub_cancel_left]

theorem length_entry : f.entry.length = directoryItemSize := by
  rw [entry, List.length_append, List.length_append, ShortName.length_padded f.name.base_le,
    ShortName.length_padded f.name.ext_le]
  rfl

theorem fullName_item : f.item.fullName = f.name.text :=
  f.name.fullName_stored f.fields

theorem attributes_item : f.item.attributes = f.attributes :=
  f.getD_entry 0

theorem filesize_item : f.item.filesize = BitVec.ofNat 32 f.bytes.length := by
  have hsize : f.item.filesize = f.entry.getD (11 + 20) 0 ++ f.entry.getD (11 + 19) 0 ++
      f.entry.getD (11 + 18) 0 ++ f.entry.getD (11 + 17) 0 := rfl
  rw [hsize, getD_entry, getD_entry, getD_entry, getD_entry]
  exact append_bytes _

theorem firstCluster_item : fat16GetFirstCluster f.item = f.cluster := by
  have hhigh : f.item.high16BitsFirstCluster =
      f.entry.getD (11 + 10) 0 ++ f.entry.getD (11 + 9) 0 := rfl
  have hlow : f.item.lower16BitsFirstCluster =
      f.entry.getD (11 + 16) 0 ++ f.entry.getD (11 + 15) 0 := rfl
  have hcluster : f.item.lower16BitsFirstCluster = BitVec.ofNat 16 f.cluster := by
    rw [hlow, getD_entry, getD_entry]
    exact append_halfBytes _
  have hzero : f.item.high16BitsFirstCluster.toNat = 0 := by
    rw [hhigh, getD_entry, getD_entry]
    exact (by decide : ((0 : Byte) ++ (0 : Byte)).toNat = 0)
  have hlt := f.data.2
  rw [fat16GetFirstCluster, hcluster, hzero, BitVec.toNat_ofNat, Nat.mod_eq_of_lt (by omega)]
  simp only [Nat.cast_zero, zero_mul, zero_add]
  exact toInt_of_isInt (isInt_of_bounds (by omega) (by omega))

end VolumeFile

/-- The blocks of a list of blocks of one length. -/
theorem getD_flatMap
    {α β : Type*} {g : α → List β} {n : Nat} (hg : ∀ a, (g a).length = n) (d : β) {l : List α}
    {i j : Nat} (hi : i < l.length) (hj : j < n) :
    (l.flatMap g).getD (i * n + j) d = (g l[i]).getD j d := by
  induction l generalizing i with
  | nil => exact absurd hi (Nat.not_lt_zero i)
  | cons a l ih =>
      rw [List.flatMap_cons]
      cases i with
      | zero =>
          rw [Nat.zero_mul, Nat.zero_add, List.getD_append _ _ _ _ (by rw [hg]; exact hj)]
          rfl
      | succ i =>
          have hle : n ≤ (i + 1) * n + j := by
            rw [Nat.succ_mul]
            omega
          rw [List.getD_append_right _ _ _ _ (by rw [hg]; exact hle), hg, Nat.succ_mul,
            Nat.add_right_comm, Nat.add_sub_cancel]
          exact ih (Nat.lt_of_succ_lt_succ hi)

namespace VolumeImage

variable (image : VolumeImage)

/-- The regions of a disk. -/
theorem regions :
    fatHeaderSize ≤ image.header.reservedSectors.toNat * sectorSize ∧
      image.header.reservedSectors.toNat * sectorSize ≤ rootDirPos image.header ∧
      rootDirPos image.header + rootDirSize image.header ≤
        dataSector image.header * sectorSize := by
  have hreserved : image.header.reservedSectors.toNat ≠ 0 := fun h =>
    image.bootSector (BitVec.eq_of_toNat_eq h)
  refine ⟨?_, ?_, ?_⟩
  · unfold fatHeaderSize sectorSize
    omega
  · exact Nat.mul_le_mul_right _ (Nat.le_add_left _ _)
  · unfold rootDirPos dataSector rootDirTotalSectors sectorSize
    split_ifs <;> omega

theorem rootEntry_lt
    {i : Nat} (hi : i ≤ image.files.length) :
    (i + 1) * directoryItemSize ≤ rootDirSize image.header :=
  Nat.mul_le_mul_right _ (Nat.lt_of_le_of_lt hi image.room)

theorem disk_bytes
    {pos n : Nat} {bs : List Byte} (hn : bs.length = n)
    (h : ∀ i < n, image.content (pos + i) = bs.getD i 0) :
    image.disk.bytes pos n = bs := by
  subst hn
  rw [Disk.bytes_eq_map_range]
  refine List.ext_getElem (by simp) fun i hi hi' => ?_
  rw [List.getElem_map, List.getElem_range]
  exact (h i hi').trans (List.getD_eq_getElem bs 0 hi')

theorem bootBytes_disk : PeachOS.bootBytes image.disk = image.bootBytes := by
  refine image.disk_bytes rfl fun i hi => ?_
  rw [Nat.zero_add, content, if_pos hi]

theorem header_bootBytes : FatHeader.ofBytes image.bootBytes = image.header := by
  have hfields : FatHeader.ofBytes image.bootBytes =
      ⟨image.header.sectorsPerCluster,
        image.header.reservedSectors.extractLsb' 8 8 ++
          image.header.reservedSectors.extractLsb' 0 8,
        image.header.fatCopies,
        image.header.rootDirEntries.extractLsb' 8 8 ++ image.header.rootDirEntries.extractLsb' 0 8,
        image.header.sectorsPerFat.extractLsb' 8 8 ++ image.header.sectorsPerFat.extractLsb' 0 8⟩ :=
    rfl
  rw [hfields, append_halfBytes, append_halfBytes, append_halfBytes]

/-- A byte of the root directory. -/
theorem content_root
    {i : Nat} (hi : i < rootDirSize image.header) :
    image.content (rootDirPos image.header + i) = image.rootBytes.getD i 0 := by
  obtain ⟨h₁, h₂, h₃⟩ := image.regions
  rw [content, if_neg (by omega), if_neg (by omega), if_neg (by omega), if_pos (by omega),
    Nat.add_sub_cancel_left]

theorem length_rootBytes : image.rootBytes.length = image.files.length * directoryItemSize := by
  rw [rootBytes, List.length_flatMap, List.map_congr_left fun f _ => f.length_entry]
  simp

/-- The clusters of files do not overlap. -/
theorem eq_of_inside
    {f g : VolumeFile} (hf : f ∈ image.files) (hg : g ∈ image.files) {pos : Nat}
    (hfpos : dataPos image.header f.cluster ≤ pos ∧
      pos < dataPos image.header f.cluster + f.bytes.length)
    (hgpos : dataPos image.header g.cluster ≤ pos ∧
      pos < dataPos image.header g.cluster + g.bytes.length) :
    f = g := by
  have hnodup : (image.files.map VolumeFile.cluster).Nodup := List.pairwise_map.mpr image.apart
  refine List.inj_on_of_nodup_map hnodup hf hg ?_
  have hffits := image.fits f hf
  have hgfits := image.fits g hg
  have hstep (a b : Nat) (ha : 2 ≤ a) (hab : a < b) :
      dataPos image.header a + image.header.sectorsPerCluster.toNat * sectorSize ≤
        dataPos image.header b := by
    have hmul := Nat.mul_le_mul_right image.header.sectorsPerCluster.toNat
      (show a - 2 + 1 ≤ b - 2 by omega)
    rw [Nat.succ_mul] at hmul
    unfold dataPos
    rw [← Nat.add_mul]
    exact Nat.mul_le_mul_right _ (by omega)
  rcases Nat.lt_trichotomy f.cluster g.cluster with hlt | heq | hlt
  · have := hstep _ _ f.data.1 hlt
    omega
  · exact heq
  · have := hstep _ _ g.data.1 hlt
    omega

theorem content_file
    {f : VolumeFile} (hf : f ∈ image.files) {i : Nat} (hi : i < f.bytes.length) :
    image.content (dataPos image.header f.cluster + i) = f.bytes.getD i 0 := by
  obtain ⟨h₁, h₂, h₃⟩ := image.regions
  have hge : dataSector image.header * sectorSize ≤ dataPos image.header f.cluster :=
    Nat.mul_le_mul_right _ (Nat.le_add_right _ _)
  have hfile : image.fileAt (dataPos image.header f.cluster + i) = some f := by
    cases hfind : image.fileAt (dataPos image.header f.cluster + i) with
    | none =>
        have hnone := List.find?_eq_none.mp hfind f hf
        simp only [decide_eq_true_eq] at hnone
        exact absurd ⟨Nat.le_add_right _ _, Nat.add_lt_add_left hi _⟩ hnone
    | some g =>
        have hg := List.find?_some hfind
        simp only [decide_eq_true_eq] at hg
        exact congrArg some (image.eq_of_inside (List.mem_of_find?_eq_some hfind) hf hg
          ⟨Nat.le_add_right _ _, Nat.add_lt_add_left hi _⟩)
  rw [content, if_neg (by omega), if_neg (by omega), if_neg (by omega), if_neg (by omega), hfile]
  dsimp only
  rw [Nat.add_sub_cancel_left]

/-- The disk that is written holds the image. -/
theorem holds : HoldsImage image.disk image where
  primary := rfl
  signature := by
    rw [HeaderAccepted, bootBytes_disk]
    rfl
  header := by rw [bootBytes_disk, header_bootBytes]
  entry := by
    intro i hi
    have hle := image.rootEntry_lt (Nat.le_of_lt hi)
    rw [Nat.succ_mul] at hle
    refine image.disk_bytes (VolumeFile.length_entry _) fun j hj => ?_
    rw [Nat.add_assoc, image.content_root (by omega), rootBytes]
    exact getD_flatMap VolumeFile.length_entry 0 hi hj
  marker := by
    have hle := image.rootEntry_lt (Nat.le_refl _)
    rw [Nat.succ_mul] at hle
    have hpos : 0 < directoryItemSize := by decide
    refine (image.content_root (by omega)).trans (List.getD_eq_default _ _ ?_)
    rw [length_rootBytes]
  bytes := by
    intro f hf
    exact image.disk_bytes rfl fun i hi => image.content_file hf hi

end VolumeImage

end PeachOS
