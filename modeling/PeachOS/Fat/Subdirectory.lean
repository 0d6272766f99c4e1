import PeachOS.Fat.File
import PeachOS.Fat.RootScan

/-!
# Loading a subdirectory

`fat16_load_fat_directory` counts the entries of a subdirectory and reads them to
a buffer.  The call that counts them is taken for one of
`fat16_get_items_for_directory`, as the source defines no function of its name.
The size of the buffer, which is also the length of the read, is the count and
the size of a record added up.
-/

namespace PeachOS

open Lib

/-- `sizeof(struct fat_item)`. -/
def fatItemSize : Nat := 8

/-- What `kzalloc` returns for the directory and for its buffer, and what the
blocks of the buffer held before. -/
structure DirectoryMemory where
  directory : Bool
  items : Bool
  stale : Nat → Byte

/-- The blocks that `kzalloc` returns for `size` bytes: only these are cleared. -/
def kzallocBlocks (stale : Nat → Byte) (size : Nat) : List Byte :=
  (List.range ((size + 4095) / heapBlockSize * heapBlockSize)).map fun i =>
    if i < size then 0 else stale i

/-- What `fat16_load_fat_directory` returns: a null pointer, a pointer to a
directory that it has freed, or a directory. -/
inductive LoadedDirectory where
  | null
  | freed
  | loaded (directory : FatDirectory)

def fat16LoadFatDirectory (disk : Disk) (fatPrivate : FatPrivate) (mem : DirectoryMemory)
    (item : FatDirectoryItem) : Except Halt LoadedDirectory :=
  if item.attributes &&& fatFileSubdirectory = 0 then
    .ok .null
  else if !mem.directory then
    .ok .null
  else do
    let cluster := fat16GetFirstCluster item
    let clusterSector ← fat16ClusterToSector fatPrivate cluster
    let totalItems ←
      fat16GetItemsForDirectory disk fatPrivate (BitVec.ofInt 32 clusterSector).toNat
    let directorySize := toInt (totalItems + fatItemSize)
    if !mem.items then
      pure .freed
    else do
      let (res, out) ← fat16ReadInternal disk fatPrivate cluster 0 directorySize
      if res ≠ 0 then
        pure .freed
      else
        pure (.loaded
          { item := out ++ (kzallocBlocks mem.stale directorySize.toNat).drop out.length
            total := totalItems
            sectorPos := 0
            endingSectorPos := 0 })

/-- A directory entry and what is on the disk at its first cluster: `n` entries
in use and an end marker, in one cluster. -/
structure SubdirectoryAt (volume : Fat16Volume) (item : FatDirectoryItem) (cluster n : Nat) :
    Prop where
  subdirectory : item.attributes &&& fatFileSubdirectory ≠ 0
  firstCluster : fat16GetFirstCluster item = cluster
  data : IsDataCluster cluster
  inUse : ∀ i < n,
    (entryAt volume.disk (clusterPos volume.fatPrivate cluster) i).InUse
  marker : (entryAt volume.disk (clusterPos volume.fatPrivate cluster) n).firstByte = 0x00
  fits : (n + 1) * directoryItemSize ≤ clusterLength volume.fatPrivate

/-- The directory is loaded with all of its entries, each in its place. -/
def LoadsWhole (volume : Fat16Volume) (mem : DirectoryMemory) (item : FatDirectoryItem)
    (cluster n : Nat) : Prop :=
  ∃ directory, fat16LoadFatDirectory volume.disk volume.fatPrivate mem item =
      .ok (.loaded directory) ∧
    directory.total = n ∧
    n * directoryItemSize ≤ directory.item.length ∧
    directory.item.take (n * directoryItemSize) =
      volume.disk.bytes (clusterPos volume.fatPrivate cluster) (n * directoryItemSize) ∧
    ∀ i < n, directory.itemAt i =
      some (entryAt volume.disk (clusterPos volume.fatPrivate cluster) i)

/-- In the first cluster of a file no entry of the table is read. -/
theorem fat16GetClusterForOffset_looksUp
    {volume : Fat16Volume} (hsize : volume.fatPrivate.header.sectorsPerCluster ≠ 0)
    (cluster : Nat) :
    LooksUp (fat16GetClusterForOffset volume.disk volume.fatPrivate) volume.fatPrivate
      (fun _ => cluster) 1 := by
  intro offset hoffset
  refine fat16GetClusterForOffset_first hsize cluster (by omega) ?_
  rw [sizeOfClusterBytes_eq, ← Int.natCast_ediv, Nat.div_eq_of_lt (by omega)]

/-- A read at the start of a cluster is made in one piece, unless its end
overflows. -/
theorem fat16ReadInternal_first
    {volume : Fat16Volume} {cluster size : Nat} (hcluster : IsDataCluster cluster)
    (hone : 1 ≤ size) (hsize : size ≤ clusterLength volume.fatPrivate) :
    fat16ReadInternal volume.disk volume.fatPrivate cluster 0 size =
      if clusterPos volume.fatPrivate cluster + size < 2147483648 then
        .ok (0, volume.disk.bytes (clusterPos volume.fatPrivate cluster) size)
      else
        .error .fault := by
  obtain ⟨stream, hstream⟩ := Option.isSome_iff_exists.mp volume.clusterStream
  have hspc : volume.fatPrivate.header.sectorsPerCluster ≠ 0 := by
    intro h
    simp [clusterLength, h] at hsize
    omega
  have hpos : bytePos volume.fatPrivate (fun _ => cluster) 0 =
      clusterPos volume.fatPrivate cluster := by
    simp [bytePos]
  have hchain : ∀ i < 1, IsDataCluster ((fun _ => cluster) i) := fun _ _ => hcluster
  have hin : 0 + size ≤ 1 * clusterLength volume.fatPrivate := by omega
  have hpiece := fat16ReadInternalFromStream_piece volume hspc hchain
    (fat16GetClusterForOffset_looksUp hspc cluster) stream.requested stream.pos hone hin
  rw [hpos, Nat.min_eq_right hsize, if_neg (Nat.not_lt.mpr hsize)] at hpiece
  simp only [fat16ReadInternal, hstream]
  exact hpiece

section Load

variable {volume : Fat16Volume} {item : FatDirectoryItem} {cluster n : Nat}

/-- A load that returns a directory has made all of its calls. -/
theorem fat16LoadFatDirectory_inv
    {disk : Disk} {fatPrivate : FatPrivate} {mem : DirectoryMemory} {directory : FatDirectory}
    (h : fat16LoadFatDirectory disk fatPrivate mem item = .ok (.loaded directory)) :
    mem.directory = true ∧ mem.items = true ∧
      ∃ sector total out,
        fat16ClusterToSector fatPrivate (fat16GetFirstCluster item) = .ok sector ∧
        fat16GetItemsForDirectory disk fatPrivate (BitVec.ofInt 32 sector).toNat = .ok total ∧
        fat16ReadInternal disk fatPrivate (fat16GetFirstCluster item) 0
          (toInt (total + fatItemSize)) = .ok (0, out) ∧
        directory.total = total ∧
        directory.item =
          out ++ (kzallocBlocks mem.stale (toInt (total + fatItemSize)).toNat).drop
            out.length := by
  unfold fat16LoadFatDirectory at h
  split_ifs at h with hattribute hdirectory hitems
  · cases h
  · cases h
  · simp only [bind_eq_ok_iff] at h
    obtain ⟨sector, hsector, total, htotal, h⟩ := h
    cases h
  · simp only [bind_eq_ok_iff] at h
    obtain ⟨sector, hsector, total, htotal, ⟨res, out⟩, hread, h⟩ := h
    dsimp only at h
    split_ifs at h with hres
    · cases h
    · obtain rfl : res = 0 := not_not.mp hres
      obtain rfl := LoadedDirectory.loaded.inj (Except.ok.inj h)
      exact ⟨by simpa using hdirectory, by simpa using hitems, sector, total, out, hsector,
        htotal, hread, rfl, rfl⟩

/-- The size of the buffer of a directory that fits in a cluster. -/
theorem directorySize_eq
    {fatPrivate : FatPrivate} (hfits : (n + 1) * directoryItemSize ≤ clusterLength fatPrivate) :
    toInt ((n : Int) + fatItemSize) = (n + fatItemSize : Nat) ∧
      n + fatItemSize ≤ clusterLength fatPrivate := by
  have hlt := clusterLength_lt fatPrivate
  unfold directoryItemSize at hfits
  unfold fatItemSize
  refine ⟨?_, by omega⟩
  rw [← Int.natCast_add]
  exact toInt_of_isInt (isInt_of_bounds (by omega) (by omega))

/-- The scan of a subdirectory counts its entries when it can come to the end
marker, and does not return otherwise. -/
theorem fat16GetItemsForDirectory_subdirectory
    (hitem : SubdirectoryAt volume item cluster n)
    (hpos : clusterPos volume.fatPrivate cluster < 2147483648) (total : Int) :
    fat16GetItemsForDirectory volume.disk volume.fatPrivate
        (BitVec.ofInt 32 (clusterSector volume.fatPrivate cluster : Nat)).toNat = .ok total ↔
      clusterPos volume.fatPrivate cluster + (n + 1) * directoryItemSize < 2147483648 ∧
        total = n := by
  obtain ⟨stream, hstream⟩ := Option.isSome_iff_exists.mp volume.directoryStream
  have hsector : (BitVec.ofInt 32 (clusterSector volume.fatPrivate cluster : Nat)).toNat =
      clusterSector volume.fatPrivate cluster := by
    rw [clusterPos_eq, sectorSize] at hpos
    rw [BitVec.ofInt_natCast, BitVec.toNat_ofNat, Nat.mod_eq_of_lt (by omega)]
  simp only [fat16GetItemsForDirectory, hstream, hsector, diskstreamerSeek]
  rw [← Int.natCast_mul, ← clusterPos_eq, toInt_of_isInt (isInt_of_bounds (by omega) (by omega))]
  have hfuel : n < directoryScanFuel := by
    have hlt := clusterLength_lt volume.fatPrivate
    have hfits := hitem.fits
    unfold directoryItemSize at hfits
    unfold directoryScanFuel
    omega
  have hcount : Nat.count (fun k => (entryAt volume.disk (clusterPos volume.fatPrivate cluster)
      k).InUse) n = n := Nat.count_iff_forall.mpr fun k hk => hitem.inUse k hk
  rw [fat16GetItemsForDirectoryLoop_iff volume.primary hfuel hitem.marker
    (fun k hk => (hitem.inUse k hk).1), hcount]

/-- A load that returns a directory with the right total has read only as many
bytes as the size of its buffer. -/
theorem fat16LoadFatDirectory_item
    (hitem : SubdirectoryAt volume item cluster n) {mem : DirectoryMemory} {directory : FatDirectory}
    (h : fat16LoadFatDirectory volume.disk volume.fatPrivate mem item = .ok (.loaded directory))
    (htotal : directory.total = n) :
    (mem.directory = true ∧ mem.items = true) ∧
      clusterPos volume.fatPrivate cluster + (n + 1) * directoryItemSize < 2147483648 ∧
      directory.item =
        volume.disk.bytes (clusterPos volume.fatPrivate cluster) (n + fatItemSize) ++
          (kzallocBlocks mem.stale (n + fatItemSize)).drop (n + fatItemSize) := by
  obtain ⟨hdirectory, hitems, sector, total, out, hsector, hscan, hread, htotal', hbuffer⟩ :=
    fat16LoadFatDirectory_inv h
  obtain rfl : total = n := htotal'.symm.trans htotal
  obtain ⟨hsize, hle⟩ := directorySize_eq hitem.fits
  rw [hitem.firstCluster, hsize,
    fat16ReadInternal_first hitem.data (by unfold fatItemSize; omega) hle] at hread
  split_ifs at hread with hin
  obtain rfl := (Prod.mk.inj (Except.ok.inj hread)).2
  rw [hitem.firstCluster, fat16ClusterToSector_eq volume hitem.data,
    if_pos (by rw [clusterPos_eq, sectorSize] at hin; omega)] at hsector
  obtain rfl := Except.ok.inj hsector
  obtain ⟨hend, -⟩ := (fat16GetItemsForDirectory_subdirectory hitem (by omega) _).mp hscan
  rw [hsize, Disk.length_bytes, Int.toNat_natCast] at hbuffer
  exact ⟨⟨hdirectory, hitems⟩, hend, hbuffer⟩

/-- The load of a subdirectory whose end marker can be addressed. -/
theorem fat16LoadFatDirectory_eq
    (hitem : SubdirectoryAt volume item cluster n) {mem : DirectoryMemory}
    (hdirectory : mem.directory = true) (hitems : mem.items = true)
    (hend : clusterPos volume.fatPrivate cluster + (n + 1) * directoryItemSize < 2147483648) :
    fat16LoadFatDirectory volume.disk volume.fatPrivate mem item =
      .ok (.loaded
        { item := volume.disk.bytes (clusterPos volume.fatPrivate cluster) (n + fatItemSize) ++
            (kzallocBlocks mem.stale (n + fatItemSize)).drop (n + fatItemSize)
          total := n
          sectorPos := 0
          endingSectorPos := 0 }) := by
  obtain ⟨hsize, hle⟩ := directorySize_eq hitem.fits
  have hpos : clusterPos volume.fatPrivate cluster < 2147483648 := by omega
  have hsector : clusterSector volume.fatPrivate cluster < 2147483648 := by
    rw [clusterPos_eq, sectorSize] at hpos
    omega
  have hread : clusterPos volume.fatPrivate cluster + (n + fatItemSize) < 2147483648 := by
    unfold directoryItemSize at hend
    unfold fatItemSize
    omega
  rw [fat16LoadFatDirectory, if_neg hitem.subdirectory, hdirectory, hitems, hitem.firstCluster]
  simp only [Bool.not_true, Bool.false_eq_true, if_false]
  rw [fat16ClusterToSector_eq volume hitem.data, if_pos hsector, ok_bind,
    (fat16GetItemsForDirectory_subdirectory hitem hpos _).mpr ⟨hend, rfl⟩, ok_bind, hsize,
    fat16ReadInternal_first hitem.data (by unfold fatItemSize; omega) hle,
    if_pos hread, ok_bind]
  simp only [ne_eq, not_true_eq_false, if_false, Disk.length_bytes, Int.toNat_natCast]
  rfl

/-- What lies in the buffer behind the bytes that were read. -/
theorem getElem?_loadedItem
    (read : List Byte) (stale : Nat → Byte) {size i : Nat} (hread : read.length = size)
    (hi : size ≤ i) :
    (read ++ (kzallocBlocks stale size).drop size)[i]? =
      if i < (size + 4095) / heapBlockSize * heapBlockSize then some (stale i) else none := by
  rw [List.getElem?_append_right (by omega), List.getElem?_drop, hread, kzallocBlocks,
    List.getElem?_map, Nat.add_sub_cancel' hi]
  split_ifs with hin
  · rw [List.getElem?_range hin]
    simp [Nat.not_lt.mpr hi]
  · rw [List.getElem?_eq_none (by simpa using hin)]
    rfl

/-- Whatever the blocks of the buffer held, the directory is loaded whole only
when it has no entry. -/
theorem eq_zero_of_loadsWhole
    (hitem : SubdirectoryAt volume item cluster n) {directoryMemory itemsMemory : Bool}
    (h : ∀ stale, LoadsWhole volume ⟨directoryMemory, itemsMemory, stale⟩ item cluster n) :
    n = 0 := by
  by_contra hn
  obtain ⟨directory, hload, htotal, -, hbytes, -⟩ := h fun i =>
    volume.disk.content (clusterPos volume.fatPrivate cluster + i) + 1
  obtain ⟨-, -, hbuffer⟩ := fat16LoadFatDirectory_item hitem hload htotal
  obtain ⟨last, hlast⟩ : ∃ last, n * directoryItemSize = last + 1 :=
    Nat.exists_eq_add_one_of_ne_zero (by unfold directoryItemSize; omega)
  have hbyte : directory.item[last]? =
      some (volume.disk.content (clusterPos volume.fatPrivate cluster + last)) := by
    have htake := congrArg (fun bytes => bytes[last]?) hbytes
    simp only [hlast, Disk.bytes_eq_map_range] at htake
    rw [List.getElem?_take_of_lt (Nat.lt_succ_self last)] at htake
    simpa using htake
  rw [hbuffer, getElem?_loadedItem _ _ (Disk.length_bytes _ _ _)
    (by unfold directoryItemSize at hlast; unfold fatItemSize; omega)] at hbyte
  split_ifs at hbyte
  have hne := Option.some.inj hbyte
  exact absurd hne (by simp)

end Load

/-- A subdirectory of `n` entries in one cluster is loaded whole, whatever the
blocks of its buffer held before, exactly when it has no entry, there is memory
for it, and its end marker can be addressed. -/
theorem fat16LoadFatDirectory_whole_iff
    (volume : Fat16Volume) (item : FatDirectoryItem) (cluster n : Nat)
    (hitem : SubdirectoryAt volume item cluster n) (directoryMemory itemsMemory : Bool) :
    (∀ stale, LoadsWhole volume ⟨directoryMemory, itemsMemory, stale⟩ item cluster n) ↔
      n = 0 ∧ (directoryMemory = true ∧ itemsMemory = true) ∧
        clusterPos volume.fatPrivate cluster + directoryItemSize < 2147483648 := by
  constructor
  · intro h
    obtain rfl := eq_zero_of_loadsWhole hitem h
    obtain ⟨directory, hload, htotal, -⟩ := h fun _ => 0
    obtain ⟨hmemory, hend, -⟩ := fat16LoadFatDirectory_item hitem hload htotal
    exact ⟨rfl, hmemory, by rwa [Nat.zero_add, Nat.one_mul] at hend⟩
  · rintro ⟨rfl, ⟨hdirectory, hitems⟩, hend⟩ stale
    refine ⟨_, fat16LoadFatDirectory_eq hitem hdirectory hitems
      (by rwa [Nat.zero_add, Nat.one_mul]), rfl, ?_, ?_, ?_⟩
    · omega
    · rw [Nat.zero_mul]
      rfl
    · intro i hi
      omega

/-- A volume whose cluster 2 holds `n` entries, and the entry that leads there. -/
def subdirectoryVolume (n : Nat) : Fat16Volume :=
  linkedVolume.withContent fun pos =>
    if 35328 ≤ pos ∧ pos < 35328 + n * directoryItemSize then 0x41 else 0

def subdirectoryEntry : FatDirectoryItem := ⟨[0x44], [], fatFileSubdirectory, 0, 2, 0⟩

theorem subdirectoryVolume_at
    (n : Nat) (hn : n = 0 ∨ n = 3) :
    SubdirectoryAt (subdirectoryVolume n) subdirectoryEntry 2 n := by
  rcases hn with rfl | rfl
  · exact ⟨by decide, by decide, by decide, by decide, by decide, by decide⟩
  · exact ⟨by decide, by decide, by decide, by decide, by decide, by decide⟩

/-- An empty subdirectory, with blocks that held ones before. -/
theorem fat16LoadFatDirectory_whole_empty :
    LoadsWhole (subdirectoryVolume 0) ⟨true, true, fun _ => 1⟩ subdirectoryEntry 2 0 :=
  (fat16LoadFatDirectory_whole_iff (subdirectoryVolume 0) subdirectoryEntry 2 0
    (subdirectoryVolume_at 0 (Or.inl rfl)) true true).mpr ⟨rfl, ⟨rfl, rfl⟩, by decide⟩ fun _ => 1

/-- With memory for it every subdirectory that fits in a cluster is loaded whole. -/
def LoadsSubdirectories : Prop :=
  ∀ (volume : Fat16Volume) (item : FatDirectoryItem) (cluster n : Nat),
    SubdirectoryAt volume item cluster n →
    clusterPos volume.fatPrivate cluster + clusterLength volume.fatPrivate < 2147483648 →
    ∀ stale, LoadsWhole volume ⟨true, true, stale⟩ item cluster n

/-- Of three entries 11 bytes are read. -/
theorem loadsSubdirectories_false : ¬ LoadsSubdirectories := by
  intro h
  have hitem := subdirectoryVolume_at 3 (Or.inr rfl)
  have hzero := eq_zero_of_loadsWhole hitem
    (h (subdirectoryVolume 3) subdirectoryEntry 2 3 hitem (by decide))
  exact absurd hzero (by decide)

end PeachOS
