import Mathlib.Data.Nat.Count
import Mathlib.Tactic.Ring
import PeachOS.Fat.Fat16
import PeachOS.Strings

/-!
# Looking up a name in the root directory

`fat16_get_root_directory` counts the entries in use, skipping the deleted
ones, and loads the raw table; `fat16_find_item_in_directory` then compares
the name with as many entries of the raw table as were counted.
-/

namespace PeachOS

open Lib

def FatDirectoryItem.ofBytes (bytes : List Byte) : FatDirectoryItem where
  filename := bytes.take 8
  ext := (bytes.drop 8).take 3
  attributes := bytes.getD 11 0
  high16BitsFirstCluster := bytes.getD 21 0 ++ bytes.getD 20 0
  lower16BitsFirstCluster := bytes.getD 27 0 ++ bytes.getD 26 0
  filesize := bytes.getD 31 0 ++ bytes.getD 30 0 ++ bytes.getD 29 0 ++ bytes.getD 28 0

/-- `filename[0]`. -/
def FatDirectoryItem.firstByte (item : FatDirectoryItem) : Byte :=
  item.filename.headD 0

/-- One entry after the other until the end marker; `i` are in use so far.
Every round moves the stream by 32 bytes, so that after `2^26` of them the
read overflows the position: the fuel does not run out before. -/
def fat16GetItemsForDirectoryLoop (disk : Disk) : Nat → DiskStream → Int → Except Halt Int
  | 0, _, _ => .error .fault
  | fuel + 1, stream, i => do
      let (res, stream, bytes) ← diskstreamerRead disk stream directoryItemSize
      let item := FatDirectoryItem.ofBytes bytes
      if res ≠ 0 then
        pure (-eio)
      else if item.firstByte = 0x00 then
        pure i
      else if item.firstByte = 0xE5 then
        fat16GetItemsForDirectoryLoop disk fuel stream i
      else
        fat16GetItemsForDirectoryLoop disk fuel stream (i + 1)

def directoryScanFuel : Nat := 67108865

def fat16GetItemsForDirectory (disk : Disk) (fatPrivate : FatPrivate)
    (directoryStartSector : Nat) : Except Halt Int :=
  match fatPrivate.directoryStream with
  | none => .error .fault
  | some stream =>
      fat16GetItemsForDirectoryLoop disk directoryScanFuel
        (diskstreamerSeek stream (toInt (directoryStartSector * sectorSize))) 0

def rootDirSectorPos (header : FatHeader) : Nat :=
  header.fatCopies.toNat * header.sectorsPerFat.toNat + header.reservedSectors.toNat

def rootDirSize (header : FatHeader) : Nat :=
  header.rootDirEntries.toNat * directoryItemSize

def rootDirTotalSectors (header : FatHeader) : Nat :=
  rootDirSize header / sectorSize + if rootDirSize header % sectorSize ≠ 0 then 1 else 0

/-- The status, and the record of the root directory afterwards; `dirMemory`
is whether `kzalloc` returns a buffer for the table. -/
def fat16GetRootDirectory (disk : Disk) (fatPrivate : FatPrivate) (dirMemory : Bool) :
    Except Halt (Int × FatDirectory) := do
  let sectorPos := rootDirSectorPos fatPrivate.header
  let size := rootDirSize fatPrivate.header
  let totalItems ← fat16GetItemsForDirectory disk fatPrivate sectorPos
  if !dirMemory then
    pure (-enomem, fatPrivate.rootDirectory)
  else
    match fatPrivate.directoryStream with
    | none => .error .fault
    | some stream =>
        let pos ← checkInt .fault (sectorPos * sectorSize)
        let (res, _, bytes) ← diskstreamerRead disk (diskstreamerSeek stream pos) size
        if res ≠ 0 then
          pure (-eio, fatPrivate.rootDirectory)
        else
          pure (0,
            { item := bytes
              total := totalItems
              sectorPos := sectorPos
              endingSectorPos := sectorPos + rootDirTotalSectors fatPrivate.header })

/-- The bytes of a field from index `i` on, up to the first NUL or space or the
end of the field, which has `size` bytes. -/
def fat16ToProperString (size : Nat) : Nat → List Byte → List Byte
  | _, [] => []
  | i, c :: rest =>
      if c ≠ 0x00 ∧ c ≠ 0x20 then
        c :: if i ≥ size - 1 then [] else fat16ToProperString size (i + 1) rest
      else
        []

def fat16GetFullRelativeFilename (item : FatDirectoryItem) : List Byte :=
  fat16ToProperString 8 0 item.filename ++
    if item.ext.headD 0 ≠ 0x00 ∧ item.ext.headD 0 ≠ 0x20 then
      0x2E :: fat16ToProperString 3 0 item.ext
    else
      []

/-- What `kzalloc` returns for the record of an item and for the copy of its
entry. -/
structure ItemMemory where
  item : Bool
  clone : Bool

def fat16CloneDirectoryItem (mem : ItemMemory) (item : FatDirectoryItem) (size : Nat) :
    Option FatDirectoryItem :=
  if size < directoryItemSize then
    none
  else if !mem.clone then
    none
  else
    some item

section Find

variable (loadFatDirectory : FatDirectoryItem → Option FatDirectory)

/-- `loadFatDirectory` is what loading a subdirectory returns: the source calls
a function there that it does not define. -/
def fat16NewFatItemForDirectoryItem (mem : ItemMemory) (item : FatDirectoryItem) :
    Option FatItem :=
  if !mem.item then
    none
  else if item.attributes &&& fatFileSubdirectory ≠ 0 then
    some (.directory (loadFatDirectory item))
  else
    some (.file (fat16CloneDirectoryItem mem item directoryItemSize))

/-- `directory->item[i]`, when it lies inside the buffer. -/
def FatDirectory.itemAt (directory : FatDirectory) (i : Nat) : Option FatDirectoryItem :=
  if (i + 1) * directoryItemSize ≤ directory.item.length then
    some (.ofBytes ((directory.item.drop (i * directoryItemSize)).take directoryItemSize))
  else
    none

/-- `n` more rounds from index `i` on, with the item found so far: a later
entry of the name replaces an earlier one. -/
def fat16FindItemInDirectoryLoop (mem : Nat → ItemMemory) (directory : FatDirectory)
    (name : List Byte) : Nat → Nat → Option FatItem → Except Halt (Option FatItem)
  | 0, _, fItem => .ok fItem
  | n + 1, i, fItem =>
      match directory.itemAt i with
      | none => .error .fault
      | some item =>
          if istrncmp (fat16GetFullRelativeFilename item) name maxPath = 0 then
            fat16FindItemInDirectoryLoop mem directory name n (i + 1)
              (fat16NewFatItemForDirectoryItem loadFatDirectory (mem i) item)
          else
            fat16FindItemInDirectoryLoop mem directory name n (i + 1) fItem

/-- `mem i` is what `kzalloc` returns when the entry at index `i` is found. -/
def fat16FindItemInDirectory (mem : Nat → ItemMemory) (directory : FatDirectory)
    (name : List Byte) : Except Halt (Option FatItem) :=
  fat16FindItemInDirectoryLoop loadFatDirectory mem directory name directory.total.toNat 0 none

end Find

/-- A field of a name without its padding. -/
def unpadded (field : List Byte) : List Byte :=
  field.takeWhile fun c => c ≠ 0x00 ∧ c ≠ 0x20

/-- The 8.3 name of an entry: its base name and, where it has one, a dot and
its extension. -/
def FatDirectoryItem.fullName (item : FatDirectoryItem) : List Byte :=
  if unpadded item.ext = [] then
    unpadded item.filename
  else
    unpadded item.filename ++ 0x2E :: unpadded item.ext

theorem unpadded_cons
    (c : Byte) (rest : List Byte) :
    unpadded (c :: rest) = if c ≠ 0x00 ∧ c ≠ 0x20 then c :: unpadded rest else [] := by
  rw [unpadded, List.takeWhile_cons]
  simp only [decide_eq_true_eq]
  rfl

theorem fat16ToProperString_eq_unpadded
    {size : Nat} (i : Nat) {field : List Byte}
    (h : i + field.length ≤ size) :
    fat16ToProperString size i field = unpadded field := by
  induction field generalizing i with
  | nil => rfl
  | cons c rest ih =>
      rw [List.length_cons] at h
      rw [fat16ToProperString, unpadded_cons]
      split_ifs with hc hi
      · obtain rfl : rest = [] := List.eq_nil_of_length_eq_zero (by omega)
        rfl
      · rw [ih (i + 1) (by omega)]
      · rfl

theorem unpadded_eq_nil_iff
    (field : List Byte) :
    unpadded field = [] ↔ ¬ (field.headD 0 ≠ 0x00 ∧ field.headD 0 ≠ 0x20) := by
  cases field with
  | nil => simp [unpadded]
  | cons c rest =>
      rw [unpadded_cons, List.headD_cons]
      split_ifs with h
      · exact iff_of_false id (not_not.mpr h)
      · exact iff_of_true rfl h

theorem fat16GetFullRelativeFilename_eq
    {item : FatDirectoryItem}
    (hbase : item.filename.length ≤ 8) (hext : item.ext.length ≤ 3) :
    fat16GetFullRelativeFilename item = item.fullName := by
  rw [fat16GetFullRelativeFilename, FatDirectoryItem.fullName,
    fat16ToProperString_eq_unpadded 0 (by omega), fat16ToProperString_eq_unpadded 0 (by omega)]
  split_ifs with h h' h'
  · exact absurd h ((unpadded_eq_nil_iff _).mp h')
  · rfl
  · rw [List.append_nil]
  · exact absurd ((unpadded_eq_nil_iff _).mpr h) h'

theorem zero_not_mem_unpadded
    (field : List Byte) :
    (0 : Byte) ∉ unpadded field := by
  induction field with
  | nil => exact List.not_mem_nil
  | cons c rest ih =>
      rw [unpadded_cons]
      split_ifs with h
      · exact List.not_mem_cons_of_ne_of_not_mem (Ne.symm h.1) ih
      · exact List.not_mem_nil

theorem FatDirectoryItem.zero_not_mem_fullName
    (item : FatDirectoryItem) :
    (0 : Byte) ∉ item.fullName := by
  unfold FatDirectoryItem.fullName
  split_ifs
  · exact zero_not_mem_unpadded _
  · rw [List.mem_append, List.mem_cons]
    rintro (h | h | h)
    · exact zero_not_mem_unpadded _ h
    · exact absurd h (by decide)
    · exact zero_not_mem_unpadded _ h

theorem FatDirectoryItem.length_fullName_lt
    {item : FatDirectoryItem}
    (hbase : item.filename.length ≤ 8) (hext : item.ext.length ≤ 3) :
    item.fullName.length < maxPath := by
  have h₁ : (unpadded item.filename).length ≤ item.filename.length :=
    (List.takeWhile_prefix _).length_le
  have h₂ : (unpadded item.ext).length ≤ item.ext.length := (List.takeWhile_prefix _).length_le
  unfold FatDirectoryItem.fullName maxPath
  split_ifs
  · omega
  · rw [List.length_append, List.length_cons]
    omega

theorem FatDirectoryItem.length_ofBytes
    (bytes : List Byte) :
    (ofBytes bytes).filename.length ≤ 8 ∧ (ofBytes bytes).ext.length ≤ 3 :=
  ⟨List.length_take_le _ _, List.length_take_le _ _⟩

/-- The comparison of a lookup finds the entries whose name is the one looked
up, up to case. -/
theorem istrncmp_fullRelativeFilename_iff
    {item : FatDirectoryItem} (hlength : item.filename.length ≤ 8 ∧ item.ext.length ≤ 3)
    (name : CString) :
    istrncmp (fat16GetFullRelativeFilename item) name.bytes maxPath = 0 ↔
      SameUpToCase item.fullName name.bytes := by
  rw [fat16GetFullRelativeFilename_eq hlength.1 hlength.2]
  exact istrncmp_eq_zero_iff (FatDirectoryItem.zero_not_mem_fullName _) name.noNul
    (FatDirectoryItem.length_fullName_lt hlength.1 hlength.2)

/-- The name of a deleted entry starts with the byte that marks it. -/
theorem FatDirectoryItem.headD_fullName
    (item : FatDirectoryItem) :
    item.fullName.headD 0 = 0xE5 ↔ item.firstByte = 0xE5 := by
  have hempty : unpadded item.filename = [] → item.fullName.headD 0 ≠ 0xE5 := by
    intro h
    unfold FatDirectoryItem.fullName
    split_ifs <;> simp [h]
  cases hname : item.filename with
  | nil =>
      refine iff_of_false (hempty (by rw [hname]; rfl)) ?_
      simp [FatDirectoryItem.firstByte, hname]
  | cons c rest =>
      have hfirst : item.firstByte = c := by simp [FatDirectoryItem.firstByte, hname]
      have hbase := unpadded_cons c rest
      split_ifs at hbase with hc
      · have hhead : item.fullName.headD 0 = c := by
          unfold FatDirectoryItem.fullName
          split_ifs <;> simp [hname, hbase]
        rw [hhead, hfirst]
      · refine iff_of_false (hempty (by rw [hname, hbase])) ?_
        rw [hfirst]
        rintro rfl
        exact hc (by decide)

/-- Neither the end marker nor deleted. -/
def FatDirectoryItem.InUse (item : FatDirectoryItem) : Prop :=
  item.firstByte ≠ 0x00 ∧ item.firstByte ≠ 0xE5

instance (item : FatDirectoryItem) : Decidable item.InUse :=
  inferInstanceAs (Decidable (_ ∧ _))

def rootDirPos (header : FatHeader) : Nat :=
  rootDirSectorPos header * sectorSize

/-- The entry at index `i` of the table that starts at `pos` on the disk. -/
def entryAt (disk : Disk) (pos i : Nat) : FatDirectoryItem :=
  .ofBytes (disk.bytes (pos + i * directoryItemSize) directoryItemSize)

/-- The entry at index `i` of the root directory on the disk. -/
def rootEntry (disk : Disk) (header : FatHeader) (i : Nat) : FatDirectoryItem :=
  .ofBytes (disk.bytes (rootDirPos header + i * directoryItemSize) directoryItemSize)

theorem length_rootEntry
    (disk : Disk) (header : FatHeader) (i : Nat) :
    (rootEntry disk header i).filename.length ≤ 8 ∧ (rootEntry disk header i).ext.length ≤ 3 :=
  FatDirectoryItem.length_ofBytes _

/-- The first end marker of the root directory is at index `m`. -/
structure EndMarkerAt (disk : Disk) (header : FatHeader) (m : Nat) : Prop where
  inside : m < header.rootDirEntries.toNat
  marker : (rootEntry disk header m).firstByte = 0x00
  before : ∀ i < m, (rootEntry disk header i).firstByte ≠ 0x00

/-- The number of entries in use before index `m`. -/
def inUseCount (disk : Disk) (header : FatHeader) (m : Nat) : Nat :=
  Nat.count (fun i => (rootEntry disk header i).InUse) m

/-- Two entries whose names are equal up to case are both deleted or neither. -/
theorem deleted_iff_of_sameUpToCase
    {item item' : FatDirectoryItem}
    (h : SameUpToCase item.fullName item'.fullName) :
    item.firstByte = 0xE5 ↔ item'.firstByte = 0xE5 := by
  have hmark : ∀ c : Byte, tolower c = 0xE5 ↔ c = 0xE5 := by decide
  have hhead : ∀ s : List Byte, tolower (s.headD 0) = (s.map tolower).headD 0 := by
    intro s
    cases s <;> rfl
  rw [← item.headD_fullName, ← item'.headD_fullName, ← hmark, ← hmark (item'.fullName.headD 0),
    hhead, hhead, show item.fullName.map tolower = item'.fullName.map tolower from h]

/-- Fuel that lasts to the end of the positions is fuel enough. -/
theorem fat16GetItemsForDirectoryLoop_fuel
    {disk : Disk} (hdisk : disk.primary = true)
    {fuel pos : Nat} (h : 2147483648 ≤ pos + fuel * directoryItemSize)
    (requested : List Nat) (count : Int) :
    fat16GetItemsForDirectoryLoop disk (fuel + 1) ⟨pos, requested⟩ count =
      fat16GetItemsForDirectoryLoop disk fuel ⟨pos, requested⟩ count := by
  have hint : pos % sectorSize + directoryItemSize < 2147483648 := by
    unfold sectorSize directoryItemSize
    omega
  induction fuel generalizing pos requested count with
  | zero =>
      simp only [fat16GetItemsForDirectoryLoop, diskstreamerRead_eq hdisk requested pos _ hint]
      rw [if_neg (by omega), error_bind]
  | succ fuel ih =>
      rw [fat16GetItemsForDirectoryLoop, fat16GetItemsForDirectoryLoop,
        diskstreamerRead_eq hdisk requested pos _ hint]
      split_ifs with hin
      · have hnext : 2147483648 ≤ pos + directoryItemSize + fuel * directoryItemSize := by
          rw [Nat.succ_mul] at h
          omega
        have hint' : (pos + directoryItemSize) % sectorSize + directoryItemSize < 2147483648 := by
          unfold sectorSize directoryItemSize
          omega
        simp only [ok_bind, ih hnext _ _ hint']
      · rfl

/-- One round of the scan, at the entry of index `i` of a table. -/
theorem fat16GetItemsForDirectoryLoop_succ
    {disk : Disk} (hdisk : disk.primary = true) (pos fuel i : Nat)
    (requested : List Nat) (count : Int) :
    ∃ requested', fat16GetItemsForDirectoryLoop disk (fuel + 1)
        ⟨(pos + i * directoryItemSize : Nat), requested⟩ count =
      if pos + (i + 1) * directoryItemSize < 2147483648 then
        if (entryAt disk pos i).firstByte = 0x00 then
          .ok count
        else
          fat16GetItemsForDirectoryLoop disk fuel
            ⟨(pos + (i + 1) * directoryItemSize : Nat), requested'⟩
            (count + if (entryAt disk pos i).InUse then 1 else 0)
      else
        .error .fault := by
  have hnext : pos + i * directoryItemSize + directoryItemSize =
      pos + (i + 1) * directoryItemSize := by ring
  have hint : (pos + i * directoryItemSize) % sectorSize + directoryItemSize < 2147483648 := by
    unfold sectorSize directoryItemSize
    omega
  refine ⟨requested ++ sectorsAsked (pos + i * directoryItemSize) directoryItemSize, ?_⟩
  rw [fat16GetItemsForDirectoryLoop, diskstreamerRead_eq hdisk requested _ _ hint, hnext]
  rcases Nat.lt_or_ge (pos + (i + 1) * directoryItemSize) 2147483648 with hin | hout
  · rw [if_pos hin, if_pos hin, ok_bind]
    simp only [ne_eq, not_true_eq_false, if_false, ← entryAt.eq_def]
    split_ifs with hmarker hdeleted huse huse
    · rfl
    · exact absurd hdeleted huse.2
    · rw [add_zero]
    · rfl
    · exact absurd ⟨hmarker, hdeleted⟩ huse
  · rw [if_neg (Nat.not_lt.mpr hout), if_neg (Nat.not_lt.mpr hout), error_bind]

/-- From index `i` on, `d` entries before the end marker, the scan adds up the
entries in use. -/
theorem fat16GetItemsForDirectoryLoop_eq
    {disk : Disk} (hdisk : disk.primary = true) (pos : Nat)
    {fuel d i : Nat} (hfuel : d < fuel)
    (hmarker : (entryAt disk pos (i + d)).firstByte = 0x00)
    (hbefore : ∀ k < d, (entryAt disk pos (i + k)).firstByte ≠ 0x00)
    (hpos : pos + (i + d + 1) * directoryItemSize < 2147483648)
    (requested : List Nat) (count : Int) :
    fat16GetItemsForDirectoryLoop disk fuel
        ⟨(pos + i * directoryItemSize : Nat), requested⟩ count =
      .ok (count + (Nat.count (fun k => (entryAt disk pos (i + k)).InUse) d : Nat)) := by
  induction d generalizing fuel i count requested with
  | zero =>
      obtain ⟨fuel, rfl⟩ := Nat.exists_eq_add_one_of_ne_zero (Nat.ne_of_gt hfuel)
      obtain ⟨requested', hstep⟩ := fat16GetItemsForDirectoryLoop_succ hdisk pos fuel i
        requested count
      have hhere : (entryAt disk pos i).firstByte = 0x00 := hmarker
      rw [hstep, if_pos hpos, if_pos hhere, Nat.count_zero, Nat.cast_zero, add_zero]
  | succ d ih =>
      obtain ⟨fuel, rfl⟩ := Nat.exists_eq_add_one_of_ne_zero (Nat.ne_of_gt (Nat.zero_lt_of_lt hfuel))
      have hle : (i + 1) * directoryItemSize ≤ (i + (d + 1) + 1) * directoryItemSize :=
        Nat.mul_le_mul_right _ (by omega)
      obtain ⟨requested', hstep⟩ := fat16GetItemsForDirectoryLoop_succ hdisk pos fuel i
        requested count
      have hshift : ∀ k, i + 1 + k = i + (k + 1) := by
        intro k
        omega
      have hhere : (entryAt disk pos i).firstByte ≠ 0x00 := hbefore 0 (by omega)
      rw [hstep, if_pos (by omega), if_neg hhere, ih (by omega)
        (by rw [hshift]; exact hmarker)
        (fun k hk => by rw [hshift]; exact hbefore (k + 1) (by omega))
        (by rw [hshift]; exact hpos), Nat.count_succ']
      simp only [hshift, Nat.add_zero]
      rcases Decidable.em (entryAt disk pos i).InUse with huse | huse
      · rw [if_pos huse, if_pos huse]
        exact congrArg Except.ok (by push_cast; omega)
      · rw [if_neg huse, if_neg huse]
        exact congrArg Except.ok (by push_cast; omega)

/-- A scan from the first entry on. -/
theorem fat16GetItemsForDirectoryLoop_first
    {disk : Disk} (hdisk : disk.primary = true) {pos fuel m : Nat} (hfuel : m < fuel)
    (hmarker : (entryAt disk pos m).firstByte = 0x00)
    (hbefore : ∀ k < m, (entryAt disk pos k).firstByte ≠ 0x00)
    (hpos : pos + (m + 1) * directoryItemSize < 2147483648) (requested : List Nat) :
    fat16GetItemsForDirectoryLoop disk fuel ⟨(pos : Nat), requested⟩ 0 =
      .ok (Nat.count (fun k => (entryAt disk pos k).InUse) m : Nat) := by
  have hloop := fat16GetItemsForDirectoryLoop_eq hdisk pos (i := 0) hfuel
    (by rwa [Nat.zero_add]) (by simpa using hbefore) (by rwa [Nat.zero_add]) requested 0
  simpa using hloop

/-- `j` is the last index below `t` with the property `p`. -/
def LastBelow (p : Nat → Prop) (t j : Nat) : Prop :=
  p j ∧ j < t ∧ ∀ k, j < k → k < t → ¬ p k

theorem lastBelow_succ_of
    {p : Nat → Prop} {t : Nat}
    (h : p t) (j : Nat) :
    LastBelow p (t + 1) j ↔ j = t := by
  constructor
  · rintro ⟨-, hj, hlast⟩
    by_contra hne
    exact hlast t (by omega) (by omega) h
  · rintro rfl
    exact ⟨h, by omega, fun k hk hk' => by omega⟩

theorem lastBelow_succ_of_not
    {p : Nat → Prop} {t : Nat}
    (h : ¬ p t) (j : Nat) :
    LastBelow p (t + 1) j ↔ LastBelow p t j := by
  constructor
  · rintro ⟨hp, hj, hlast⟩
    have hne : j ≠ t := fun heq => h (heq ▸ hp)
    exact ⟨hp, by omega, fun k hk hk' => hlast k hk (by omega)⟩
  · rintro ⟨hp, hj, hlast⟩
    refine ⟨hp, by omega, ?_⟩
    intro k hk hk'
    rcases Nat.eq_or_lt_of_le (Nat.le_of_lt_succ hk') with rfl | hlt
    · exact h
    · exact hlast k hk hlt

theorem exists_lastBelow
    {p : Nat → Prop} {t i : Nat}
    (hi : i < t) (hp : p i) :
    ∃ j, LastBelow p t j := by
  induction t with
  | zero => omega
  | succ t ih =>
      rcases Classical.em (p t) with h | h
      · exact ⟨t, (lastBelow_succ_of h t).mpr rfl⟩
      · have hne : i ≠ t := fun heq => h (heq ▸ hp)
        obtain ⟨j, hj⟩ := ih (by omega)
        exact ⟨j, (lastBelow_succ_of_not h j).mpr hj⟩

theorem LastBelow.unique
    {p : Nat → Prop} {t j l : Nat}
    (hj : LastBelow p t j) (hl : LastBelow p t l) :
    l = j := by
  rcases Nat.lt_trichotomy l j with hlt | heq | hgt
  · exact absurd hj.1 (hl.2.2 j hlt hj.2.1)
  · exact heq
  · exact absurd hl.1 (hj.2.2 l hgt hl.2.1)

section Find

variable (loadFatDirectory : FatDirectoryItem → Option FatDirectory) (mem : Nat → ItemMemory)

theorem isSome_fat16NewFatItemForDirectoryItem
    (itemMem : ItemMemory) (item : FatDirectoryItem) :
    (fat16NewFatItemForDirectoryItem loadFatDirectory itemMem item).isSome = true ↔
      itemMem.item = true := by
  unfold fat16NewFatItemForDirectoryItem
  cases itemMem.item with
  | false => simp
  | true => split_ifs <;> simp_all

/-- When the entries below index `i` have been looked at, the next `n` of them
decide what is found: the last of the name, if `kzalloc` returns a record for it. -/
theorem fat16FindItemInDirectoryLoop_spec
    (directory : FatDirectory) (name : List Byte) (items : Nat → FatDirectoryItem)
    {n i : Nat} (hitems : ∀ k, i ≤ k → k < i + n → directory.itemAt k = some (items k))
    (fItem : Option FatItem)
    (hfItem : fItem.isSome = true ↔ ∃ j,
      LastBelow (fun k =>
        istrncmp (fat16GetFullRelativeFilename (items k)) name maxPath = 0) i j ∧
      (mem j).item = true) :
    ∃ found, fat16FindItemInDirectoryLoop loadFatDirectory mem directory name n i fItem =
        .ok found ∧
      (found.isSome = true ↔ ∃ j,
        LastBelow (fun k =>
          istrncmp (fat16GetFullRelativeFilename (items k)) name maxPath = 0) (i + n) j ∧
        (mem j).item = true) := by
  induction n generalizing i fItem with
  | zero => exact ⟨fItem, rfl, hfItem⟩
  | succ n ih =>
      have hitems' : ∀ k, i + 1 ≤ k → k < i + 1 + n → directory.itemAt k = some (items k) :=
        fun k hk hk' => hitems k (by omega) (by omega)
      rw [fat16FindItemInDirectoryLoop, hitems i (Nat.le_refl _) (by omega)]
      simp only
      rw [show i + (n + 1) = i + 1 + n by omega]
      split_ifs with hname
      · refine ih hitems' _ ?_
        rw [isSome_fat16NewFatItemForDirectoryItem]
        simp only [lastBelow_succ_of (p := fun k =>
          istrncmp (fat16GetFullRelativeFilename (items k)) name maxPath = 0) hname,
          exists_eq_left]
      · refine ih hitems' _ ?_
        simp only [lastBelow_succ_of_not (p := fun k =>
          istrncmp (fat16GetFullRelativeFilename (items k)) name maxPath = 0) hname, hfItem]

/-- Every index below the total is one of an entry in the buffer. -/
def FatDirectory.Inside (directory : FatDirectory) : Prop :=
  directory.total.toNat * directoryItemSize ≤ directory.item.length

/-- A lookup in a directory whose entries are all in its buffer returns. -/
theorem fat16FindItemInDirectory_returns
    {directory : FatDirectory} (h : directory.Inside) (name : List Byte) :
    ∃ found, fat16FindItemInDirectory loadFatDirectory mem directory name = .ok found := by
  have hitems : ∀ k, 0 ≤ k → k < 0 + directory.total.toNat → directory.itemAt k =
      some (.ofBytes ((directory.item.drop (k * directoryItemSize)).take directoryItemSize)) := by
    intro k _ hk
    have hle : (k + 1) * directoryItemSize ≤ directory.total.toNat * directoryItemSize :=
      Nat.mul_le_mul_right _ (by omega)
    exact if_pos (Nat.le_trans hle h)
  obtain ⟨found, hfound, -⟩ := fat16FindItemInDirectoryLoop_spec loadFatDirectory mem directory
    name _ hitems none (by
      refine iff_of_false (by simp) ?_
      rintro ⟨j, ⟨-, hj, -⟩, -⟩
      omega)
  exact ⟨found, hfound⟩

end Find

/-- The scan counts the entries in use before the end marker. -/
theorem fat16GetItemsForDirectory_eq
    {volume : Fat16Volume} {m : Nat}
    (hm : EndMarkerAt volume.disk volume.fatPrivate.header m)
    (hin : rootDirPos volume.fatPrivate.header + rootDirSize volume.fatPrivate.header <
      2147483648) :
    fat16GetItemsForDirectory volume.disk volume.fatPrivate
        (rootDirSectorPos volume.fatPrivate.header) =
      .ok (inUseCount volume.disk volume.fatPrivate.header m : Nat) := by
  obtain ⟨stream, hstream⟩ := Option.isSome_iff_exists.mp volume.directoryStream
  have hle : (m + 1) * directoryItemSize ≤ rootDirSize volume.fatPrivate.header :=
    Nat.mul_le_mul_right _ hm.inside
  have hfuel : m < directoryScanFuel := by
    have := volume.fatPrivate.header.rootDirEntries.isLt
    have := hm.inside
    unfold directoryScanFuel
    omega
  have hloop := fat16GetItemsForDirectoryLoop_first volume.primary hfuel hm.marker hm.before
    (show rootDirPos volume.fatPrivate.header + (m + 1) * directoryItemSize < 2147483648 by omega)
    stream.requested
  simp only [fat16GetItemsForDirectory, hstream, diskstreamerSeek]
  rw [← Int.natCast_mul, ← rootDirPos.eq_def,
    toInt_of_isInt (isInt_of_bounds (by omega) (by omega)), hloop]
  rfl

/-- The record of a root directory whose end marker is at index `m`. -/
def loadedRoot (disk : Disk) (header : FatHeader) (m : Nat) : FatDirectory where
  item := disk.bytes (rootDirPos header) (rootDirSize header)
  total := (inUseCount disk header m : Nat)
  sectorPos := (rootDirSectorPos header : Nat)
  endingSectorPos := (rootDirSectorPos header : Nat) + (rootDirTotalSectors header : Nat)

theorem fat16GetRootDirectory_eq
    {volume : Fat16Volume} {m : Nat}
    (hm : EndMarkerAt volume.disk volume.fatPrivate.header m)
    (hin : rootDirPos volume.fatPrivate.header + rootDirSize volume.fatPrivate.header <
      2147483648) :
    fat16GetRootDirectory volume.disk volume.fatPrivate true =
      .ok (0, loadedRoot volume.disk volume.fatPrivate.header m) := by
  obtain ⟨stream, hstream⟩ := Option.isSome_iff_exists.mp volume.directoryStream
  rw [fat16GetRootDirectory, fat16GetItemsForDirectory_eq hm hin, ok_bind]
  simp only [hstream, Bool.not_true, Bool.false_eq_true, if_false, diskstreamerSeek]
  rw [← Int.natCast_mul, ← rootDirPos.eq_def,
    checkInt_of_isInt _ (isInt_of_bounds (by omega) (by omega)), ok_bind,
    diskstreamerRead_eq_ok volume.primary _ hin]
  rfl

/-- A successful load holds the raw table, at a position whose end is a value
of an `int`. -/
theorem fat16GetRootDirectory_inv
    {disk : Disk} (hdisk : disk.primary = true) {fatPrivate : FatPrivate} {dirMemory : Bool}
    {directory : FatDirectory}
    (hroot : fat16GetRootDirectory disk fatPrivate dirMemory = .ok (0, directory)) :
    directory.item =
        disk.bytes (rootDirPos fatPrivate.header) (rootDirSize fatPrivate.header) ∧
      rootDirPos fatPrivate.header + rootDirSize fatPrivate.header < 2147483648 ∧
      fat16GetItemsForDirectory disk fatPrivate (rootDirSectorPos fatPrivate.header) =
        .ok directory.total ∧
      directory.endingSectorPos = rootDirSectorPos fatPrivate.header +
        rootDirTotalSectors fatPrivate.header := by
  rw [fat16GetRootDirectory, bind_eq_ok_iff] at hroot
  obtain ⟨totalItems, htotal, h⟩ := hroot
  rw [htotal]
  cases dirMemory with
  | false => exact absurd (Prod.mk.inj (Except.ok.inj h)).1 (by decide)
  | true =>
      cases hstream : fatPrivate.directoryStream with
      | none =>
          simp only [hstream] at h
          cases h
      | some stream =>
          simp only [hstream, Bool.not_true, Bool.false_eq_true, if_false, diskstreamerSeek] at h
          rw [bind_eq_ok_iff] at h
          obtain ⟨pos, hpos, h⟩ := h
          have hsize := fatPrivate.header.rootDirEntries.isLt
          have hint : rootDirPos fatPrivate.header % sectorSize +
              rootDirSize fatPrivate.header < 2147483648 := by
            have := Nat.mod_lt (rootDirPos fatPrivate.header) (show 0 < sectorSize by decide)
            unfold rootDirSize directoryItemSize sectorSize at *
            omega
          obtain rfl : pos = (rootDirPos fatPrivate.header : Nat) := by
            unfold checkInt at hpos
            split_ifs at hpos
            rw [rootDirPos, Int.natCast_mul]
            exact (Except.ok.inj hpos).symm
          rw [diskstreamerRead_eq hdisk _ _ _ hint] at h
          rcases Nat.lt_or_ge (rootDirPos fatPrivate.header +
            rootDirSize fatPrivate.header) 2147483648 with hin | hout
          · rw [if_pos hin] at h
            obtain ⟨-, rfl⟩ := Prod.mk.inj (Except.ok.inj h)
            exact ⟨rfl, hin, rfl, rfl⟩
          · rw [if_neg (Nat.not_lt.mpr hout)] at h
            cases h

section Root

variable {volume : Fat16Volume} {dirMemory : Bool} {directory : FatDirectory}
  (hroot : fat16GetRootDirectory volume.disk volume.fatPrivate dirMemory = .ok (0, directory))

include hroot

theorem itemAt_of_lt
    {i : Nat} (hi : i < volume.fatPrivate.header.rootDirEntries.toNat) :
    directory.itemAt i = some (rootEntry volume.disk volume.fatPrivate.header i) := by
  have hle : (i + 1) * directoryItemSize ≤ rootDirSize volume.fatPrivate.header :=
    Nat.mul_le_mul_right _ hi
  rw [FatDirectory.itemAt, (fat16GetRootDirectory_inv volume.primary hroot).1,
    Disk.length_bytes, if_pos hle,
    Disk.take_drop_bytes _ _ (by rw [Nat.succ_mul] at hle; exact hle)]
  rfl

/-- What a lookup finds: the last of the first `inUseCount` entries of the raw
table that has the name, if `kzalloc` returns a record for it. -/
theorem fat16FindItemInDirectory_spec
    {m : Nat} (hm : EndMarkerAt volume.disk volume.fatPrivate.header m)
    (loadFatDirectory : FatDirectoryItem → Option FatDirectory) (mem : Nat → ItemMemory)
    (name : CString) :
    ∃ found, fat16FindItemInDirectory loadFatDirectory mem directory name.bytes = .ok found ∧
      (found.isSome = true ↔ ∃ j,
        LastBelow (fun k => SameUpToCase
          (rootEntry volume.disk volume.fatPrivate.header k).fullName name.bytes)
          (inUseCount volume.disk volume.fatPrivate.header m) j ∧
        (mem j).item = true) := by
  obtain ⟨-, hin, htotal, -⟩ := fat16GetRootDirectory_inv volume.primary hroot
  rw [fat16GetItemsForDirectory_eq hm hin] at htotal
  have hcount : inUseCount volume.disk volume.fatPrivate.header m ≤ m :=
    Nat.count_le _
  have hmatch : ∀ k, istrncmp (fat16GetFullRelativeFilename
      (rootEntry volume.disk volume.fatPrivate.header k)) name.bytes maxPath = 0 ↔
      SameUpToCase (rootEntry volume.disk volume.fatPrivate.header k).fullName name.bytes :=
    fun k => istrncmp_fullRelativeFilename_iff
      (length_rootEntry volume.disk volume.fatPrivate.header k) name
  have hloop := fat16FindItemInDirectoryLoop_spec loadFatDirectory mem directory name.bytes
    (rootEntry volume.disk volume.fatPrivate.header) (i := 0)
    (n := inUseCount volume.disk volume.fatPrivate.header m)
    (fun k _ hk => itemAt_of_lt hroot (by have := hm.inside; omega)) none
    (by
      refine iff_of_false (by simp) ?_
      rintro ⟨j, ⟨-, hj, -⟩, -⟩
      omega)
  simp only [hmatch, Nat.zero_add] at hloop
  rw [fat16FindItemInDirectory, ← Except.ok.inj htotal, Int.toNat_natCast]
  exact hloop

end Root

section Lookup

variable (disk : Disk) (header : FatHeader) (m : Nat)

/-- Some entry in use before the end marker has the name, up to case. -/
def HasEntry (name : CString) : Prop :=
  ∃ i < m, (rootEntry disk header i).InUse ∧
    SameUpToCase (rootEntry disk header i).fullName name.bytes

def SameName (i j : Nat) : Prop :=
  SameUpToCase (rootEntry disk header i).fullName (rootEntry disk header j).fullName

/-- Every entry in use has a namesake among the entries that a lookup visits,
and of the visited entries that are the last of their name exactly those in
use get a record from `kzalloc`. -/
def LooksUpAllNames (mem : Nat → ItemMemory) : Prop :=
  (∀ i < m, (rootEntry disk header i).InUse →
    ∃ j < inUseCount disk header m, SameName disk header i j) ∧
  ∀ j, LastBelow (SameName disk header j) (inUseCount disk header m) j →
    ((mem j).item = true ↔ (rootEntry disk header j).InUse)

end Lookup

/-- A lookup returns an item exactly for the names of the entries in use. -/
def LookupFinds (volume : Fat16Volume) (directory : FatDirectory) (m : Nat)
    (loadFatDirectory : FatDirectoryItem → Option FatDirectory) (mem : Nat → ItemMemory) : Prop :=
  ∀ name : CString, ∃ found,
    fat16FindItemInDirectory loadFatDirectory mem directory name.bytes = .ok found ∧
      (found.isSome = true ↔ HasEntry volume.disk volume.fatPrivate.header m name)

/-- The name of an entry, as a string. -/
def nameOf (item : FatDirectoryItem) : CString :=
  ⟨item.fullName, item.zero_not_mem_fullName⟩

theorem inUse_of_sameUpToCase
    {item item' : FatDirectoryItem}
    (h : SameUpToCase item.fullName item'.fullName)
    (huse : item.InUse) (hmarker : item'.firstByte ≠ 0x00) :
    item'.InUse :=
  ⟨hmarker, fun hdeleted => huse.2 ((deleted_iff_of_sameUpToCase h).mpr hdeleted)⟩

section LastNamesake

variable {disk : Disk} {header : FatHeader} {t j : Nat}

/-- The last entry that answers to a name is the last of its own name. -/
theorem LastBelow.sameName
    {name : List Byte}
    (h : LastBelow (fun k => SameUpToCase (rootEntry disk header k).fullName name) t j) :
    LastBelow (SameName disk header j) t j := by
  obtain ⟨hsame, hj, hlast⟩ := h
  exact ⟨SameUpToCase.refl _, hj, fun k hk hk' hs => hlast k hk hk' (hs.symm.trans hsame)⟩

theorem LastBelow.answersToName
    (h : LastBelow (SameName disk header j) t j) :
    LastBelow (fun k => SameUpToCase (rootEntry disk header k).fullName
      (nameOf (rootEntry disk header j)).bytes) t j := by
  obtain ⟨-, hj, hlast⟩ := h
  exact ⟨SameUpToCase.refl _, hj, fun k hk hk' hs => hlast k hk hk' hs.symm⟩

end LastNamesake

/-- Lookups are complete and sound when the names of the entries in use are
those whose last visited entry gets a record. -/
theorem lookupFinds_iff
    {volume : Fat16Volume} {dirMemory : Bool} {directory : FatDirectory}
    (hroot : fat16GetRootDirectory volume.disk volume.fatPrivate dirMemory = .ok (0, directory))
    {m : Nat} (hm : EndMarkerAt volume.disk volume.fatPrivate.header m)
    (loadFatDirectory : FatDirectoryItem → Option FatDirectory) (mem : Nat → ItemMemory) :
    LookupFinds volume directory m loadFatDirectory mem ↔
      ∀ name : CString,
        (∃ j, LastBelow (fun k => SameUpToCase
          (rootEntry volume.disk volume.fatPrivate.header k).fullName name.bytes)
          (inUseCount volume.disk volume.fatPrivate.header m) j ∧ (mem j).item = true) ↔
        HasEntry volume.disk volume.fatPrivate.header m name := by
  refine forall_congr' fun name => ?_
  obtain ⟨found, hfound, hiff⟩ := fat16FindItemInDirectory_spec hroot hm loadFatDirectory mem name
  rw [hfound, ← hiff]
  constructor
  · rintro ⟨found', heq, hfinds⟩
    obtain rfl := Except.ok.inj heq
    exact hfinds
  · intro hfinds
    exact ⟨found, rfl, hfinds⟩

/-- After the root directory is loaded, lookups in it are complete and sound
exactly when every entry in use has a namesake that is visited and the last
visited entries of each name get a record when they are in use. -/
theorem fat16FindItemInDirectory_finds_iff
    (volume : Fat16Volume) (dirMemory : Bool) (directory : FatDirectory)
    (hroot : fat16GetRootDirectory volume.disk volume.fatPrivate dirMemory = .ok (0, directory))
    (m : Nat) (hm : EndMarkerAt volume.disk volume.fatPrivate.header m)
    (loadFatDirectory : FatDirectoryItem → Option FatDirectory) (mem : Nat → ItemMemory) :
    LookupFinds volume directory m loadFatDirectory mem ↔
      LooksUpAllNames volume.disk volume.fatPrivate.header m mem := by
  have hcount : inUseCount volume.disk volume.fatPrivate.header m ≤ m := Nat.count_le _
  rw [lookupFinds_iff hroot hm]
  constructor
  · intro h
    refine ⟨?_, ?_⟩
    · intro i hi huse
      obtain ⟨j, ⟨hsame, hj, -⟩, -⟩ :=
        (h (nameOf (rootEntry volume.disk volume.fatPrivate.header i))).mpr
          ⟨i, hi, huse, SameUpToCase.refl _⟩
      exact ⟨j, hj, hsame.symm⟩
    · intro j hlast
      have hj : j < m := Nat.lt_of_lt_of_le hlast.2.1 hcount
      have hname := h (nameOf (rootEntry volume.disk volume.fatPrivate.header j))
      constructor
      · intro hmem
        obtain ⟨i, hi, huse, hsame⟩ := hname.mp ⟨j, hlast.answersToName, hmem⟩
        exact inUse_of_sameUpToCase hsame huse (hm.before j hj)
      · intro huse
        obtain ⟨l, hl, hmem⟩ := hname.mpr ⟨j, hj, huse, SameUpToCase.refl _⟩
        obtain rfl := hlast.answersToName.unique hl
        exact hmem
  · rintro ⟨hvisited, hrecord⟩ name
    constructor
    · rintro ⟨j, hlast, hmem⟩
      have huse := (hrecord j hlast.sameName).mp hmem
      exact ⟨j, Nat.lt_of_lt_of_le hlast.2.1 hcount, huse, hlast.1⟩
    · rintro ⟨i, hi, huse, hsame⟩
      obtain ⟨j, hj, hij⟩ := hvisited i hi huse
      obtain ⟨l, hlast⟩ := exists_lastBelow
        (p := fun k => SameUpToCase
          (rootEntry volume.disk volume.fatPrivate.header k).fullName name.bytes)
        hj (hij.symm.trans hsame)
      have hluse := inUse_of_sameUpToCase (hsame.trans hlast.1.symm) huse
        (hm.before l (Nat.lt_of_lt_of_le hlast.2.1 hcount))
      exact ⟨l, hlast, (hrecord l hlast.sameName).mpr hluse⟩

/-- The first `Nat.count P m` numbers all have the property when those below `m`
that have it come first. -/
theorem forall_lt_count_iff
    (P : Nat → Prop) [DecidablePred P] (m : Nat) :
    (∀ j < Nat.count P m, P j) ↔ ∀ i j, i < j → j < m → P j → P i := by
  constructor
  · intro h i j hij hj hPj
    by_contra hPi
    have hle : Nat.count P m ≤ i := Nat.le_of_not_lt fun hi => hPi (h i hi)
    have hall : Nat.count P (Nat.count P m) = Nat.count P m := Nat.count_iff_forall.mpr h
    have hlt := Nat.count_strict_mono hPj hj
    have hmono := Nat.count_monotone P (Nat.le_of_lt (Nat.lt_of_le_of_lt hle hij))
    omega
  · intro h j hj
    by_contra hPj
    have hle : Nat.count P j ≤ j := Nat.count_le _
    obtain ⟨x, hx, hPx⟩ := Nat.exists_of_count_lt_count (Nat.lt_of_le_of_lt hle hj)
    rcases Nat.eq_or_lt_of_le hx.1 with rfl | hlt
    · exact hPj hPx
    · exact hPj (h j x hlt hx.2 hPx)

/-- With memory for every item, lookups are complete and sound exactly when no
deleted entry precedes an entry in use. -/
theorem looksUpAllNames_iff_noHoles
    {disk : Disk} {header : FatHeader} {m : Nat} (hm : EndMarkerAt disk header m)
    {mem : Nat → ItemMemory} (hmem : ∀ j, (mem j).item = true) :
    LooksUpAllNames disk header m mem ↔
      ∀ i j, i < j → j < m → (rootEntry disk header j).InUse →
        (rootEntry disk header i).InUse := by
  have hcount : inUseCount disk header m ≤ m := Nat.count_le _
  have hclosed := forall_lt_count_iff (fun i => (rootEntry disk header i).InUse) m
  rw [← hclosed]
  constructor
  · rintro ⟨-, hrecord⟩ j hj
    obtain ⟨l, hsame, hl, hlast⟩ := exists_lastBelow (p := SameName disk header j)
      (t := inUseCount disk header m) hj (SameUpToCase.refl _)
    have hluse := (hrecord l ⟨SameUpToCase.refl _, hl,
      fun k hk hk' hs => hlast k hk hk' (hsame.trans hs)⟩).mp (hmem l)
    exact inUse_of_sameUpToCase hsame.symm hluse (hm.before j (Nat.lt_of_lt_of_le hj hcount))
  · intro h
    refine ⟨?_, ?_⟩
    · intro i hi huse
      refine ⟨i, ?_, SameUpToCase.refl _⟩
      have hall : Nat.count (fun i => (rootEntry disk header i).InUse)
          (inUseCount disk header m) = inUseCount disk header m := Nat.count_iff_forall.mpr h
      by_contra hge
      have hlt : Nat.count (fun i => (rootEntry disk header i).InUse) i <
          inUseCount disk header m := Nat.count_strict_mono huse hi
      have hmono := Nat.count_monotone (fun i => (rootEntry disk header i).InUse)
        (Nat.le_of_not_lt hge)
      omega
    · rintro j ⟨-, hj, -⟩
      exact iff_of_true (hmem j) (h j hj)

/-- Whatever the directory, lookups after a successful load are complete and
sound as long as there is memory for the items. -/
def LookupsFind : Prop :=
  ∀ (volume : Fat16Volume) (dirMemory : Bool) (directory : FatDirectory),
    fat16GetRootDirectory volume.disk volume.fatPrivate dirMemory = .ok (0, directory) →
    ∀ m, EndMarkerAt volume.disk volume.fatPrivate.header m →
    ∀ (loadFatDirectory : FatDirectoryItem → Option FatDirectory) (mem : Nat → ItemMemory),
      (∀ j, (mem j).item = true) → LookupFinds volume directory m loadFatDirectory mem

/-- A volume whose root directory starts with an entry that has the first byte
`mark`, followed by the entry of the file `A`. -/
def rootVolume (mark : Byte) : Fat16Volume where
  disk := ⟨true, fun pos => if pos = 33280 then mark else if pos = 33312 then 0x41 else 0⟩
  fatPrivate :=
    { header := ⟨1, 1, 2, 64, 32⟩
      rootDirectory := ⟨[], 0, 0, 0⟩
      clusterReadStream := some ⟨0, []⟩
      fatReadStream := some ⟨0, []⟩
      directoryStream := some ⟨0, []⟩ }
  primary := rfl
  clusterStream := rfl
  fatStream := rfl
  directoryStream := rfl
  rootEnd := by decide

def rootVolumeMemory (_index : Nat) : ItemMemory := ⟨true, true⟩

theorem rootVolume_endMarkerAt
    (mark : Byte) (hmark : mark = 0x42 ∨ mark = 0xE5) :
    EndMarkerAt (rootVolume mark).disk (rootVolume mark).fatPrivate.header 2 := by
  rcases hmark with rfl | rfl
  · exact ⟨by decide, by decide, by decide⟩
  · exact ⟨by decide, by decide, by decide⟩

/-- In a directory of the files `B` and `A` every lookup is right. -/
theorem lookupFinds_rootVolume :
    LookupFinds (rootVolume 0x42)
      (loadedRoot (rootVolume 0x42).disk (rootVolume 0x42).fatPrivate.header 2) 2
      (fun _ => none) rootVolumeMemory :=
  (fat16FindItemInDirectory_finds_iff (rootVolume 0x42) true _
    (fat16GetRootDirectory_eq (rootVolume_endMarkerAt 0x42 (Or.inl rfl)) (by decide)) 2
    (rootVolume_endMarkerAt 0x42 (Or.inl rfl)) (fun _ => none) rootVolumeMemory).mpr
    ((looksUpAllNames_iff_noHoles (rootVolume_endMarkerAt 0x42 (Or.inl rfl)) fun _ => rfl).mpr (by
      intro i j hij hj _
      obtain rfl : i = 0 := by omega
      decide))

/-- When the first of two entries is deleted, the second is not visited. -/
theorem lookupsFind_false : ¬ LookupsFind := by
  intro h
  have hm := rootVolume_endMarkerAt 0xE5 (Or.inr rfl)
  have hroot := fat16GetRootDirectory_eq hm (by decide)
  obtain ⟨j, ⟨hsame, hj, -⟩, -⟩ :=
    ((lookupFinds_iff hroot hm (fun _ => none) rootVolumeMemory).mp
      (h (rootVolume 0xE5) true _ hroot 2 hm (fun _ => none) rootVolumeMemory fun _ => rfl)
      (nameOf (rootEntry (rootVolume 0xE5).disk (rootVolume 0xE5).fatPrivate.header 1))).mpr
      ⟨1, by decide, by decide, SameUpToCase.refl _⟩
  have hcount : inUseCount (rootVolume 0xE5).disk (rootVolume 0xE5).fatPrivate.header 2 = 1 := by
    decide
  obtain rfl : j = 0 := by omega
  exact absurd hsame (by decide)

end PeachOS
