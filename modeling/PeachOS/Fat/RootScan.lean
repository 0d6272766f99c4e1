import PeachOS.Fat.Resolve

/-!
# How far a directory is scanned

The scan of `fat16_get_items_for_directory` ends at an end marker and at nothing
else.  In a root directory without one it runs on into the data area, and may
count more entries than the buffer of the directory holds.
-/

namespace PeachOS

open Lib

section Rounds

variable {disk : Disk}

/-- A scan that returns does so with more rounds as well. -/
theorem fat16GetItemsForDirectoryLoop_add
    {n : Nat} {stream : DiskStream} {count total : Int}
    (h : fat16GetItemsForDirectoryLoop disk n stream count = .ok total) (more : Nat) :
    fat16GetItemsForDirectoryLoop disk (n + more) stream count = .ok total := by
  induction n generalizing stream count with
  | zero => cases h
  | succ n ih =>
      rw [fat16GetItemsForDirectoryLoop, bind_eq_ok_iff] at h
      obtain ⟨⟨res, after, bytes⟩, hread, h⟩ := h
      rw [Nat.add_right_comm, fat16GetItemsForDirectoryLoop, hread, ok_bind]
      dsimp only at h ⊢
      split_ifs at h ⊢
      · exact h
      · exact h
      · exact ih h
      · exact ih h

/-- A scan that returns has come to an end marker, before the position
overflows. -/
theorem fat16GetItemsForDirectoryLoop_inv
    (hdisk : disk.primary = true) {pos n i : Nat} {requested : List Nat} {count total : Int}
    (h : fat16GetItemsForDirectoryLoop disk n ⟨(pos + i * directoryItemSize : Nat), requested⟩
      count = .ok total) :
    ∃ d < n, (entryAt disk pos (i + d)).firstByte = 0x00 ∧
      pos + (i + d + 1) * directoryItemSize < 2147483648 := by
  induction n generalizing i requested count with
  | zero => cases h
  | succ n ih =>
      obtain ⟨requested', hstep⟩ := fat16GetItemsForDirectoryLoop_succ hdisk pos n i requested
        count
      rw [hstep] at h
      by_cases hin : pos + (i + 1) * directoryItemSize < 2147483648
      · rw [if_pos hin] at h
        by_cases hmarker : (entryAt disk pos i).firstByte = 0x00
        · exact ⟨0, Nat.succ_pos n, hmarker, hin⟩
        · rw [if_neg hmarker] at h
          obtain ⟨d, hd, hlast, hend⟩ := ih h
          have hshift : i + 1 + d = i + (d + 1) := by omega
          rw [hshift] at hlast hend
          exact ⟨d + 1, Nat.succ_lt_succ hd, hlast, hend⟩
      · rw [if_neg hin] at h
        cases h

/-- A scan with an end marker among the first `n` entries counts fewer than `n`. -/
theorem fat16GetItemsForDirectoryLoop_returns
    (hdisk : disk.primary = true) {pos n m : Nat} (hm : m < n)
    (hmarker : (entryAt disk pos m).firstByte = 0x00)
    (hend : pos + (m + 1) * directoryItemSize < 2147483648) (requested : List Nat) :
    ∃ total : Nat, total < n ∧
      fat16GetItemsForDirectoryLoop disk n ⟨(pos : Nat), requested⟩ 0 = .ok (total : Int) := by
  have hexists : ∃ k, (entryAt disk pos k).firstByte = 0x00 := ⟨m, hmarker⟩
  have hfirst : Nat.find hexists ≤ m := Nat.find_le hmarker
  have hle : (Nat.find hexists + 1) * directoryItemSize ≤ (m + 1) * directoryItemSize :=
    Nat.mul_le_mul_right _ (by omega)
  exact ⟨_, Nat.lt_of_le_of_lt (Nat.count_le _) (Nat.lt_of_le_of_lt hfirst hm),
    fat16GetItemsForDirectoryLoop_first hdisk (Nat.lt_of_le_of_lt hfirst hm)
      (Nat.find_spec hexists) (fun k hk => Nat.find_min hexists hk) (by omega) requested⟩

/-- A scan returns when it can come to the first end marker, with the count of
the entries before it that are in use. -/
theorem fat16GetItemsForDirectoryLoop_iff
    (hdisk : disk.primary = true) {pos fuel m : Nat} (hfuel : m < fuel)
    (hmarker : (entryAt disk pos m).firstByte = 0x00)
    (hbefore : ∀ k < m, (entryAt disk pos k).firstByte ≠ 0x00)
    (requested : List Nat) (total : Int) :
    fat16GetItemsForDirectoryLoop disk fuel ⟨(pos : Nat), requested⟩ 0 = .ok total ↔
      pos + (m + 1) * directoryItemSize < 2147483648 ∧
        total = (Nat.count (fun k => (entryAt disk pos k).InUse) m : Nat) := by
  constructor
  · intro h
    have hscan : fat16GetItemsForDirectoryLoop disk fuel
        ⟨(pos + 0 * directoryItemSize : Nat), requested⟩ 0 = .ok total := by
      rwa [Nat.zero_mul, Nat.add_zero]
    obtain ⟨d, -, hlast, hend⟩ := fat16GetItemsForDirectoryLoop_inv hdisk hscan
    rw [Nat.zero_add] at hlast hend
    have hmd : m ≤ d := Nat.le_of_not_lt fun hlt => hbefore d hlt hlast
    have hle : (m + 1) * directoryItemSize ≤ (d + 1) * directoryItemSize :=
      Nat.mul_le_mul_right _ (by omega)
    have hpos : pos + (m + 1) * directoryItemSize < 2147483648 := by omega
    have hloop := fat16GetItemsForDirectoryLoop_first hdisk hfuel hmarker hbefore hpos requested
    exact ⟨hpos, Except.ok.inj (h.symm.trans hloop)⟩
  · rintro ⟨hpos, rfl⟩
    exact fat16GetItemsForDirectoryLoop_first hdisk hfuel hmarker hbefore hpos requested

end Rounds

/-- Where the scan of the root directory starts: the product is one of unsigned
integers, and is converted to the `int` of the stream. -/
def rootScanPos (header : FatHeader) : Int :=
  toInt (rootDirSectorPos header * sectorSize)

/-- The scan of the root directory is done after at most `n` entries, each round
of the loop being the read of one. -/
def ScansWithin (disk : Disk) (fatPrivate : FatPrivate) (n : Nat) (total : Int) : Prop :=
  ∃ stream, fatPrivate.directoryStream = some stream ∧
    fat16GetItemsForDirectoryLoop disk n
      (diskstreamerSeek stream (rootScanPos fatPrivate.header)) 0 = .ok total

/-- The scan of the root directory returns after at most `root_dir_entries`
entries and counts no more, so that no lookup in the directory that is loaded
leaves its buffer. -/
structure ScanStaysInside (disk : Disk) (fatPrivate : FatPrivate) : Prop where
  scan : ∃ total : Nat, ScansWithin disk fatPrivate fatPrivate.header.rootDirEntries.toNat total ∧
    fat16GetItemsForDirectory disk fatPrivate (rootDirSectorPos fatPrivate.header) =
      .ok (total : Int) ∧
    total ≤ fatPrivate.header.rootDirEntries.toNat
  lookups : ∀ dirMemory directory,
    fat16GetRootDirectory disk fatPrivate dirMemory = .ok (0, directory) →
    ∀ loadFatDirectory mem name, ∃ found,
      fat16FindItemInDirectory loadFatDirectory mem directory name = .ok found

/-- One of the first `root_dir_entries` entries is an end marker, at a position
that the scan can come to. -/
def EndsInside (disk : Disk) (header : FatHeader) : Prop :=
  0 ≤ rootScanPos header ∧ ∃ m < header.rootDirEntries.toNat,
    (entryAt disk (rootScanPos header).toNat m).firstByte = 0x00 ∧
    (rootScanPos header).toNat + (m + 1) * directoryItemSize < 2147483648

section Scan

variable {disk : Disk} (hdisk : disk.primary = true) {fatPrivate : FatPrivate}

include hdisk

/-- Below position 0 the first read faults. -/
theorem endsInside_of_scansWithin
    {n : Nat} {total : Int} (hn : n = fatPrivate.header.rootDirEntries.toNat)
    (h : ScansWithin disk fatPrivate n total) :
    EndsInside disk fatPrivate.header := by
  obtain ⟨stream, -, hloop⟩ := h
  rw [diskstreamerSeek] at hloop
  rcases Int.lt_or_le (rootScanPos fatPrivate.header) 0 with hneg | hpos
  · cases n with
    | zero => cases hloop
    | succ n =>
        rw [fat16GetItemsForDirectoryLoop, diskstreamerRead] at hloop
        dsimp only at hloop
        rw [if_pos (Or.inl hneg)] at hloop
        cases hloop
  · refine ⟨hpos, ?_⟩
    obtain ⟨pos, hnat⟩ := Int.eq_ofNat_of_zero_le hpos
    rw [hnat] at hloop ⊢
    rw [← hn, Int.toNat_natCast]
    have hinv := fat16GetItemsForDirectoryLoop_inv hdisk (i := 0)
      (by rw [Nat.zero_mul, Nat.add_zero]; exact hloop)
    simpa using hinv

theorem scansWithin_of_endsInside
    (hstream : fatPrivate.directoryStream.isSome = true)
    (h : EndsInside disk fatPrivate.header) :
    ∃ total : Nat, total < fatPrivate.header.rootDirEntries.toNat ∧
      ScansWithin disk fatPrivate fatPrivate.header.rootDirEntries.toNat total := by
  obtain ⟨hpos, m, hm, hmarker, hend⟩ := h
  obtain ⟨stream, hsome⟩ := Option.isSome_iff_exists.mp hstream
  obtain ⟨total, htotal, hloop⟩ := fat16GetItemsForDirectoryLoop_returns hdisk hm hmarker hend
    stream.requested
  rw [Int.toNat_of_nonneg hpos] at hloop
  exact ⟨total, htotal, stream, hsome, hloop⟩

omit hdisk in
/-- The scan of the source has rounds to spare. -/
theorem fat16GetItemsForDirectory_of_scansWithin
    {total : Int}
    (h : ScansWithin disk fatPrivate fatPrivate.header.rootDirEntries.toNat total) :
    fat16GetItemsForDirectory disk fatPrivate (rootDirSectorPos fatPrivate.header) =
      .ok total := by
  obtain ⟨stream, hsome, hloop⟩ := h
  have hlt := fatPrivate.header.rootDirEntries.isLt
  obtain ⟨more, hmore⟩ := Nat.exists_eq_add_of_le
    (show fatPrivate.header.rootDirEntries.toNat ≤ directoryScanFuel by
      unfold directoryScanFuel
      omega)
  simp only [fat16GetItemsForDirectory, hsome]
  rw [hmore]
  exact fat16GetItemsForDirectoryLoop_add hloop more

end Scan

/-- Whatever header has been read, the scan of the root directory stays inside
it exactly when the directory has an end marker that the scan can come to. -/
theorem fat16GetRootDirectory_staysInside_iff
    (disk : Disk) (hdisk : disk.primary = true)
    (fatPrivate : FatPrivate) (hstream : fatPrivate.directoryStream.isSome = true) :
    ScanStaysInside disk fatPrivate ↔ EndsInside disk fatPrivate.header := by
  constructor
  · rintro ⟨⟨total, hscan, -⟩, -⟩
    exact endsInside_of_scansWithin hdisk rfl hscan
  · intro h
    obtain ⟨total, htotal, hscan⟩ := scansWithin_of_endsInside hdisk hstream h
    have hitems := fat16GetItemsForDirectory_of_scansWithin hscan
    refine ⟨⟨total, hscan, hitems, Nat.le_of_lt htotal⟩, ?_⟩
    intro dirMemory directory hroot loadFatDirectory mem name
    obtain ⟨hbuffer, -, hcount, -⟩ := fat16GetRootDirectory_inv hdisk hroot
    refine fat16FindItemInDirectory_returns loadFatDirectory mem ?_ name
    rw [FatDirectory.Inside, hbuffer, Disk.length_bytes,
      ← Except.ok.inj (hitems.symm.trans hcount), Int.toNat_natCast]
    exact Nat.mul_le_mul_right _ (Nat.le_of_lt htotal)

/-- A disk with one table of one sector and a root directory of 16 entries at
position 1024, whose entries are in use up to the position `used`. -/
def rootDisk (used : Nat) : Disk where
  primary := true
  content := fun pos =>
    if pos = 13 ∨ pos = 14 ∨ pos = 16 ∨ pos = 22 then 1
    else if pos = 17 then 16
    else if pos = 38 then fatSignature
    else if 1024 ≤ pos ∧ pos < used then 0x41
    else 0

/-- The last entry is the end marker. -/
theorem fat16GetRootDirectory_staysInside_fifteen :
    ScanStaysInside (rootDisk 1504) (mountedPrivate (rootDisk 1504)) :=
  (fat16GetRootDirectory_staysInside_iff (rootDisk 1504) rfl (mountedPrivate (rootDisk 1504))
    rfl).mpr ⟨by decide, 15, by decide, by decide, by decide⟩

/-- On every disk whose header is accepted the scan stays inside the directory. -/
def RootScansStayInside : Prop :=
  ∀ disk : Disk, disk.primary = true → HeaderAccepted disk →
    ScanStaysInside disk (mountedPrivate disk)

/-- All 16 entries are in use, and so is what follows them on the disk. -/
theorem rootScansStayInside_false : ¬ RootScansStayInside := by
  intro h
  obtain ⟨⟨total, hscan, -⟩, -⟩ := h (rootDisk 1568) rfl (by decide)
  obtain ⟨-, m, hm, hmarker, -⟩ := endsInside_of_scansWithin rfl rfl hscan
  have hused : ∀ k < 16, (entryAt (rootDisk 1568) 1024 k).firstByte ≠ 0x00 := by decide
  have hpos : (rootScanPos (mountedPrivate (rootDisk 1568)).header).toNat = 1024 := by decide
  rw [hpos] at hmarker
  exact hused m hm hmarker

end PeachOS
