import PeachOS.Lib.Candidate
import PeachOS.Loader.Elf

/-!
# The extents of a program

`elf_process_pheaders` keeps the lowest address of the segments and where the
file holds it, with 0 for no address.  The upper end is kept by the same
comparison, so that it is the lowest end of a segment, not the highest.
-/

namespace PeachOS

open Lib

/-- The headers of type `PT_LOAD`. -/
def loadPhdrs (phdrs : List Phdr) : List Phdr :=
  phdrs.filter fun phdr => phdr.pType = ptLoad

/-- `p_vaddr + p_filesz`, and whether the sum is one of addresses. -/
def Phdr.endAddress (phdr : Phdr) : Ptr := phdr.pVaddr + phdr.pFilesz

def Phdr.Unwrapped (phdr : Phdr) : Prop :=
  phdr.pVaddr.toNat + phdr.pFilesz.toNat < 2 ^ 32

/-- The file is recorded to start with a segment that starts lowest and to end
with one that ends highest. -/
structure ElfExtents (elfMemory : Ptr) (phdrs : List Phdr) (file : ElfFile) : Prop where
  base : ∃ phdr, MinimalFor (· ∈ loadPhdrs phdrs) (fun p => p.pVaddr.toNat) phdr ∧
    file.virtualBaseAddress = phdr.pVaddr ∧
    file.physicalBaseAddress = elfMemory + phdr.pOffset
  ending : ∃ phdr, MaximalFor (· ∈ loadPhdrs phdrs) (fun p => p.endAddress.toNat) phdr ∧
    file.virtualEndAddress = phdr.endAddress ∧
    file.physicalEndAddress = elfMemory + phdr.pOffset + phdr.pFilesz

/-- The program headers of a file, in the order of the table. -/
def elfFilePhdrs (m : Memory) (header : Ptr) : List Phdr :=
  filePhdrs m (elfPheader m header) 0 (ePhnum m header).toNat

/-- An `elf_file` as it is after `elf_file_new` and the read of the file. -/
def freshElfFile (elfMemory : Ptr) : ElfFile := ⟨elfMemory, 0, 0, 0, 0⟩

theorem elfProcessPheaders_eq_foldl
    (m : Memory) (header : Ptr) (i : Nat) (file : ElfFile) (count : Nat) :
    (elfProcessPheaders m header i file count).2 =
      (loadPhdrs (filePhdrs m (elfPheader m header) i count)).foldl
        (fun file phdr => (elfProcessPhdrPtLoad file phdr).2) file := by
  induction count generalizing i file with
  | zero => rfl
  | succ count ih =>
      have hlist : filePhdrs m (elfPheader m header) i (count + 1) =
          phdrAt m (phdrIndex (elfPheader m header) i) ::
            filePhdrs m (elfPheader m header) (i + 1) count := rfl
      rw [elfProcessPheaders, hlist]
      generalize phdrAt m (phdrIndex (elfPheader m header) i) = phdr
      dsimp only
      rw [elfProcessPheader_status, if_neg (by decide), ih]
      by_cases hload : phdr.pType = ptLoad
      · rw [elfProcessPheader, if_pos hload]
        simp [loadPhdrs, hload]
      · rw [elfProcessPheader, if_neg hload]
        simp [loadPhdrs, hload]

/-- An address and its place in memory are taken over unless a lower address is
recorded; 0 is for none. -/
def keepLower (recorded : Ptr × Ptr) (address place : Ptr) : Ptr × Ptr :=
  if address ≤ recorded.1 ∨ recorded.1 = 0 then (address, place) else recorded

def ElfFile.base (file : ElfFile) : Ptr × Ptr :=
  (file.virtualBaseAddress, file.physicalBaseAddress)

def ElfFile.ending (file : ElfFile) : Ptr × Ptr :=
  (file.virtualEndAddress, file.physicalEndAddress)

/-- Both ends are recorded by the same rule. -/
theorem elfProcessPhdrPtLoad_eq
    (file : ElfFile) (phdr : Phdr) :
    (elfProcessPhdrPtLoad file phdr).2.elfMemory = file.elfMemory ∧
      (elfProcessPhdrPtLoad file phdr).2.base =
        keepLower file.base phdr.pVaddr (file.elfMemory + phdr.pOffset) ∧
      (elfProcessPhdrPtLoad file phdr).2.ending =
        keepLower file.ending phdr.endAddress
          (file.elfMemory + phdr.pOffset + phdr.pFilesz) := by
  unfold elfProcessPhdrPtLoad keepLower ElfFile.base ElfFile.ending
  refine ⟨?_, ?_, ?_⟩
  · dsimp only
    split_ifs <;> rfl
  · dsimp only
    split_ifs <;> rfl
  · unfold Phdr.endAddress
    dsimp only
    by_cases hbase : phdr.pVaddr ≤ file.virtualBaseAddress ∨ file.virtualBaseAddress = 0
    · rw [if_pos hbase]
      split_ifs <;> rfl
    · rw [if_neg hbase]
      split_ifs <;> rfl

theorem elfProcessPhdrPtLoad_foldl
    (phdrs : List Phdr) (file : ElfFile) :
    (phdrs.foldl (fun file phdr => (elfProcessPhdrPtLoad file phdr).2) file).base =
        phdrs.foldl (fun recorded phdr =>
          keepLower recorded phdr.pVaddr (file.elfMemory + phdr.pOffset)) file.base ∧
      (phdrs.foldl (fun file phdr => (elfProcessPhdrPtLoad file phdr).2) file).ending =
        phdrs.foldl (fun recorded phdr => keepLower recorded phdr.endAddress
          (file.elfMemory + phdr.pOffset + phdr.pFilesz)) file.ending := by
  induction phdrs generalizing file with
  | nil => exact ⟨rfl, rfl⟩
  | cons phdr phdrs ih =>
      obtain ⟨hmemory, hbase, hending⟩ := elfProcessPhdrPtLoad_eq file phdr
      have hrest := ih (elfProcessPhdrPtLoad file phdr).2
      rw [hmemory, hbase, hending] at hrest
      exact hrest

section KeepLower

variable {α : Type*} {address place : α → Ptr}

/-- What is recorded is the address of `x`, which is not 0, and its place. -/
def Records (address place : α → Ptr) (recorded : Ptr × Ptr) (x : α) : Prop :=
  address x ≠ 0 ∧ recorded = (address x, place x)

theorem records_of_unset
    {recorded : Ptr × Ptr} {y : α} (hy : address y ≠ 0) (hunset : recorded.1 = 0) :
    Records address place (keepLower recorded (address y) (place y)) y :=
  ⟨hy, if_pos (Or.inr hunset)⟩

theorem records_step
    {recorded : Ptr × Ptr} {x y : α} (hy : address y ≠ 0)
    (hx : Records address place recorded x) :
    (address y).toNat ≤ (address x).toNat ∧
        Records address place (keepLower recorded (address y) (place y)) y ∨
      (address x).toNat ≤ (address y).toNat ∧
        Records address place (keepLower recorded (address y) (place y)) x := by
  obtain ⟨hne, rfl⟩ := hx
  rcases Nat.lt_or_ge (address x).toNat (address y).toNat with hlt | hge
  · refine Or.inr ⟨Nat.le_of_lt hlt, hne, if_neg ?_⟩
    rintro (h | h)
    · exact absurd (BitVec.le_def.mp h) (Nat.not_le.mpr hlt)
    · exact hne h
  · exact Or.inl ⟨hge, hy, if_pos (Or.inl (BitVec.le_def.mpr hge))⟩

/-- The lowest of the addresses is recorded, with its place. -/
theorem foldl_keepLower
    {l : List α} (hl : l ≠ []) (hne : ∀ x ∈ l, address x ≠ 0) (unset : Ptr) :
    ∃ x, MinimalFor (· ∈ l) (fun y => (address y).toNat) x ∧
      l.foldl (fun recorded y => keepLower recorded (address y) (place y)) (0, unset) =
        (address x, place x) := by
  obtain ⟨x, hleast, -, hheld⟩ := foldl_unset_least (fun y => (address y).toNat)
    (Records address place) (fun recorded => recorded.1 = 0)
    (fun _ y hy => records_of_unset (hne y hy)) (fun _ _ y hy => records_step (hne y hy))
    (s := ((0 : Ptr), unset)) rfl hl
  exact ⟨x, hleast, hheld⟩

end KeepLower

section Extents

variable {m : Memory} {elfMemory : Ptr}
  (hload : loadPhdrs (elfFilePhdrs m elfMemory) ≠ [])
  (hvaddr : ∀ phdr ∈ loadPhdrs (elfFilePhdrs m elfMemory), phdr.pVaddr ≠ 0)
  (hwrap : ∀ phdr ∈ loadPhdrs (elfFilePhdrs m elfMemory), phdr.Unwrapped)

/-- The sum of an address and a length that does not wrap is not 0. -/
theorem Phdr.endAddress_ne_zero
    {phdr : Phdr} (hvaddr : phdr.pVaddr ≠ 0) (hwrap : phdr.Unwrapped) :
    phdr.endAddress ≠ 0 := by
  intro h
  have hsum : phdr.endAddress.toNat = phdr.pVaddr.toNat + phdr.pFilesz.toNat := by
    rw [Phdr.endAddress, BitVec.toNat_add, Nat.mod_eq_of_lt hwrap]
  have hpos : phdr.pVaddr.toNat ≠ 0 := fun h0 => hvaddr (BitVec.eq_of_toNat_eq h0)
  rw [h] at hsum
  simp at hsum
  omega

include hload hvaddr hwrap

/-- The recorded start is the lowest start of a segment, and the recorded end
the lowest end. -/
theorem elfProcessPheaders_lowest
    {file : ElfFile}
    (hfile : (elfProcessPheaders m elfMemory 0 (freshElfFile elfMemory)
      (ePhnum m elfMemory).toNat).2 = file) :
    (∃ phdr, MinimalFor (· ∈ loadPhdrs (elfFilePhdrs m elfMemory)) (fun p => p.pVaddr.toNat)
        phdr ∧ file.base = (phdr.pVaddr, elfMemory + phdr.pOffset)) ∧
      ∃ phdr, MinimalFor (· ∈ loadPhdrs (elfFilePhdrs m elfMemory))
        (fun p => p.endAddress.toNat) phdr ∧
        file.ending = (phdr.endAddress, elfMemory + phdr.pOffset + phdr.pFilesz) := by
  rw [elfProcessPheaders_eq_foldl, ← elfFilePhdrs] at hfile
  obtain ⟨hbase, hending⟩ := elfProcessPhdrPtLoad_foldl
    (loadPhdrs (elfFilePhdrs m elfMemory)) (freshElfFile elfMemory)
  rw [hfile] at hbase hending
  rw [hbase, hending]
  exact ⟨foldl_keepLower hload hvaddr 0,
    foldl_keepLower hload (fun phdr hmem =>
      Phdr.endAddress_ne_zero (hvaddr phdr hmem) (hwrap phdr hmem)) 0⟩

end Extents

/-- The extents that the headers are processed to are those of the segments
exactly when all segments end at the same address. -/
theorem elfProcessPheaders_extents_iff
    (m : Memory) (elfMemory : Ptr)
    (hload : loadPhdrs (elfFilePhdrs m elfMemory) ≠ [])
    (hvaddr : ∀ phdr ∈ loadPhdrs (elfFilePhdrs m elfMemory), phdr.pVaddr ≠ 0)
    (hwrap : ∀ phdr ∈ loadPhdrs (elfFilePhdrs m elfMemory), phdr.Unwrapped) :
    ElfExtents elfMemory (elfFilePhdrs m elfMemory)
        (elfProcessPheaders m elfMemory 0 (freshElfFile elfMemory)
          (ePhnum m elfMemory).toNat).2 ↔
      ∀ phdr ∈ loadPhdrs (elfFilePhdrs m elfMemory),
        ∀ phdr' ∈ loadPhdrs (elfFilePhdrs m elfMemory), phdr.endAddress = phdr'.endAddress := by
  obtain ⟨⟨first, hfirst, hbase⟩, last, hlast, hending⟩ :=
    elfProcessPheaders_lowest hload hvaddr hwrap rfl
  have hsame := maximalFor_iff_of_minimalFor hlast
  simp only [← BitVec.toNat_eq] at hsame
  constructor
  · rintro ⟨-, phdr, hgreatest, hend, -⟩
    have hlastEnd : phdr.endAddress = last.endAddress := hend.symm.trans (Prod.mk.inj hending).1
    refine fun p hp q hq => hsame.mp ⟨hlast.prop, fun z hz _ => ?_⟩ p q hp hq
    exact (hgreatest.le hz).trans (congrArg BitVec.toNat hlastEnd).le
  · intro h
    refine ⟨⟨first, hfirst, Prod.mk.inj hbase⟩, last, ?_, Prod.mk.inj hending⟩
    exact hsame.mpr fun p q hp hq => h p hp q hq

/-- A file whose second segment starts a page above the first and has `pFilesz`
bytes. -/
def twoSegmentWords (pFilesz : Word) : List Word :=
  [0x464c457f, 0x00010101, 0, 0, 0x00030002, 1, 0x400000, 52, 0, 0, 0x00200034, 0x00000002, 0,
    1, 0x1000, 0x400000, 0x400000, 0x1010, 0x1010, 5, 4096,
    1, 0x3000, 0x401000, 0x401000, pFilesz, pFilesz, 6, 4096]

def twoSegments (pFilesz : Word) : Memory :=
  Pages.bytes fun page i => if page = 0x1100000 then (twoSegmentWords pFilesz).getD i 0 else 0

theorem twoSegments_phdrs
    (pFilesz : Word) (h : pFilesz = 0x10 ∨ pFilesz = 0x20) :
    loadPhdrs (elfFilePhdrs (twoSegments pFilesz) 0x1100000) =
      [⟨1, 0x1000, 0x400000, 0x1010, 0x1010, 5⟩, ⟨1, 0x3000, 0x401000, pFilesz, pFilesz, 6⟩] := by
  rcases h with rfl | rfl <;> decide

/-- Two segments that end at the same address. -/
theorem elfProcessPheaders_extents_sameEnd :
    ElfExtents 0x1100000 (elfFilePhdrs (twoSegments 0x10) 0x1100000)
      (elfProcessPheaders (twoSegments 0x10) 0x1100000 0 (freshElfFile 0x1100000)
        (ePhnum (twoSegments 0x10) 0x1100000).toNat).2 := by
  have hphdrs := twoSegments_phdrs 0x10 (Or.inl rfl)
  refine (elfProcessPheaders_extents_iff (twoSegments 0x10) 0x1100000 ?_ ?_ ?_).mpr ?_
  · rw [hphdrs]
    exact List.cons_ne_nil _ _
  · rw [hphdrs]
    decide
  · rw [hphdrs]
    unfold Phdr.Unwrapped
    decide
  · rw [hphdrs]
    decide

/-- The extents of every program are recorded. -/
def RecordsExtents : Prop :=
  ∀ (m : Memory) (elfMemory : Ptr), loadPhdrs (elfFilePhdrs m elfMemory) ≠ [] →
    (∀ phdr ∈ loadPhdrs (elfFilePhdrs m elfMemory), phdr.pVaddr ≠ 0) →
    (∀ phdr ∈ loadPhdrs (elfFilePhdrs m elfMemory), phdr.Unwrapped) →
    ElfExtents elfMemory (elfFilePhdrs m elfMemory)
      (elfProcessPheaders m elfMemory 0 (freshElfFile elfMemory) (ePhnum m elfMemory).toNat).2

/-- Of two segments the end of the first is recorded, although the second ends
16 bytes behind it. -/
theorem recordsExtents_false : ¬ RecordsExtents := by
  intro h
  have hphdrs := twoSegments_phdrs 0x20 (Or.inr rfl)
  obtain ⟨-, phdr, hgreatest, hend, -⟩ := h (twoSegments 0x20) 0x1100000
    (by rw [hphdrs]; exact List.cons_ne_nil _ _)
    (by rw [hphdrs]; decide) (by rw [hphdrs]; unfold Phdr.Unwrapped; decide)
  have hrecorded : (elfProcessPheaders (twoSegments 0x20) 0x1100000 0 (freshElfFile 0x1100000)
      (ePhnum (twoSegments 0x20) 0x1100000).toNat).2.virtualEndAddress = 0x401010 := by
    decide
  have hsecond : (⟨1, 0x3000, 0x401000, 0x20, 0x20, 6⟩ : Phdr) ∈
      loadPhdrs (elfFilePhdrs (twoSegments 0x20) 0x1100000) := by
    rw [hphdrs]
    decide
  have hle := hgreatest.le hsecond
  rw [← hend, hrecorded] at hle
  exact absurd hle (by decide)

end PeachOS
