import PeachOS.Loader.Segments

/-!
# Where headers are read

`elf_load` and `process_map_elf` read the header of a file and the program headers
that it counts from where it says they are.  Neither of them looks at the length
of the file, so both stay inside it only when the header keeps to it.
-/

namespace PeachOS

open Lib

/-- The `n` bytes at `p` are bytes of the file. -/
def InFile (elfMemory : Ptr) (filesize : Word) (p : Ptr) (n : Nat) : Prop :=
  elfMemory.toNat ≤ p.toNat ∧ p.toNat + n ≤ elfMemory.toNat + filesize.toNat

def headerSize : Nat := 52

/-- The status of `elf_load` on a file that could be opened and has been read to
`elfMemory`; nothing can be read of an empty one. -/
def elfLoadStatus (m : Memory) (elfMemory : Ptr) (filesize : Word) : Int :=
  if filesize = 0 then -einvarg else (elfProcessLoaded m ⟨elfMemory, 0, 0, 0, 0⟩).1

/-- The program headers that the loop of `elf_process_pheaders` reads. -/
def elfPheadersReads (m : Memory) (header : Ptr) (i : Nat) (file : ElfFile) : Nat → List Ptr
  | 0 => []
  | count + 1 =>
      let phdr := phdrIndex (elfPheader m header) i
      let (res, file) := elfProcessPheader file (phdrAt m phdr)
      if res < 0 then
        [phdr]
      else
        phdr :: elfPheadersReads m header (i + 1) file count

/-- The program headers that the loop of `process_map_elf` reads. -/
def mapElfReads (directory elfMemory phdrs : Ptr) (mem : Pages) (i : Nat) : Nat → List Ptr
  | 0 => []
  | fuel + 1 =>
      if i < (ePhnum mem.bytes elfMemory).toNat then
        let phdr := phdrIndex phdrs i
        let (res, mem) := mapPhdr mem directory elfMemory (phdrAt mem.bytes phdr)
        if res < 0 then
          [phdr]
        else
          phdr :: mapElfReads directory elfMemory phdrs mem (i + 1) fuel
      else
        []

/-- A load that is not refused reads bytes of the file only. -/
structure ReadsInside (m : Memory) (mem : Pages) (directory elfMemory : Ptr)
    (filesize : Word) : Prop where
  header : InFile elfMemory filesize elfMemory headerSize
  load : ∀ p ∈ elfPheadersReads m elfMemory 0 ⟨elfMemory, 0, 0, 0, 0⟩ (ePhnum m elfMemory).toNat,
    InFile elfMemory filesize p phdrSize
  map : ∀ p ∈ mapElfReads directory elfMemory (elfPheader mem.bytes elfMemory) mem 0 65536,
    InFile elfMemory filesize p phdrSize

/-- The load or the mapping refuses the file, or both read inside it. -/
def RefusedOrInside (m : Memory) (mem : Pages) (directory elfMemory : Ptr)
    (filesize : Word) : Prop :=
  elfLoadStatus m elfMemory filesize < 0 ∨ (processMapElf mem directory elfMemory).1 < 0 ∨
    ReadsInside m mem directory elfMemory filesize

/-- What the header says of its program headers keeps to the file. -/
structure HeadersInside (m : Memory) (elfMemory : Ptr) (filesize : Word) : Prop where
  header : headerSize ≤ filesize.toNat
  table : ePhnum m elfMemory = 0 ∨
    (ePhoff m elfMemory).toNat + phdrSize * (ePhnum m elfMemory).toNat ≤ filesize.toNat

/-- Between its load, with memory `m`, and its mapping a file keeps its bytes, and
the tables of the directory that is made for it are on other pages. -/
structure ElfKept (m : Memory) (mem : Pages) (directory elfMemory : Ptr)
    (filesize : Word) : Prop where
  pageDirectory : PageDirectory mem directory
  inside : elfMemory.toNat + filesize.toNat ≤ 2 ^ 32
  kept : ∀ a : Ptr, (a - elfMemory).toNat < filesize.toNat → mem.bytes a = m a
  apart : ∀ a : Ptr, (a - elfMemory).toNat < filesize.toNat → ∀ j,
    pagingAlignToLowerPage a ≠ tableAt mem directory j

theorem toNat_phdrIndex
    (phdrs : Ptr) (i : Nat) :
    (phdrIndex phdrs i).toNat = (phdrs.toNat + phdrSize * i) % 2 ^ 32 := by
  rw [phdrIndex, BitVec.toNat_add, BitVec.toNat_ofNat]
  omega

/-- No header ends the loop of the load. -/
theorem mem_elfPheadersReads_iff
    {m : Memory} {header p : Ptr} {i count : Nat} {file : ElfFile} :
    p ∈ elfPheadersReads m header i file count ↔
      ∃ j, i ≤ j ∧ j < i + count ∧ p = phdrIndex (elfPheader m header) j := by
  induction count generalizing i file with
  | zero =>
      rw [elfPheadersReads]
      refine iff_of_false List.not_mem_nil ?_
      rintro ⟨j, hfirst, hlast, -⟩
      omega
  | succ count ih =>
      rw [elfPheadersReads]
      dsimp only
      rw [elfProcessPheader_status, if_neg (by decide), List.mem_cons, ih]
      constructor
      · rintro (rfl | ⟨j, hfirst, hlast, rfl⟩)
        · exact ⟨i, le_rfl, by omega, rfl⟩
        · exact ⟨j, by omega, by omega, rfl⟩
      · rintro ⟨j, hfirst, hlast, rfl⟩
        rcases Nat.eq_or_lt_of_le hfirst with rfl | hlt
        · exact Or.inl rfl
        · exact Or.inr ⟨j, hlt, by omega, rfl⟩

/-- The mapping reads the headers that it comes to. -/
theorem exists_of_mem_mapElfReads
    {directory elfMemory phdrs p : Ptr} {mem : Pages} {i fuel : Nat}
    (h : p ∈ mapElfReads directory elfMemory phdrs mem i fuel) :
    ∃ j < (elfPhdrs directory elfMemory phdrs mem i fuel).length, p = phdrIndex phdrs (i + j) := by
  induction fuel generalizing mem i with
  | zero => exact absurd h List.not_mem_nil
  | succ fuel ih =>
      rw [mapElfReads] at h
      rw [elfPhdrs]
      by_cases hi : i < (ePhnum mem.bytes elfMemory).toNat
      · rw [if_pos hi] at h ⊢
        dsimp only at h ⊢
        rw [List.length_cons]
        split_ifs at h
        · exact ⟨0, Nat.succ_pos _, List.mem_singleton.mp h⟩
        · rcases List.mem_cons.mp h with rfl | h
          · exact ⟨0, Nat.succ_pos _, rfl⟩
          · obtain ⟨j, hj, rfl⟩ := ih h
            exact ⟨j + 1, Nat.succ_lt_succ hj, by rw [Nat.add_assoc, Nat.add_comm 1 j]⟩
      · rw [if_neg hi] at h
        exact absurd h List.not_mem_nil

section Reads

variable {m : Memory} {mem : Pages} {directory elfMemory : Ptr} {filesize : Word}

/-- An ELF program has program headers somewhere. -/
theorem ePhoff_of_valid
    (h : elfValidateLoaded m elfMemory = 0) :
    ePhoff m elfMemory ≠ 0 := by
  intro h0
  have hchecks : elfHasProgramHeader m elfMemory = false := decide_eq_false (not_not.mpr h0)
  rw [elfValidateLoaded, hchecks, Bool.and_false, Bool.false_and] at h
  exact absurd h (by decide)

theorem elfPheader_of_valid
    (h : elfValidateLoaded m elfMemory = 0) :
    elfPheader m elfMemory = elfMemory + ePhoff m elfMemory :=
  if_neg (ePhoff_of_valid h)

theorem elfProcessLoaded_neg_iff
    (m : Memory) (file : ElfFile) :
    (elfProcessLoaded m file).1 < 0 ↔ elfValidateLoaded m file.elfMemory ≠ 0 := by
  have hstatus : elfValidateLoaded m file.elfMemory = 0 ∨
      elfValidateLoaded m file.elfMemory = -einformat := by
    rw [elfValidateLoaded]
    exact ite_eq_or_eq _ _ _
  rw [elfProcessLoaded]
  rcases hstatus with hvalid | hinvalid
  · rw [hvalid, if_neg (by decide), elfProcessPheaders_status]
    decide
  · rw [hinvalid, if_pos (by decide)]
    exact iff_of_true (show -einformat < 0 by decide) (by decide)

theorem elfLoadStatus_neg_iff
    (m : Memory) (elfMemory : Ptr) (filesize : Word) :
    elfLoadStatus m elfMemory filesize < 0 ↔
      filesize = 0 ∨ elfValidateLoaded m elfMemory ≠ 0 := by
  rw [elfLoadStatus]
  by_cases hsize : filesize = 0
  · rw [if_pos hsize]
    exact iff_of_true (by decide) (Or.inl hsize)
  · rw [if_neg hsize, or_iff_right hsize]
    exact elfProcessLoaded_neg_iff m _

/-- The mapping is refused when one of the headers that it comes to is. -/
theorem processMapElf_neg_iff
    (hdir : PageDirectory mem directory) (elfMemory : Ptr) :
    (processMapElf mem directory elfMemory).1 < 0 ↔
      ∃ phdr ∈ mappedPhdrs mem directory elfMemory, ¬ phdr.Mapped elfMemory := by
  rw [processMapElf_eq]
  by_cases hrefused : ∃ phdr ∈ mappedPhdrs mem directory elfMemory, ¬ phdr.Mapped elfMemory
  · rw [mapPhdrs_refused hdir hrefused]
    exact iff_of_true (by decide) hrefused
  · have hmapped : ∀ phdr ∈ mappedPhdrs mem directory elfMemory, phdr.Mapped elfMemory :=
      fun phdr hmem => by_contra fun hnot => hrefused ⟨phdr, hmem, hnot⟩
    obtain ⟨mem', hmap, -⟩ := mapPhdrs_spec hdir hmapped
    rw [hmap]
    exact iff_of_false (show ¬ (0 : Int) < 0 by decide) hrefused

/-- Records that are read one after another, the first one in the file, do not
leave it by going round the address space. -/
theorem inFile_phdrs
    {phdrs : Ptr} {n : Nat} {offset : Word}
    (hphdrs : phdrs = elfMemory + offset)
    (h : ∀ j < n + 1, InFile elfMemory filesize (phdrIndex phdrs j) phdrSize) :
    offset.toNat + phdrSize * (n + 1) ≤ filesize.toNat := by
  have hphdrs : phdrs.toNat = (elfMemory.toNat + offset.toNat) % 2 ^ 32 := by
    rw [hphdrs, BitVec.toNat_add]
  have hoffset := offset.isLt
  have hsize := filesize.isLt
  induction n with
  | zero =>
      obtain ⟨hfirst, hlast⟩ := h 0 Nat.one_pos
      rw [toNat_phdrIndex] at hfirst hlast
      unfold phdrSize at *
      omega
  | succ n ih =>
      have hbefore := ih fun j hj => h j (Nat.lt_succ_of_lt hj)
      obtain ⟨hfirst, hlast⟩ := h (n + 1) (Nat.lt_succ_self _)
      rw [toNat_phdrIndex] at hfirst hlast
      unfold phdrSize at *
      omega

/-- A table that the file has room for is read inside it. -/
theorem inFile_phdrIndex
    {n j : Nat} (hroom : elfMemory.toNat + filesize.toNat ≤ 2 ^ 32) {offset : Word}
    (htable : offset.toNat + phdrSize * n ≤ filesize.toNat) (hj : j < n) :
    InFile elfMemory filesize (phdrIndex (elfMemory + offset) j) phdrSize := by
  have hsize := filesize.isLt
  rw [InFile, toNat_phdrIndex, BitVec.toNat_add]
  unfold phdrSize at *
  omega

/-- A load that reads inside the file has a header that keeps to it. -/
theorem ReadsInside.headersInside
    (h : ReadsInside m mem directory elfMemory filesize)
    (hvalid : elfValidateLoaded m elfMemory = 0) :
    HeadersInside m elfMemory filesize where
  header := by
    have hlast := h.header.2
    omega
  table := by
    rcases Nat.eq_zero_or_pos (ePhnum m elfMemory).toNat with hnone | hsome
    · exact Or.inl (BitVec.eq_of_toNat_eq hnone)
    · obtain ⟨n, hn⟩ := Nat.exists_eq_succ_of_ne_zero (Nat.ne_of_gt hsome)
      refine Or.inr ?_
      rw [hn]
      refine inFile_phdrs (elfPheader_of_valid hvalid) fun j hj => ?_
      refine h.load _ (mem_elfPheadersReads_iff.mpr ⟨j, Nat.zero_le j, ?_, rfl⟩)
      omega

/-- The mapping finds the header that the load has found. -/
theorem ElfKept.elfPheader
    (hkept : ElfKept m mem directory elfMemory filesize) (hsize : headerSize ≤ filesize.toNat) :
    elfPheader mem.bytes elfMemory = elfPheader m elfMemory := by
  have hphoff : ePhoff mem.bytes elfMemory = ePhoff m elfMemory := by
    refine load32_congr fun a ha => hkept.kept a ?_
    have hsplit : a - elfMemory = a - (elfMemory + 28) + 28 := by
      rw [← sub_sub, sub_add_cancel]
    have h28 : (28 : Ptr).toNat = 28 := rfl
    unfold headerSize at hsize
    rw [hsplit, BitVec.toNat_add, h28]
    omega
  rw [PeachOS.elfPheader, PeachOS.elfPheader, hphoff]

/-- The headers that the mapping comes to are those of the load. -/
theorem ElfKept.mappedPhdrs
    (hkept : ElfKept m mem directory elfMemory filesize)
    (hvalid : elfValidateLoaded m elfMemory = 0) (h : HeadersInside m elfMemory filesize) :
    mappedPhdrs mem directory elfMemory =
      filePhdrs m (PeachOS.elfPheader m elfMemory) 0 (ePhnum m elfMemory).toNat := by
  have hlt : (ePhnum m elfMemory).toNat < 65536 := (ePhnum m elfMemory).isLt
  have hbyte (a : Ptr) (ha : (a - elfMemory).toNat < filesize.toNat) :=
    And.intro (hkept.kept a ha) (hkept.apart a ha)
  rw [PeachOS.mappedPhdrs, hkept.elfPheader h.header]
  refine elfPhdrs_of_apart (m := m) (n := (ePhnum m elfMemory).toNat) hkept.pageDirectory
    (by omega) rfl (fun a ha => hbyte a ?_) fun a ha => hbyte a ?_
  · exact Nat.lt_of_lt_of_le ha h.header
  · rcases h.table with hnone | htable
    · rw [hnone] at ha
      exact absurd ha (Nat.not_lt_zero _)
    · have hsplit : a - elfMemory = a - (elfMemory + ePhoff m elfMemory) + ePhoff m elfMemory := by
        rw [← sub_sub, sub_add_cancel]
      rw [elfPheader_of_valid hvalid] at ha
      rw [hsplit, BitVec.toNat_add]
      omega

/-- A header that keeps to the file has all records read inside it. -/
theorem HeadersInside.readsInside
    (h : HeadersInside m elfMemory filesize)
    (hkept : ElfKept m mem directory elfMemory filesize)
    (hvalid : elfValidateLoaded m elfMemory = 0) :
    ReadsInside m mem directory elfMemory filesize := by
  have hrecord (j : Nat) (hj : j < (ePhnum m elfMemory).toNat) :
      InFile elfMemory filesize (phdrIndex (PeachOS.elfPheader m elfMemory) j) phdrSize := by
    rcases h.table with hnone | htable
    · rw [hnone] at hj
      exact absurd hj (Nat.not_lt_zero j)
    · rw [elfPheader_of_valid hvalid]
      exact inFile_phdrIndex hkept.inside htable hj
  refine ⟨⟨le_rfl, Nat.add_le_add_left h.header _⟩, fun p hp => ?_, fun p hp => ?_⟩
  · obtain ⟨j, -, hj, rfl⟩ := mem_elfPheadersReads_iff.mp hp
    exact hrecord j (by omega)
  · rw [hkept.elfPheader h.header] at hp
    obtain ⟨j, hj, rfl⟩ := exists_of_mem_mapElfReads hp
    have hmapped := hkept.mappedPhdrs hvalid h
    rw [PeachOS.mappedPhdrs, hkept.elfPheader h.header] at hmapped
    rw [hmapped, filePhdrs, List.length_map, List.length_range'] at hj
    rw [Nat.zero_add]
    exact hrecord j hj

/-- A file is refused, or read inside its bounds, if and only if it is empty or
not an ELF program, has a program header that cannot be mapped, or has the header
and the program headers inside it. -/
theorem refusedOrInside_iff
    (hkept : ElfKept m mem directory elfMemory filesize) :
    RefusedOrInside m mem directory elfMemory filesize ↔
      filesize = 0 ∨ elfValidateLoaded m elfMemory ≠ 0 ∨
        (∃ phdr ∈ mappedPhdrs mem directory elfMemory, ¬ phdr.Mapped elfMemory) ∨
        HeadersInside m elfMemory filesize := by
  rw [RefusedOrInside, elfLoadStatus_neg_iff, processMapElf_neg_iff hkept.pageDirectory, or_assoc]
  refine or_congr_right ?_
  by_cases hvalid : elfValidateLoaded m elfMemory = 0
  · refine or_congr_right (or_congr_right ⟨?_, ?_⟩)
    · exact fun h => h.headersInside hvalid
    · exact fun h => h.readsInside hkept hvalid
  · exact iff_of_true (Or.inl hvalid) (Or.inl hvalid)

end Reads

/-- The program of one segment, in the memory of its own process. -/
theorem elfPages_kept : ElfKept (elfPages 0 84).bytes (elfPages 0 84) 0 0x1100000 84 where
  pageDirectory := elfPages_directory 0 84
  inside := by decide
  kept := fun _ _ => rfl
  apart := by
    intro a ha
    refine firstPages_apart rfl ?_
    have h84 : (84 : Word).toNat = 84 := rfl
    have hstart : (0x1100000 : Ptr).toNat = 0x1100000 := rfl
    rw [BitVec.toNat_sub, h84, hstart] at ha
    omega

/-- All of it is read inside its 84 bytes. -/
theorem refusedOrInside_iff_onePage :
    RefusedOrInside (elfPages 0 84).bytes (elfPages 0 84) 0 0x1100000 84 :=
  (refusedOrInside_iff elfPages_kept).mpr
    (Or.inr (Or.inr (Or.inr ⟨by decide, Or.inr (by decide)⟩)))

/-- No program makes the kernel read its headers outside the file. -/
def AlwaysInside : Prop :=
  ∀ m mem directory elfMemory filesize, ElfKept m mem directory elfMemory filesize →
    RefusedOrInside m mem directory elfMemory filesize

/-- A file that ends behind its header, in a block that still holds the rest of it. -/
theorem alwaysInside_false : ¬ AlwaysInside := by
  intro h
  have hkept : ElfKept (elfPages 0 84).bytes (elfPages 0 84) 0 0x1100000 52 :=
    ⟨elfPages_kept.pageDirectory, by decide, fun _ _ => rfl,
      fun a ha => elfPages_kept.apart a (Nat.lt_trans ha (by decide))⟩
  rcases h _ _ _ _ _ hkept with hload | hmap | hreads
  · exact absurd hload (by decide)
  · exact absurd hmap (by decide)
  · have hfirst := hreads.load 0x1100034 (mem_elfPheadersReads_iff.mpr ⟨0, by decide, by decide, rfl⟩)
    exact absurd hfirst.2 (by decide)

end PeachOS
