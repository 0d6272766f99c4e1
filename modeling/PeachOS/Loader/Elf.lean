import PeachOS.Memory.Bytes

/-!
# ELF programs

`elfloader.c` on a file that has been read into memory, and `process_map_elf`,
which maps its segments.  The headers are read where they stand, and nothing
keeps them inside the file or off the page tables that the mapping writes.
-/

namespace PeachOS

open Lib

def load16 (m : Memory) (a : Ptr) : Half := m (a + 1) ++ m a

def eIdent (m : Memory) (header : Ptr) (i : Ptr) : Byte := m (header + i)

def eType (m : Memory) (header : Ptr) : Half := load16 m (header + 16)

def eEntry (m : Memory) (header : Ptr) : Word := load32 m (header + 24)

def ePhoff (m : Memory) (header : Ptr) : Word := load32 m (header + 28)

def ePhnum (m : Memory) (header : Ptr) : Half := load16 m (header + 44)

/-- The fields of `struct elf32_phdr` that something reads. -/
structure Phdr where
  pType : Word
  pOffset : Word
  pVaddr : Word
  pFilesz : Word
  pMemsz : Word
  pFlags : Word
deriving DecidableEq

def phdrSize : Nat := 32

def phdrAt (m : Memory) (phdr : Ptr) : Phdr where
  pType := load32 m phdr
  pOffset := load32 m (phdr + 4)
  pVaddr := load32 m (phdr + 8)
  pFilesz := load32 m (phdr + 16)
  pMemsz := load32 m (phdr + 20)
  pFlags := load32 m (phdr + 24)

def ptLoad : Word := 1
def pfW : Word := 2

def elfPheader (m : Memory) (header : Ptr) : Ptr :=
  if ePhoff m header = 0 then 0 else header + ePhoff m header

/-- `&phdrs[index]`. -/
def phdrIndex (phdrs : Ptr) (index : Nat) : Ptr := phdrs + BitVec.ofNat 32 (phdrSize * index)

def elfValidSignature (m : Memory) (header : Ptr) : Bool :=
  eIdent m header 0 = 0x7f && eIdent m header 1 = 0x45 && eIdent m header 2 = 0x4c &&
    eIdent m header 3 = 0x46

/-- `ELFCLASSNONE` or `ELFCLASS32`. -/
def elfValidClass (m : Memory) (header : Ptr) : Bool :=
  eIdent m header 4 = 0 || eIdent m header 4 = 1

/-- `ELFDATANONE` or `ELFDATA2LSB`. -/
def elfValidEncoding (m : Memory) (header : Ptr) : Bool :=
  eIdent m header 5 = 0 || eIdent m header 5 = 1

def elfIsExecutable (m : Memory) (header : Ptr) : Bool :=
  eType m header = 2 && programVirtualAddress ≤ eEntry m header

def elfHasProgramHeader (m : Memory) (header : Ptr) : Bool :=
  ePhoff m header ≠ 0

def elfValidateLoaded (m : Memory) (header : Ptr) : Int :=
  if elfValidSignature m header && elfValidClass m header && elfValidEncoding m header &&
      elfHasProgramHeader m header && elfIsExecutable m header then
    0
  else
    -einformat

structure ElfFile where
  elfMemory : Ptr
  virtualBaseAddress : Ptr
  virtualEndAddress : Ptr
  physicalBaseAddress : Ptr
  physicalEndAddress : Ptr

def elfPhdrPhysAddress (elfMemory : Ptr) (phdr : Phdr) : Ptr := elfMemory + phdr.pOffset

def elfProcessPhdrPtLoad (file : ElfFile) (phdr : Phdr) : Int × ElfFile :=
  let file :=
    if phdr.pVaddr ≤ file.virtualBaseAddress ∨ file.virtualBaseAddress = 0 then
      { file with
        virtualBaseAddress := phdr.pVaddr
        physicalBaseAddress := file.elfMemory + phdr.pOffset }
    else file
  let endVirtualAddress := phdr.pVaddr + phdr.pFilesz
  let file :=
    if endVirtualAddress ≤ file.virtualEndAddress ∨ file.virtualEndAddress = 0 then
      { file with
        virtualEndAddress := endVirtualAddress
        physicalEndAddress := file.elfMemory + phdr.pOffset + phdr.pFilesz }
    else file
  (0, file)

def elfProcessPheader (file : ElfFile) (phdr : Phdr) : Int × ElfFile :=
  if phdr.pType = ptLoad then elfProcessPhdrPtLoad file phdr else (0, file)

/-- The loop of `elf_process_pheaders` from a header on, with `count` to go. -/
def elfProcessPheaders (m : Memory) (header : Ptr) (i : Nat) (file : ElfFile) :
    Nat → Int × ElfFile
  | 0 => (0, file)
  | count + 1 =>
      let (res, file) := elfProcessPheader file (phdrAt m (phdrIndex (elfPheader m header) i))
      if res < 0 then
        (res, file)
      else
        elfProcessPheaders m header (i + 1) file count

def elfProcessLoaded (m : Memory) (file : ElfFile) : Int × ElfFile :=
  let header := file.elfMemory
  let res := elfValidateLoaded m header
  if res < 0 then
    (res, file)
  else
    elfProcessPheaders m header 0 file (ePhnum m header).toNat

theorem elfProcessPheader_status
    (file : ElfFile) (phdr : Phdr) :
    (elfProcessPheader file phdr).1 = 0 := by
  rw [elfProcessPheader]
  split_ifs
  · rfl
  · rfl

theorem elfProcessPheaders_status
    (m : Memory) (header : Ptr) (i : Nat) (file : ElfFile) (count : Nat) :
    (elfProcessPheaders m header i file count).1 = 0 := by
  induction count generalizing i file with
  | zero => rfl
  | succ count ih =>
      rw [elfProcessPheaders]
      dsimp only
      rw [elfProcessPheader_status, if_neg (by decide)]
      exact ih _ _

/-- The file stays where it is. -/
theorem elfProcessPheaders_elfMemory
    (m : Memory) (header : Ptr) (i : Nat) (file : ElfFile) (count : Nat) :
    (elfProcessPheaders m header i file count).2.elfMemory = file.elfMemory := by
  have hone (file : ElfFile) (phdr : Phdr) :
      (elfProcessPheader file phdr).2.elfMemory = file.elfMemory := by
    rw [elfProcessPheader, elfProcessPhdrPtLoad]
    split_ifs <;> rfl
  induction count generalizing i file with
  | zero => rfl
  | succ count ih =>
      rw [elfProcessPheaders]
      dsimp only
      rw [elfProcessPheader_status, if_neg (by decide)]
      exact (ih _ _).trans (hone file _)

theorem elfProcessLoaded_elfMemory
    (m : Memory) (file : ElfFile) :
    (elfProcessLoaded m file).2.elfMemory = file.elfMemory := by
  rw [elfProcessLoaded]
  split_ifs
  · rfl
  · exact elfProcessPheaders_elfMemory m _ 0 file _

/-- The program headers are never a reason to refuse a file. -/
theorem elfProcessLoaded_accepts_iff
    (m : Memory) (file : ElfFile) :
    (elfProcessLoaded m file).1 = 0 ↔ elfValidateLoaded m file.elfMemory = 0 := by
  rw [elfProcessLoaded]
  by_cases hvalid : elfValidateLoaded m file.elfMemory = 0
  · rw [hvalid, if_neg (by decide), elfProcessPheaders_status]
  · have hneg : elfValidateLoaded m file.elfMemory < 0 := by
      rw [elfValidateLoaded] at hvalid ⊢
      split_ifs at hvalid ⊢
      · exact absurd rfl hvalid
      · decide
    rw [if_pos hneg]

def Phdr.flags (phdr : Phdr) : Word :=
  let flags := pagingIsPresent ||| pagingAccessFromAll
  if phdr.pFlags &&& pfW ≠ 0 then flags ||| pagingIsWriteable else flags

/-- The call of `paging_map_to` in `process_map_elf`. -/
def mapPhdr (mem : Pages) (directory elfMemory : Ptr) (phdr : Phdr) : Int × Pages :=
  let phdrPhysAddress := elfPhdrPhysAddress elfMemory phdr
  pagingMapTo mem directory (pagingAlignToLowerPage phdr.pVaddr)
    (pagingAlignToLowerPage phdrPhysAddress)
    (pagingIsAllignedAddress (phdrPhysAddress + phdr.pMemsz)) phdr.flags

/-- The loop of `process_map_elf` at index `i`; `e_phnum` is read again for
every header. -/
def processMapElfLoop (directory elfMemory phdrs : Ptr) (mem : Pages) (i : Nat) :
    Nat → Int × Pages
  | 0 => (0, mem)
  | fuel + 1 =>
      if i < (ePhnum mem.bytes elfMemory).toNat then
        let (res, mem) :=
          mapPhdr mem directory elfMemory (phdrAt mem.bytes (phdrIndex phdrs i))
        if res < 0 then
          (res, mem)
        else
          processMapElfLoop directory elfMemory phdrs mem (i + 1) fuel
      else
        (0, mem)

/-- No header has an index of `2^16` or more. -/
def processMapElf (mem : Pages) (directory elfMemory : Ptr) : Int × Pages :=
  processMapElfLoop directory elfMemory (elfPheader mem.bytes elfMemory) mem 0 65536

namespace Phdr

variable (phdr : Phdr) (elfMemory : Ptr)

/-- The virtual page of a segment that its first byte is on, and the page of
memory that it is mapped to. -/
def virt : Ptr := pagingAlignToLowerPage phdr.pVaddr

def phys : Ptr := pagingAlignToLowerPage (elfPhdrPhysAddress elfMemory phdr)

def physEnd : Ptr :=
  pagingIsAllignedAddress (elfPhdrPhysAddress elfMemory phdr + phdr.pMemsz)

/-- The number of pages that are mapped. -/
def pages : Nat := (phdr.physEnd elfMemory - phdr.phys elfMemory).toNat / pagingPageSize

def Covers (v : Ptr) : Prop := ∃ k < phdr.pages elfMemory, v = pageAt phdr.virt k

end Phdr

/-- The headers that the loop comes to. -/
def elfPhdrs (directory elfMemory phdrs : Ptr) (mem : Pages) (i : Nat) : Nat → List Phdr
  | 0 => []
  | fuel + 1 =>
      if i < (ePhnum mem.bytes elfMemory).toNat then
        let phdr := phdrAt mem.bytes (phdrIndex phdrs i)
        phdr :: elfPhdrs directory elfMemory phdrs (mapPhdr mem directory elfMemory phdr).2
          (i + 1) fuel
      else
        []

/-- The headers of a file that `process_map_elf` maps to its end. -/
def mappedPhdrs (mem : Pages) (directory elfMemory : Ptr) : List Phdr :=
  elfPhdrs directory elfMemory (elfPheader mem.bytes elfMemory) mem 0 65536

/-- A page of the block that a file of `filesize` bytes has been read to. -/
def InElfBlock (elfMemory filesize page : Ptr) : Prop :=
  elfMemory.toNat ≤ page.toNat ∧
    page.toNat + pagingPageSize ≤
      elfMemory.toNat + (filesize.toNat + 4095) / pagingPageSize * pagingPageSize

/-- Every page of a segment is in the block of the file, unless a later segment
is mapped over it. -/
def Confined (elfMemory filesize : Ptr) : List Phdr → Prop
  | [] => True
  | phdr :: phdrs =>
      (∀ k < phdr.pages elfMemory,
        (∀ phdr' ∈ phdrs, ¬ phdr'.Covers elfMemory (pageAt phdr.virt k)) →
        InElfBlock elfMemory filesize (pageAt (phdr.phys elfMemory) k)) ∧
      Confined elfMemory filesize phdrs

/-- Every page that a segment is mapped to translates to the block of the file. -/
def TranslatesInside (mem : Pages) (directory elfMemory filesize : Ptr) (phdrs : List Phdr) :
    Prop :=
  ∀ phdr ∈ phdrs, ∀ v, phdr.Covers elfMemory v →
    InElfBlock elfMemory filesize (pagingGetPhysicalAddress mem directory v)

theorem pageAligned_alignToLowerPage
    (addr : Ptr) :
    PageAligned (pagingAlignToLowerPage addr) := by
  unfold PageAligned pagingPageSize
  rw [toNat_alignToLowerPage]
  omega

theorem Phdr.flags_lt
    (phdr : Phdr) :
    phdr.flags.toNat < 4096 := by
  rw [Phdr.flags]
  split_ifs
  · decide
  · decide

theorem alignToLowerPage_of_aligned
    {v : Ptr} (h : PageAligned v) :
    pagingAlignToLowerPage v = v := by
  refine BitVec.eq_of_toNat_eq ?_
  unfold PageAligned pagingPageSize at h
  rw [toNat_alignToLowerPage]
  omega

/-- The translation of a page is in its entry. -/
theorem pagingGetPhysicalAddress_of_aligned
    {mem mem' : Pages} {directory v : Ptr} (h : PageAligned v)
    (hget : pagingGet mem' directory v = pagingGet mem directory v) :
    pagingGetPhysicalAddress mem' directory v = pagingGetPhysicalAddress mem directory v := by
  rw [pagingGetPhysicalAddress, pagingGetPhysicalAddress, alignToLowerPage_of_aligned h, hget]

section Segments

variable {mem mem' : Pages} {directory elfMemory : Ptr}

/-- A segment is mapped whole, or refused. -/
theorem mapPhdr_cases
    (hdir : PageDirectory mem directory) (elfMemory : Ptr) (phdr : Phdr) :
    (∃ mem', mapPhdr mem directory elfMemory phdr = (0, mem') ∧
      Maps mem mem' directory phdr.virt (phdr.phys elfMemory) phdr.flags
        (phdr.pages elfMemory)) ∨
      mapPhdr mem directory elfMemory phdr = (-einvarg, mem) := by
  by_cases hmappable : Mappable phdr.virt (phdr.phys elfMemory) (phdr.physEnd elfMemory)
  · exact Or.inl (pagingMapTo_spec hdir hmappable phdr.flags)
  · exact Or.inr (pagingMapTo_of_not_mappable hmappable phdr.flags)

/-- A loop that ends well has mapped the next header, or there is none. -/
theorem processMapElfLoop_inv
    {phdrs : Ptr} {i fuel : Nat} (hdir : PageDirectory mem directory)
    (h : processMapElfLoop directory elfMemory phdrs mem i (fuel + 1) = (0, mem')) :
    (mem' = mem ∧ elfPhdrs directory elfMemory phdrs mem i (fuel + 1) = []) ∨
      ∃ phdr mem₁, Maps mem mem₁ directory phdr.virt (phdr.phys elfMemory) phdr.flags
          (phdr.pages elfMemory) ∧
        processMapElfLoop directory elfMemory phdrs mem₁ (i + 1) fuel = (0, mem') ∧
        elfPhdrs directory elfMemory phdrs mem i (fuel + 1) =
          phdr :: elfPhdrs directory elfMemory phdrs mem₁ (i + 1) fuel := by
  rw [processMapElfLoop] at h
  rw [elfPhdrs]
  by_cases hi : i < (ePhnum mem.bytes elfMemory).toNat
  · rw [if_pos hi] at h ⊢
    dsimp only
    generalize phdrAt mem.bytes (phdrIndex phdrs i) = phdr at h ⊢
    rcases mapPhdr_cases hdir elfMemory phdr with ⟨mem₁, hmap, hmaps⟩ | hmap
    · rw [hmap] at h ⊢
      exact Or.inr ⟨phdr, mem₁, hmaps, h, rfl⟩
    · rw [hmap] at h
      cases h
  · rw [if_neg hi] at h ⊢
    cases h
    exact Or.inl ⟨rfl, rfl⟩

/-- The first segment is seen where no other one covers it. -/
theorem translatesInside_cons_iff
    {mem₁ : Pages} {phdr : Phdr} {phdrs : List Phdr} {filesize : Ptr}
    (hmaps : Maps mem mem₁ directory phdr.virt (phdr.phys elfMemory) phdr.flags
      (phdr.pages elfMemory))
    (hrest : ∀ v, PageAligned v → (∀ phdr' ∈ phdrs, ¬ phdr'.Covers elfMemory v) →
      pagingGet mem' directory v = pagingGet mem₁ directory v) :
    TranslatesInside mem' directory elfMemory filesize (phdr :: phdrs) ↔
      (∀ k < phdr.pages elfMemory,
        (∀ phdr' ∈ phdrs, ¬ phdr'.Covers elfMemory (pageAt phdr.virt k)) →
        InElfBlock elfMemory filesize (pageAt (phdr.phys elfMemory) k)) ∧
      TranslatesInside mem' directory elfMemory filesize phdrs := by
  have hvirt : PageAligned phdr.virt := pageAligned_alignToLowerPage _
  have hphys : PageAligned (phdr.phys elfMemory) := pageAligned_alignToLowerPage _
  have hseen (k : Nat) (hk : k < phdr.pages elfMemory)
      (huncovered : ∀ phdr' ∈ phdrs, ¬ phdr'.Covers elfMemory (pageAt phdr.virt k)) :
      pagingGetPhysicalAddress mem' directory (pageAt phdr.virt k) =
        pageAt (phdr.phys elfMemory) k := by
    have haligned := pageAligned_pageAt hvirt k
    rw [pagingGetPhysicalAddress_of_aligned haligned (hrest _ haligned huncovered)]
    exact hmaps.physicalAddress hvirt hphys phdr.flags_lt (by rw [pagingPageSize]; omega)
  constructor
  · intro h
    refine ⟨fun k hk huncovered => ?_, fun phdr' hmem => h phdr' (List.mem_cons_of_mem _ hmem)⟩
    rw [← hseen k hk huncovered]
    exact h phdr List.mem_cons_self _ ⟨k, hk, rfl⟩
  · rintro ⟨hfirst, hothers⟩ phdr' hmem v hcovers
    rcases List.mem_cons.mp hmem with rfl | hmem
    · rcases Classical.em (∃ phdr'' ∈ phdrs, phdr''.Covers elfMemory v) with hlater | hlast
      · obtain ⟨phdr'', hmem, hcovers'⟩ := hlater
        exact hothers phdr'' hmem v hcovers'
      · obtain ⟨k, hk, rfl⟩ := hcovers
        have huncovered := fun phdr'' hmem hcovers => hlast ⟨phdr'', hmem, hcovers⟩
        rw [hseen k hk huncovered]
        exact hfirst k hk huncovered
    · exact hothers phdr' hmem v hcovers

theorem translatesInside_nil
    (mem : Pages) (directory elfMemory filesize : Ptr) :
    TranslatesInside mem directory elfMemory filesize [] :=
  fun _ hmem => absurd hmem List.not_mem_nil

/-- The loop leaves the pages that no header covers, and the translation of the
others is decided by the last header that does. -/
theorem processMapElfLoop_spec
    {phdrs : Ptr} {i fuel : Nat} (hdir : PageDirectory mem directory)
    (h : processMapElfLoop directory elfMemory phdrs mem i fuel = (0, mem')) (filesize : Ptr) :
    (∀ v, PageAligned v →
      (∀ phdr ∈ elfPhdrs directory elfMemory phdrs mem i fuel, ¬ phdr.Covers elfMemory v) →
      pagingGet mem' directory v = pagingGet mem directory v) ∧
    (TranslatesInside mem' directory elfMemory filesize
        (elfPhdrs directory elfMemory phdrs mem i fuel) ↔
      Confined elfMemory filesize (elfPhdrs directory elfMemory phdrs mem i fuel)) := by
  induction fuel generalizing mem i with
  | zero =>
      cases h
      exact ⟨fun _ _ _ => rfl, iff_of_true (translatesInside_nil _ _ _ _) trivial⟩
  | succ fuel ih =>
      rcases processMapElfLoop_inv hdir h with ⟨rfl, hnil⟩ | ⟨phdr, mem₁, hmaps, hrest, hcons⟩
      · rw [hnil]
        exact ⟨fun _ _ _ => rfl, iff_of_true (translatesInside_nil _ _ _ _) trivial⟩
      · rw [hcons]
        obtain ⟨hothers, hiff⟩ := ih (hdir.congr hmaps.entries) hrest
        constructor
        · intro v hv hne
          rw [hothers v hv fun phdr' hmem => hne phdr' (List.mem_cons_of_mem _ hmem)]
          exact hmaps.other v hv fun k hk heq => hne phdr List.mem_cons_self ⟨k, hk, heq⟩
        · rw [translatesInside_cons_iff hmaps hothers, hiff, Confined]

/-- The loop changes entries as the headers say, whatever its status. -/
theorem processMapElfLoop_remaps
    {phdrs : Ptr} {i fuel : Nat} {S : Ptr → Prop} (hdir : PageDirectory mem directory)
    (hS : ∀ phdr ∈ elfPhdrs directory elfMemory phdrs mem i fuel,
      ∀ k < phdr.pages elfMemory, S (pageAt (phdr.phys elfMemory) k)) :
    Remaps mem (processMapElfLoop directory elfMemory phdrs mem i fuel).2 directory S := by
  induction fuel generalizing mem i with
  | zero => exact Remaps.refl mem directory S
  | succ fuel ih =>
      rw [processMapElfLoop]
      rw [elfPhdrs] at hS
      by_cases hi : i < (ePhnum mem.bytes elfMemory).toNat
      · rw [if_pos hi] at hS ⊢
        dsimp only at hS ⊢
        generalize phdrAt mem.bytes (phdrIndex phdrs i) = phdr at hS ⊢
        rcases mapPhdr_cases hdir elfMemory phdr with ⟨mem₁, hmap, hmaps⟩ | hmap
        · rw [hmap] at hS ⊢
          have hfirst := hmaps.remaps (pageAligned_alignToLowerPage _) phdr.flags_lt
            (hS phdr List.mem_cons_self)
          exact hfirst.trans (ih (hdir.congr hmaps.entries)
            fun phdr' hmem => hS phdr' (List.mem_cons_of_mem _ hmem))
        · rw [hmap]
          exact Remaps.refl mem directory S
      · rw [if_neg hi]
        exact Remaps.refl mem directory S

end Segments

/-- The headers are on no page table of the directory, as in every file whose
headers are inside it. -/
structure HeadersApart (mem : Pages) (directory elfMemory : Ptr) : Prop where
  header : ∀ a : Ptr, (a - elfMemory).toNat < 52 → ∀ j,
    pagingAlignToLowerPage a ≠ tableAt mem directory j
  table : ∀ a : Ptr,
    (a - elfPheader mem.bytes elfMemory).toNat <
      phdrSize * (ePhnum mem.bytes elfMemory).toNat → ∀ j,
    pagingAlignToLowerPage a ≠ tableAt mem directory j

theorem load16_congr
    {m m' : Memory} {a : Ptr} (h0 : m' a = m a) (h1 : m' (a + 1) = m (a + 1)) :
    load16 m' a = load16 m a := by
  rw [load16, load16, h0, h1]

theorem ePhnum_congr
    {m m' : Memory} {header : Ptr}
    (h : ∀ a : Ptr, (a - header).toNat < 52 → m' a = m a) :
    ePhnum m' header = ePhnum m header := by
  have hsub (k : Ptr) : header + k - header = k := by
    rw [BitVec.add_comm, BitVec.add_sub_cancel]
  refine load16_congr (h _ ?_) (h _ ?_)
  · rw [hsub]
    decide
  · rw [BitVec.add_assoc, hsub]
    decide

/-- A header is read from its first 28 bytes. -/
theorem phdrAt_congr
    {m m' : Memory} {phdr : Ptr}
    (h : ∀ a : Ptr, (a - phdr).toNat < 28 → m' a = m a) :
    phdrAt m' phdr = phdrAt m phdr := by
  have hload (k : Ptr) (hk : k.toNat ≤ 24) : load32 m' (phdr + k) = load32 m (phdr + k) := by
    refine load32_congr fun b hb => h b ?_
    have hsplit : b - phdr = b - (phdr + k) + k := by
      rw [← sub_sub, sub_add_cancel]
    rw [hsplit, BitVec.toNat_add]
    omega
  have hzero : load32 m' phdr = load32 m phdr := by
    have h0 := hload 0#32 (by decide)
    rwa [BitVec.add_zero] at h0
  rw [phdrAt, phdrAt, hzero, hload 4 (by decide), hload 8 (by decide), hload 16 (by decide),
    hload 20 (by decide), hload 24 (by decide)]

/-- The headers of the file itself, from an index on. -/
def filePhdrs (m : Memory) (phdrs : Ptr) (i count : Nat) : List Phdr :=
  (List.range' i count).map fun i => phdrAt m (phdrIndex phdrs i)

section Apart

variable {mem : Pages} {directory elfMemory : Ptr}

/-- One header is mapped to the tables, or not at all. -/
theorem mapPhdr_frame
    (hdir : PageDirectory mem directory) (elfMemory : Ptr) (phdr : Phdr) :
    (mapPhdr mem directory elfMemory phdr).2 directory = mem directory ∧
      ∀ page, (∀ j, page ≠ tableAt mem directory j) →
        (mapPhdr mem directory elfMemory phdr).2 page = mem page := by
  rcases mapPhdr_cases hdir elfMemory phdr with ⟨mem₁, hmap, hmaps⟩ | hmap
  · rw [hmap]
    exact ⟨hmaps.entries, hmaps.frame⟩
  · rw [hmap]
    exact ⟨rfl, fun _ _ => rfl⟩

theorem elfPhdrs_of_apart
    {m : Memory} {phdrs : Ptr} {n i fuel : Nat} (hdir : PageDirectory mem directory)
    (hfuel : n ≤ i + fuel) (hphnum : (ePhnum m elfMemory).toNat = n)
    (hheader : ∀ a : Ptr, (a - elfMemory).toNat < 52 →
      mem.bytes a = m a ∧ ∀ j, pagingAlignToLowerPage a ≠ tableAt mem directory j)
    (htable : ∀ a : Ptr, (a - phdrs).toNat < phdrSize * n →
      mem.bytes a = m a ∧ ∀ j, pagingAlignToLowerPage a ≠ tableAt mem directory j) :
    elfPhdrs directory elfMemory phdrs mem i fuel = filePhdrs m phdrs i (n - i) := by
  have hread : (ePhnum mem.bytes elfMemory).toNat = n := by
    rw [ePhnum_congr fun a ha => (hheader a ha).1, hphnum]
  induction fuel generalizing mem i with
  | zero =>
      rw [elfPhdrs, filePhdrs, show n - i = 0 by omega]
      rfl
  | succ fuel ih =>
      rw [elfPhdrs]
      by_cases hi : i < n
      · rw [if_pos (hread ▸ hi)]
        have hindex (a : Ptr) (ha : (a - phdrIndex phdrs i).toNat < 28) :
            (a - phdrs).toNat < phdrSize * n := by
          have hsplit : a - phdrs = a - phdrIndex phdrs i + BitVec.ofNat 32 (phdrSize * i) := by
            rw [phdrIndex, ← sub_sub, sub_add_cancel]
          rw [hsplit, BitVec.toNat_add, BitVec.toNat_ofNat, phdrSize]
          omega
        dsimp only
        rw [phdrAt_congr fun a ha => (htable a (hindex a ha)).1]
        obtain ⟨hentries, hframe⟩ := mapPhdr_frame hdir elfMemory (phdrAt m (phdrIndex phdrs i))
        generalize (mapPhdr mem directory elfMemory (phdrAt m (phdrIndex phdrs i))).2 = mem₁
          at hentries hframe ⊢
        have hkeeps (a : Ptr) (hbytes : mem.bytes a = m a)
            (hne : ∀ j, pagingAlignToLowerPage a ≠ tableAt mem directory j) :
            mem₁.bytes a = m a ∧ ∀ j, pagingAlignToLowerPage a ≠ tableAt mem₁ directory j := by
          rw [tableAt_congr hentries]
          refine ⟨Eq.trans ?_ hbytes, hne⟩
          rw [Pages.bytes, Pages.bytes, hframe _ hne]
        have hrest := ih (i := i + 1) (hdir.congr hentries) (by omega)
          (fun a ha => hkeeps a (hheader a ha).1 (hheader a ha).2)
          (fun a ha => hkeeps a (htable a ha).1 (htable a ha).2)
          (by rw [ePhnum_congr fun a ha => (hkeeps a (hheader a ha).1 (hheader a ha).2).1, hphnum])
        rw [hrest, filePhdrs, filePhdrs, show n - i = n - (i + 1) + 1 by omega, List.range'_succ,
          List.map_cons]
      · rw [if_neg (hread ▸ hi), filePhdrs, show n - i = 0 by omega]
        rfl

/-- The headers that are mapped are those that the file has before the call. -/
theorem mappedPhdrs_of_apart
    (hdir : PageDirectory mem directory) (hapart : HeadersApart mem directory elfMemory) :
    mappedPhdrs mem directory elfMemory =
      filePhdrs mem.bytes (elfPheader mem.bytes elfMemory) 0
        (ePhnum mem.bytes elfMemory).toNat := by
  have hlt : (ePhnum mem.bytes elfMemory).toNat < 65536 := (ePhnum mem.bytes elfMemory).isLt
  exact elfPhdrs_of_apart hdir (Nat.le_of_lt (Nat.lt_of_lt_of_le hlt (by decide))) rfl
    (fun a ha => ⟨rfl, hapart.header a ha⟩) (fun a ha => ⟨rfl, hapart.table a ha⟩)

end Apart

/-- Every page that a program's segments are mapped to translates to the block
of its file if and only if the headers keep inside it: each page of a segment
that no later segment covers lies in the block. -/
theorem processMapElf_confined_iff
    {mem mem' : Pages} {directory elfMemory : Ptr} (hdir : PageDirectory mem directory)
    (h : processMapElf mem directory elfMemory = (0, mem')) (filesize : Ptr) :
    TranslatesInside mem' directory elfMemory filesize (mappedPhdrs mem directory elfMemory) ↔
      Confined elfMemory filesize (mappedPhdrs mem directory elfMemory) :=
  (processMapElfLoop_spec hdir h filesize).2

/-- The words of a file with one program header. -/
def elfWords (pOffset pMemsz : Word) : List Word :=
  [0x464c457f, 0x00010101, 0, 0, 0x00030002, 1, 0x400000, 52, 0, 0, 0x00200034, 0x00000001, 0,
    1, pOffset, 0x400000, 0x400000, 84, pMemsz, 6, 4096]

/-- The file at `0x1100000`, with the directory and the tables of its process. -/
def elfPages (pOffset pMemsz : Word) : Pages := fun page i =>
  if page = 0x1100000 then (elfWords pOffset pMemsz).getD i 0 else firstPages page i

theorem elfPages_directory (pOffset pMemsz : Word) : PageDirectory (elfPages pOffset pMemsz) 0 :=
  firstPages_directory.congr rfl

/-- A segment of the file's own page. -/
theorem processMapElf_confined_iff_onePage :
    ∃ mem', processMapElf (elfPages 0 84) 0 0x1100000 = (0, mem') ∧
      (TranslatesInside mem' 0 0x1100000 84 (mappedPhdrs (elfPages 0 84) 0 0x1100000) ↔
        Confined 0x1100000 84 (mappedPhdrs (elfPages 0 84) 0 0x1100000)) := by
  have h : processMapElf (elfPages 0 84) 0 0x1100000 =
    (0, (processMapElf (elfPages 0 84) 0 0x1100000).2) := rfl
  exact ⟨_, h, processMapElf_confined_iff (elfPages_directory 0 84) h 84⟩

/-- Every program that is accepted, with all its headers in the file, keeps to
the block of the file. -/
def AlwaysConfined : Prop :=
  ∀ mem mem' directory elfMemory filesize, PageDirectory mem directory → PageAligned elfMemory →
    (elfProcessLoaded mem.bytes ⟨elfMemory, 0, 0, 0, 0⟩).1 = 0 →
    (ePhoff mem.bytes elfMemory).toNat + phdrSize * (ePhnum mem.bytes elfMemory).toNat ≤
      filesize.toNat →
    processMapElf mem directory elfMemory = (0, mem') →
    TranslatesInside mem' directory elfMemory filesize (mappedPhdrs mem directory elfMemory)

/-- An offset that leads back to the image of the kernel. -/
theorem alwaysConfined_false : ¬ AlwaysConfined := by
  intro h
  have hmap : processMapElf (elfPages 0xff000000 4096) 0 0x1100000 =
    (0, (processMapElf (elfPages 0xff000000 4096) 0 0x1100000).2) := rfl
  have hinside := h _ _ 0 0x1100000 84 (elfPages_directory 0xff000000 4096) rfl rfl (by decide) hmap
  have hpage := hinside ⟨1, 0xff000000, 0x400000, 84, 4096, 6⟩ List.mem_cons_self 0x400000
    ⟨0, by decide, rfl⟩
  exact absurd hpage.1 (by decide)

end PeachOS
