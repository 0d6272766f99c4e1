import Mathlib.Data.List.TakeWhile
import PeachOS.Lib.Overlay
import PeachOS.Loader.Elf

/-!
# Where segments land

`process_map_elf` over the list of its headers.  Each header lays its pages over
what is mapped before, so the entry of a page is that of the last header that
maps it.  Segments that are placed as their file says, on pages of their own, are
all found where the file has them.
-/

namespace PeachOS

open Lib

/-- The headers are mapped one after another, up to one that is refused. -/
def mapPhdrs (directory elfMemory : Ptr) (mem : Pages) : List Phdr → Int × Pages
  | [] => (0, mem)
  | phdr :: phdrs =>
      let (res, mem) := mapPhdr mem directory elfMemory phdr
      if res < 0 then
        (res, mem)
      else
        mapPhdrs directory elfMemory mem phdrs

/-- The header is one that `paging_map_to` accepts. -/
def Phdr.Mapped (phdr : Phdr) (elfMemory : Ptr) : Prop :=
  Mappable phdr.virt (phdr.phys elfMemory) (phdr.physEnd elfMemory)

instance (phdr : Phdr) (elfMemory : Ptr) : Decidable (phdr.Mapped elfMemory) :=
  inferInstanceAs (Decidable (Mappable _ _ _))

/-- The headers before the first one that is refused. -/
def acceptedPhdrs (elfMemory : Ptr) (phdrs : List Phdr) : List Phdr :=
  phdrs.takeWhile fun phdr => phdr.Mapped elfMemory

/-- The entry that a header gives a page. -/
def Phdr.entryAt (phdr : Phdr) (elfMemory v : Ptr) : Option Word :=
  let k := (v - phdr.virt).toNat / pagingPageSize
  if k < phdr.pages elfMemory then
    some (pageAt (phdr.phys elfMemory) k ||| phdr.flags)
  else
    none

namespace Phdr

variable {phdr : Phdr} {elfMemory v : Ptr} {k : Nat}

theorem pages_lt
    (phdr : Phdr) (elfMemory : Ptr) :
    phdr.pages elfMemory < 2 ^ 20 := by
  have hlt := (phdr.physEnd elfMemory - phdr.phys elfMemory).isLt
  rw [pages, pagingPageSize]
  omega

theorem entryAt_pageAt
    (hk : k < phdr.pages elfMemory) :
    phdr.entryAt elfMemory (pageAt phdr.virt k) =
      some (pageAt (phdr.phys elfMemory) k ||| phdr.flags) := by
  have hpages := phdr.pages_lt elfMemory
  have hindex : (pageAt phdr.virt k - phdr.virt).toNat / pagingPageSize = k := by
    rw [pageAt, add_sub_cancel_left, BitVec.toNat_ofNat, pagingPageSize]
    omega
  rw [entryAt, hindex]
  exact if_pos hk

/-- An entry is for one of the pages that are mapped. -/
theorem entryAt_some
    {entry : Word} (hv : PageAligned v) (h : phdr.entryAt elfMemory v = some entry) :
    ∃ k < phdr.pages elfMemory, v = pageAt phdr.virt k := by
  rw [entryAt] at h
  split_ifs at h with hk
  refine ⟨_, hk, ?_⟩
  have hvirt : PageAligned phdr.virt := pageAligned_alignToLowerPage _
  unfold PageAligned pagingPageSize at hv hvirt
  refine BitVec.eq_of_toNat_eq ?_
  rw [toNat_pageAt, pagingPageSize, BitVec.toNat_sub]
  omega

end Phdr

section Map

variable {mem mem' : Pages} {directory elfMemory : Ptr}

theorem processMapElfLoop_eq
    {phdrs : Ptr} {i fuel : Nat} :
    processMapElfLoop directory elfMemory phdrs mem i fuel =
      mapPhdrs directory elfMemory mem (elfPhdrs directory elfMemory phdrs mem i fuel) := by
  induction fuel generalizing mem i with
  | zero => rfl
  | succ fuel ih =>
      rw [processMapElfLoop, elfPhdrs]
      split_ifs
      · rw [mapPhdrs]
        dsimp only
        rw [ih]
      · rfl

theorem processMapElf_eq
    (mem : Pages) (directory elfMemory : Ptr) :
    processMapElf mem directory elfMemory =
      mapPhdrs directory elfMemory mem (mappedPhdrs mem directory elfMemory) :=
  processMapElfLoop_eq

/-- One header lays its pages over the others. -/
theorem Maps.entryAt
    {phdr : Phdr} (h : Maps mem mem' directory phdr.virt (phdr.phys elfMemory) phdr.flags
      (phdr.pages elfMemory)) {v : Ptr} (hv : PageAligned v) :
    pagingGet mem' directory v =
      (phdr.entryAt elfMemory v).getD (pagingGet mem directory v) := by
  cases hentry : phdr.entryAt elfMemory v with
  | none =>
      refine h.other v hv fun k hk heq => ?_
      rw [heq, Phdr.entryAt_pageAt hk] at hentry
      cases hentry
  | some entry =>
      obtain ⟨k, hk, rfl⟩ := Phdr.entryAt_some hv hentry
      rw [Phdr.entryAt_pageAt hk] at hentry
      rw [h.mapped k hk, Option.some.inj hentry, Option.getD_some]

/-- The headers before the first one that is refused lay their pages over what is mapped
before. -/
theorem mapPhdrs_accepted
    (hdir : PageDirectory mem directory) (phdrs : List Phdr) :
    ∃ mem', mapPhdrs directory elfMemory mem phdrs =
        (if ∀ phdr ∈ phdrs, phdr.Mapped elfMemory then 0 else -einvarg, mem') ∧
      mem' directory = mem directory ∧
      ∀ v, PageAligned v → pagingGet mem' directory v =
        overlay (fun phdr => phdr.entryAt elfMemory v) (pagingGet mem directory v)
          (acceptedPhdrs elfMemory phdrs) := by
  induction phdrs generalizing mem with
  | nil => exact ⟨mem, rfl, rfl, fun _ _ => rfl⟩
  | cons phdr phdrs ih =>
      by_cases hfirst : phdr.Mapped elfMemory
      · obtain ⟨mem₁, hmap, hmaps⟩ := pagingMapTo_spec hdir hfirst phdr.flags
        obtain ⟨mem', hrest, hentries, hget⟩ := ih (hdir.congr hmaps.entries)
        have hphdr : mapPhdr mem directory elfMemory phdr = (0, mem₁) := hmap
        refine ⟨mem', ?_, hentries.trans hmaps.entries, fun v hv => ?_⟩
        · rw [mapPhdrs, hphdr]
          simp only [List.forall_mem_cons, hfirst, true_and]
          exact hrest
        · have hlayer := @Maps.entryAt _ _ _ elfMemory phdr hmaps v hv
          rw [hget v hv, hlayer, acceptedPhdrs, acceptedPhdrs,
            List.takeWhile_cons_of_pos (by simpa using hfirst), overlay_cons]
      · have hphdr : mapPhdr mem directory elfMemory phdr = (-einvarg, mem) :=
          pagingMapTo_of_not_mappable hfirst phdr.flags
        refine ⟨mem, ?_, rfl, fun v _ => ?_⟩
        · rw [mapPhdrs, hphdr, if_neg fun hall => hfirst (hall phdr List.mem_cons_self)]
          rfl
        · rw [acceptedPhdrs, List.takeWhile_cons_of_neg (by simpa using hfirst)]
          rfl

/-- Headers that are all accepted lay their pages over what is mapped before. -/
theorem mapPhdrs_spec
    (hdir : PageDirectory mem directory) {phdrs : List Phdr}
    (hmapped : ∀ phdr ∈ phdrs, phdr.Mapped elfMemory) :
    ∃ mem', mapPhdrs directory elfMemory mem phdrs = (0, mem') ∧ mem' directory = mem directory ∧
      ∀ v, PageAligned v → pagingGet mem' directory v =
        overlay (fun phdr => phdr.entryAt elfMemory v) (pagingGet mem directory v) phdrs := by
  have haccepted : acceptedPhdrs elfMemory phdrs = phdrs :=
    List.takeWhile_eq_self_iff.mpr (by simpa using hmapped)
  obtain ⟨mem', hmap, hentries, hget⟩ := mapPhdrs_accepted hdir phdrs
  rw [if_pos hmapped] at hmap
  rw [haccepted] at hget
  exact ⟨mem', hmap, hentries, hget⟩

/-- A header that is refused ends the mapping. -/
theorem mapPhdrs_refused
    (hdir : PageDirectory mem directory) {phdrs : List Phdr}
    (hrefused : ∃ phdr ∈ phdrs, ¬ phdr.Mapped elfMemory) :
    (mapPhdrs directory elfMemory mem phdrs).1 = -einvarg := by
  obtain ⟨phdr, hmem, hnot⟩ := hrefused
  obtain ⟨mem', hmap, -⟩ := mapPhdrs_accepted hdir phdrs
  rw [hmap]
  exact if_neg fun hall => hnot (hall phdr hmem)

end Map

/-- The header takes its bytes from the file, on the place in a page that they
have there, and keeps inside the address space.  One without bytes is at the
start of a page of the file. -/
structure Phdr.Placed (phdr : Phdr) (filesize : Word) : Prop where
  sized : phdr.pMemsz ≠ 0 →
    phdr.pVaddr.toNat % pagingPageSize = phdr.pOffset.toNat % pagingPageSize ∧
      phdr.pOffset.toNat + phdr.pMemsz.toNat ≤ filesize.toNat ∧
      phdr.pVaddr.toNat + phdr.pMemsz.toNat ≤ 2 ^ 32
  empty : phdr.pMemsz = 0 → PageAligned phdr.pOffset

/-- The address of a byte of the segment. -/
def Phdr.byteAt (phdr : Phdr) (k : Nat) : Ptr := phdr.pVaddr + BitVec.ofNat 32 k

/-- A byte of the segment is on the page. -/
def Phdr.Touches (phdr : Phdr) (v : Ptr) : Prop :=
  ∃ k < phdr.pMemsz.toNat, pagingAlignToLowerPage (phdr.byteAt k) = v

/-- The file has been read to a page, and ends before the last one of the address
space. -/
structure FileBlock (elfMemory : Ptr) (filesize : Word) : Prop where
  aligned : PageAligned elfMemory
  inside : elfMemory.toNat + filesize.toNat ≤ 0xFFFFF000

/-- Every block of the kernel's heap will do. -/
theorem FileBlock.of_heap
    {elfMemory : Ptr} {filesize : Word} (h : PageAligned elfMemory)
    (hinside : elfMemory.toNat + filesize.toNat ≤ heapAddress + heapSizeBytes) :
    FileBlock elfMemory filesize :=
  ⟨h, hinside.trans (by decide)⟩

section Placed

variable {phdr : Phdr} {elfMemory : Ptr} {filesize : Word} {k : Nat} {v : Ptr}

/-- The first byte of a segment has the same place in a page of memory as in one
of the address space. -/
theorem Phdr.Placed.toNat_physAddress
    (h : phdr.Placed filesize) (hfile : FileBlock elfMemory filesize) (hsize : phdr.pMemsz ≠ 0) :
    (elfPhdrPhysAddress elfMemory phdr).toNat = elfMemory.toNat + phdr.pOffset.toNat ∧
      (elfPhdrPhysAddress elfMemory phdr).toNat % 4096 = phdr.pVaddr.toNat % 4096 := by
  obtain ⟨hplace, hinside, -⟩ := h.sized hsize
  have haligned := hfile.aligned
  have hend := hfile.inside
  unfold PageAligned at haligned
  unfold pagingPageSize at *
  rw [elfPhdrPhysAddress, BitVec.toNat_add]
  omega

theorem Phdr.Placed.bounds
    (h : phdr.Placed filesize) (hfile : FileBlock elfMemory filesize) (hsize : phdr.pMemsz ≠ 0) :
    (phdr.phys elfMemory).toNat = (elfPhdrPhysAddress elfMemory phdr).toNat / 4096 * 4096 ∧
      (phdr.physEnd elfMemory).toNat =
        ((elfPhdrPhysAddress elfMemory phdr).toNat + phdr.pMemsz.toNat + 4095) / 4096 * 4096 := by
  obtain ⟨hphys, -⟩ := h.toNat_physAddress hfile hsize
  obtain ⟨-, hinside, -⟩ := h.sized hsize
  have hend := hfile.inside
  have hsum : (elfPhdrPhysAddress elfMemory phdr + phdr.pMemsz).toNat =
      (elfPhdrPhysAddress elfMemory phdr).toNat + phdr.pMemsz.toNat := by
    rw [BitVec.toNat_add]
    omega
  rw [Phdr.phys, Phdr.physEnd, toNat_alignToLowerPage, toNat_pagingIsAllignedAddress (by omega),
    hsum]
  exact ⟨rfl, rfl⟩

/-- A segment has as many pages as its bytes lie on. -/
theorem Phdr.Placed.pages_eq
    (h : phdr.Placed filesize) (hfile : FileBlock elfMemory filesize) (hsize : phdr.pMemsz ≠ 0) :
    phdr.pages elfMemory = (phdr.pVaddr.toNat % 4096 + phdr.pMemsz.toNat + 4095) / 4096 := by
  obtain ⟨-, hplace⟩ := h.toNat_physAddress hfile hsize
  obtain ⟨hphys, hphysEnd⟩ := h.bounds hfile hsize
  have hlt := (phdr.physEnd elfMemory).isLt
  rw [Phdr.pages, pagingPageSize, BitVec.toNat_sub]
  omega

theorem Phdr.Placed.pages_empty
    (h : phdr.Placed filesize) (hfile : FileBlock elfMemory filesize) (hsize : phdr.pMemsz = 0) :
    phdr.phys elfMemory = elfPhdrPhysAddress elfMemory phdr ∧
      phdr.physEnd elfMemory = elfPhdrPhysAddress elfMemory phdr := by
  have haligned : PageAligned (elfPhdrPhysAddress elfMemory phdr) := by
    have hfirst := hfile.aligned
    have hoffset := h.empty hsize
    unfold PageAligned pagingPageSize at *
    rw [elfPhdrPhysAddress, BitVec.toNat_add]
    omega
  refine ⟨alignToLowerPage_of_aligned haligned, ?_⟩
  have hzero : elfPhdrPhysAddress elfMemory phdr % 4096 = 0 := by
    refine BitVec.eq_of_toNat_eq ?_
    rw [BitVec.toNat_umod]
    exact haligned
  rw [Phdr.physEnd, hsize, add_zero, pagingIsAllignedAddress, if_neg (not_not.mpr hzero)]

/-- Headers of the file are never refused. -/
theorem Phdr.Placed.mapped
    (h : phdr.Placed filesize) (hfile : FileBlock elfMemory filesize) :
    phdr.Mapped elfMemory := by
  have hvirt : PageAligned phdr.virt := pageAligned_alignToLowerPage _
  have hphys : PageAligned (phdr.phys elfMemory) := pageAligned_alignToLowerPage _
  by_cases hsize : phdr.pMemsz = 0
  · obtain ⟨hfirst, hlast⟩ := h.pages_empty hfile hsize
    refine ⟨hvirt, hphys, ?_, ?_⟩
    · rw [hlast, ← hfirst]
      exact hphys
    · rw [hlast, hfirst]
      exact BitVec.le_refl _
  · obtain ⟨hfirst, hlast⟩ := h.bounds hfile hsize
    refine ⟨hvirt, hphys, ?_, ?_⟩
    · unfold PageAligned pagingPageSize
      omega
    · rw [BitVec.le_def]
      omega

/-- The page of a byte, counted from the first one. -/
theorem Phdr.byteAt_eq
    (phdr : Phdr) (k : Nat) :
    phdr.byteAt k = phdr.virt + BitVec.ofNat 32 (phdr.pVaddr.toNat % 4096 + k) := by
  refine BitVec.eq_of_toNat_eq ?_
  rw [Phdr.byteAt, Phdr.virt, BitVec.toNat_add, BitVec.toNat_add, toNat_alignToLowerPage,
    BitVec.toNat_ofNat, BitVec.toNat_ofNat]
  omega

/-- Every page that a byte is on is mapped. -/
theorem Phdr.Placed.entryAt_byte
    (h : phdr.Placed filesize) (hfile : FileBlock elfMemory filesize)
    (hk : k < phdr.pMemsz.toNat) :
    phdr.entryAt elfMemory (pagingAlignToLowerPage (phdr.byteAt k)) =
      some (pageAt (phdr.phys elfMemory) ((phdr.pVaddr.toNat % 4096 + k) / 4096) |||
        phdr.flags) := by
  have hsize : phdr.pMemsz ≠ 0 := by
    rintro h0
    rw [h0] at hk
    exact absurd hk (Nat.not_lt_zero k)
  have hpages := h.pages_eq hfile hsize
  have hvirt : PageAligned phdr.virt := pageAligned_alignToLowerPage _
  rw [Phdr.byteAt_eq, alignToLowerPage_pageAt hvirt]
  exact Phdr.entryAt_pageAt (by omega)

/-- Only pages that a byte is on are mapped. -/
theorem Phdr.Placed.touches
    (h : phdr.Placed filesize) (hfile : FileBlock elfMemory filesize) {entry : Word}
    (hv : PageAligned v) (hentry : phdr.entryAt elfMemory v = some entry) :
    phdr.Touches v := by
  obtain ⟨j, hj, rfl⟩ := Phdr.entryAt_some hv hentry
  have hvirt : PageAligned phdr.virt := pageAligned_alignToLowerPage _
  by_cases hsize : phdr.pMemsz = 0
  · obtain ⟨hfirst, hlast⟩ := h.pages_empty hfile hsize
    rw [Phdr.pages, hfirst, hlast, sub_self] at hj
    exact absurd hj (Nat.not_lt_zero j)
  · have hpages := h.pages_eq hfile hsize
    have hpos : 0 < phdr.pMemsz.toNat := by
      rw [Nat.pos_iff_ne_zero]
      exact fun h0 => hsize (BitVec.eq_of_toNat_eq h0)
    refine ⟨4096 * j - phdr.pVaddr.toNat % 4096, by omega, ?_⟩
    rw [Phdr.byteAt_eq, alignToLowerPage_pageAt hvirt]
    congr 1
    omega

/-- A byte translates to its place in the file. -/
theorem Phdr.Placed.byte_physAddress
    (h : phdr.Placed filesize) (hfile : FileBlock elfMemory filesize) (hsize : phdr.pMemsz ≠ 0)
    (k : Nat) :
    phdr.phys elfMemory + BitVec.ofNat 32 (phdr.pVaddr.toNat % 4096 + k) =
      elfMemory + phdr.pOffset + BitVec.ofNat 32 k := by
  obtain ⟨hphys, hplace⟩ := h.toNat_physAddress hfile hsize
  refine BitVec.eq_of_toNat_eq ?_
  rw [Phdr.phys, ← elfPhdrPhysAddress, BitVec.toNat_add, BitVec.toNat_add,
    toNat_alignToLowerPage, BitVec.toNat_ofNat, BitVec.toNat_ofNat]
  omega

end Placed

/-- What a user may do to a page. -/
structure UserPage (entry : Word) (writeable : Prop) : Prop where
  present : entry &&& pagingIsPresent ≠ 0
  user : entry &&& pagingAccessFromAll ≠ 0
  writeable : entry &&& pagingIsWriteable ≠ 0 ↔ writeable

theorem Phdr.userPage
    (phdr : Phdr) {page : Word} (hpage : PageAligned page) :
    UserPage (page ||| phdr.flags) (phdr.pFlags &&& pfW ≠ 0) := by
  have haccess (bit : Word) (hbit : 7 &&& bit = bit) :
      (page ||| phdr.flags) &&& bit = phdr.flags &&& bit := by
    rw [← hbit, ← BitVec.and_assoc, or_and_accessMask hpage, BitVec.and_assoc]
  refine ⟨?_, ?_, ?_⟩
  · rw [haccess _ rfl, Phdr.flags]
    split_ifs <;> decide
  · rw [haccess _ rfl, Phdr.flags]
    split_ifs <;> decide
  · rw [haccess _ rfl, Phdr.flags]
    by_cases hwrite : phdr.pFlags &&& pfW ≠ 0
    · rw [if_pos hwrite]
      exact iff_of_true (by decide) hwrite
    · rw [if_neg hwrite]
      exact iff_of_false (by decide) hwrite

/-- No two segments have bytes on one page. -/
def DisjointPages (phdrs : List Phdr) : Prop :=
  phdrs.Pairwise fun phdr phdr' => ∀ v, ¬ (phdr.Touches v ∧ phdr'.Touches v)

section Land

variable {mem : Pages} {directory elfMemory : Ptr} {filesize : Word} {phdrs : List Phdr}

/-- On the page of a byte its own header is the last one that covers it. -/
theorem overlay_byte
    (hfile : FileBlock elfMemory filesize) (hplaced : ∀ phdr ∈ phdrs, phdr.Placed filesize)
    (hpages : DisjointPages phdrs) (e : Word) {phdr : Phdr} (hmem : phdr ∈ phdrs) {k : Nat}
    (hk : k < phdr.pMemsz.toNat) {v : Ptr} (hv : v = pagingAlignToLowerPage (phdr.byteAt k)) :
    overlay (fun phdr => phdr.entryAt elfMemory v) e phdrs =
      pageAt (phdr.phys elfMemory) ((phdr.pVaddr.toNat % 4096 + k) / 4096) ||| phdr.flags := by
  obtain ⟨front, back, rfl⟩ := List.append_of_mem hmem
  have hentry := (hplaced phdr hmem).entryAt_byte hfile hk
  rw [← hv] at hentry
  refine overlay_of_last hentry fun phdr' hback => ?_
  have hlater : ∀ w, ¬ (phdr.Touches w ∧ phdr'.Touches w) :=
    List.rel_of_pairwise_cons (List.pairwise_append.mp hpages).2.1 hback
  rw [Option.eq_none_iff_forall_ne_some]
  intro entry hsome
  have haligned : PageAligned v := hv ▸ pageAligned_alignToLowerPage _
  exact hlater v ⟨⟨k, hk, hv.symm⟩,
    (hplaced phdr' (List.mem_append_right _ (List.mem_cons_of_mem _ hback))).touches hfile haligned
      hsome⟩

/-- Segments that are placed as the file says, on pages of their own, are mapped to
their place in the file, for a user, writable where the header says so.  Pages
that no segment is on keep their entries. -/
theorem processMapElf_lands
    (hdir : PageDirectory mem directory) (hfile : FileBlock elfMemory filesize)
    (hplaced : ∀ phdr ∈ mappedPhdrs mem directory elfMemory, phdr.Placed filesize)
    (hpages : DisjointPages (mappedPhdrs mem directory elfMemory)) :
    ∃ mem', processMapElf mem directory elfMemory = (0, mem') ∧
      mem' directory = mem directory ∧
      (∀ phdr ∈ mappedPhdrs mem directory elfMemory, ∀ k < phdr.pMemsz.toNat,
        pagingGetPhysicalAddress mem' directory (phdr.byteAt k) =
            elfMemory + phdr.pOffset + BitVec.ofNat 32 k ∧
          UserPage (pagingGet mem' directory (pagingAlignToLowerPage (phdr.byteAt k)))
            (phdr.pFlags &&& pfW ≠ 0)) ∧
      (∀ v, PageAligned v → (∀ phdr ∈ mappedPhdrs mem directory elfMemory, ¬ phdr.Touches v) →
        pagingGet mem' directory v = pagingGet mem directory v) ∧
      (HeadersApart mem directory elfMemory →
        mappedPhdrs mem directory elfMemory =
          filePhdrs mem.bytes (elfPheader mem.bytes elfMemory) 0
            (ePhnum mem.bytes elfMemory).toNat) := by
  obtain ⟨mem', hmap, hentries, hget⟩ :=
    mapPhdrs_spec hdir fun phdr hmem => (hplaced phdr hmem).mapped hfile
  refine ⟨mem', (processMapElf_eq mem directory elfMemory).trans hmap, hentries, ?_, ?_,
    mappedPhdrs_of_apart hdir⟩
  · intro phdr hmem k hk
    have hsize : phdr.pMemsz ≠ 0 := by
      rintro h0
      rw [h0] at hk
      exact absurd hk (Nat.not_lt_zero k)
    have hvirt : PageAligned phdr.virt := pageAligned_alignToLowerPage _
    have hphys : PageAligned (phdr.phys elfMemory) := pageAligned_alignToLowerPage _
    have hentry := (hget _ (pageAligned_alignToLowerPage _)).trans
      (overlay_byte hfile hplaced hpages (pagingGet mem directory _) hmem hk rfl)
    constructor
    · rw [← (hplaced phdr hmem).byte_physAddress hfile hsize, Phdr.byteAt_eq]
      refine pagingGetPhysicalAddress_of_get hvirt hphys phdr.flags_lt ?_
      rw [← hentry, Phdr.byteAt_eq, alignToLowerPage_pageAt hvirt]
    · rw [hentry]
      exact phdr.userPage (pageAligned_pageAt hphys _)
  · intro v hv huntouched
    rw [hget v hv]
    refine overlay_of_none fun phdr hmem => ?_
    rw [Option.eq_none_iff_forall_ne_some]
    intro entry hsome
    exact huntouched phdr hmem ((hplaced phdr hmem).touches hfile hv hsome)

end Land

/-- A file with a segment of code and one of data at `0x1100000`. -/
def codeAndData : Pages := fun page i =>
  if page = 0x1100000 then
    [0x464c457f, 0x00010101, 0, 0, 0x00030002, 1, 0x400000, 52, 0, 0, 0x00200034, 0x00000002, 0,
      1, 0, 0x400000, 0x400000, 116, 116, 5, 4096,
      1, 0x1000, 0x402000, 0x402000, 0x800, 0x800, 6, 4096].getD i 0
  else
    firstPages page i

theorem mappedPhdrs_codeAndData :
    mappedPhdrs codeAndData 0 0x1100000 =
      [⟨1, 0, 0x400000, 116, 116, 5⟩, ⟨1, 0x1000, 0x402000, 0x800, 0x800, 6⟩] :=
  rfl

/-- The second program header is read again at the address that it is mapped to, and
the data behind it can be written. -/
theorem processMapElf_lands_codeAndData :
    ∃ mem', processMapElf codeAndData 0 0x1100000 = (0, mem') ∧
      pagingGetPhysicalAddress mem' 0 0x400054 = 0x1100054 ∧
      UserPage (pagingGet mem' 0 0x400000) False ∧
      pagingGetPhysicalAddress mem' 0 0x402010 = 0x1101010 ∧
      UserPage (pagingGet mem' 0 0x402000) True := by
  have hplaced : ∀ phdr ∈ mappedPhdrs codeAndData 0 0x1100000, phdr.Placed 0x1800 := by
    rw [mappedPhdrs_codeAndData]
    intro phdr hmem
    rcases List.mem_cons.mp hmem with rfl | hmem
    · exact ⟨by decide, by decide⟩
    · rw [List.mem_singleton.mp hmem]
      exact ⟨by decide, by decide⟩
  have hpages : DisjointPages (mappedPhdrs codeAndData 0 0x1100000) := by
    rw [mappedPhdrs_codeAndData]
    refine List.pairwise_pair.mpr fun v => ?_
    rintro ⟨⟨k, hk, hv⟩, k', hk', hv'⟩
    have hsame := congrArg BitVec.toNat (hv.trans hv'.symm)
    rw [toNat_alignToLowerPage, toNat_alignToLowerPage, Phdr.byteAt, Phdr.byteAt, BitVec.toNat_add,
      BitVec.toNat_add, BitVec.toNat_ofNat, BitVec.toNat_ofNat] at hsame
    change k < 116 at hk
    change k' < 0x800 at hk'
    change (0x400000 + k % 2 ^ 32) % 2 ^ 32 / 4096 * 4096 =
      (0x402000 + k' % 2 ^ 32) % 2 ^ 32 / 4096 * 4096 at hsame
    omega
  have hfile : FileBlock 0x1100000 0x1800 := FileBlock.of_heap (by decide) (by decide)
  have hdir : PageDirectory codeAndData 0 := firstPages_directory.congr rfl
  obtain ⟨mem', hmap, -, hbytes, -⟩ := processMapElf_lands hdir hfile hplaced hpages
  obtain ⟨hcode, hcodePage⟩ :=
    hbytes ⟨1, 0, 0x400000, 116, 116, 5⟩ List.mem_cons_self 84 (by decide)
  obtain ⟨hdata, hdataPage⟩ := hbytes ⟨1, 0x1000, 0x402000, 0x800, 0x800, 6⟩
    (List.mem_cons_of_mem _ List.mem_cons_self) 16 (by decide)
  refine ⟨mem', hmap, hcode, ⟨hcodePage.present, hcodePage.user, ?_⟩, hdata,
    hdataPage.present, hdataPage.user, ?_⟩
  · exact hcodePage.writeable.trans (iff_of_false (by decide) not_false)
  · exact hdataPage.writeable.trans (iff_of_true (by decide) trivial)

end PeachOS
