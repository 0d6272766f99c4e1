import PeachOS.Loader.Segments

/-!
# Headers that are not for loading

`elf_process_pheaders` looks at `PT_LOAD` headers alone, `process_map_elf` maps
headers of every type.  The page table is that of the `PT_LOAD` headers only where
the others leave nothing of their own to be seen.
-/

namespace PeachOS

open Lib

/-- The type that `elf_process_pheader` processes. -/
def Phdr.isLoad (phdr : Phdr) : Bool := phdr.pType = ptLoad

/-- `mem₂` has the image of `mem` without its headers of other types, and the same
page table. -/
structure LoadOnly (mem mem₂ : Pages) (directory elfMemory : Ptr) : Prop where
  phdrs : mappedPhdrs mem₂ directory elfMemory =
    (mappedPhdrs mem directory elfMemory).filter Phdr.isLoad
  entries : mem₂ directory = mem directory
  tables : ∀ i, mem₂ (tableAt mem directory i) = mem (tableAt mem directory i)

/-- Both images are given the same page table. -/
def SameMapping (mem mem₂ : Pages) (directory elfMemory : Ptr) : Prop :=
  ∀ v, PageAligned v →
    pagingGet (processMapElf mem directory elfMemory).2 directory v =
      pagingGet (processMapElf mem₂ directory elfMemory).2 directory v

/-- The `PT_LOAD` headers that are mapped only when the others are left out: they are
behind a header of another type that is refused, and before any that is refused
itself. -/
def missedPhdrs (elfMemory : Ptr) (phdrs : List Phdr) : List Phdr :=
  acceptedPhdrs elfMemory
    ((phdrs.dropWhile fun phdr => phdr.Mapped elfMemory).filter Phdr.isLoad)

/-- On the page `v` nothing shows that the `PT_LOAD` headers alone would not give. -/
structure OthersHidden (mem : Pages) (directory elfMemory : Ptr) (phdrs : List Phdr) (v : Ptr) :
    Prop where
  /-- A header of another type that no accepted header maps over gives the entry that the
  `PT_LOAD` headers before it leave, unless a header that is missed has the page. -/
  hidden : (∀ phdr ∈ missedPhdrs elfMemory phdrs, phdr.entryAt elfMemory v = none) →
    ∀ front phdr back, acceptedPhdrs elfMemory phdrs = front ++ phdr :: back →
      phdr.isLoad = false → (∀ later ∈ back, later.entryAt elfMemory v = none) →
      ∀ entry, phdr.entryAt elfMemory v = some entry →
        entry = overlay (fun phdr => phdr.entryAt elfMemory v) (pagingGet mem directory v)
          (front.filter Phdr.isLoad)
  /-- The last header that is missed on the page gives the entry that the accepted headers
  leave. -/
  missed : ∀ front phdr back, missedPhdrs elfMemory phdrs = front ++ phdr :: back →
    (∀ later ∈ back, later.entryAt elfMemory v = none) →
    ∀ entry, phdr.entryAt elfMemory v = some entry →
      entry = overlay (fun phdr => phdr.entryAt elfMemory v) (pagingGet mem directory v)
        (acceptedPhdrs elfMemory phdrs)

section LoadOnly

variable {mem mem₂ : Pages} {directory elfMemory : Ptr}

theorem LoadOnly.pageDirectory
    (h : LoadOnly mem mem₂ directory elfMemory) (hdir : PageDirectory mem directory) :
    PageDirectory mem₂ directory :=
  hdir.congr h.entries

theorem LoadOnly.pagingGet
    (h : LoadOnly mem mem₂ directory elfMemory) {v : Ptr} (hv : PageAligned v) :
    pagingGet mem₂ directory v = PeachOS.pagingGet mem directory v :=
  pagingGet_congr h.entries h.tables hv

/-- Without the other headers those that are missed are accepted as well. -/
theorem acceptedPhdrs_filter
    (elfMemory : Ptr) (phdrs : List Phdr) :
    acceptedPhdrs elfMemory (phdrs.filter Phdr.isLoad) =
      (acceptedPhdrs elfMemory phdrs).filter Phdr.isLoad ++ missedPhdrs elfMemory phdrs := by
  have hsplit : phdrs.filter Phdr.isLoad =
      (acceptedPhdrs elfMemory phdrs).filter Phdr.isLoad ++
        (phdrs.dropWhile fun phdr => phdr.Mapped elfMemory).filter Phdr.isLoad := by
    rw [← List.filter_append, acceptedPhdrs, List.takeWhile_append_dropWhile]
  rw [hsplit]
  refine List.takeWhile_append_of_pos fun phdr hmem => ?_
  have hin : phdr ∈ acceptedPhdrs elfMemory phdrs := List.mem_of_mem_filter hmem
  exact @List.mem_takeWhile_imp _ (fun phdr : Phdr => decide (phdr.Mapped elfMemory)) _ _ hin

theorem processMapElf_accepted
    (hdir : PageDirectory mem directory) {v : Ptr} (hv : PageAligned v) :
    PeachOS.pagingGet (processMapElf mem directory elfMemory).2 directory v =
      overlay (fun phdr => phdr.entryAt elfMemory v) (PeachOS.pagingGet mem directory v)
        (acceptedPhdrs elfMemory (mappedPhdrs mem directory elfMemory)) := by
  obtain ⟨mem', hmap, -, hget⟩ :=
    @mapPhdrs_accepted _ _ elfMemory hdir (mappedPhdrs mem directory elfMemory)
  rw [processMapElf_eq, hmap]
  exact hget v hv

theorem processMapElf_status
    (hdir : PageDirectory mem directory) :
    (processMapElf mem directory elfMemory).1 =
      if ∀ phdr ∈ mappedPhdrs mem directory elfMemory, phdr.Mapped elfMemory then 0
      else -einvarg := by
  obtain ⟨mem', hmap, -⟩ :=
    @mapPhdrs_accepted _ _ elfMemory hdir (mappedPhdrs mem directory elfMemory)
  rw [processMapElf_eq, hmap]

/-- An entry of the page table is the one that the `PT_LOAD` headers alone give. -/
theorem LoadOnly.entry_iff
    (h : LoadOnly mem mem₂ directory elfMemory) (hdir : PageDirectory mem directory)
    {v : Ptr} (hv : PageAligned v) :
    PeachOS.pagingGet (processMapElf mem directory elfMemory).2 directory v =
        PeachOS.pagingGet (processMapElf mem₂ directory elfMemory).2 directory v ↔
      OthersHidden mem directory elfMemory (mappedPhdrs mem directory elfMemory) v := by
  rw [processMapElf_accepted hdir hv, processMapElf_accepted (h.pageDirectory hdir) hv,
    h.pagingGet hv, h.phdrs, acceptedPhdrs_filter, overlay_append, eq_comm, overlay_eq_iff]
  constructor
  · rintro ⟨hnone, hmissed⟩
    exact ⟨fun hfree => overlay_filter_iff.mp (hnone hfree).symm, hmissed⟩
  · rintro ⟨hhidden, hmissed⟩
    exact ⟨fun hfree => (overlay_filter_iff.mpr (hhidden hfree)).symm, hmissed⟩

/-- An image is given the page table of its `PT_LOAD` headers if and only if on each page
the other headers leave nothing of their own to be seen, and its status is that of the
`PT_LOAD` headers if and only if one of these is refused or no header is. -/
theorem processMapElf_loadOnly_iff
    (hdir : PageDirectory mem directory) (h : LoadOnly mem mem₂ directory elfMemory) :
    (SameMapping mem mem₂ directory elfMemory ↔ ∀ v, PageAligned v →
      OthersHidden mem directory elfMemory (mappedPhdrs mem directory elfMemory) v) ∧
    ((processMapElf mem directory elfMemory).1 = (processMapElf mem₂ directory elfMemory).1 ↔
      (∃ phdr ∈ mappedPhdrs mem directory elfMemory,
        phdr.isLoad = true ∧ ¬ phdr.Mapped elfMemory) ∨
      ∀ phdr ∈ mappedPhdrs mem directory elfMemory, phdr.Mapped elfMemory) := by
  have hloads : (∀ phdr ∈ mappedPhdrs mem₂ directory elfMemory, phdr.Mapped elfMemory) ↔
      ¬ ∃ phdr ∈ mappedPhdrs mem directory elfMemory,
        phdr.isLoad = true ∧ ¬ phdr.Mapped elfMemory := by
    rw [h.phdrs]
    simp only [List.mem_filter, not_exists, not_and, not_not, and_imp]
  constructor
  · exact ⟨fun hsame v hv => (h.entry_iff hdir hv).mp (hsame v hv),
      fun hhidden v hv => (h.entry_iff hdir hv).mpr (hhidden v hv)⟩
  · rw [processMapElf_status hdir, processMapElf_status (h.pageDirectory hdir)]
    by_cases hmapped : ∀ phdr ∈ mappedPhdrs mem directory elfMemory, phdr.Mapped elfMemory
    · have hmapped₂ : ∀ phdr ∈ mappedPhdrs mem₂ directory elfMemory, phdr.Mapped elfMemory := by
        rw [h.phdrs]
        exact fun phdr hmem => hmapped phdr (List.mem_of_mem_filter hmem)
      rw [if_pos hmapped, if_pos hmapped₂]
      exact iff_of_true rfl (Or.inr hmapped)
    · rw [if_neg hmapped, or_iff_left hmapped]
      by_cases hmapped₂ : ∀ phdr ∈ mappedPhdrs mem₂ directory elfMemory, phdr.Mapped elfMemory
      · rw [if_pos hmapped₂]
        exact iff_of_false (by decide) (hloads.mp hmapped₂)
      · rw [if_neg hmapped₂]
        exact iff_of_true rfl (by_contra fun hnone => hmapped₂ (hloads.mpr hnone))

end LoadOnly

/-- The file of one segment, with `count` program headers, the second one of type
`PT_GNU_RELRO` for the same page. -/
def relroWords (count flags : Word) : List Word :=
  [0x464c457f, 0x00010101, 0, 0, 0x00030002, 1, 0x400000, 52, 0, 0, 0x00200034, count, 0,
    1, 0, 0x400000, 0x400000, 116, 116, 6, 4096,
    0x6474e552, 0, 0x400000, 0x400000, 116, 116, flags, 1]

def relroPages (count flags : Word) : Pages := fun page i =>
  if page = 0x1100000 then (relroWords count flags).getD i 0 else firstPages page i

def loadPhdr : Phdr := ⟨1, 0, 0x400000, 116, 116, 6⟩

def relroPhdr (flags : Word) : Phdr := ⟨0x6474e552, 0, 0x400000, 116, 116, flags⟩

section Relro

variable {count flags : Word}

theorem relroPages_of_ne
    {page : Ptr} (h : page ≠ 0x1100000) :
    relroPages count flags page = firstPages page := by
  funext i
  exact if_neg h

theorem relroPages_directory (count flags : Word) : PageDirectory (relroPages count flags) 0 :=
  firstPages_directory.congr (relroPages_of_ne (by decide))

/-- The headers of the image itself are mapped, since no table is at its page. -/
theorem mappedPhdrs_relroPages
    {n : Nat} (hn : n ≤ 2) (hphnum : (ePhnum (relroPages count flags).bytes 0x1100000).toNat = n)
    (hphdrs : elfPheader (relroPages count flags).bytes 0x1100000 = 0x1100034) :
    mappedPhdrs (relroPages count flags) 0 0x1100000 =
      filePhdrs (relroPages count flags).bytes 0x1100034 0 n := by
  have hstart : (0x1100000 : Ptr).toNat = 0x1100000 := rfl
  have htable : (0x1100034 : Ptr).toNat = 0x1100034 := rfl
  have hfirst : relroPages count flags 0 = firstPages 0 := relroPages_of_ne (by decide)
  have hapart : HeadersApart (relroPages count flags) 0 0x1100000 := by
    refine ⟨fun a ha => firstPages_apart hfirst ?_, fun a ha => firstPages_apart hfirst ?_⟩
    · rw [BitVec.toNat_sub, hstart] at ha
      omega
    · rw [hphdrs, BitVec.toNat_sub, htable, phdrSize, hphnum] at ha
      omega
  rw [mappedPhdrs_of_apart (relroPages_directory count flags) hapart, hphnum, hphdrs]

end Relro

/-- The second header as read-only as a linker makes it, or writable. -/
theorem mappedPhdrs_two
    {flags : Word} (hflags : flags = 4 ∨ flags = 6) :
    mappedPhdrs (relroPages 2 flags) 0 0x1100000 = [loadPhdr, relroPhdr flags] := by
  have hload : phdrAt (relroPages 2 flags).bytes 0x1100034 = loadPhdr := by
    rcases hflags with rfl | rfl <;> decide
  have hrelro : phdrAt (relroPages 2 flags).bytes 0x1100054 = relroPhdr flags := by
    rcases hflags with rfl | rfl <;> decide
  rw [mappedPhdrs_relroPages (n := 2) le_rfl, ← hload, ← hrelro]
  · rfl
  · rcases hflags with rfl | rfl <;> decide
  · rcases hflags with rfl | rfl <;> decide

theorem mappedPhdrs_one
    {flags : Word} (hflags : flags = 4 ∨ flags = 6) :
    mappedPhdrs (relroPages 1 flags) 0 0x1100000 = [loadPhdr] := by
  have hload : phdrAt (relroPages 1 flags).bytes 0x1100034 = loadPhdr := by
    rcases hflags with rfl | rfl <;> decide
  rw [mappedPhdrs_relroPages (n := 1) Nat.le.refl.step, ← hload]
  · rfl
  · rcases hflags with rfl | rfl <;> decide
  · rcases hflags with rfl | rfl <;> decide

theorem relroPages_loadOnly
    {flags : Word} (hflags : flags = 4 ∨ flags = 6) :
    LoadOnly (relroPages 2 flags) (relroPages 1 flags) 0 0x1100000 where
  phdrs := by
    rw [mappedPhdrs_two hflags, mappedPhdrs_one hflags]
    rfl
  entries := (relroPages_of_ne (by decide)).trans (relroPages_of_ne (by decide)).symm
  tables := by
    intro i
    have hfirst : relroPages 2 flags 0 = firstPages 0 := relroPages_of_ne (by decide)
    have hne := (firstPages_apart hfirst (a := 0x1100000) (by decide) i).symm
    rw [relroPages_of_ne hne, relroPages_of_ne hne]

/-- Both headers are accepted, so none is missed. -/
theorem relroPhdrs_accepted
    {flags : Word} (hflags : flags = 4 ∨ flags = 6) :
    acceptedPhdrs 0x1100000 [loadPhdr, relroPhdr flags] = [loadPhdr, relroPhdr flags] ∧
      missedPhdrs 0x1100000 [loadPhdr, relroPhdr flags] = [] := by
  rcases hflags with rfl | rfl <;> exact ⟨by decide, by decide⟩

/-- The same page, mapped a second time for writing. -/
theorem processMapElf_loadOnly_iff_writeable :
    SameMapping (relroPages 2 6) (relroPages 1 6) 0 0x1100000 := by
  have hflags : (6 : Word) = 4 ∨ (6 : Word) = 6 := Or.inr rfl
  obtain ⟨haccepted, hmissed⟩ := relroPhdrs_accepted hflags
  refine (processMapElf_loadOnly_iff (relroPages_directory 2 6)
    (relroPages_loadOnly hflags)).1.mpr fun v _ => ?_
  rw [mappedPhdrs_two hflags]
  refine ⟨fun _ front phdr back hsplit hother _ entry hentry => ?_,
    fun front phdr back hsplit => ?_⟩
  · rw [haccepted] at hsplit
    cases front with
    | nil =>
        obtain ⟨rfl, -⟩ := List.cons.inj hsplit
        exact absurd hother (by decide)
    | cons first front =>
        obtain rfl : loadPhdr = first := (List.cons.inj hsplit).1
        have htail : front ++ phdr :: back = [relroPhdr 6] := (List.cons.inj hsplit).2.symm
        obtain ⟨rfl, hback⟩ | ⟨-, hnil⟩ := List.append_eq_singleton_iff.mp htail
        case inr => exact absurd hnil (List.cons_ne_nil _ _)
        obtain ⟨rfl, -⟩ := List.cons.inj hback
        have hload : loadPhdr.entryAt 0x1100000 v = some entry := hentry
        rw [List.filter_cons_of_pos (by decide), List.filter_nil, overlay_cons, hload]
        rfl
  · rw [hmissed] at hsplit
    exact absurd hsplit.symm (List.append_ne_nil_of_right_ne_nil _ (List.cons_ne_nil _ _))

/-- Every image that is accepted is given the page table of its `PT_LOAD` headers. -/
def AlwaysLoadOnly : Prop :=
  ∀ mem mem₂ directory elfMemory, PageDirectory mem directory →
    (elfProcessLoaded mem.bytes ⟨elfMemory, 0, 0, 0, 0⟩).1 = 0 →
    LoadOnly mem mem₂ directory elfMemory → SameMapping mem mem₂ directory elfMemory

/-- A read-only header takes the write permission of the segment away. -/
theorem alwaysLoadOnly_false : ¬ AlwaysLoadOnly := by
  intro h
  have hflags : (4 : Word) = 4 ∨ (4 : Word) = 6 := Or.inl rfl
  have haccepted : (elfProcessLoaded (relroPages 2 4).bytes ⟨0x1100000, 0, 0, 0, 0⟩).1 = 0 :=
    (elfProcessLoaded_accepts_iff _ _).mpr (by decide)
  have hsame := h _ _ _ _ (relroPages_directory 2 4) haccepted (relroPages_loadOnly hflags)
  have hhidden := ((relroPages_loadOnly hflags).entry_iff (relroPages_directory 2 4)
    (by decide)).mp (hsame 0x400000 (by decide))
  rw [mappedPhdrs_two hflags] at hhidden
  obtain ⟨haccepted', hmissed⟩ := relroPhdrs_accepted hflags
  have hnone : ∀ phdr ∈ missedPhdrs 0x1100000 [loadPhdr, relroPhdr 4],
      phdr.entryAt 0x1100000 0x400000 = none := by
    rw [hmissed]
    exact fun _ hmem => absurd hmem List.not_mem_nil
  have hentry := hhidden.hidden hnone [loadPhdr] (relroPhdr 4) [] haccepted' (by decide)
    (fun _ hmem => absurd hmem List.not_mem_nil) 0x1100005 (by decide)
  exact absurd hentry (by decide)

end PeachOS
