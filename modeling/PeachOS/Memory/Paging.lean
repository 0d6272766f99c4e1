import PeachOS.Config

/-!
# Page directories

`paging.c` over the words of memory: a page directory and the tables that its
entries point to are pages like any other.
-/

namespace PeachOS

/-- The pages of memory, each of 1024 words. -/
abbrev Pages := Ptr → Fin 1024 → Word

def Pages.store (mem : Pages) (page : Ptr) (i : Fin 1024) (val : Word) : Pages :=
  fun p j => if p = page ∧ j = i then val else mem p j

def PageAligned (addr : Ptr) : Prop := addr.toNat % pagingPageSize = 0

instance (addr : Ptr) : Decidable (PageAligned addr) :=
  inferInstanceAs (Decidable (_ = _))

def directoryIndex (virt : Ptr) : Fin 1024 :=
  ⟨virt.toNat / (pagingTotalEntriesPerTable * pagingPageSize), by
    have := virt.isLt
    unfold pagingTotalEntriesPerTable pagingPageSize
    omega⟩

def tableIndex (virt : Ptr) : Fin 1024 :=
  ⟨virt.toNat % (pagingTotalEntriesPerTable * pagingPageSize) / pagingPageSize, by
    unfold pagingTotalEntriesPerTable pagingPageSize
    omega⟩

/-- The status, and the indexes, which are `out` after an error. -/
def pagingGetIndexes (virt : Ptr) (out : Fin 1024 × Fin 1024) :
    Int × Fin 1024 × Fin 1024 :=
  if ¬ PageAligned virt then (-einvarg, out) else (0, directoryIndex virt, tableIndex virt)

def pagingIsAllignedAddress (ptr : Ptr) : Ptr :=
  if ptr % 4096 ≠ 0 then ptr + 4096 - ptr % 4096 else ptr

def pagingAlignToLowerPage (addr : Ptr) : Ptr :=
  addr - addr % 4096

def tableAt (mem : Pages) (directory : Ptr) (i : Fin 1024) : Ptr :=
  mem directory i &&& 0xfffff000

def pagingSet (mem : Pages) (directory virt : Ptr) (val : Word) : Int × Pages :=
  if ¬ PageAligned virt then
    (-einvarg, mem)
  else
    let (res, directoryIndex, tableIndex) := pagingGetIndexes virt (0, 0)
    if res < 0 then
      (res, mem)
    else
      (0, mem.store (tableAt mem directory directoryIndex) tableIndex val)

def pagingGet (mem : Pages) (directory virt : Ptr) : Word :=
  let (_, directoryIndex, tableIndex) := pagingGetIndexes virt (0, 0)
  mem (tableAt mem directory directoryIndex) tableIndex

def pagingGetPhysicalAddress (mem : Pages) (directory virt : Ptr) : Ptr :=
  let virtAddrNew := pagingAlignToLowerPage virt
  let difference := virt - virtAddrNew
  (pagingGet mem directory virtAddrNew &&& 0xfffff000) + difference

def pagingMap (mem : Pages) (directory virt phys : Ptr) (flags : Word) : Int × Pages :=
  if ¬ PageAligned virt ∨ ¬ PageAligned phys then
    (-einvarg, mem)
  else
    pagingSet mem directory virt (phys ||| flags)

/-- The loop of `paging_map_range`, with `count` rounds to go. -/
def pagingMapRange (mem : Pages) (directory virt phys : Ptr) (flags : Word) :
    Nat → Int × Pages
  | 0 => (0, mem)
  | count + 1 =>
      let (res, mem) := pagingMap mem directory virt phys flags
      if res < 0 then
        (res, mem)
      else
        pagingMapRange mem directory (virt + 4096) (phys + 4096) flags count

def pagingMapTo (mem : Pages) (directory virt phys physEnd : Ptr) (flags : Word) :
    Int × Pages :=
  if ¬ PageAligned virt then
    (-einvarg, mem)
  else if ¬ PageAligned phys then
    (-einvarg, mem)
  else if ¬ PageAligned physEnd then
    (-einvarg, mem)
  else if physEnd < phys then
    (-einvarg, mem)
  else
    let totalBytes := physEnd - phys
    let totalPages := totalBytes.toNat / pagingPageSize
    pagingMapRange mem directory virt phys flags totalPages

theorem toNat_pagingIsAllignedAddress
    {addr : Ptr} (h : addr.toNat + 4096 ≤ 2 ^ 32) :
    (pagingIsAllignedAddress addr).toNat = (addr.toNat + 4095) / 4096 * 4096 := by
  have hmod : (addr % 4096).toNat = addr.toNat % 4096 := BitVec.toNat_umod
  have hpage : (4096 : Ptr).toNat = 4096 := rfl
  rw [pagingIsAllignedAddress]
  split_ifs with h0
  · have hne : addr.toNat % 4096 ≠ 0 := fun heq =>
      h0 (BitVec.eq_of_toNat_eq (by rw [hmod, heq]; rfl))
    rw [BitVec.toNat_sub, BitVec.toNat_add, hmod, hpage]
    omega
  · rw [not_not] at h0
    have heq : addr.toNat % 4096 = 0 := by
      rw [← hmod, h0]
      rfl
    omega

/-- The address `i` pages behind `virt`, round the address space. -/
def pageAt (virt : Ptr) (i : Nat) : Ptr := virt + BitVec.ofNat 32 (pagingPageSize * i)

theorem toNat_pageAt
    (virt : Ptr) (i : Nat) :
    (pageAt virt i).toNat = (virt.toNat + 4096 * i) % 2 ^ 32 := by
  rw [pageAt, BitVec.toNat_add, BitVec.toNat_ofNat, pagingPageSize]
  omega

theorem pageAt_zero
    (virt : Ptr) :
    pageAt virt 0 = virt := by
  simp [pageAt]

theorem pageAt_succ
    (virt : Ptr) (i : Nat) :
    pageAt (virt + 4096) i = pageAt virt (i + 1) := by
  refine BitVec.eq_of_toNat_eq ?_
  have hpage : (4096 : Ptr).toNat = 4096 := rfl
  rw [toNat_pageAt, toNat_pageAt, BitVec.toNat_add, hpage]
  omega

theorem pageAligned_pageAt
    {virt : Ptr} (h : PageAligned virt) (i : Nat) :
    PageAligned (pageAt virt i) := by
  unfold PageAligned pagingPageSize at *
  rw [toNat_pageAt]
  omega

/-- The first `2^20` pages from an address on differ. -/
theorem pageAt_inj
    {virt : Ptr} {i j : Nat}
    (hi : i < 2 ^ 20) (hj : j < 2 ^ 20) :
    pageAt virt i = pageAt virt j ↔ i = j := by
  refine ⟨?_, fun h => h ▸ rfl⟩
  intro h
  have hnat := congrArg BitVec.toNat h
  rw [toNat_pageAt, toNat_pageAt] at hnat
  omega

theorem pageAligned_add
    {virt : Ptr} (h : PageAligned virt) :
    PageAligned (virt + 4096) := by
  have haligned := pageAligned_pageAt h 1
  rwa [show pageAt virt 1 = virt + 4096 from rfl] at haligned

/-- The two indexes of a page determine it. -/
theorem eq_of_indexes
    {v w : Ptr}
    (hv : PageAligned v) (hw : PageAligned w)
    (hdirectory : directoryIndex v = directoryIndex w) (htable : tableIndex v = tableIndex w) :
    v = w := by
  have hd := congrArg Fin.val hdirectory
  have ht := congrArg Fin.val htable
  unfold PageAligned at hv hw
  simp only [directoryIndex, tableIndex, pagingTotalEntriesPerTable, pagingPageSize] at *
  exact BitVec.eq_of_toNat_eq (by omega)

theorem Pages.store_of_ne
    (mem : Pages) {page p : Ptr} (i : Fin 1024) (val : Word)
    (h : p ≠ page) :
    mem.store page i val p = mem p := by
  funext j
  exact if_neg fun hp => h hp.1

/-- The entries of the directory point to tables of their own. -/
structure PageDirectory (mem : Pages) (directory : Ptr) : Prop where
  distinct : Function.Injective (tableAt mem directory)
  apart : ∀ i, tableAt mem directory i ≠ directory

section Entry

variable {mem : Pages} {directory : Ptr}

theorem tableAt_congr
    {mem' : Pages} (h : mem' directory = mem directory) :
    tableAt mem' directory = tableAt mem directory := by
  funext i
  rw [tableAt, tableAt, h]

theorem PageDirectory.congr
    (hdir : PageDirectory mem directory) {mem' : Pages}
    (h : mem' directory = mem directory) :
    PageDirectory mem' directory where
  distinct := by
    rw [tableAt_congr h]
    exact hdir.distinct
  apart := by
    rw [tableAt_congr h]
    exact hdir.apart

theorem pagingGet_of_aligned
    {virt : Ptr} (h : PageAligned virt) :
    pagingGet mem directory virt =
      mem (tableAt mem directory (directoryIndex virt)) (tableIndex virt) := by
  rw [pagingGet, pagingGetIndexes, if_neg (not_not.mpr h)]

/-- Entries are read from the directory and from its tables. -/
theorem pagingGet_congr
    {mem' : Pages} (hdirectory : mem' directory = mem directory)
    (htables : ∀ i, mem' (tableAt mem directory i) = mem (tableAt mem directory i))
    {virt : Ptr} (h : PageAligned virt) :
    pagingGet mem' directory virt = pagingGet mem directory virt := by
  rw [pagingGet_of_aligned h, pagingGet_of_aligned h, tableAt_congr hdirectory, htables]

theorem pagingMap_of_aligned
    {virt phys : Ptr} (hvirt : PageAligned virt) (hphys : PageAligned phys) (flags : Word) :
    pagingMap mem directory virt phys flags =
      (0, mem.store (tableAt mem directory (directoryIndex virt)) (tableIndex virt)
        (phys ||| flags)) := by
  rw [pagingMap, if_neg (by simp [hvirt, hphys]), pagingSet, if_neg (not_not.mpr hvirt),
    pagingGetIndexes, if_neg (not_not.mpr hvirt)]
  rfl

end Entry

/-- The pages from `virt` on, `count` of them, are mapped to those from `phys`
on, and nothing else has changed. -/
structure Maps (mem mem' : Pages) (directory virt phys : Ptr) (flags : Word) (count : Nat) :
    Prop where
  mapped : ∀ i < count,
    pagingGet mem' directory (pageAt virt i) = pageAt phys i ||| flags
  other : ∀ v, PageAligned v → (∀ i < count, v ≠ pageAt virt i) →
    pagingGet mem' directory v = pagingGet mem directory v
  entries : mem' directory = mem directory
  frame : ∀ page, (∀ i, page ≠ tableAt mem directory i) → mem' page = mem page

section Range

variable {mem : Pages} {directory : Ptr}

theorem Maps.zero
    (mem : Pages) (directory virt phys : Ptr) (flags : Word) :
    Maps mem mem directory virt phys flags 0 where
  mapped := fun i hi => absurd hi (Nat.not_lt_zero i)
  other := fun _ _ _ => rfl
  entries := rfl
  frame := fun _ _ => rfl

/-- One entry is one page. -/
theorem Maps.one
    (hdir : PageDirectory mem directory) {virt : Ptr}
    (hvirt : PageAligned virt) (phys : Ptr) (flags : Word) :
    Maps mem (mem.store (tableAt mem directory (directoryIndex virt)) (tableIndex virt)
      (phys ||| flags)) directory virt phys flags 1 := by
  have hdirectory : mem.store (tableAt mem directory (directoryIndex virt)) (tableIndex virt)
      (phys ||| flags) directory = mem directory :=
    mem.store_of_ne _ _ (hdir.apart _).symm
  refine ⟨?_, ?_, hdirectory, ?_⟩
  · intro i hi
    obtain rfl : i = 0 := by omega
    rw [pageAt_zero, pageAt_zero, pagingGet_of_aligned hvirt, tableAt_congr hdirectory]
    exact if_pos ⟨rfl, rfl⟩
  · intro v hv hne
    rw [pagingGet_of_aligned hv, pagingGet_of_aligned hv, tableAt_congr hdirectory]
    refine if_neg ?_
    rintro ⟨htable, hindex⟩
    refine hne 0 Nat.one_pos ?_
    rw [pageAt_zero]
    exact eq_of_indexes hv hvirt (hdir.distinct htable) hindex
  · intro page hpage
    exact mem.store_of_ne _ _ (hpage _)

/-- A page and the pages behind it. -/
theorem Maps.cons
    {mem₁ mem₂ : Pages} {virt phys : Ptr} {flags : Word} {count : Nat}
    (hvirt : PageAligned virt) (hcount : count + 1 ≤ 2 ^ 20)
    (first : Maps mem mem₁ directory virt phys flags 1)
    (rest : Maps mem₁ mem₂ directory (virt + 4096) (phys + 4096) flags count) :
    Maps mem mem₂ directory virt phys flags (count + 1) where
  mapped := by
    intro i hi
    cases i with
    | zero =>
        rw [rest.other _ (pageAligned_pageAt hvirt 0), first.mapped 0 Nat.one_pos]
        intro j hj h
        rw [pageAt_succ, pageAt_inj (by omega) (by omega)] at h
        omega
    | succ i =>
        rw [← pageAt_succ, ← pageAt_succ]
        exact rest.mapped i (by omega)
  other := by
    intro v hv hne
    rw [rest.other v hv, first.other v hv]
    · intro i hi
      exact hne i (by omega)
    · intro i hi
      rw [pageAt_succ]
      exact hne (i + 1) (by omega)
  entries := rest.entries.trans first.entries
  frame := by
    intro page hpage
    rw [rest.frame page, first.frame page hpage]
    rw [tableAt_congr first.entries]
    exact hpage

/-- The loop never stops on the way, since every page of the range is aligned. -/
theorem pagingMapRange_spec
    (hdir : PageDirectory mem directory) {virt phys : Ptr}
    (hvirt : PageAligned virt) (hphys : PageAligned phys) (flags : Word)
    {count : Nat} (hcount : count ≤ 2 ^ 20) :
    ∃ mem', pagingMapRange mem directory virt phys flags count = (0, mem') ∧
      Maps mem mem' directory virt phys flags count := by
  induction count generalizing mem virt phys with
  | zero => exact ⟨mem, rfl, Maps.zero ..⟩
  | succ count ih =>
      have hfirst := Maps.one hdir hvirt phys flags
      obtain ⟨mem', hrange, hrest⟩ := ih (hdir.congr hfirst.entries) (pageAligned_add hvirt)
        (pageAligned_add hphys) (by omega)
      refine ⟨mem', ?_, Maps.cons hvirt hcount hfirst hrest⟩
      rw [pagingMapRange, pagingMap_of_aligned hvirt hphys]
      exact hrange

/-- What `paging_map_to` accepts. -/
structure Mappable (virt phys physEnd : Ptr) : Prop where
  alignedVirt : PageAligned virt
  alignedPhys : PageAligned phys
  alignedEnd : PageAligned physEnd
  le : phys ≤ physEnd

instance (virt phys physEnd : Ptr) : Decidable (Mappable virt phys physEnd) :=
  decidable_of_iff
    (PageAligned virt ∧ PageAligned phys ∧ PageAligned physEnd ∧ phys ≤ physEnd)
    ⟨fun h => ⟨h.1, h.2.1, h.2.2.1, h.2.2.2⟩,
      fun h => ⟨h.alignedVirt, h.alignedPhys, h.alignedEnd, h.le⟩⟩

theorem pagingMapTo_of_mappable
    {virt phys physEnd : Ptr} (h : Mappable virt phys physEnd) (flags : Word) :
    pagingMapTo mem directory virt phys physEnd flags =
      pagingMapRange mem directory virt phys flags
        ((physEnd - phys).toNat / pagingPageSize) := by
  rw [pagingMapTo, if_neg (not_not.mpr h.alignedVirt), if_neg (not_not.mpr h.alignedPhys),
    if_neg (not_not.mpr h.alignedEnd), if_neg (BitVec.not_lt.mpr h.le)]

/-- Aligned pages are mapped whatever memory holds. -/
theorem pagingMapRange_returns
    {virt phys : Ptr} (hvirt : PageAligned virt) (hphys : PageAligned phys) (flags : Word)
    (count : Nat) :
    (pagingMapRange mem directory virt phys flags count).1 = 0 := by
  induction count generalizing mem virt phys with
  | zero => rfl
  | succ count ih =>
      rw [pagingMapRange, pagingMap_of_aligned hvirt hphys]
      exact ih (pageAligned_add hvirt) (pageAligned_add hphys)

theorem pagingMapTo_of_not_mappable
    {virt phys physEnd : Ptr} (h : ¬ Mappable virt phys physEnd) (flags : Word) :
    pagingMapTo mem directory virt phys physEnd flags = (-einvarg, mem) := by
  rw [pagingMapTo]
  split_ifs with hvirt hphys hend hle
  · rfl
  · exact absurd ⟨hvirt, hphys, hend, BitVec.not_lt.mp hle⟩ h
  all_goals rfl

theorem pagingMapTo_spec
    (hdir : PageDirectory mem directory) {virt phys physEnd : Ptr}
    (h : Mappable virt phys physEnd) (flags : Word) :
    ∃ mem', pagingMapTo mem directory virt phys physEnd flags = (0, mem') ∧
      Maps mem mem' directory virt phys flags ((physEnd - phys).toNat / pagingPageSize) := by
  have hcount : (physEnd - phys).toNat / pagingPageSize ≤ 2 ^ 20 := by
    have := (physEnd - phys).isLt
    unfold pagingPageSize
    omega
  rw [pagingMapTo_of_mappable h]
  exact pagingMapRange_spec hdir h.alignedVirt h.alignedPhys flags hcount

end Range

theorem pageMask_bit :
    ∀ i : Nat, (h : i < 32) → (0xfffff000 : Word)[i] = decide (12 ≤ i) := by
  decide

/-- The flags of an entry lie below its page. -/
theorem or_and_pageMask
    {page flags : Word}
    (hpage : PageAligned page) (hflags : flags.toNat < 4096) :
    (page ||| flags) &&& 0xfffff000 = page := by
  ext i hi
  rw [BitVec.getElem_and, BitVec.getElem_or, pageMask_bit i hi]
  have hbit : page[i] = page.toNat.testBit i := BitVec.getElem_eq_testBit_toNat page i hi
  rcases Nat.lt_or_ge i 12 with hlow | hhigh
  · have hzero : page.toNat.testBit i = false := by
      have hmod := Nat.testBit_mod_two_pow page.toNat 12 i
      rw [show page.toNat % 2 ^ 12 = 0 from hpage] at hmod
      simpa [hlow] using hmod
    simp [hlow, hbit, hzero]
  · have hzero : flags[i] = false := by
      rw [BitVec.getElem_eq_testBit_toNat]
      exact Nat.testBit_lt_two_pow
        (Nat.lt_of_lt_of_le hflags (Nat.pow_le_pow_right Nat.two_pos hhigh))
    simp [hhigh, hzero]

theorem pageAligned_and_pageMask
    (entry : Word) :
    PageAligned (entry &&& 0xfffff000) := by
  rw [PageAligned, pagingPageSize, BitVec.toNat_and]
  change (entry.toNat &&& 0xfffff000) % 2 ^ 12 = 0
  rw [Nat.and_mod_two_pow, show 0xfffff000 % 2 ^ 12 = 0 from rfl, Nat.and_zero]

/-- The lowest three bits of an entry are its flags. -/
theorem or_and_accessMask
    {page : Word} (hpage : PageAligned page) (flags : Word) :
    (page ||| flags) &&& 7 = flags &&& 7 := by
  have hzero : page &&& 7 = 0 := by
    refine BitVec.eq_of_toNat_eq ?_
    rw [BitVec.toNat_and]
    change page.toNat &&& (2 ^ 3 - 1) = 0
    rw [Nat.and_two_pow_sub_one_eq_mod]
    unfold PageAligned pagingPageSize at hpage
    omega
  rw [BitVec.and_or_distrib_right, hzero]
  exact BitVec.zero_or

theorem toNat_alignToLowerPage
    (addr : Ptr) :
    (pagingAlignToLowerPage addr).toNat = addr.toNat / 4096 * 4096 := by
  have hmod : (addr % 4096).toNat = addr.toNat % 4096 := BitVec.toNat_umod
  have hle : addr % 4096 ≤ addr := by
    rw [BitVec.le_def, hmod]
    exact Nat.mod_le _ _
  rw [pagingAlignToLowerPage, BitVec.toNat_sub_of_le hle, hmod]
  omega

theorem alignToLowerPage_pageAt
    {virt : Ptr} (h : PageAligned virt) (d : Nat) :
    pagingAlignToLowerPage (virt + BitVec.ofNat 32 d) = pageAt virt (d / 4096) := by
  refine BitVec.eq_of_toNat_eq ?_
  unfold PageAligned pagingPageSize at h
  rw [toNat_alignToLowerPage, toNat_pageAt, BitVec.toNat_add, BitVec.toNat_ofNat]
  omega

theorem pageAt_add
    (virt : Ptr) (d : Nat) :
    pageAt virt (d / 4096) + BitVec.ofNat 32 (d % 4096) = virt + BitVec.ofNat 32 d := by
  refine BitVec.eq_of_toNat_eq ?_
  rw [BitVec.toNat_add, BitVec.toNat_add, toNat_pageAt, BitVec.toNat_ofNat, BitVec.toNat_ofNat]
  omega

theorem sub_pageAt
    (virt : Ptr) (d : Nat) :
    virt + BitVec.ofNat 32 d - pageAt virt (d / 4096) = BitVec.ofNat 32 (d % 4096) := by
  rw [← pageAt_add, BitVec.add_comm, BitVec.add_sub_cancel]

/-- A byte behind a page translates through the entry of the page it lies in. -/
theorem pagingGetPhysicalAddress_of_get
    {mem : Pages} {directory virt phys : Ptr} {flags : Word} {d : Nat}
    (hvirt : PageAligned virt) (hphys : PageAligned phys) (hflags : flags.toNat < 4096)
    (hget : pagingGet mem directory (pageAt virt (d / 4096)) = pageAt phys (d / 4096) ||| flags) :
    pagingGetPhysicalAddress mem directory (virt + BitVec.ofNat 32 d) =
      phys + BitVec.ofNat 32 d := by
  rw [pagingGetPhysicalAddress, alignToLowerPage_pageAt hvirt, sub_pageAt, hget,
    or_and_pageMask (pageAligned_pageAt hphys _) hflags, pageAt_add]

/-- A byte of a mapped range is where the range was mapped to. -/
theorem Maps.physicalAddress
    {mem mem' : Pages} {directory virt phys : Ptr} {flags : Word} {count : Nat}
    (h : Maps mem mem' directory virt phys flags count)
    (hvirt : PageAligned virt) (hphys : PageAligned phys) (hflags : flags.toNat < 4096)
    {d : Nat} (hd : d < 4096 * count) :
    pagingGetPhysicalAddress mem' directory (virt + BitVec.ofNat 32 d) =
      phys + BitVec.ofNat 32 d :=
  pagingGetPhysicalAddress_of_get hvirt hphys hflags (h.mapped _ (by omega))

/-- Only tables have been written, and entries that have changed lead to `S`. -/
structure Remaps (mem mem' : Pages) (directory : Ptr) (S : Ptr → Prop) : Prop where
  entries : mem' directory = mem directory
  frame : ∀ page, (∀ i, page ≠ tableAt mem directory i) → mem' page = mem page
  get : ∀ v, PageAligned v → pagingGet mem' directory v = pagingGet mem directory v ∨
    S (pagingGet mem' directory v &&& 0xfffff000)

theorem Remaps.refl
    (mem : Pages) (directory : Ptr) (S : Ptr → Prop) :
    Remaps mem mem directory S :=
  ⟨rfl, fun _ _ => rfl, fun _ _ => Or.inl rfl⟩

theorem Remaps.trans
    {mem mem' mem'' : Pages} {directory : Ptr} {S : Ptr → Prop} (h : Remaps mem mem' directory S)
    (h' : Remaps mem' mem'' directory S) :
    Remaps mem mem'' directory S where
  entries := h'.entries.trans h.entries
  frame := by
    intro page hpage
    rw [h'.frame page, h.frame page hpage]
    rw [tableAt_congr h.entries]
    exact hpage
  get := by
    intro v hv
    rcases h'.get v hv with heq | hS
    · rw [heq]
      exact h.get v hv
    · exact Or.inr hS

theorem Maps.remaps
    {mem mem' : Pages} {directory virt phys : Ptr} {flags : Word} {count : Nat} {S : Ptr → Prop}
    (h : Maps mem mem' directory virt phys flags count) (hphys : PageAligned phys)
    (hflags : flags.toNat < 4096) (hS : ∀ i < count, S (pageAt phys i)) :
    Remaps mem mem' directory S where
  entries := h.entries
  frame := h.frame
  get := by
    intro v hv
    rcases Classical.em (∃ i < count, v = pageAt virt i) with ⟨i, hi, rfl⟩ | hout
    · refine Or.inr ?_
      rw [h.mapped i hi, or_and_pageMask (pageAligned_pageAt hphys i) hflags]
      exact hS i hi
    · exact Or.inl (h.other v hv fun i hi heq => hout ⟨i, hi, heq⟩)

theorem pagingMapTo_remaps
    {mem : Pages} {directory virt phys physEnd : Ptr} {flags : Word} {S : Ptr → Prop}
    (hdir : PageDirectory mem directory) (hflags : flags.toNat < 4096)
    (hS : Mappable virt phys physEnd →
      ∀ i < (physEnd - phys).toNat / pagingPageSize, S (pageAt phys i)) :
    Remaps mem (pagingMapTo mem directory virt phys physEnd flags).2 directory S := by
  by_cases h : Mappable virt phys physEnd
  · obtain ⟨mem', hmap, hmaps⟩ := pagingMapTo_spec hdir h flags
    rw [hmap]
    exact hmaps.remaps h.alignedPhys hflags (hS h)
  · rw [pagingMapTo_of_not_mappable h]
    exact Remaps.refl mem directory S

/-- A range is mapped whole or not at all. -/
theorem pagingMapTo_exact
    (mem : Pages) (directory : Ptr) (hdir : PageDirectory mem directory)
    (virt phys physEnd flags : Word) (hflags : flags.toNat < 4096) :
    ∃ res mem', pagingMapTo mem directory virt phys physEnd flags = (res, mem') ∧
      (res < 0 ∧ mem' = mem ∧ ¬ Mappable virt phys physEnd ∨
        res = 0 ∧ Mappable virt phys physEnd ∧
          (∀ i < (physEnd - phys).toNat / 4096,
            pagingGet mem' directory (pageAt virt i) = pageAt phys i ||| flags) ∧
          (∀ v, PageAligned v →
            (∀ i < (physEnd - phys).toNat / 4096, v ≠ pageAt virt i) →
            pagingGet mem' directory v = pagingGet mem directory v) ∧
          mem' directory = mem directory ∧
          ∀ d < (physEnd - phys).toNat,
            pagingGetPhysicalAddress mem' directory (virt + BitVec.ofNat 32 d) =
              phys + BitVec.ofNat 32 d) := by
  by_cases h : Mappable virt phys physEnd
  · obtain ⟨mem', hmap, hmaps⟩ := pagingMapTo_spec hdir h flags
    refine ⟨0, mem', hmap, Or.inr ⟨rfl, h, hmaps.mapped, hmaps.other, hmaps.entries, ?_⟩⟩
    intro d hd
    refine hmaps.physicalAddress h.alignedVirt h.alignedPhys hflags ?_
    have hphys := h.alignedPhys
    have hend := h.alignedEnd
    unfold PageAligned at hphys hend
    rw [BitVec.toNat_sub_of_le h.le] at hd ⊢
    unfold pagingPageSize at *
    omega
  · exact ⟨-einvarg, mem, pagingMapTo_of_not_mappable h flags, Or.inl ⟨by decide, rfl, h⟩⟩

/-- The directory at 0 of tables behind it. -/
def firstPages : Pages := fun page i =>
  if page = 0 then BitVec.ofNat 32 (4096 * (i + 1)) else 0

theorem tableAt_firstPages
    (i : Fin 1024) :
    tableAt firstPages 0 i = BitVec.ofNat 32 (4096 * (i + 1)) := by
  have haligned : PageAligned (BitVec.ofNat 32 (4096 * (i + 1))) := by
    unfold PageAligned pagingPageSize
    rw [BitVec.toNat_ofNat]
    omega
  have hmask := @or_and_pageMask _ 0#32 haligned (by decide)
  rwa [BitVec.or_zero] at hmask

theorem firstPages_directory : PageDirectory firstPages 0 where
  distinct := by
    intro i j h
    rw [tableAt_firstPages, tableAt_firstPages] at h
    have hnat := congrArg BitVec.toNat h
    rw [BitVec.toNat_ofNat, BitVec.toNat_ofNat] at hnat
    exact Fin.ext (by omega)
  apart := by
    intro i h
    rw [tableAt_firstPages] at h
    have hnat := congrArg BitVec.toNat h
    rw [BitVec.toNat_ofNat] at hnat
    have hzero : (0 : Ptr).toNat = 0 := rfl
    omega

/-- Everything behind the first 1025 pages is apart from the tables. -/
theorem firstPages_apart
    {mem : Pages} (h : mem 0 = firstPages 0) {a : Ptr} (ha : 0x401000 ≤ a.toNat) (i : Fin 1024) :
    pagingAlignToLowerPage a ≠ tableAt mem 0 i := by
  rw [tableAt_congr h, tableAt_firstPages]
  intro heq
  have hnat := congrArg BitVec.toNat heq
  rw [toNat_alignToLowerPage, BitVec.toNat_ofNat] at hnat
  omega

/-- Two pages at the end of the address space, the second one at its start. -/
theorem pagingMapTo_exact_wraps :
    ∃ res mem', pagingMapTo firstPages 0 0xfffff000 0x5000 0x7000 7 = (res, mem') ∧
      (res = 0 → pagingGet mem' 0 0xfffff000 = 0x5007) := by
  obtain ⟨res, mem', hmap, h⟩ := pagingMapTo_exact firstPages 0 firstPages_directory
    0xfffff000 0x5000 0x7000 7 (by decide)
  refine ⟨res, mem', hmap, fun hres => ?_⟩
  rcases h with ⟨hneg, -⟩ | ⟨-, -, hmapped, -⟩
  · omega
  · exact hmapped 0 (by decide)

end PeachOS
