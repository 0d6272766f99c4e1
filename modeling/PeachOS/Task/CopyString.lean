import PeachOS.Lib.ByteStrings
import PeachOS.StringCopy
import PeachOS.Task.AddressSpace

/-!
# `copy_string_from_task`

A string goes from the address space of a task to the kernel through a block that
both see at one address: its page is mapped into the address space for the time of
the copy, and the entry that was there is put back.  The kernel's own addresses are
physical.
-/

namespace PeachOS

open Lib

/-- Both entries of the page of `virt` are present. -/
def Present (mem : Pages) (directory virt : Ptr) : Prop :=
  mem directory (directoryIndex (pagingAlignToLowerPage virt)) &&& pagingIsPresent =
      pagingIsPresent ∧
    pagingGet mem directory (pagingAlignToLowerPage virt) &&& pagingIsPresent = pagingIsPresent

instance (mem : Pages) (directory virt : Ptr) : Decidable (Present mem directory virt) :=
  inferInstanceAs (Decidable (_ ∧ _))

/-- A kernel with the page directory that the processor uses. -/
structure Paged where
  kernel : Kernel
  current : Ptr

namespace Paged

def setMem (s : Paged) (mem : Pages) : Paged :=
  { s with kernel := { s.kernel with mem := mem } }

def pagingSwitch (s : Paged) (chunk : Ptr) : Except Halt Paged := do
  let directory ← follow s.kernel.chunks chunk
  pure { s with current := directory }

/-- What the processor makes of an address in the address space that it uses; the
kernel reads and writes every page that is present. -/
def address (s : Paged) (virt : Ptr) : Except Halt Ptr :=
  if Present s.kernel.mem s.current virt then
    .ok (pagingGetPhysicalAddress s.kernel.mem s.current virt)
  else
    .error .fault

def load (s : Paged) (virt : Ptr) : Except Halt Byte := do
  let phys ← s.address virt
  pure (s.kernel.mem.bytes phys)

def store (s : Paged) (virt : Ptr) (c : Byte) : Except Halt Paged := do
  let phys ← s.address virt
  pure (s.setMem (Pages.ofBytes (storeBytes s.kernel.mem.bytes phys [c])))

/-- `strncpy(tmp, virtual, max)` in the address space of the task. -/
def copyToTmp (copying : Copying) (s : Paged) (tmp virt : Ptr) (max : Int) : Except Halt Paged :=
  copying.strncpy (fun s i => s.load (virt + BitVec.ofNat 32 i))
    (fun s i c => s.store (tmp + BitVec.ofNat 32 i) c) s max

/-- `strncpy(phys, tmp, max)`; `phys` is a buffer of the kernel. -/
def copyToPhys (copying : Copying) (s : Paged) (tmp : Ptr) (phys : List Byte) (max : Int) :
    Except Halt (List Byte) :=
  copying.strncpy (fun _ i => .ok (s.kernel.mem.bytes (tmp + BitVec.ofNat 32 i)))
    storeByte phys max

/-- `copy_string_from_task` behind its `kzalloc`. -/
def copyThrough (copying : Copying) (kernelChunk : Ptr) (s : Paged) (task virt tmp : Ptr)
    (phys : List Byte) (max : Int) : Except Halt (Int × List Byte × Paged) := do
  let record ← follow s.kernel.sched.tasks task
  let taskDirectory ← follow s.kernel.chunks record.pageDirectory
  let oldEntry := pagingGet s.kernel.mem taskDirectory tmp
  let (_, mem) := pagingMap s.kernel.mem taskDirectory tmp tmp
    (pagingIsWriteable ||| pagingIsPresent ||| pagingAccessFromAll)
  let s ← (s.setMem mem).pagingSwitch record.pageDirectory
  let s ← s.copyToTmp copying tmp virt max
  let s ← s.pagingSwitch kernelChunk
  let (res, mem) := pagingSet s.kernel.mem taskDirectory tmp oldEntry
  let s := s.setMem mem
  if res < 0 then
    pure (-eio, phys, { s with kernel := s.kernel.kfree tmp })
  else
    let phys ← s.copyToPhys copying tmp phys max
    pure (res, phys, { s with kernel := s.kernel.kfree tmp })

/-- The status, and the buffer `phys`. -/
def copyStringFromTask (copying : Copying) (kernelChunk : Ptr) (s : Paged) (task virt : Ptr)
    (phys : List Byte) (max : Int) : Except Halt (Int × List Byte × Paged) :=
  if pagingPageSize ≤ max then
    .ok (-einvarg, phys, s)
  else
    let (tmp, k) := s.kernel.kzalloc (BitVec.ofInt 32 max)
    if tmp = 0 then
      .ok (-enomem, phys, { s with kernel := k })
    else
      { s with kernel := k }.copyThrough copying kernelChunk task virt tmp phys max

end Paged

section PageShared

variable {mem : Pages} {directory tmp : Ptr}

/-- A page apart from a directory and its tables. -/
structure ApartFrom (mem : Pages) (directory tmp : Ptr) : Prop where
  aligned : PageAligned tmp
  own : tmp ≠ directory
  tables : ∀ i, tmp ≠ tableAt mem directory i

/-- Entries do not depend on a page apart. -/
theorem pagingGet_apart
    {mem' : Pages} (hdirectory : PageAligned directory) (h : ApartFrom mem directory tmp)
    (hmem : ∀ page, PageAligned page → page ≠ tmp → mem' page = mem page) {virt : Ptr}
    (hvirt : PageAligned virt) :
    pagingGet mem' directory virt = pagingGet mem directory virt :=
  pagingGet_congr (hmem directory hdirectory h.own.symm)
    (fun i => hmem _ (pageAligned_and_pageMask _) (h.tables i).symm) hvirt

/-- The state while the task's address space is in use: only the shared page changes. -/
structure PageShared (k : Kernel) (directory tmp : Ptr) (s : Paged) : Prop where
  current : s.current = directory
  rest : s.kernel = { k with mem := s.kernel.mem }
  pages : ∀ page, PageAligned page → page ≠ tmp → s.kernel.mem page = k.mem page

variable {k : Kernel} {s s' : Paged} {flags : Word}

/-- An address on the shared page. -/
theorem PageShared.address
    (h : PageShared k directory tmp s) (hdirectory : PageAligned directory)
    (hapart : ApartFrom k.mem directory tmp) (hflags : flags.toNat < 4096)
    (hentry : pagingGet k.mem directory tmp = tmp ||| flags) {i : Nat} (hi : i < 4096) :
    pagingGetPhysicalAddress s.kernel.mem s.current (tmp + BitVec.ofNat 32 i) =
      tmp + BitVec.ofNat 32 i := by
  refine pagingGetPhysicalAddress_of_get hapart.aligned hapart.aligned hflags ?_
  rw [h.current, Nat.div_eq_of_lt hi, pageAt_zero,
    pagingGet_apart hdirectory hapart h.pages hapart.aligned, hentry]

/-- A byte of the shared page is written. -/
theorem PageShared.store
    (h : PageShared k directory tmp s) (hdirectory : PageAligned directory)
    (hapart : ApartFrom k.mem directory tmp) (hflags : flags.toNat < 4096)
    (hentry : pagingGet k.mem directory tmp = tmp ||| flags) {i : Nat} (hi : i < 4096) {c : Byte}
    (hstore : s.store (tmp + BitVec.ofNat 32 i) c = .ok s') :
    PageShared k directory tmp s' := by
  obtain ⟨phys, haddress, heq⟩ := bind_eq_ok_iff.mp hstore
  rw [Paged.address] at haddress
  split_ifs at haddress
  cases haddress
  cases heq
  refine ⟨h.current, ?_, fun page hpage hne => ?_⟩
  · rw [Paged.setMem, h.rest]
  · rw [← h.pages page hpage hne]
    refine Pages.ofBytes_of_agree hpage fun addr haddr => storeBytes_of_not_mem ?_
    rw [h.address hdirectory hapart hflags hentry hi, List.length_singleton]
    have haligned := hapart.aligned
    have hdiff : page.toNat ≠ tmp.toNat := fun heq => hne (BitVec.eq_of_toNat_eq heq)
    have hlt := tmp.isLt
    unfold PageAligned OnPage pagingPageSize at *
    rw [BitVec.toNat_sub, BitVec.toNat_add, BitVec.toNat_ofNat]
    omega

end PageShared

theorem pagingSet_of_aligned
    (mem : Pages) (directory : Ptr) {virt : Ptr} (h : PageAligned virt) (val : Word) :
    pagingSet mem directory virt val =
      (0, mem.store (tableAt mem directory (directoryIndex virt)) (tableIndex virt) val) := by
  rw [pagingSet, if_neg (not_not.mpr h), pagingGetIndexes, if_neg (not_not.mpr h)]
  rfl

/-- An entry that is written over and put back leaves the other pages as they were. -/
theorem store_oldEntry
    {mem mem' : Pages} {directory tmp : Ptr} (hdirectory : PageAligned directory)
    (hapart : ApartFrom mem directory tmp) (hdir : PageDirectory mem directory) {val : Word}
    (hmem : ∀ page, PageAligned page → page ≠ tmp →
      mem' page =
        mem.store (tableAt mem directory (directoryIndex tmp)) (tableIndex tmp) val page)
    {page : Ptr} (hpage : PageAligned page) (hne : page ≠ tmp) :
    mem'.store (tableAt mem' directory (directoryIndex tmp)) (tableIndex tmp)
      (pagingGet mem directory tmp) page = mem page := by
  have hentries : mem' directory = mem directory := by
    rw [hmem directory hdirectory hapart.own.symm]
    exact mem.store_of_ne _ _ (hdir.apart _).symm
  rw [tableAt_congr hentries]
  funext j
  by_cases hentry : page = tableAt mem directory (directoryIndex tmp) ∧ j = tableIndex tmp
  · rw [Pages.store, if_pos hentry, pagingGet_of_aligned hapart.aligned, hentry.1, hentry.2]
  · rw [Pages.store, if_neg hentry, hmem page hpage hne, Pages.store, if_neg hentry]

namespace Paged

variable {copying : Copying} {kernelChunk task virt tmp directory kernelDirectory : Ptr}
  {s s' : Paged} {record : Task} {phys phys' : List Byte} {max res : Int}

/-- A task, with the directory of its address space. -/
structure TaskDirectory (k : Kernel) (task : Ptr) (record : Task) (directory : Ptr) : Prop where
  found : follow k.sched.tasks task = .ok record
  chunk : follow k.chunks record.pageDirectory = .ok directory
  aligned : PageAligned directory
  tables : PageDirectory k.mem directory

/-- What a copy leaves behind. -/
structure CopiedThrough (s : Paged) (tmp kernelDirectory : Ptr) (s' : Paged) : Prop where
  current : s'.current = kernelDirectory
  pool : s'.kernel.pool = s.kernel.pool.kfree tmp
  pages : ∀ page, PageAligned page → page ≠ tmp → s'.kernel.mem page = s.kernel.mem page

/-- The copy from the task's address space to the block. -/
theorem PageShared.copyToTmp
    {k : Kernel} (h : PageShared k directory tmp s) (hdirectory : PageAligned directory)
    (hapart : ApartFrom k.mem directory tmp)
    {flags : Word} (hflags : flags.toNat < 4096)
    (hentry : pagingGet k.mem directory tmp = tmp ||| flags) (hmin : 1 ≤ max) (hmax : max < 4096)
    (hcopy : s.copyToTmp copying tmp virt max = .ok s') :
    PageShared k directory tmp s' :=
  Copying.strncpy_inv hmin (PageShared k directory tmp)
    (fun _ i _ _ hi hs hstore => hs.store hdirectory hapart hflags hentry (by omega) hstore) h hcopy

/-- The address space while the string is copied from it. -/
def shared (s : Paged) (directory tmp : Ptr) : Paged where
  kernel :=
    { s.kernel with
      mem := s.kernel.mem.store (tableAt s.kernel.mem directory (directoryIndex tmp))
        (tableIndex tmp) (tmp ||| 7) }
  current := directory

/-- The block can be reached at its own address. -/
theorem shared_entry
    (htask : TaskDirectory s.kernel task record directory)
    (hapart : ApartFrom s.kernel.mem directory tmp) :
    ApartFrom (s.shared directory tmp).kernel.mem directory tmp ∧
      pagingGet (s.shared directory tmp).kernel.mem directory tmp = tmp ||| 7 := by
  have hmaps := Maps.one htask.tables hapart.aligned tmp 7
  have hentry := hmaps.mapped 0 Nat.one_pos
  rw [pageAt_zero] at hentry
  refine ⟨⟨hapart.aligned, hapart.own, ?_⟩, hentry⟩
  have htables : tableAt (s.shared directory tmp).kernel.mem directory =
      tableAt s.kernel.mem directory := tableAt_congr hmaps.entries
  rw [htables]
  exact hapart.tables

theorem pagingSwitch_eq
    {chunk : Ptr} (h : follow s.kernel.chunks chunk = .ok directory) :
    s.pagingSwitch chunk = .ok { s with current := directory } := by
  rw [pagingSwitch, h]
  rfl

/-- The two copies, and what is between them. -/
theorem copyThrough_eq
    (htask : TaskDirectory s.kernel task record directory)
    (halign : PageAligned tmp) :
    s.copyThrough copying kernelChunk task virt tmp phys max = (do
      let s₁ ← (s.shared directory tmp).copyToTmp copying tmp virt max
      let s₂ ← s₁.pagingSwitch kernelChunk
      let s₃ := s₂.setMem (s₂.kernel.mem.store
        (tableAt s₂.kernel.mem directory (directoryIndex tmp)) (tableIndex tmp)
        (pagingGet s.kernel.mem directory tmp))
      let phys ← s₃.copyToPhys copying tmp phys max
      pure (0, phys, { s₃ with kernel := s₃.kernel.kfree tmp })) := by
  have hswitch (mem : Pages) : (s.setMem mem).pagingSwitch record.pageDirectory =
      .ok { s.setMem mem with current := directory } :=
    pagingSwitch_eq htask.chunk
  rw [copyThrough, htask.found, ok_bind, htask.chunk, ok_bind,
    pagingMap_of_aligned halign halign]
  dsimp only
  rw [hswitch, ok_bind]
  refine bind_congr fun s₁ => bind_congr fun s₂ => ?_
  rw [pagingSet_of_aligned _ _ halign]
  exact if_neg (show ¬ (0 : Int) < 0 by decide)

theorem copyThrough_inv
    (htask : TaskDirectory s.kernel task record directory)
    (hkernel : follow s.kernel.chunks kernelChunk = .ok kernelDirectory)
    (hapart : ApartFrom s.kernel.mem directory tmp) (hmin : 1 ≤ max) (hmax : max < 4096)
    (h : s.copyThrough copying kernelChunk task virt tmp phys max = .ok (res, phys', s')) :
    res = 0 ∧ CopiedThrough s tmp kernelDirectory s' := by
  rw [copyThrough_eq htask hapart.aligned] at h
  obtain ⟨s₁, hcopy, h⟩ := bind_eq_ok_iff.mp h
  obtain ⟨s₂, hswitch, h⟩ := bind_eq_ok_iff.mp h
  obtain ⟨phys₁, -, h⟩ := bind_eq_ok_iff.mp h
  cases h
  obtain ⟨hapart₁, hentry⟩ := shared_entry htask hapart
  have hshared : PageShared (s.shared directory tmp).kernel directory tmp s₁ :=
    PageShared.copyToTmp ⟨rfl, rfl, fun _ _ _ => rfl⟩ htask.aligned hapart₁ (by decide) hentry hmin
      hmax hcopy
  have hchunks : s₁.kernel.chunks = s.kernel.chunks := by
    rw [hshared.rest]
    rfl
  cases hswitch.symm.trans (pagingSwitch_eq (hchunks ▸ hkernel))
  refine ⟨rfl, rfl, ?_, fun page hpage hne => ?_⟩
  · change s₁.kernel.pool.kfree tmp = _
    rw [hshared.rest]
    rfl
  · exact store_oldEntry htask.aligned hapart htask.tables
      (fun p hp hpne => hshared.pages p hp hpne) hpage hne

end Paged

/-- Memories that differ in the page `tmp`, in its entry, and in nothing else that an
address space or a page apart from its tables has. -/
structure SameSpace (mem mem' : Pages) (directory tmp : Ptr) : Prop where
  entries : mem' directory = mem directory
  get : ∀ page, PageAligned page → page ≠ tmp →
    pagingGet mem' directory page = pagingGet mem directory page
  pages : ∀ page, PageAligned page → page ≠ tmp → (∀ i, page ≠ tableAt mem directory i) →
    mem' page = mem page

/-- The byte at `virt`, which is neither on the page `tmp` nor in a page table. -/
structure Reads (mem : Pages) (directory tmp virt : Ptr) (c : Byte) : Prop where
  present : Present mem directory virt
  byte : mem.bytes (pagingGetPhysicalAddress mem directory virt) = c
  virtApart : pagingAlignToLowerPage virt ≠ tmp
  physApart : pagingAlignToLowerPage (pagingGetPhysicalAddress mem directory virt) ≠ tmp
  tables : ∀ i, pagingAlignToLowerPage (pagingGetPhysicalAddress mem directory virt) ≠
    tableAt mem directory i

/-- The user's string at `virt`. -/
structure ReadsString (mem : Pages) (directory tmp virt : Ptr) (str : List Byte) : Prop where
  noNul : 0 ∉ str
  reads : ∀ i c, (str ++ [0])[i]? = some c →
    Reads mem directory tmp (virt + BitVec.ofNat 32 i) c

section SameSpace

variable {mem mem' : Pages} {directory tmp virt : Ptr} {c : Byte} {str : List Byte}

theorem SameSpace.of_pages
    (hdirectory : PageAligned directory) (hapart : ApartFrom mem directory tmp)
    (hpages : ∀ page, PageAligned page → page ≠ tmp → mem' page = mem page) :
    SameSpace mem mem' directory tmp where
  entries := hpages directory hdirectory hapart.own.symm
  get := fun _ hpage _ => pagingGet_apart hdirectory hapart hpages hpage
  pages := fun page hpage hne _ => hpages page hpage hne

/-- The entry of the page is written. -/
theorem SameSpace.map
    (hdir : PageDirectory mem directory) (halign : PageAligned tmp) (val : Word) :
    SameSpace mem (mem.store (tableAt mem directory (directoryIndex tmp)) (tableIndex tmp) val)
      directory tmp := by
  have hentries : mem.store (tableAt mem directory (directoryIndex tmp)) (tableIndex tmp) val
      directory = mem directory := mem.store_of_ne _ _ (hdir.apart _).symm
  refine ⟨hentries, fun page hpage hne => ?_, fun page _ _ htables =>
    mem.store_of_ne _ _ (htables _)⟩
  rw [pagingGet_of_aligned hpage, pagingGet_of_aligned hpage, tableAt_congr hentries]
  refine if_neg ?_
  rintro ⟨htable, hindex⟩
  exact hne (eq_of_indexes hpage halign (hdir.distinct htable) hindex)

theorem Reads.congr
    (h : Reads mem directory tmp virt c) (hsame : SameSpace mem mem' directory tmp) :
    Reads mem' directory tmp virt c := by
  have hget := hsame.get _ (pageAligned_alignToLowerPage virt) h.virtApart
  have hphys : pagingGetPhysicalAddress mem' directory virt =
      pagingGetPhysicalAddress mem directory virt := by
    rw [pagingGetPhysicalAddress, hget, pagingGetPhysicalAddress]
  refine ⟨?_, ?_, h.virtApart, ?_, ?_⟩
  · rw [Present, hsame.entries, hget]
    exact h.present
  · rw [hphys, ← h.byte, Pages.bytes, Pages.bytes,
      hsame.pages _ (pageAligned_alignToLowerPage _) h.physApart h.tables]
  · rw [hphys]
    exact h.physApart
  · rw [hphys, tableAt_congr hsame.entries]
    exact h.tables

theorem ReadsString.congr
    (h : ReadsString mem directory tmp virt str) (hsame : SameSpace mem mem' directory tmp) :
    ReadsString mem' directory tmp virt str :=
  ⟨h.noNul, fun i c hi => (h.reads i c hi).congr hsame⟩

/-- An address on the page. -/
theorem alignToLowerPage_add
    (halign : PageAligned tmp) {i : Nat} (hi : i < 4096) :
    pagingAlignToLowerPage (tmp + BitVec.ofNat 32 i) = tmp := by
  rw [alignToLowerPage_pageAt halign, Nat.div_eq_of_lt hi, pageAt_zero]

/-- A byte of the page stays when another page is written. -/
theorem Pages.bytes_store_apart
    (halign : PageAligned tmp) {page : Ptr} (hne : tmp ≠ page) (j : Fin 1024) (val : Word)
    {i : Nat} (hi : i < 4096) :
    (mem.store page j val).bytes (tmp + BitVec.ofNat 32 i) =
      mem.bytes (tmp + BitVec.ofNat 32 i) := by
  rw [Pages.bytes, Pages.bytes, alignToLowerPage_add halign hi, mem.store_of_ne j val hne]

end SameSpace

/-- What has been copied of the string behind `n` bytes. -/
def Copying.taken (copying : Copying) (str : List Byte) (n : Nat) : List Byte :=
  match copying with
  | .compares => []
  | .assigns => str.take n

theorem Copying.length_taken_le
    (copying : Copying) (str : List Byte) (n : Nat) :
    (copying.taken str n).length ≤ n := by
  cases copying with
  | compares => exact Nat.zero_le _
  | assigns => exact List.length_take_le _ _

/-- What a buffer holds behind the call. -/
def Copying.copied (copying : Copying) (dest src : List Byte) (count : Int) : List Byte :=
  match copying with
  | .compares => dest
  | .assigns => src.take (copiedLength src count) ++ 0 :: dest.drop (copiedLength src count + 1)

/-- The page of the block is there for the kernel. -/
structure BlockMapped (k : Kernel) (directory tmp : Ptr) : Prop where
  aligned : PageAligned directory
  apart : ApartFrom k.mem directory tmp
  entry : pagingGet k.mem directory tmp = tmp ||| 7
  present : k.mem directory (directoryIndex tmp) &&& pagingIsPresent = pagingIsPresent

section Copy

variable {k : Kernel} {directory tmp virt : Ptr} {s : Paged} {str : List Byte} {c : Byte}

theorem PageShared.sameSpace
    (h : PageShared k directory tmp s) (hblock : BlockMapped k directory tmp) :
    SameSpace k.mem s.kernel.mem directory tmp :=
  SameSpace.of_pages hblock.aligned hblock.apart h.pages

theorem PageShared.load
    (h : PageShared k directory tmp s) (hblock : BlockMapped k directory tmp)
    (hreads : Reads k.mem directory tmp virt c) :
    s.load virt = .ok c := by
  have hreads' := hreads.congr (h.sameSpace hblock)
  rw [Paged.load, Paged.address, h.current, if_pos hreads'.present, ok_bind, hreads'.byte]
  rfl

theorem or_seven_present
    {page : Word} (halign : PageAligned page) :
    (page ||| 7) &&& pagingIsPresent = pagingIsPresent := by
  have hmask := or_and_accessMask halign 7
  calc (page ||| 7) &&& pagingIsPresent = ((page ||| 7) &&& 7) &&& pagingIsPresent := by
        rw [BitVec.and_assoc]
        rfl
    _ = pagingIsPresent := by
        rw [hmask]
        rfl

/-- A byte of the block can be written. -/
theorem PageShared.store_returns
    (h : PageShared k directory tmp s) (hblock : BlockMapped k directory tmp) {i : Nat}
    (hi : i < 4096) (c : Byte) :
    ∃ s', s.store (tmp + BitVec.ofNat 32 i) c = .ok s' ∧ PageShared k directory tmp s' ∧
      s'.kernel.mem.bytes = storeBytes s.kernel.mem.bytes (tmp + BitVec.ofNat 32 i) [c] := by
  have haddress := h.address hblock.aligned hblock.apart (by decide : (7 : Word).toNat < 4096)
    hblock.entry hi
  have hsame := h.sameSpace hblock
  have hpresent : Present s.kernel.mem s.current (tmp + BitVec.ofNat 32 i) := by
    rw [Present, alignToLowerPage_add hblock.apart.aligned hi, h.current, hsame.entries,
      pagingGet_apart hblock.aligned hblock.apart h.pages hblock.apart.aligned, hblock.entry]
    exact ⟨hblock.present, or_seven_present hblock.apart.aligned⟩
  let s' := s.setMem (Pages.ofBytes (storeBytes s.kernel.mem.bytes (tmp + BitVec.ofNat 32 i) [c]))
  have hstore : s.store (tmp + BitVec.ofNat 32 i) c = .ok s' := by
    rw [Paged.store, Paged.address, if_pos hpresent, ok_bind, haddress]
    rfl
  have hshared := h.store hblock.aligned hblock.apart (by decide : (7 : Word).toNat < 4096)
    hblock.entry hi hstore
  exact ⟨s', hstore, hshared, Pages.bytes_ofBytes _⟩

/-- What the block holds behind `n` bytes of the string. -/
structure BlockHolding (copying : Copying) (k : Kernel) (directory tmp : Ptr) (str : List Byte)
    (n : Nat) (s : Paged) : Prop where
  shared : PageShared k directory tmp s
  bytes : BytesAt s.kernel.mem.bytes tmp (copying.taken str n)
  zero : copying = .compares → s.kernel.mem.bytes tmp = 0

theorem BlockHolding.step
    {copying : Copying} {n : Nat} (hblock : BlockMapped k directory tmp)
    (h : BlockHolding copying k directory tmp str n s) (hn : n < 4096) (hc : str[n]? = some c) :
    ∃ s', copying.put (fun s i c => s.store (tmp + BitVec.ofNat 32 i) c) s n c = .ok s' ∧
      BlockHolding copying k directory tmp str (n + 1) s' := by
  cases copying with
  | compares => exact ⟨s, rfl, h.shared, h.bytes, h.zero⟩
  | assigns =>
      obtain ⟨s', hstore, hshared, hbytes⟩ := h.shared.store_returns hblock hn c
      refine ⟨s', hstore, hshared, ?_, nofun⟩
      have hlength : (str.take n).length = n :=
        List.length_take_of_le (List.getElem?_eq_some_iff.mp hc).1.le
      have hsnoc := BytesAt.snoc (c := c) h.bytes
        (show (str.take n).length < 2 ^ 32 by omega)
      rw [hbytes, Copying.taken, List.take_add_one, hc]
      rwa [Copying.taken, hlength] at hsnoc

/-- The end of the string. -/
theorem BlockHolding.finish
    {copying : Copying} {n : Nat} (hblock : BlockMapped k directory tmp)
    (h : BlockHolding copying k directory tmp str n s) (hn : n < 4096) (hle : n ≤ str.length) :
    ∃ s', copying.put (fun s i c => s.store (tmp + BitVec.ofNat 32 i) c) s n 0 = .ok s' ∧
      PageShared k directory tmp s' ∧
      BytesAt s'.kernel.mem.bytes tmp (copying.taken str n ++ [0]) := by
  cases copying with
  | compares =>
      refine ⟨s, rfl, h.shared, fun i c hi => ?_⟩
      obtain ⟨hlt, hc⟩ := List.getElem?_eq_some_iff.mp hi
      obtain rfl : i = 0 := by
        rw [Copying.taken, List.nil_append, List.length_singleton] at hlt
        omega
      rw [← hc, BitVec.add_zero]
      exact h.zero rfl
  | assigns =>
      obtain ⟨s', hstore, hshared, hbytes⟩ := h.shared.store_returns hblock hn 0
      have hlength : (str.take n).length = n := List.length_take_of_le hle
      have hsnoc := BytesAt.snoc (c := 0) h.bytes (show (str.take n).length < 2 ^ 32 by omega)
      refine ⟨s', hstore, hshared, ?_⟩
      rw [hbytes]
      rwa [Copying.taken, hlength] at hsnoc

/-- The copy from the task's address space returns. -/
theorem PageShared.copyToTmp_returns
    (copying : Copying) {max : Int} (hblock : BlockMapped k directory tmp)
    (h : PageShared k directory tmp s) (hreads : ReadsString k.mem directory tmp virt str)
    (hzero : s.kernel.mem.bytes tmp = 0) (hmin : 1 ≤ max) (hmax : max < 4096) :
    ∃ s', s.copyToTmp copying tmp virt max = .ok s' ∧ PageShared k directory tmp s' ∧
      BytesAt s'.kernel.mem.bytes tmp (copying.taken str (copiedLength str max) ++ [0]) := by
  have hlength : copiedLength str max ≤ (max - 1).toNat := Nat.min_le_right _ _
  have hstart : BlockHolding copying k directory tmp str 0 s := by
    refine ⟨h, fun i c hi => ?_, fun _ => hzero⟩
    cases copying <;> cases hi
  obtain ⟨s₁, hcopy, hholding⟩ := Copying.strncpy_spec copying
    (fun s i c => s.store (tmp + BitVec.ofNat 32 i) c) max
    (BlockHolding copying k directory tmp str)
    hreads.noNul (fun i c s hc hs => hs.shared.load hblock (hreads.reads i c hc))
    (fun i c s hi hc hs => hs.step hblock (by omega) hc) hstart
  obtain ⟨s', hlast, hshared, hbytes⟩ := hholding.finish hblock (by omega) (Nat.min_le_left _ _)
  exact ⟨s', hcopy.trans hlast, hshared, hbytes⟩

end Copy

namespace Paged

variable {copying : Copying} {kernelChunk task virt tmp directory kernelDirectory : Ptr}
  {s s' : Paged} {record : Task} {phys phys' : List Byte} {max res : Int} {str : List Byte}

/-- The copy from the block to the buffer. -/
theorem copyToPhys_eq
    (hstr : 0 ∉ str)
    (hbytes : BytesAt s.kernel.mem.bytes tmp (copying.taken str (copiedLength str max) ++ [0]))
    (hmin : 1 ≤ max) (hphys : max ≤ phys.length) :
    s.copyToPhys copying tmp phys max = .ok (copying.copied phys str max) := by
  cases copying with
  | compares =>
      exact strncpy_compares phys max List.not_mem_nil fun k c _ hc =>
        congrArg Except.ok (hbytes k c hc)
  | assigns =>
      have hlength : copiedLength (str.take (copiedLength str max)) max = copiedLength str max := by
        rw [copiedLength, copiedLength, List.length_take]
        omega
      have hget (k : Nat) (c : Byte) (buf : List Byte)
          (hc : (str.take (copiedLength str max) ++ [0])[k]? = some c) :
          (fun (_ : List Byte) i => Except.ok (s.kernel.mem.bytes (tmp + BitVec.ofNat 32 i)))
            buf k = (.ok c : Except Halt Byte) :=
        congrArg Except.ok (hbytes k c hc)
      have hcopy := strncpy_assigns (fun hmem => hstr (List.mem_of_mem_take hmem)) hget hmin hphys
      rw [hlength, List.take_take, Nat.min_self] at hcopy
      exact hcopy

/-- What the copies need of the address space. -/
structure Readable (s : Paged) (directory tmp virt : Ptr) (str : List Byte) : Prop where
  string : ReadsString s.kernel.mem directory tmp virt str
  present : ∀ i, s.kernel.mem directory i &&& pagingIsPresent = pagingIsPresent

theorem copyThrough_returns
    (htask : TaskDirectory s.kernel task record directory)
    (hkernel : follow s.kernel.chunks kernelChunk = .ok kernelDirectory)
    (hapart : ApartFrom s.kernel.mem directory tmp) (hreads : s.Readable directory tmp virt str)
    (hzero : s.kernel.mem.bytes tmp = 0) (hmin : 1 ≤ max) (hmax : max < 4096)
    (hphys : max ≤ phys.length) :
    ∃ s', s.copyThrough copying kernelChunk task virt tmp phys max =
      .ok (0, copying.copied phys str max, s') := by
  obtain ⟨hapart₁, hentry⟩ := shared_entry htask hapart
  have hsame : SameSpace s.kernel.mem (s.shared directory tmp).kernel.mem directory tmp :=
    SameSpace.map htask.tables hapart.aligned (tmp ||| 7)
  have hblock : BlockMapped (s.shared directory tmp).kernel directory tmp :=
    ⟨htask.aligned, hapart₁, hentry, by rw [hsame.entries]; exact hreads.present _⟩
  have hzero₁ : (s.shared directory tmp).kernel.mem.bytes tmp = 0 := by
    have hbyte := @Pages.bytes_store_apart s.kernel.mem tmp hapart.aligned _
      (hapart.tables (directoryIndex tmp)) (tableIndex tmp) (tmp ||| 7) 0 (by decide)
    rw [BitVec.add_zero] at hbyte
    exact hbyte.trans hzero
  obtain ⟨s₁, hcopy, hshared, hbytes⟩ := PageShared.copyToTmp_returns copying hblock
    ⟨rfl, rfl, fun _ _ _ => rfl⟩ (hreads.string.congr hsame) hzero₁ hmin hmax
  have hchunks : s₁.kernel.chunks = s.kernel.chunks := by
    rw [hshared.rest]
    rfl
  have hlength : copiedLength str max ≤ (max - 1).toNat := Nat.min_le_right _ _
  have htaken := copying.length_taken_le str (copiedLength str max)
  rw [copyThrough_eq htask hapart.aligned, hcopy, ok_bind, pagingSwitch_eq (hchunks ▸ hkernel),
    ok_bind]
  dsimp only
  rw [copyToPhys_eq hreads.string.noNul (fun i c hi => ?_) hmin hphys]
  · exact ⟨_, rfl⟩
  · have hi' := (List.getElem?_eq_some_iff.mp hi).1
    rw [List.length_append, List.length_singleton] at hi'
    rw [← hbytes i c hi, setMem]
    dsimp only
    refine Pages.bytes_store_apart hapart.aligned ?_ _ _ (by omega)
    rw [tableAt_congr (hshared.sameSpace hblock).entries]
    exact hapart₁.tables _

/-- The block of the call. -/
def tmpOf (s : Paged) (max : Int) : Ptr := (s.kernel.kzalloc (BitVec.ofInt 32 max)).1

/-- The state behind its `kzalloc`. -/
def allocated (s : Paged) (max : Int) : Paged :=
  { s with kernel := (s.kernel.kzalloc (BitVec.ofInt 32 max)).2 }

theorem copyStringFromTask_eq
    (hsize : max < 4096) :
    s.copyStringFromTask copying kernelChunk task virt phys max =
      if s.tmpOf max = 0 then .ok (-enomem, phys, s.allocated max)
      else (s.allocated max).copyThrough copying kernelChunk task virt (s.tmpOf max) phys max := by
  rw [copyStringFromTask, if_neg (show ¬ (pagingPageSize : Int) ≤ max from Int.not_le.mpr hsize)]
  rfl

/-- What the copy is promised of `kzalloc`: no memory, or a page that is free. -/
structure FreePage (s : Paged) (directory : Ptr) (max : Int) : Prop where
  apart : s.tmpOf max ≠ 0 → ApartFrom s.kernel.mem directory (s.tmpOf max)
  free : s.tmpOf max ≠ 0 → s.kernel.pool.live (s.tmpOf max) = none

/-- The address space of the task, and the blocks, are as they were. -/
structure Restored (s : Paged) (directory : Ptr) (s' : Paged) : Prop where
  entries : s'.kernel.mem directory = s.kernel.mem directory
  tables : ∀ i, s'.kernel.mem (tableAt s.kernel.mem directory i) =
    s.kernel.mem (tableAt s.kernel.mem directory i)
  get : ∀ v, PageAligned v →
    pagingGet s'.kernel.mem directory v = pagingGet s.kernel.mem directory v
  live : s'.kernel.pool.live = s.kernel.pool.live

theorem Restored.of_pages
    (hdirectory : PageAligned directory) (hapart : ApartFrom s.kernel.mem directory tmp)
    (hpages : ∀ page, PageAligned page → page ≠ tmp → s'.kernel.mem page = s.kernel.mem page)
    (hlive : s'.kernel.pool.live = s.kernel.pool.live) :
    Restored s directory s' where
  entries := hpages directory hdirectory hapart.own.symm
  tables := fun i => hpages _ (pageAligned_and_pageMask _) (hapart.tables i).symm
  get := fun _ hv => pagingGet_apart hdirectory hapart hpages hv
  live := hlive

/-- The block that is given back was free before. -/
theorem kmalloc_kfree_live
    (b : Pool) (size : Word) (h : b.live (b.kmalloc size).1 = none) :
    ((b.kmalloc size).2.kfree (b.kmalloc size).1).live = b.live := by
  funext q
  rw [Pool.kfree_live]
  by_cases h0 : (b.kmalloc size).1 = 0
  · rw [Pool.kmalloc_live_of_null h0]
    split_ifs with hq
    · rw [hq]
      exact h.symm
    · rfl
  · split_ifs with hq
    · rw [hq]
      exact h.symm
    · rw [Pool.kmalloc] at h0 hq ⊢
      split_ifs at h0 hq ⊢ with hnull
      · rfl
      · exact if_neg hq

theorem kzalloc_fields
    (k : Kernel) (size : Word) :
    (k.kzalloc size).2.chunks = k.chunks ∧ (k.kzalloc size).2.sched = k.sched := by
  rw [Kernel.kzalloc, Kernel.kzallocFor]
  dsimp only
  split_ifs
  · exact ⟨rfl, rfl⟩
  · exact ⟨rfl, rfl⟩

/-- What the status and the state are behind the call. -/
structure Returned (s : Paged) (directory kernelDirectory : Ptr) (res : Int) (s' : Paged) :
    Prop where
  status : res = -einvarg ∨ res = -enomem ∨ res = 0
  restored : Restored s directory s'
  current : s.current = kernelDirectory → s'.current = kernelDirectory

section Allocated

variable (hsize : max < 4096) (hmin : 1 ≤ max)

include hsize hmin

theorem allocated_page
    (haligned : PageAligned (s.tmpOf max)) {page : Ptr} (hpage : PageAligned page)
    (hne : page ≠ s.tmpOf max) :
    (s.allocated max).kernel.mem page = s.kernel.mem page := by
  refine Kernel.kzalloc_page ?_ haligned hpage hne
  rw [BitVec.toNat_ofInt, pagingPageSize]
  omega

theorem TaskDirectory.allocated
    (h : TaskDirectory s.kernel task record directory)
    (hapart : ApartFrom s.kernel.mem directory (s.tmpOf max)) :
    TaskDirectory (s.allocated max).kernel task record directory ∧
      ApartFrom (s.allocated max).kernel.mem directory (s.tmpOf max) := by
  obtain ⟨hchunks, hsched⟩ := kzalloc_fields s.kernel (BitVec.ofInt 32 max)
  have hdirectory : (s.allocated max).kernel.mem directory = s.kernel.mem directory :=
    allocated_page hsize hmin hapart.aligned h.aligned hapart.own.symm
  refine ⟨⟨?_, ?_, h.aligned, h.tables.congr hdirectory⟩, hapart.aligned, hapart.own, ?_⟩
  · rw [Paged.allocated, hsched]
    exact h.found
  · rw [Paged.allocated, hchunks]
    exact h.chunk
  · rw [tableAt_congr hdirectory]
    exact hapart.tables

end Allocated

theorem copyStringFromTask_inv
    (htask : TaskDirectory s.kernel task record directory)
    (hkernel : follow s.kernel.chunks kernelChunk = .ok kernelDirectory)
    (hfree : FreePage s directory max) (hmin : 1 ≤ max)
    (h : s.copyStringFromTask copying kernelChunk task virt phys max = .ok (res, phys', s')) :
    Returned s directory kernelDirectory res s' := by
  by_cases hmax : (pagingPageSize : Int) ≤ max
  · rw [copyStringFromTask, if_pos hmax] at h
    cases h
    exact ⟨Or.inl rfl, ⟨rfl, fun _ => rfl, fun _ _ => rfl, rfl⟩, id⟩
  · have hsize : max < 4096 := Int.not_le.mp hmax
    rw [copyStringFromTask_eq hsize] at h
    by_cases h0 : s.tmpOf max = 0
    · -- nothing has been written
      rw [if_pos h0] at h
      cases h
      have hnull : (s.kernel.pool.kmalloc (BitVec.ofInt 32 max)).1 = 0 := by
        rw [← Kernel.kzallocFor_ptr]
        exact h0
      rw [allocated, Kernel.kzalloc, Kernel.kzallocFor_of_null hnull]
      exact ⟨Or.inr (Or.inl rfl), ⟨rfl, fun _ => rfl, fun _ _ => rfl,
        Pool.kmalloc_live_of_null hnull⟩, id⟩
    · rw [if_neg h0] at h
      have hapart := hfree.apart h0
      obtain ⟨htask₁, hapart₁⟩ := htask.allocated hsize hmin hapart
      obtain ⟨hres, hcopied⟩ := copyThrough_inv htask₁
        (by rw [← hkernel, allocated, (kzalloc_fields _ _).1]) hapart₁ hmin hsize h
      refine ⟨Or.inr (Or.inr hres), Restored.of_pages htask.aligned hapart ?_ ?_,
        fun _ => hcopied.current⟩
      · intro page hpage hne
        rw [hcopied.pages page hpage hne]
        exact allocated_page hsize hmin hapart.aligned hpage hne
      · have hfresh := hfree.free h0
        rw [tmpOf, Kernel.kzalloc, Kernel.kzallocFor_ptr] at hfresh
        have hlive := kmalloc_kfree_live s.kernel.pool (BitVec.ofInt 32 max) hfresh
        rw [hcopied.pool, tmpOf, allocated, Kernel.kzalloc, Kernel.kzallocFor_ptr]
        dsimp only
        rw [Kernel.kzallocFor_pool]
        exact hlive

/-- A string that is outside the block can be copied. -/
theorem copyStringFromTask_returns
    (htask : TaskDirectory s.kernel task record directory)
    (hkernel : follow s.kernel.chunks kernelChunk = .ok kernelDirectory)
    (hfree : FreePage s directory max) (hmin : 1 ≤ max) (hmax : max < 4096)
    (h0 : s.tmpOf max ≠ 0) (hreads : s.Readable directory (s.tmpOf max) virt str)
    (hphys : max ≤ phys.length) :
    ∃ s', s.copyStringFromTask copying kernelChunk task virt phys max =
      .ok (0, copying.copied phys str max, s') := by
  have hapart := hfree.apart h0
  obtain ⟨htask₁, hapart₁⟩ := htask.allocated hmax hmin hapart
  have hsame : SameSpace s.kernel.mem (s.allocated max).kernel.mem directory (s.tmpOf max) :=
    SameSpace.of_pages htask.aligned hapart fun page hpage hne =>
      allocated_page hmax hmin hapart.aligned hpage hne
  have hreads₁ : (s.allocated max).Readable directory (s.tmpOf max) virt str :=
    ⟨hreads.string.congr hsame, fun i => by rw [hsame.entries]; exact hreads.present i⟩
  have hzero : (s.allocated max).kernel.mem.bytes (s.tmpOf max) = 0 := by
    have hne : (s.kernel.pool.kmalloc (BitVec.ofInt 32 max)).1 ≠ 0 := by
      rw [← Kernel.kzallocFor_ptr]
      exact h0
    rw [allocated, tmpOf, Kernel.kzalloc, Kernel.kzallocFor_of_ne hne]
    dsimp only
    rw [Pages.bytes_ofBytes]
    refine if_pos ?_
    rw [BitVec.sub_self, BitVec.toNat_ofInt]
    change 0 < _
    omega
  rw [copyStringFromTask_eq hmax, if_neg h0]
  exact copyThrough_returns htask₁ (by rw [← hkernel, allocated, (kzalloc_fields _ _).1]) hapart₁
    hreads₁ hzero hmin hmax hphys

/-- Every return leaves the address space, the directory in use and the blocks as they
were, and a call on a string that can be read returns. -/
theorem copyStringFromTask_restores
    (copying : Copying) (kernelChunk task virt : Ptr) (s : Paged) (phys : List Byte) (max : Int)
    (hmin : 1 ≤ max) {record : Task} {directory kernelDirectory : Ptr}
    (htask : TaskDirectory s.kernel task record directory)
    (hkernel : follow s.kernel.chunks kernelChunk = .ok kernelDirectory)
    (hfree : FreePage s directory max) :
    (∀ res phys' s',
      s.copyStringFromTask copying kernelChunk task virt phys max = .ok (res, phys', s') →
        Returned s directory kernelDirectory res s') ∧
      ∀ str, s.Readable directory (s.tmpOf max) virt str → max ≤ phys.length →
        ∃ res phys' s',
          s.copyStringFromTask copying kernelChunk task virt phys max = .ok (res, phys', s') := by
  refine ⟨fun res phys' s' h => copyStringFromTask_inv htask hkernel hfree hmin h,
    fun str hreads hphys => ?_⟩
  by_cases hmax : (pagingPageSize : Int) ≤ max
  · exact ⟨_, _, _, if_pos hmax⟩
  · have hsize : max < 4096 := Int.not_le.mp hmax
    by_cases h0 : s.tmpOf max = 0
    · exact ⟨_, _, _, (copyStringFromTask_eq hsize).trans (if_pos h0)⟩
    · have hreturns : ∃ s', s.copyStringFromTask copying kernelChunk task virt phys max =
          .ok (0, copying.copied phys str max, s') :=
        copyStringFromTask_returns htask hkernel hfree hmin hsize h0 hreads hphys
      obtain ⟨s', hcopy⟩ := hreturns
      exact ⟨_, _, _, hcopy⟩

/-- A directory at 0 of tables behind it that map every page to itself, and a string of
one letter. -/
def identityPages : Pages := fun page j =>
  if page = 0 then BitVec.ofNat 32 (4096 * (j + 1)) ||| 7
  else if page.toNat ≤ 4194304 then
    BitVec.ofNat 32 (4194304 * (page.toNat / 4096 - 1) + 4096 * j) ||| 7
  else if page = 0xA00000 ∧ j = 0 then 97
  else 0

/-- A task in the address space of `identityPages`, and an allocator that has one page
left. -/
def oneTask : Paged where
  kernel :=
    { pool := ⟨fun _ _ _ => 0x1000000, 0, fun _ => none⟩
      log := []
      mem := identityPages
      chunks := fun p => if p = 0x800000 then some 0 else some 0x900000
      elfFiles := fun _ => none
      records := fun _ => none
      sched :=
        { Sched.empty with
          tasks := fun p => if p = 0x700000 then some ⟨0x800000, 0, 0, 0⟩ else none
          currentTask := 0x700000 } }
  current := 0x900000

theorem identityPages_entry
    (i : Fin 1024) :
    identityPages 0 i = tableAt firstPages 0 i ||| 7 := by
  rw [tableAt_firstPages]
  rfl

theorem tableAt_identityPages : tableAt identityPages 0 = tableAt firstPages 0 := by
  funext i
  rw [tableAt, identityPages_entry]
  exact or_and_pageMask (pageAligned_and_pageMask _) (by decide)

/-- The addresses behind the tables. -/
theorem ne_tableAt_identityPages
    {page : Ptr} (h : 0x401000 ≤ page.toNat) (i : Fin 1024) :
    page ≠ tableAt identityPages 0 i := by
  rw [tableAt_identityPages, tableAt_firstPages]
  intro heq
  have hnat := congrArg BitVec.toNat heq
  rw [BitVec.toNat_ofNat] at hnat
  omega

theorem oneTask_directory :
    TaskDirectory oneTask.kernel 0x700000 ⟨0x800000, 0, 0, 0⟩ 0 where
  found := rfl
  chunk := rfl
  aligned := rfl
  tables :=
    { distinct := by
        change Function.Injective (tableAt identityPages 0)
        rw [tableAt_identityPages]
        exact firstPages_directory.distinct
      apart := by
        change ∀ i, tableAt identityPages 0 i ≠ 0
        rw [tableAt_identityPages]
        exact firstPages_directory.apart }

theorem oneTask_tmpOf (max : Int) : oneTask.tmpOf max = 0x1000000 := rfl

theorem oneTask_freePage (max : Int) : FreePage oneTask 0 max where
  apart := by
    rw [oneTask_tmpOf]
    exact fun _ => ⟨by decide, by decide, @ne_tableAt_identityPages 0x1000000 (by decide)⟩
  free := fun _ => rfl

/-- The string of one letter. -/
theorem oneTask_readable (max : Int) : oneTask.Readable 0 (oneTask.tmpOf max) 0xA00000 [97] where
  string :=
    { noNul := by decide
      reads := by
        intro i c hi
        rw [oneTask_tmpOf]
        have htables := @ne_tableAt_identityPages 0xA00000 (by decide)
        have hlt : i < 2 := (List.getElem?_eq_some_iff.mp hi).1
        obtain rfl | rfl : i = 0 ∨ i = 1 := by omega
        · cases hi
          exact ⟨by decide, by decide, by decide, by decide, htables⟩
        · cases hi
          exact ⟨by decide, by decide, by decide, by decide, htables⟩ }
  present := by
    intro i
    change identityPages 0 i &&& pagingIsPresent = pagingIsPresent
    rw [identityPages_entry]
    exact or_seven_present (pageAligned_and_pageMask _)

theorem copyStringFromTask_restores_oneTask :
    ∃ res phys' s',
      oneTask.copyStringFromTask .compares 0x900000 0x700000 0xA00000 [1, 2] 2 =
        .ok (res, phys', s') ∧
      Returned oneTask 0 0x900000 res s' := by
  have hkernel : follow oneTask.kernel.chunks 0x900000 = .ok 0x900000 := rfl
  obtain ⟨hinv, hreturns⟩ := copyStringFromTask_restores .compares 0x900000 0x700000 0xA00000
    oneTask [1, 2] 2 (by decide) oneTask_directory hkernel (oneTask_freePage 2)
  obtain ⟨res, phys', s', hcopy⟩ := hreturns [97] (oneTask_readable 2) (by decide)
  exact ⟨res, phys', s', hcopy, hinv res phys' s' hcopy⟩

end Paged

end PeachOS
