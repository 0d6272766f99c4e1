import PeachOS.Task.LoadSuccess

/-!
# A new address space

`paging_new_4gb` word by word.  The offset of a table is what the passes before have
added up, and every word has to go to a block that has been allocated by then; the
directory asks for a block of four bytes and gets a page.
-/

namespace PeachOS

open Lib

/-- A construction, with the blocks that it has allocated and their pages. -/
structure Building where
  kernel : Kernel
  blocks : List (Ptr × Nat)

namespace Building

/-- The `n` bytes at `addr` are in a block. -/
def Owns (s : Building) (addr : Ptr) (n : Nat) : Prop :=
  ∃ block ∈ s.blocks, block.1.toNat ≤ addr.toNat ∧
    addr.toNat + n ≤ block.1.toNat + pagingPageSize * block.2

instance (s : Building) (addr : Ptr) (n : Nat) : Decidable (s.Owns addr n) :=
  inferInstanceAs (Decidable (∃ block ∈ s.blocks, _))

def kzalloc (s : Building) (size : Word) : Ptr × Building :=
  let (p, k) := s.kernel.kzalloc size
  (p, ⟨k, if p = 0 then s.blocks else (p, pagesOf size) :: s.blocks⟩)

def store (s : Building) (addr : Ptr) (val : Word) : Except Halt Building :=
  if s.Owns addr 4 then
    .ok
      { s with
        kernel :=
          { s.kernel with mem := Pages.ofBytes (store32 s.kernel.mem.bytes addr val) } }
  else
    .error .fault

/-- `entry[b]`. -/
def setEntry (entry offset flags : Word) (s : Building) (b : Fin 1024) : Except Halt Building :=
  s.store (entry + BitVec.ofNat 32 (4 * b))
    ((offset + BitVec.ofNat 32 (b * pagingPageSize)) ||| flags)

/-- A pass of the loop over the directory, which moves the offset on. -/
def newTable (directory flags : Word) (s : Building × Word) (i : Fin 1024) :
    Except Halt (Building × Word) := do
  let (s, offset) := s
  let (entry, s) := s.kzalloc sizeofTable
  let s ← (List.finRange 1024).foldlM (setEntry entry offset flags) s
  let offset := offset + BitVec.ofNat 32 (pagingTotalEntriesPerTable * pagingPageSize)
  let s ← s.store (directory + BitVec.ofNat 32 (4 * i)) (entry ||| flags ||| pagingIsWriteable)
  pure (s, offset)

def pagingNew4gb (k : Kernel) (flags : Byte) : Except Halt (Ptr × Kernel) := do
  let (directory, s) := kzalloc ⟨k, []⟩ sizeofDirectory
  let (s, _) ← (List.finRange 1024).foldlM (newTable directory (flags.setWidth 32)) (s, 0)
  let (chunk, s) := s.kzalloc sizeofChunk
  if s.Owns chunk 4 then
    pure (chunk,
      { s.kernel with chunks := fun q => if q = chunk then some directory else s.kernel.chunks q })
  else
    .error .fault

end Building

section Alike

/-- Memories with the same bytes have the same pages. -/
theorem Pages.bytes_eq_iff
    {mem mem' : Pages} :
    mem'.bytes = mem.bytes ↔ ∀ page, PageAligned page → mem' page = mem page := by
  constructor
  · intro h page hpage
    funext j
    rw [← mem'.load32_bytes hpage, ← mem.load32_bytes hpage, h]
  · intro h
    funext addr
    rw [Pages.bytes, Pages.bytes, h _ (pageAligned_alignToLowerPage addr)]

/-- A word of a page is written. -/
theorem Pages.bytes_store
    (mem : Pages) {page : Ptr} (hpage : PageAligned page) (b : Fin 1024) (val : Word) :
    store32 mem.bytes (page + BitVec.ofNat 32 (4 * b)) val = (mem.store page b val).bytes := by
  rw [← Pages.bytes_ofBytes (store32 _ _ _), Pages.bytes_eq_iff]
  intro p hp
  funext j
  have hb := b.isLt
  have hj := j.isLt
  have hword (q : Ptr) (hq : PageAligned q) (i : Fin 1024) :
      (q + BitVec.ofNat 32 (4 * i)).toNat = q.toNat + 4 * i ∧ q.toNat + 4096 ≤ 2 ^ 32 := by
    have hi := i.isLt
    have hlt := q.isLt
    unfold PageAligned pagingPageSize at hq
    rw [BitVec.toNat_add, BitVec.toNat_ofNat]
    omega
  obtain ⟨hb', hroom⟩ := hword page hpage b
  obtain ⟨hj', hroom'⟩ := hword p hp j
  rw [Pages.ofBytes, Pages.store]
  by_cases hsame : p = page ∧ j = b
  · rw [if_pos hsame, hsame.1, hsame.2]
    exact load32_store32_same _ _ _
  · rw [if_neg hsame, ← mem.load32_bytes hp]
    have hne : p.toNat + 4 * j ≠ page.toNat + 4 * b := by
      intro heq
      unfold PageAligned pagingPageSize at hp hpage
      exact hsame ⟨BitVec.eq_of_toNat_eq (by omega), Fin.ext (by omega)⟩
    unfold PageAligned pagingPageSize at hp hpage
    rcases Nat.lt_or_gt_of_ne hne with hlt | hgt
    · refine load32_store32_of_le _ _ ?_ (by omega)
      rw [Below]
      omega
    · refine load32_store32_of_ge _ _ ?_ (by omega)
      rw [Below]
      omega

/-- Kernels that differ in how their bytes are kept, at most. -/
structure Kernel.Alike (k k' : Kernel) : Prop where
  rest : k' = { k with mem := k'.mem }
  bytes : k'.mem.bytes = k.mem.bytes

namespace Kernel

variable {k k' : Kernel}

theorem Alike.refl (k : Kernel) : Alike k k := ⟨rfl, rfl⟩

theorem Alike.page
    (h : Alike k k') {page : Ptr} (hpage : PageAligned page) :
    k'.mem page = k.mem page :=
  Pages.bytes_eq_iff.mp h.bytes page hpage

theorem Alike.kzalloc
    (h : Alike k k') (size : Word) :
    (k'.kzalloc size).1 = (k.kzalloc size).1 ∧ Alike (k.kzalloc size).2 (k'.kzalloc size).2 := by
  rw [h.rest, Kernel.kzalloc, Kernel.kzalloc, kzallocFor, kzallocFor, h.bytes]
  dsimp only
  split_ifs
  · exact ⟨rfl, rfl, h.bytes⟩
  · exact ⟨rfl, rfl, rfl⟩

end Kernel

end Alike

section Words

variable {s s' : Building} {k k' : Kernel} {page directory entry offset flags : Word}

/-- A page is one of the blocks. -/
def Building.Has (s : Building) (page : Ptr) : Prop := (page, 1) ∈ s.blocks

/-- A word of a page that is a block. -/
theorem Building.store_alike
    (h : k.Alike s.kernel) (hpage : PageAligned page) (hhas : s.Has page) (b : Fin 1024)
    (val : Word) :
    ∃ s', s.store (page + BitVec.ofNat 32 (4 * b)) val = .ok s' ∧ s'.blocks = s.blocks ∧
      Kernel.Alike { k with mem := k.mem.store page b val } s'.kernel := by
  have hb := b.isLt
  have hlt := page.isLt
  have howns : s.Owns (page + BitVec.ofNat 32 (4 * b)) 4 := by
    refine ⟨(page, 1), hhas, ?_⟩
    unfold PageAligned pagingPageSize at *
    dsimp only
    rw [BitVec.toNat_add, BitVec.toNat_ofNat]
    omega
  refine ⟨_, if_pos howns, rfl, ?_, ?_⟩
  · rw [h.rest]
  · dsimp only
    rw [Pages.bytes_ofBytes, h.bytes, Pages.bytes_store _ hpage]

/-- The entries `done` of a table are written. -/
def Pages.withEntries (mem : Pages) (entry flags : Word) (i : Fin 1024) (done : List (Fin 1024)) :
    Pages :=
  fun page j => if page = entry ∧ j ∈ done then Kernel.identityTable i flags j else mem page j

theorem Pages.withEntries_nil (mem : Pages) (i : Fin 1024) :
    mem.withEntries entry flags i [] = mem := by
  funext page j
  exact if_neg fun h => List.not_mem_nil h.2

theorem Pages.store_withEntries
    (mem : Pages) (i b : Fin 1024) (done : List (Fin 1024)) :
    (mem.withEntries entry flags i done).store entry b
        ((BitVec.ofNat 32 (4194304 * i) + BitVec.ofNat 32 (b * pagingPageSize)) ||| flags) =
      mem.withEntries entry flags i (done ++ [b]) := by
  have hval : (BitVec.ofNat 32 (4194304 * i) + BitVec.ofNat 32 (b * pagingPageSize)) ||| flags =
      Kernel.identityTable i flags b := by
    rw [Kernel.identityTable, BitVec.ofNat_add, pagingPageSize, Nat.mul_comm 4096]
  funext p j
  rw [hval]
  by_cases hj : j = b
  · subst hj
    by_cases hp : p = entry
    · simp [Pages.store, Pages.withEntries, hp]
    · simp [Pages.store, Pages.withEntries, hp]
  · simp [Pages.store, Pages.withEntries, hj]

/-- The inner loop writes the whole table. -/
theorem Building.setEntry_alike
    (h : k.Alike s.kernel) (hentry : PageAligned entry) (hhas : s.Has entry) (i : Fin 1024) :
    ∃ s', (List.finRange 1024).foldlM
        (setEntry entry (BitVec.ofNat 32 (4194304 * i)) flags) s = .ok s' ∧
      s'.blocks = s.blocks ∧
      Kernel.Alike
        { k with
          mem := fun page j =>
            if page = entry then Kernel.identityTable i flags j else k.mem page j }
        s'.kernel := by
  obtain ⟨s', hloop, hblocks, hkernel⟩ := foldlM_returns
    (fun done (s' : Building) => s'.blocks = s.blocks ∧
      Kernel.Alike { k with mem := k.mem.withEntries entry flags i done } s'.kernel)
    (fun done b todo s' _ hs' => by
      obtain ⟨hblocks, hkernel⟩ := hs'
      obtain ⟨s'', hstore, hblocks', hkernel'⟩ := Building.store_alike hkernel hentry
        (show s'.Has entry by rwa [Building.Has, hblocks]) b
        ((BitVec.ofNat 32 (4194304 * i) + BitVec.ofNat 32 (b * pagingPageSize)) ||| flags)
      rw [Pages.store_withEntries] at hkernel'
      exact ⟨s'', hstore, hblocks'.trans hblocks, hkernel'⟩)
    ⟨rfl, by rwa [Pages.withEntries_nil]⟩
  refine ⟨s', hloop, hblocks, ?_⟩
  have hall : k.mem.withEntries entry flags i (List.finRange 1024) = fun page j =>
      if page = entry then Kernel.identityTable i flags j else k.mem page j := by
    funext page j
    simp [Pages.withEntries]
  rwa [hall] at hkernel

/-- A page that is granted is a block. -/
theorem Building.kzalloc_alike
    (h : k.Alike s.kernel) (size : Word) (h0 : (k.kzalloc size).1 ≠ 0) :
    s.kzalloc size = ((k.kzalloc size).1,
        ⟨(s.kernel.kzalloc size).2, ((k.kzalloc size).1, pagesOf size) :: s.blocks⟩) ∧
      (k.kzalloc size).2.Alike (s.kernel.kzalloc size).2 := by
  obtain ⟨hsame, halike⟩ := h.kzalloc size
  refine ⟨?_, halike⟩
  rw [Building.kzalloc]
  dsimp only
  rw [hsame, if_neg h0]

/-- A table of the construction is a table of `paging_new_4gb`. -/
theorem Building.newTable_alike
    (h : k.Alike s.kernel) (hdirectory : PageAligned directory) (hhas : s.Has directory)
    (hne : directory ≠ 0) (hentry : PageAligned (k.kzalloc sizeofTable).1)
    (h0 : (k.kzalloc sizeofTable).1 ≠ 0) (i : Fin 1024) :
    ∃ s' k', newTable directory flags (s, BitVec.ofNat 32 (4194304 * i)) i =
        .ok (s', BitVec.ofNat 32 (4194304 * (i + 1))) ∧
      Kernel.pagingNew4gbTable directory flags k i = .ok k' ∧ k'.Alike s'.kernel ∧
      s'.Has directory := by
  obtain ⟨htake, halike⟩ := Building.kzalloc_alike h sizeofTable h0
  rcases hk : k.kzalloc sizeofTable with ⟨entry, k₁⟩
  rw [hk] at htake halike hentry h0
  let s₁ : Building := ⟨(s.kernel.kzalloc sizeofTable).2, (entry, 1) :: s.blocks⟩
  change s.kzalloc sizeofTable = (entry, s₁) at htake
  obtain ⟨s₂, hloop, hblocks₂, halike₂⟩ := @Building.setEntry_alike s₁ k₁ entry flags halike hentry
    List.mem_cons_self i
  obtain ⟨s₃, hstore, hblocks₃, halike₃⟩ := Building.store_alike halike₂ hdirectory
    (show s₂.Has directory by rw [Building.Has, hblocks₂]; exact List.mem_cons_of_mem _ hhas) i
    (entry ||| flags ||| pagingIsWriteable)
  have hoffset : BitVec.ofNat 32 (4194304 * i) +
      BitVec.ofNat 32 (pagingTotalEntriesPerTable * pagingPageSize) =
        BitVec.ofNat 32 (4194304 * (i + 1)) := by
    rw [← BitVec.ofNat_add, pagingTotalEntriesPerTable, pagingPageSize, Nat.mul_add]
  refine ⟨s₃, _, ?_, ?_, halike₃, ?_⟩
  · rw [newTable]
    dsimp only
    rw [htake]
    dsimp only
    rw [hloop, ok_bind, hstore, ok_bind, hoffset]
    rfl
  · rw [Kernel.pagingNew4gbTable, hk]
    exact if_neg (not_or.mpr ⟨h0, hne⟩)
  · rw [Building.Has, hblocks₃, hblocks₂]
    exact List.mem_cons_of_mem _ hhas

end Words

/-- What is promised of the answers to requests for a page each: pages that differ. -/
structure Pool.AnswersPages (answers : List Ptr) : Prop where
  granted : 0 ∉ answers
  aligned : ∀ p ∈ answers, PageAligned p
  disjoint : answers.Nodup

theorem Pool.AnswersPages.ne_zero
    {answers : List Ptr} (h : AnswersPages answers) {p : Ptr} (hp : p ∈ answers) :
    p ≠ 0 := by
  rintro rfl
  exact h.granted hp

/-- Blocks that are live are not given out again. -/
theorem Pool.Granted.not_mem_of_live
    {b b' : Pool} {sizes : List Word} (h : Granted b sizes b') (hinv : b.Inv)
    (hsizes : ∀ size ∈ sizes, size ≠ 0) {p : Ptr} {n : Nat} (hp : b.live p = some n) :
    p ∉ b.requests sizes := by
  induction h with
  | nil b => exact List.not_mem_nil
  | @cons b b' size sizes hne hrest ih =>
      have hsize := hsizes size List.mem_cons_self
      have htaken := Pool.kmalloc_taken hinv hsize hne
      have hpne := Pool.ne_of_live hp htaken.fresh
      refine List.not_mem_cons_of_ne_of_not_mem hpne
        (ih (hinv.kmalloc hsize) (fun s hs => hsizes s (List.mem_cons_of_mem _ hs)) ?_)
      rw [htaken.live, if_neg hpne]
      exact hp

/-- The allocator keeps the promise. -/
theorem Pool.Granted.answersPages
    {b b' : Pool} {sizes : List Word} (h : Granted b sizes b') (hinv : b.Inv)
    (hsizes : ∀ size ∈ sizes, size ≠ 0) :
    AnswersPages (b.requests sizes) := by
  refine ⟨h.not_mem, ?_, ?_⟩
  · induction h with
    | nil b => exact fun p hp => absurd hp List.not_mem_nil
    | @cons b b' size sizes hne hrest ih =>
        have hsize := hsizes size List.mem_cons_self
        intro p hp
        rcases List.mem_cons.mp hp with rfl | hmem
        · exact (Pool.kmalloc_taken hinv hsize hne).placed.aligned
        · exact ih (hinv.kmalloc hsize) (fun s hs => hsizes s (List.mem_cons_of_mem _ hs)) p hmem
  · induction h with
    | nil b => exact List.nodup_nil
    | @cons b b' size sizes hne hrest ih =>
        have hsize := hsizes size List.mem_cons_self
        have hrestSizes : ∀ s ∈ sizes, s ≠ 0 := fun s hs => hsizes s (List.mem_cons_of_mem _ hs)
        have htaken := Pool.kmalloc_taken hinv hsize hne
        have hlive : (b.kmalloc size).2.live (b.kmalloc size).1 = some (pagesOf size) := by
          rw [htaken.live, if_pos rfl]
        have hinv' := hinv.kmalloc hsize
        exact List.nodup_cons.mpr
          ⟨hrest.not_mem_of_live hinv' hrestSizes hlive, ih hinv' hrestSizes⟩

namespace Kernel

variable {k₀ k : Kernel} {directory flags : Word} {answers : List Ptr}

/-- Only the page of the answer is written. -/
theorem kzalloc_page
    {size : Word} (hsize : size.toNat ≤ pagingPageSize) (haligned : PageAligned (k.kzalloc size).1)
    {page : Ptr} (hpage : PageAligned page) (hne : page ≠ (k.kzalloc size).1) :
    (k.kzalloc size).2.mem page = k.mem page := by
  by_cases h0 : (k.pool.kmalloc size).1 = 0
  · rw [kzalloc, kzallocFor_of_null h0]
  · rw [kzalloc, kzallocFor_of_ne h0] at haligned hne ⊢
    refine Pages.ofBytes_of_agree hpage fun addr haddr => ?_
    have hlt := (k.pool.kmalloc size).1.isLt
    have hdiff : page.toNat ≠ (k.pool.kmalloc size).1.toNat := fun h =>
      hne (BitVec.eq_of_toNat_eq h)
    unfold PageAligned OnPage pagingPageSize at *
    dsimp only at haligned
    exact fill_of_not_mem _ _ (by omega) (by omega)

/-- The requests that are left behind `n` tables. -/
def sizesLeft (n : Nat) : List Word := List.replicate (1024 - n) sizeofTable ++ [sizeofChunk]

theorem sizesLeft_of_lt
    {n : Nat} (h : n < 1024) :
    sizesLeft n = sizeofTable :: sizesLeft (n + 1) := by
  rw [sizesLeft, sizesLeft, show 1024 - n = 1024 - (n + 1) + 1 by omega, List.replicate_succ]
  rfl

theorem requests_cons
    (k : Kernel) (size : Word) (sizes : List Word) :
    k.pool.requests (size :: sizes) =
      (k.kzalloc size).1 :: (k.kzalloc size).2.pool.requests sizes := by
  rw [Pool.requests, kzalloc, kzallocFor_ptr, kzallocFor_pool]

/-- The tables of the entries `done` are among the blocks `taken`, and map to themselves. -/
structure Entered (answers : List Ptr) (k₀ : Kernel) (directory flags : Word)
    (done : List (Fin 1024)) (taken : List Ptr) (k : Kernel) : Prop where
  split : answers = taken ++ k.pool.requests (sizesLeft done.length)
  own : directory ∈ taken
  table : ∀ i ∈ done, tableAt k.mem directory i ∈ taken ∧ tableAt k.mem directory i ≠ directory
  distinct : ∀ i ∈ done, ∀ j ∈ done, tableAt k.mem directory i = tableAt k.mem directory j → i = j
  identity : ∀ i ∈ done, k.mem (tableAt k.mem directory i) = identityTable i flags
  frame : ∀ page, PageAligned page → page ∉ answers → k.mem page = k₀.mem page

/-- What a pass of the loop over the directory writes. -/
structure Enters (k : Kernel) (directory flags : Word) (i : Fin 1024) (entry : Ptr) (k' : Kernel) :
    Prop where
  table : tableAt k'.mem directory i = entry
  entries : ∀ j, j ≠ i → k'.mem directory j = k.mem directory j
  identity : k'.mem entry = identityTable i flags
  frame : ∀ page, PageAligned page → page ≠ entry → page ≠ directory → k'.mem page = k.mem page
  requests : ∀ sizes, k.pool.requests (sizeofTable :: sizes) = entry :: k'.pool.requests sizes

theorem pagingNew4gbTable_enters
    (hflags : (flags ||| pagingIsWriteable).toNat < 4096) {entry : Ptr}
    (hk : (k.kzalloc sizeofTable).1 = entry) (hentry : PageAligned entry) (h0 : entry ≠ 0)
    (hdirectory : PageAligned directory) (hnull : directory ≠ 0) (hne : directory ≠ entry)
    (i : Fin 1024) :
    ∃ k', pagingNew4gbTable directory flags k i = .ok k' ∧ Enters k directory flags i entry k' := by
  have hpage (page : Ptr) (h : PageAligned page) (hpne : page ≠ entry) :
      (k.kzalloc sizeofTable).2.mem page = k.mem page :=
    kzalloc_page (by decide) (by rwa [hk]) h (by rwa [hk])
  let mem₁ : Pages := fun page j =>
    if page = entry then identityTable i flags j else (k.kzalloc sizeofTable).2.mem page j
  let mem₂ : Pages := mem₁.store directory i (entry ||| flags ||| pagingIsWriteable)
  have hold (page : Ptr) (hpne : page ≠ entry) : mem₁ page = (k.kzalloc sizeofTable).2.mem page :=
    funext fun j => if_neg hpne
  have hword : mem₂ directory i = entry ||| flags ||| pagingIsWriteable := if_pos ⟨rfl, rfl⟩
  refine ⟨{ (k.kzalloc sizeofTable).2 with mem := mem₂ }, ?_, ?_, fun j hj => ?_, ?_,
    fun page h hpne hpdir => ?_, fun sizes => ?_⟩
  · subst hk
    exact if_neg (not_or.mpr ⟨h0, hnull⟩)
  · change mem₂ directory i &&& 0xfffff000 = entry
    rw [hword, BitVec.or_assoc]
    exact or_and_pageMask hentry hflags
  · rw [← hpage directory hdirectory hne, ← hold directory hne]
    exact if_neg fun hji => hj hji.2
  · exact (mem₁.store_of_ne i _ hne.symm).trans (funext fun j => if_pos rfl)
  · rw [← hpage page h hpne, ← hold page hpne]
    exact mem₁.store_of_ne i _ hpdir
  · rw [requests_cons, hk]

/-- The next answer is a page that has not been taken. -/
theorem Entered.next
    {done : List (Fin 1024)} {taken : List Ptr} (hanswers : Pool.AnswersPages answers)
    (h : Entered answers k₀ directory flags done taken k) (hlength : done.length < 1024) :
    (k.kzalloc sizeofTable).1 ∈ answers ∧ (k.kzalloc sizeofTable).1 ∉ taken := by
  have hsplit := h.split
  rw [sizesLeft_of_lt hlength, requests_cons] at hsplit
  have hnodup := hanswers.disjoint
  rw [hsplit, List.nodup_append] at hnodup
  refine ⟨by rw [hsplit]; simp, fun hmem => ?_⟩
  exact hnodup.2.2 _ hmem _ List.mem_cons_self rfl

theorem Entered.step
    {done : List (Fin 1024)} {taken : List Ptr} {i : Fin 1024}
    (hanswers : Pool.AnswersPages answers) (hflags : (flags ||| pagingIsWriteable).toNat < 4096)
    (h : Entered answers k₀ directory flags done taken k) (hi : i ∉ done)
    (hlength : done.length < 1024) :
    ∃ k', pagingNew4gbTable directory flags k i = .ok k' ∧
      Entered answers k₀ directory flags (done ++ [i])
        (taken ++ [(k.kzalloc sizeofTable).1]) k' := by
  obtain ⟨hmem, hfresh⟩ := h.next hanswers hlength
  have htaken (p : Ptr) (hp : p ∈ taken) : p ∈ answers := h.split ▸ List.mem_append_left _ hp
  have hne (p : Ptr) (hp : p ∈ taken) : p ≠ (k.kzalloc sizeofTable).1 := by
    rintro rfl
    exact hfresh hp
  have hdirectory := htaken directory h.own
  obtain ⟨k', htable, henters⟩ := pagingNew4gbTable_enters hflags rfl (hanswers.aligned _ hmem)
    (hanswers.ne_zero hmem) (hanswers.aligned _ hdirectory) (hanswers.ne_zero hdirectory)
    (hne _ h.own) i
  have hold (j : Fin 1024) (hj : j ∈ done) :
      tableAt k'.mem directory j = tableAt k.mem directory j := by
    rw [tableAt, henters.entries j fun heq => hi (heq ▸ hj), tableAt]
  have hnew (j : Fin 1024) (hj : j ∈ done) :
      tableAt k'.mem directory j ≠ tableAt k'.mem directory i := by
    rw [hold j hj, henters.table]
    exact hne _ (h.table j hj).1
  refine ⟨k', htable, ?_, ?_, fun j hj => ?_, fun j hj l hl heq => ?_, fun j hj => ?_,
    fun page hpage hout => ?_⟩
  · rw [List.append_assoc, List.singleton_append, List.length_append, List.length_singleton,
      ← henters.requests, ← sizesLeft_of_lt hlength]
    exact h.split
  · exact List.mem_append_left _ h.own
  · rcases List.mem_append.mp hj with hdone | hlast
    · rw [hold j hdone]
      exact ⟨List.mem_append_left _ (h.table j hdone).1, (h.table j hdone).2⟩
    · obtain rfl := List.mem_singleton.mp hlast
      rw [henters.table]
      exact ⟨List.mem_append_right _ List.mem_cons_self, (hne _ h.own).symm⟩
  · rcases List.mem_append.mp hj with hj' | hj' <;> rcases List.mem_append.mp hl with hl' | hl'
    · rw [hold j hj', hold l hl'] at heq
      exact h.distinct j hj' l hl' heq
    · obtain rfl := List.mem_singleton.mp hl'
      exact absurd heq (hnew j hj')
    · obtain rfl := List.mem_singleton.mp hj'
      exact absurd heq.symm (hnew l hl')
    · exact (List.mem_singleton.mp hj').trans (List.mem_singleton.mp hl').symm
  · rcases List.mem_append.mp hj with hdone | hlast
    · have haligned : PageAligned (tableAt k.mem directory j) := pageAligned_and_pageMask _
      rw [hold j hdone, henters.frame _ haligned (hne _ (h.table j hdone).1) (h.table j hdone).2]
      exact h.identity j hdone
    · obtain rfl := List.mem_singleton.mp hlast
      rw [henters.table]
      exact henters.identity
  · rw [henters.frame page hpage (fun heq => hout (heq ▸ hmem)) fun heq => hout (heq ▸ hdirectory)]
    exact h.frame page hpage hout

/-- A place in the list of all entries. -/
theorem eq_length_of_finRange
    {n : Nat} {done todo : List (Fin n)} {i : Fin n} (h : List.finRange n = done ++ i :: todo) :
    (i : Nat) = done.length ∧ i ∉ done := by
  have hlength := congrArg List.length h
  rw [List.length_finRange, List.length_append, List.length_cons] at hlength
  have hget : (List.finRange n)[done.length]? = some i := by rw [h]; simp
  rw [List.getElem?_eq_getElem (by rw [List.length_finRange]; omega), List.getElem_finRange] at hget
  refine ⟨(congrArg Fin.val (Option.some.inj hget)).symm, fun hmem => ?_⟩
  have hnodup := List.nodup_finRange n
  rw [h, List.nodup_append] at hnodup
  exact hnodup.2.2 i hmem i List.mem_cons_self rfl

/-- The two loops have made the same tables: the one over the blocks stands at the
offset of the next table. -/
structure InStep (answers : List Ptr) (k₀ k : Kernel) (directory flags : Word)
    (done : List (Fin 1024)) (s : Building × Word) : Prop where
  offset : s.2 = BitVec.ofNat 32 (4194304 * done.length)
  own : s.1.Has directory
  coarse : ∃ k' taken, done.foldlM (pagingNew4gbTable directory flags) k = .ok k' ∧
    k'.Alike s.1.kernel ∧ Entered answers k₀ directory flags done taken k'

theorem InStep.newTable
    {done todo : List (Fin 1024)} {i : Fin 1024} {s : Building × Word}
    (hanswers : Pool.AnswersPages answers) (hflags : (flags ||| pagingIsWriteable).toNat < 4096)
    (h : InStep answers k₀ k directory flags done s)
    (hall : List.finRange 1024 = done ++ i :: todo) :
    ∃ s', Building.newTable directory flags s i = .ok s' ∧
      InStep answers k₀ k directory flags (done ++ [i]) s' := by
  obtain ⟨s, offset⟩ := s
  obtain ⟨hoffset, hhas, k₁, taken, hcoarse, halike, hentered⟩ := h
  obtain ⟨hi, hnew⟩ := eq_length_of_finRange hall
  have hlength : done.length < 1024 := hi ▸ i.isLt
  have hmem := (hentered.next hanswers hlength).1
  have hdirectory : directory ∈ answers := hentered.split ▸ List.mem_append_left _ hentered.own
  dsimp only at hoffset
  rw [← hi] at hoffset
  subst hoffset
  obtain ⟨s', k₂, htable, hcoarse', halike', hhas'⟩ := Building.newTable_alike halike
    (hanswers.aligned _ hdirectory) hhas (hanswers.ne_zero hdirectory)
    (hanswers.aligned _ hmem) (hanswers.ne_zero hmem) i
  obtain ⟨k₂', hsame, hentered'⟩ := hentered.step hanswers hflags hnew hlength
  cases hsame.symm.trans hcoarse'
  refine ⟨_, htable, ?_, hhas', k₂, _, ?_, halike', hentered'⟩
  · rw [List.length_append, List.length_singleton, ← hi]
  · rw [List.foldlM_append, hcoarse, ok_bind, List.foldlM_cons, hcoarse']
    rfl

/-- The two loops do the same and end. -/
theorem newTables_spec
    {s : Building} (hanswers : Pool.AnswersPages answers)
    (hflags : (flags ||| pagingIsWriteable).toNat < 4096) (halike : k.Alike s.kernel)
    (hhas : s.Has directory) {taken : List Ptr}
    (h : Entered answers k₀ directory flags [] taken k) :
    ∃ s' offset k' taken',
      (List.finRange 1024).foldlM (Building.newTable directory flags) (s, 0) = .ok (s', offset) ∧
      (List.finRange 1024).foldlM (pagingNew4gbTable directory flags) k = .ok k' ∧
      k'.Alike s'.kernel ∧
      Entered answers k₀ directory flags (List.finRange 1024) taken' k' := by
  have hstart : InStep answers k₀ k directory flags [] (s, 0) :=
    ⟨rfl, hhas, k, taken, rfl, halike, h⟩
  obtain ⟨⟨s', offset⟩, hloop, hsteps⟩ := foldlM_returns
    (InStep answers k₀ k directory flags)
    (fun _ _ _ _ hall hs => hs.newTable hanswers hflags hall) hstart
  obtain ⟨k', taken', hcoarse, halike', hentered⟩ := hsteps.coarse
  exact ⟨s', offset, k', taken', hloop, hcoarse, halike', hentered⟩

/-- A directory of tables of its own, in which every page is mapped to itself. -/
structure IdentityDirectory (mem : Pages) (directory flags : Word) : Prop where
  aligned : PageAligned directory
  tables : PageDirectory mem directory
  identity : ∀ i, mem (tableAt mem directory i) = identityTable i flags

theorem IdentityDirectory.get
    {mem : Pages} (h : IdentityDirectory mem directory flags) {page : Ptr}
    (hpage : PageAligned page) :
    pagingGet mem directory page = page ||| flags := by
  have hindexes :
      BitVec.ofNat 32 (4194304 * directoryIndex page + 4096 * tableIndex page) = page := by
    refine BitVec.eq_of_toNat_eq ?_
    have hlt := page.isLt
    unfold PageAligned at hpage
    simp only [directoryIndex, tableIndex, pagingTotalEntriesPerTable, pagingPageSize,
      BitVec.toNat_ofNat] at *
    omega
  rw [pagingGet_of_aligned hpage, h.identity, identityTable, hindexes]

theorem IdentityDirectory.physicalAddress
    {mem : Pages} (h : IdentityDirectory mem directory flags) (hflags : flags.toNat < 4096)
    (virt : Ptr) :
    pagingGetPhysicalAddress mem directory virt = virt := by
  have hpage := pageAligned_alignToLowerPage virt
  rw [pagingGetPhysicalAddress, h.get hpage, or_and_pageMask hpage hflags, BitVec.add_comm,
    BitVec.sub_add_cancel]

/-- The last request is the one for the chunk. -/
theorem Entered.chunk
    {taken : List Ptr} (hanswers : Pool.AnswersPages answers)
    (h : Entered answers k₀ directory flags (List.finRange 1024) taken k) :
    (k.kzalloc sizeofChunk).1 ∈ answers ∧ (k.kzalloc sizeofChunk).1 ∉ taken := by
  have hsplit := h.split
  rw [List.length_finRange, sizesLeft, Nat.sub_self, List.replicate_zero, List.nil_append,
    requests_cons] at hsplit
  have hnodup := hanswers.disjoint
  rw [hsplit, List.nodup_append] at hnodup
  refine ⟨by rw [hsplit]; simp, fun hmem => ?_⟩
  exact hnodup.2.2 _ hmem _ List.mem_cons_self rfl

/-- What stands in memory behind the request for the chunk. -/
theorem Entered.finish
    {taken : List Ptr} (hanswers : Pool.AnswersPages answers)
    (h : Entered answers k₀ directory flags (List.finRange 1024) taken k) {mem : Pages}
    (hmem : ∀ page, PageAligned page → page ≠ (k.kzalloc sizeofChunk).1 →
      mem page = k.mem page) :
    IdentityDirectory mem directory flags ∧
      ∀ page, PageAligned page → page ∉ answers → mem page = k₀.mem page := by
  obtain ⟨hchunk, hfresh⟩ := h.chunk hanswers
  have htaken (p : Ptr) (hp : p ∈ taken) : p ∈ answers := h.split ▸ List.mem_append_left _ hp
  have hkept (p : Ptr) (hp : p ∈ taken) : mem p = k.mem p :=
    hmem p (hanswers.aligned p (htaken p hp)) fun heq => hfresh (heq ▸ hp)
  have htables : tableAt mem directory = tableAt k.mem directory :=
    tableAt_congr (hkept directory h.own)
  refine ⟨⟨hanswers.aligned _ (htaken _ h.own), ⟨?_, fun i => ?_⟩, fun i => ?_⟩,
    fun page hpage hout => ?_⟩
  · rw [htables]
    exact fun i j heq => h.distinct i (List.mem_finRange i) j (List.mem_finRange j) heq
  · rw [htables]
    exact (h.table i (List.mem_finRange i)).2
  · rw [htables, hkept _ (h.table i (List.mem_finRange i)).1]
    exact h.identity i (List.mem_finRange i)
  · rw [hmem page hpage fun heq => hout (heq ▸ hchunk)]
    exact h.frame page hpage hout

/-- The flags are below the page. -/
theorem byteFlags_lt (flags : Byte) : (flags.setWidth 32 : Word).toNat < 2 ^ 12 := by
  have hlt := flags.isLt
  rw [BitVec.toNat_setWidth]
  omega

theorem entryFlags_lt (flags : Byte) :
    ((flags.setWidth 32 : Word) ||| pagingIsWriteable).toNat < 4096 := by
  rw [BitVec.toNat_or]
  exact Nat.or_lt_two_pow (byteFlags_lt flags) (by decide)

theorem Entered.start
    (hanswers : Pool.AnswersPages (k.pool.requests directorySizes)) (flags : Word) :
    Entered (k.pool.requests directorySizes) k (k.kzalloc sizeofDirectory).1 flags []
      [(k.kzalloc sizeofDirectory).1] (k.kzalloc sizeofDirectory).2 := by
  have hsplit : k.pool.requests directorySizes =
      (k.kzalloc sizeofDirectory).1 :: (k.kzalloc sizeofDirectory).2.pool.requests (sizesLeft 0) :=
    requests_cons k _ _
  have hmem : (k.kzalloc sizeofDirectory).1 ∈ k.pool.requests directorySizes := by
    rw [hsplit]
    exact List.mem_cons_self
  exact
    { split := hsplit
      own := List.mem_cons_self
      table := fun _ hi => absurd hi List.not_mem_nil
      distinct := fun _ hi => absurd hi List.not_mem_nil
      identity := fun _ hi => absurd hi List.not_mem_nil
      frame := fun page hpage hout =>
        kzalloc_page (by decide) (hanswers.aligned _ hmem) hpage fun heq => hout (heq ▸ hmem) }

/-- The construction word by word is `paging_new_4gb` with whole tables. -/
theorem pagingNew4gb_spec
    (k : Kernel) (flags : Byte) (hanswers : Pool.AnswersPages (k.pool.requests directorySizes)) :
    ∃ chunk directory k' k'', Building.pagingNew4gb k flags = .ok (chunk, k') ∧
      k.pagingNew4gb (flags.setWidth 32) = .ok (chunk, k'') ∧ k''.Alike k' ∧
      k'.chunks chunk = some directory ∧
      IdentityDirectory k'.mem directory (flags.setWidth 32) ∧
      ∀ page, PageAligned page → page ∉ k.pool.requests directorySizes →
        k'.mem page = k.mem page := by
  have hstart := Entered.start hanswers (flags.setWidth 32)
  have hdirectory : (k.kzalloc sizeofDirectory).1 ∈ k.pool.requests directorySizes :=
    hstart.split ▸ List.mem_append_left _ hstart.own
  obtain ⟨htake, -⟩ := @Building.kzalloc_alike ⟨k, []⟩ k (Alike.refl k) sizeofDirectory
    (hanswers.ne_zero hdirectory)
  let s : Building := ⟨(k.kzalloc sizeofDirectory).2, [((k.kzalloc sizeofDirectory).1, 1)]⟩
  change Building.kzalloc ⟨k, []⟩ sizeofDirectory = ((k.kzalloc sizeofDirectory).1, s) at htake
  obtain ⟨s₁, offset, k₁, taken, hloop, hcoarse, halike, hentered⟩ := @newTables_spec k
    (k.kzalloc sizeofDirectory).2 _ (flags.setWidth 32) _ s hanswers (entryFlags_lt flags)
    (Alike.refl _) List.mem_cons_self _ hstart
  obtain ⟨hchunk, -⟩ := hentered.chunk hanswers
  obtain ⟨htake₂, halike₂⟩ :=
    Building.kzalloc_alike halike sizeofChunk (hanswers.ne_zero hchunk)
  let s₂ : Building := ⟨(s₁.kernel.kzalloc sizeofChunk).2,
    ((k₁.kzalloc sizeofChunk).1, 1) :: s₁.blocks⟩
  change s₁.kzalloc sizeofChunk = ((k₁.kzalloc sizeofChunk).1, s₂) at htake₂
  have howns : s₂.Owns (k₁.kzalloc sizeofChunk).1 4 :=
    ⟨_, List.mem_cons_self, Nat.le_refl _, Nat.add_le_add_left (show 4 ≤ 4096 by decide) _⟩
  have hmem (page : Ptr) (hpage : PageAligned page) (hne : page ≠ (k₁.kzalloc sizeofChunk).1) :
      s₂.kernel.mem page = k₁.mem page :=
    (halike₂.page hpage).trans (kzalloc_page (by decide) (hanswers.aligned _ hchunk) hpage hne)
  obtain ⟨hidentity, hframe⟩ := hentered.finish hanswers hmem
  refine ⟨(k₁.kzalloc sizeofChunk).1, (k.kzalloc sizeofDirectory).1,
    { s₂.kernel with
      chunks := fun q =>
        if q = (k₁.kzalloc sizeofChunk).1 then some (k.kzalloc sizeofDirectory).1
        else s₂.kernel.chunks q },
    { (k₁.kzalloc sizeofChunk).2 with
      chunks := fun q =>
        if q = (k₁.kzalloc sizeofChunk).1 then some (k.kzalloc sizeofDirectory).1
        else (k₁.kzalloc sizeofChunk).2.chunks q },
    ?_, ?_, ⟨?_, halike₂.bytes⟩, if_pos rfl, hidentity, hframe⟩
  · rw [Building.pagingNew4gb, htake]
    dsimp only
    rw [hloop, ok_bind]
    dsimp only
    rw [htake₂]
    exact if_pos howns
  · rw [Kernel.pagingNew4gb]
    dsimp only
    rw [hcoarse, ok_bind]
    exact if_neg (hanswers.ne_zero hchunk)
  · have hrest : s₂.kernel = { (k₁.kzalloc sizeofChunk).2 with mem := s₂.kernel.mem } :=
      halike₂.rest
    rw [hrest]

/-- A new address space is the identity: its entries map every page to itself with
the flags, and nothing outside its blocks has been written. -/
theorem pagingNew4gb_identity
    (k : Kernel) (flags : Byte) (hanswers : Pool.AnswersPages (k.pool.requests directorySizes)) :
    ∃ chunk directory k', Building.pagingNew4gb k flags = .ok (chunk, k') ∧
      k'.chunks chunk = some directory ∧
      (∀ virt, pagingGetPhysicalAddress k'.mem directory virt = virt ∧
        pagingGet k'.mem directory (pagingAlignToLowerPage virt) =
          pagingAlignToLowerPage virt ||| flags.setWidth 32) ∧
      Function.Injective (tableAt k'.mem directory) ∧
      ∀ addr, (∀ p ∈ k.pool.requests directorySizes, ¬ InBlock p 1 addr) →
        k'.mem.bytes addr = k.mem.bytes addr := by
  obtain ⟨chunk, directory, k', -, hmade, -, -, hchunk, hidentity, hframe⟩ :=
    pagingNew4gb_spec k flags hanswers
  refine ⟨chunk, directory, k', hmade, hchunk, fun virt => ⟨?_, ?_⟩, hidentity.tables.distinct,
    fun addr hout => ?_⟩
  · exact hidentity.physicalAddress (byteFlags_lt flags) virt
  · exact hidentity.get (pageAligned_alignToLowerPage virt)
  · have hlower := toNat_alignToLowerPage addr
    have hpage : pagingAlignToLowerPage addr ∉ k.pool.requests directorySizes := by
      intro hmem
      refine hout _ hmem ?_
      unfold InBlock pagingPageSize
      omega
    rw [Pages.bytes, Pages.bytes, hframe _ (pageAligned_alignToLowerPage addr) hpage]

/-- A kernel with memory for the requests of a directory. -/
theorem blank_answersPages :
    Pool.AnswersPages ((blank 1026).pool.requests directorySizes) := by
  have hsizes (size : Word) (hsize : size ∈ directorySizes) : size ≠ 0 ∧ pagesOf size ≤ 4 := by
    rcases List.mem_append.mp hsize with hmem | hmem
    · rcases List.mem_cons.mp hmem with rfl | htable
      · decide
      · rw [List.eq_of_mem_replicate htable]
        decide
    · rw [List.mem_singleton.mp hmem]
      decide
  have hlength : directorySizes.length = 1026 := by
    rw [directorySizes, List.length_append, List.length_cons, List.length_replicate]
    rfl
  have hroom : Pool.HasSpace 4 (blank 1026).pool (0 + directorySizes.length) := by
    rw [hlength]
    exact Pool.packed_hasSpace (by decide)
  obtain ⟨b', hgranted, -⟩ := Pool.HasSpace.granted hroom hsizes
  exact hgranted.answersPages (Pool.packed_inv (by decide)) fun size hsize => (hsizes size hsize).1

theorem pagingNew4gb_identity_blank :
    ∃ chunk directory k', Building.pagingNew4gb (blank 1026) 7 = .ok (chunk, k') ∧
      k'.chunks chunk = some directory ∧
      pagingGetPhysicalAddress k'.mem directory 0x80001234 = 0x80001234 ∧
      pagingGet k'.mem directory (pagingAlignToLowerPage 0x80001234) = 0x80001007 := by
  obtain ⟨chunk, directory, k', hmade, hchunk, hall, -⟩ :=
    pagingNew4gb_identity (blank 1026) 7 blank_answersPages
  exact ⟨chunk, directory, k', hmade, hchunk, (hall _).1, (hall _).2⟩

end Kernel

end PeachOS
