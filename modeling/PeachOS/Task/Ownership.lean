import PeachOS.Task.Allocations

/-!
# What a process owns

The blocks that hang off a process, and what `process_malloc` and
`process_free` do to them, to its page tables and to anything else.
-/

namespace PeachOS

open Lib

/-- The pages of a block are what is mapped of it. -/
theorem Pool.Placed.mappable
    {p : Ptr} {size : Word} (h : Pool.Placed p (pagesOf size)) {virt : Ptr}
    (hvirt : PageAligned virt) :
    Mappable virt p (pagingIsAllignedAddress (p + size)) ∧
      (pagingIsAllignedAddress (p + size) - p).toNat / pagingPageSize = pagesOf size := by
  have haligned := h.aligned
  have hupper := h.upper
  unfold PageAligned pagesOf heapAddress heapSizeBytes pagingPageSize at *
  have hadd : (p + size).toNat = p.toNat + size.toNat := by
    rw [BitVec.toNat_add]
    omega
  have hend := @toNat_pagingIsAllignedAddress (p + size) (by omega)
  rw [hadd] at hend
  have hle : p ≤ pagingIsAllignedAddress (p + size) := by
    rw [BitVec.le_def, hend]
    omega
  refine ⟨⟨hvirt, haligned, ?_, hle⟩, ?_⟩
  · rw [PageAligned, hend, pagingPageSize]
    omega
  · rw [BitVec.toNat_sub_of_le hle, hend]
    omega

namespace Kernel

/-- The blocks that are found from a process. -/
structure Footprint where
  record : ProcessRecord
  task : Ptr
  chunk : Ptr
  directory : Ptr
  filesize : Word
  buffer : Ptr
  program : List Ptr

/-- The blocks that a process has all its life. -/
def Footprint.fixed (f : Footprint) (process : Ptr) (mem : Pages) : List Ptr :=
  taskBlocks mem f.task f.chunk f.directory ++ (f.record.stack :: (f.program ++ [process]))

def Footprint.blocks (f : Footprint) (process : Ptr) (mem : Pages) : List Ptr :=
  allocated f.record ++ f.fixed process mem

structure Owns (k : Kernel) (process : Ptr) (f : Footprint) : Prop where
  recorded : k.records process = some f.record
  held : HoldsProgram k f.record f.filesize f.buffer f.program
  link : ∃ id, k.sched.procs process = some ⟨id, f.task⟩
  pageDirectoryOf : k.sched.pageDirectoryOf f.task = some f.chunk
  chunk : k.chunks f.chunk = some f.directory
  stack : k.pool.live f.record.stack = some (pagesOf userProgramStackSize)
  sizes : ∀ i < maxProgramAllocations, (f.record.allocations i).ptr ≠ 0 →
    (f.record.allocations i).size ≠ 0 ∧
      k.pool.live (f.record.allocations i).ptr = some (pagesOf (f.record.allocations i).size)

/-- The process has its blocks for itself, beside those in `rest`. -/
structure Keeps (k₀ : Kernel) (process : Ptr) (f : Footprint) (rest os : List Ptr) (k : Kernel) :
    Prop where
  owns : Owns k process f
  holds : Holds k₀ (f.blocks process k.mem ++ rest) os k

section Keeps

variable {k₀ k k' : Kernel} {process : Ptr} {f : Footprint} {rest os : List Ptr}

theorem Keeps.nodup (h : Keeps k₀ process f rest os k) : (f.blocks process k.mem).Nodup :=
  (List.nodup_append.mp h.holds.nodup).1

theorem Keeps.mem_fixed
    {p : Ptr} (hp : p ∈ f.fixed process k.mem) :
    p ∈ f.blocks process k.mem ++ rest :=
  List.mem_append_left rest (List.mem_append_right (allocated f.record) hp)

theorem Footprint.process_mem (f : Footprint) (process : Ptr) (mem : Pages) :
    process ∈ f.fixed process mem := by
  simp [Footprint.fixed]

theorem Footprint.directory_mem (f : Footprint) (process : Ptr) (mem : Pages) :
    f.directory ∈ f.fixed process mem := by
  simp [Footprint.fixed, taskBlocks]

theorem Footprint.table_mem (f : Footprint) (process : Ptr) (mem : Pages) (i : Fin 1024) :
    tableAt mem f.directory i ∈ f.fixed process mem := by
  simp [Footprint.fixed, taskBlocks, tablesOf]

theorem Keeps.process_ne_zero (h : Keeps k₀ process f rest os k) : process ≠ 0 :=
  h.holds.ne_zero (Keeps.mem_fixed (f.process_mem process k.mem))

theorem Keeps.directoryOf (h : Keeps k₀ process f rest os k) :
    k.directoryOf process = .ok f.directory := by
  obtain ⟨id, hlink⟩ := h.owns.link
  have hne (p : Ptr) (hp : p ∈ f.fixed process k.mem) : p ≠ 0 :=
    h.holds.ne_zero (Keeps.mem_fixed hp)
  exact directoryOf_eq h.process_ne_zero (hne _ (by simp [Footprint.fixed, taskBlocks]))
    (hne _ (by simp [Footprint.fixed, taskBlocks])) hlink h.owns.pageDirectoryOf h.owns.chunk

/-- The tables of the process are blocks of their own. -/
theorem Keeps.pageDirectory (h : Keeps k₀ process f rest os k) :
    PageDirectory k.mem f.directory := by
  have hfixed := (List.nodup_append.mp h.nodup).2.1
  obtain ⟨htask, -, -⟩ := List.nodup_append.mp hfixed
  obtain ⟨htables, -, hapart⟩ := List.nodup_append.mp htask
  refine ⟨fun i j hij => ?_, fun i heq => ?_⟩
  · exact List.inj_on_of_nodup_map htables (List.mem_finRange i) (List.mem_finRange j) hij
  · exact hapart _ (List.mem_map_of_mem (List.mem_finRange i)) _ List.mem_cons_self heq

/-- The allocations are blocks beside the record and the tables. -/
theorem Keeps.allocated_out
    (h : Keeps k₀ process f rest os k) {b : Ptr} (hb : b ∈ allocated f.record) :
    b ∉ process :: tablesOf k.mem f.directory := by
  intro hmem
  have hfixed : b ∈ f.fixed process k.mem := by
    rcases List.mem_cons.mp hmem with rfl | htable
    · exact f.process_mem b k.mem
    · obtain ⟨i, -, rfl⟩ := List.mem_map.mp htable
      exact f.table_mem process k.mem i
  exact (List.nodup_append.mp h.nodup).2.2 b hb b hfixed rfl

theorem Footprint.blocks_congr
    {mem mem' : Pages} (h : mem' f.directory = mem f.directory) (process : Ptr) :
    f.blocks process mem' = f.blocks process mem := by
  rw [Footprint.blocks, Footprint.blocks, Footprint.fixed, Footprint.fixed, taskBlocks, taskBlocks,
    tablesOf, tablesOf, tableAt_congr h]

/-- The first page of a block that the process has all its life. -/
theorem Keeps.page
    (h : Keeps k₀ process f rest os k) {p : Ptr} (hp : p ∈ f.fixed process k.mem) :
    ∃ n, k.pool.live p = some n ∧ PageAligned p ∧ InBlock p n p := by
  obtain ⟨n, hn⟩ := Option.isSome_iff_exists.mp (h.holds.isSome (Keeps.mem_fixed hp))
  have hplaced := h.holds.inv.placed p n hn
  exact ⟨n, hn, hplaced.aligned, hplaced.inBlock⟩

/-- A call that spares the blocks of the process. -/
theorem Owns.same
    (h : Owns k process f) {mem : Pages}
    (hsame : ∀ b ∈ f.blocks process mem, SameBlock k k' b)
    (hprocs : k'.sched.procs process = k.sched.procs process)
    (hpaging : k'.sched.pageDirectoryOf f.task = k.sched.pageDirectoryOf f.task) :
    Owns k' process f := by
  have hfixed (b : Ptr) (hb : b ∈ f.fixed process mem) : SameBlock k k' b :=
    hsame b (List.mem_append_right _ hb)
  refine ⟨?_, ?_, ?_, ?_, ?_, ?_, ?_⟩
  · rw [(hfixed process (f.process_mem process mem)).records, h.recorded]
  · exact h.held.same (fun b hb => hfixed b (by simp [Footprint.fixed, hb])) rfl rfl rfl
  · rw [hprocs]
    exact h.link
  · rw [hpaging, h.pageDirectoryOf]
  · rw [(hfixed f.chunk (by simp [Footprint.fixed, taskBlocks])).chunks, h.chunk]
  · rw [(hfixed f.record.stack (by simp [Footprint.fixed])).live, h.stack]
  · intro i hi hne
    have hin := List.mem_append_left (f.fixed process mem) (mem_allocated.mpr ⟨i, hi, rfl, hne⟩)
    rw [(hsame _ hin).live]
    exact h.sizes i hi hne

theorem Keeps.same
    (h : Keeps k₀ process f rest os k) {bs : List Ptr} (hspares : Spares bs k k')
    (hbs : ∀ b ∈ f.blocks process k.mem, b ∉ bs) (hsched : k'.sched = k.sched) {rest' os' : List Ptr}
    (hholds : Holds k₀ (f.blocks process k.mem ++ rest') os' k') :
    Keeps k₀ process f rest' os' k' := by
  have hsame (b : Ptr) (hb : b ∈ f.blocks process k.mem) : SameBlock k k' b :=
    hspares b (h.holds.isSome (List.mem_append_left rest hb)) (hbs b hb)
  obtain ⟨n, hn, haligned, hin⟩ := h.page (f.directory_mem process k.mem)
  have hdirectory := (hsame f.directory
    (List.mem_append_right _ (f.directory_mem process k.mem))).mem n f.directory hn haligned hin
  refine ⟨h.owns.same hsame (by rw [hsched]) (by rw [hsched]), ?_⟩
  rw [f.blocks_congr hdirectory]
  exact hholds

/-- A call that adds blocks. -/
theorem Keeps.extend
    (h : Keeps k₀ process f rest os k) {bs os' : List Ptr} (hext : Extends k bs os' k') :
    Keeps k₀ process f (bs ++ rest) (os' ++ os) k' := by
  refine h.same hext.spares (fun _ _ => List.not_mem_nil) hext.sched ?_
  refine (h.holds.trans hext.holds).perm ?_
  rw [← List.append_assoc, ← List.append_assoc]
  exact List.perm_append_comm.append_right rest

/-- The blocks that are not those of the process. -/
theorem Keeps.not_mem
    {p : Ptr} (h : Keeps k₀ process f (p :: rest) os k) :
    ∀ b ∈ f.blocks process k.mem, b ∉ [p] := by
  intro b hb hmem
  obtain rfl := List.mem_singleton.mp hmem
  exact (List.nodup_append.mp h.holds.nodup).2.2 b hb b List.mem_cons_self rfl

theorem Keeps.kfree
    {p : Ptr} (h : Keeps k₀ process f (p :: rest) os k) :
    Keeps k₀ process f rest os (k.kfree p) :=
  h.same (kfree_spares k p) h.not_mem rfl (h.holds.perm List.perm_middle).kfree

theorem HoldsProgram.congr
    {record record' : ProcessRecord} {filesize : Word} {buffer : Ptr} {bs : List Ptr}
    (h : HoldsProgram k record filesize buffer bs) (hfiles : k'.elfFiles = k.elfFiles)
    (hpool : k'.pool = k.pool) (hfiletype : record'.filetype = record.filetype)
    (hdata : record'.data = record.data) (hsize : record'.size = record.size) :
    HoldsProgram k' record' filesize buffer bs := by
  cases h with
  | elf helf hfile hlive =>
      rw [← hdata]
      refine HoldsProgram.elf (hfiletype.trans helf) ?_ ?_
      · rw [hfiles, hdata, hfile]
      · rw [hpool, hlive]
  | binary hbinary hfilesize hlive =>
      rw [← hdata]
      refine HoldsProgram.binary (hfiletype.trans hbinary) (hsize.trans hfilesize) ?_
      rw [hpool, hdata, hlive]

/-- The entries of the allocations change. -/
theorem Keeps.setAllocations
    (h : Keeps k₀ process f rest os k) (allocations : Nat → ProcessAllocation)
    (hsizes : ∀ i < maxProgramAllocations, (allocations i).ptr ≠ 0 →
      (allocations i).size ≠ 0 ∧
        k.pool.live (allocations i).ptr = some (pagesOf (allocations i).size))
    {rest' : List Ptr}
    (hperm : (allocated f.record ++ rest).Perm
      (allocated { f.record with allocations := allocations } ++ rest')) :
    Keeps k₀ process { f with record := { f.record with allocations := allocations } } rest' os
      (k.setRecord process { f.record with allocations := allocations }) := by
  refine ⟨⟨if_pos rfl, ?_, h.owns.link, h.owns.pageDirectoryOf, h.owns.chunk, h.owns.stack, hsizes⟩,
    (h.holds.perm ?_).congr rfl rfl⟩
  · exact h.owns.held.congr rfl rfl rfl rfl rfl
  · have hswap (as F R : List Ptr) : (as ++ F ++ R).Perm (F ++ (as ++ R)) := by
      rw [← List.append_assoc]
      exact List.perm_append_comm.append_right R
    exact ((hswap _ _ _).trans (hperm.append_left _)).trans (hswap _ _ _).symm

/-- The tables of the process are written. -/
theorem Keeps.tables_spares
    (h : Keeps k₀ process f rest os k) {mem : Pages}
    (hframe : ∀ page, (∀ i, page ≠ tableAt k.mem f.directory i) → mem page = k.mem page) :
    Spares (tablesOf k.mem f.directory) k { k with mem := mem } := by
  refine mem_spares h.holds.inv fun page _ hout => hframe page fun i heq => ?_
  obtain ⟨n, hn, -, hin⟩ := h.page (f.table_mem process k.mem i)
  exact hout _ (List.mem_map_of_mem (List.mem_finRange i)) n hn (heq ▸ hin)

theorem Keeps.map
    (h : Keeps k₀ process f rest os k) {mem : Pages}
    (hdirectory : mem f.directory = k.mem f.directory) :
    Keeps k₀ process f rest os { k with mem := mem } where
  owns := ⟨h.owns.recorded, h.owns.held.congr rfl rfl rfl rfl rfl, h.owns.link,
    h.owns.pageDirectoryOf, h.owns.chunk, h.owns.stack, h.owns.sizes⟩
  holds := by
    rw [show f.blocks process mem = f.blocks process k.mem from f.blocks_congr hdirectory process]
    exact h.holds.congr rfl rfl

/-- The scheduler changes beside the process. -/
theorem Keeps.setSched
    (h : Keeps k₀ process f rest os k) (sched : Sched)
    (hprocs : sched.procs process = k.sched.procs process)
    (hpaging : sched.pageDirectoryOf f.task = k.sched.pageDirectoryOf f.task) :
    Keeps k₀ process f rest os { k with sched := sched } where
  owns := by
    refine ⟨h.owns.recorded, h.owns.held.congr rfl rfl rfl rfl rfl, ?_, ?_, h.owns.chunk,
      h.owns.stack, h.owns.sizes⟩
    · rw [hprocs]
      exact h.owns.link
    · rw [hpaging, h.owns.pageDirectoryOf]
  holds := h.holds.congr rfl rfl

/-- A block has been added to the allocations and mapped. -/
structure Malloced (k : Kernel) (process : Ptr) (f f' : Footprint) (size : Word) (p : Ptr)
    (k' : Kernel) : Prop where
  fresh : k.pool.live p = none
  live : k'.pool.live p = some (pagesOf size)
  entry : ∃ i < maxProgramAllocations, (f.record.allocations i).ptr = 0 ∧
    f' = { f with record :=
      { f.record with
        allocations := fun j => if j = i then ⟨p, size⟩ else f.record.allocations j } }
  mapped : ∃ k₁, Extends k [p] [] k₁ ∧ Maps k₁.mem k'.mem f.directory p p 7 (pagesOf size)
  spares : Spares (process :: tablesOf k.mem f.directory) k k'
  sched : k'.sched = k.sched

/-- Once `kzalloc` has returned a block, `process_malloc` gives it back or adds it
to the allocations. -/
theorem Keeps.processMalloc_eq
    (h : Keeps k₀ process f rest os k) {size : Word} (hsize : size ≠ 0) {ptr : Ptr}
    {k₁ : Kernel} (hk : k.kzalloc size = (ptr, k₁)) (h0 : ptr ≠ 0) :
    Keeps k₀ process f (ptr :: rest) os k₁ ∧
      k.processMalloc process size =
        match processFindFreeAllocationIndex f.record with
        | none => .ok (0, k₁.kfree ptr)
        | some index =>
            let (_, mem) := pagingMapTo k₁.mem f.directory ptr ptr
              (pagingIsAllignedAddress (ptr + size))
              (pagingIsWriteable ||| pagingIsPresent ||| pagingAccessFromAll)
            .ok (ptr,
              { k₁ with mem := mem }.setRecord process
                { f.record with
                  allocations := fun i =>
                    if i = index then ⟨ptr, size⟩ else f.record.allocations i }) := by
  have h₁ : Keeps k₀ process f (ptr :: rest) os k₁ :=
    h.extend (extends_kzalloc h.holds.inv hsize hk h0).1
  refine ⟨h₁, ?_⟩
  rw [Kernel.processMalloc, hk]
  dsimp only
  rw [if_neg h0, follow_of_some h.process_ne_zero h₁.owns.recorded, ok_bind]
  cases processFindFreeAllocationIndex f.record with
  | none => rfl
  | some index =>
      rw [h₁.directoryOf]
      rfl

/-- The tables of a process are all that mapping a new block changes. -/
theorem Keeps.spares_mapped
    (h : Keeps k₀ process f rest os k) {p : Ptr} {k₁ : Kernel}
    (hext : Extends k [p] [] k₁) (h₁ : Keeps k₀ process f (p :: rest) os k₁) {mem : Pages}
    {n : Nat} (hmaps : Maps k₁.mem mem f.directory p p 7 n) :
    Spares (tablesOf k.mem f.directory) k { k₁ with mem := mem } := by
  have htables := h₁.tables_spares hmaps.frame
  obtain ⟨n, hn, haligned, hin⟩ := h.page (f.directory_mem process k.mem)
  have hdirectory := (hext.spares f.directory (by rw [hn]; rfl) List.not_mem_nil).mem n
    f.directory hn haligned hin
  rw [tablesOf, tableAt_congr hdirectory, ← tablesOf] at htables
  exact (hext.spares.mono (List.nil_subset _)).trans htables fun b hb => Or.inl hb

theorem Keeps.processMalloc
    (h : Keeps k₀ process f rest os k) {size : Word} (hsize : size ≠ 0) {p : Ptr}
    (hcall : k.processMalloc process size = .ok (p, k')) :
    (p = 0 ∧ Keeps k₀ process f rest os k' ∧ Spares [] k k' ∧ k'.sched = k.sched) ∨
      ∃ f', Keeps k₀ process f' rest os k' ∧ Malloced k process f f' size p k' := by
  rcases hk : k.kzalloc size with ⟨ptr, k₁⟩
  by_cases h0 : ptr = 0
  · rw [Kernel.processMalloc, hk] at hcall
    cases (if_pos h0).symm.trans hcall
    rw [h0] at hk
    have hrefused := kzalloc_refused hk
    exact Or.inl ⟨rfl, h.same hrefused.spares (fun _ _ => List.not_mem_nil) hrefused.sched
      (h.holds.refused hrefused), hrefused.spares, hrefused.sched⟩
  · obtain ⟨hext, hlive⟩ := extends_kzalloc h.holds.inv hsize hk h0
    obtain ⟨h₁, heq⟩ := h.processMalloc_eq hsize hk h0
    rw [heq] at hcall
    cases hindex : processFindFreeAllocationIndex f.record with
    | none =>
        rw [hindex] at hcall
        cases hcall
        refine Or.inl ⟨rfl, h₁.kfree, hext.spares.trans (kfree_spares k₁ ptr) fun b hb => ?_,
          hext.sched⟩
        rw [List.mem_singleton.mp hb]
        exact Or.inr (hext.holds.grown.fresh ptr List.mem_cons_self)
    | some index =>
        obtain ⟨hi, hfree⟩ := processFindFreeAllocationIndex_some hindex
        rw [hindex] at hcall
        have hplaced := h₁.holds.inv.placed ptr _ hlive
        obtain ⟨hmappable, hcount⟩ := hplaced.mappable hplaced.aligned
        obtain ⟨mem, hmap, hmaps⟩ := pagingMapTo_spec h₁.pageDirectory hmappable
          (pagingIsWriteable ||| pagingIsPresent ||| pagingAccessFromAll)
        dsimp only at hcall
        rw [hmap] at hcall
        cases hcall
        rw [hcount] at hmaps
        have h₂ := h₁.map hmaps.entries
        have h₃ := h₂.setAllocations
          (fun j => if j = index then ⟨p, size⟩ else f.record.allocations j)
          (fun i hi' hne => by
            dsimp only at hne ⊢
            split_ifs at hne ⊢ with heq
            · exact ⟨hsize, hlive⟩
            · exact h₂.owns.sizes i hi' hne)
          (List.perm_middle.trans ((allocated_use hi hfree h0 size).symm.append_right rest))
        have hspares₂ := h.spares_mapped hext h₁ hmaps
        refine Or.inr ⟨_, h₃, hext.holds.grown.fresh p List.mem_cons_self, hlive,
          ⟨index, hi, hfree, rfl⟩, ⟨k₁, hext, hmaps⟩, ?_, hext.sched⟩
        refine (hspares₂.mono (List.subset_cons_self _ _)).trans (setRecord_spares _ process _) ?_
        intro b hb
        rw [List.mem_singleton.mp hb]
        exact Or.inl List.mem_cons_self

/-- A block has been taken out of the allocations, unmapped and freed. -/
structure Freed (k : Kernel) (process : Ptr) (f f' : Footprint) (p : Ptr) (k' : Kernel) :
    Prop where
  mem : p ∈ allocated f.record
  record : f' = { f with record := processAllocationUnjoin f.record p }
  mapped : ∃ n, k.pool.live p = some n ∧ Maps k.mem k'.mem f.directory p p 0 n
  spares : Spares (p :: process :: tablesOf k.mem f.directory) k k'
  sched : k'.sched = k.sched

theorem Keeps.processFree
    (h : Keeps k₀ process f rest os k) {p : Ptr} (hp : p ≠ 0)
    (hcall : k.processFree process p = .ok k') :
    (p ∉ allocated f.record ∧ k' = k) ∨
      ∃ f', Keeps k₀ process f' rest os k' ∧ Freed k process f f' p k' := by
  rw [Kernel.processFree, follow_of_some h.process_ne_zero h.owns.recorded, ok_bind] at hcall
  cases hget : processGetAllocationByAddr f.record p with
  | none =>
      rw [hget] at hcall
      cases hcall
      refine Or.inl ⟨fun hmem => ?_, rfl⟩
      obtain ⟨i, hi, heq, -⟩ := mem_allocated.mp hmem
      exact processGetAllocationByAddr_none hget hi heq
  | some allocation =>
      obtain ⟨i, hi, rfl, hptr⟩ := processGetAllocationByAddr_some hget
      have hmem : p ∈ allocated f.record := mem_allocated.mpr ⟨i, hi, hptr, hp⟩
      obtain ⟨hsize, hlive⟩ := h.owns.sizes i hi (by rw [hptr]; exact hp)
      have hplaced := h.holds.inv.placed _ _ hlive
      obtain ⟨hmappable, hcount⟩ := hplaced.mappable hplaced.aligned
      obtain ⟨mem, hmap, hmaps⟩ := pagingMapTo_spec h.pageDirectory hmappable 0
      rw [hget, h.directoryOf] at hcall
      dsimp only at hcall
      rw [ok_bind, hmap] at hcall
      cases hcall
      rw [hcount, hptr] at hmaps
      rw [hptr] at hlive
      have h₁ := h.map hmaps.entries
      have hnodup : (allocated f.record).Nodup := (List.nodup_append.mp h.nodup).1
      have hperm := allocated_unjoin_perm hnodup hmem
      have h₂ : Keeps k₀ process { f with record := processAllocationUnjoin f.record p } (p :: rest)
          os _ := h₁.setAllocations _ (fun j hj hne => by
            dsimp only at hne ⊢
            split_ifs at hne ⊢ with heq
            · exact absurd rfl hne
            · exact h₁.owns.sizes j hj hne)
          ((hperm.append_right rest).trans List.perm_middle.symm)
      refine Or.inr ⟨_, h₂.kfree, hmem, rfl, ⟨_, hlive, hmaps⟩, ?_, rfl⟩
      refine Spares.trans (((h.tables_spares hmaps.frame).mono ?_).trans
        (setRecord_spares _ process _) ?_) (kfree_spares _ p) ?_
      · intro b hb
        exact List.mem_cons_of_mem _ (List.mem_cons_of_mem _ hb)
      · intro b hb
        rw [List.mem_singleton.mp hb]
        exact Or.inl (List.mem_cons_of_mem _ List.mem_cons_self)
      · intro b hb
        rw [List.mem_singleton.mp hb]
        exact Or.inl List.mem_cons_self

theorem Keeps.processMalloc_returns
    (h : Keeps k₀ process f rest os k) {size : Word} (hsize : size ≠ 0) :
    ∃ p k', k.processMalloc process size = .ok (p, k') := by
  rcases hk : k.kzalloc size with ⟨ptr, k₁⟩
  by_cases h0 : ptr = 0
  · rw [Kernel.processMalloc, hk]
    exact ⟨0, k₁, if_pos h0⟩
  · rw [(h.processMalloc_eq hsize hk h0).2]
    cases processFindFreeAllocationIndex f.record with
    | none => exact ⟨0, k₁.kfree ptr, rfl⟩
    | some index => exact ⟨ptr, _, rfl⟩

/-- With memory and a free entry the block is added. -/
theorem Keeps.processMalloc_granted
    (h : Keeps k₀ process f rest os k) {size : Word} (hsize : size ≠ 0)
    (hgranted : (k.pool.kmalloc size).1 ≠ 0)
    (hentry : (allocated f.record).length < maxProgramAllocations) :
    ∃ p k' f', k.processMalloc process size = .ok (p, k') ∧ Keeps k₀ process f' rest os k' ∧
      Malloced k process f f' size p k' ∧ k'.pool = (k.pool.kmalloc size).2 := by
  obtain ⟨p, k', hcall, hne, hpool⟩ : ∃ p k', k.processMalloc process size = .ok (p, k') ∧
      p ≠ 0 ∧ k'.pool = (k.pool.kmalloc size).2 := by
    rcases hk : k.kzalloc size with ⟨ptr, k₁⟩
    have hptr : ptr = (k.pool.kmalloc size).1 := by
      rw [← kzallocFor_ptr k .taken, ← Kernel.kzalloc, hk]
    have hpool : k₁.pool = (k.pool.kmalloc size).2 := by
      rw [← kzallocFor_pool k .taken, ← Kernel.kzalloc, hk]
    have hne : ptr ≠ 0 := hptr ▸ hgranted
    rw [(h.processMalloc_eq hsize hk hne).2]
    cases hindex : processFindFreeAllocationIndex f.record with
    | none => exact absurd (processFindFreeAllocationIndex_none hindex) (Nat.ne_of_lt hentry)
    | some index => exact ⟨ptr, _, rfl, hne, hpool⟩
  rcases h.processMalloc hsize hcall with ⟨h0, -⟩ | ⟨f', hkeeps, hmalloced⟩
  · exact absurd h0 hne
  · exact ⟨p, k', f', hcall, hkeeps, hmalloced, hpool⟩

theorem Keeps.processFree_returns
    (h : Keeps k₀ process f rest os k) (p : Ptr) :
    ∃ k', k.processFree process p = .ok k' := by
  rw [Kernel.processFree, follow_of_some h.process_ne_zero h.owns.recorded, ok_bind]
  cases processGetAllocationByAddr f.record p with
  | none => exact ⟨k, rfl⟩
  | some allocation =>
      rw [h.directoryOf]
      dsimp only
      rw [ok_bind]
      split_ifs
      · exact ⟨_, rfl⟩
      · exact ⟨_, rfl⟩

end Keeps

end Kernel

end PeachOS
