import PeachOS.Task.ProgramData
import PeachOS.Task.TaskCalls

/-!
# The memory of a task

A task has a page directory with 1024 tables of its own.  A directory that is
made has them all, as a request that fails is a fault; a directory that is freed
finds them again in its entries.
-/

namespace PeachOS

open Lib

namespace Kernel

/-- The page that begins a new block. -/
theorem Extends.inBlock
    {k k' : Kernel} {bs os : List Ptr} (h : Extends k bs os k') {p : Ptr} (hp : p ∈ bs) :
    ∃ n, k'.pool.live p = some n ∧ PageAligned p ∧ InBlock p n p := by
  obtain ⟨n, hn⟩ := Option.isSome_iff_exists.mp
    (h.holds.grown.live p (List.mem_append_left os hp))
  have hplaced := h.holds.inv.placed p n hn
  exact ⟨n, hn, hplaced.aligned, hplaced.inBlock⟩

theorem Extends.page_kept
    {k₀ k k' : Kernel} {bs os : List Ptr} (h : Extends k₀ bs os k) (hspares : Spares [] k k')
    {p : Ptr} (hp : p ∈ bs) :
    k'.mem p = k.mem p := by
  obtain ⟨n, hn, haligned, hin⟩ := h.inBlock hp
  exact (hspares p (by rw [hn]; rfl) List.not_mem_nil).mem n p hn haligned hin

/-- One page is written, which begins a new block. -/
theorem Extends.writePage
    {k k' : Kernel} {bs os : List Ptr} (h : Extends k bs os k') {p : Ptr} (hp : p ∈ bs)
    {mem : Pages} (hmem : ∀ page, page ≠ p → mem page = k'.mem page) :
    Extends k bs os { k' with mem := mem } := by
  obtain ⟨n, hn, -, hin⟩ := h.inBlock hp
  refine h.change hp (mem_spares h.holds.inv fun page _ hout => hmem page ?_) rfl rfl rfl
  rintro rfl
  exact hout page (List.mem_singleton_self page) n hn hin

theorem chunk_spares
    (k : Kernel) (p directory : Ptr) :
    Spares [p] k { k with chunks := fun q => if q = p then some directory else k.chunks q } := by
  intro b _ hb
  have hne : b ≠ p := fun heq => hb (heq ▸ List.mem_singleton_self p)
  exact ⟨rfl, if_neg hne, rfl, rfl, fun _ _ _ _ _ => rfl⟩

/-- The tables of the entries `done` are there, with pages that map to themselves. -/
structure TablesMade (k₀ : Kernel) (directory : Ptr) (flags : Word) (done : List (Fin 1024))
    (k : Kernel) : Prop where
  added : Extends k₀ (done.map (tableAt k.mem directory) ++ [directory]) [] k
  entry : ∀ i ∈ done, k.mem directory i =
    tableAt k.mem directory i ||| flags ||| pagingIsWriteable
  identity : ∀ i ∈ done, k.mem (tableAt k.mem directory i) = identityTable i flags
  granted : Pool.Granted k₀.pool (sizeofDirectory :: List.replicate done.length sizeofTable) k.pool

section Directory

variable {k₀ k k' : Kernel} {directory : Ptr} {flags : Word}

theorem kzallocFor_granted
    {event : Ptr → HeapEvent} {size : Word} {p : Ptr}
    (h : k.kzallocFor event size = (p, k')) (hne : p ≠ 0) :
    Pool.Granted k.pool [size] k'.pool := by
  obtain ⟨rfl, rfl⟩ := Prod.ext_iff.mp h
  rw [kzallocFor_ptr] at hne
  rw [kzallocFor_pool]
  exact Pool.Granted.cons hne (Pool.Granted.nil _)

theorem TablesMade.start
    (hinv : k₀.pool.Inv) (h : k₀.kzalloc sizeofDirectory = (directory, k)) (h0 : directory ≠ 0) :
    TablesMade k₀ directory flags [] k where
  added := (extends_kzalloc hinv (by decide) h h0).1
  entry := fun _ hi => absurd hi List.not_mem_nil
  identity := fun _ hi => absurd hi List.not_mem_nil
  granted := kzallocFor_granted h h0

/-- A table has been made and put into the directory; the other pages of the
blocks `bs` stay. -/
structure TableAdded (k : Kernel) (directory : Ptr) (flags : Word) (i : Fin 1024) (bs : List Ptr)
    (entry : Ptr) (k' : Kernel) : Prop where
  table : tableAt k'.mem directory i = entry
  word : k'.mem directory i = entry ||| flags ||| pagingIsWriteable
  entries : ∀ j, j ≠ i → k'.mem directory j = k.mem directory j
  identity : k'.mem entry = identityTable i flags
  others : ∀ p ∈ bs, p ≠ directory → k'.mem p = k.mem p
  granted : Pool.Granted k.pool [sizeofTable] k'.pool

theorem pagingNew4gbTable_inv
    {bs : List Ptr} {i : Fin 1024} (hflags : (flags ||| pagingIsWriteable).toNat < 4096)
    (h : Extends k₀ bs [] k) (hdirectory : directory ∈ bs)
    (htable : pagingNew4gbTable directory flags k i = .ok k') :
    ∃ entry, Extends k₀ (entry :: bs) [] k' ∧ TableAdded k directory flags i bs entry k' := by
  rw [pagingNew4gbTable] at htable
  rcases hk : k.kzalloc sizeofTable with ⟨entry, k₁⟩
  rw [hk] at htable
  dsimp only at htable
  split_ifs at htable with h0
  rw [not_or] at h0
  cases htable
  obtain ⟨hext, hlive⟩ := extends_kzalloc h.holds.inv (by decide) hk h0.1
  have hplaced := hext.holds.inv.placed entry _ hlive
  have hfresh := hext.holds.grown.fresh entry List.mem_cons_self
  have hgranted := kzallocFor_granted hk h0.1
  have hold (p : Ptr) (hp : p ∈ bs) : p ≠ entry ∧ k₁.mem p = k.mem p := by
    obtain ⟨n, hn, -, -⟩ := h.inBlock hp
    exact ⟨Pool.ne_of_live hn hfresh, h.page_kept hext.spares hp⟩
  obtain ⟨hne, hsame⟩ := hold directory hdirectory
  let mem₁ : Pages := fun page j => if page = entry then identityTable i flags j else k₁.mem page j
  let mem₂ : Pages := mem₁.store directory i (entry ||| flags ||| pagingIsWriteable)
  have hstore (page : Ptr) (hdir : page ≠ directory) : mem₂ page = mem₁ page :=
    mem₁.store_of_ne i _ hdir
  have hentry : mem₂ directory i = entry ||| flags ||| pagingIsWriteable := if_pos ⟨rfl, rfl⟩
  have hwritten := ((h.trans hext).writePage List.mem_cons_self fun page hpage =>
    show mem₁ page = k₁.mem page from funext fun j => if_neg hpage).writePage
      (List.mem_cons_of_mem _ hdirectory) hstore
  refine ⟨entry, hwritten, ?_, hentry, fun j hj => ?_, ?_, fun p hp hpne => ?_,
    hgranted⟩
  · change tableAt mem₂ directory i = entry
    rw [tableAt, hentry, BitVec.or_assoc]
    exact or_and_pageMask hplaced.aligned hflags
  · rw [← hsame]
    exact (if_neg fun hji => hj hji.2).trans (if_neg hne)
  · refine (hstore entry hne.symm).trans (funext fun j => if_pos rfl)
  · rw [← (hold p hp).2]
    exact (hstore p hpne).trans (funext fun j => if_neg (hold p hp).1)

theorem TablesMade.step
    {done : List (Fin 1024)} (hflags : (flags ||| pagingIsWriteable).toNat < 4096)
    (h : TablesMade k₀ directory flags done k) {i : Fin 1024} (hi : i ∉ done)
    (htable : pagingNew4gbTable directory flags k i = .ok k') :
    TablesMade k₀ directory flags (done ++ [i]) k' := by
  obtain ⟨entry, hext, hadded⟩ := pagingNew4gbTable_inv hflags h.added
    (List.mem_append_right _ List.mem_cons_self) htable
  have hentries (j : Fin 1024) (hj : j ∈ done) : k'.mem directory j = k.mem directory j :=
    hadded.entries j fun heq => hi (heq ▸ hj)
  have htables (j : Fin 1024) (hj : j ∈ done) :
      tableAt k'.mem directory j = tableAt k.mem directory j := by
    rw [tableAt, hentries j hj, tableAt]
  refine ⟨?_, fun j hj => ?_, fun j hj => ?_, ?_⟩
  · refine hext.perm ?_
    rw [List.map_append, List.map_congr_left htables, List.map_singleton, hadded.table,
      List.append_assoc]
    exact List.perm_middle.symm
  · rcases List.mem_append.mp hj with hdone | hlast
    · rw [htables j hdone, hentries j hdone]
      exact h.entry j hdone
    · obtain rfl := List.mem_singleton.mp hlast
      rw [hadded.table]
      exact hadded.word
  · rcases List.mem_append.mp hj with hdone | hlast
    · have hmem := List.mem_map_of_mem (f := tableAt k.mem directory) hdone
      have hne : tableAt k.mem directory j ≠ directory :=
        (List.nodup_append.mp h.added.holds.nodup).2.2 _ hmem _ List.mem_cons_self
      rw [htables j hdone, hadded.others _ (List.mem_append_left _ hmem) hne]
      exact h.identity j hdone
    · obtain rfl := List.mem_singleton.mp hlast
      rw [hadded.table]
      exact hadded.identity
  · rw [List.length_append, List.length_singleton, List.replicate_succ']
    exact h.granted.append hadded.granted

/-- The tables of a directory. -/
def tablesOf (mem : Pages) (directory : Ptr) : List Ptr :=
  (List.finRange 1024).map (tableAt mem directory)

/-- The sizes that a new directory asks for. -/
def directorySizes : List Word :=
  sizeofDirectory :: List.replicate 1024 sizeofTable ++ [sizeofChunk]

/-- A directory of pages that map to themselves has been made. -/
structure DirectoryMade (k : Kernel) (flags : Word) (chunk directory : Ptr) (k' : Kernel) :
    Prop where
  added : Extends k (chunk :: (tablesOf k'.mem directory ++ [directory])) [] k'
  chunk : k'.chunks chunk = some directory
  entry : ∀ i, k'.mem directory i = tableAt k'.mem directory i ||| flags ||| pagingIsWriteable
  identity : ∀ i, k'.mem (tableAt k'.mem directory i) = identityTable i flags
  granted : Pool.Granted k.pool directorySizes k'.pool

/-- Without a directory the first table cannot be entered. -/
theorem pagingNew4gb_null
    (k : Kernel) (flags : Word) :
    (List.finRange 1024).foldlM (pagingNew4gbTable 0 flags) k = .error .fault := by
  have hfirst (i : Fin 1024) : pagingNew4gbTable 0 flags k i = .error .fault :=
    if_pos (Or.inr rfl)
  rw [List.finRange_succ, List.foldlM_cons, hfirst]
  rfl

/-- A call that spares all blocks keeps the directory and its tables. -/
theorem TablesMade.kept
    (h : TablesMade k₀ directory flags (List.finRange 1024) k) (hspares : Spares [] k k') :
    k'.mem directory = k.mem directory ∧
      ∀ i, k'.mem (tableAt k.mem directory i) = k.mem (tableAt k.mem directory i) :=
  ⟨h.added.page_kept hspares (List.mem_append_right _ List.mem_cons_self), fun i =>
    h.added.page_kept hspares
      (List.mem_append_left _ (List.mem_map_of_mem (List.mem_finRange i)))⟩

theorem pagingNew4gb_inv
    {chunk : Ptr} (hinv : k.pool.Inv) (hflags : (flags ||| pagingIsWriteable).toNat < 4096)
    (h : k.pagingNew4gb flags = .ok (chunk, k')) :
    ∃ directory, DirectoryMade k flags chunk directory k' := by
  rw [pagingNew4gb] at h
  rcases hk : k.kzalloc sizeofDirectory with ⟨directory, k₁⟩
  rw [hk] at h
  obtain ⟨k₂, hloop, h⟩ := bind_eq_ok_iff.mp h
  have h0 : directory ≠ 0 := by
    rintro rfl
    rw [pagingNew4gb_null] at hloop
    cases hloop
  have hmade := foldlM_invariant (TablesMade k directory flags)
    (fun done i todo k k' hall hdone hstep => by
      refine hdone.step hflags (fun hi => ?_) hstep
      have hnodup := List.nodup_finRange 1024
      rw [hall, List.nodup_append] at hnodup
      exact hnodup.2.2 i hi i List.mem_cons_self rfl)
    (TablesMade.start hinv hk h0) hloop
  rcases hk₃ : k₂.kzalloc sizeofChunk with ⟨chunk', k₃⟩
  rw [hk₃] at h
  dsimp only at h
  split_ifs at h with hchunk
  cases h
  obtain ⟨hext, -⟩ := extends_kzalloc hmade.added.holds.inv (by decide) hk₃ hchunk
  obtain ⟨hdirectory, hpages⟩ := hmade.kept hext.spares
  have htables : tableAt k₃.mem directory = tableAt k₂.mem directory := tableAt_congr hdirectory
  have htablesOf : tablesOf k₃.mem directory = tablesOf k₂.mem directory := by
    rw [tablesOf, tablesOf, htables]
  refine ⟨directory, ?_, if_pos rfl, ?_, ?_, ?_⟩
  · have hall := hmade.added.trans hext
    rw [List.singleton_append, List.nil_append] at hall
    have hset := hall.change List.mem_cons_self (chunk_spares k₃ chunk directory) rfl rfl rfl
    rw [← tablesOf, ← htablesOf] at hset
    exact hset
  · intro i
    change k₃.mem directory i = tableAt k₃.mem directory i ||| flags ||| pagingIsWriteable
    rw [htables, hdirectory]
    exact hmade.entry i (List.mem_finRange i)
  · intro i
    change k₃.mem (tableAt k₃.mem directory i) = _
    rw [htables, hpages]
    exact hmade.identity i (List.mem_finRange i)
  · have happend := hmade.granted.append (kzallocFor_granted hk₃ hchunk)
    rwa [List.length_finRange] at happend

/-- The blocks of a task. -/
def taskBlocks (mem : Pages) (task chunk directory : Ptr) : List Ptr :=
  tablesOf mem directory ++ [directory, chunk, task]

/-- A task has been made, with a directory. -/
structure TaskMade (k : Kernel) (process task chunk directory : Ptr) (k' : Kernel) : Prop where
  holds : Holds k (taskBlocks k'.mem task chunk directory) [] k'
  spares : Spares [] k k'
  sched : k.sched.taskNew task process chunk = .ok (task, k'.sched)
  chunk : k'.chunks chunk = some directory
  entry : ∀ i, k'.mem directory i = tableAt k'.mem directory i ||| 7
  identity : ∀ i, k'.mem (tableAt k'.mem directory i) = identityTable i 5
  granted : Pool.Granted k.pool (sizeofTask :: directorySizes) k'.pool

theorem TaskMade.ne_zero
    {process task chunk : Ptr} (h : TaskMade k process task chunk directory k') :
    task ≠ 0 :=
  h.holds.ne_zero (by simp [taskBlocks])

theorem taskNew_inv
    {process task : Ptr} (hinv : k.pool.Inv) (h : k.taskNew process = .ok (task, k')) :
    ∃ chunk directory, TaskMade k process task chunk directory k' := by
  rw [Kernel.taskNew] at h
  rcases hk : k.kzalloc sizeofTask with ⟨task', k₁⟩
  rw [hk] at h
  dsimp only at h
  by_cases h0 : task' = 0
  · -- the null pointer goes to `task_free`
    rw [if_pos h0, h0] at h
    obtain ⟨k₂, hfree, -⟩ := bind_eq_ok_iff.mp h
    obtain ⟨record, hfollow, -⟩ := bind_eq_ok_iff.mp hfree
    exact absurd rfl (follow_inv hfollow).1
  · rw [if_neg h0] at h
    obtain ⟨hext, -⟩ := extends_kzalloc hinv (by decide) hk h0
    obtain ⟨⟨chunk, k₂⟩, hpaging, h⟩ := bind_eq_ok_iff.mp h
    obtain ⟨directory, hmade⟩ := pagingNew4gb_inv hext.holds.inv (by decide) hpaging
    dsimp only at h
    rw [if_neg (hmade.added.holds.ne_zero List.mem_cons_self)] at h
    obtain ⟨⟨task₂, sched⟩, hnew, heq⟩ := bind_eq_ok_iff.mp h
    obtain ⟨rfl, -⟩ := Sched.taskNew_inv h0 hnew
    cases heq
    have hall := hext.trans hmade.added
    refine ⟨chunk, directory, ?_, ?_, ?_, hmade.chunk, ?_, hmade.identity, ?_⟩
    · refine (hall.holds.perm ?_).congr rfl rfl
      rw [List.cons_append, List.append_assoc]
      exact List.perm_middle.symm.trans
        ((List.Perm.swap directory chunk [_]).append_left (tablesOf k₂.mem directory))
    · exact hall.spares.trans (sched_spares k₂ sched) fun _ hb => absurd hb List.not_mem_nil
    · rw [← hall.sched]
      exact hnew
    · intro i
      rw [hmade.entry i, BitVec.or_assoc]
      rfl
    · exact (kzallocFor_granted hk h0).append hmade.granted

theorem kfrees_mem (k : Kernel) (ps : List Ptr) : (ps.foldl kfree k).mem = k.mem := by
  induction ps generalizing k with
  | nil => rfl
  | cons p ps ih => exact ih (k.kfree p)

theorem kfrees_sched (k : Kernel) (ps : List Ptr) : (ps.foldl kfree k).sched = k.sched := by
  induction ps generalizing k with
  | nil => rfl
  | cons p ps ih => exact ih (k.kfree p)

theorem Holds.kfrees
    {ps bs os : List Ptr} (h : Holds k₀ (ps ++ bs) os k) :
    Holds k₀ bs os (ps.foldl Kernel.kfree k) := by
  induction ps generalizing k with
  | nil => exact h
  | cons p ps ih => exact ih h.kfree

/-- The tables are found in the directory as long as nothing is written. -/
theorem foldl_kfree_tables
    (k : Kernel) (directory : Ptr) (is : List (Fin 1024)) :
    is.foldl (fun k i => k.kfree (tableAt k.mem directory i)) k =
      (is.map (tableAt k.mem directory)).foldl kfree k := by
  induction is generalizing k with
  | nil => rfl
  | cons i is ih => exact ih (k.kfree (tableAt k.mem directory i))

theorem pagingFree4gb_eq
    {chunk directory : Ptr} (hne : chunk ≠ 0) (hdirectory : k.chunks chunk = some directory) :
    k.pagingFree4gb chunk =
      .ok ((tablesOf k.mem directory ++ [directory, chunk]).foldl kfree k) := by
  rw [pagingFree4gb, follow_of_some hne hdirectory, ok_bind]
  simp only [foldl_kfree_tables]
  rw [List.foldl_append, tablesOf]
  rfl

/-- All the blocks of a task are freed as long as it can leave the list. -/
theorem taskFree_eq
    {task chunk directory : Ptr} (htask : task ≠ 0) (hchunk : chunk ≠ 0)
    (hpaging : k.sched.pageDirectoryOf task = some chunk)
    (hdirectory : k.chunks chunk = some directory) :
    k.taskFree task = (k.sched.taskFree task >>= fun sched =>
      .ok { (taskBlocks k.mem task chunk directory).foldl kfree k with sched := sched }) := by
  obtain ⟨record, hrecord, rfl⟩ := Option.map_eq_some_iff.mp hpaging
  rw [Kernel.taskFree, follow_of_some htask hrecord, ok_bind, pagingFree4gb_eq hchunk hdirectory,
    ok_bind, kfrees_sched, taskBlocks, List.foldl_append, List.foldl_append]
  rfl

end Directory

end Kernel

end PeachOS
