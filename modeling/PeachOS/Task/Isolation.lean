import Mathlib.Data.Set.BooleanAlgebra
import Mathlib.Order.CompletePartialOrder
import PeachOS.Task.LoadSuccess
import PeachOS.Task.Loading

/-!
# Isolation

The pages that a process can write to are those of its own blocks, whatever the
processes allocate and free.
-/

namespace PeachOS

open Lib

/-- The pages of a block, and no others, are mapped. -/
theorem Maps.block
    {mem mem' : Pages} {directory p : Ptr} {flags : Word} {n : Nat}
    (h : Maps mem mem' directory p p flags n) (hplaced : Pool.Placed p n) {v : Ptr}
    (hv : PageAligned v) :
    (InBlock p n v → pagingGet mem' directory v = v ||| flags) ∧
      (¬ InBlock p n v → pagingGet mem' directory v = pagingGet mem directory v) := by
  rw [hplaced.inBlock_iff_pageAt hv]
  constructor
  · rintro ⟨i, hi, rfl⟩
    exact h.mapped i hi
  · exact fun hout => h.other v hv fun i hi heq => hout ⟨i, hi, heq⟩

namespace Kernel

/-- A page of the stack or of the program. -/
def ProgramPage (f : Footprint) (page : Ptr) : Prop :=
  InBlock f.record.stack (pagesOf userProgramStackSize) page ∨
    InBlock f.buffer (pagesOf f.filesize) page

/-- The tables are open to the user, and every page of an allocation is mapped
to itself. -/
structure MapsAllocations (k : Kernel) (f : Footprint) : Prop where
  entry : ∀ i, k.mem f.directory i = tableAt k.mem f.directory i ||| 7
  allocation : ∀ p ∈ allocated f.record, ∀ n, k.pool.live p = some n → ∀ page,
    PageAligned page → InBlock p n page → pagingGet k.mem f.directory page = page ||| 7

/-- Every page of an allocation is mapped to itself, and beside them only pages
of the stack and of the program are open to the user. -/
structure MapsOwn (k : Kernel) (f : Footprint) : Prop where
  entry : ∀ i, k.mem f.directory i = tableAt k.mem f.directory i ||| 7
  allocation : ∀ p ∈ allocated f.record, ∀ n, k.pool.live p = some n → ∀ page,
    PageAligned page → InBlock p n page → pagingGet k.mem f.directory page = page ||| 7
  get : ∀ v, PageAligned v → pagingGet k.mem f.directory v &&& 7 = 7 →
    (∃ p ∈ allocated f.record, ∃ n, k.pool.live p = some n ∧ InBlock p n v ∧
      pagingGet k.mem f.directory v &&& 0xfffff000 = v) ∨
    ProgramPage f (pagingGet k.mem f.directory v &&& 0xfffff000)

section Mappings

variable {k₀ k k' : Kernel} {process : Ptr} {f f' : Footprint} {rest rest' os os' : List Ptr}

theorem MapsOwn.allocations (h : MapsOwn k f) : MapsAllocations k f := ⟨h.entry, h.allocation⟩

/-- Without a change to the blocks of its task a process has the same tables. -/
theorem Keeps.tables_same
    (h : Keeps k₀ process f rest os k)
    (hsame : ∀ b ∈ taskBlocks k.mem f.task f.chunk f.directory, SameBlock k k' b) :
    k'.mem f.directory = k.mem f.directory ∧
      ∀ v, PageAligned v → pagingGet k'.mem f.directory v = pagingGet k.mem f.directory v := by
  have hpage (p : Ptr) (hp : p ∈ taskBlocks k.mem f.task f.chunk f.directory) :
      k'.mem p = k.mem p := by
    have hfixed : p ∈ f.fixed process k.mem := List.mem_append_left _ hp
    obtain ⟨n, hn, haligned, hin⟩ := h.page hfixed
    exact (hsame p hp).mem n p hn haligned hin
  have hdirectory := hpage f.directory (by simp [taskBlocks])
  exact ⟨hdirectory, fun v hv =>
    pagingGet_congr hdirectory (fun i => hpage _ (by simp [taskBlocks, tablesOf])) hv⟩

/-- What is in the allocations makes no difference. -/
theorem MapsAllocations.same
    (h : MapsAllocations k f) (hkeeps : Keeps k₀ process f rest os k)
    (hsame : ∀ b ∈ taskBlocks k.mem f.task f.chunk f.directory, SameBlock k k' b)
    (hlive : ∀ p ∈ allocated f.record, k'.pool.live p = k.pool.live p) :
    MapsAllocations k' f := by
  obtain ⟨hdirectory, hget⟩ := hkeeps.tables_same hsame
  refine ⟨fun i => ?_, fun p hp n hn page hpage hin => ?_⟩
  · rw [tableAt_congr hdirectory, hdirectory]
    exact h.entry i
  · rw [hlive p hp] at hn
    rw [hget page hpage]
    exact h.allocation p hp n hn page hpage hin

/-- Nothing of the process has changed. -/
theorem MapsOwn.same
    (h : MapsOwn k f) (hkeeps : Keeps k₀ process f rest os k)
    (hsame : ∀ b ∈ f.blocks process k.mem, SameBlock k k' b) :
    MapsOwn k' f := by
  have htask (b : Ptr) (hb : b ∈ taskBlocks k.mem f.task f.chunk f.directory) :
      SameBlock k k' b :=
    hsame b (List.mem_append_right _ (List.mem_append_left _ hb))
  have hlive (p : Ptr) (hp : p ∈ allocated f.record) : k'.pool.live p = k.pool.live p :=
    (hsame p (List.mem_append_left _ hp)).live
  obtain ⟨hentry, hallocation⟩ := h.allocations.same hkeeps htask hlive
  refine ⟨hentry, hallocation, fun v hv haccess => ?_⟩
  rw [(hkeeps.tables_same htask).2 v hv] at haccess ⊢
  rcases h.get v hv haccess with ⟨p, hp, n, hn, hin, heq⟩ | hprogram
  · exact Or.inl ⟨p, hp, n, (hlive p hp).trans hn, hin, heq⟩
  · exact Or.inr hprogram

/-- Pages of one block are none of another's. -/
theorem Keeps.apart
    (h : Keeps k₀ process f rest os k) {p q : Ptr} {m n : Nat} (hp : k.pool.live p = some m)
    (hq : k.pool.live q = some n) (hne : p ≠ q) {page : Ptr} (hin : InBlock p m page) :
    ¬ InBlock q n page :=
  (h.holds.inv.apart p m q n hp hq hne).not_inBlock hin

section Malloc

variable {size : Word} {p : Ptr}

/-- The allocations with one more. -/
theorem Malloced.perm
    (h : Malloced k process f f' size p k') (hkeeps' : Keeps k₀ process f' rest' os' k') :
    (allocated f'.record).Perm (p :: allocated f.record) := by
  obtain ⟨i, hi, hfree, rfl⟩ := h.entry
  exact allocated_use hi hfree (hkeeps'.holds.inv.placed p _ h.live).ne_zero size

/-- An allocation from before is another block than the new one. -/
theorem Malloced.old
    (h : Malloced k process f f' size p k') (hkeeps : Keeps k₀ process f rest os k) {q : Ptr}
    (hq : q ∈ allocated f.record) :
    k'.pool.live q = k.pool.live q ∧ q ≠ p := by
  have hqlive : (k.pool.live q).isSome = true :=
    hkeeps.holds.isSome (List.mem_append_left rest (List.mem_append_left _ hq))
  refine ⟨(h.spares q hqlive (hkeeps.allocated_out hq)).live, ?_⟩
  rintro rfl
  rw [h.fresh] at hqlive
  cases hqlive

/-- Beside the new block the tables are as they were. -/
theorem Malloced.tables
    (h : Malloced k process f f' size p k') (hkeeps : Keeps k₀ process f rest os k)
    (hkeeps' : Keeps k₀ process f' rest' os' k') :
    f'.directory = f.directory ∧ k'.mem f.directory = k.mem f.directory ∧
      ∀ v, PageAligned v →
        (InBlock p (pagesOf size) v → pagingGet k'.mem f.directory v = v ||| 7) ∧
        (¬ InBlock p (pagesOf size) v →
          pagingGet k'.mem f.directory v = pagingGet k.mem f.directory v) := by
  obtain ⟨i, hi, hfree, rfl⟩ := h.entry
  obtain ⟨k₁, hext, hmaps⟩ := h.mapped
  have hplaced := hkeeps'.holds.inv.placed p _ h.live
  obtain ⟨hdirectory, hget⟩ := hkeeps.tables_same fun b hb =>
    hext.spares b (hkeeps.holds.isSome (Keeps.mem_fixed (List.mem_append_left _ hb)))
      List.not_mem_nil
  refine ⟨rfl, hmaps.entries.trans hdirectory,
    fun v hv => ⟨(hmaps.block hplaced hv).1, fun hout => ?_⟩⟩
  rw [(hmaps.block hplaced hv).2 hout, hget v hv]

theorem MapsAllocations.malloc
    (h : MapsAllocations k f) (hkeeps : Keeps k₀ process f rest os k)
    (hkeeps' : Keeps k₀ process f' rest' os' k') (hmalloced : Malloced k process f f' size p k') :
    MapsAllocations k' f' := by
  obtain ⟨hsame, hdirectory, hget⟩ := hmalloced.tables hkeeps hkeeps'
  refine ⟨fun i => ?_, fun q hq n hn page hpage hin => ?_⟩
  · rw [hsame, tableAt_congr hdirectory, hdirectory]
    exact h.entry i
  · rw [hsame]
    rcases List.mem_cons.mp ((hmalloced.perm hkeeps').mem_iff.mp hq) with rfl | hq
    · obtain rfl := Option.some.inj (hmalloced.live.symm.trans hn)
      exact (hget page hpage).1 hin
    · obtain ⟨hlive, hne⟩ := hmalloced.old hkeeps hq
      rw [(hget page hpage).2 (hkeeps'.apart hn hmalloced.live hne hin)]
      exact h.allocation q hq n (hlive ▸ hn) page hpage hin

theorem MapsOwn.malloc
    (h : MapsOwn k f) (hkeeps : Keeps k₀ process f rest os k)
    (hkeeps' : Keeps k₀ process f' rest' os' k') (hmalloced : Malloced k process f f' size p k') :
    MapsOwn k' f' := by
  obtain ⟨hentry, hallocation⟩ := h.allocations.malloc hkeeps hkeeps' hmalloced
  obtain ⟨hsame, -, hget⟩ := hmalloced.tables hkeeps hkeeps'
  have hperm := hmalloced.perm hkeeps'
  refine ⟨hentry, hallocation, fun v hv haccess => ?_⟩
  by_cases hin : InBlock p (pagesOf size) v
  · refine Or.inl ⟨p, hperm.mem_iff.mpr List.mem_cons_self, _, hmalloced.live, hin, ?_⟩
    rw [hsame, (hget v hv).1 hin]
    exact or_and_pageMask hv (by decide)
  · rw [hsame, (hget v hv).2 hin] at haccess ⊢
    rcases h.get v hv haccess with ⟨q, hq, n, hn, hqin, heq⟩ | hprogram
    · exact Or.inl ⟨q, hperm.mem_iff.mpr (List.mem_cons_of_mem p hq), n,
        (hmalloced.old hkeeps hq).1.trans hn, hqin, heq⟩
    · obtain ⟨i, -, -, rfl⟩ := hmalloced.entry
      exact Or.inr hprogram

end Malloc

section Free

variable {p : Ptr}

/-- The allocations that are left. -/
theorem Freed.mem_iff
    (h : Freed k process f f' p k') {q : Ptr} :
    q ∈ allocated f'.record ↔ q ∈ allocated f.record ∧ q ≠ p := by
  rw [h.record, allocated_unjoin, List.mem_filter]
  simp

theorem Freed.old
    (h : Freed k process f f' p k') (hkeeps : Keeps k₀ process f rest os k) {q : Ptr}
    (hq : q ∈ allocated f.record) (hne : q ≠ p) :
    k'.pool.live q = k.pool.live q := by
  refine (h.spares q ?_ ?_).live
  · exact hkeeps.holds.isSome (List.mem_append_left rest (List.mem_append_left _ hq))
  · exact List.not_mem_cons_of_ne_of_not_mem hne (hkeeps.allocated_out hq)

theorem MapsAllocations.free
    (h : MapsAllocations k f) (hkeeps : Keeps k₀ process f rest os k)
    (hfreed : Freed k process f f' p k') :
    MapsAllocations k' f' := by
  obtain ⟨m, hm, hmaps⟩ := hfreed.mapped
  have hplaced := hkeeps.holds.inv.placed p m hm
  have hsame : f'.directory = f.directory := by rw [hfreed.record]
  refine ⟨fun i => ?_, fun q hq n hn page hpage hin => ?_⟩
  · rw [hsame, tableAt_congr hmaps.entries, hmaps.entries]
    exact h.entry i
  · obtain ⟨hq, hne⟩ := hfreed.mem_iff.mp hq
    rw [hfreed.old hkeeps hq hne] at hn
    rw [hsame, (hmaps.block hplaced hpage).2 (hkeeps.apart hn hm hne hin)]
    exact h.allocation q hq n hn page hpage hin

theorem MapsOwn.free
    (h : MapsOwn k f) (hkeeps : Keeps k₀ process f rest os k)
    (hfreed : Freed k process f f' p k') :
    MapsOwn k' f' := by
  obtain ⟨hentry, hallocation⟩ := h.allocations.free hkeeps hfreed
  obtain ⟨m, hm, hmaps⟩ := hfreed.mapped
  have hplaced := hkeeps.holds.inv.placed p m hm
  have hsame : f'.directory = f.directory := by rw [hfreed.record]
  refine ⟨hentry, hallocation, fun v hv haccess => ?_⟩
  by_cases hin : InBlock p m v
  · -- a page that has been unmapped
    rw [hsame, (hmaps.block hplaced hv).1 hin, or_and_accessMask hv] at haccess
    cases haccess
  · rw [hsame, (hmaps.block hplaced hv).2 hin] at haccess ⊢
    rcases h.get v hv haccess with ⟨q, hq, n, hn, hqin, heq⟩ | hprogram
    · have hne : q ≠ p := by
        rintro rfl
        obtain rfl := Option.some.inj (hm.symm.trans hn)
        exact hin hqin
      exact Or.inl ⟨q, hfreed.mem_iff.mpr ⟨hq, hne⟩, n, (hfreed.old hkeeps hq hne).trans hn, hqin,
        heq⟩
    · rw [ProgramPage, hfreed.record]
      exact Or.inr hprogram

end Free

/-- A process that has been loaded has no allocations. -/
theorem Loaded.mapsAllocations
    {S : Ptr → Prop} (h : Loaded k process f os S k') :
    MapsAllocations k' f := by
  refine ⟨h.entry, fun p hp => ?_⟩
  rw [h.none] at hp
  cases hp

theorem Loaded.mapsOwn
    (h : Loaded k process f os (ProgramPage f) k') :
    MapsOwn k' f := by
  obtain ⟨hentry, hallocation⟩ := h.mapsAllocations
  refine ⟨hentry, hallocation, fun v hv haccess => ?_⟩
  rcases h.get v hv with heq | hprogram
  · rw [heq, or_and_accessMask hv] at haccess
    exact absurd haccess (by decide)
  · exact Or.inr hprogram

end Mappings

/-- Each process has its blocks for itself, and maps only these. -/
structure Isolated (k₀ : Kernel) (fp : Ptr → Footprint) (ps os : List Ptr) (k : Kernel) :
    Prop where
  owns : ∀ q ∈ ps, Owns k q (fp q)
  maps : ∀ q ∈ ps, MapsOwn k (fp q)
  holds : Holds k₀ (ps.flatMap fun q => (fp q).blocks q k.mem) os k

section World

variable {k₀ k k' : Kernel} {fp : Ptr → Footprint} {ps qs os os' : List Ptr} {process : Ptr}
  {f : Footprint}

theorem Isolated.perm
    (h : Isolated k₀ fp ps os k) (hperm : ps.Perm qs) :
    Isolated k₀ fp qs os k where
  owns := fun q hq => h.owns q (hperm.mem_iff.mpr hq)
  maps := fun q hq => h.maps q (hperm.mem_iff.mpr hq)
  holds := h.holds.perm (hperm.flatMap_right _)

theorem Isolated.keeps
    (h : Isolated k₀ fp (process :: ps) os k) :
    Keeps k₀ process (fp process) (ps.flatMap fun q => (fp q).blocks q k.mem) os k :=
  ⟨h.owns process List.mem_cons_self, h.holds⟩

theorem Isolated.exists_keeps
    (h : Isolated k₀ fp ps os k) {q : Ptr} (hq : q ∈ ps) :
    ∃ rest, Keeps k₀ q (fp q) rest os k :=
  ⟨_, (h.perm (List.perm_cons_erase hq)).keeps⟩

theorem Isolated.mem_blocks
    (h : Isolated k₀ fp ps os k) {q b : Ptr} (hq : q ∈ ps) (hb : b ∈ (fp q).blocks q k.mem) :
    (k.pool.live b).isSome = true :=
  h.holds.isSome (List.mem_flatMap.mpr ⟨q, hq, hb⟩)

/-- No block is one of two processes. -/
theorem Isolated.not_mem_blocks
    (h : Isolated k₀ fp (process :: ps) os k) {b q : Ptr}
    (hb : b ∈ (fp process).blocks process k.mem) (hq : q ∈ ps) :
    b ∉ (fp q).blocks q k.mem := by
  intro hmem
  have hnodup := h.holds.nodup
  rw [List.flatMap_cons, List.nodup_append] at hnodup
  exact hnodup.2.2 b hb b (List.mem_flatMap.mpr ⟨q, hq, hmem⟩) rfl

/-- A call of `process` that leaves the blocks of the others alone. -/
theorem Isolated.extend
    (hothers : ∀ q ∈ ps, ∃ rest, Keeps k₀ q (fp q) rest os k)
    (hmapped : ∀ q ∈ ps, MapsOwn k (fp q))
    (hsame : ∀ q ∈ ps, ∀ b ∈ (fp q).blocks q k.mem, SameBlock k k' b)
    (hprocs : ∀ q ∈ ps, k'.sched.procs q = k.sched.procs q)
    (hpaging : ∀ q ∈ ps,
      k'.sched.pageDirectoryOf (fp q).task = k.sched.pageDirectoryOf (fp q).task)
    (hout : process ∉ ps) (howns : Owns k' process f) (hmaps : MapsOwn k' f)
    (hholds : Holds k₀
      (f.blocks process k'.mem ++ ps.flatMap fun q => (fp q).blocks q k.mem) os' k') :
    Isolated k₀ (Function.update fp process f) (process :: ps) os' k' := by
  have hself : Function.update fp process f process = f := Function.update_self process f fp
  have hother (q : Ptr) (hq : q ∈ ps) : Function.update fp process f q = fp q :=
    Function.update_of_ne (fun heq : q = process => hout (heq ▸ hq)) f fp
  refine ⟨fun q hq => ?_, fun q hq => ?_, ?_⟩
  · rcases List.mem_cons.mp hq with rfl | hq
    · rw [hself]
      exact howns
    · obtain ⟨rest, hkeeps⟩ := hothers q hq
      rw [hother q hq]
      exact hkeeps.owns.same (hsame q hq) (hprocs q hq) (hpaging q hq)
  · rcases List.mem_cons.mp hq with rfl | hq
    · rw [hself]
      exact hmaps
    · obtain ⟨rest, hkeeps⟩ := hothers q hq
      rw [hother q hq]
      exact (hmapped q hq).same hkeeps (hsame q hq)
  · rw [List.flatMap_cons, hself]
    have hblocks : (ps.flatMap fun q =>
        (Function.update fp process f q).blocks q k'.mem) =
        ps.flatMap fun q => (fp q).blocks q k.mem := by
      refine List.flatMap_congr fun q hq => ?_
      obtain ⟨rest, hkeeps⟩ := hothers q hq
      have hmem := (fp q).directory_mem q k.mem
      obtain ⟨n, hn, haligned, hin⟩ := hkeeps.page hmem
      have hdirectory := (hsame q hq _ (List.mem_append_right _ hmem)).mem n _ hn haligned hin
      rw [hother q hq, (fp q).blocks_congr hdirectory]
    rw [hblocks]
    exact hholds

/-- A call of a process that changes its own blocks and new ones. -/
theorem Isolated.change
    (h : Isolated k₀ fp (process :: ps) os k) {bs : List Ptr}
    (hbs : ∀ b ∈ bs, b ∈ (fp process).blocks process k.mem) (hspares : Spares bs k k')
    (hsched : k'.sched = k.sched)
    (hkeeps : Keeps k₀ process f (ps.flatMap fun q => (fp q).blocks q k.mem) os' k')
    (hmaps : MapsOwn k' f) :
    Isolated k₀ (Function.update fp process f) (process :: ps) os' k' := by
  refine Isolated.extend (fun q hq => h.exists_keeps (List.mem_cons_of_mem process hq))
    (fun q hq => h.maps q (List.mem_cons_of_mem process hq))
    (fun q hq b hb => hspares b (h.mem_blocks (List.mem_cons_of_mem process hq) hb) fun hmem => ?_)
    (fun _ _ => by rw [hsched]) (fun _ _ => by rw [hsched]) (fun hmem => ?_) hkeeps.owns hmaps
    hkeeps.holds
  · exact h.not_mem_blocks (hbs b hmem) hq hb
  · exact h.not_mem_blocks (List.mem_append_right _ ((fp process).process_mem process k.mem)) hmem
      (List.mem_append_right _ ((fp process).process_mem process k.mem))

theorem Keeps.own_mem
    (h : Keeps k₀ process f ps os k) {b : Ptr}
    (hb : b ∈ process :: tablesOf k.mem f.directory) :
    b ∈ f.blocks process k.mem := by
  refine List.mem_append_right _ ?_
  rcases List.mem_cons.mp hb with rfl | htable
  · exact f.process_mem b k.mem
  · obtain ⟨i, -, rfl⟩ := List.mem_map.mp htable
    exact f.table_mem process k.mem i

theorem Isolated.malloc
    (h : Isolated k₀ fp (process :: ps) os k) {size : Word} (hsize : size ≠ 0) {p : Ptr}
    (hcall : k.processMalloc process size = .ok (p, k')) :
    ∃ fp', Isolated k₀ fp' (process :: ps) os k' := by
  have hmaps := h.maps process List.mem_cons_self
  rcases h.keeps.processMalloc hsize hcall with
    ⟨-, hkeeps, hspares, hsched⟩ | ⟨f', hkeeps, hmalloced⟩
  · exact ⟨_, h.change (fun _ hb => absurd hb List.not_mem_nil) hspares hsched hkeeps
      (hmaps.same h.keeps fun b hb => hspares b (h.mem_blocks List.mem_cons_self hb)
        List.not_mem_nil)⟩
  · exact ⟨_, h.change (fun _ hb => h.keeps.own_mem hb) hmalloced.spares hmalloced.sched hkeeps
      (hmaps.malloc h.keeps hkeeps hmalloced)⟩

theorem Isolated.free
    (h : Isolated k₀ fp (process :: ps) os k) {p : Ptr} (hp : p ≠ 0)
    (hcall : k.processFree process p = .ok k') :
    ∃ fp', Isolated k₀ fp' (process :: ps) os k' := by
  rcases h.keeps.processFree hp hcall with ⟨-, rfl⟩ | ⟨f', hkeeps, hfreed⟩
  · exact ⟨fp, h⟩
  · refine ⟨_, h.change (fun b hb => ?_) hfreed.spares hfreed.sched hkeeps
      ((h.maps process List.mem_cons_self).free h.keeps hfreed)⟩
    rcases List.mem_cons.mp hb with rfl | hb
    · exact List.mem_append_left _ hfreed.mem
    · exact h.keeps.own_mem hb

theorem Isolated.load
    (h : Isolated k₀ fp ps os k) (hloaded : Loaded k process f os' (ProgramPage f) k') :
    ∃ fp', Isolated k₀ fp' (process :: ps) (os' ++ os) k' := by
  have hfresh (p : Ptr) (hp : p ∈ f.fixed process k'.mem) : k.pool.live p = none :=
    hloaded.keeps.holds.grown.fresh p (List.mem_append_left os' (Keeps.mem_fixed hp))
  have hne (p : Ptr) (hp : p ∈ f.fixed process k'.mem) (q : Ptr) (hq : q ∈ ps) (b : Ptr)
      (hb : b ∈ (fp q).blocks q k.mem) : b ≠ p := by
    rintro rfl
    have hsome := h.mem_blocks hq hb
    rw [hfresh b hp] at hsome
    cases hsome
  have hprocess (q : Ptr) (hq : q ∈ ps) : q ≠ process :=
    hne process (f.process_mem process k'.mem) q hq q
      (List.mem_append_right _ ((fp q).process_mem q k.mem))
  refine ⟨_, Isolated.extend (fun q hq => h.exists_keeps hq) h.maps
    (fun q hq b hb => hloaded.spares b (h.mem_blocks hq hb) List.not_mem_nil)
    (fun q hq => hloaded.procs q (hprocess q hq)) (fun q hq => hloaded.pageDirectoryOf _ ?_)
    (fun hmem => hprocess process hmem rfl) hloaded.keeps.owns hloaded.mapsOwn ?_⟩
  · exact hne f.task (by simp [Footprint.fixed, taskBlocks]) q hq _
      (List.mem_append_right _ (by simp [Footprint.fixed, taskBlocks]))
  · have hall := h.holds.trans hloaded.keeps.holds
    rwa [List.append_nil] at hall

end World

def blockPages (k : Kernel) (p : Ptr) : Set Ptr :=
  {page | PageAligned page ∧ ∃ n, k.pool.live p = some n ∧ InBlock p n page}

/-- The pages of the live allocations of a process. -/
def allocationPages (k : Kernel) (process : Ptr) : Set Ptr :=
  {page | PageAligned page ∧ ∃ record, k.records process = some record ∧
    ∃ i < maxProgramAllocations, (record.allocations i).ptr ≠ 0 ∧
      InBlock (record.allocations i).ptr (pagesOf (record.allocations i).size) page}

/-- The buffer that the file of a process has been read to. -/
def programBuffer (k : Kernel) (record : ProcessRecord) : Option Ptr :=
  match record.filetype with
  | .elf => (k.elfFiles record.data).map ElfFile.elfMemory
  | .binary => some record.data

/-- The pages of the stack and of the program of a process. -/
def programPages (k : Kernel) (process : Ptr) : Set Ptr :=
  {page | ∃ record, k.records process = some record ∧
    (page ∈ blockPages k record.stack ∨
      ∃ buffer, programBuffer k record = some buffer ∧ page ∈ blockPages k buffer)}

/-- The pages that are mapped for a process as present, as writable and as open
to the user.  Both entries on the way to a page have to say so. -/
def userWritable (k : Kernel) (process : Ptr) : Set Ptr :=
  {page | ∃ directory v, k.directoryOf process = .ok directory ∧ PageAligned v ∧
    k.mem directory (directoryIndex v) &&& 7 = 7 ∧ pagingGet k.mem directory v &&& 7 = 7 ∧
    pagingGet k.mem directory v &&& 0xfffff000 = page}

section Writable

variable {k₀ k : Kernel} {fp : Ptr → Footprint} {ps os : List Ptr} {process : Ptr}
  {f : Footprint} {rest : List Ptr}

theorem HoldsProgram.programBuffer
    {record : ProcessRecord} {filesize : Word} {buffer : Ptr} {bs : List Ptr}
    (h : HoldsProgram k record filesize buffer bs) :
    programBuffer k record = some buffer := by
  cases h with
  | elf helf hfile _ => rw [Kernel.programBuffer, helf, hfile, Option.map_some]
  | binary hbinary _ _ => rw [Kernel.programBuffer, hbinary]

theorem Keeps.userWritable_subset
    (h : Keeps k₀ process f rest os k) (hmaps : MapsOwn k f) :
    userWritable k process ⊆ allocationPages k process ∪ programPages k process := by
  rintro page ⟨directory, v, hdirectory, hv, -, haccess, rfl⟩
  obtain rfl := Except.ok.inj (h.directoryOf.symm.trans hdirectory)
  have hpage := pageAligned_and_pageMask (pagingGet k.mem f.directory v)
  rcases hmaps.get v hv haccess with ⟨p, hp, n, hn, hin, heq⟩ | hstack | hbuffer
  · obtain ⟨i, hi, rfl, hne⟩ := mem_allocated.mp hp
    obtain rfl := Option.some.inj ((h.owns.sizes i hi hne).2.symm.trans hn)
    rw [heq]
    exact Or.inl ⟨hv, f.record, h.owns.recorded, i, hi, hne, hin⟩
  · exact Or.inr ⟨f.record, h.owns.recorded, Or.inl ⟨hpage, _, h.owns.stack, hstack⟩⟩
  · obtain ⟨-, hlive⟩ := h.owns.held.buffer_mem
    exact Or.inr ⟨f.record, h.owns.recorded,
      Or.inr ⟨f.buffer, h.owns.held.programBuffer, hpage, _, hlive, hbuffer⟩⟩

theorem Keeps.allocationPages_subset
    (h : Keeps k₀ process f rest os k) (hmaps : MapsOwn k f) :
    allocationPages k process ⊆ userWritable k process := by
  rintro page ⟨hpage, record, hrecord, i, hi, hne, hin⟩
  obtain rfl := Option.some.inj (h.owns.recorded.symm.trans hrecord)
  have hget := hmaps.allocation _ (mem_allocated.mpr ⟨i, hi, rfl, hne⟩) _
    (h.owns.sizes i hi hne).2 page hpage hin
  refine ⟨f.directory, page, h.directoryOf, hpage, ?_, ?_, ?_⟩
  · have htable : PageAligned (tableAt k.mem f.directory (directoryIndex page)) :=
      pageAligned_and_pageMask _
    rw [hmaps.entry, or_and_accessMask htable]
    rfl
  · rw [hget, or_and_accessMask hpage]
    rfl
  · rw [hget]
    exact or_and_pageMask hpage (by decide)

/-- A page of a process is in one of its blocks. -/
theorem Keeps.exists_block
    (h : Keeps k₀ process f rest os k) {page : Ptr}
    (hpage : page ∈ allocationPages k process ∪ programPages k process) :
    ∃ b ∈ f.blocks process k.mem, ∃ n, k.pool.live b = some n ∧ InBlock b n page := by
  rcases hpage with ⟨-, record, hrecord, i, hi, hne, hin⟩ | ⟨record, hrecord, hprogram⟩
  · obtain rfl := Option.some.inj (h.owns.recorded.symm.trans hrecord)
    exact ⟨_, List.mem_append_left _ (mem_allocated.mpr ⟨i, hi, rfl, hne⟩), _,
      (h.owns.sizes i hi hne).2, hin⟩
  · obtain rfl := Option.some.inj (h.owns.recorded.symm.trans hrecord)
    rcases hprogram with ⟨-, n, hn, hin⟩ | ⟨buffer, hbuffer, -, n, hn, hin⟩
    · exact ⟨_, List.mem_append_right _ (by simp [Footprint.fixed]), n, hn, hin⟩
    · obtain rfl := Option.some.inj (h.owns.held.programBuffer.symm.trans hbuffer)
      refine ⟨_, List.mem_append_right _ ?_, n, hn, hin⟩
      simp [Footprint.fixed, h.owns.held.buffer_mem.1]

/-- The pages of two processes are apart. -/
theorem Isolated.disjoint
    (h : Isolated k₀ fp ps os k) {q : Ptr} (hp : process ∈ ps) (hq : q ∈ ps) (hne : q ≠ process) :
    Disjoint (userWritable k process) (userWritable k q) := by
  have hfirst := h.perm (List.perm_cons_erase hp)
  have hmem : q ∈ ps.erase process := (List.mem_erase_of_ne hne).mpr hq
  obtain ⟨rest, hkeeps⟩ := h.exists_keeps hq
  refine Set.disjoint_left.mpr fun page hpage hpage' => ?_
  obtain ⟨b, hb, n, hn, hin⟩ :=
    hfirst.keeps.exists_block (hfirst.keeps.userWritable_subset (h.maps process hp) hpage)
  obtain ⟨b', hb', n', hn', hin'⟩ :=
    hkeeps.exists_block (hkeeps.userWritable_subset (h.maps q hq) hpage')
  have hblocks : b ≠ b' := by
    rintro rfl
    exact hfirst.not_mem_blocks hb hmem hb'
  exact hkeeps.apart hn hn' hblocks hin hin'

end Writable

/-- The segments of a program, when they are mapped, lie in its buffer. -/
def ProgramInside (k : Kernel) (program : Program) (slot : Nat) : Prop :=
  ∀ process k₁ res task k₂ record elfFile directory, k.processNew = (process, k₁) →
    k₁.loadTask program process slot = .ok (res, task, k₂) →
    k₂.records process = some record → record.filetype = .elf →
    k₂.elfFiles record.data = some elfFile → k₂.directoryOf process = .ok directory →
    ∀ phdr ∈ mappedPhdrs k₂.mem directory elfFile.elfMemory,
      ∀ i < phdr.pages elfFile.elfMemory,
        pageAt (phdr.phys elfFile.elfMemory) i ∈ blockPages k₂ elfFile.elfMemory

/-- The kernel and the processes that have been loaded since `k₀`. -/
inductive Reached (k₀ : Kernel) : Kernel → List Ptr → Prop
  | start : Reached k₀ k₀ []
  | load {k k' : Kernel} {ps : List Ptr} {program : Program} {slot : Nat} {process : Ptr}
      (hreached : Reached k₀ k ps) (hinside : ProgramInside k program slot)
      (hcall : k.processLoadForSlot program slot = .ok (0, process, k')) :
      Reached k₀ k' (process :: ps)
  | malloc {k k' : Kernel} {ps : List Ptr} {process p : Ptr} {size : Word}
      (hreached : Reached k₀ k ps) (hprocess : process ∈ ps) (hsize : size ≠ 0)
      (hcall : k.processMalloc process size = .ok (p, k')) :
      Reached k₀ k' ps
  | free {k k' : Kernel} {ps : List Ptr} {process p : Ptr}
      (hreached : Reached k₀ k ps) (hprocess : process ∈ ps) (hp : p ≠ 0)
      (hcall : k.processFree process p = .ok k') :
      Reached k₀ k' ps

section Run

variable {k₀ k k' : Kernel} {ps : List Ptr} {program : Program} {slot : Nat} {process : Ptr}

theorem ProgramInside.leads
    {res : Int} {task : Ptr} {k₁ k₂ : Kernel} {f : Footprint} {os : List Ptr}
    (h : ProgramInside k program slot) (hnew : k.processNew = (process, k₁))
    (htask : k₁.loadTask program process slot = .ok (res, task, k₂))
    (hkeeps : Keeps k process f [] os k₂) :
    Leads k₂ f (ProgramPage f) := by
  obtain ⟨-, hlive⟩ := hkeeps.owns.held.buffer_mem
  have hin {p : Ptr} {n : Nat} (hp : k₂.pool.live p = some n) {i : Nat} (hi : i < n) :
      InBlock p n (pageAt p i) := by
    have hplaced := hkeeps.holds.inv.placed p n hp
    exact (hplaced.inBlock_iff_pageAt (pageAligned_pageAt hplaced.aligned i)).mpr ⟨i, hi, rfl⟩
  refine ⟨fun helf phdr hphdr i hi => ?_, fun i hi => Or.inr (hin hlive hi),
    fun i hi => Or.inl (hin hkeeps.owns.stack hi)⟩
  obtain ⟨file, hfile, hbuffer⟩ := hkeeps.owns.held.elf_inv helf
  rw [← hbuffer] at hphdr hi
  obtain ⟨-, n, hn, hpage⟩ := h process k₁ res task k₂ f.record file f.directory hnew htask
    hkeeps.owns.recorded helf hfile hkeeps.directoryOf phdr hphdr i hi
  rw [hbuffer] at hn hpage
  obtain rfl := Option.some.inj (hlive.symm.trans hn)
  exact Or.inr hpage

theorem Reached.isolated
    (hinv : k₀.pool.Inv) (h : Reached k₀ k ps) :
    ∃ fp os, Isolated k₀ fp ps os k := by
  induction h with
  | start =>
      exact ⟨fun _ => ⟨processInit, 0, 0, 0, 0, 0, []⟩, [], fun _ hq => absurd hq List.not_mem_nil,
        fun _ hq => absurd hq List.not_mem_nil, Holds.refl hinv⟩
  | load _ hinside hcall ih =>
      obtain ⟨fp, os, hisolated⟩ := ih
      obtain ⟨f, os', hloaded⟩ := processLoadForSlot_loaded ProgramPage hisolated.holds.inv hcall
        fun k₁ res task k₂ f os hnew htask hkeeps _ => hinside.leads hnew htask hkeeps
      obtain ⟨fp', hisolated'⟩ := hisolated.load hloaded
      exact ⟨fp', _, hisolated'⟩
  | malloc _ hprocess hsize hcall ih =>
      obtain ⟨fp, os, hisolated⟩ := ih
      have hperm := List.perm_cons_erase hprocess
      obtain ⟨fp', hisolated'⟩ := (hisolated.perm hperm).malloc hsize hcall
      exact ⟨fp', os, hisolated'.perm hperm.symm⟩
  | free _ hprocess hp hcall ih =>
      obtain ⟨fp, os, hisolated⟩ := ih
      have hperm := List.perm_cons_erase hprocess
      obtain ⟨fp', hisolated'⟩ := (hisolated.perm hperm).free hp hcall
      exact ⟨fp', os, hisolated'.perm hperm.symm⟩

/-- In every state that is reached, what a process can write to is its own. -/
theorem reached_isolates
    (hinv : k₀.pool.Inv) (hreached : Reached k₀ k ps) :
    ∀ process ∈ ps,
      userWritable k process ⊆ allocationPages k process ∪ programPages k process ∧
        allocationPages k process ⊆ userWritable k process ∧
        ∀ other ∈ ps, other ≠ process →
          Disjoint (userWritable k process) (userWritable k other) := by
  obtain ⟨fp, os, hisolated⟩ := hreached.isolated hinv
  intro process hprocess
  obtain ⟨rest, hkeeps⟩ := hisolated.exists_keeps hprocess
  have hmaps := hisolated.maps process hprocess
  exact ⟨hkeeps.userWritable_subset hmaps, hkeeps.allocationPages_subset hmaps,
    fun other hother hne => hisolated.disjoint hprocess hother hne⟩

/-- A raw binary has no segments. -/
theorem programInside_raw
    {pages n : Nat} (hfour : 4 ≤ pages) (hraw : RawBinary program)
    (hpages : pagesOf program.filesize ≤ pages)
    (hroom : Pool.HasSpace pages k.pool (n + (2 * program.opened.length + 1032)))
    (hinv : k.pool.Inv) (htail : k.sched.taskHead = 0 ∨ k.sched.Live k.sched.taskTail) :
    ProgramInside k program slot := by
  intro process k₁ res task k₂ record elfFile directory hnew htask hrecord helf
  obtain ⟨process', k₁', hmade, hne, hroom₁⟩ := @processNew_room _ k
    (n + (2 * program.opened.length + 1031)) hfour hroom
  obtain ⟨rfl, rfl⟩ := Prod.mk.inj (hmade.symm.trans hnew)
  have hprocess := processNew_inv hinv hmade hne
  have htail₁ : k₁'.sched.taskHead = 0 ∨ k₁'.sched.Live k₁'.sched.taskTail := by
    rw [hprocess.sched]
    exact htail
  obtain ⟨task', k₂', htask', -, record', hrecord', hbinary⟩ := @loadTask_room _ k₁' program
    process' n hfour hraw hpages hroom₁ hprocess.holds.inv htail₁
    (hprocess.holds.isSome List.mem_cons_self) hne _ hprocess.record slot
  cases htask'.symm.trans htask
  obtain rfl := Option.some.inj (hrecord'.symm.trans hrecord)
  cases helf.symm.trans hbinary

end Run

/-- A program of one byte is loaded next to the processes that there are. -/
theorem Reached.load_oneByte
    {k₀ k : Kernel} {ps : List Ptr} {n slot : Nat} (hinv : k₀.pool.Inv) (h : Reached k₀ k ps)
    (hroom : Pool.HasSpace 4 k.pool (n + 1040)) (hslot : k.sched.processes slot = 0)
    (htail : k.sched.taskHead = 0 ∨ k.sched.Live k.sched.taskTail) :
    ∃ process k', Reached k₀ k' (process :: ps) ∧ process ∉ ps ∧ Pool.HasSpace 4 k'.pool n ∧
      (∀ i, i ≠ slot → k'.sched.processes i = k.sched.processes i) ∧
      k'.sched.Live k'.sched.taskTail := by
  obtain ⟨fp, os, hisolated⟩ := h.isolated hinv
  have hinv' := hisolated.holds.inv
  obtain ⟨process, k', hload, hroom'⟩ := processLoadForSlot_oneByte hroom hinv' hslot htail
  obtain ⟨f, os', hloaded⟩ := processLoadForSlot_loaded (fun _ _ => True) hinv' hload
    fun _ _ _ k₂ f _ _ _ _ _ => Leads.any k₂ f
  have hinside : ProgramInside k oneByte slot :=
    programInside_raw (Nat.le_refl 4) oneByte_raw (by decide) hroom hinv' htail
  refine ⟨process, k', Reached.load h hinside hload, fun hmem => ?_, hroom',
    fun i hi => processLoadForSlot_processes hinv' hload hi, ?_⟩
  · obtain ⟨rest, hkeeps⟩ := hisolated.exists_keeps hmem
    have hold := hkeeps.holds.isSome (List.mem_append_left rest (hkeeps.own_mem List.mem_cons_self))
    have hnew := List.mem_append_left os'
      (List.mem_append_left [] (hloaded.keeps.own_mem List.mem_cons_self))
    rw [hloaded.keeps.holds.grown.fresh process hnew] at hold
    cases hold
  · rw [hloaded.tail, Sched.live_iff_exists_processOf]
    exact ⟨process, hloaded.processOf⟩

/-- Two programs, of which the first has a block of its own. -/
theorem reached_isolates_twoPrograms :
    ∃ k p q, p ≠ q ∧ Reached (blank 2100) k [q, p] ∧ allocationPages k p ⊆ userWritable k p ∧
      userWritable k p ⊆ allocationPages k p ∪ programPages k p ∧
      Disjoint (userWritable k p) (userWritable k q) := by
  have hinv : (blank 2100).pool.Inv := Pool.packed_inv (by decide)
  obtain ⟨p, k₁, h₁, -, hroom₁, hslots, htail⟩ :=
    @Reached.load_oneByte _ (blank 2100) [] 1060 0 hinv Reached.start
      (Pool.packed_hasSpace (by decide)) rfl (Or.inl rfl)
  obtain ⟨q, k₂, h₂, hnew, -⟩ := @Reached.load_oneByte _ k₁ [p] 20 1 hinv h₁ hroom₁
    ((hslots 1 (by decide)).trans rfl) (Or.inr htail)
  have hne : p ≠ q := fun heq => hnew (List.mem_singleton.mpr heq.symm)
  have hp : p ∈ [q, p] := List.mem_cons_of_mem q (List.mem_singleton_self p)
  obtain ⟨fp, os, hisolated⟩ := h₂.isolated hinv
  obtain ⟨rest, hkeeps⟩ := hisolated.exists_keeps hp
  obtain ⟨block, k₃, hmalloc⟩ := hkeeps.processMalloc_returns (by decide : (1 : Word) ≠ 0)
  have hreached := h₂.malloc hp (by decide : (1 : Word) ≠ 0) hmalloc
  obtain ⟨hown, hopen, hapart⟩ := reached_isolates hinv hreached p hp
  exact ⟨k₃, p, q, hne, hreached, hopen, hown, hapart q List.mem_cons_self (Ne.symm hne)⟩

end Kernel

end PeachOS
