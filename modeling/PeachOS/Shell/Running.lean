import PeachOS.Shell.CommandLine
import PeachOS.Task.Isolation
import PeachOS.Task.Teardown

/-!
# The process that runs

What the running process reads and writes through its page directory, in pages
that are open to it, and what `peachos_malloc` gives it.
-/

namespace PeachOS

open Lib

/-- A store in a block leaves the other addresses alone. -/
theorem Pool.Placed.storeBytes
    {p : Ptr} {n : Nat} (h : Pool.Placed p n) (m : Memory) {d : Nat} {bs : List Byte}
    (hroom : d + bs.length ≤ 4096 * n) {addr : Ptr} (haddr : ¬ InBlock p n addr) :
    storeBytes m (p + BitVec.ofNat 32 d) bs addr = m addr := by
  have hupper := h.upper
  refine storeBytes_of_not_mem ?_
  unfold InBlock heapAddress heapSizeBytes pagingPageSize at *
  rw [BitVec.toNat_sub, BitVec.toNat_add, BitVec.toNat_ofNat]
  omega

namespace Kernel

/-- What is in a block that is left alone. -/
theorem SameBlock.bytes
    {k k' : Kernel} {p : Ptr} {n : Nat} (h : SameBlock k k' p) (hlive : k.pool.live p = some n)
    (hplaced : Pool.Placed p n) {addr : Ptr} (haddr : InBlock p n addr) :
    k'.mem.bytes addr = k.mem.bytes addr := by
  have hpage : InBlock p n (pagingAlignToLowerPage addr) := by
    refine (hplaced.inBlock_iff (pageAligned_alignToLowerPage addr) ?_).mp haddr
    rw [OnPage, toNat_alignToLowerPage, pagingPageSize]
    omega
  rw [Pages.bytes, Pages.bytes, h.mem n _ hlive (pageAligned_alignToLowerPage addr) hpage]

theorem Spares.bytes
    {k k' : Kernel} {bs : List Ptr} {q : Ptr} {n : Nat} (h : Spares bs k k')
    (hinv : k.pool.Inv) (hlive : k.pool.live q = some n) (hq : q ∉ bs) {addr : Ptr}
    (haddr : (addr - q).toNat < 4096 * n) :
    k'.mem.bytes addr = k.mem.bytes addr := by
  have hplaced := hinv.placed q n hlive
  have hupper := hplaced.upper
  refine (h q (by rw [hlive]; rfl) hq).bytes hlive hplaced ?_
  unfold InBlock heapAddress heapSizeBytes pagingPageSize at *
  rw [BitVec.toNat_sub] at haddr
  omega

/-- The pages from `virt` on are open to the user and lead to those from `phys`
on. -/
structure OpenPages (mem : Pages) (directory virt phys : Ptr) (count : Nat) : Prop where
  alignedVirt : PageAligned virt
  alignedPhys : PageAligned phys
  entry : ∀ i, mem directory i = tableAt mem directory i ||| 7
  get : ∀ i < count, pagingGet mem directory (pageAt virt i) = pageAt phys i ||| 7

/-- The running process finds these bytes at an address. -/
def UserReads (k : Kernel) (addr : Ptr) (bs : List Byte) : Prop :=
  ∀ i c, bs[i]? = some c → k.userLoad (addr + BitVec.ofNat 32 i) = .ok c

theorem or_access
    {x access : Word} (h : 7 &&& access = access) :
    (x ||| 7) &&& access = access := by
  rw [BitVec.and_or_distrib_right, h]
  ext i hi
  simp

section OpenPages

variable {k : Kernel} {directory virt phys : Ptr} {count d : Nat}

theorem OpenPages.physicalAddress
    {mem : Pages} (h : OpenPages mem directory virt phys count) (hd : d < 4096 * count) :
    pagingGetPhysicalAddress mem directory (virt + BitVec.ofNat 32 d) =
      phys + BitVec.ofNat 32 d :=
  pagingGetPhysicalAddress_of_get h.alignedVirt h.alignedPhys (by decide) (h.get _ (by omega))

theorem OpenPages.userAddress
    (h : OpenPages k.mem directory virt phys count) (hcurrent : k.currentDirectory = .ok directory)
    {access : Word} (haccess : 7 &&& access = access) (hd : d < 4096 * count) :
    k.userAddress access (virt + BitVec.ofNat 32 d) = .ok (phys + BitVec.ofNat 32 d) := by
  have hopen : k.mem directory (directoryIndex (pageAt virt (d / 4096))) &&& access = access ∧
      pagingGet k.mem directory (pageAt virt (d / 4096)) &&& access = access := by
    rw [h.entry, h.get _ (by omega)]
    exact ⟨or_access haccess, or_access haccess⟩
  rw [Kernel.userAddress, hcurrent, ok_bind, alignToLowerPage_pageAt h.alignedVirt]
  dsimp only
  rw [if_pos hopen, h.physicalAddress hd]
  rfl

theorem OpenPages.userReads
    (h : OpenPages k.mem directory virt phys count) (hcurrent : k.currentDirectory = .ok directory)
    {bs : List Byte} (hbytes : BytesAt k.mem.bytes (phys + BitVec.ofNat 32 d) bs)
    (hroom : d + bs.length ≤ 4096 * count) :
    UserReads k (virt + BitVec.ofNat 32 d) bs := by
  intro i c hi
  have hlt : i < bs.length := (List.getElem?_eq_some_iff.mp hi).1
  have hadd (a : Ptr) : a + BitVec.ofNat 32 d + BitVec.ofNat 32 i = a + BitVec.ofNat 32 (d + i) := by
    rw [BitVec.add_assoc, ← BitVec.ofNat_add]
  have haddress := h.userAddress hcurrent (by decide : (7 : Word) &&& 5 = 5)
    (show d + i < 4096 * count by omega)
  rw [← hbytes i c hi, hadd, hadd, userLoad]
  change (k.userAddress 5 _ >>= _) = _
  rw [haddress]
  rfl

end OpenPages

/-- The pages of an allocation. -/
theorem MapsAllocations.openPages
    {k : Kernel} {f : Footprint} (h : MapsAllocations k f) {p : Ptr} {n : Nat}
    (hp : p ∈ allocated f.record) (hlive : k.pool.live p = some n) (hplaced : Pool.Placed p n) :
    OpenPages k.mem f.directory p p n where
  alignedVirt := hplaced.aligned
  alignedPhys := hplaced.aligned
  entry := h.entry
  get := fun i hi => by
    have hpage := pageAligned_pageAt hplaced.aligned i
    exact h.allocation p hp n hlive _ hpage ((hplaced.inBlock_iff_pageAt hpage).mpr ⟨i, hi, rfl⟩)

/-- `process` runs, and has its blocks and its tables for itself. -/
structure Running (k₀ : Kernel) (process : Ptr) (f : Footprint) (rest os : List Ptr) (k : Kernel) :
    Prop where
  keeps : Keeps k₀ process f rest os k
  maps : MapsAllocations k f
  current : k.sched.currentTask = f.task
  processOf : k.sched.processOf f.task = some process

/-- A process that has been loaded runs when its task is switched to. -/
theorem Loaded.running
    {k k' : Kernel} {process : Ptr} {f : Footprint} {os : List Ptr} {S : Ptr → Prop}
    (h : Loaded k process f os S k') :
    Running k process f [] os { k' with sched := { k'.sched with currentTask := f.task } } where
  keeps := h.keeps.setSched _ rfl rfl
  maps := ⟨h.mapsAllocations.entry, h.mapsAllocations.allocation⟩
  current := rfl
  processOf := h.processOf

section Running

variable {k₀ k k' : Kernel} {process p : Ptr} {f : Footprint} {rest os : List Ptr} {n : Nat}

theorem Running.taskCurrent (h : Running k₀ process f rest os k) :
    ∃ task, k.taskCurrent = .ok task ∧ task.process = process ∧ task.pageDirectory = f.chunk := by
  obtain ⟨task, htask, hprocess⟩ := Option.map_eq_some_iff.mp h.processOf
  obtain ⟨task', htask', hchunk⟩ := Option.map_eq_some_iff.mp h.keeps.owns.pageDirectoryOf
  obtain rfl := Option.some.inj (htask.symm.trans htask')
  have hne : f.task ≠ 0 :=
    h.keeps.holds.ne_zero (Keeps.mem_fixed (by simp [Footprint.fixed, taskBlocks]))
  refine ⟨task, ?_, hprocess, hchunk⟩
  rw [Kernel.taskCurrent, h.current, follow_of_some hne htask]

theorem Running.currentDirectory (h : Running k₀ process f rest os k) :
    k.currentDirectory = .ok f.directory := by
  obtain ⟨task, htask, -, hchunk⟩ := h.taskCurrent
  have hne : f.chunk ≠ 0 :=
    h.keeps.holds.ne_zero (Keeps.mem_fixed (by simp [Footprint.fixed, taskBlocks]))
  rw [Kernel.currentDirectory, htask, ok_bind, hchunk, follow_of_some hne h.keeps.owns.chunk]

theorem Running.placed
    (h : Running k₀ process f rest os k) (hlive : k.pool.live p = some n) :
    Pool.Placed p n :=
  h.keeps.holds.inv.placed p n hlive

theorem Running.isSome
    (h : Running k₀ process f rest os k) (hp : p ∈ allocated f.record) :
    (k.pool.live p).isSome = true :=
  h.keeps.holds.isSome (List.mem_append_left rest (List.mem_append_left _ hp))

theorem Running.openPages
    (h : Running k₀ process f rest os k) (hp : p ∈ allocated f.record)
    (hlive : k.pool.live p = some n) :
    OpenPages k.mem f.directory p p n :=
  h.maps.openPages hp hlive (h.placed hlive)

/-- A write to another block leaves those of the task alone. -/
theorem Keeps.write_task
    (h : Keeps k₀ process f rest os k) (hlive : k.pool.live p = some n) {m : Memory}
    (hm : ∀ addr, ¬ InBlock p n addr → m addr = k.mem.bytes addr)
    (hout : p ∉ taskBlocks k.mem f.task f.chunk f.directory) :
    ∀ b ∈ taskBlocks k.mem f.task f.chunk f.directory,
      SameBlock k { k with mem := Pages.ofBytes m } b := by
  intro b hb
  have hsome := h.holds.isSome (Keeps.mem_fixed (List.mem_append_left _ hb))
  refine write_spares h.holds.inv hlive hm b hsome fun hmem => ?_
  rw [List.mem_singleton.mp hmem] at hb
  exact hout hb

theorem Keeps.allocated_not_task
    (h : Keeps k₀ process f rest os k) (hp : p ∈ allocated f.record) :
    p ∉ taskBlocks k.mem f.task f.chunk f.directory :=
  fun hmem => (List.nodup_append.mp h.nodup).2.2 p hp p (List.mem_append_left _ hmem) rfl

/-- The stack is a block beside the task and the allocations. -/
theorem Keeps.stack_out
    (h : Keeps k₀ process f rest os k) :
    f.record.stack ∉ taskBlocks k.mem f.task f.chunk f.directory ∧
      f.record.stack ∉ allocated f.record := by
  obtain ⟨-, hfixed, hallocated⟩ := List.nodup_append.mp h.nodup
  obtain ⟨-, -, htask⟩ := List.nodup_append.mp hfixed
  refine ⟨fun hmem => htask _ hmem _ List.mem_cons_self rfl, fun hmem => ?_⟩
  exact hallocated _ hmem _ (List.mem_append_right _ List.mem_cons_self) rfl

/-- Bytes of an allocation have been written. -/
structure Wrote (k : Kernel) (f : Footprint) (p addr : Ptr) (bs : List Byte) (k' : Kernel) :
    Prop where
  bytes : k'.mem.bytes = storeBytes k.mem.bytes addr bs
  spares : Spares [p] k k'
  tables : tablesOf k'.mem f.directory = tablesOf k.mem f.directory
  get : ∀ v, PageAligned v → pagingGet k'.mem f.directory v = pagingGet k.mem f.directory v
  pool : k'.pool = k.pool
  sched : k'.sched = k.sched

theorem Keeps.wrote
    (h : Keeps k₀ process f rest os k) (hmaps : MapsAllocations k f) (hp : p ∈ allocated f.record)
    (hlive : k.pool.live p = some n) {d : Nat} {bs : List Byte} (hroom : d + bs.length ≤ 4096 * n)
    (hk' : k' = { k with
      mem := Pages.ofBytes (storeBytes k.mem.bytes (p + BitVec.ofNat 32 d) bs) }) :
    Keeps k₀ process f rest os k' ∧ MapsAllocations k' f ∧
      Wrote k f p (p + BitVec.ofNat 32 d) bs k' := by
  obtain rfl := hk'
  have hout (addr : Ptr) (haddr : ¬ InBlock p n addr) :
      storeBytes k.mem.bytes (p + BitVec.ofNat 32 d) bs addr = k.mem.bytes addr :=
    (h.holds.inv.placed p n hlive).storeBytes k.mem.bytes hroom haddr
  have htask := h.write_task hlive hout (h.allocated_not_task hp)
  refine ⟨h.write hp hlive hout, hmaps.same h htask fun _ _ => rfl, Pages.bytes_ofBytes _,
    write_spares h.holds.inv hlive hout, ?_, (h.tables_same htask).2, rfl, rfl⟩
  rw [tablesOf, tablesOf, tableAt_congr (h.tables_same htask).1]

theorem Running.userStore
    (h : Running k₀ process f rest os k) (hp : p ∈ allocated f.record)
    (hlive : k.pool.live p = some n) {d : Nat} (hd : d < 4096 * n) (c : Byte) :
    k.userStore (p + BitVec.ofNat 32 d) c =
      .ok { k with mem := Pages.ofBytes (storeBytes k.mem.bytes (p + BitVec.ofNat 32 d) [c]) } := by
  have haddress := (h.openPages hp hlive).userAddress h.currentDirectory
    (by decide : (7 : Word) &&& 7 = 7) hd
  rw [Kernel.userStore]
  change (k.userAddress 7 _ >>= _) = _
  rw [haddress]
  rfl

/-- The bytes are written where they are in the allocation. -/
theorem Running.userStores
    (h : Running k₀ process f rest os k) (hp : p ∈ allocated f.record)
    (hlive : k.pool.live p = some n) {d : Nat} {bs : List Byte} (hbs : bs ≠ [])
    (hroom : d + bs.length ≤ 4096 * n) :
    k.userStores (p + BitVec.ofNat 32 d) bs =
      .ok { k with mem := Pages.ofBytes (storeBytes k.mem.bytes (p + BitVec.ofNat 32 d) bs) } := by
  induction bs generalizing k d with
  | nil => exact absurd rfl hbs
  | cons c cs ih =>
      have hupper := (h.placed hlive).upper
      unfold heapAddress heapSizeBytes pagingPageSize at hupper
      rw [List.length_cons] at hroom
      have hcons := @storeBytes_cons k.mem.bytes (p + BitVec.ofNat 32 d) cs c (by
        rw [BitVec.toNat_add, BitVec.toNat_ofNat, List.length_cons]
        omega)
      rw [Kernel.userStores, h.userStore hp hlive (by omega), ok_bind]
      cases cs with
      | nil => rfl
      | cons c' cs =>
          have hnext : p + BitVec.ofNat 32 d + 1 = p + BitVec.ofNat 32 (d + 1) := by
            rw [BitVec.ofNat_add, ← BitVec.add_assoc]
            rfl
          obtain ⟨hkeeps, hmaps, -⟩ := @Keeps.wrote _ _ _ _ _ _ _ _ _ h.keeps h.maps hp hlive d [c]
            (by rw [List.length_singleton]; omega) rfl
          have hrest := ih (d := d + 1) ⟨hkeeps, hmaps, h.current, h.processOf⟩ hlive
            (List.cons_ne_nil c' cs) (by omega)
          rw [Pages.bytes_ofBytes] at hrest
          rw [hcons, hnext]
          exact hrest

theorem Running.wrote
    (h : Running k₀ process f rest os k) (hp : p ∈ allocated f.record)
    (hlive : k.pool.live p = some n) {d : Nat} {bs : List Byte} (hbs : bs ≠ [])
    (hroom : d + bs.length ≤ 4096 * n) :
    ∃ k', k.userStores (p + BitVec.ofNat 32 d) bs = .ok k' ∧ Running k₀ process f rest os k' ∧
      Wrote k f p (p + BitVec.ofNat 32 d) bs k' := by
  obtain ⟨hkeeps, hmaps, hwrote⟩ := h.keeps.wrote h.maps hp hlive hroom rfl
  exact ⟨_, h.userStores hp hlive hbs hroom, ⟨hkeeps, hmaps, h.current, h.processOf⟩, hwrote⟩

end Running

end Kernel

end PeachOS
