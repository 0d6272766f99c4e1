import PeachOS.Task.Loading
import PeachOS.Task.LoadSuccess

/-!
# The end of a process

Whatever a process has allocated and freed, its end frees each of its blocks
once and no other block.
-/

namespace PeachOS

open Lib

namespace Kernel

/-- `argc` is the length of the list of arguments. -/
inductive ProcessCall where
  | malloc (size : Word)
  | free (ptr : Ptr)
  | injectArguments (argc : Nat)

/-- The list of arguments lies in memory, with a `next` pointer for each. -/
def ProcessCall.Valid : ProcessCall → Prop
  | .malloc size => size ≠ 0
  | .free ptr => ptr ≠ 0
  | .injectArguments argc => 4 * argc < 2 ^ 32

def ProcessCall.run (process : Ptr) (k : Kernel) : ProcessCall → Except Halt Kernel
  | .malloc size => do
      let (_, k) ← k.processMalloc process size
      pure k
  | .free ptr => k.processFree process ptr
  | .injectArguments argc => do
      let (_, k) ← k.processInjectArguments process argc
      pure k

section Calls

variable {k₀ k k' : Kernel} {process : Ptr} {f : Footprint} {rest os : List Ptr}

/-- Whether a call succeeds or not, the process has its blocks for itself. -/
theorem Keeps.malloc
    (h : Keeps k₀ process f rest os k) {size : Word} (hsize : size ≠ 0) {p : Ptr}
    (hcall : k.processMalloc process size = .ok (p, k')) :
    ∃ f', Keeps k₀ process f' rest os k' ∧ allocated f.record ⊆ allocated f'.record ∧
      (p ≠ 0 → p ∈ allocated f'.record ∧ k'.pool.live p = some (pagesOf size)) ∧
      ∀ b ∈ allocated f.record, k'.pool.live b = k.pool.live b := by
  have hlive (b : Ptr) (hb : b ∈ allocated f.record) : (k.pool.live b).isSome = true :=
    h.holds.isSome (List.mem_append_left rest (List.mem_append_left _ hb))
  rcases h.processMalloc hsize hcall with ⟨rfl, hkeeps, hspares, -⟩ | ⟨f', hkeeps, hmalloced⟩
  · exact ⟨f, hkeeps, List.Subset.refl _, fun hne => absurd rfl hne,
      fun b hb => (hspares b (hlive b hb) List.not_mem_nil).live⟩
  · obtain ⟨i, hi, hfree, rfl⟩ := hmalloced.entry
    have hp : p ≠ 0 := (hkeeps.holds.inv.placed p _ hmalloced.live).ne_zero
    have hperm := allocated_use hi hfree hp size
    refine ⟨_, hkeeps, fun b hb => hperm.mem_iff.mpr (List.mem_cons_of_mem p hb),
      fun _ => ⟨hperm.mem_iff.mpr List.mem_cons_self, hmalloced.live⟩, fun b hb => ?_⟩
    exact (hmalloced.spares b (hlive b hb) (h.allocated_out hb)).live

theorem Keeps.free
    (h : Keeps k₀ process f rest os k) {p : Ptr} (hp : p ≠ 0)
    (hcall : k.processFree process p = .ok k') :
    ∃ f', Keeps k₀ process f' rest os k' := by
  rcases h.processFree hp hcall with ⟨-, rfl⟩ | ⟨f', hkeeps, -⟩
  · exact ⟨f, h⟩
  · exact ⟨f', hkeeps⟩

/-- A write to an allocation. -/
theorem Keeps.write
    (h : Keeps k₀ process f rest os k) {p : Ptr} {n : Nat} (hp : p ∈ allocated f.record)
    (hlive : k.pool.live p = some n) {m : Memory}
    (hm : ∀ addr, ¬ InBlock p n addr → m addr = k.mem.bytes addr) :
    Keeps k₀ process f rest os { k with mem := Pages.ofBytes m } := by
  obtain ⟨n', hn', haligned, hin⟩ := h.page (f.directory_mem process k.mem)
  have hne : f.directory ≠ p := fun heq =>
    (List.nodup_append.mp h.nodup).2.2 p hp _ (f.directory_mem process k.mem) heq.symm
  have hout := (h.holds.inv.apart _ n' p n hn' hlive hne).not_inBlock hin
  exact h.map ((h.holds.inv.placed p n hlive).ofBytes hm haligned hout)

theorem Keeps.injectArguments
    {argv : Ptr} {n i count : Nat} {res : Int} (h : Keeps k₀ process f rest os k)
    (hargv : argv ∈ allocated f.record) (hlive : k.pool.live argv = some n)
    (hroom : 4 * (i + count) ≤ 4096 * n)
    (hcall : Kernel.injectArguments process argv k i count = .ok (res, k')) :
    ∃ f', Keeps k₀ process f' rest os k' := by
  induction count generalizing k f i with
  | zero =>
      cases hcall
      exact ⟨f, h⟩
  | succ count ih =>
      obtain ⟨⟨resOne, k₁⟩, hone, hcall⟩ := bind_eq_ok_iff.mp hcall
      obtain ⟨⟨argumentStr, k₂⟩, hmalloc, hone⟩ := bind_eq_ok_iff.mp hone
      obtain ⟨f₂, hkeeps₂, hsub, -, hlive₂⟩ := h.malloc (by decide) hmalloc
      dsimp only at hone hcall
      by_cases h0 : argumentStr = 0
      · rw [if_pos h0] at hone
        cases hone
        rw [if_pos (by decide)] at hcall
        cases hcall
        exact ⟨f₂, hkeeps₂⟩
      · rw [if_neg h0] at hone
        cases hone
        rw [if_neg (by decide)] at hcall
        have hargv₂ := hsub hargv
        have hlive₂' : k₂.pool.live argv = some n := (hlive₂ argv hargv).trans hlive
        have hupper := (hkeeps₂.holds.inv.placed argv n hlive₂').upper
        refine ih (hkeeps₂.write hargv₂ hlive₂' fun addr haddr => ?_) hargv₂ hlive₂'
          (by omega) hcall
        refine if_neg ?_
        unfold InBlock heapAddress heapSizeBytes pagingPageSize at *
        rw [BitVec.toNat_sub, BitVec.toNat_add, BitVec.toNat_ofNat]
        omega

/-- The arguments of the process are set. -/
theorem Keeps.setArguments
    (h : Keeps k₀ process f rest os k) (argc : Word) (argv : Ptr) :
    Keeps k₀ process { f with record := { f.record with argc := argc, argv := argv } } rest os
      (k.setRecord process { f.record with argc := argc, argv := argv }) where
  owns := ⟨if_pos rfl, h.owns.held.congr rfl rfl rfl rfl rfl, h.owns.link, h.owns.pageDirectoryOf,
    h.owns.chunk, h.owns.stack, h.owns.sizes⟩
  holds := h.holds.congr rfl rfl

theorem Keeps.processInjectArguments
    {argc : Nat} {res : Int} (h : Keeps k₀ process f rest os k) (hargc : 4 * argc < 2 ^ 32)
    (hcall : k.processInjectArguments process argc = .ok (res, k')) :
    ∃ f', Keeps k₀ process f' rest os k' := by
  rw [Kernel.processInjectArguments] at hcall
  by_cases hzero : argc = 0
  · rw [if_pos hzero] at hcall
    cases hcall
    exact ⟨f, h⟩
  · rw [if_neg hzero] at hcall
    have hnat : (BitVec.ofNat 32 (4 * argc)).toNat = 4 * argc := by
      rw [BitVec.toNat_ofNat]
      omega
    have hsize : BitVec.ofNat 32 (4 * argc) ≠ 0 := by
      intro heq
      rw [heq] at hnat
      have h0 : (0 : Word).toNat = 0 := rfl
      omega
    obtain ⟨⟨argv, k₁⟩, hmalloc, hcall⟩ := bind_eq_ok_iff.mp hcall
    obtain ⟨f₁, hkeeps₁, -, hargv, -⟩ := h.malloc hsize hmalloc
    dsimp only at hcall
    by_cases h0 : argv = 0
    · rw [if_pos h0] at hcall
      cases hcall
      exact ⟨f₁, hkeeps₁⟩
    · rw [if_neg h0] at hcall
      obtain ⟨hmem, hlive⟩ := hargv h0
      obtain ⟨⟨resLoop, k₂⟩, hloop, hcall⟩ := bind_eq_ok_iff.mp hcall
      obtain ⟨f₂, hkeeps₂⟩ := hkeeps₁.injectArguments hmem hlive
        (by rw [pagesOf, hnat, pagingPageSize]; omega) hloop
      dsimp only at hcall
      by_cases hneg : resLoop < 0
      · rw [if_pos hneg] at hcall
        cases hcall
        exact ⟨f₂, hkeeps₂⟩
      · rw [if_neg hneg, follow_of_some hkeeps₂.process_ne_zero hkeeps₂.owns.recorded] at hcall
        cases hcall
        exact ⟨_, hkeeps₂.setArguments _ argv⟩

theorem Keeps.call
    {call : ProcessCall} (h : Keeps k₀ process f rest os k) (hvalid : call.Valid)
    (hcall : call.run process k = .ok k') :
    ∃ f', Keeps k₀ process f' rest os k' := by
  cases call with
  | malloc size =>
      obtain ⟨⟨p, k₁⟩, hmalloc, heq⟩ := bind_eq_ok_iff.mp hcall
      cases heq
      obtain ⟨f', hkeeps, -⟩ := h.malloc hvalid hmalloc
      exact ⟨f', hkeeps⟩
  | free ptr => exact h.free hvalid hcall
  | injectArguments argc =>
      obtain ⟨⟨res, k₁⟩, hinject, heq⟩ := bind_eq_ok_iff.mp hcall
      cases heq
      exact h.processInjectArguments hvalid hinject

theorem Keeps.calls
    {calls : List ProcessCall} (h : Keeps k₀ process f rest os k)
    (hvalid : ∀ call ∈ calls, call.Valid)
    (hcalls : calls.foldlM (ProcessCall.run process) k = .ok k') :
    ∃ f', Keeps k₀ process f' rest os k' := by
  refine foldlM_invariant (fun _ k => ∃ f', Keeps k₀ process f' rest os k) ?_ ⟨f, h⟩ hcalls
  rintro done call todo k k' hall ⟨f', hkeeps⟩ hcall
  exact hkeeps.call (hvalid call (by rw [hall]; simp)) hcall

/-- One pass of `process_terminate_allocations` clears its entry. -/
theorem Keeps.terminateAllocation
    {i : Nat} (h : Keeps k₀ process f rest os k) (hi : i < maxProgramAllocations) :
    ∃ k' f', processTerminateAllocation process k i = .ok k' ∧ Keeps k₀ process f' rest os k' ∧
      k'.sched = k.sched ∧ f'.task = f.task ∧ (f'.record.allocations i).ptr = 0 ∧
      ∀ j, (f.record.allocations j).ptr = 0 → (f'.record.allocations j).ptr = 0 := by
  rw [processTerminateAllocation, follow_of_some h.process_ne_zero h.owns.recorded, ok_bind]
  by_cases h0 : (f.record.allocations i).ptr = 0
  · rw [if_neg (not_not.mpr h0)]
    exact ⟨k, f, rfl, h, rfl, rfl, h0, fun _ hj => hj⟩
  · rw [if_pos h0]
    obtain ⟨k', hcall⟩ := h.processFree_returns (f.record.allocations i).ptr
    rcases h.processFree h0 hcall with ⟨hout, -⟩ | ⟨f', hkeeps, hfreed⟩
    · exact absurd (mem_allocated.mpr ⟨i, hi, rfl, h0⟩) hout
    · refine ⟨k', f', hcall, hkeeps, hfreed.sched, by rw [hfreed.record], ?_, fun j hj => ?_⟩
      · rw [hfreed.record]
        exact congrArg ProcessAllocation.ptr (if_pos rfl)
      · rw [hfreed.record]
        refine (congrArg ProcessAllocation.ptr ?_).trans hj
        refine if_neg fun heq => h0 (heq.symm.trans hj)

theorem Keeps.terminateAllocations (h : Keeps k₀ process f rest os k) :
    ∃ k' f', k.processTerminateAllocations process = .ok k' ∧ Keeps k₀ process f' rest os k' ∧
      k'.sched = k.sched ∧ f'.task = f.task ∧ allocated f'.record = [] := by
  obtain ⟨k', hloop, f', hkeeps, hsched, htask, hzero⟩ := @foldlM_returns _ _ _
    (processTerminateAllocation process) (List.range maxProgramAllocations)
    (fun done k' => ∃ f', Keeps k₀ process f' rest os k' ∧ k'.sched = k.sched ∧
      f'.task = f.task ∧ ∀ i ∈ done, (f'.record.allocations i).ptr = 0)
    (fun done i todo k₁ hall hk₁ => by
      obtain ⟨f₁, hkeeps₁, hsched₁, htask₁, hdone⟩ := hk₁
      have hi : i ∈ List.range maxProgramAllocations := by rw [hall]; simp
      rw [List.mem_range] at hi
      obtain ⟨k₂, f₂, hcall, hkeeps₂, hsched₂, htask₂, hzero, hold⟩ :=
        hkeeps₁.terminateAllocation hi
      refine ⟨k₂, hcall, f₂, hkeeps₂, hsched₂.trans hsched₁, htask₂.trans htask₁, fun j hj => ?_⟩
      rcases List.mem_append.mp hj with hmem | hlast
      · exact hold j (hdone j hmem)
      · rw [List.mem_singleton.mp hlast]
        exact hzero)
    k ⟨f, h, rfl, rfl, fun _ hi => absurd hi List.not_mem_nil⟩
  refine ⟨k', f', hloop, hkeeps, hsched, htask, List.eq_nil_iff_forall_not_mem.mpr fun p hp => ?_⟩
  obtain ⟨i, hi, heq, hne⟩ := mem_allocated.mp hp
  rw [← List.mem_range] at hi
  exact hne (heq.symm.trans (hzero i hi))

/-- The blocks of a process without allocations, in the order in which they are freed. -/
theorem Keeps.freed_order
    (h : Keeps k₀ process f rest os k) (hnone : allocated f.record = []) :
    Holds k₀ (f.program ++ (f.record.stack ::
      (taskBlocks k.mem f.task f.chunk f.directory ++ process :: rest))) os k := by
  obtain ⟨blocks, hblocks⟩ : ∃ blocks, blocks = taskBlocks k.mem f.task f.chunk f.directory :=
    ⟨_, rfl⟩
  refine h.holds.perm ?_
  rw [Footprint.blocks, hnone, List.nil_append, Footprint.fixed, ← hblocks]
  simp only [List.cons_append, List.append_assoc, List.nil_append]
  refine List.perm_middle.trans ?_
  refine List.Perm.trans ?_ List.perm_middle.symm
  refine List.Perm.cons _ ?_
  rw [← List.append_assoc, ← List.append_assoc]
  exact List.perm_append_comm.append_right _

/-- The program and the stack go; the task is still found. -/
theorem Keeps.freeProgramAndStack
    (h : Keeps k₀ process f rest os k) (hnone : allocated f.record = []) :
    ∃ k₁ k₂, k.processFreeProgramData process = .ok k₁ ∧ k₁.processFreeStack process = .ok k₂ ∧
      Holds k₀ (taskBlocks k.mem f.task f.chunk f.directory ++ process :: rest) os k₂ ∧
      k₂.chunks f.chunk = some f.directory ∧ k₂.sched = k.sched ∧ k₂.mem = k.mem := by
  obtain ⟨blocks, hblocks⟩ : ∃ blocks, blocks = taskBlocks k.mem f.task f.chunk f.directory :=
    ⟨_, rfl⟩
  have hheld := h.freed_order hnone
  rw [← hblocks] at hheld ⊢
  let k₁ := f.program.foldl Kernel.kfree k
  have hsame (b : Ptr) (hb : b ∈ f.record.stack :: (blocks ++ process :: rest)) :
      SameBlock k k₁ b :=
    kfrees_spares k f.program b (hheld.isSome (List.mem_append_right _ hb)) fun hmem =>
      (List.nodup_append.mp hheld.nodup).2.2 b hmem b hb rfl
  have hheld₁ := hheld.kfrees
  let k₂ := (k₁.kfree f.record.stack).setRecord process { f.record with stack := 0 }
  refine ⟨k₁, k₂, ?_, ?_, hheld₁.kfree.congr rfl rfl, ?_, kfrees_sched k f.program,
    kfrees_mem k f.program⟩
  · exact processFreeProgramData_eq h.process_ne_zero h.owns.recorded h.owns.held
      fun b hb => hheld.ne_zero (List.mem_append_left _ hb)
  · have hrecord : k₁.records process = some f.record :=
      (hsame process (by simp)).records.trans h.owns.recorded
    rw [processFreeStack, follow_of_some h.process_ne_zero hrecord, ok_bind,
      if_pos (h.holds.ne_zero (Keeps.mem_fixed (by simp [Footprint.fixed])))]
    rfl
  · have hout : f.chunk ≠ f.record.stack := by
      intro heq
      refine (List.nodup_cons.mp hheld₁.nodup).1 (heq ▸ ?_)
      exact List.mem_append_left _ (by simp [hblocks, taskBlocks])
    refine (if_neg hout).trans ?_
    exact (hsame f.chunk (by simp [hblocks, taskBlocks])).chunks.trans h.owns.chunk

/-- All the blocks of the process are freed as long as its task can leave the
list. -/
theorem Keeps.freeProcess (h : Keeps k₀ process f rest os k) :
    ∃ k₃, Holds k₀ rest os k₃ ∧
      k.processFreeProcess process = (k.sched.taskFree f.task >>= fun sched =>
        .ok { k₃ with sched := sched.setProc process none }) := by
  obtain ⟨k₁, f', hall, hkeeps, hsched, htask, hnone⟩ := h.terminateAllocations
  obtain ⟨k₂, k₃, hdata, hstack, hheld, hchunk, hsched₃, hmem₃⟩ :=
    hkeeps.freeProgramAndStack hnone
  obtain ⟨blocks, hblocks⟩ : ∃ blocks, blocks = taskBlocks k₁.mem f'.task f'.chunk f'.directory :=
    ⟨_, rfl⟩
  have hne (p : Ptr) (hp : p ∈ f'.fixed process k₁.mem) : p ≠ 0 :=
    hkeeps.holds.ne_zero (Keeps.mem_fixed hp)
  obtain ⟨id, hlink⟩ := hkeeps.owns.link
  have hfree : k₃.processFreeTask process = (k₁.sched.taskFree f'.task >>= fun sched =>
      .ok { blocks.foldl Kernel.kfree k₃ with sched := sched }) := by
    have hpaging : k₃.sched.pageDirectoryOf f'.task = some f'.chunk := by
      rw [hsched₃, hkeeps.owns.pageDirectoryOf]
    rw [processFreeTask, follow_of_some hkeeps.process_ne_zero (hsched₃ ▸ hlink), ok_bind,
      if_pos (hne _ (by simp [Footprint.fixed, taskBlocks])),
      taskFree_eq (hne _ (by simp [Footprint.fixed, taskBlocks]))
        (hne _ (by simp [Footprint.fixed, taskBlocks])) hpaging hchunk, hsched₃, hmem₃, ← hblocks]
  rw [← hblocks] at hheld
  refine ⟨(blocks.foldl Kernel.kfree k₃).kfree process, hheld.kfrees.kfree, ?_⟩
  rw [processFreeProcess, hall, ok_bind, hdata, ok_bind, hstack, ok_bind, hfree, hsched, htask]
  cases k.sched.taskFree f.task <;> rfl

/-- Only the process table changes. -/
theorem processUnlink_inv
    {s s' : Sched} (h : s.processUnlink process = .ok s') :
    ∃ processes current, s' = { s with processes := processes, currentProcess := current } := by
  obtain ⟨link, -, h⟩ := bind_eq_ok_iff.mp h
  dsimp only at h
  split_ifs at h with hcurrent
  · rw [Sched.processSwitchToAny] at h
    split at h
    · cases h
      exact ⟨_, _, rfl⟩
    · cases h
  · cases h
    exact ⟨_, _, rfl⟩

theorem Keeps.terminate
    (h : Keeps k₀ process f rest os k) (hcall : k.processTerminate process = .ok k') :
    Holds k₀ rest os k' := by
  obtain ⟨sched, hunlink, hfree⟩ := bind_eq_ok_iff.mp hcall
  obtain ⟨processes, current, rfl⟩ := processUnlink_inv hunlink
  have hkeeps : Keeps k₀ process f rest os
      { k with sched := { k.sched with processes := processes, currentProcess := current } } :=
    h.setSched _ rfl rfl
  obtain ⟨k₃, hheld, heq⟩ := hkeeps.freeProcess
  rw [heq] at hfree
  obtain ⟨sched', -, hok⟩ := bind_eq_ok_iff.mp hfree
  cases hok
  exact hheld.congr rfl rfl

end Calls

end Kernel

end PeachOS
