import PeachOS.Shell.InjectedArguments

/-!
# The process of a command

System call 7 loads the program that the first argument names and gives the new
process the arguments of the shell.
-/

namespace PeachOS

open Lib

namespace Kernel

section Load

variable {k k' : Kernel} {process p : Ptr} {f : Footprint} {os : List Ptr} {S : Ptr → Prop}

/-- The record and the tables of a new process are none of the blocks from before. -/
theorem Loaded.not_mem
    {n : Nat} (h : Loaded k process f os S k') (hlive : k.pool.live p = some n) :
    p ∉ process :: tablesOf k'.mem f.directory := by
  intro hmem
  have hblock := List.mem_append_left os (List.mem_append_left [] (h.keeps.own_mem hmem))
  have hfresh := h.keeps.holds.grown.fresh p hblock
  rw [hlive] at hfresh
  cases hfresh

/-- A load leaves the list of the shell as it is. -/
theorem Loaded.commandList
    {root : Ptr} {ps : List Ptr} {ss : List (List Byte)} (h : Loaded k process f os S k')
    (hinv : k.pool.Inv) (hlist : CommandList k.mem.bytes root ps ss)
    (hss : ∀ s ∈ ss, s.length ≤ 511) (hnodes : ∀ p ∈ ps, k.pool.live p = some 1) :
    CommandList k'.mem.bytes root ps ss ∧
      ∀ p ∈ ps, k'.pool.live p = some 1 ∧ p ∉ process :: tablesOf k'.mem f.directory := by
  obtain ⟨hlist', hlive⟩ := h.spares.commandList hinv hlist hss
    fun p hp => ⟨hnodes p hp, List.not_mem_nil⟩
  exact ⟨hlist', fun p hp => ⟨hlive p hp, h.not_mem (hnodes p hp)⟩⟩

end Load

section Invoke

variable {k₀ k k₁ : Kernel} {shell root process : Ptr} {f : Footprint} {rest os ps : List Ptr}
  {name : List Byte} {ss : List (List Byte)} {load : Loader} {program : Program} {slot fuel : Nat}
  {b : Pool}

/-- An allocation is where the program finds it. -/
theorem Running.physicalAddress
    (h : Running k₀ shell f rest os k) {p : Ptr} {n : Nat} (hp : p ∈ allocated f.record)
    (hlive : k.pool.live p = some n) :
    pagingGetPhysicalAddress k.mem f.directory p = p := by
  have hpos := (h.placed hlive).pages
  have haddress := (h.openPages hp hlive).physicalAddress (d := 0) (by omega)
  rwa [BitVec.add_zero] at haddress

/-- The path of the program. -/
theorem CommandList.path
    {m : Memory} (h : CommandList m root ps (name :: ss)) (hne : name ≠ []) (hs : 0 ∉ name)
    (hlength : name.length ≤ 104) :
    m root ≠ 0 ∧ readString m root (maxPath - 1) = name := by
  cases h with
  | cons _ hargument _ =>
      refine ⟨?_, ?_⟩
      · cases name with
        | nil => exact absurd rfl hne
        | cons c cs =>
            rw [hargument.head]
            exact fun h0 => hs (h0 ▸ List.mem_cons_self)
      · rw [readString_eq hargument hs]
        exact List.take_of_length_le (Nat.le_trans hlength (by decide))

theorem processLoadSwitch_eq
    {path : List Byte} (hslot : k.sched.processGetFreeSlot = some slot)
    (hload : load path k slot = .ok (0, process, k₁)) :
    k.processLoadSwitch load path =
      .ok (0, process, { k₁ with sched := { k₁.sched with currentProcess := process } }) := by
  rw [processLoadSwitch, processLoad, hslot]
  dsimp only
  rw [hload, ok_bind]
  rfl

/-- A new process is switched to with its arguments. -/
structure Started (k : Kernel) (process : Ptr) (f : Footprint) (os : List Ptr)
    (ss : List (List Byte)) (args : List Ptr) (k' : Kernel) : Prop where
  running : Running k process f [] os k'
  arguments : HasArguments k' f ss args
  stack : ∀ i < pagesOf userProgramStackSize,
    pagingGet k'.mem f.directory (pageAt programVirtualStackAddressEnd i) =
      pageAt f.record.stack i ||| 7

/-- The new process gets the arguments and is the current one. -/
theorem Loaded.start
    {S : Ptr → Prop} (h : Loaded k process f os S k₁) (hinv : k.pool.Inv)
    (hlist : CommandList k.mem.bytes root ps ss) (hne : ss ≠ [])
    (hss : ∀ s ∈ ss, s.length ≤ 511 ∧ 0 ∉ s) (hnodes : ∀ p ∈ ps, k.pool.live p = some 1)
    (hgranted : Pool.Granted k₁.pool
      (BitVec.ofNat 32 (4 * ss.length) :: List.replicate ss.length sizeofArgument) b)
    (hentries : ss.length + 1 ≤ maxProgramAllocations) (hfuel : ss.length < fuel) :
    ∃ args f' k₂, processInjectCommandArguments fuel
        { k₁ with sched := { k₁.sched with currentProcess := process } } process root =
          .ok (0, k₂) ∧
      (∃ id, k₂.sched.procs process = some ⟨id, f'.task⟩) ∧
      k₂.sched.taskSwitch f'.task = .ok { k₂.sched with currentTask := f'.task } ∧
      Started k process f' os ss args
        { k₂ with sched := { k₂.sched with currentTask := f'.task } } := by
  obtain ⟨hlist₁, hnodes₁⟩ := h.commandList hinv hlist (fun s hs => (hss s hs).1) hnodes
  let k₁' : Kernel := { k₁ with sched := { k₁.sched with currentProcess := process } }
  have hkeeps : Keeps k process f [] os k₁' := h.keeps.setSched _ rfl rfl
  have hmaps : MapsAllocations k₁' f := ⟨h.mapsAllocations.entry, h.mapsAllocations.allocation⟩
  obtain ⟨args, f', k₂, hinject, hkeeps₂, hmaps₂, hgiven⟩ :=
    @Keeps.processInjectCommandArguments _ k₁' _ _ _ _ _ _ _ b fuel hkeeps hmaps hlist₁ hne hss
      hnodes₁ hgranted (by rw [h.none, List.length_nil]; omega) hfuel
  obtain ⟨record, rfl, hstack⟩ := hgiven.same
  have hprocessOf : k₂.sched.processOf f.task = some process := by
    rw [hgiven.sched]
    exact h.processOf
  obtain ⟨task, htask, -⟩ := Option.map_eq_some_iff.mp hprocessOf
  refine ⟨args, _, k₂, hinject, hkeeps₂.owns.link, ?_, ?_, ?_, ?_⟩
  · rw [Sched.taskSwitch, Sched.task, htask]
    rfl
  · exact ⟨hkeeps₂.setSched _ rfl rfl, ⟨hmaps₂.entry, hmaps₂.allocation⟩, rfl, hprocessOf⟩
  · exact ⟨hgiven.arguments.argc, hgiven.arguments.argv, hgiven.arguments.words,
      hgiven.arguments.strings⟩
  · intro i hi
    refine (hgiven.below _ (pageAligned_pageAt (by decide) i) ?_).trans ?_
    · have hpages : pagesOf userProgramStackSize = 4 := by decide
      have haddress : programVirtualStackAddressEnd.toNat = 0x3FB000 := by decide
      rw [toNat_pageAt, haddress, heapAddress]
      omega
    · dsimp only
      rw [hstack]
      exact h.stack i hi

theorem Running.invokeSystemCommand
    (h : Running k₀ shell f rest os k) (hroot : root ∈ allocated f.record)
    (hlist : CommandList k.mem.bytes root ps (name :: ss))
    (hnodes : ∀ p ∈ ps, k.pool.live p = some 1) (hne : name ≠ []) (hlength : name.length ≤ 104)
    (hss : ∀ s ∈ name :: ss, s.length ≤ 511 ∧ 0 ∉ s)
    (hslot : k.sched.processGetFreeSlot = some slot)
    (hpath : load (driveRoot ++ name) k slot = k.processLoadForSlot program slot)
    (hload : k.processLoadForSlot program slot = .ok (0, process, k₁))
    (hgranted : Pool.Granted k₁.pool (BitVec.ofNat 32 (4 * (name :: ss).length) ::
      List.replicate (name :: ss).length sizeofArgument) b)
    (hentries : (name :: ss).length + 1 ≤ maxProgramAllocations)
    (hfuel : (name :: ss).length < fuel) :
    ∃ f' os' args k', k.isr80hCommand7InvokeSystemCommand load fuel root =
        .ok (.starts f'.task, k') ∧ Started k process f' os' (name :: ss) args k' := by
  have hinv := h.keeps.holds.inv
  obtain ⟨hfirst, hread⟩ := hlist.path hne (hss name List.mem_cons_self).2 hlength
  have hlive : k.pool.live root = some 1 := by
    cases hlist with
    | cons _ _ _ => exact hnodes root List.mem_cons_self
  obtain ⟨f', os', hloaded⟩ := processLoadForSlot_loaded (fun _ _ => True) hinv hload
    fun _ _ _ k₂ f _ _ _ _ _ => Leads.any k₂ f
  obtain ⟨args, f₂, k₂, hinject, ⟨id, hlink⟩, hswitch, hstarted⟩ := hloaded.start hinv hlist
    (List.cons_ne_nil name ss) hss hnodes hgranted hentries hfuel
  refine ⟨f₂, os', args, _, ?_, hstarted⟩
  have hprocess : process ≠ 0 := hloaded.keeps.process_ne_zero
  rw [isr80hCommand7InvokeSystemCommand, h.currentDirectory, ok_bind]
  dsimp only
  rw [h.physicalAddress hroot hlive, if_neg (not_or.mpr ⟨(h.placed hlive).ne_zero, hfirst⟩), hread,
    processLoadSwitch_eq hslot (hpath.trans hload), ok_bind]
  dsimp only
  rw [if_neg (by decide), hinject, ok_bind]
  dsimp only
  rw [if_neg (by decide), follow_of_some hprocess hlink, ok_bind]
  dsimp only
  rw [hswitch]
  rfl

end Invoke

end Kernel

end PeachOS
