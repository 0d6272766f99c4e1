import PeachOS.Shell.SystemRun

/-!
# The arguments that a program receives

What a process that has been started for a command finds behind the `struct
process_arguments` that it gives to system call 8.
-/

namespace PeachOS

open Lib

namespace Kernel

/-- Eight bytes of the stack of a program. -/
def OnProgramStack (addr : Ptr) : Prop :=
  programVirtualStackAddressEnd.toNat ≤ addr.toNat ∧
    addr.toNat + 8 ≤ programVirtualStackAddressState.toNat

/-- The running process finds `argc` and `argv` at `arguments`, and the strings
where `argv` says. -/
def ReceivesArguments (k : Kernel) (arguments : Ptr) (strings : List (List Byte)) : Prop :=
  ∃ argv : Ptr, UserReads k arguments (wordBytes (BitVec.ofNat 32 strings.length)) ∧
    UserReads k (arguments + 4) (wordBytes argv) ∧
    ∀ i s, strings[i]? = some s →
      ∃ arg : Ptr, UserReads k (argv + BitVec.ofNat 32 (4 * i)) (wordBytes arg) ∧
        UserReads k arg (s ++ [0])

theorem OnProgramStack.exists_offset
    {addr : Ptr} (h : OnProgramStack addr) :
    ∃ d, addr = programVirtualStackAddressEnd + BitVec.ofNat 32 d ∧ d + 8 ≤ 16384 := by
  have hend : programVirtualStackAddressEnd.toNat = 0x3FB000 := by decide
  have hstate : programVirtualStackAddressState.toNat = 0x3FF000 := by decide
  obtain ⟨hlo, hhi⟩ := h
  refine ⟨addr.toNat - programVirtualStackAddressEnd.toNat, BitVec.eq_of_toNat_eq ?_, by omega⟩
  rw [BitVec.toNat_add, BitVec.toNat_ofNat]
  omega

section Started

variable {k₀ k : Kernel} {process : Ptr} {f : Footprint} {os args : List Ptr}
  {ss : List (List Byte)}

theorem Running.userReads
    {rest : List Ptr} (h : Running k₀ process f rest os k) {p : Ptr} {n d : Nat}
    (hp : p ∈ allocated f.record) (hlive : k.pool.live p = some n) {bs : List Byte}
    (hbytes : BytesAt k.mem.bytes (p + BitVec.ofNat 32 d) bs) (hroom : d + bs.length ≤ 4096 * n) :
    UserReads k (p + BitVec.ofNat 32 d) bs :=
  (h.openPages hp hlive).userReads h.currentDirectory hbytes hroom

/-- The strings are where `argv` says. -/
theorem Started.userReads
    (h : Started k₀ process f os ss args k) {i : Nat} {s : List Byte} (hi : ss[i]? = some s) :
    ∃ arg : Ptr, UserReads k (f.record.argv + BitVec.ofNat 32 (4 * i)) (wordBytes arg) ∧
      UserReads k arg (s ++ [0]) := by
  obtain ⟨hlt, hget⟩ := List.getElem?_eq_some_iff.mp hi
  obtain ⟨hargv, n, hargvLive, hroom⟩ := h.arguments.argv
  have hstrings := h.arguments.strings
  have hlt' : i < args.length := hstrings.length_eq ▸ hlt
  obtain ⟨harg, hlive, hlength, hbytes⟩ := List.forall₂_iff_get.mp hstrings |>.2 i hlt' hlt
  rw [List.get_eq_getElem, hget] at hlength
  rw [List.get_eq_getElem, List.get_eq_getElem, hget] at hbytes
  refine ⟨args[i], ?_, ?_⟩
  · have hword := h.arguments.words i args[i] (List.getElem?_eq_getElem hlt')
    exact h.running.userReads hargv hargvLive (bytesAt_wordBytes hword)
      (by rw [length_wordBytes]; omega)
  · have hreads := @Running.userReads _ _ _ _ _ _ h.running _ _ 0 harg hlive (s ++ [0])
    rw [List.get_eq_getElem, BitVec.add_zero] at hreads
    refine hreads hbytes ?_
    rw [List.length_append, List.length_singleton]
    omega

theorem Started.stackPages
    (h : Started k₀ process f os ss args k) :
    OpenPages k.mem f.directory programVirtualStackAddressEnd f.record.stack
      (pagesOf userProgramStackSize) where
  alignedVirt := by decide
  alignedPhys := (h.running.placed h.running.keeps.owns.stack).aligned
  entry := h.running.maps.entry
  get := h.stack

/-- What the program puts on its stack makes no difference. -/
theorem Started.writeStack
    (h : Started k₀ process f os ss args k) {m : Memory}
    (hm : ∀ addr, ¬ InBlock f.record.stack (pagesOf userProgramStackSize) addr →
      m addr = k.mem.bytes addr) :
    Started k₀ process f os ss args { k with mem := Pages.ofBytes m } := by
  have hkeeps := h.running.keeps
  obtain ⟨hout, hnot⟩ := hkeeps.stack_out
  have htask := hkeeps.write_task hkeeps.owns.stack hm hout
  obtain ⟨hdirectory, hget⟩ := hkeeps.tables_same htask
  have hspares := write_spares hkeeps.holds.inv hkeeps.owns.stack hm
  have hbytes {p : Ptr} {n : Nat} (hp : p ∈ allocated f.record) (hlive : k.pool.live p = some n)
      {addr : Ptr} (haddr : (addr - p).toNat < 4096 * n) :
      (Pages.ofBytes m).bytes addr = k.mem.bytes addr :=
    hspares.bytes hkeeps.holds.inv hlive
      (fun hmem => hnot (List.mem_singleton.mp hmem ▸ hp)) haddr
  obtain ⟨hargv, n, hargvLive, hroom⟩ := h.arguments.argv
  have hlength := h.arguments.strings.length_eq
  refine ⟨⟨hkeeps.map hdirectory, h.running.maps.same hkeeps htask fun _ _ => rfl,
    h.running.current, h.running.processOf⟩, ⟨h.arguments.argc, h.arguments.argv, ?_, ?_⟩, ?_⟩
  · intro j arg hj
    have hlt : j < args.length := (List.getElem?_eq_some_iff.mp hj).1
    have hupper := (h.running.placed hargvLive).upper
    rw [← h.arguments.words j arg hj]
    refine load32_congr fun b hb => hbytes hargv hargvLive ?_
    unfold heapAddress heapSizeBytes pagingPageSize at hupper
    rw [BitVec.toNat_sub, BitVec.toNat_add, BitVec.toNat_ofNat] at hb
    rw [BitVec.toNat_sub]
    omega
  · refine h.arguments.strings.imp fun arg s ⟨harg, hlive, hlength, hstring⟩ =>
      ⟨harg, hlive, hlength, hstring.congr fun b hb => hbytes harg hlive ?_⟩
    rw [List.length_append, List.length_singleton] at hb
    omega
  · intro i hi
    rw [hget _ (pageAligned_pageAt (by decide) i)]
    exact h.stack i hi

/-- System call 8 writes `argc` and `argv` to the stack of the program. -/
theorem Started.getProgramArguments
    (h : Started k₀ process f os ss args k) {arguments : Ptr}
    (harguments : OnProgramStack arguments) :
    ∃ k', k.isr80hCommand8GetProgramArguments arguments = .ok k' ∧
      ReceivesArguments k' arguments ss := by
  obtain ⟨d, rfl, hd⟩ := harguments.exists_offset
  have hpages : pagesOf userProgramStackSize = 4 := by decide
  have hkeeps := h.running.keeps
  have hplaced := h.running.placed hkeeps.owns.stack
  obtain ⟨task, htask, hprocess, -⟩ := h.running.taskCurrent
  have hnext (a : Ptr) : a + BitVec.ofNat 32 d + 4 = a + BitVec.ofNat 32 (d + 4) := by
    rw [BitVec.ofNat_add, ← BitVec.add_assoc]
    rfl
  let m₁ := store32 k.mem.bytes (f.record.stack + BitVec.ofNat 32 d) f.record.argc
  let m₂ := store32 m₁ (f.record.stack + BitVec.ofNat 32 (d + 4)) f.record.argv
  let k' : Kernel := { k with mem := Pages.ofBytes m₂ }
  have hm (addr : Ptr) (haddr : ¬ InBlock f.record.stack (pagesOf userProgramStackSize) addr) :
      m₂ addr = k.mem.bytes addr := by
    have h₁ : m₁ addr = k.mem.bytes addr := by
      rw [show m₁ = _ from store32_eq_storeBytes _ _ _]
      exact hplaced.storeBytes _ (by rw [length_wordBytes]; omega) haddr
    rw [← h₁, show m₂ = _ from store32_eq_storeBytes _ _ _]
    exact hplaced.storeBytes _ (by rw [length_wordBytes]; omega) haddr
  have hstarted : Started k₀ process f os ss args k' := h.writeStack hm
  have hargv : load32 k'.mem.bytes (f.record.stack + BitVec.ofNat 32 (d + 4)) = f.record.argv := by
    rw [show k'.mem.bytes = m₂ from Pages.bytes_ofBytes m₂]
    exact load32_store32_same _ _ _
  have hargc : load32 k'.mem.bytes (f.record.stack + BitVec.ofNat 32 d) = f.record.argc := by
    rw [show k'.mem.bytes = m₂ from Pages.bytes_ofBytes m₂]
    have hupper := hplaced.upper
    unfold heapAddress heapSizeBytes pagingPageSize at hupper
    refine (load32_store32_of_le _ _ ?_ ?_).trans (load32_store32_same _ _ _)
    · rw [Below, BitVec.toNat_add, BitVec.toNat_add, BitVec.toNat_ofNat, BitVec.toNat_ofNat]
      omega
    · rw [BitVec.toNat_add, BitVec.toNat_ofNat]
      omega
  have hreads {e : Nat} {v : Word} (he : e + 4 ≤ 16384)
      (hword : load32 k'.mem.bytes (f.record.stack + BitVec.ofNat 32 e) = v) :
      UserReads k' (programVirtualStackAddressEnd + BitVec.ofNat 32 e) (wordBytes v) :=
    hstarted.stackPages.userReads hstarted.running.currentDirectory (bytesAt_wordBytes hword)
      (by rw [length_wordBytes]; omega)
  refine ⟨k', ?_, f.record.argv, ?_, ?_, fun i s hi => hstarted.userReads hi⟩
  · rw [isr80hCommand8GetProgramArguments, htask, ok_bind, h.running.currentDirectory, ok_bind]
    dsimp only
    rw [h.stackPages.physicalAddress (by omega), hprocess,
      follow_of_some hkeeps.process_ne_zero hkeeps.owns.recorded, ok_bind, hnext]
    rfl
  · rw [← h.arguments.argc]
    exact hreads (by omega) hargc
  · rw [hnext]
    exact hreads (by omega) hargv

end Started

/-- The program of a command is started, and receives the tokens of the line. -/
def DeliversArguments (k : Kernel) (load : Loader) (fuel : Nat) (line : List Byte) : Prop :=
  ∃ task k', k.peachosSystemRun load fuel none line = .ok (.starts task, none, k') ∧
    k'.sched.currentTask = task ∧
    ∀ arguments, OnProgramStack arguments →
      ∃ k'', k'.isr80hCommand8GetProgramArguments arguments = .ok k'' ∧
        ReceivesArguments k'' arguments ((tokens line).map cut)

/-- A program that is started for a line of the shell receives the tokens of the line. -/
theorem systemRun_receivesArguments
    {k₀ k : Kernel} {shell : Ptr} {f : Footprint} {rest os : List Ptr} {line : List Byte}
    {load : Loader} {program : Program} {slot fuel : Nat} {b : Pool}
    (h : Running k₀ shell f rest os k) (hnul : 0 ∉ line) (hlength : line.length ≤ 1023)
    (hspace : ∃ c ∈ line, c ≠ space) (hname : ∀ name ∈ (tokens line).head?, name.length ≤ 104)
    (hgranted : Pool.Granted k.pool
      (List.replicate (tokens line).length sizeofCommandArgument) b)
    (hentries : (allocated f.record).length + (tokens line).length ≤ maxProgramAllocations)
    (hslot : k.sched.processGetFreeSlot = some slot)
    (hpath : ∀ name ∈ (tokens line).head?, ∀ k',
      load (driveRoot ++ name) k' slot = k'.processLoadForSlot program slot)
    (hload : ∀ root k₁, k.peachosParseCommand none line 1024 = .ok (root, none, k₁) →
      ∃ process k₂ b', k₁.processLoadForSlot program slot = .ok (0, process, k₂) ∧
        Pool.Granted k₂.pool (BitVec.ofNat 32 (4 * (tokens line).length) ::
          List.replicate (tokens line).length sizeofArgument) b')
    (hfuel : (tokens line).length < fuel) :
    DeliversArguments k load fuel line := by
  obtain ⟨root, ps, f₁, k₁, hparse, hroot, hrunning, hparsed⟩ :=
    h.peachosParseCommand (Nat.le_succ_of_le hlength) (tokens_ne_nil hspace) hgranted hentries
  obtain ⟨process, k₂, b', hprocess, hgranted'⟩ := hload root k₁ hparse
  have hcount := length_tokens_le line
  have hss (s : List Byte) (hs : s ∈ (tokens line).map cut) : s.length ≤ 511 ∧ 0 ∉ s := by
    obtain ⟨token, htoken, rfl⟩ := List.mem_map.mp hs
    exact ⟨length_cut_le token, fun h0 =>
      hnul (subset_of_mem_tokens htoken (List.mem_of_mem_take h0))⟩
  have hlist := hparsed.list
  rw [DeliversArguments]
  cases htokens : tokens line with
  | nil => exact absurd htokens (tokens_ne_nil hspace)
  | cons name names =>
      rw [htokens] at hname hpath hcount hgranted' hfuel hlist hss
      have hlength' : name.length ≤ 104 := hname name rfl
      have hcut : cut name = name := List.take_of_length_le (by omega)
      have hne : name ≠ [] := ne_nil_of_mem_tokens (htokens ▸ List.mem_cons_self)
      have hmap : (names.map cut).length = names.length := List.length_map cut
      rw [List.map_cons, hcut] at hlist hss ⊢
      rw [List.length_cons, ← hmap] at hgranted' hfuel hcount
      obtain ⟨f', os', args, k', hcall, hstarted⟩ := hrunning.invokeSystemCommand hparsed.root_mem
        hlist hparsed.live hne hlength' hss (hparsed.sched ▸ hslot) (hpath name rfl k₁) hprocess
        hgranted' (by rw [List.length_cons]; unfold maxProgramAllocations; omega) hfuel
      refine ⟨f'.task, k', ?_, hstarted.running.current,
        fun arguments harguments => hstarted.getProgramArguments harguments⟩
      rw [peachosSystemRun, show strncpyString line 1024 = line from List.take_of_length_le hlength,
        hparse, ok_bind]
      dsimp only
      rw [if_neg hroot, hcall]
      rfl

/-- A disk with one program in its root. -/
def oneProgram (name : List Byte) (program : Program) : Loader := fun path k slot =>
  if path = driveRoot ++ name then k.processLoadForSlot program slot else .ok (-eio, 0, k)

/-- A shell that has just been loaded, with memory for a program and its arguments. -/
theorem exists_shell :
    ∃ k₀ shell f os k, Running k₀ shell f [] os k ∧ Pool.HasSpace 4 k.pool 5360 ∧
      allocated f.record = [] ∧ k.sched.Live k.sched.taskTail ∧
      ∃ slot, k.sched.processGetFreeSlot = some slot := by
  let k₀ : Kernel := blank 6400
  have hinv : k₀.pool.Inv := Pool.packed_inv (by decide)
  obtain ⟨shell, k₁, hload, hspace⟩ := @processLoadForSlot_oneByte k₀ 5360 0
    (Pool.packed_hasSpace (by decide)) hinv rfl (Or.inl rfl)
  obtain ⟨f, os, hloaded⟩ := processLoadForSlot_loaded (fun _ _ => True) hinv hload
    fun _ _ _ k₂ f _ _ _ _ _ => Leads.any k₂ f
  have hfree : k₁.sched.processes 1 = 0 := processLoadForSlot_processes hinv hload (by decide)
  have hlive : k₁.sched.Live k₁.sched.taskTail := by
    rw [hloaded.tail, Sched.live_iff_exists_processOf]
    exact ⟨shell, hloaded.processOf⟩
  refine ⟨k₀, shell, f, os, _, hloaded.running, hspace, hloaded.none, hlive, ?_⟩
  refine Option.isSome_iff_exists.mp (List.find?_isSome.mpr ⟨1, List.mem_range.mpr (by decide), ?_⟩)
  exact decide_eq_true hfree

/-- The program of one byte is loaded, and its process has memory for two arguments. -/
theorem Running.loads_oneByte
    {k₀ k : Kernel} {shell : Ptr} {f : Footprint} {rest os : List Ptr} {slot : Nat}
    (h : Running k₀ shell f rest os k) (hspace : Pool.HasSpace 4 k.pool 5358)
    (htail : k.sched.Live k.sched.taskTail) (hslot : k.sched.processGetFreeSlot = some slot) :
    ∃ process k₁ b, k.processLoadForSlot oneByte slot = .ok (0, process, k₁) ∧
      Pool.Granted k₁.pool (BitVec.ofNat 32 (4 * 2) :: List.replicate 2 sizeofArgument) b := by
  obtain ⟨process, k₁, hload, hspace₁⟩ := @processLoadForSlot_oneByte k 4318 slot hspace
    h.keeps.holds.inv
    (of_decide_eq_true (Sched.findSlot_eq_some hslot).2) (Or.inr htail)
  obtain ⟨b, hgranted, -⟩ := @Pool.HasSpace.granted k₁.pool 4 4315
    (BitVec.ofNat 32 (4 * 2) :: List.replicate 2 sizeofArgument) hspace₁
    fun size hsize => by
      rcases List.mem_cons.mp hsize with rfl | hsize
      · decide
      · rw [List.eq_of_mem_replicate hsize]
        decide
  exact ⟨process, k₁, b, hload, hgranted⟩

/-- `a b`, typed at a shell. -/
theorem systemRun_receivesArguments_ab :
    ∃ k : Kernel, DeliversArguments k (oneProgram [97] oneByte) 3 [97, space, 98] := by
  obtain ⟨k₀, shell, f, os, k, hrunning, hspace, hnone, hlive, slot, hslot⟩ := exists_shell
  have htokens : tokens [97, space, 98] = [[97], [98]] := by decide
  have hlength : (tokens [97, space, 98]).length = 2 := congrArg List.length htokens
  have hspaces : ∃ c ∈ ([97, space, 98] : List Byte), c ≠ space := ⟨97, by decide, by decide⟩
  obtain ⟨b, hgranted, hspace₁⟩ := @Pool.HasSpace.granted k.pool 4 5358
    (List.replicate 2 sizeofCommandArgument) hspace
    fun size hsize => by rw [List.eq_of_mem_replicate hsize]; decide
  rw [← hlength] at hgranted
  have hentries : (allocated f.record).length + (tokens [97, space, 98]).length ≤
      maxProgramAllocations := by
    rw [hnone, hlength]
    decide
  have hload (root : Ptr) (k₁ : Kernel)
      (hparse : k.peachosParseCommand none [97, space, 98] 1024 = .ok (root, none, k₁)) :
      ∃ process k₂ b', k₁.processLoadForSlot oneByte slot = .ok (0, process, k₂) ∧
        Pool.Granted k₂.pool (BitVec.ofNat 32 (4 * (tokens [97, space, 98]).length) ::
          List.replicate (tokens [97, space, 98]).length sizeofArgument) b' := by
    obtain ⟨_, _, _, _, hparse', -, hrunning₁, hparsed⟩ :=
      hrunning.peachosParseCommand (by decide) (tokens_ne_nil hspaces) hgranted hentries
    cases hparse'.symm.trans hparse
    rw [hlength]
    exact hrunning₁.loads_oneByte (hparsed.pool ▸ hspace₁) (hparsed.sched ▸ hlive)
      (hparsed.sched ▸ hslot)
  exact ⟨k, @systemRun_receivesArguments k₀ k shell f [] os [97, space, 98]
    (oneProgram [97] oneByte) oneByte slot 3 b hrunning (by decide) (by decide) hspaces
    (by rw [htokens]; decide) hgranted hentries hslot
    (fun name hname k' => by
      rw [htokens] at hname
      cases hname
      exact if_pos rfl)
    hload (by rw [hlength]; decide)⟩

end Kernel

end PeachOS
