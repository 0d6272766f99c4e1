import Mathlib.Data.List.FinRange
import PeachOS.Config
import PeachOS.Lib.Gates
import PeachOS.Task.Syscall

/-!
# The interrupt descriptor table

`idt_init` and `idt_set` of `idt.c`, the callbacks of the interrupts and the
commands of `int 0x80`.  The table is read back by the processor: every vector
of it leads to its stub in ring 0, also for a program that raises it itself.
-/

namespace PeachOS

open Lib Lib.Machine

/-- `PEACHOS_TOTAL_INTERRUPTS`. -/
abbrev totalInterrupts : Nat := 512

/-- `PEACHOS_MAX_ISR80H_COMMANDS`. -/
abbrev maxIsr80hCommands : Nat := 1024

/-- `struct idt_desc`. -/
structure IdtDesc where
  offset1 : Half
  selector : Half
  zero : Byte
  typeAttr : Byte
  offset2 : Half

def IdtDesc.bytes (desc : IdtDesc) : List Byte :=
  halfBytes desc.offset1 ++ halfBytes desc.selector ++ [desc.zero, desc.typeAttr] ++
    halfBytes desc.offset2

/-- Where the linker puts the code that the table leads to. -/
structure EntryPoints where
  interruptPointerTable : Fin totalInterrupts → Ptr
  idtZero : Ptr
  isr80hWrapper : Ptr

/-- `idtr_descriptor`. -/
def idtrDescriptor (idt : Ptr) : Idtr where
  limit := BitVec.ofNat 16 (8 * totalInterrupts - 1)
  base := idt

/-- The stack that `kernel_main` puts in the `tss`. -/
def tss : Ring0 := ⟨kernelStack, kernelDataSelector⟩

/-- A gate to the kernel that every program may use. -/
def kernelGate (address : Ptr) : Gate := ⟨address, 0x08, 0xEE⟩

section Table

variable {idt : Ptr} (hroom : idt.toNat + 8 * totalInterrupts ≤ 2 ^ 32)

include hroom

theorem toNat_gateAddress
    {n : Nat} (hn : n < totalInterrupts) :
    (gateAddress idt n).toNat = idt.toNat + 8 * n := by
  unfold totalInterrupts at hroom hn
  rw [gateAddress, BitVec.toNat_add, BitVec.toNat_ofNat]
  omega

end Table

/-- The code that a vector leads to. -/
def EntryPoints.entry (entries : EntryPoints) (n : Fin totalInterrupts) : Ptr :=
  if n = 0x80 then entries.isr80hWrapper
  else if n = 0 then entries.idtZero
  else entries.interruptPointerTable n

/-- The memory holds the table that `idt_init` made. -/
def KeepsIdt (idt : Ptr) (entries : EntryPoints) (mem : Memory) : Prop :=
  ∀ n : Fin totalInterrupts, gateAt mem (gateAddress idt n) = kernelGate (entries.entry n)

theorem kernelGate_dpl (address : Ptr) : (kernelGate address).dpl = 3 := by
  change ((0xEE : Byte).extractLsb' 5 2).toNat = 3
  decide

theorem kernelGate_isInterrupt (address : Ptr) : (kernelGate address).IsInterrupt := by
  change (0xEE : Byte) &&& 0x9F = 0x8E
  decide

theorem ring_le_three (m : Machine) : m.ring ≤ 3 :=
  Nat.le_of_lt_succ (m.cs.extractLsb' 0 2).isLt

/-- Every vector is admitted from every ring. -/
theorem raise_eq
    {idt : Ptr} {entries : EntryPoints} {m : Machine} (h : KeepsIdt idt entries m.mem)
    (cause : Cause) (n : Nat) :
    m.raise (idtrDescriptor idt) tss cause n =
      if hn : n < 256 then
        let t := m.enter tss (kernelGate (entries.entry ⟨n, Nat.lt_of_lt_of_le hn (by decide)⟩))
        some ((cause.code? n).elim t t.push)
      else
        none := by
  have hlimit : (idtrDescriptor idt).limit.toNat = 8 * totalInterrupts - 1 :=
    Nat.mod_eq_of_lt (by decide)
  rw [raise, hlimit]
  by_cases hn : n < 256
  · have hlt : n < totalInterrupts := Nat.lt_of_lt_of_le hn (by decide)
    rw [if_pos ⟨hn, by unfold totalInterrupts; omega⟩, dif_pos hn]
    dsimp only
    rw [show (idtrDescriptor idt).base = idt from rfl, h ⟨n, hlt⟩, kernelGate_dpl]
    exact if_pos ⟨kernelGate_isInterrupt _, fun _ => ring_le_three m⟩
  · rw [if_neg fun h => hn h.1, dif_neg hn]

/-- What a handler finds in the frame for the registers of a program.  With an error code, which
no stub takes off the stack, the words of the processor are one field behind. -/
def frameRegister (u : Machine) (code : Option Word) (f : Field) : Word :=
  match code, f with
  | some code, .ip => code
  | some _, .cs => u.eip
  | some _, .flags => u.cs
  | some _, .esp => u.eflags
  | some _, .ss => u.reg .esp
  | _, f => userRegister u f

/-- What runs first at a vector that is raised in user mode. -/
structure VectorEntered (u m : Machine) (entries : EntryPoints) (n : Fin totalInterrupts)
    (code : Option Word) : Prop where
  eip : m.eip = entries.entry n
  ring : m.ring = 0
  interruptsOff : m.eflags &&& 0x200 = 0
  /-- The words of the processor are on the stack of the kernel. -/
  stack : Stack m 0 (code.toList ++ [u.eip, u.cs, u.eflags, u.reg .esp, u.ss])
  keeps : KeepsFrom kernelStack.toNat u.mem m.mem
  /-- The stubs call their handlers with their number and the frame. -/
  stub : n ≠ 0 → n ≠ 0x80 → (m.steps (interruptPushes (BitVec.ofNat 32 n))).top =
      BitVec.ofNat 32 n ∧
    ∀ f ∈ registersLayout, frameAt (m.steps (interruptPushes (BitVec.ofNat 32 n))).mem
      (Context.frameArgument (m.steps (interruptPushes (BitVec.ofNat 32 n)))) f =
        frameRegister u code f
  /-- Without an error code it is what the tasks are resumed from. -/
  entered : n ≠ 0 → n ≠ 0x80 → code = none →
    Entered u (m.steps (interruptPushes (BitVec.ofNat 32 n))) (BitVec.ofNat 32 n)
  wrapper : n = 0x80 → code = none → Entered u (m.steps isr80hPushes) (u.reg .eax)

/-- A vector without an error code. -/
theorem enter_user
    {u : Machine} (hring : u.ring ≠ 0) (entries : EntryPoints) (n : Fin totalInterrupts) :
    VectorEntered u (u.enter tss (kernelGate (entries.entry n))) entries n none := by
  have henter : u.enter tss (kernelGate (entries.entry n)) =
      { u.interrupt kernelCodeSelector kernelDataSelector kernelStack with
        eip := entries.entry n } := by
    rw [enter, if_neg hring]
    rfl
  rw [henter]
  have hstack := interrupt_stack u kernelCodeSelector kernelDataSelector
    (by decide : 0 + 20 ≤ kernelStack.toNat)
  have hkeeps := interrupt_keeps u kernelCodeSelector kernelDataSelector
    (by decide : 20 ≤ kernelStack.toNat)
  obtain ⟨htop, hargument, hesp, hwords, hkeeps', hcs⟩ :=
    enterInterrupt_spec u (BitVec.ofNat 32 n)
  refine ⟨rfl, ?_, ?_, ⟨hstack.words, hstack.room, hstack.below⟩, hkeeps, fun _ _ => ⟨htop, ?_⟩,
    fun _ _ _ => ⟨htop, hargument, hesp, hwords, hkeeps', hcs⟩, fun _ _ => ?_⟩
  · change (kernelCodeSelector.extractLsb' 0 2).toNat = 0
    decide
  · change u.eflags &&& ~~~0x200 &&& 0x200 = 0
    rw [BitVec.and_assoc]
    exact BitVec.and_zero
  · intro f hf
    refine (congrArg (frameAt _ · f) hargument).trans ((frameAt_eq hwords hf).trans ?_)
    cases f <;> rfl
  · obtain ⟨htop, hargument, hesp, hwords, hkeeps', hcs⟩ := enterInterrupt_spec u (u.reg .eax)
    exact ⟨htop, hargument, hesp, hwords, hkeeps', hcs⟩

theorem gateAt_congr
    {mem mem' : Memory} {a : Ptr} (h : ∀ b : Ptr, (b - a).toNat < 8 → mem' b = mem b) :
    gateAt mem' a = gateAt mem a := by
  have hk (k : Ptr) (hlt : k.toNat < 8) : mem' (a + k) = mem (a + k) :=
    h (a + k) (by rwa [BitVec.add_comm, BitVec.add_sub_cancel])
  have h0 : mem' a = mem a := h a (by rw [BitVec.sub_self]; decide)
  unfold gateAt loadHalf
  rw [h0, hk 1 (by decide), hk 5 (by decide), hk 2 (by decide), hk 6 (by decide)]
  rw [BitVec.add_assoc a 6, BitVec.add_assoc a 2, hk (6 + 1) (by decide), hk (2 + 1) (by decide)]

theorem KeepsIdt.of_below
    {idt : Ptr} {entries : EntryPoints} {mem mem' : Memory} (h : KeepsIdt idt entries mem)
    (hroom : idt.toNat + 8 * totalInterrupts ≤ 2 ^ 32)
    (hkept : ∀ b : Ptr, (b - idt).toNat < 8 * totalInterrupts → mem' b = mem b) :
    KeepsIdt idt entries mem' := by
  intro i
  rw [← h i]
  refine gateAt_congr fun b hb => hkept b ?_
  have hgate := toNat_gateAddress hroom i.isLt
  have hlt := i.isLt
  unfold totalInterrupts at *
  have hbounds := toNat_of_sub_lt hb (by omega)
  rw [BitVec.toNat_sub]
  omega

/-- The functions that are registered for interrupts. -/
inductive InterruptCallback where
  | idtHandlerException
  | idtClock
  | classicKeyboardHandleInterrupt
deriving DecidableEq

/-- `interrupt_callbacks`. -/
abbrev InterruptCallbacks := Fin totalInterrupts → Option InterruptCallback

def idtRegisterInterruptCallback
    (callbacks : InterruptCallbacks) (interrupt : Int) (callback : InterruptCallback) :
    Int × InterruptCallbacks :=
  if h : interrupt < 0 ∨ interrupt ≥ totalInterrupts then
    (-einvarg, callbacks)
  else
    (0, Function.update callbacks ⟨interrupt.toNat, by omega⟩ (some callback))

/-- What `idt_init` registers. -/
def idtInitCallbacks (callbacks : InterruptCallbacks) : InterruptCallbacks :=
  let callbacks := (List.range 0x20).foldl
    (fun callbacks (i : Nat) =>
      (idtRegisterInterruptCallback callbacks i .idtHandlerException).2) callbacks
  (idtRegisterInterruptCallback callbacks 0x20 .idtClock).2

/-- A registration adds nothing but its callback. -/
theorem idtRegisterInterruptCallback_eq_some
    {callbacks : InterruptCallbacks} {interrupt : Int} {callback c : InterruptCallback}
    {n : Fin totalInterrupts}
    (h : (idtRegisterInterruptCallback callbacks interrupt callback).2 n = some c) :
    c = callback ∨ callbacks n = some c := by
  rw [idtRegisterInterruptCallback] at h
  split_ifs at h with hout
  · exact Or.inr h
  · by_cases hn : n = ⟨interrupt.toNat, by omega⟩
    · dsimp only at h
      rw [hn, Function.update_self] at h
      exact Or.inl (Option.some.inj h).symm
    · exact Or.inr ((Function.update_of_ne hn _ _).symm.trans h)

theorem idtInitCallbacks_eq_some
    {callbacks : InterruptCallbacks} {c : InterruptCallback} {n : Fin totalInterrupts}
    (h : idtInitCallbacks callbacks n = some c) :
    c ≠ .classicKeyboardHandleInterrupt ∨ callbacks n = some c := by
  have hloop : ∀ is : List Nat, ∀ {c n},
      is.foldl (fun callbacks (i : Nat) =>
        (idtRegisterInterruptCallback callbacks i .idtHandlerException).2) callbacks n = some c →
      c ≠ .classicKeyboardHandleInterrupt ∨ callbacks n = some c := by
    intro is
    induction is using List.reverseRecOn with
    | nil => exact fun h => Or.inr h
    | append_singleton is i ih =>
        intro c n h
        rw [List.foldl_append, List.foldl_cons, List.foldl_nil] at h
        rcases idtRegisterInterruptCallback_eq_some h with rfl | h
        · exact Or.inl (by decide)
        · exact ih h
  rcases idtRegisterInterruptCallback_eq_some h with rfl | h
  · exact Or.inl (by decide)
  · exact hloop _ h

/-- The functions that `isr80h_register_commands` names. -/
inductive Isr80hCommand where
  | sum | print | getkey | putchar | malloc | free | processLoadStart | invokeSystemCommand
  | getProgramArguments | exit
deriving DecidableEq

/-- `isr80h_commands`. -/
abbrev Isr80hCommands := Fin maxIsr80hCommands → Option Isr80hCommand

/-- The entry of a command number, if it has one. -/
def commandSlot (command : Int) : Option (Fin maxIsr80hCommands) :=
  if h : command < 0 ∨ command ≥ maxIsr80hCommands then none
  else some ⟨command.toNat, by omega⟩

def isr80hRegisterCommand
    (commands : Isr80hCommands) (commandId : Int) (command : Isr80hCommand) :
    Except Halt Isr80hCommands :=
  match commandSlot commandId with
  | none => .error .panic
  | some slot =>
      if (commands slot).isSome then .error .panic
      else .ok (Function.update commands slot (some command))

def registerCommands
    (commands : Isr80hCommands) : List (Int × Isr80hCommand) → Except Halt Isr80hCommands
  | [] => .ok commands
  | (commandId, command) :: rest => do
      let commands ← isr80hRegisterCommand commands commandId command
      registerCommands commands rest

/-- The calls of `isr80h_register_commands`, under the numbers of `isr80h.h`. -/
def isr80hRegisterCommands (commands : Isr80hCommands) : Except Halt Isr80hCommands :=
  registerCommands commands
    [(0, .sum), (1, .print), (2, .getkey), (3, .putchar), (4, .malloc), (5, .free),
      (6, .processLoadStart), (7, .invokeSystemCommand), (8, .getProgramArguments), (9, .exit)]

/-- The function that `isr80h_handler_command` calls; without one it returns 0. -/
def isr80hCommandFunc (commands : Isr80hCommands) (command : Int) : Option Isr80hCommand :=
  (commandSlot command).bind commands

theorem commandSlot_inj
    {c d : Int} {slot : Fin maxIsr80hCommands}
    (hc : commandSlot c = some slot) (hd : commandSlot d = some slot) :
    c = d := by
  unfold commandSlot at hc hd
  split_ifs at hc hd with hoc hod
  have hval := congrArg Fin.val ((Option.some.inj hc).trans (Option.some.inj hd).symm)
  dsimp only at hval
  omega

theorem commandSlot_isSome_iff
    (command : Int) :
    (commandSlot command).isSome ↔ 0 ≤ command ∧ command < maxIsr80hCommands := by
  unfold commandSlot
  split_ifs with h
  · exact iff_of_false (by decide) (by omega)
  · exact iff_of_true rfl (by omega)

theorem isr80hRegisterCommand_ok
    {commands commands' : Isr80hCommands} {commandId : Int} {command : Isr80hCommand}
    (h : isr80hRegisterCommand commands commandId command = .ok commands') (c : Int) :
    (commandSlot commandId).isSome ∧ isr80hCommandFunc commands commandId = none ∧
      isr80hCommandFunc commands' c =
        if c = commandId then some command else isr80hCommandFunc commands c := by
  rw [isr80hRegisterCommand] at h
  cases hslot : commandSlot commandId with
  | none =>
      rw [hslot] at h
      cases h
  | some slot =>
      rw [hslot] at h
      dsimp only at h
      split_ifs at h with hsome
      obtain rfl := Except.ok.inj h
      refine ⟨rfl, ?_, ?_⟩
      · rw [isr80hCommandFunc, hslot, Option.bind_some]
        exact Option.not_isSome_iff_eq_none.mp hsome
      · by_cases hc : c = commandId
        · rw [if_pos hc, hc, isr80hCommandFunc, hslot, Option.bind_some, Function.update_self]
        · rw [if_neg hc, isr80hCommandFunc, isr80hCommandFunc]
          cases hother : commandSlot c with
          | none => rfl
          | some other =>
              rw [Option.bind_some, Option.bind_some]
              refine Function.update_of_ne (fun heq => hc ?_) _ _
              exact commandSlot_inj hother (heq ▸ hslot)

/-- A number that is free can be registered, and no other. -/
theorem isr80hRegisterCommand_isOk_iff
    (commands : Isr80hCommands) (commandId : Int) (command : Isr80hCommand) :
    (∃ commands', isr80hRegisterCommand commands commandId command = .ok commands') ↔
      (0 ≤ commandId ∧ commandId < maxIsr80hCommands) ∧
        isr80hCommandFunc commands commandId = none := by
  rw [← commandSlot_isSome_iff, isr80hRegisterCommand, isr80hCommandFunc]
  cases hslot : commandSlot commandId with
  | none => simp
  | some slot =>
      dsimp only
      cases hold : commands slot with
      | none => simp [hold]
      | some old => simp [hold]

/-- What a list of registrations makes of a table. -/
theorem registerCommands_spec
    (registrations : List (Int × Isr80hCommand)) (commands : Isr80hCommands) :
    ((∃ commands', registerCommands commands registrations = .ok commands') ↔
      (∀ r ∈ registrations, (0 ≤ r.1 ∧ r.1 < maxIsr80hCommands) ∧
        isr80hCommandFunc commands r.1 = none) ∧ (registrations.map Prod.fst).Nodup) ∧
    ∀ commands', registerCommands commands registrations = .ok commands' →
      ∀ c, isr80hCommandFunc commands' c =
        (registrations.lookup c).or (isr80hCommandFunc commands c) := by
  induction registrations generalizing commands with
  | nil =>
      refine ⟨iff_of_true ⟨commands, rfl⟩ ⟨by simp, List.nodup_nil⟩, fun commands' h c => ?_⟩
      obtain rfl := Except.ok.inj h
      rfl
  | cons r rest ih =>
      obtain ⟨commandId, command⟩ := r
      rw [registerCommands, List.map_cons, List.nodup_cons, List.forall_mem_cons]
      have hfree := isr80hRegisterCommand_isOk_iff commands commandId command
      cases hfirst : isr80hRegisterCommand commands commandId command with
      | error e =>
          rw [hfirst] at hfree
          have hnot := hfree.not.mp (by rintro ⟨_, h⟩; cases h)
          refine ⟨iff_of_false ?_ fun h => hnot h.1.1, fun commands' h => ?_⟩
          · rintro ⟨_, h⟩
            cases h
          · cases h
      | ok middle =>
          have hmiddle := isr80hRegisterCommand_ok hfirst
          obtain ⟨hok, hdispatch⟩ := ih middle
          have hrange := hfree.mp ⟨middle, hfirst⟩
          refine ⟨?_, fun commands' h c => ?_⟩
          · rw [ok_bind, hok]
            constructor
            · rintro ⟨hrest, hnodup⟩
              have hnew : ∀ r ∈ rest, r.1 ≠ commandId := by
                intro r hr heq
                have hnone := (hrest r hr).2
                rw [(hmiddle r.1).2.2, if_pos heq] at hnone
                cases hnone
              refine ⟨⟨hrange, fun r hr => ⟨(hrest r hr).1, ?_⟩⟩, ?_, hnodup⟩
              · have hnone := (hrest r hr).2
                rwa [(hmiddle r.1).2.2, if_neg (hnew r hr)] at hnone
              · intro hmem
                obtain ⟨r, hr, heq⟩ := List.mem_map.mp hmem
                exact hnew r hr heq
            · rintro ⟨⟨-, hrest⟩, hnew, hnodup⟩
              refine ⟨fun r hr => ⟨(hrest r hr).1, ?_⟩, hnodup⟩
              rw [(hmiddle r.1).2.2, if_neg]
              · exact (hrest r hr).2
              · exact fun heq => hnew (List.mem_map.mpr ⟨r, hr, heq⟩)
          · rw [ok_bind] at h
            rw [hdispatch commands' h c, (hmiddle c).2.2, List.lookup_cons]
            by_cases hc : c = commandId
            · subst hc
              have hlookup : rest.lookup c = none := by
                refine List.lookup_eq_none_iff.mpr fun r hr => ?_
                have hnone := ((hok.mp ⟨commands', h⟩).1 r hr).2
                rw [(hmiddle r.1).2.2] at hnone
                refine bne_iff_ne.mpr fun heq => ?_
                rw [if_pos heq.symm] at hnone
                cases hnone
              rw [if_pos rfl, hlookup]
              simp
            · have hne : (c == commandId) = false := beq_eq_false_iff_ne.mpr hc
              rw [if_neg hc, hne]

theorem isr80hCommandFunc_none
    (c : Int) :
    isr80hCommandFunc (fun _ => none) c = none := by
  rw [isr80hCommandFunc]
  cases commandSlot c <;> rfl

/-- A table made from nothing calls the function that is registered for a number,
and making it panics exactly on a number out of bounds or used twice. -/
theorem registerCommands_dispatches
    (registrations : List (Int × Isr80hCommand)) :
    ((∃ commands, registerCommands (fun _ => none) registrations = .ok commands) ↔
      (∀ r ∈ registrations, 0 ≤ r.1 ∧ r.1 < maxIsr80hCommands) ∧
        (registrations.map Prod.fst).Nodup) ∧
    ∀ commands, registerCommands (fun _ => none) registrations = .ok commands →
      ∀ c, isr80hCommandFunc commands c = registrations.lookup c := by
  obtain ⟨hok, hdispatch⟩ := registerCommands_spec registrations fun _ => none
  simp only [isr80hCommandFunc_none, and_true, Option.or_none] at hok hdispatch
  exact ⟨hok, hdispatch⟩

/-- The kernel's own registrations do not panic. -/
theorem isr80hRegisterCommands_ok :
    ∃ commands, isr80hRegisterCommands (fun _ => none) = .ok commands := by
  refine (registerCommands_spec _ fun _ => none).1.mpr ⟨fun r hr => ⟨?_, ?_⟩, by decide⟩
  · revert r
    decide
  · exact isr80hCommandFunc_none r.1

end PeachOS
