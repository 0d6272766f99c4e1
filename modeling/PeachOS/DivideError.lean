import PeachOS.Idt
import PeachOS.Lib.Run

/-!
# Division by zero

`idt_init` lets the vector of a division error lead to `idt_zero`, a C function
that prints a message and returns: not to a stub that saves the registers and
leaves by `iret`.  A program that divides by zero goes on at the same instruction,
but in ring 0, on the stack of the kernel and with interrupts off.
-/

namespace PeachOS

open Lib Lib.Machine

/-- `"Divide by zero error"`. -/
def divideByZero : List Byte :=
  [0x44, 0x69, 0x76, 0x69, 0x64, 0x65, 0x20, 0x62, 0x79, 0x20, 0x7A, 0x65, 0x72, 0x6F, 0x20, 0x65,
    0x72, 0x72, 0x6F, 0x72]

/-- The processor, and the terminal that the kernel prints on. -/
structure Faulting where
  cpu : Machine
  terminal : Terminal

/-- `idt_zero` up to its `ret`, as C functions of no arguments are compiled: it keeps the
registers that its caller may have values in and the stack in use.  Its message goes to the
cells of the screen; what else it writes is below its stack or in other variables than the
table. -/
structure IdtZeroReturns (idt : Ptr) (s : Faulting) (m : Machine) : Prop where
  esp : m.reg .esp = s.cpu.reg .esp
  saved : ∀ r ∈ [Reg.ebx, .esi, .edi, .ebp], m.reg r = s.cpu.reg r
  cs : m.cs = s.cpu.cs
  ss : m.ss = s.cpu.ss
  interrupts : m.eflags &&& 0x200 = s.cpu.eflags &&& 0x200
  mem : ∀ b : Ptr, ((s.cpu.reg .esp).toNat ≤ b.toNat ∧ b.toNat < kernelStack.toNat) ∨
      (b - idt).toNat < 8 * totalInterrupts →
    m.mem b = (s.terminal.print (divideByZero ++ [0x0A])).showCells
      (s.terminal.cellsOf (divideByZero ++ [0x0A])) s.cpu.mem b

/-- The instruction faults, `idt_zero` runs, and its `ret` takes the address of the
instruction off the stack. -/
def DivideFault (idt : Ptr) (s s' : Faulting) : Prop :=
  ∃ t m, s.cpu.raise (idtrDescriptor idt) tss (.exception 0) 0 = some t ∧
    IdtZeroReturns idt ⟨t, s.terminal⟩ m ∧
    s' = ⟨m.step .ret, s.terminal.print (divideByZero ++ [0x0A])⟩

/-- The instruction faults again and again. -/
def DivideFaults (idt : Ptr) (s : Faulting) (faults : List Unit) (s' : Faulting) : Prop :=
  Run (fun s _ s' => DivideFault idt s s') s faults s'

/-- Where a program is behind so many faults. -/
structure InKernel (u m : Machine) (faults : Nat) : Prop where
  eip : m.eip = u.eip
  ring : m.ring = 0
  ss : m.ss = kernelDataSelector
  interruptsOff : m.eflags &&& 0x200 = 0
  esp : (m.reg .esp).toNat + 8 + 8 * faults = kernelStack.toNat
  saved : ∀ r ∈ [Reg.ebx, .esi, .edi, .ebp], m.reg r = u.reg r

/-- The rows of so many messages end before the kernel, which has the table. -/
structure RowsBelow (idt : Ptr) (t : Terminal) (faults : Nat) : Prop where
  cells : 0xB8000 + 2 * (t.cursorCell + vgaWidth * faults) ≤ kernelAddress
  table : kernelAddress ≤ idt.toNat

/-- A push leaves what is below the room of the stack alone. -/
theorem push_below
    {m : Machine} {n : Nat} {ws : List Word} (h : Stack m (n + 4) ws) (v : Word) {b : Ptr}
    (hb : b.toNat < n) :
    (m.push v).mem b = m.mem b := by
  have hlo : 4 ≤ (m.reg .esp).toNat := (Nat.le_add_left 4 n).trans h.below
  have hesp : (m.reg .esp - 4).toNat = (m.reg .esp).toNat - 4 := toNat_sub_four hlo
  have hlt := (m.reg .esp).isLt
  have hbelow := h.below
  exact store32_of_lt m.mem v (by omega) (by omega)

theorem interrupt_below
    (m : Machine) (cs0 ss0 : Word) {esp0 : Word} {n : Nat} (h : n + 20 ≤ esp0.toNat) {b : Ptr}
    (hb : b.toNat < n) :
    (m.interrupt cs0 ss0 esp0).mem b = m.mem b := by
  have h0 : Stack { m.set .esp esp0 with
      cs := cs0, ss := ss0, eflags := m.eflags &&& ~~~0x200 } (n + 20) [] :=
    ⟨trivial, esp0.isLt.le, h⟩
  have h1 := h0.push m.ss
  have h2 := h1.push (m.reg .esp)
  have h3 := h2.push m.eflags
  have h4 := h3.push m.cs
  exact (push_below h4 _ hb).trans <| (push_below h3 _ (by omega)).trans <|
    (push_below h2 _ (by omega)).trans <| (push_below h1 _ (by omega)).trans
      (push_below h0 _ (by omega))

section Fault

variable {idt : Ptr} {entries : EntryPoints}

/-- A division error has no error code. -/
theorem raise_divide
    {m : Machine} (hidt : KeepsIdt idt entries m.mem) :
    m.raise (idtrDescriptor idt) tss (.exception 0) 0 =
      some (m.enter tss (kernelGate (entries.entry ⟨0, by decide⟩))) := by
  rw [raise_eq hidt, dif_pos (by decide)]
  rfl

theorem divideByZero_plain : ∀ c ∈ divideByZero, c ≠ 0x0A ∧ c ≠ 0x08 := by
  decide

/-- The message is printed outside of the kernel. -/
theorem IdtZeroReturns.kept
    {s : Faulting} {m : Machine} (h : IdtZeroReturns idt s m)
    (hrows : 0xB8000 + 2 * (s.terminal.cursorCell + divideByZero.length) ≤ kernelAddress)
    {b : Ptr} (hb : kernelAddress ≤ b.toNat)
    (hin : ((s.cpu.reg .esp).toNat ≤ b.toNat ∧ b.toNat < kernelStack.toNat) ∨
      (b - idt).toNat < 8 * totalInterrupts) :
    m.mem b = s.cpu.mem b := by
  obtain ⟨hcells, -⟩ := @Terminal.print_line_newline_cells s.terminal _ divideByZero_plain
  refine (h.mem b hin).trans (Terminal.showCells_of_not_inCells _ _ fun hcell => ?_)
  unfold kernelAddress at hrows hb
  have hbelow := hcell.below hcells (by omega)
  omega

theorem IdtZeroReturns.table
    {s : Faulting} {m : Machine} (h : IdtZeroReturns idt s m)
    (hrows : 0xB8000 + 2 * (s.terminal.cursorCell + divideByZero.length) ≤ kernelAddress)
    (htable : kernelAddress ≤ idt.toNat) (hroom : idt.toNat + 8 * totalInterrupts ≤ 2 ^ 32)
    (hidt : KeepsIdt idt entries s.cpu.mem) :
    KeepsIdt idt entries m.mem :=
  hidt.of_below hroom fun _ hb =>
    h.kept hrows (htable.trans (toNat_of_sub_lt hb hroom).1) (Or.inr hb)

theorem IdtZeroReturns.ret
    {s : Faulting} {m : Machine} {ip w : Word} {ws : List Word} (h : IdtZeroReturns idt s m)
    (hrows : 0xB8000 + 2 * (s.terminal.cursorCell + divideByZero.length) ≤ kernelAddress)
    (hstack : Stack s.cpu kernelAddress (ip :: w :: ws))
    (hend : (s.cpu.reg .esp).toNat + 4 ≤ kernelStack.toNat) :
    (m.step .ret).eip = ip ∧
      ((m.step .ret).reg .esp).toNat = (s.cpu.reg .esp).toNat + 4 := by
  have htop : m.top = ip := by
    rw [Machine.top, h.esp, ← hstack.top_eq]
    have hlt := kernelStack.isLt
    refine load32_congr fun b hb => ?_
    have hbounds := toNat_of_sub_lt hb (by omega)
    exact h.kept hrows (hstack.below.trans hbounds.1) (Or.inl ⟨hbounds.1, by omega⟩)
  refine ⟨htop, ?_⟩
  have hesp : (m.step .ret).reg .esp = s.cpu.drop.reg .esp := by
    rw [drop_reg, if_pos rfl, ← h.esp]
    rfl
  rw [hesp]
  exact hstack.drop_esp

/-- What a fault leaves of the rows. -/
theorem RowsBelow.fault
    {t : Terminal} {n : Nat} (h : RowsBelow idt t (n + 1)) (hcol : vgaWidth ∣ t.cursorCell) :
    RowsBelow idt (t.print (divideByZero ++ [0x0A])) n := by
  obtain ⟨-, hend, -⟩ := @Terminal.print_line_newline_cells t _ divideByZero_plain
  have hlength : divideByZero.length = 20 := rfl
  have hcells := h.cells
  obtain ⟨row, hrow⟩ := hcol
  refine ⟨?_, h.table⟩
  unfold vgaWidth at *
  omega

/-- The fault of a program in user mode. -/
theorem DivideFault.user
    {u s : Faulting} (h : DivideFault idt u s) (hring : u.cpu.ring ≠ 0)
    (hidt : KeepsIdt idt entries u.cpu.mem)
    (hrows : 0xB8000 + 2 * (u.terminal.cursorCell + divideByZero.length) ≤ kernelAddress)
    (htable : kernelAddress ≤ idt.toNat)
    (hroom : idt.toNat + 8 * totalInterrupts + 20 ≤ kernelStack.toNat) :
    InKernel u.cpu s.cpu 1 ∧ KeepsIdt idt entries s.cpu.mem := by
  obtain ⟨t, m, hraise, hreturns, rfl⟩ := h
  have hlt := kernelStack.isLt
  have hentered := enter_user hring entries ⟨0, by decide⟩
  have henter : u.cpu.enter tss (kernelGate (entries.entry ⟨0, by decide⟩)) =
      { u.cpu.interrupt kernelCodeSelector kernelDataSelector kernelStack with
        eip := entries.entry ⟨0, by decide⟩ } := by
    rw [enter, if_neg hring]
    rfl
  obtain rfl := Option.some.inj ((raise_divide hidt).symm.trans hraise)
  have hesp : ((u.cpu.enter tss (kernelGate (entries.entry ⟨0, by decide⟩))).reg .esp).toNat =
      kernelStack.toNat - 20 := by
    rw [henter]
    exact (congrArg BitVec.toNat (interrupt_esp u.cpu _ _ _)).trans (by decide)
  have hentries : KeepsIdt idt entries
      (u.cpu.enter tss (kernelGate (entries.entry ⟨0, by decide⟩))).mem := by
    refine hidt.of_below (by omega) fun b hb => ?_
    rw [henter]
    have hbounds := toNat_of_sub_lt hb (by omega)
    exact interrupt_below u.cpu _ _ hroom hbounds.2
  have hstack : Stack (u.cpu.enter tss (kernelGate (entries.entry ⟨0, by decide⟩))) kernelAddress
      [u.cpu.eip, u.cpu.cs, u.cpu.eflags, u.cpu.reg .esp, u.cpu.ss] :=
    ⟨hentered.stack.words, hentered.stack.room, by rw [hesp]; decide⟩
  obtain ⟨heip, hesp'⟩ := hreturns.ret hrows hstack (by
    dsimp only
    rw [hesp]
    decide)
  refine ⟨⟨heip, ?_, ?_, ?_, ?_, fun r hr => ?_⟩,
    hreturns.table hrows htable (by omega) hentries⟩
  · have hcs : (m.step .ret).cs = m.cs := rfl
    rw [Machine.ring, hcs, hreturns.cs]
    exact hentered.ring
  · exact hreturns.ss.trans (by rw [henter]; rfl)
  · exact hreturns.interrupts.trans hentered.interruptsOff
  · rw [hesp', hesp]
    decide
  · have hne : r ≠ .esp := by
      rintro rfl
      exact absurd hr (by decide)
    have hstep : (m.step .ret).reg r = m.reg r := if_neg hne
    rw [hstep, hreturns.saved r hr, henter]
    simp [Machine.interrupt, hne]

/-- The fault of code that is in ring 0 already. -/
theorem DivideFault.kernel
    {u : Machine} {s s' : Faulting} {n : Nat} (h : DivideFault idt s s') (hs : InKernel u s.cpu n)
    (hidt : KeepsIdt idt entries s.cpu.mem)
    (hrows : 0xB8000 + 2 * (s.terminal.cursorCell + divideByZero.length) ≤ kernelAddress)
    (htable : kernelAddress ≤ idt.toNat)
    (hroom : idt.toNat + 8 * totalInterrupts + 12 ≤ (s.cpu.reg .esp).toNat) :
    InKernel u s'.cpu (n + 1) ∧ KeepsIdt idt entries s'.cpu.mem := by
  obtain ⟨t, m, hraise, hreturns, rfl⟩ := h
  have hsesp := hs.esp
  have hlt := kernelStack.isLt
  have henter : s.cpu.enter tss (kernelGate (entries.entry ⟨0, by decide⟩)) =
      { s.cpu.interruptSame kernelCodeSelector with eip := entries.entry ⟨0, by decide⟩ } := by
    rw [enter, if_pos hs.ring]
    rfl
  obtain rfl := Option.some.inj ((raise_divide hidt).symm.trans hraise)
  have h0 : Stack s.cpu (idt.toNat + 8 * totalInterrupts + 12) [] :=
    ⟨trivial, (s.cpu.reg .esp).isLt.le, hroom⟩
  have h1 := h0.push s.cpu.eflags
  have h2 := h1.push s.cpu.cs
  have h3 := h2.push s.cpu.eip
  have hstack : Stack (s.cpu.enter tss (kernelGate (entries.entry ⟨0, by decide⟩))) kernelAddress
      [s.cpu.eip, s.cpu.cs, s.cpu.eflags] := by
    rw [henter]
    exact ⟨h3.words, h3.room, htable.trans ((Nat.le_add_right _ _).trans h3.below)⟩
  have hesp : ((s.cpu.enter tss (kernelGate (entries.entry ⟨0, by decide⟩))).reg .esp).toNat =
      (s.cpu.reg .esp).toNat - 12 := by
    rw [henter]
    have hone := toNat_sub_four (a := s.cpu.reg .esp) (by omega)
    have htwo := toNat_sub_four (a := s.cpu.reg .esp - 4) (by omega)
    have hthree := toNat_sub_four (a := s.cpu.reg .esp - 4 - 4) (by omega)
    change (s.cpu.reg .esp - 4 - 4 - 4).toNat = _
    omega
  have hentries : KeepsIdt idt entries
      (s.cpu.enter tss (kernelGate (entries.entry ⟨0, by decide⟩))).mem := by
    refine hidt.of_below (by omega) fun b hb => ?_
    rw [henter]
    have hbounds := toNat_of_sub_lt hb (by omega)
    exact (push_below h2 _ hbounds.2).trans <| (push_below h1 _ (by omega)).trans
      (push_below h0 _ (by omega))
  obtain ⟨heip, hesp'⟩ := hreturns.ret hrows hstack (by
    dsimp only
    omega)
  dsimp only at hesp'
  refine ⟨⟨heip.trans hs.eip, ?_, ?_, ?_, ?_, fun r hr => ?_⟩,
    hreturns.table hrows htable (by omega) hentries⟩
  · have hcs : (m.step .ret).cs = m.cs := rfl
    rw [Machine.ring, hcs, hreturns.cs, henter]
    change (kernelCodeSelector.extractLsb' 0 2).toNat = 0
    decide
  · exact hreturns.ss.trans (by rw [henter]; exact hs.ss)
  · refine hreturns.interrupts.trans ?_
    rw [henter]
    change s.cpu.eflags &&& ~~~0x200 &&& 0x200 = 0
    rw [BitVec.and_assoc]
    exact BitVec.and_zero
  · dsimp only
    rw [hesp', hesp]
    omega
  · have hne : r ≠ .esp := by
      rintro rfl
      exact absurd hr (by decide)
    have hstep : (m.step .ret).reg r = m.reg r := if_neg hne
    rw [hstep, hreturns.saved r hr, henter, ← hs.saved r hr]
    simp [interruptSame, hne]

theorem DivideFault.terminal
    {s s' : Faulting} (h : DivideFault idt s s') :
    s'.terminal = s.terminal.print (divideByZero ++ [0x0A]) := by
  obtain ⟨t, m, -, -, rfl⟩ := h
  rfl

theorem DivideFaults.kernel
    {u : Machine} {s s' : Faulting} {n : Nat} {faults : List Unit}
    (h : DivideFaults idt s faults s') (hs : InKernel u s.cpu n)
    (hidt : KeepsIdt idt entries s.cpu.mem) (hcol : vgaWidth ∣ s.terminal.cursorCell)
    (hrows : RowsBelow idt s.terminal faults.length)
    (hroom : idt.toNat + 8 * totalInterrupts + 12 + 8 * faults.length ≤ (s.cpu.reg .esp).toNat) :
    InKernel u s'.cpu (n + faults.length) := by
  induction h generalizing n with
  | nil s => exact hs
  | @cons s t s' _ faults first _ ih =>
      rw [List.length_cons] at hroom hrows
      have hcells := hrows.cells
      have hlength : divideByZero.length = 20 := rfl
      obtain ⟨ht, htable⟩ := first.kernel hs hidt (by unfold vgaWidth at hcells; omega) hrows.table
        (by omega)
      have hsesp := hs.esp
      have htesp := ht.esp
      have hrest := hrows.fault hcol
      obtain ⟨-, -, hstart⟩ := @Terminal.print_line_newline_cells s.terminal _ divideByZero_plain
      rw [← first.terminal] at hrest hstart
      rw [List.length_cons, Nat.add_comm faults.length, ← Nat.add_assoc]
      exact ih ht htable hstart hrest (by omega)

end Fault

end PeachOS
