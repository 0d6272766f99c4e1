import PeachOS.DivideError
import PeachOS.Task.Context

/-!
# The system calls of a program

The functions of `peachos.asm`, by which a program calls the kernel.  Each is an
ordinary function for its caller: the command that it names finds its argument on
the stack of the program, and what the command returns is what the caller gets.
-/

namespace PeachOS

open Lib Lib.Machine
open Context (frameArgument InHeap)

/-- The instructions of the stubs. -/
inductive StubInstr where
  | instr (i : Instr)
  | movImm (dst : Reg) (v : Word)
  | pop (dst : Reg)

inductive Stub where
  | print
  | peachosGetkey
  | peachosPutchar
  | peachosMalloc
  | peachosFree
  | peachosProcessLoadStart
  | peachosSystem
  | peachosProcessGetArguments
  | peachosExit
deriving DecidableEq

namespace Stub

/-- A stub with an argument, up to `int 0x80`. -/
def enterArgument (command : Word) : List StubInstr :=
  [.instr (.push .ebp),
    .instr (.mov .ebp .esp),
    .movImm .eax command,
    .instr (.pushMem .ebp 8)]

/-- A stub without one. -/
def enterPlain (command : Word) : List StubInstr :=
  [.instr (.push .ebp),
    .instr (.mov .ebp .esp),
    .movImm .eax command]

/-- The code up to `int 0x80`; `print` pushes its argument first. -/
def enter : Stub → List StubInstr
  | .print =>
      [.instr (.push .ebp),
        .instr (.mov .ebp .esp),
        .instr (.pushMem .ebp 8),
        .movImm .eax 1]
  | .peachosGetkey => enterPlain 2
  | .peachosPutchar => enterArgument 3
  | .peachosMalloc => enterArgument 4
  | .peachosFree => enterArgument 5
  | .peachosProcessLoadStart => enterArgument 6
  | .peachosSystem => enterArgument 7
  | .peachosProcessGetArguments => enterArgument 8
  | .peachosExit => enterPlain 9

def takesArgument : Stub → Bool
  | .peachosGetkey | .peachosExit => false
  | _ => true

/-- The number in `eax` there. -/
def command (stub : Stub) : Word :=
  match stub with
  | .print => 1
  | .peachosGetkey => 2
  | .peachosPutchar => 3
  | .peachosMalloc => 4
  | .peachosFree => 5
  | .peachosProcessLoadStart => 6
  | .peachosSystem => 7
  | .peachosProcessGetArguments => 8
  | .peachosExit => 9

end Stub

/-- The stack of a program, away from the stack and the image of the kernel. -/
def OnUserStack (m : Machine) : Prop :=
  programVirtualStackAddressEnd.toNat + 8 ≤ (m.reg .esp).toNat ∧
    (m.reg .esp).toNat + 8 ≤ programVirtualStackAddressState.toNat

/-- The words that a stub has pushed. -/
def Stub.pushed (stub : Stub) (m : Machine) (argument : Word) : List Word :=
  if stub.takesArgument then [argument, m.reg .ebp] else [m.reg .ebp]

/-- The frame of the interrupt, or one of the words of the stub on the stack of `u`. -/
def InCaller (u : Machine) (words : Nat) (b : Ptr) : Prop :=
  (interruptFrame.toNat ≤ b.toNat ∧ b.toNat < kernelStack.toNat) ∨
    ((u.reg .esp).toNat ≤ b.toNat ∧ b.toNat < (u.reg .esp).toNat + 4 * words)

/-- `isr80h_handler` returns the result of a call, with what the call stores in memory; what
it writes for the kernel is not the caller's.  `zeroed` is what it gets of `kzalloc`. -/
structure CommandReturns (call : Syscall) (zeroed : List ZeroedBlock) (u m₁ m₂ : Machine)
    (words : Nat) (result : Word) : Prop where
  esp : m₂.reg .esp = m₁.reg .esp
  cs : m₂.cs = m₁.cs
  result : m₂.reg .eax = result
  caller : ∀ b, InCaller u words b → (∀ z ∈ zeroed, ¬ z.Reaches b) →
    m₂.mem b = call.stores m₁.mem b

/-- The call stores nothing over what its caller comes back with. -/
def SparesCaller (call : Syscall) (zeroed : List ZeroedBlock) (u : Machine) (words : Nat) : Prop :=
  ∀ b, call.ReachesWith zeroed b → ¬ InCaller u words b

theorem CommandReturns.kept
    {call : Syscall} {zeroed : List ZeroedBlock} {u m₁ m₂ : Machine} {words : Nat} {result : Word}
    (h : CommandReturns call zeroed u m₁ m₂ words result)
    (hspares : SparesCaller call zeroed u words) {b : Ptr} (hb : InCaller u words b) :
    m₂.mem b = m₁.mem b := by
  have hzeroed (z : ZeroedBlock) (hz : z ∈ zeroed) : ¬ z.Reaches b :=
    fun hreach => hspares b (Or.inr ⟨z, hz, hreach⟩) hb
  exact (h.caller b hb hzeroed).trans
    (Syscall.stores_of_not_reaches _ fun hreach => hspares b (Or.inl hreach) hb)

section Stub

variable {m : Machine} {n : Nat} {ret argument : Word} {ws : List Word}

end Stub

theorem Stub.length_pushed_le
    (stub : Stub) (m : Machine) (argument : Word) :
    (stub.pushed m argument).length ≤ 2 := by
  rw [Stub.pushed]
  split_ifs
  · exact Nat.le_refl 2
  · exact Nat.le_succ 1

section Call

variable {m : Machine} {ret argument : Word}

theorem OnUserStack.stack
    (h : OnUserStack m) (hwords : Words m.mem (m.reg .esp) [ret, argument]) :
    Stack m (programVirtualStackAddressEnd.toNat + 8) [ret, argument] := by
  have hend : programVirtualStackAddressState.toNat = 0x3FF000 := by decide
  obtain ⟨hlo, hhi⟩ := h
  exact ⟨hwords, by change _ + 4 * 2 ≤ _; omega, hlo⟩

variable {idt : Ptr} {entries : EntryPoints} {u : Machine} {stub : Stub} {n : Nat}
  {ws : List Word}

end Call

end PeachOS
