import PeachOS.Lib.ByteStrings
import PeachOS.Lib.Machine

/-!
# Interrupt gates

How an i386 processor takes an interrupt: it reads the gate of the vector from
the interrupt descriptor table in memory, and goes to the address in it on the
stack of the inner ring, or on the stack in use when it is there already.
-/

namespace PeachOS
namespace Lib

/-- What `lidt` loads. -/
structure Idtr where
  limit : BitVec 16
  base : BitVec 32

/-- The stack of ring 0 in the task state segment. -/
structure Ring0 where
  esp0 : BitVec 32
  ss0 : BitVec 32

/-- Who raises a vector: the instruction `int`, a device, or the processor, which has an error
code for some of them. -/
inductive Cause where
  | software
  | device
  | exception (code : BitVec 32)
deriving DecidableEq

/-- The error code that the processor pushes behind the return address. -/
def Cause.code? : Cause → Nat → Option (BitVec 32)
  | .exception code, n => if n ∈ [8, 10, 11, 12, 13, 14, 17] then some code else none
  | _, _ => none

/-- What the eight bytes of a gate say; one of them is not used. -/
structure Gate where
  offset : BitVec 32
  selector : BitVec 16
  typeAttr : BitVec 8
deriving DecidableEq

namespace Gate

/-- The bytes of a gate in the order of the table. -/
def bytes (g : Gate) : List (BitVec 8) :=
  halfBytes (g.offset.extractLsb' 0 16) ++ halfBytes g.selector ++ [0, g.typeAttr] ++
    halfBytes (g.offset.extractLsb' 16 16)

/-- A gate that is present, for 32-bit code, and leaves interrupts off. -/
def IsInterrupt (g : Gate) : Prop := g.typeAttr &&& 0x9F = 0x8E

instance (g : Gate) : Decidable g.IsInterrupt := inferInstanceAs (Decidable (_ = _))

/-- The outermost ring whose programs may raise the vector. -/
def dpl (g : Gate) : Nat := (g.typeAttr.extractLsb' 5 2).toNat

end Gate

def loadHalf (m : Memory) (a : BitVec 32) : BitVec 16 := m (a + 1) ++ m a

/-- The gate at an address. -/
def gateAt (m : Memory) (a : BitVec 32) : Gate where
  offset := loadHalf m (a + 6) ++ loadHalf m a
  selector := loadHalf m (a + 2)
  typeAttr := m (a + 5)

/-- The address of a gate of the table. -/
def gateAddress (base : BitVec 32) (n : Nat) : BitVec 32 := base + BitVec.ofNat 32 (8 * n)

namespace Machine

/-- The privilege level of the code that runs. -/
def ring (m : Machine) : Nat := (m.cs.extractLsb' 0 2).toNat

/-- An interrupt in ring 0 stays on the stack, with interrupts off. -/
def interruptSame (m : Machine) (cs0 : BitVec 32) : Machine :=
  let t := ((m.push m.eflags).push m.cs).push m.eip
  { t with cs := cs0, eflags := m.eflags &&& ~~~0x200 }

/-- The processor goes through a gate to ring 0. -/
def enter (m : Machine) (stack : Ring0) (g : Gate) : Machine :=
  let cs0 := g.selector.setWidth 32
  let t := if m.ring = 0 then m.interruptSame cs0 else m.interrupt cs0 stack.ss0 stack.esp0
  { t with eip := g.offset }

/-- A vector is raised.  Outside of the table, and where the gate does not admit it, it is
another exception; there are no vectors from 256 on. -/
def raise (m : Machine) (idtr : Idtr) (stack : Ring0) (cause : Cause) (n : Nat) :
    Option Machine :=
  if n < 256 ∧ 8 * n + 7 ≤ idtr.limit.toNat then
    let g := gateAt m.mem (gateAddress idtr.base n)
    if g.IsInterrupt ∧ (cause = .software → m.ring ≤ g.dpl) then
      some ((cause.code? n).elim (m.enter stack g) (m.enter stack g).push)
    else
      none
  else
    none

end Machine

end Lib
end PeachOS
