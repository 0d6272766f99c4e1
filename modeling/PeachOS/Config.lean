import Mathlib.Data.BitVec

/-!
# Constants and machine types

The constants of `config.h`, `status.h` and `paging.h` (in camel case, without
the `PEACHOS_` and `PAGING_` of the source where it says nothing), the machine types of
the i386 target, and the ways in which the kernel stops: `panic`, which prints
and spins, the exception of a division by zero, and a fault, an access whose
outcome C leaves undefined (through a null, freed or error-coded pointer, or an
arithmetic overflow of a signed integer).
-/

namespace PeachOS

abbrev Byte := BitVec 8

abbrev Half := BitVec 16

abbrev Word := BitVec 32

/-- A physical address, as the kernel holds it in a pointer. -/
abbrev Ptr := BitVec 32

/-- Page tables and keyboard buffers have 1024 entries. -/
instance neZeroEntries : NeZero 1024 := ⟨by decide⟩

/-- How a call ends that does not return. -/
inductive Halt where
  | panic
  | divide
  | fault
deriving DecidableEq, Repr

def eio : Int := 1
def einvarg : Int := 2
def enomem : Int := 3
def ebadpath : Int := 4
def efsnotus : Int := 5
def erdonly : Int := 6
def eunimp : Int := 7
def eistkn : Int := 8
def einformat : Int := 9

def heapBlockSize : Nat := 4096
def heapAddress : Nat := 0x01000000
def heapSizeBytes : Nat := 104857600
def heapTableAddress : Nat := 0x00007E00

/-- The address at which `linker.ld` places the kernel. -/
def kernelAddress : Nat := 0x00100000
def sectorSize : Nat := 512
def maxFileDescriptor : Nat := 512
def maxPath : Nat := 108
def programVirtualAddress : Word := 0x400000
def userProgramStackSize : Word := 1024 * 16
def programVirtualStackAddressState : Word := 0x3FF000
def programVirtualStackAddressEnd : Word :=
  programVirtualStackAddressState - userProgramStackSize
/-- `tss.esp0`, the stack of the kernel at an interrupt. -/
def kernelStack : Word := 0x600000
def kernelCodeSelector : Word := 0x08
def kernelDataSelector : Word := 0x10
def userDataSegment : Word := 0x23
def userCodeSegment : Word := 0x1b
def maxProgramAllocations : Nat := 1024
def maxProcesses : Nat := 12
def pagingPageSize : Nat := 4096
def pagingTotalEntriesPerTable : Nat := 1024
def pagingAccessFromAll : Word := 0b00000100
def pagingIsWriteable : Word := 0b00000010
def pagingIsPresent : Word := 0b00000001

end PeachOS
