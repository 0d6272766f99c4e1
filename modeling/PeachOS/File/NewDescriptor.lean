import PeachOS.Config
import PeachOS.Lib.Run
import Mathlib.Data.Nat.Find
import Mathlib.Logic.Function.Basic

/-!
# Allocating a file descriptor

`file_new_descriptor` should fill the lowest free slot of the table.  Its loop
returns behind the test of the first slot, and what follows the loop is the end
of the function, which returns no value.
-/

namespace PeachOS

/-- The table `file_descriptors`, and the `index` of every record. -/
structure DescriptorTable where
  slots : Nat → Option Ptr
  index : Ptr → Option Int

/-- A new record in slot `i`; descriptors start at 1. -/
def DescriptorTable.fill (table : DescriptorTable) (i : Nat) (desc : Ptr) : DescriptorTable where
  slots := Function.update table.slots i (some desc)
  index := Function.update table.index desc (some (i + 1))

/-- The value that is returned, where a `return` is reached, what is stored at
`desc_out`, and the table afterwards. -/
structure NewDescriptor where
  res : Option Int
  descOut : Option Ptr
  table : DescriptorTable

/-- The loop from slot `i` on, with `n` slots to go: no pass comes to the next. -/
def fileNewDescriptorLoop (kzalloc : Option Ptr) (table : DescriptorTable) :
    Nat → Nat → Except Halt NewDescriptor
  | 0, _ => .ok ⟨none, none, table⟩
  | _ + 1, i =>
      if table.slots i = none then
        match kzalloc with
        | none => .error .fault
        | some desc => .ok ⟨none, some desc, table.fill i desc⟩
      else
        .ok ⟨some (-enomem), none, table⟩

def fileNewDescriptor (kzalloc : Option Ptr) (table : DescriptorTable) :
    Except Halt NewDescriptor :=
  fileNewDescriptorLoop kzalloc table maxFileDescriptor 0

/-- The slot is free, and no slot below it is. -/
def DescriptorTable.LowestFree (table : DescriptorTable) (i : Nat) : Prop :=
  i < maxFileDescriptor ∧ table.slots i = none ∧ ∀ j < i, table.slots j ≠ none

def DescriptorTable.Full (table : DescriptorTable) : Prop :=
  ∀ i < maxFileDescriptor, table.slots i ≠ none

/-- The record goes to the lowest free slot, and a full table is left alone. -/
def AllocatesLowest (table : DescriptorTable) (desc : Ptr) : Prop :=
  (∀ i, table.LowestFree i →
    fileNewDescriptor (some desc) table = .ok ⟨some 0, some desc, table.fill i desc⟩) ∧
  (table.Full → fileNewDescriptor (some desc) table = .ok ⟨some (-enomem), none, table⟩)

theorem DescriptorTable.exists_lowestFree
    {table : DescriptorTable} (h : ¬ table.Full) :
    ∃ i, table.LowestFree i := by
  have hfree : ∃ i, i < maxFileDescriptor ∧ table.slots i = none := by
    simpa [Full] using h
  obtain ⟨hlt, hnone⟩ := Nat.find_spec hfree
  exact ⟨Nat.find hfree, hlt, hnone, fun j hj hjnone =>
    Nat.find_min hfree hj ⟨Nat.lt_trans hj hlt, hjnone⟩⟩

/-- The first slot decides. -/
theorem fileNewDescriptor_eq
    (table : DescriptorTable) (desc : Ptr) :
    fileNewDescriptor (some desc) table =
      if table.slots 0 = none then
        .ok ⟨none, some desc, table.fill 0 desc⟩
      else
        .ok ⟨some (-enomem), none, table⟩ :=
  rfl

/-- No call returns 0. -/
theorem fileNewDescriptor_res
    {table : DescriptorTable} {desc : Ptr} {out : NewDescriptor}
    (h : fileNewDescriptor (some desc) table = .ok out) :
    out.res ≠ some 0 := by
  rw [fileNewDescriptor_eq] at h
  split_ifs at h <;> obtain rfl := Except.ok.inj h
  · exact nofun
  · exact fun hres => absurd (Option.some.inj hres) (by decide)

/-- A descriptor is allocated as it should be exactly when no slot is free. -/
theorem fileNewDescriptor_allocates_iff
    (table : DescriptorTable) (desc : Ptr) :
    AllocatesLowest table desc ↔ table.Full := by
  constructor
  · intro h
    by_contra hfull
    obtain ⟨i, hi⟩ := DescriptorTable.exists_lowestFree hfull
    exact fileNewDescriptor_res (h.1 i hi) rfl
  · intro hfull
    refine ⟨fun i hi => absurd hi.2.1 (hfull i hi.1), fun _ => ?_⟩
    rw [fileNewDescriptor_eq, if_neg (hfull 0 (by decide))]

/-- Only the first slot is ever filled, by whatever sequence of calls. -/
theorem newDescriptors_firstSlot
    {table table' : DescriptorTable} {descs : List Ptr}
    (hrun : Lib.Run (fun t desc t' => ∃ out, fileNewDescriptor (some desc) t = .ok out ∧
      out.table = t') table descs table') {i : Nat} (hi : i ≠ 0) :
    table'.slots i = table.slots i := by
  refine hrun.invariant (fun t => t.slots i = table.slots i) ?_ rfl
  rintro t desc t' hslots ⟨out, hcall, rfl⟩
  rw [fileNewDescriptor_eq] at hcall
  split_ifs at hcall <;> obtain rfl := Except.ok.inj hcall
  · exact (Function.update_of_ne hi _ _).trans hslots
  · exact hslots

/-- Every table allocates its descriptors. -/
def DescriptorsAllocate : Prop :=
  ∀ (table : DescriptorTable) (desc : Ptr), AllocatesLowest table desc

/-- The first slot is taken and the others are free. -/
def oneDescriptor : DescriptorTable where
  slots i := if i = 0 then some 0x1005000 else none
  index p := if p = 0x1005000 then some 1 else none

/-- The second file cannot be opened. -/
theorem descriptorsAllocate_false : ¬ DescriptorsAllocate := by
  intro h
  have hlowest : oneDescriptor.LowestFree 1 :=
    ⟨by decide, rfl, fun j hj => by
      obtain rfl : j = 0 := by omega
      exact nofun⟩
  have hcall := (h oneDescriptor 0x1006000).1 1 hlowest
  rw [fileNewDescriptor_eq, if_neg nofun] at hcall
  exact absurd (congrArg NewDescriptor.res (Except.ok.inj hcall)) (by decide)

end PeachOS
