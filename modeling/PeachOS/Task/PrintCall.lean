import PeachOS.Screen
import PeachOS.Task.CopyString

/-!
# The system call `print`

`isr80h_command1_print` copies the string of the program to an array on the stack of
the kernel, and prints what is there then.
-/

namespace PeachOS

open Lib

/-- What is printed of a string that can be read; `buf` is what the array holds before. -/
def shownString (copying : Copying) (buf str : List Byte) : Except Halt (List Byte) :=
  stringIn (copying.copied buf str 1024)

namespace Paged

def isr80hCommand1Print
    (copying : Copying) (kernelChunk : Ptr) (s : Paged) (task userSpaceMsgBuffer : Ptr)
    (buf : List Byte) (t : Terminal) : Except Halt (Terminal × Paged) := do
  let (_, buf, s) ← s.copyStringFromTask copying kernelChunk task userSpaceMsgBuffer buf 1024
  let str ← stringIn buf
  pure (t.print str, s)

variable {copying : Copying} {kernelChunk task virt directory kernelDirectory : Ptr}
  {s s' : Paged} {record : Task} {buf phys phys' : List Byte} {max res : Int}

/-- A `strncpy` that compares writes nothing. -/
theorem strncpy_compares_eq
    {σ : Type} {get : σ → Nat → Except Halt Byte} {put : σ → Nat → Byte → Except Halt σ}
    {count : Int} {x y : σ} (h : Copying.compares.strncpy get put x count = .ok y) :
    y = x := by
  obtain ⟨⟨z, k⟩, hloop, hlast⟩ := bind_eq_ok_iff.mp h
  have hput (x' : σ) (i : Nat) (c : Byte) (y' : σ) (hx' : x' = x)
      (h' : Copying.compares.put put x' i c = .ok y') : y' = x := by
    cases h'
    exact hx'
  exact hput z k 0 y (strncpyLoop_inv (· = x) (fun x' i c y' _ => hput x' i c y') rfl hloop).1 hlast

/-- Whatever comes of the call, the buffer is as it was. -/
theorem copyStringFromTask_compares
    (h : s.copyStringFromTask .compares kernelChunk task virt phys max = .ok (res, phys', s')) :
    phys' = phys := by
  rw [copyStringFromTask] at h
  by_cases hmax : (pagingPageSize : Int) ≤ max
  · rw [if_pos hmax] at h
    cases h
    rfl
  · rw [if_neg hmax] at h
    dsimp only at h
    by_cases h0 : (s.kernel.kzalloc (BitVec.ofInt 32 max)).1 = 0
    · rw [if_pos h0] at h
      cases h
      rfl
    · rw [if_neg h0, copyThrough] at h
      obtain ⟨record, -, h⟩ := bind_eq_ok_iff.mp h
      obtain ⟨directory, -, h⟩ := bind_eq_ok_iff.mp h
      obtain ⟨s₁, -, h⟩ := bind_eq_ok_iff.mp h
      obtain ⟨s₂, -, h⟩ := bind_eq_ok_iff.mp h
      obtain ⟨s₃, -, h⟩ := bind_eq_ok_iff.mp h
      dsimp only at h
      split_ifs at h
      · cases h
        rfl
      · obtain ⟨buf, hcopy, h⟩ := bind_eq_ok_iff.mp h
        cases h
        exact strncpy_compares_eq hcopy

/-- A string of the program that can be read. -/
theorem isr80hCommand1Print_eq
    {str : List Byte} (htask : TaskDirectory s.kernel task record directory)
    (hkernel : follow s.kernel.chunks kernelChunk = .ok kernelDirectory)
    (hfree : FreePage s directory 1024) (h0 : s.tmpOf 1024 ≠ 0)
    (hreads : s.Readable directory (s.tmpOf 1024) virt str) (hbuf : buf.length = 1024)
    (t : Terminal) :
    ∃ s', s.isr80hCommand1Print copying kernelChunk task virt buf t =
      (shownString copying buf str).map fun shown => (t.print shown, s') := by
  have hcopy : ∃ s', s.copyStringFromTask copying kernelChunk task virt buf 1024 =
      .ok (0, copying.copied buf str 1024, s') :=
    copyStringFromTask_returns htask hkernel hfree (by decide) (by decide) h0 hreads (by omega)
  obtain ⟨s', hcopy⟩ := hcopy
  refine ⟨s', ?_⟩
  rw [isr80hCommand1Print, hcopy, ok_bind, shownString]
  dsimp only
  cases stringIn (copying.copied buf str 1024) <;> rfl

end Paged

/-- Nothing of the program comes to the screen: two calls that return print the same,
whatever their strings are and whatever becomes of the copies, if the stack of the
kernel is the same. -/
theorem print_hides_string
    (s₁ s₂ : Paged) (kernelChunk task₁ task₂ msg₁ msg₂ : Ptr) (buf : List Byte) (t : Terminal)
    (t₁ t₂ : Terminal) (s₁' s₂' : Paged)
    (h₁ : s₁.isr80hCommand1Print .compares kernelChunk task₁ msg₁ buf t = .ok (t₁, s₁'))
    (h₂ : s₂.isr80hCommand1Print .compares kernelChunk task₂ msg₂ buf t = .ok (t₂, s₂')) :
    t₁ = t₂ := by
  have hstack (s : Paged) (task msg : Ptr) (t' : Terminal) (s' : Paged)
      (h : s.isr80hCommand1Print .compares kernelChunk task msg buf t = .ok (t', s')) :
      (stringIn buf).map t.print = .ok t' := by
    obtain ⟨⟨res, buf', s''⟩, hcopy, h⟩ := bind_eq_ok_iff.mp h
    obtain ⟨str, hstr, h⟩ := bind_eq_ok_iff.mp h
    rw [Paged.copyStringFromTask_compares hcopy] at hstr
    cases h
    rw [hstr]
    rfl
  exact Except.ok.inj ((hstack s₁ task₁ msg₁ t₁ s₁' h₁).symm.trans (hstack s₂ task₂ msg₂ t₂ s₂' h₂))

/-- `oneTask` without memory for the copy. -/
def fullTask : Paged :=
  { Paged.oneTask with
    kernel := { Paged.oneTask.kernel with pool := ⟨fun _ _ _ => 0, 0, fun _ => none⟩ } }

/-- The string `"a"`, and one at an address that cannot be read, with an `"x"` on the
stack of the kernel. -/
theorem print_hides_string_oneTask :
    ∃ t₁ t₂ s₁ s₂, Paged.oneTask.isr80hCommand1Print .compares 0x900000 0x700000 0xA00000
          (120 :: List.replicate 1023 0) ⟨fun _ => 0, 0, 0, []⟩ = .ok (t₁, s₁) ∧
      fullTask.isr80hCommand1Print .compares 0x900000 0x700000 0
          (120 :: List.replicate 1023 0) ⟨fun _ => 0, 0, 0, []⟩ = .ok (t₂, s₂) ∧
      t₁ = t₂ ∧ t₂.videoMem 0 = 0x0F78 := by
  obtain ⟨s₁, h₁⟩ := @Paged.isr80hCommand1Print_eq .compares 0x900000 0x700000 0xA00000 0 0x900000
    Paged.oneTask _ (120 :: List.replicate 1023 0) [97] Paged.oneTask_directory rfl
    (Paged.oneTask_freePage 1024) (by decide) (Paged.oneTask_readable 1024)
    (by rw [List.length_cons, List.length_replicate]) ⟨fun _ => 0, 0, 0, []⟩
  have h₂ : ∃ s₂, fullTask.isr80hCommand1Print .compares 0x900000 0x700000 0
      (120 :: List.replicate 1023 0) ⟨fun _ => 0, 0, 0, []⟩ =
        .ok (Terminal.print ⟨fun _ => 0, 0, 0, []⟩ [120], s₂) := ⟨_, rfl⟩
  obtain ⟨s₂, h₂⟩ := h₂
  have hcell : (Terminal.print ⟨fun _ => 0, 0, 0, []⟩ [120]).videoMem 0 = 0x0F78 :=
    (Terminal.terminalWritechar_written (by decide) (by decide) (by decide) (by decide) 15).cells 0
  exact ⟨_, _, s₁, s₂, h₁, h₂, print_hides_string Paged.oneTask fullTask 0x900000 0x700000 0x700000
    0xA00000 0 (120 :: List.replicate 1023 0) ⟨fun _ => 0, 0, 0, []⟩ _ _ s₁ s₂ h₁ h₂, hcell⟩

end PeachOS
