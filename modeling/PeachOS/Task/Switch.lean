import PeachOS.Config
import PeachOS.Lib.Machine

/-!
# Saving and restoring registers (`task.asm`, `idt.asm` and `task_save_state`)

The assembly is the list of its instructions, with the byte offsets that it
spells out.  The C side writes and reads the same registers through the
layouts of `struct registers` and `struct interrupt_frame`, whose fields are
all words and stand in the order of their declarations.
-/

namespace PeachOS

open Lib Lib.Machine

inductive Field where
  | edi | esi | ebp | reserved | ebx | edx | ecx | eax | ip | cs | flags | esp | ss
deriving DecidableEq, Repr

def registersLayout : List Field :=
  [.edi, .esi, .ebp, .ebx, .edx, .ecx, .eax, .ip, .cs, .flags, .esp, .ss]

def interruptFrameLayout : List Field :=
  [.edi, .esi, .ebp, .reserved, .ebx, .edx, .ecx, .eax, .ip, .cs, .flags, .esp, .ss]

def generalRegisters : List Field :=
  [.edi, .esi, .ebp, .ebx, .edx, .ecx, .eax]

/-- The offset of a field of words in a `struct`. -/
def offsetOf (layout : List Field) (f : Field) : Word :=
  BitVec.ofNat 32 (4 * layout.idxOf f)

/-- `&task->registers`: the pointer to the page directory stands before it. -/
def taskRegisters (task : Ptr) : Ptr := task + 4

def registersAt (mem : Memory) (regs : Ptr) (f : Field) : Word :=
  load32 mem (regs + offsetOf registersLayout f)

def frameAt (mem : Memory) (frame : Ptr) (f : Field) : Word :=
  load32 mem (frame + offsetOf interruptFrameLayout f)

/-- The registers of the processor under the names of the fields. -/
def userRegister (m : Machine) : Field → Word
  | .edi => m.reg .edi
  | .esi => m.reg .esi
  | .ebp => m.reg .ebp
  | .reserved => 0
  | .ebx => m.reg .ebx
  | .edx => m.reg .edx
  | .ecx => m.reg .ecx
  | .eax => m.reg .eax
  | .ip => m.eip
  | .cs => m.cs
  | .flags => m.eflags
  | .esp => m.reg .esp
  | .ss => m.ss

def restoreGeneralPurposeRegisters : List Instr :=
  [.push .ebp,
    .mov .ebp .esp,
    .load .ebx .ebp 8,
    .load .edi .ebx 0,
    .load .esi .ebx 4,
    .load .ebp .ebx 8,
    .load .edx .ebx 16,
    .load .ecx .ebx 20,
    .load .eax .ebx 24,
    .load .ebx .ebx 12,
    .add .esp 4,
    .ret]

def userRegisters : List Instr :=
  [.imm16 .eax 0x23,
    .movSeg .ds .eax,
    .movSeg .es .eax,
    .movSeg .fs .eax,
    .movSeg .gs .eax,
    .ret]

/-- `task_return` up to its call. -/
def taskReturnPushes : List Instr :=
  [.mov .ebp .esp,
    .load .ebx .ebp 4,
    .pushMem .ebx 44,
    .pushMem .ebx 40,
    .load .eax .ebx 36,
    .or .eax 0x200,
    .push .eax,
    .pushMem .ebx 32,
    .pushMem .ebx 28,
    .load16 .eax .ebx 44,
    .movSeg .ds .eax,
    .movSeg .es .eax,
    .movSeg .fs .eax,
    .movSeg .gs .eax,
    .pushMem .ebp 4]

/-- `next` is the address behind the call. -/
def taskReturn (next : Word) : List Line :=
  taskReturnPushes.map Line.instr ++
    [.call next restoreGeneralPurposeRegisters,
      .instr (.add .esp 4),
      .instr .iretd]

/-- The `interrupt` macro up to its call of `interrupt_handler`. -/
def interruptPushes (n : Word) : List Instr :=
  [.pushad,
    .push .esp,
    .pushImm n]

/-- The `interrupt` macro behind the call. -/
def interruptReturn : List Instr :=
  [.add .esp 8,
    .popad,
    .iretd]

/-- The processor and the `interrupt` macro on the way to `interrupt_handler`. -/
def enterInterrupt (m : Machine) (n : Word) : Machine :=
  (m.interrupt kernelCodeSelector kernelDataSelector kernelStack).steps (interruptPushes n)

/-- The address that the macro passes to `interrupt_handler`. -/
def interruptFrame : Ptr := kernelStack - 52

/-- The assignments of `task_save_state`, in their order. -/
def savedFields : List Field :=
  [.ip, .cs, .flags, .esp, .ss, .eax, .ebp, .ebx, .ecx, .edi, .edx, .esi]

/-- The assignment of a field of `task->registers`. -/
def storeField (mem : Memory) (task : Ptr) (f : Field) (v : Word) : Memory :=
  store32 mem (taskRegisters task + offsetOf registersLayout f) v

def taskSaveField (task frame : Ptr) (mem : Memory) (f : Field) : Memory :=
  storeField mem task f (frameAt mem frame f)

def taskSaveState (mem : Memory) (task frame : Ptr) : Memory :=
  savedFields.foldl (taskSaveField task frame) mem

/-- `sizeof(struct task)`. -/
def taskSize : Nat := 64

/-- The registers of `task_init`; `entry` is the entry point of an ELF file. -/
def taskInit (mem : Memory) (task : Ptr) (entry : Option Word) : Memory :=
  let mem := fill mem task 0 taskSize
  let mem := storeField mem task .ip programVirtualAddress
  let mem := entry.elim mem (storeField mem task .ip)
  let mem := storeField mem task .ss userDataSegment
  let mem := storeField mem task .cs userCodeSegment
  storeField mem task .esp programVirtualStackAddressState

/-- The registers that a task starts with. -/
def initialRegisters (entry : Option Word) : Field → Word
  | .ip => entry.getD programVirtualAddress
  | .cs => userCodeSegment
  | .esp => programVirtualStackAddressState
  | .ss => userDataSegment
  | _ => 0

/-- A register area that the stack of the machine ends before. -/
structure AreaAbove (m : Machine) (p : Ptr) : Prop where
  above : (m.reg .esp).toNat ≤ p.toNat
  room : p.toNat + 48 ≤ 2 ^ 32

theorem AreaAbove.load32
    {m m' : Machine} {p : Ptr}
    (h : AreaAbove m p) (hm : Pushes m m') {k : Word} (hk : k.toNat ≤ 44) :
    load32 m'.mem (p + k) = load32 m.mem (p + k) := by
  have hroom := h.room
  have habove := h.above
  have hadd : (p + k).toNat = p.toNat + k.toNat := by
    rw [BitVec.toNat_add]
    exact Nat.mod_eq_of_lt (by omega)
  refine hm.keeps.load32 ?_ ?_
  · rw [hadd]
    omega
  · rw [hadd]
    omega

/-- The general registers come from the area at `p`, and the code returns. -/
structure Restored (m m' : Machine) (p ra : Word) : Prop where
  general : ∀ f ∈ generalRegisters, userRegister m' f = registersAt m.mem p f
  esp : m'.reg .esp = m.reg .esp + 4
  eip : m'.eip = ra
  cs : m'.cs = m.cs
  keeps : KeepsFrom (m.reg .esp).toNat m.mem m'.mem

theorem restoreGeneralPurposeRegisters_spec
    {m : Machine} {n : Nat} {ra p w : Word} {ws : List Word}
    (h : Stack m (n + 4) (ra :: p :: w :: ws)) (harea : AreaAbove m p) :
    Restored m (m.steps restoreGeneralPurposeRegisters) p ra := by
  let m₁ := m.push (m.reg .ebp)
  have h₁ : Stack m₁ n (m.reg .ebp :: ra :: p :: w :: ws) := h.push _
  have hpush : Pushes m m₁ := (⟨fun _ _ => rfl, Nat.le_refl _⟩ : Pushes m m).push h _
  have hp : load32 m₁.mem (m₁.reg .esp + 8) = p := h₁.words.get (i := 2) rfl
  have hload (k : Word) (hk : k.toNat ≤ 44) : load32 m₁.mem (p + k) = load32 m.mem (p + k) :=
    harea.load32 hpush hk
  have hesp : m₁.reg .esp + 4 = m.reg .esp := BitVec.sub_add_cancel _ _
  have hsteps : m.steps restoreGeneralPurposeRegisters =
      (((((((((m₁.set .ebp (m₁.reg .esp)).set .ebx p).set .edi (load32 m₁.mem (p + 0))).set
        .esi (load32 m₁.mem (p + 4))).set .ebp (load32 m₁.mem (p + 8))).set
        .edx (load32 m₁.mem (p + 16))).set .ecx (load32 m₁.mem (p + 20))).set
        .eax (load32 m₁.mem (p + 24))).set .ebx (load32 m₁.mem (p + 12))).steps
        [.add .esp 4, .ret] := by
    have hfirst : m.steps restoreGeneralPurposeRegisters =
        (m₁.set .ebp (m₁.reg .esp)).steps (restoreGeneralPurposeRegisters.drop 2) := rfl
    rw [hfirst]
    simp only [restoreGeneralPurposeRegisters, List.drop, steps, List.foldl_cons,
      List.foldl_nil, step, set_reg, set_mem, reduceCtorEq, if_true, if_false, hp]
  rw [hsteps]
  refine ⟨?_, ?_, ?_, rfl, ?_⟩
  · intro f hf
    simp only [generalRegisters, List.mem_cons, List.not_mem_nil, or_false] at hf
    rcases hf with rfl | rfl | rfl | rfl | rfl | rfl | rfl <;>
      simp only [userRegister, steps, List.foldl_cons, List.foldl_nil, step, drop_reg, set_reg,
        reduceCtorEq, if_true, if_false]
    · exact hload 0 (by decide)
    · exact hload 4 (by decide)
    · exact hload 8 (by decide)
    · exact hload 12 (by decide)
    · exact hload 16 (by decide)
    · exact hload 20 (by decide)
    · exact hload 24 (by decide)
  · simp only [steps, List.foldl_cons, List.foldl_nil, step, drop_reg, set_reg, reduceCtorEq,
      if_true, if_false, hesp]
  · simp only [steps, List.foldl_cons, List.foldl_nil, step, top, set_reg, set_mem, reduceCtorEq,
      if_true, if_false]
    exact h₁.words.2.1
  · exact hpush.keeps

/-- The caller takes the argument off the stack. -/
theorem Restored.stack
    {m m' : Machine} {n : Nat} {p ra w : Word} {ws : List Word}
    (h : Stack m (n + 4) (p :: w :: ws)) (h' : Restored (m.push ra) m' p ra) :
    Stack m'.drop (n + 8) (w :: ws) := by
  have hesp : m'.drop.reg .esp = m.drop.reg .esp := by
    have hpush : (m.push ra).reg .esp + 4 = m.reg .esp := BitVec.sub_add_cancel _ _
    rw [drop_reg, drop_reg, if_pos rfl, if_pos rfl, h'.esp, hpush]
  have hkeeps : KeepsFrom (m.drop.reg .esp).toNat m.mem m'.mem := by
    have hle : (m.reg .esp).toNat ≤ (m.drop.reg .esp).toNat := by
      rw [h.drop_esp]
      exact Nat.le_add_right _ 4
    exact ((h.push_keeps ra).mono hle).trans (h'.keeps.mono ((push_esp_le h ra).trans hle))
  exact h.drop.congr hesp hkeeps

/-- On the way through `task_return` from `m₀`: `ebx` leads to the area. -/
structure Returning (m₀ m : Machine) (p : Word) (n : Nat) (ws : List Word) : Prop where
  stack : Stack m n ws
  ebx : m.reg .ebx = p
  ebp : m.reg .ebp = m₀.reg .esp
  cs : m.cs = m₀.cs
  pushes : Pushes m₀ m

namespace Returning

variable {m₀ m : Machine} {p : Word} {n : Nat} {ws : List Word}

theorem push
    (h : Returning m₀ m p (n + 4) ws) (v : Word) :
    Returning m₀ (m.push v) p n (v :: ws) where
  stack := h.stack.push v
  ebx := h.ebx
  ebp := h.ebp
  cs := h.cs
  pushes := h.pushes.push h.stack v

theorem pushField
    (h : Returning m₀ m p (n + 4) ws) (harea : AreaAbove m₀ p) {k : Word} (hk : k.toNat ≤ 44) :
    Returning m₀ (m.step (.pushMem .ebx k)) p n (load32 m₀.mem (p + k) :: ws) := by
  have hvalue : load32 m.mem (m.reg .ebx + k) = load32 m₀.mem (p + k) := by
    rw [h.ebx]
    exact harea.load32 h.pushes hk
  rw [← hvalue]
  exact h.push _

theorem set
    (h : Returning m₀ m p n ws) {r : Reg} (v : Word)
    (hesp : r ≠ .esp) (hebx : r ≠ .ebx) (hebp : r ≠ .ebp) :
    Returning m₀ (m.set r v) p n ws where
  stack := h.stack.set hesp
  ebx := (if_neg hebx.symm).trans h.ebx
  ebp := (if_neg hebp.symm).trans h.ebp
  cs := h.cs
  pushes :=
    ⟨h.pushes.keeps, by
      rw [show (m.set r v).reg .esp = m.reg .esp from if_neg hesp.symm]
      exact h.pushes.esp⟩

theorem setSeg
    (h : Returning m₀ m p n ws) (s : Seg) (v : Half) :
    Returning m₀ (m.setSeg s v) p n ws :=
  ⟨⟨h.stack.words, h.stack.room, h.stack.below⟩, h.ebx, h.ebp, h.cs,
    ⟨h.pushes.keeps, h.pushes.esp⟩⟩

/-- A field that is changed in `eax` before it is pushed. -/
theorem pushOr
    (h : Returning m₀ m p (n + 4) ws) (harea : AreaAbove m₀ p) {k : Word} (hk : k.toNat ≤ 44)
    (v : Word) :
    Returning m₀ (m.steps [.load .eax .ebx k, .or .eax v, .push .eax]) p n
      ((load32 m₀.mem (p + k) ||| v) :: ws) := by
  have hvalue : load32 m.mem (m.reg .ebx + k) = load32 m₀.mem (p + k) := by
    rw [h.ebx]
    exact harea.load32 h.pushes hk
  rw [← hvalue]
  exact ((h.set _ (by decide) (by decide) (by decide)).set _ (by decide) (by decide)
    (by decide)).push _

/-- The argument of the call is still where it was. -/
theorem pushArgument
    (h : Returning m₀ m p (n + 4) ws) {k : Nat} {ra : Word} (h₀ : Stack m₀ k [ra, p]) :
    Returning m₀ (m.step (.pushMem .ebp 4)) p n (p :: ws) := by
  have hroom : (m₀.reg .esp).toNat + 8 ≤ 2 ^ 32 := h₀.room
  have hadd : (m₀.reg .esp + 4).toNat = (m₀.reg .esp).toNat + 4 := by
    rw [BitVec.toNat_add]
    exact Nat.mod_eq_of_lt (by change _ + 4 < _; omega)
  have hvalue : load32 m.mem (m.reg .ebp + 4) = p := by
    rw [h.ebp, h.pushes.keeps.load32 (b := m₀.reg .esp + 4) (by omega) (by omega)]
    exact h₀.words.get (i := 1) rfl
  have hpush := h.push (load32 m.mem (m.reg .ebp + 4))
  rw [hvalue] at hpush
  rw [step, hvalue]
  exact hpush

theorem setSegs
    (h : Returning m₀ m p n ws) (k : Word) :
    Returning m₀ (m.steps [.load16 .eax .ebx k, .movSeg .ds .eax, .movSeg .es .eax,
      .movSeg .fs .eax, .movSeg .gs .eax]) p n ws :=
  ((((h.set _ (by decide) (by decide) (by decide)).setSeg _ _).setSeg _ _).setSeg _ _).setSeg _ _

end Returning

theorem taskReturnPushes_spec
    {m : Machine} {n : Nat} {ra p : Word}
    (h : Stack m (n + 24) [ra, p]) (harea : AreaAbove m p) :
    Returning m (m.steps taskReturnPushes) p n
      [p, load32 m.mem (p + 28), load32 m.mem (p + 32), load32 m.mem (p + 36) ||| 0x200,
        load32 m.mem (p + 40), load32 m.mem (p + 44), ra, p] := by
  have harg : load32 m.mem (m.reg .esp + 4) = p := h.words.get (i := 1) rfl
  have h0 : Returning m (m.steps (taskReturnPushes.take 2)) p (n + 24) [ra, p] :=
    ⟨(h.set (by decide)).set (by decide), harg, rfl, rfl, fun _ _ => rfl, Nat.le_refl _⟩
  have h1 := (h0.pushField harea (k := 44) (by decide)).pushField harea (k := 40) (by decide)
  have h2 := h1.pushOr harea (k := 36) (by decide) 0x200
  have h3 := (h2.pushField harea (k := 32) (by decide)).pushField harea (k := 28) (by decide)
  exact (h3.setSegs 44).pushArgument h

/-- The registers of a machine are those of a saved area, with interrupts on. -/
structure ReturnedFrom (mem : Memory) (p : Word) (m : Machine) : Prop where
  flags : userRegister m .flags = registersAt mem p .flags ||| 0x200
  others : ∀ f ∈ registersLayout, f ≠ .flags → userRegister m f = registersAt mem p f

/-- `task_return` loads every register from the area that it is passed. -/
theorem taskReturn_spec
    {m : Machine} {ra p : Word} (next : Word)
    (h : Stack m 32 [ra, p]) (harea : AreaAbove m p)
    (hcs : registersAt m.mem p .cs &&& 3 ≠ m.cs &&& 3) :
    ∃ m', m.exec (taskReturn next) = some m' ∧ ReturnedFrom m.mem p m' ∧
      KeepsFrom (m.reg .esp).toNat m.mem m'.mem := by
  have h1 := taskReturnPushes_spec (n := 8) h harea
  rw [taskReturn, exec_instrs]
  generalize m.steps taskReturnPushes = m₁ at h1 ⊢
  have hpush := h1.pushes.push h1.stack next
  have h2 : Restored (m₁.push next) ((m₁.push next).steps restoreGeneralPurposeRegisters) p next :=
    restoreGeneralPurposeRegisters_spec (n := 0) (h1.stack.push next)
      ⟨hpush.esp.trans harea.above, harea.room⟩
  generalize hm₂ : (m₁.push next).steps restoreGeneralPurposeRegisters = m₂ at h2
  have hcs₂ : load32 m.mem (p + 32) &&& 3 ≠ m₂.drop.cs &&& 3 := by
    rw [drop_cs, h2.cs, push_cs, h1.cs]
    exact hcs
  have hgeneral : ∀ f ∈ generalRegisters, userRegister m₂ f = registersAt m.mem p f := by
    intro f hf
    rw [h2.general f hf]
    refine harea.load32 hpush ?_
    revert f
    decide
  have hreturn := iretd_eq (h2.stack h1.stack) hcs₂
  have hreg (r : Reg) (hr : r ≠ .esp) : m₂.drop.iretd.reg r = m₂.reg r := by
    rw [hreturn]
    simp [hr]
  refine ⟨m₂.drop.iretd, ?_, ⟨?_, fun f hf hflags => ?_⟩, ?_⟩
  · rw [exec, hm₂, if_pos h2.eip]
    rfl
  · rw [hreturn]
    rfl
  · cases f with
    | edi => exact (hreg .edi (by decide)).trans (hgeneral .edi (by decide))
    | esi => exact (hreg .esi (by decide)).trans (hgeneral .esi (by decide))
    | ebp => exact (hreg .ebp (by decide)).trans (hgeneral .ebp (by decide))
    | ebx => exact (hreg .ebx (by decide)).trans (hgeneral .ebx (by decide))
    | edx => exact (hreg .edx (by decide)).trans (hgeneral .edx (by decide))
    | ecx => exact (hreg .ecx (by decide)).trans (hgeneral .ecx (by decide))
    | eax => exact (hreg .eax (by decide)).trans (hgeneral .eax (by decide))
    | reserved => exact absurd hf (by decide)
    | flags => exact absurd rfl hflags
    | ip | cs | esp | ss => rw [hreturn]; rfl
  · rw [hreturn]
    exact hpush.keeps.trans (h2.keeps.mono hpush.esp)

/-- The words of the frame that an interrupt leaves on the stack. -/
def frameWords (m : Machine) : List Word :=
  [m.reg .edi, m.reg .esi, m.reg .ebp, kernelStack - 20, m.reg .ebx, m.reg .edx, m.reg .ecx,
    m.reg .eax, m.eip, m.cs, m.eflags, m.reg .esp, m.ss]

/-- `interrupt_handler` is called with the number of the interrupt and a frame
that holds the registers of `u`. -/
structure Entered (u m : Machine) (n : Word) : Prop where
  top : m.top = n
  argument : load32 m.mem (m.reg .esp + 4) = interruptFrame
  esp : m.reg .esp + 8 = interruptFrame
  words : Words m.mem interruptFrame (frameWords u)
  keeps : KeepsFrom kernelStack.toNat u.mem m.mem
  cs : m.cs = kernelCodeSelector

theorem enterInterrupt_spec (u : Machine) (n : Word) : Entered u (enterInterrupt u n) n := by
  let m₀ := u.interrupt kernelCodeSelector kernelDataSelector kernelStack
  have hroom : 0x5FFFEC + 20 ≤ kernelStack.toNat := by decide
  have h0 : Stack m₀ (0x5FFFCC + 32) [u.eip, u.cs, u.eflags, u.reg .esp, u.ss] :=
    interrupt_stack u _ _ hroom
  have hkeeps := interrupt_keeps u kernelCodeSelector kernelDataSelector
    (by decide : 20 ≤ kernelStack.toNat)
  have hesp : m₀.reg .esp = kernelStack - 20 := by
    rw [show m₀.reg .esp = _ from interrupt_esp u _ _ _]
    decide
  have hframe : m₀.pushad.reg .esp = interruptFrame := by
    rw [pushad_esp, hesp]
    decide
  have h1 : Stack m₀.pushad (0x5FFFC8 + 4) (frameWords u) := by
    have h := h0.pushad
    rw [hesp] at h
    exact h
  have hle : (m₀.reg .esp).toNat ≤ kernelStack.toNat := by
    rw [hesp]
    decide
  have h2 : Stack (m₀.pushad.push (m₀.pushad.reg .esp)) (0x5FFFC4 + 4)
      (interruptFrame :: frameWords u) := by
    rw [hframe]
    exact h1.push interruptFrame
  have h3 := h2.push n
  have hpush := ((Pushes.pushad h0).push h1 (m₀.pushad.reg .esp)).push h2 n
  have hesp' : ((m₀.pushad.push (m₀.pushad.reg .esp)).push n).reg .esp = interruptFrame - 4 - 4 := by
    rw [push_reg, push_reg, if_pos rfl, if_pos rfl, hframe]
  have heq : enterInterrupt u n = (m₀.pushad.push (m₀.pushad.reg .esp)).push n := rfl
  rw [heq]
  refine ⟨h3.top_eq, h3.words.2.1, ?_, ?_, hkeeps.trans (hpush.keeps.mono hle), ?_⟩
  · rw [hesp']
    decide
  · have hwords := h3.words.2.2
    rw [hesp', BitVec.sub_add_cancel, BitVec.sub_add_cancel] at hwords
    exact hwords
  · rfl

/-- The frame holds the registers of the interrupted code under its own layout. -/
theorem frameAt_eq
    {mem : Memory} {frame : Ptr} {u : Machine}
    (h : Words mem frame (frameWords u)) {f : Field} (hf : f ∈ registersLayout) :
    frameAt mem frame f = userRegister u f := by
  refine h.get ?_
  cases f with
  | reserved => exact absurd hf (by decide)
  | edi | esi | ebp | ebx | edx | ecx | eax | ip | cs | flags | esp | ss => rfl

/-- Without the arguments of the call the frame is what is on the stack. -/
theorem frame_stack
    {m u : Machine}
    (hesp : m.reg .esp + 8 = interruptFrame) (h : Words m.mem interruptFrame (frameWords u)) :
    Stack (m.step (.add .esp 8)) 0 (frameWords u) := by
  have hreg : (m.step (.add .esp 8)).reg .esp = interruptFrame := hesp
  have hlength : (frameWords u).length = 13 := rfl
  refine ⟨?_, ?_, ?_⟩
  · rw [hreg]
    exact h
  · rw [hreg, hlength]
    decide
  · exact Nat.zero_le _

/-- The macro restores what the frame holds. -/
theorem interruptReturn_spec
    {m u : Machine}
    (hesp : m.reg .esp + 8 = interruptFrame) (h : Words m.mem interruptFrame (frameWords u))
    (hcs : u.cs &&& 3 ≠ m.cs &&& 3) :
    (∀ f ∈ registersLayout, userRegister (m.steps interruptReturn) f = userRegister u f) ∧
      (m.steps interruptReturn).mem = m.mem := by
  have hstack := frame_stack hesp h
  have heq : m.steps interruptReturn = (m.step (.add .esp 8)).popad.iretd := rfl
  obtain ⟨hstack', hcs', hmem, hedi, hesi, hebp, hebx, hedx, hecx, heax⟩ := hstack.popad
  have hcs'' : (m.step (.add .esp 8)).cs = m.cs := rfl
  have hmem' : (m.step (.add .esp 8)).mem = m.mem := rfl
  rw [heq]
  rw [hcs''] at hcs'
  rw [hmem'] at hmem
  generalize (m.step (.add .esp 8)).popad = t at *
  rw [iretd_eq hstack' (by rw [hcs']; exact hcs)]
  refine ⟨fun f hf => ?_, hmem⟩
  cases f with
  | edi => exact hedi
  | esi => exact hesi
  | ebp => exact hebp
  | reserved => exact absurd hf (by decide)
  | ebx => exact hebx
  | edx => exact hedx
  | ecx => exact hecx
  | eax => exact heax
  | ip | cs | flags | esp | ss => rfl

/-- The bytes of the saved registers of a task. -/
def InRegisters (task b : Ptr) : Prop :=
  task.toNat + 4 ≤ b.toNat ∧ b.toNat < task.toNat + 52

theorem offsetOf_le : ∀ f ∈ registersLayout, (offsetOf registersLayout f).toNat ≤ 44 := by
  decide

theorem offsetOf_apart :
    ∀ f ∈ registersLayout, ∀ g ∈ registersLayout, f ≠ g →
      (offsetOf registersLayout f).toNat + 4 ≤ (offsetOf registersLayout g).toNat ∨
      (offsetOf registersLayout g).toNat + 4 ≤ (offsetOf registersLayout f).toNat := by
  decide

section Fields

variable {task : Ptr}

theorem toNat_field
    (htask : task.toNat + 64 ≤ 2 ^ 32) {f : Field} (hf : f ∈ registersLayout) :
    (taskRegisters task + offsetOf registersLayout f).toNat =
      task.toNat + 4 + (offsetOf registersLayout f).toNat := by
  have hle := offsetOf_le f hf
  have h4 : (4 : Word).toNat = 4 := rfl
  rw [taskRegisters, BitVec.toNat_add, BitVec.toNat_add, h4]
  omega

theorem registersAt_storeField
    (htask : task.toNat + 64 ≤ 2 ^ 32) (mem : Memory) (v : Word) {f g : Field}
    (hf : f ∈ registersLayout) (hg : g ∈ registersLayout) :
    registersAt (storeField mem task f v) (taskRegisters task) g =
      if g = f then v else registersAt mem (taskRegisters task) g := by
  rcases Decidable.em (g = f) with rfl | hne
  · rw [if_pos rfl]
    exact load32_store32_same mem _ v
  · rw [if_neg hne]
    have hf' := toNat_field htask hf
    have hg' := toNat_field htask hg
    have hfle := offsetOf_le f hf
    have hgle := offsetOf_le g hg
    rcases offsetOf_apart g hg f hf hne with hlt | hlt
    · refine load32_store32_of_le mem v ?_ (by omega)
      rw [Below]
      omega
    · refine load32_store32_of_ge mem v ?_ (by omega)
      rw [Below]
      omega

/-- A store to a field changes bytes of the saved registers only. -/
theorem storeField_of_not_mem
    (htask : task.toNat + 64 ≤ 2 ^ 32) (mem : Memory) (v : Word) {f : Field}
    (hf : f ∈ registersLayout) {b : Ptr} (hb : ¬ InRegisters task b) :
    storeField mem task f v b = mem b := by
  have hf' := toNat_field htask hf
  have hle := offsetOf_le f hf
  rw [InRegisters] at hb
  rcases Nat.lt_or_ge b.toNat (task.toNat + 4) with hlt | hge
  · exact store32_of_lt mem v (by omega) (by omega)
  · refine store32_of_ge mem v ?_
    rw [Below]
    omega

/-- A frame that ends before the saved registers is read as before. -/
theorem frameAt_congr
    {mem mem' : Memory} {frame : Ptr}
    (hframe : frame.toNat + 52 ≤ task.toNat + 4) (htask : task.toNat + 64 ≤ 2 ^ 32)
    (hmem : ∀ b, ¬ InRegisters task b → mem' b = mem b) {f : Field} (hf : f ∈ registersLayout) :
    frameAt mem' frame f = frameAt mem frame f := by
  have hle : (offsetOf interruptFrameLayout f).toNat ≤ 48 := by
    revert f
    decide
  have hadd : (frame + offsetOf interruptFrameLayout f).toNat =
      frame.toNat + (offsetOf interruptFrameLayout f).toNat := by
    rw [BitVec.toNat_add]
    exact Nat.mod_eq_of_lt (by omega)
  refine load32_congr fun b hb => hmem b ?_
  have := toNat_of_sub_lt hb (by omega)
  rw [InRegisters]
  omega

theorem foldl_taskSaveField
    {frame : Ptr}
    (hframe : frame.toNat + 52 ≤ task.toNat + 4) (htask : task.toNat + 64 ≤ 2 ^ 32)
    {fs : List Field} (hfs : ∀ f ∈ fs, f ∈ registersLayout) (mem : Memory) :
    (∀ f ∈ registersLayout,
      registersAt (fs.foldl (taskSaveField task frame) mem) (taskRegisters task) f =
        if f ∈ fs then frameAt mem frame f else registersAt mem (taskRegisters task) f) ∧
      ∀ b, ¬ InRegisters task b → fs.foldl (taskSaveField task frame) mem b = mem b := by
  induction fs generalizing mem with
  | nil => exact ⟨fun f _ => rfl, fun b _ => rfl⟩
  | cons g fs ih =>
      have hg := hfs g List.mem_cons_self
      obtain ⟨hfields, hrest⟩ := ih (fun f hf => hfs f (List.mem_cons_of_mem g hf))
        (taskSaveField task frame mem g)
      have hstore : ∀ b, ¬ InRegisters task b → taskSaveField task frame mem g b = mem b :=
        fun b hb => storeField_of_not_mem htask mem _ hg hb
      refine ⟨fun f hf => ?_, fun b hb => (hrest b hb).trans (hstore b hb)⟩
      rw [List.foldl_cons, hfields f hf, frameAt_congr hframe htask hstore hf]
      rcases Decidable.em (f ∈ fs) with hmem | hmem
      · rw [if_pos hmem, if_pos (List.mem_cons_of_mem g hmem)]
      · rw [if_neg hmem, taskSaveField, registersAt_storeField htask mem _ hg hf]
        rcases Decidable.em (f = g) with rfl | hne
        · rw [if_pos rfl, if_pos List.mem_cons_self]
        · rw [if_neg hne, if_neg (by simp [hne, hmem])]

/-- `task_save_state` copies every register and touches nothing else. -/
theorem taskSaveState_spec
    {frame : Ptr}
    (hframe : frame.toNat + 52 ≤ task.toNat + 4) (htask : task.toNat + 64 ≤ 2 ^ 32)
    (mem : Memory) :
    (∀ f ∈ registersLayout,
      registersAt (taskSaveState mem task frame) (taskRegisters task) f = frameAt mem frame f) ∧
      ∀ b, ¬ InRegisters task b → taskSaveState mem task frame b = mem b := by
  have hsaved : ∀ f ∈ savedFields, f ∈ registersLayout := by decide
  have hall : ∀ f ∈ registersLayout, f ∈ savedFields := by decide
  obtain ⟨hfields, hrest⟩ := foldl_taskSaveField hframe htask hsaved mem
  refine ⟨fun f hf => ?_, hrest⟩
  rw [taskSaveState, hfields f hf, if_pos (hall f hf)]

theorem registersAt_fill_zero
    (htask : task.toNat + 64 ≤ 2 ^ 32) (mem : Memory) {f : Field} (hf : f ∈ registersLayout) :
    registersAt (fill mem task 0 taskSize) (taskRegisters task) f = 0 := by
  have hf' := toNat_field htask hf
  have hle := offsetOf_le f hf
  exact load32_fill_zero mem (by omega) (by rw [taskSize]; omega) (by omega)

/-- `task_init` gives a task its first registers and touches nothing else. -/
theorem taskInit_spec
    (htask : task.toNat + 64 ≤ 2 ^ 32) (mem : Memory) (entry : Option Word) :
    (∀ f ∈ registersLayout,
      registersAt (taskInit mem task entry) (taskRegisters task) f = initialRegisters entry f) ∧
      ∀ b : Ptr, b.toNat < task.toNat ∨ task.toNat + 64 ≤ b.toNat →
        taskInit mem task entry b = mem b := by
  have hip : Field.ip ∈ registersLayout := by decide
  have hss : Field.ss ∈ registersLayout := by decide
  have hcs : Field.cs ∈ registersLayout := by decide
  have hesp : Field.esp ∈ registersLayout := by decide
  refine ⟨fun f hf => ?_, fun b hb => ?_⟩
  · rw [taskInit, registersAt_storeField htask _ _ hesp hf, registersAt_storeField htask _ _ hcs hf,
      registersAt_storeField htask _ _ hss hf]
    cases entry with
    | none =>
        rw [Option.elim_none, registersAt_storeField htask _ _ hip hf,
          registersAt_fill_zero htask mem hf]
        cases f <;> rfl
    | some e =>
        rw [Option.elim_some, registersAt_storeField htask _ _ hip hf,
          registersAt_storeField htask _ _ hip hf, registersAt_fill_zero htask mem hf]
        cases f <;> rfl
  · have hnot : ¬ InRegisters task b := by
      rw [InRegisters]
      omega
    have hfill : fill mem task 0 taskSize b = mem b :=
      fill_of_not_mem mem 0 htask hb
    rw [taskInit, storeField_of_not_mem htask _ _ hesp hnot,
      storeField_of_not_mem htask _ _ hcs hnot, storeField_of_not_mem htask _ _ hss hnot]
    cases entry with
    | none => exact (storeField_of_not_mem htask _ _ hip hnot).trans hfill
    | some e =>
        exact (storeField_of_not_mem htask _ _ hip hnot).trans
          ((storeField_of_not_mem htask _ _ hip hnot).trans hfill)

end Fields

end PeachOS
