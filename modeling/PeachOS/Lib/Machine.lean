import PeachOS.Lib.ByteMemory

/-!
# A fragment of the i386

The instructions by which a kernel saves and restores registers, over a
register file and a flat memory.  Selectors are the 32-bit words that
interrupts push and pop; arithmetic leaves the flags alone, since nothing here
reads them before `iretd` replaces them.  Straight code is a list of
instructions.
-/

namespace PeachOS
namespace Lib

inductive Reg where
  | edi | esi | ebp | esp | ebx | edx | ecx | eax
deriving DecidableEq, Repr

/-- The data segment registers that code sets by hand. -/
inductive Seg where
  | ds | es | fs | gs
deriving DecidableEq, Repr

structure Machine where
  reg : Reg → BitVec 32
  seg : Seg → BitVec 16
  eip : BitVec 32
  cs : BitVec 32
  ss : BitVec 32
  eflags : BitVec 32
  mem : Memory

inductive Instr where
  | mov (dst src : Reg)
  | load (dst base : Reg) (disp : BitVec 32)
  | loadAt (dst : Reg) (addr : BitVec 32)
  | storeAt (addr : BitVec 32) (src : Reg)
  /-- The low half of a register takes a half word of memory. -/
  | load16 (dst base : Reg) (disp : BitVec 32)
  | imm16 (dst : Reg) (v : BitVec 16)
  | movSeg (dst : Seg) (src : Reg)
  | push (src : Reg)
  | pushMem (base : Reg) (disp : BitVec 32)
  | pushImm (v : BitVec 32)
  | or (dst : Reg) (v : BitVec 32)
  | add (dst : Reg) (v : BitVec 32)
  | pushad
  | popad
  | ret
  | iretd

/-- A line of code: an instruction, or a call of straight code that returns to
the address `next`. -/
inductive Line where
  | instr (i : Instr)
  | call (next : BitVec 32) (body : List Instr)

namespace Machine

def set (m : Machine) (r : Reg) (v : BitVec 32) : Machine :=
  { m with reg := fun q => if q = r then v else m.reg q }

def setSeg (m : Machine) (s : Seg) (v : BitVec 16) : Machine :=
  { m with seg := fun q => if q = s then v else m.seg q }

def push (m : Machine) (v : BitVec 32) : Machine :=
  let a := m.reg .esp - 4
  { m.set .esp a with mem := store32 m.mem a v }

def top (m : Machine) : BitVec 32 := load32 m.mem (m.reg .esp)

def drop (m : Machine) : Machine := m.set .esp (m.reg .esp + 4)

/-- Replace the low half of a register. -/
def setLow (m : Machine) (r : Reg) (v : BitVec 16) : Machine :=
  m.set r ((m.reg r).extractLsb' 16 16 ++ v)

/-- `pushad` pushes the stack pointer from before its first push. -/
def pushad (m : Machine) : Machine :=
  ((((((((m.push (m.reg .eax)).push (m.reg .ecx)).push (m.reg .edx)).push (m.reg .ebx)).push
    (m.reg .esp)).push (m.reg .ebp)).push (m.reg .esi)).push (m.reg .edi))

def pop (m : Machine) (r : Reg) : Machine := m.drop.set r m.top

/-- `popad` skips the stack pointer that `pushad` left. -/
def popad (m : Machine) : Machine :=
  ((((((((m.pop .edi).pop .esi).pop .ebp).drop).pop .ebx).pop .edx).pop .ecx).pop .eax)

/-- `iretd` also pops the stack if it leaves for another privilege level. -/
def iretd (m : Machine) : Machine :=
  let ip := m.top
  let m₁ := m.drop
  let cs := m₁.top
  let m₂ := m₁.drop
  let flags := m₂.top
  let m₃ := m₂.drop
  let t := { m₃ with eip := ip, cs := cs, eflags := flags }
  if cs &&& 3 = m.cs &&& 3 then t
  else
    let esp := m₃.top
    let ss := m₃.drop.top
    { t.set .esp esp with ss := ss }

def step (m : Machine) : Instr → Machine
  | .mov dst src => m.set dst (m.reg src)
  | .load dst base disp => m.set dst (load32 m.mem (m.reg base + disp))
  | .loadAt dst addr => m.set dst (load32 m.mem addr)
  | .storeAt addr src => { m with mem := store32 m.mem addr (m.reg src) }
  | .load16 dst base disp =>
      m.setLow dst ((load32 m.mem (m.reg base + disp)).setWidth 16)
  | .imm16 dst v => m.setLow dst v
  | .movSeg dst src => m.setSeg dst ((m.reg src).setWidth 16)
  | .push src => m.push (m.reg src)
  | .pushMem base disp => m.push (load32 m.mem (m.reg base + disp))
  | .pushImm v => m.push v
  | .or dst v => m.set dst (m.reg dst ||| v)
  | .add dst v => m.set dst (m.reg dst + v)
  | .pushad => m.pushad
  | .popad => m.popad
  | .ret => { m.drop with eip := m.top }
  | .iretd => m.iretd

def steps (m : Machine) (is : List Instr) : Machine :=
  is.foldl step m

/-- A call comes back if the code returns to the address behind it. -/
def exec (m : Machine) : List Line → Option Machine
  | [] => some m
  | .instr i :: ls => (m.step i).exec ls
  | .call next body :: ls =>
      let m := (m.push next).steps body
      if m.eip = next then m.exec ls else none

/-- An interrupt from user mode enters the kernel with an empty stack at
`esp0`, and with interrupts off. -/
def interrupt (m : Machine) (cs0 ss0 esp0 : BitVec 32) : Machine :=
  let t := { m.set .esp esp0 with cs := cs0, ss := ss0, eflags := m.eflags &&& ~~~0x200 }
  ((((t.push m.ss).push (m.reg .esp)).push m.eflags).push m.cs).push m.eip

/-- Instructions run before the lines behind them. -/
theorem exec_instrs (m : Machine) (is : List Instr) (ls : List Line) :
    m.exec (is.map Line.instr ++ ls) = (m.steps is).exec ls := by
  induction is generalizing m with
  | nil => rfl
  | cons i is ih => exact ih (m.step i)

section Registers

variable (m : Machine) (r q : Reg) (s : Seg) (v : BitVec 32)

@[simp] theorem set_reg : (m.set r v).reg q = if q = r then v else m.reg q :=
  rfl

@[simp] theorem set_mem : (m.set r v).mem = m.mem :=
  rfl

@[simp] theorem push_reg :
    (m.push v).reg q = if q = .esp then m.reg .esp - 4 else m.reg q :=
  rfl

@[simp] theorem push_cs : (m.push v).cs = m.cs :=
  rfl

@[simp] theorem drop_reg :
    m.drop.reg q = if q = .esp then m.reg .esp + 4 else m.reg q :=
  rfl

@[simp] theorem drop_mem : m.drop.mem = m.mem :=
  rfl

@[simp] theorem drop_cs : m.drop.cs = m.cs :=
  rfl

end Registers

/-- The words on the stack, with `n` bytes of room for more. -/
structure Stack (m : Machine) (n : Nat) (ws : List (BitVec 32)) : Prop where
  words : Words m.mem (m.reg .esp) ws
  room : (m.reg .esp).toNat + 4 * ws.length ≤ 2 ^ 32
  below : n ≤ (m.reg .esp).toNat

/-- From the address `a` on, nothing changes. -/
def KeepsFrom (a : Nat) (mem mem' : Memory) : Prop :=
  ∀ b : BitVec 32, a ≤ b.toNat → mem' b = mem b

theorem KeepsFrom.load32
    {a : Nat} {mem mem' : Memory} (h : KeepsFrom a mem mem')
    {b : BitVec 32} (hb : a ≤ b.toNat) (hroom : b.toNat + 4 ≤ 2 ^ 32) :
    load32 mem' b = load32 mem b :=
  load32_congr fun c hc => h c (hb.trans (toNat_of_sub_lt hc hroom).1)

theorem KeepsFrom.trans
    {a : Nat} {mem mem' mem'' : Memory}
    (h : KeepsFrom a mem mem') (h' : KeepsFrom a mem' mem'') :
    KeepsFrom a mem mem'' :=
  fun b hb => (h' b hb).trans (h b hb)

theorem KeepsFrom.mono
    {a a' : Nat} {mem mem' : Memory}
    (h : KeepsFrom a mem mem') (ha : a ≤ a') :
    KeepsFrom a' mem mem' :=
  fun b hb => h b (ha.trans hb)

namespace Stack

variable {m : Machine} {n : Nat} {v : BitVec 32} {ws : List (BitVec 32)}

theorem push
    (h : Stack m (n + 4) ws) (v : BitVec 32) :
    Stack (m.push v) n (v :: ws) := by
  have hlo : 4 ≤ (m.reg .esp).toNat := (Nat.le_add_left 4 n).trans h.below
  have hesp : ((m.push v).reg .esp).toNat = (m.reg .esp).toNat - 4 := toNat_sub_four hlo
  have hbelow := h.below
  have hroom := h.room
  refine ⟨h.words.push hlo hroom v, ?_, ?_⟩
  · rw [hesp, List.length_cons]
    omega
  · rw [hesp]
    omega

/-- A push writes below the stack. -/
theorem push_keeps
    (h : Stack m (n + 4) ws) (v : BitVec 32) :
    KeepsFrom (m.reg .esp).toNat m.mem (m.push v).mem := by
  intro b hb
  refine store32_of_ge m.mem v ?_
  have hlo : 4 ≤ (m.reg .esp).toNat := (Nat.le_add_left 4 n).trans h.below
  rw [Below, toNat_sub_four hlo]
  omega

theorem top_eq (h : Stack m n (v :: ws)) : m.top = v :=
  h.words.1

theorem drop_esp
    {v' : BitVec 32} (h : Stack m n (v :: v' :: ws)) :
    (m.drop.reg .esp).toNat = (m.reg .esp).toNat + 4 := by
  have hroom := h.room
  rw [List.length_cons, List.length_cons] at hroom
  rw [drop_reg, if_pos rfl, BitVec.toNat_add]
  exact Nat.mod_eq_of_lt (by change _ + 4 < _; omega)

theorem drop
    {v' : BitVec 32} (h : Stack m n (v :: v' :: ws)) :
    Stack m.drop (n + 4) (v' :: ws) := by
  have hroom := h.room
  have hbelow := h.below
  have hesp := h.drop_esp
  rw [List.length_cons] at hroom
  exact ⟨h.words.2, by omega, by omega⟩

theorem congr
    (h : Stack m n ws) {m' : Machine} (hesp : m'.reg .esp = m.reg .esp)
    (hkeeps : KeepsFrom (m.reg .esp).toNat m.mem m'.mem) :
    Stack m' n ws := by
  refine ⟨?_, ?_, ?_⟩
  · rw [hesp]
    exact h.words.congr h.room fun b hb _ => hkeeps b hb
  · rw [hesp]
    exact h.room
  · rw [hesp]
    exact h.below

/-- Another register does not matter. -/
theorem set
    (h : Stack m n ws) {r : Reg} (hr : r ≠ .esp) :
    Stack (m.set r v) n ws :=
  h.congr (if_neg hr.symm) fun _ _ => rfl

theorem pop
    {v' : BitVec 32} (h : Stack m n (v :: v' :: ws)) {r : Reg} (hr : r ≠ .esp) :
    Stack (m.pop r) (n + 4) (v' :: ws) :=
  h.drop.set hr

theorem pop_reg
    (h : Stack m n (v :: ws)) {r q : Reg} (hq : q ≠ .esp) :
    (m.pop r).reg q = if q = r then v else m.reg q := by
  rw [Machine.pop, set_reg, h.top_eq, drop_reg, if_neg hq]

theorem pushad
    (h : Stack m (n + 32) ws) :
    Stack m.pushad n (m.reg .edi :: m.reg .esi :: m.reg .ebp :: m.reg .esp :: m.reg .ebx ::
      m.reg .edx :: m.reg .ecx :: m.reg .eax :: ws) :=
  (((((((h.push _).push _).push _).push _).push _).push _).push _).push _

end Stack

/-- A stack that is pushed to stays behind what it was. -/
theorem push_esp_le
    {m : Machine} {n : Nat} {ws : List (BitVec 32)}
    (h : Stack m (n + 4) ws) (v : BitVec 32) :
    ((m.push v).reg .esp).toNat ≤ (m.reg .esp).toNat := by
  have hlo : 4 ≤ (m.reg .esp).toNat := (Nat.le_add_left 4 n).trans h.below
  have hesp : ((m.push v).reg .esp).toNat = (m.reg .esp).toNat - 4 := toNat_sub_four hlo
  omega

/-- Code that pushes: it writes below the stack only. -/
structure Pushes (m m' : Machine) : Prop where
  keeps : KeepsFrom (m.reg .esp).toNat m.mem m'.mem
  esp : (m'.reg .esp).toNat ≤ (m.reg .esp).toNat

theorem Pushes.push
    {m₀ m : Machine} {n : Nat} {ws : List (BitVec 32)}
    (h : Pushes m₀ m) (hs : Stack m (n + 4) ws) (v : BitVec 32) :
    Pushes m₀ (m.push v) where
  keeps := h.keeps.trans ((hs.push_keeps v).mono h.esp)
  esp := (push_esp_le hs v).trans h.esp

theorem Pushes.pushad
    {m : Machine} {n : Nat} {ws : List (BitVec 32)}
    (h : Stack m (n + 32) ws) :
    Pushes m m.pushad := by
  have h0 : Pushes m m := ⟨fun _ _ => rfl, Nat.le_refl _⟩
  have h1 := h.push (m.reg .eax)
  have h2 := h1.push (m.reg .ecx)
  have h3 := h2.push (m.reg .edx)
  have h4 := h3.push (m.reg .ebx)
  have h5 := h4.push (m.reg .esp)
  have h6 := h5.push (m.reg .ebp)
  have h7 := h6.push (m.reg .esi)
  exact (((((((h0.push h _).push h1 _).push h2 _).push h3 _).push h4 _).push h5 _).push h6 _).push
    h7 _

theorem stack_set_esp
    (m : Machine) {esp : BitVec 32} {n : Nat}
    (h : n ≤ esp.toNat) :
    Stack (m.set .esp esp) n [] :=
  ⟨trivial, esp.isLt.le, h⟩

/-- An interrupt leaves its return address and the user's stack. -/
theorem interrupt_stack
    (m : Machine) (cs0 ss0 : BitVec 32) {esp0 : BitVec 32} {n : Nat}
    (h : n + 20 ≤ esp0.toNat) :
    Stack (m.interrupt cs0 ss0 esp0) n [m.eip, m.cs, m.eflags, m.reg .esp, m.ss] := by
  have h0 : Stack { m.set .esp esp0 with
      cs := cs0, ss := ss0, eflags := m.eflags &&& ~~~0x200 } (n + 20) [] :=
    ⟨trivial, esp0.isLt.le, h⟩
  exact ((((h0.push m.ss).push (m.reg .esp)).push m.eflags).push m.cs).push m.eip

theorem interrupt_keeps
    (m : Machine) (cs0 ss0 : BitVec 32) {esp0 : BitVec 32}
    (h : 20 ≤ esp0.toNat) :
    KeepsFrom esp0.toNat m.mem (m.interrupt cs0 ss0 esp0).mem := by
  let t : Machine := { m.set .esp esp0 with
    cs := cs0, ss := ss0, eflags := m.eflags &&& ~~~0x200 }
  have h0 : Stack t (0 + 20) [] := ⟨trivial, esp0.isLt.le, h⟩
  have hp : Pushes t t := ⟨fun _ _ => rfl, Nat.le_refl _⟩
  have h1 := h0.push m.ss
  have h2 := h1.push (m.reg .esp)
  have h3 := h2.push m.eflags
  have h4 := h3.push m.cs
  exact (((((hp.push h0 _).push h1 _).push h2 _).push h3 _).push h4 _).keeps

theorem interrupt_esp (m : Machine) (cs0 ss0 esp0 : BitVec 32) :
    (m.interrupt cs0 ss0 esp0).reg .esp = esp0 - 4 - 4 - 4 - 4 - 4 :=
  rfl

theorem pushad_esp (m : Machine) :
    m.pushad.reg .esp = m.reg .esp - 4 - 4 - 4 - 4 - 4 - 4 - 4 - 4 :=
  rfl

/-- `popad` undoes `pushad`, but for the stack pointer. -/
theorem Stack.popad
    {m : Machine} {n : Nat} {edi esi ebp esp ebx edx ecx eax w : BitVec 32}
    {ws : List (BitVec 32)}
    (h : Stack m n (edi :: esi :: ebp :: esp :: ebx :: edx :: ecx :: eax :: w :: ws)) :
    Stack m.popad (n + 32) (w :: ws) ∧ m.popad.cs = m.cs ∧ m.popad.mem = m.mem ∧
      m.popad.reg .edi = edi ∧ m.popad.reg .esi = esi ∧ m.popad.reg .ebp = ebp ∧
      m.popad.reg .ebx = ebx ∧ m.popad.reg .edx = edx ∧ m.popad.reg .ecx = ecx ∧
      m.popad.reg .eax = eax := by
  have h1 := h.pop (r := .edi) (by decide)
  have h2 := h1.pop (r := .esi) (by decide)
  have h3 := h2.pop (r := .ebp) (by decide)
  have h4 := h3.drop
  have h5 := h4.pop (r := .ebx) (by decide)
  have h6 := h5.pop (r := .edx) (by decide)
  have h7 := h6.pop (r := .ecx) (by decide)
  have h8 := h7.pop (r := .eax) (by decide)
  refine ⟨h8, rfl, rfl, ?_⟩
  rw [Machine.popad]
  simp [h7.pop_reg, h6.pop_reg, h5.pop_reg, h4.pop_reg, h2.pop_reg, h1.pop_reg, h.pop_reg]

/-- The return to another privilege level takes its five words. -/
theorem iretd_eq
    {m : Machine} {n : Nat} {ip cs flags esp ss : BitVec 32} {ws : List (BitVec 32)}
    (h : Stack m n (ip :: cs :: flags :: esp :: ss :: ws)) (hcs : cs &&& 3 ≠ m.cs &&& 3) :
    m.iretd =
      { m.set .esp esp with eip := ip, cs := cs, eflags := flags, ss := ss } := by
  have h1 := h.drop
  have h2 := h1.drop
  have h3 := h2.drop
  have h4 := h3.drop
  have hreg : (fun q => if q = Reg.esp then esp else m.drop.drop.drop.reg q) =
      fun q => if q = Reg.esp then esp else m.reg q := by
    funext q
    rcases Decidable.em (q = .esp) with hq | hq
    · rw [if_pos hq, if_pos hq]
    · simp [hq]
  rw [iretd, h.top_eq, h1.top_eq, h2.top_eq, h3.top_eq, h4.top_eq]
  exact (if_neg hcs).trans (congrArg (fun reg => ({ m with
    reg := reg, eip := ip, cs := cs, eflags := flags, ss := ss } : Machine)) hreg)

theorem set_comm
    (m : Machine) {r q : Reg} (h : r ≠ q) (v w : BitVec 32) :
    (m.set r v).set q w = (m.set q w).set r v := by
  have hreg : ((m.set r v).set q w).reg = ((m.set q w).set r v).reg := by
    funext p
    simp only [set_reg]
    split_ifs with hq hr
    · exact absurd (hr.symm.trans hq) h
    · rfl
    · rfl
    · rfl
  calc (m.set r v).set q w
      = { m with reg := ((m.set r v).set q w).reg } := rfl
    _ = (m.set q w).set r v := by rw [hreg]; rfl

/-- A register that is set before the return is the same behind it. -/
theorem set_iretd
    {m : Machine} {n : Nat} {ip cs flags esp ss : BitVec 32} {ws : List (BitVec 32)}
    (h : Stack m n (ip :: cs :: flags :: esp :: ss :: ws)) (hcs : cs &&& 3 ≠ m.cs &&& 3)
    {r : Reg} (hr : r ≠ .esp) (v : BitVec 32) :
    (m.set r v).iretd = m.iretd.set r v := by
  rw [iretd_eq (h.set hr) hcs, iretd_eq h hcs, set_comm m hr]
  rfl

end Machine
end Lib
end PeachOS
