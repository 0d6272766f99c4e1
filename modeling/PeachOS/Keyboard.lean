import PeachOS.Config
import PeachOS.Lib.Ring

/-!
# The keyboard buffer of a process

`keyboard_push` and `keyboard_pop` of `keyboard.c`.  A key goes to the current
process, and is read by the process of the current task.
-/

namespace PeachOS

open Lib

/-- `PEACHOS_KEYBOARD_BUFFER_SIZE`. -/
abbrev keyboardBufferSize : Nat := 1024

/-- `struct keyboard_buffer`; the counters are of type `int`. -/
structure KeyboardBuffer where
  buffer : Fin keyboardBufferSize → Byte
  tail : BitVec 32
  head : BitVec 32

/-- What the keyboard finds in the kernel. -/
structure KeyboardState where
  processCurrent : Ptr
  taskCurrent : Ptr
  /-- `task->process`. -/
  process : Ptr → Ptr
  keyboard : Ptr → KeyboardBuffer

/-- The `int` is compared with a `size_t`, and so read as unsigned. -/
def keyboardGetTailIndex (keyboard : KeyboardBuffer) : Fin keyboardBufferSize :=
  Fin.ofNat keyboardBufferSize keyboard.tail.toNat

def keyboardGetHeadIndex (keyboard : KeyboardBuffer) : Fin keyboardBufferSize :=
  Fin.ofNat keyboardBufferSize keyboard.head.toNat

def KeyboardState.set (s : KeyboardState) (p : Ptr) (keyboard : KeyboardBuffer) :
    KeyboardState :=
  { s with keyboard := Function.update s.keyboard p keyboard }

def keyboardPush (s : KeyboardState) (c : Byte) : KeyboardState :=
  if s.processCurrent = 0 then
    s
  else if c = 0 then
    s
  else
    let keyboard := s.keyboard s.processCurrent
    let realIndex := keyboardGetTailIndex keyboard
    s.set s.processCurrent
      { keyboard with
        buffer := Function.update keyboard.buffer realIndex c
        tail := keyboard.tail + 1 }

/-- The character is returned as well. -/
def keyboardPop (s : KeyboardState) : Byte × KeyboardState :=
  if s.taskCurrent = 0 then
    (0, s)
  else
    let process := s.process s.taskCurrent
    let keyboard := s.keyboard process
    let realIndex := keyboardGetHeadIndex keyboard
    let c := keyboard.buffer realIndex
    if c = 0 then
      (0, s)
    else
      (c, s.set process
        { keyboard with
          buffer := Function.update keyboard.buffer realIndex 0
          head := keyboard.head + 1 })

/-- What happens to the buffers: a key is hit, a task asks for one, and the
scheduler goes to other tasks in between. -/
inductive KeyboardEvent where
  | push (c : Byte)
  | pop
  | schedule (process task : Ptr) (processOf : Ptr → Ptr)

namespace KeyboardState

def step (s : KeyboardState) : KeyboardEvent → KeyboardState
  | .push c => keyboardPush s c
  | .pop => (keyboardPop s).2
  | .schedule process task processOf =>
      { s with processCurrent := process, taskCurrent := task, process := processOf }

def run (s : KeyboardState) (events : List KeyboardEvent) : KeyboardState :=
  events.foldl step s

/-- The task that runs belongs to the process. -/
def Reads (s : KeyboardState) (p : Ptr) : Prop :=
  s.taskCurrent ≠ 0 ∧ s.process s.taskCurrent = p

instance (s : KeyboardState) (p : Ptr) : Decidable (s.Reads p) :=
  inferInstanceAs (Decidable (_ ∧ _))

/-- The character that an event pushes to the process. -/
def pushedBy (s : KeyboardState) (p : Ptr) : KeyboardEvent → List Byte
  | .push c => if s.processCurrent = p ∧ c ≠ 0 then [c] else []
  | _ => []

/-- The non-zero result of a pop by the process. -/
def poppedBy (s : KeyboardState) (p : Ptr) : KeyboardEvent → List Byte
  | .pop => if s.Reads p ∧ (keyboardPop s).1 ≠ 0 then [(keyboardPop s).1] else []
  | _ => []

def pushed (s : KeyboardState) (p : Ptr) : List KeyboardEvent → List Byte
  | [] => []
  | e :: es => s.pushedBy p e ++ (s.step e).pushed p es

def popped (s : KeyboardState) (p : Ptr) : List KeyboardEvent → List Byte
  | [] => []
  | e :: es => s.poppedBy p e ++ (s.step e).popped p es

/-- At no time more characters are unread than the buffer has room for. -/
def NeverOverfull (s : KeyboardState) (p : Ptr) (events : List KeyboardEvent) : Prop :=
  ∀ es, es <+: events →
    (s.pushed p es).length ≤ (s.popped p es).length + keyboardBufferSize

end KeyboardState

namespace KeyboardBuffer

/-- The reader has caught up with the writer, wherever they are. -/
structure Empty (keyboard : KeyboardBuffer) : Prop where
  slots : ∀ i, keyboard.buffer i = 0
  tail : keyboard.tail = keyboard.head

/-- The buffer holds exactly the unread characters. -/
structure Holds (keyboard : KeyboardBuffer) (unread : List Byte) : Prop where
  ring : Ring keyboard.buffer keyboard.head.toNat unread
  tail : keyboard.tail = keyboard.head + BitVec.ofNat 32 unread.length

variable {keyboard : KeyboardBuffer} {unread : List Byte}

theorem Empty.holds
    (h : keyboard.Empty) :
    keyboard.Holds [] where
  ring := Ring.empty _ h.slots
  tail := by simp [h.tail]

/-- The size of the buffer divides `2^32`, so the counters may wrap. -/
theorem toNat_add_mod
    (x : BitVec 32) (n : Nat) :
    (x + BitVec.ofNat 32 n).toNat % keyboardBufferSize = (x.toNat + n) % keyboardBufferSize := by
  rw [BitVec.toNat_add, BitVec.toNat_ofNat]
  unfold keyboardBufferSize
  omega

theorem Holds.push
    (h : keyboard.Holds unread) {c : Byte}
    (hroom : unread.length < keyboardBufferSize) (hc : c ≠ 0) :
    Holds
      { keyboard with
        buffer := Function.update keyboard.buffer (keyboardGetTailIndex keyboard) c
        tail := keyboard.tail + 1 }
      (unread ++ [c]) where
  ring := by
    refine h.ring.push ?_ hroom hc
    rw [h.tail]
    exact toNat_add_mod _ _
  tail := by
    dsimp only
    rw [List.length_append, List.length_singleton, BitVec.ofNat_add, ← BitVec.add_assoc, ← h.tail]
    rfl

theorem Holds.read
    (h : keyboard.Holds unread) :
    keyboard.buffer (keyboardGetHeadIndex keyboard) = unread.headD 0 :=
  h.ring.read

theorem Holds.pop
    {c : Byte} (h : keyboard.Holds (c :: unread)) :
    Holds
      { keyboard with
        buffer := Function.update keyboard.buffer (keyboardGetHeadIndex keyboard) 0
        head := keyboard.head + 1 }
      unread where
  ring := h.ring.pop.congr (toNat_add_mod keyboard.head 1)
  tail := by
    dsimp only
    rw [h.tail, List.length_cons, Nat.add_comm, BitVec.ofNat_add, ← BitVec.add_assoc]
    rfl

end KeyboardBuffer

namespace KeyboardState

variable {s : KeyboardState} {p : Ptr} {unread : List Byte}

theorem set_keyboard_self
    (s : KeyboardState) (p : Ptr) (keyboard : KeyboardBuffer) :
    (s.set p keyboard).keyboard p = keyboard :=
  Function.update_self ..

theorem set_keyboard_of_ne
    (s : KeyboardState) {p q : Ptr} (keyboard : KeyboardBuffer)
    (h : p ≠ q) :
    (s.set q keyboard).keyboard p = s.keyboard p :=
  Function.update_of_ne h ..

/-- A key of the process goes behind what it has not read; a key of another
process, and the character 0, leave its buffer alone. -/
theorem push_holds
    (hp : p ≠ 0)
    (h : (s.keyboard p).Holds unread) (c : Byte)
    (hroom : (unread ++ s.pushedBy p (.push c)).length ≤ keyboardBufferSize) :
    ((keyboardPush s c).keyboard p).Holds (unread ++ s.pushedBy p (.push c)) := by
  rw [pushedBy] at hroom ⊢
  by_cases hcurrent : s.processCurrent = p
  · by_cases hc : c = 0
    · rw [if_neg (fun hpush => hpush.2 hc), List.append_nil, keyboardPush,
        if_neg (hcurrent ▸ hp), if_pos hc]
      exact h
    · rw [if_pos ⟨hcurrent, hc⟩] at hroom ⊢
      rw [keyboardPush, if_neg (hcurrent ▸ hp), if_neg hc, hcurrent]
      dsimp only
      rw [set_keyboard_self]
      exact h.push (by rw [List.length_append, List.length_singleton] at hroom; exact hroom) hc
  · rw [if_neg (fun hpush => hcurrent hpush.1), List.append_nil, keyboardPush]
    split_ifs
    · exact h
    · exact h
    · dsimp only
      rw [set_keyboard_of_ne _ _ (Ne.symm hcurrent)]
      exact h

/-- A pop by the process returns what is in the slot before it. -/
theorem keyboardPop_fst
    (hreads : s.Reads p) :
    (keyboardPop s).1 = (s.keyboard p).buffer (keyboardGetHeadIndex (s.keyboard p)) := by
  rw [keyboardPop, if_neg hreads.1, hreads.2]
  dsimp only
  split_ifs with hzero
  · exact hzero.symm
  · rfl

/-- What the process pops. -/
theorem pop_result
    (h : (s.keyboard p).Holds unread)
    (hreads : s.Reads p) :
    (keyboardPop s).1 = unread.headD 0 :=
  (keyboardPop_fst hreads).trans h.read

/-- What the process pops is taken off, and a pop of another process leaves
the buffer alone. -/
theorem pop_holds
    (h : (s.keyboard p).Holds unread) :
    ∃ rest, unread = s.poppedBy p .pop ++ rest ∧
      ((keyboardPop s).2.keyboard p).Holds rest := by
  rw [poppedBy]
  by_cases hreads : s.Reads p
  · rw [pop_result h hreads]
    cases unread with
    | nil =>
        have hzero : (s.keyboard p).buffer (keyboardGetHeadIndex (s.keyboard p)) = 0 := h.read
        refine ⟨[], by simp, ?_⟩
        rw [keyboardPop, if_neg hreads.1, hreads.2]
        dsimp only
        rw [if_pos hzero]
        exact h
    | cons c rest =>
        have hc : c ≠ 0 := fun hzero => h.ring.ne_zero (hzero ▸ List.mem_cons_self)
        refine ⟨rest, by rw [if_pos ⟨hreads, hc⟩]; rfl, ?_⟩
        rw [keyboardPop, if_neg hreads.1, hreads.2]
        dsimp only
        rw [if_neg (h.read.trans_ne hc), set_keyboard_self]
        exact h.pop
  · refine ⟨unread, by simp [hreads], ?_⟩
    rw [keyboardPop]
    split_ifs with htask
    · exact h
    · have hne : p ≠ s.process s.taskCurrent := fun heq => hreads ⟨htask, heq.symm⟩
      dsimp only
      split_ifs
      · exact h
      · dsimp only
        rw [set_keyboard_of_ne _ _ hne]
        exact h

/-- One event keeps the queue: what was unread and what it pushes is what it
pops and what is unread afterwards. -/
theorem step_holds
    (hp : p ≠ 0)
    (h : (s.keyboard p).Holds unread) (e : KeyboardEvent)
    (hroom : unread.length + (s.pushedBy p e).length ≤
      (s.poppedBy p e).length + keyboardBufferSize) :
    ∃ rest, unread ++ s.pushedBy p e = s.poppedBy p e ++ rest ∧
      ((s.step e).keyboard p).Holds rest := by
  cases e with
  | push c =>
      refine ⟨_, rfl, push_holds hp h c ?_⟩
      rw [List.length_append]
      simpa [poppedBy] using hroom
  | pop =>
      obtain ⟨rest, hrest, hholds⟩ := pop_holds h
      refine ⟨rest, ?_, hholds⟩
      rw [← hrest]
      exact List.append_nil _
  | schedule process task processOf => exact ⟨unread, List.append_nil _, h⟩

theorem length_pushed_le
    (s : KeyboardState) (p : Ptr) (events : List KeyboardEvent) :
    (s.pushed p events).length ≤ events.length := by
  induction events generalizing s with
  | nil => exact Nat.le_refl 0
  | cons e es ih =>
      have hrest := ih (s.step e)
      have hfirst : (s.pushedBy p e).length ≤ 1 := by
        cases e with
        | push c =>
            rw [pushedBy]
            split_ifs <;> simp
        | pop => exact Nat.zero_le 1
        | schedule process task processOf => exact Nat.zero_le 1
      rw [pushed, List.length_append, List.length_cons]
      omega

/-- As few events as the buffer has slots cannot fill it too far. -/
theorem neverOverfull_of_length_le
    (s : KeyboardState) (p : Ptr) {events : List KeyboardEvent}
    (h : events.length ≤ keyboardBufferSize) :
    s.NeverOverfull p events := by
  intro es hes
  have hle := hes.length_le
  have hpushed := s.length_pushed_le p es
  omega

/-- A run that finds `unread` in the buffer keeps the queue as well. -/
theorem run_holds
    (hp : p ≠ 0)
    (h : (s.keyboard p).Holds unread)
    (events : List KeyboardEvent)
    (hroom : ∀ es, es <+: events → unread.length + (s.pushed p es).length ≤
      (s.popped p es).length + keyboardBufferSize) :
    ∃ rest, unread ++ s.pushed p events = s.popped p events ++ rest ∧
      ((s.run events).keyboard p).Holds rest := by
  induction events generalizing s unread with
  | nil => exact ⟨unread, List.append_nil _, h⟩
  | cons e es ih =>
      have hfirst := hroom [e] (by simp)
      simp only [pushed, popped, List.append_nil] at hfirst
      obtain ⟨middle, hmiddle, hholds⟩ := step_holds hp h e hfirst
      have hlength := congrArg List.length hmiddle
      rw [List.length_append, List.length_append] at hlength
      obtain ⟨rest, hrest, hend⟩ := ih hholds fun fs hfs => by
        have hfs' := hroom (e :: fs) ((List.prefix_cons_inj e).mpr hfs)
        simp only [pushed, popped, List.length_append] at hfs'
        omega
      refine ⟨rest, ?_, hend⟩
      rw [pushed, popped, ← List.append_assoc, hmiddle, List.append_assoc, hrest,
        List.append_assoc]

end KeyboardState

/-- What a process has popped is what was pushed to it, in order, up to the
characters still unread, and a pop returns 0 exactly when there are none. -/
theorem keyboard_fifo
    (s : KeyboardState) (p : Ptr) (hp : p ≠ 0)
    (hempty : (s.keyboard p).Empty)
    (events : List KeyboardEvent) (hroom : s.NeverOverfull p events) :
    ∃ unread, s.pushed p events = s.popped p events ++ unread ∧
      ((s.run events).Reads p →
        (keyboardPop (s.run events)).1 = unread.headD 0 ∧
          ((keyboardPop (s.run events)).1 = 0 ↔ unread = [])) := by
  obtain ⟨unread, hqueue, hholds⟩ := KeyboardState.run_holds hp hempty.holds events
    (by simpa [KeyboardState.NeverOverfull] using hroom)
  refine ⟨unread, hqueue, fun hreads => ?_⟩
  have hresult := KeyboardState.pop_result hholds hreads
  refine ⟨hresult, ?_⟩
  rw [hresult, ← hholds.read]
  exact hholds.ring.read_eq_zero_iff

/-- A process at 4096 that reads, with the counters about to wrap. -/
def aboutToWrap : KeyboardState where
  processCurrent := 4096
  taskCurrent := 8192
  process := fun _ => 4096
  keyboard := fun _ => ⟨fun _ => 0, 0xffffffff, 0xffffffff⟩

theorem keyboard_fifo_aboutToWrap :
    ∃ unread : List Byte, [65, 66] = [65] ++ unread ∧
      ((keyboardPop (aboutToWrap.run [.push 65, .push 66, .pop])).1 = 0 ↔ unread = []) := by
  have hroom : aboutToWrap.NeverOverfull 4096 [.push 65, .push 66, .pop] :=
    KeyboardState.neverOverfull_of_length_le _ _ (by decide)
  obtain ⟨unread, hqueue, hpop⟩ := keyboard_fifo aboutToWrap 4096 (by decide)
    ⟨fun _ => rfl, rfl⟩ [.push 65, .push 66, .pop] hroom
  exact ⟨unread, hqueue, (hpop (by decide)).2⟩

namespace KeyboardState

/-- What the process pops comes in the order in which it was pushed. -/
def KeepsOrder (s : KeyboardState) (p : Ptr) (events : List KeyboardEvent) : Prop :=
  (s.popped p events).Sublist (s.pushed p events)

section Overfull

variable {s : KeyboardState} {p : Ptr} {c : Byte}

theorem keyboardPush_keyboard
    (hp : p ≠ 0) (hcurrent : s.processCurrent = p) (hc : c ≠ 0) :
    (keyboardPush s c).keyboard p =
      { s.keyboard p with
        buffer := Function.update (s.keyboard p).buffer (keyboardGetTailIndex (s.keyboard p)) c
        tail := (s.keyboard p).tail + 1 } := by
  rw [keyboardPush, if_neg (hcurrent ▸ hp), if_neg hc, hcurrent]
  exact set_keyboard_self s p _

theorem keyboardPop_keyboard
    (hreads : s.Reads p)
    (hfound : (s.keyboard p).buffer (keyboardGetHeadIndex (s.keyboard p)) ≠ 0) :
    (keyboardPop s).2.keyboard p =
      { s.keyboard p with
        buffer := Function.update (s.keyboard p).buffer (keyboardGetHeadIndex (s.keyboard p)) 0
        head := (s.keyboard p).head + 1 } := by
  rw [keyboardPop, if_neg hreads.1, hreads.2]
  dsimp only
  rw [if_neg hfound]
  exact set_keyboard_self s p _

theorem reads_keyboardPush
    (hreads : s.Reads p) (c : Byte) :
    (keyboardPush s c).Reads p := by
  rw [keyboardPush]
  split_ifs <;> exact hreads

theorem reads_keyboardPop
    (hreads : s.Reads p) :
    (keyboardPop s).2.Reads p := by
  rw [keyboardPop, if_neg hreads.1]
  dsimp only
  split_ifs <;> exact hreads

/-- A key that is hit while the buffer is full goes to the slot of the oldest
character, and is read before all that are unread. -/
theorem pop_of_overfull
    {unread : List Byte} (hp : p ≠ 0) (h : (s.keyboard p).Holds unread)
    (hfull : unread.length = keyboardBufferSize) (hcurrent : s.processCurrent = p)
    (hreads : s.Reads p) (hc : c ≠ 0) :
    (keyboardPop (keyboardPush s c)).1 = c ∧
      (keyboardPop (keyboardPop (keyboardPush s c)).2).1 = unread.getD 1 0 := by
  have htail : keyboardGetTailIndex (s.keyboard p) = keyboardGetHeadIndex (s.keyboard p) := by
    refine ofNat_congr ?_
    rw [h.tail, hfull, KeyboardBuffer.toNat_add_mod, Nat.add_mod_right]
  have hpush := keyboardPush_keyboard hp hcurrent hc
  have hreads₁ := reads_keyboardPush hreads c
  rw [htail] at hpush
  have hslot : ((keyboardPush s c).keyboard p).buffer
      (keyboardGetHeadIndex ((keyboardPush s c).keyboard p)) = c := by
    rw [hpush]
    exact Function.update_self ..
  refine ⟨(keyboardPop_fst hreads₁).trans hslot, ?_⟩
  rw [keyboardPop_fst (reads_keyboardPop hreads₁), keyboardPop_keyboard hreads₁ (by rwa [hslot]),
    hpush]
  have hnext : keyboardGetHeadIndex { s.keyboard p with head := (s.keyboard p).head + 1 } =
      Fin.ofNat keyboardBufferSize ((s.keyboard p).head.toNat + 1) :=
    ofNat_congr (KeyboardBuffer.toNat_add_mod _ 1)
  have hne : Fin.ofNat keyboardBufferSize ((s.keyboard p).head.toNat + 1) ≠
      keyboardGetHeadIndex (s.keyboard p) :=
    mt (@ofNat_add_inj keyboardBufferSize _ (s.keyboard p).head.toNat 1 0 (by decide)
      (by decide)).mp (by decide)
  rw [← h.ring.slot 1 (by decide)]
  refine (congrArg _ hnext).trans ?_
  exact (Function.update_of_ne hne _ _).trans (Function.update_of_ne hne _ _)

end Overfull

end KeyboardState

/-- While the buffer is never overfull, a process reads its characters in the
order in which they are typed. -/
theorem keyboard_keepsOrder
    (s : KeyboardState) (p : Ptr) (hp : p ≠ 0)
    (hempty : (s.keyboard p).Empty)
    (events : List KeyboardEvent) (hroom : s.NeverOverfull p events) :
    ∀ es, es <+: events → s.KeepsOrder p es := by
  intro es hes
  obtain ⟨unread, hqueue, -⟩ := KeyboardState.run_holds hp hempty.holds es fun fs hfs => by
    simpa using hroom fs (hfs.trans hes)
  rw [List.nil_append] at hqueue
  rw [KeyboardState.KeepsOrder, hqueue]
  exact List.sublist_append_left _ _

theorem keyboard_keepsOrder_aboutToWrap :
    aboutToWrap.KeepsOrder 4096 [.push 65, .push 66, .pop] :=
  keyboard_keepsOrder aboutToWrap 4096 (by decide) ⟨fun _ => rfl, rfl⟩ [.push 65, .push 66, .pop]
    (KeyboardState.neverOverfull_of_length_le _ _ (by decide)) _ (List.prefix_refl _)

namespace KeyboardState

variable {s : KeyboardState} {p : Ptr} {c : Byte}

theorem pushed_append
    (s : KeyboardState) (p : Ptr) (es fs : List KeyboardEvent) :
    s.pushed p (es ++ fs) = s.pushed p es ++ (s.run es).pushed p fs := by
  induction es generalizing s with
  | nil => rfl
  | cons e es ih => rw [List.cons_append, pushed, ih, pushed, List.append_assoc]; rfl

theorem popped_append
    (s : KeyboardState) (p : Ptr) (es fs : List KeyboardEvent) :
    s.popped p (es ++ fs) = s.popped p es ++ (s.run es).popped p fs := by
  induction es generalizing s with
  | nil => rfl
  | cons e es ih => rw [List.cons_append, popped, ih, popped, List.append_assoc]; rfl

/-- One key that is hit `n` times. -/
theorem run_replicate_push
    (hp : p ≠ 0) (hcurrent : s.processCurrent = p) (hreads : s.Reads p) (hc : c ≠ 0) (n : Nat) :
    let es := List.replicate n (.push c)
    s.pushed p es = List.replicate n c ∧ s.popped p es = [] ∧
      (s.run es).processCurrent = p ∧ (s.run es).Reads p := by
  induction n generalizing s with
  | zero => exact ⟨rfl, rfl, hcurrent, hreads⟩
  | succ n ih =>
      have hcurrent' : (keyboardPush s c).processCurrent = p := by
        rw [keyboardPush, if_neg (hcurrent ▸ hp), if_neg hc]
        exact hcurrent
      obtain ⟨hpushed, hpopped, hrest⟩ := ih hcurrent' (reads_keyboardPush hreads c)
      refine ⟨?_, hpopped, hrest⟩
      exact congrArg₂ (· ++ ·) (if_pos ⟨hcurrent, hc⟩ : s.pushedBy p (.push c) = [c]) hpushed

/-- Behind as many keys as the buffer has slots, another key is read first. -/
theorem popped_of_overfull
    (hp : p ≠ 0) (hempty : (s.keyboard p).Empty) (hcurrent : s.processCurrent = p)
    (hreads : s.Reads p) (hc : c ≠ 0) {d : Byte} (hd : d ≠ 0) {n : Nat}
    (hn : n = keyboardBufferSize) :
    let es : List KeyboardEvent := List.replicate n (.push c) ++ [.push d, .pop, .pop]
    s.pushed p es = List.replicate n c ++ [d] ∧ s.popped p es = [d, c] := by
  obtain ⟨hpushed, hpopped, hcurrent₁, hreads₁⟩ := run_replicate_push hp hcurrent hreads hc n
  have hroom : s.NeverOverfull p (List.replicate n (.push c)) :=
    neverOverfull_of_length_le s p (by rw [List.length_replicate, hn])
  obtain ⟨unread, hunread, hholds⟩ := run_holds hp hempty.holds (List.replicate n (.push c))
    fun es hes => by simpa using hroom es hes
  rw [hpushed, hpopped, List.nil_append, List.nil_append] at hunread
  subst hunread
  obtain ⟨hfirst, hsecond⟩ := pop_of_overfull hp hholds (by rw [List.length_replicate, hn])
    hcurrent₁ hreads₁ hd
  have hlt : 1 < (List.replicate n c).length := by
    rw [List.length_replicate, hn]
    decide
  rw [List.getD_eq_getElem _ _ hlt, List.getElem_replicate] at hsecond
  have hreads₂ := reads_keyboardPush hreads₁ d
  have hreads₃ := reads_keyboardPop hreads₂
  refine ⟨?_, ?_⟩
  · rw [pushed_append, hpushed]
    simp only [pushed, pushedBy, if_pos (And.intro hcurrent₁ hd), List.append_nil]
  · rw [popped_append, hpopped]
    simp only [popped, poppedBy, step, hfirst, hsecond, if_pos (And.intro hreads₂ hd),
      if_pos (And.intro hreads₃ hc), List.nil_append, List.append_nil, List.singleton_append]

end KeyboardState

/-- Whatever is typed, and however far ahead, it is read in order. -/
def TypingKeepsOrder : Prop :=
  ∀ (s : KeyboardState) (p : Ptr), p ≠ 0 → (s.keyboard p).Empty →
    ∀ events, s.KeepsOrder p events

/-- A `B` behind 1024 unread `A`s is read before them. -/
theorem typingKeepsOrder_false : ¬ TypingKeepsOrder := by
  intro h
  obtain ⟨n, hn⟩ : ∃ n, n = keyboardBufferSize := ⟨_, rfl⟩
  obtain ⟨hpushed, hpopped⟩ := KeyboardState.popped_of_overfull
    (s := aboutToWrap) (p := 4096) (c := 65) (d := 66) (by decide) ⟨fun _ => rfl, rfl⟩ rfl
    (by decide) (by decide) (by decide) hn
  have horder := h aboutToWrap 4096 (by decide) ⟨fun _ => rfl, rfl⟩
    (List.replicate n (.push 65) ++ [.push 66, .pop, .pop])
  rw [KeyboardState.KeepsOrder, hpopped, hpushed] at horder
  obtain ⟨l₁, l₂, heq, hbefore, hlast⟩ := List.sublist_append_iff.mp horder
  cases l₁ with
  | nil =>
      obtain rfl : [66, 65] = l₂ := heq
      exact absurd hlast.length_le (by decide)
  | cons c l₁ =>
      obtain rfl : 66 = c := (List.cons.inj heq).1
      exact absurd (List.eq_of_mem_replicate (hbefore.subset List.mem_cons_self)) (by decide)

end PeachOS
