import PeachOS.Idt
import PeachOS.Keyboard
import PeachOS.Lib.Simulation
import PeachOS.Stdlib.Readline

/-!
# The keyboard driver

`classic.c`, from the scan codes of the keyboard to the buffers of the processes,
and the list of keyboards of `keyboard.c`.  Initialised, the driver delivers what
is typed for a process to the line that the process reads.  `keyboard_insert` does
not initialise it: it takes the address of the function for the result of a call,
and nothing that is typed is ever read.
-/

namespace PeachOS

open Lib

def keyboardScanSetOne : List Byte :=
  [0x00, 0x1B, 0x31, 0x32, 0x33, 0x34, 0x35,
    0x36, 0x37, 0x38, 0x39, 0x30, 0x2D, 0x3D,
    0x08, 0x09, 0x51, 0x57, 0x45, 0x52, 0x54,
    0x59, 0x55, 0x49, 0x4F, 0x50, 0x5B, 0x5D,
    0x0d, 0x00, 0x41, 0x53, 0x44, 0x46, 0x47,
    0x48, 0x4A, 0x4B, 0x4C, 0x3B, 0x27, 0x60,
    0x00, 0x5C, 0x5A, 0x58, 0x43, 0x56, 0x42,
    0x4E, 0x4D, 0x2C, 0x2E, 0x2F, 0x00, 0x2A,
    0x00, 0x20, 0x00, 0x00, 0x00, 0x00,
    0x00, 0x00, 0x00, 0x00, 0x00, 0x00,
    0x00, 0x37, 0x38, 0x39, 0x2D, 0x34, 0x35,
    0x36, 0x2B, 0x31, 0x32, 0x33, 0x30, 0x2E]

/-- `KEYBOARD_CAPS_LOCK_STATE`. -/
inductive CapsLock where
  | off
  | on
deriving DecidableEq

/-- What `classic.c` keeps.  `beyond` is the byte behind the table of scan codes,
which the comparison with its size lets be read. -/
structure ClassicKeyboard where
  capslockState : CapsLock
  state : KeyboardState

def classicKeyboardScancodeToChar
    (beyond : Byte) (capslockState : CapsLock) (scancode : Byte) : Byte :=
  if keyboardScanSetOne.length < scancode.toNat then
    0
  else
    let c := keyboardScanSetOne.getD scancode.toNat beyond
    if capslockState = .off ∧ 0x41 ≤ c ∧ c ≤ 0x5A then c + 32 else c

/-- Caps lock behind a key that is hit. -/
def afterKey (capslockState : CapsLock) (scancode : Byte) : CapsLock :=
  if scancode = 0x3A then (if capslockState = .on then .off else .on) else capslockState

def classicKeyboardHandleInterrupt
    (beyond : Byte) (k : ClassicKeyboard) (scancode : Byte) : ClassicKeyboard :=
  if scancode &&& 0x80 ≠ 0 then
    k
  else
    let capslockState := afterKey k.capslockState scancode
    let c := classicKeyboardScancodeToChar beyond capslockState scancode
    { capslockState := capslockState
      state := if c ≠ 0 then keyboardPush k.state c else k.state }

/-- What happens to an initialised keyboard: it interrupts with a scan code, a task
calls `getkey`, and the scheduler goes to other tasks. -/
inductive DriverEvent where
  | key (scancode : Byte)
  | getkey
  | schedule (process task : Ptr) (processOf : Ptr → Ptr)

namespace ClassicKeyboard

def step (beyond : Byte) (k : ClassicKeyboard) : DriverEvent → ClassicKeyboard
  | .key scancode => classicKeyboardHandleInterrupt beyond k scancode
  | .getkey => { k with state := (keyboardPop k.state).2 }
  | .schedule process task processOf =>
      { k with state := k.state.step (.schedule process task processOf) }

def run (beyond : Byte) (k : ClassicKeyboard) (events : List DriverEvent) : ClassicKeyboard :=
  events.foldl (step beyond) k

/-- The answer of `getkey` to the process. -/
def answeredBy (k : ClassicKeyboard) (p : Ptr) : DriverEvent → List Byte
  | .getkey => if k.state.Reads p then [(keyboardPop k.state).1] else []
  | _ => []

/-- What `getkey` answers the process, in order. -/
def answers (beyond : Byte) (k : ClassicKeyboard) (p : Ptr) : List DriverEvent → List Byte
  | [] => []
  | e :: es => k.answeredBy p e ++ (k.step beyond e).answers beyond p es

end ClassicKeyboard

/-- The characters of a key by themselves: none for a key that is released. -/
def keyText (beyond : Byte) (capslockState : CapsLock) (scancode : Byte) : List Byte :=
  if scancode &&& 0x80 ≠ 0 then []
  else [classicKeyboardScancodeToChar beyond capslockState scancode].filter (· ≠ 0)

/-- The text that is typed while the process is the current one: letters are upper
case as long as caps lock is on. -/
def typed (beyond : Byte) (p : Ptr) : Ptr → CapsLock → List DriverEvent → List Byte
  | _, _, [] => []
  | current, caps, .key scancode :: es =>
      let caps := if scancode &&& 0x80 ≠ 0 then caps else afterKey caps scancode
      (if current = p then keyText beyond caps scancode else []) ++ typed beyond p current caps es
  | current, caps, .getkey :: es => typed beyond p current caps es
  | _, caps, .schedule process _ _ :: es => typed beyond p process caps es

namespace ClassicKeyboard

variable {beyond : Byte} {k : ClassicKeyboard} {p : Ptr} {unread : List Byte}

/-- The text of one event. -/
def typedBy (beyond : Byte) (k : ClassicKeyboard) (p : Ptr) : DriverEvent → List Byte
  | .key scancode =>
      if k.state.processCurrent = p then
        keyText beyond (afterKey k.capslockState scancode) scancode
      else
        []
  | _ => []

/-- What an event does to the buffers, if it does anything. -/
def bufferEvent (beyond : Byte) (k : ClassicKeyboard) : DriverEvent → Option KeyboardEvent
  | .key scancode =>
      if scancode &&& 0x80 ≠ 0 then none
      else some (.push
        (classicKeyboardScancodeToChar beyond (afterKey k.capslockState scancode) scancode))
  | .getkey => some .pop
  | .schedule process task processOf => some (.schedule process task processOf)

theorem keyboardPush_zero (s : KeyboardState) : keyboardPush s 0 = s := by
  rw [keyboardPush, if_pos rfl]
  exact ite_self s

theorem step_state
    (e : DriverEvent) :
    (k.step beyond e).state = (k.bufferEvent beyond e).elim k.state k.state.step := by
  cases e with
  | key scancode =>
      rw [step, classicKeyboardHandleInterrupt, bufferEvent]
      split_ifs with hrelease
      · rfl
      · dsimp only [Option.elim]
        split_ifs with hc
        · rfl
        · rw [not_not.mp hc]
          exact (keyboardPush_zero k.state).symm
  | getkey => rfl
  | schedule process task processOf => rfl

theorem processCurrent_keyboardPush
    (s : KeyboardState) (c : Byte) :
    (keyboardPush s c).processCurrent = s.processCurrent := by
  rw [keyboardPush]
  split_ifs <;> rfl

theorem processCurrent_keyboardPop
    (s : KeyboardState) :
    (keyboardPop s).2.processCurrent = s.processCurrent := by
  rw [keyboardPop]
  split_ifs
  · rfl
  · dsimp only
    split_ifs <;> rfl

/-- The text of a run, event by event. -/
theorem typed_cons
    (e : DriverEvent) (es : List DriverEvent) :
    typed beyond p k.state.processCurrent k.capslockState (e :: es) =
      k.typedBy beyond p e ++
        typed beyond p (k.step beyond e).state.processCurrent
          (k.step beyond e).capslockState es := by
  cases e with
  | key scancode =>
      rw [typed, typedBy, step, classicKeyboardHandleInterrupt]
      by_cases hrelease : scancode &&& 0x80 ≠ 0
      · rw [if_pos hrelease, if_pos hrelease]
        have hnone : ∀ caps, keyText beyond caps scancode = [] := fun caps => if_pos hrelease
        rw [hnone, hnone]
      · rw [if_neg hrelease, if_neg hrelease]
        dsimp only
        split_ifs
        · rw [processCurrent_keyboardPush]
        · rfl
        · rw [processCurrent_keyboardPush]
        · rfl
  | getkey =>
      have hcurrent : (k.step beyond .getkey).state.processCurrent = k.state.processCurrent :=
        processCurrent_keyboardPop k.state
      rw [hcurrent]
      rfl
  | schedule process task processOf => rfl

/-- The text and the answers are what the buffers take and give. -/
theorem typedBy_eq
    (e : DriverEvent) :
    k.typedBy beyond p e = (k.bufferEvent beyond e).elim [] (k.state.pushedBy p) := by
  cases e with
  | key scancode =>
      rw [typedBy, bufferEvent, keyText]
      split_ifs with hcurrent hrelease hrelease
      · rfl
      · rw [Option.elim, KeyboardState.pushedBy, List.filter_cons]
        simp [hcurrent]
      · rfl
      · rw [Option.elim, KeyboardState.pushedBy, if_neg fun h => hcurrent h.1]
  | getkey => rfl
  | schedule process task processOf => rfl

theorem answeredBy_eq
    (e : DriverEvent) :
    (k.answeredBy p e).filter (· ≠ 0) =
      (k.bufferEvent beyond e).elim [] (k.state.poppedBy p) := by
  cases e with
  | key scancode =>
      rw [bufferEvent]
      split_ifs <;> rfl
  | getkey =>
      rw [answeredBy, bufferEvent, Option.elim, KeyboardState.poppedBy]
      by_cases hreads : k.state.Reads p
      · rw [if_pos hreads, List.filter_cons]
        simp [hreads]
      · rw [if_neg hreads, if_neg fun h => hreads h.1]
        rfl
  | schedule process task processOf => rfl

/-- One event keeps the queue of the process. -/
theorem step_holds
    (hp : p ≠ 0) (h : (k.state.keyboard p).Holds unread) (e : DriverEvent)
    (hroom : unread.length + (k.typedBy beyond p e).length ≤
      ((k.answeredBy p e).filter (· ≠ 0)).length + keyboardBufferSize) :
    ∃ rest, unread ++ k.typedBy beyond p e = (k.answeredBy p e).filter (· ≠ 0) ++ rest ∧
      ((k.step beyond e).state.keyboard p).Holds rest := by
  rw [@answeredBy_eq beyond] at hroom ⊢
  rw [typedBy_eq] at hroom ⊢
  rw [step_state]
  cases hevent : k.bufferEvent beyond e with
  | none => exact ⟨unread, List.append_nil _, h⟩
  | some event =>
      rw [hevent] at hroom
      exact KeyboardState.step_holds hp h event hroom

/-- A run keeps it: what is typed for the process is what it is answered, in order,
and what is unread. -/
theorem run_holds
    (hp : p ≠ 0) (h : (k.state.keyboard p).Holds unread) (events : List DriverEvent)
    (hroom : ∀ es, es <+: events →
      unread.length + (typed beyond p k.state.processCurrent k.capslockState es).length ≤
        ((k.answers beyond p es).filter (· ≠ 0)).length + keyboardBufferSize) :
    ∃ rest, unread ++ typed beyond p k.state.processCurrent k.capslockState events =
        (k.answers beyond p events).filter (· ≠ 0) ++ rest ∧
      ((k.run beyond events).state.keyboard p).Holds rest := by
  induction events generalizing k unread with
  | nil => exact ⟨unread, List.append_nil _, h⟩
  | cons e es ih =>
      have hfirst := hroom [e] (by simp)
      rw [typed_cons, answers, List.length_append, List.filter_append, List.length_append]
        at hfirst
      obtain ⟨middle, hmiddle, hholds⟩ := @step_holds beyond k p unread hp h e hfirst
      have hlength := congrArg List.length hmiddle
      rw [List.length_append, List.length_append] at hlength
      obtain ⟨rest, hrest, hend⟩ := ih hholds fun fs hfs => by
        have hfs' := hroom (e :: fs) ((List.prefix_cons_inj e).mpr hfs)
        rw [typed_cons, answers, List.length_append, List.filter_append, List.length_append]
          at hfs'
        omega
      refine ⟨rest, ?_, hend⟩
      rw [typed_cons, answers, List.filter_append, ← List.append_assoc, hmiddle,
        List.append_assoc, hrest, List.append_assoc]

end ClassicKeyboard

/-- Nothing behind a return matters to an editor. -/
theorem editor_append_of_return
    (backspace : List Byte → List Byte) (capacity : Nat) {keys : List Byte} (h : 13 ∈ keys)
    (line rest : List Byte) :
    Stdlib.editor backspace capacity line (keys ++ rest) =
      Stdlib.editor backspace capacity line keys := by
  induction keys generalizing line with
  | nil => cases h
  | cons key keys ih =>
      rw [List.cons_append, Stdlib.editor, Stdlib.editor]
      by_cases hstop : line.length = capacity ∨ key = 13
      · rw [if_pos hstop, if_pos hstop]
      · have hkeys : 13 ∈ keys :=
          (List.mem_cons.mp h).resolve_left fun heq => hstop (Or.inr heq.symm)
        rw [if_neg hstop, if_neg hstop, ih hkeys, ih hkeys]

/-- However the keys for other programs, the calls of `getkey` and the switches of
tasks come in between: as long as its buffer is not overfull, a program that reads a
line gets what its editor makes of the text typed for it. -/
theorem readline_of_typed
    (beyond : Byte) (k : ClassicKeyboard) (p : Ptr) (hp : p ≠ 0)
    (hempty : (k.state.keyboard p).Empty) (events : List DriverEvent)
    (hroom : ∀ es, es <+: events →
      (typed beyond p k.state.processCurrent k.capslockState es).length ≤
        ((k.answers beyond p es).filter (· ≠ 0)).length + keyboardBufferSize)
    (hreturn : 13 ∈ k.answers beyond p events)
    (out : List Byte) (max : Int) (hmax : 2 ≤ max) (hout : (out.length : Int) = max)
    (outputWhileTyping : Bool) :
    ∃ s', Stdlib.peachosTerminalReadline (k.answers beyond p events) out max outputWhileTyping =
        .ok (some s') ∧
      Stdlib.editor Stdlib.eraseOrStore (max - 1).toNat []
        (typed beyond p k.state.processCurrent k.capslockState events) ++ [0] <+: s'.out := by
  obtain ⟨unread, hqueue, -⟩ := @ClassicKeyboard.run_holds beyond k p [] hp hempty.holds
    events fun es hes => by simpa using hroom es hes
  have hmem : 13 ∈ (k.answers beyond p events).filter (· ≠ 0) :=
    List.mem_filter.mpr ⟨hreturn, by decide⟩
  rw [List.nil_append] at hqueue
  rw [hqueue, editor_append_of_return _ _ hmem]
  exact Stdlib.peachosTerminalReadline_eq hmax hout hreturn outputWhileTyping

theorem length_typed_le
    (beyond : Byte) (p current : Ptr) (caps : CapsLock) (events : List DriverEvent) :
    (typed beyond p current caps events).length ≤ events.length := by
  induction events generalizing current caps with
  | nil => exact Nat.le_refl 0
  | cons e es ih =>
      cases e with
      | key scancode =>
          have hkey : ∀ caps, (keyText beyond caps scancode).length ≤ 1 := by
            intro caps
            rw [keyText]
            split_ifs
            · exact Nat.zero_le 1
            · exact List.length_filter_le _ _
          rw [typed, List.length_append, List.length_cons, Nat.add_comm]
          refine Nat.add_le_add (ih _ _) ?_
          split_ifs
          · exact hkey _
          · exact hkey _
          · exact Nat.zero_le 1
      | getkey => exact Nat.le_succ_of_le (ih current caps)
      | schedule process task processOf => exact Nat.le_succ_of_le (ih process caps)

/-- The first program, with caps lock on. -/
def typingKeyboard : ClassicKeyboard where
  capslockState := .on
  state := aboutToWrap

/-- `A` and a poll, then caps lock, `B` and return, and three polls. -/
def typedEvents : List DriverEvent :=
  [.key 0x1E, .getkey, .key 0x3A, .key 0xBA, .key 0x30, .key 0x1C, .getkey, .getkey, .getkey]

theorem readline_of_typed_typingKeyboard :
    ∃ s', Stdlib.peachosTerminalReadline [0x41, 0x62, 0x0d, 0] [0, 0, 0, 0] 4 true =
        .ok (some s') ∧ [0x41, 0x62, 0] <+: s'.out := by
  have hanswers : typingKeyboard.answers 0 4096 typedEvents = [0x41, 0x62, 0x0d, 0] := by decide
  have hread := readline_of_typed 0 typingKeyboard 4096 (by decide) ⟨fun _ => rfl, rfl⟩ typedEvents
    (fun es hes => by
      have hlength := length_typed_le 0 4096 typingKeyboard.state.processCurrent
        typingKeyboard.capslockState es
      have hle := hes.length_le
      have hevents : typedEvents.length = 9 := rfl
      unfold keyboardBufferSize
      omega)
    (by rw [hanswers]; decide) [0, 0, 0, 0] 4 (by decide) rfl true
  rwa [hanswers] at hread

/-- What `keyboard.c` uses of a `struct keyboard`: the address of its function. -/
structure Keyboard where
  init : Ptr

/-- `keyboard_list_head` and its followers. -/
abbrev KeyboardList := List Keyboard

/-- The result is the address of the function, which is not called. -/
def keyboardInsert (keyboards : KeyboardList) (keyboard : Keyboard) : Word × KeyboardList :=
  if keyboard.init = 0 then (BitVec.ofInt 32 (-einvarg), keyboards)
  else (keyboard.init, keyboards ++ [keyboard])

/-- The kernel as far as keys are concerned. -/
structure KeyboardSystem where
  callbacks : InterruptCallbacks
  keyboards : KeyboardList
  classic : ClassicKeyboard
  /-- The processes whose memory is in use. -/
  loaded : List Ptr

namespace KeyboardSystem

def classicKeyboardInit (s : KeyboardSystem) : KeyboardSystem :=
  { s with
    callbacks :=
      (idtRegisterInterruptCallback s.callbacks 0x21 .classicKeyboardHandleInterrupt).2
    classic := { s.classic with capslockState := .on } }

/-- `keyboard_init`, with the address of `classic_keyboard_init`. -/
def keyboardInit (classicKeyboardInit : Ptr) (s : KeyboardSystem) : KeyboardSystem :=
  { s with keyboards := (keyboardInsert s.keyboards ⟨classicKeyboardInit⟩).2 }

/-- `kernel_main` up to its first process. -/
def boot (classicKeyboardInit : Ptr) (s : KeyboardSystem) : KeyboardSystem :=
  keyboardInit classicKeyboardInit { s with callbacks := idtInitCallbacks s.callbacks }

/-- What happens from then on. -/
inductive Event where
  | interrupt (n : Fin totalInterrupts) (scancode : Byte)
  | getkey
  | schedule (process task : Ptr) (processOf : Ptr → Ptr)
  /-- `kzalloc` of a process. -/
  | load (process : Ptr)
  /-- The memory of a process is freed, and used for anything. -/
  | free (process : Ptr) (buffer : KeyboardBuffer)

/-- What an event answers which process.  The other callbacks have nothing to do with
keys: that they end a process or go to another task are events of their own. -/
def step (beyond : Byte) (s : KeyboardSystem) : Event → Option (Ptr × Byte) × KeyboardSystem
  | .interrupt n scancode =>
      match s.callbacks n with
      | some .classicKeyboardHandleInterrupt =>
          (none, { s with classic := classicKeyboardHandleInterrupt beyond s.classic scancode })
      | _ => (none, s)
  | .getkey =>
      let (c, state) := keyboardPop s.classic.state
      (some (s.classic.state.process s.classic.state.taskCurrent, c),
        { s with classic := { s.classic with state := state } })
  | .schedule process task processOf =>
      (none, { s with classic :=
        { s.classic with state := s.classic.state.step (.schedule process task processOf) } })
  | .load process =>
      (none, { s with
        classic := { s.classic with state := s.classic.state.set process ⟨fun _ => 0, 0, 0⟩ }
        loaded := process :: s.loaded })
  | .free process buffer =>
      (none, { s with
        classic := { s.classic with state := s.classic.state.set process buffer }
        loaded := s.loaded.filter (· ≠ process) })

/-- An event of the driver, as it comes to the kernel. -/
def ofDriver : DriverEvent → Event
  | .key scancode => .interrupt ⟨0x21, by decide⟩ scancode
  | .getkey => .getkey
  | .schedule process task processOf => .schedule process task processOf

/-- Behind `classic_keyboard_init` the kernel runs the driver. -/
theorem serve_classicKeyboardInit
    (beyond : Byte) (s : KeyboardSystem) (events : List DriverEvent) :
    (serve (step beyond) s.classicKeyboardInit (events.map ofDriver)).2 =
      { s.classicKeyboardInit with
        classic := s.classicKeyboardInit.classic.run beyond events } := by
  have hcallback : s.classicKeyboardInit.callbacks ⟨0x21, by decide⟩ =
      some .classicKeyboardHandleInterrupt := rfl
  generalize s.classicKeyboardInit = s at hcallback ⊢
  induction events generalizing s with
  | nil => rfl
  | cons e es ih =>
      have hstep : (s.step beyond (ofDriver e)).2 =
          { s with classic := s.classic.step beyond e } := by
        cases e with
        | key scancode =>
            rw [ofDriver, step, hcallback]
            rfl
        | getkey => rfl
        | schedule process task processOf => rfl
      rw [List.map_cons, serve, hstep]
      exact ih _ hcallback

/-- A task that calls `getkey` is one of a process in use. -/
def Runs (s : KeyboardSystem) : Event → Prop
  | .getkey => s.classic.state.taskCurrent ≠ 0 →
      s.classic.state.process s.classic.state.taskCurrent ∈ s.loaded
  | _ => True

/-- What `getkey` answers a process. -/
def answersOf (p : Ptr) (answers : List (Option (Ptr × Byte))) : List Byte :=
  answers.filterMap fun a => a.bind fun r => if r.1 = p then some r.2 else none

/-- No key comes to a buffer in use. -/
structure Deaf (s : KeyboardSystem) : Prop where
  callbacks : ∀ n, s.callbacks n ≠ some .classicKeyboardHandleInterrupt
  slots : ∀ p ∈ s.loaded, ∀ i, (s.classic.state.keyboard p).buffer i = 0

variable {beyond : Byte} {s : KeyboardSystem}

theorem boot_deaf
    (classicKeyboardInit : Ptr) (hcallbacks : s.callbacks = fun _ => none)
    (hloaded : s.loaded = []) :
    (s.boot classicKeyboardInit).Deaf where
  callbacks := by
    intro n hn
    rcases idtInitCallbacks_eq_some hn with h | h
    · exact h rfl
    · rw [hcallbacks] at h
      cases h
  slots := by
    intro p hp
    have hnil : (s.boot classicKeyboardInit).loaded = [] := hloaded
    rw [hnil] at hp
    cases hp

/-- A pop finds nothing, and takes nothing. -/
theorem keyboardPop_of_slots
    {s : KeyboardState}
    (h : s.taskCurrent ≠ 0 → ∀ i, (s.keyboard (s.process s.taskCurrent)).buffer i = 0) :
    keyboardPop s = (0, s) := by
  rw [keyboardPop]
  split_ifs with htask
  · rfl
  · exact if_pos (h htask _)

theorem Deaf.pop
    (h : s.Deaf) (hruns : s.Runs .getkey) :
    keyboardPop s.classic.state = (0, s.classic.state) :=
  keyboardPop_of_slots fun htask => h.slots _ (hruns htask)

theorem Deaf.step
    (h : s.Deaf) {e : Event} (hruns : s.Runs e) :
    (s.step beyond e).2.Deaf := by
  cases e with
  | interrupt n scancode =>
      rw [KeyboardSystem.step]
      split
      · rename_i hn
        exact absurd hn (h.callbacks n)
      · exact h
  | getkey =>
      rw [KeyboardSystem.step, h.pop hruns]
      exact h
  | schedule process task processOf => exact ⟨h.callbacks, h.slots⟩
  | load process =>
      refine ⟨h.callbacks, fun p hp i => ?_⟩
      by_cases heq : p = process
      · rw [heq]
        exact congrArg (fun k => k.buffer i) (KeyboardState.set_keyboard_self _ _ _)
      · refine (congrArg (fun k => k.buffer i)
          (KeyboardState.set_keyboard_of_ne _ _ heq)).trans (h.slots p ?_ i)
        exact (List.mem_cons.mp hp).resolve_left heq
  | free process buffer =>
      refine ⟨h.callbacks, fun p hp i => ?_⟩
      obtain ⟨hloaded, hne⟩ := List.mem_filter.mp hp
      exact (congrArg (fun k => k.buffer i)
        (KeyboardState.set_keyboard_of_ne _ _ (by simpa using hne))).trans (h.slots p hloaded i)

/-- Every answer is 0. -/
theorem Deaf.answers
    (h : s.Deaf) {events : List Event} (hruns : Admitted Runs (KeyboardSystem.step beyond) s events)
    (p : Ptr) :
    ∀ c ∈ answersOf p (serve (KeyboardSystem.step beyond) s events).1, c = 0 := by
  induction events generalizing s with
  | nil =>
      intro c hc
      cases hc
  | cons e es ih =>
      intro c hc
      rw [serve, answersOf, List.filterMap_cons] at hc
      have hrest := ih (h.step hruns.1) hruns.2
      cases e with
      | getkey =>
          rw [KeyboardSystem.step, h.pop hruns.1] at hc hrest
          dsimp only [Option.bind_some] at hc
          split at hc
          · exact hrest c hc
          · rename_i b hb
            rcases List.mem_cons.mp hc with rfl | hc
            · split_ifs at hb
              exact (Option.some.inj hb).symm
            · exact hrest c hc
      | interrupt n scancode =>
          have hnone : (s.step beyond (.interrupt n scancode)).1 = none := by
            rw [KeyboardSystem.step]
            split <;> rfl
          rw [hnone] at hc
          exact hrest c hc
      | schedule process task processOf => exact hrest c hc
      | load process => exact hrest c hc
      | free process buffer => exact hrest c hc

/-- Without an answer but 0 a read of a line waits for ever. -/
theorem peachosTerminalReadline_of_zeros
    {answers : List Byte} (h : ∀ c ∈ answers, c = 0) (out : List Byte) {max : Int} (hmax : 2 ≤ max)
    (outputWhileTyping : Bool) :
    Stdlib.peachosTerminalReadline answers out max outputWhileTyping = .ok none := by
  have hkey : Stdlib.peachosGetkeyblock answers = none := by
    induction answers with
    | nil => rfl
    | cons c rest ih =>
        rw [Stdlib.peachosGetkeyblock, if_pos (h c List.mem_cons_self)]
        exact ih fun d hd => h d (List.mem_cons_of_mem c hd)
  have hloop : Stdlib.readlineLoop max outputWhileTyping ⟨out, 0, [], answers⟩ = .ok none := by
    rw [Stdlib.readlineLoop, if_pos (by dsimp only; omega)]
    dsimp only
    split
    · rfl
    · rename_i key rest hsome
      rw [hkey] at hsome
      cases hsome
  rw [Stdlib.peachosTerminalReadline, hloop]
  rfl

end KeyboardSystem

/-- Whatever is typed and whatever the programs do, from the start of the kernel on
every call of `getkey` is answered with 0, and no program ever reads a line: the
kernel does not initialise its keyboard. -/
theorem keyboard_is_deaf
    (beyond : Byte) (classicKeyboardInit : Ptr) (s : KeyboardSystem)
    (hcallbacks : s.callbacks = fun _ => none) (hloaded : s.loaded = [])
    (events : List KeyboardSystem.Event)
    (hruns : Admitted KeyboardSystem.Runs (KeyboardSystem.step beyond)
      (s.boot classicKeyboardInit) events) (p : Ptr) :
    let answers := KeyboardSystem.answersOf p
      (serve (KeyboardSystem.step beyond) (s.boot classicKeyboardInit) events).1
    (∀ c ∈ answers, c = 0) ∧ ∀ (out : List Byte) (max : Int) (outputWhileTyping : Bool), 2 ≤ max →
      Stdlib.peachosTerminalReadline answers out max outputWhileTyping = .ok none := by
  have hzero := (KeyboardSystem.boot_deaf classicKeyboardInit hcallbacks hloaded).answers hruns p
  exact ⟨hzero, fun out max outputWhileTyping hmax =>
    KeyboardSystem.peachosTerminalReadline_of_zeros hzero out hmax outputWhileTyping⟩

/-- The kernel before `idt_init`. -/
def silentSystem : KeyboardSystem where
  callbacks := fun _ => none
  keyboards := []
  classic := typingKeyboard
  loaded := []

/-- A process is loaded, an `A` is typed, and `getkey` is called. -/
theorem keyboard_is_deaf_silentSystem :
    Stdlib.peachosTerminalReadline (KeyboardSystem.answersOf 4096 (serve (KeyboardSystem.step 0)
      (silentSystem.boot 0x101234) [.load 4096, .interrupt 0x21 0x1E, .getkey]).1) [0, 0] 2 true =
        .ok none := by
  refine (keyboard_is_deaf 0 0x101234 silentSystem rfl rfl
    [.load 4096, .interrupt 0x21 0x1E, .getkey] ⟨trivial, trivial, fun _ => ?_, trivial⟩ 4096).2
    [0, 0] 2 true (by decide)
  decide

end PeachOS
