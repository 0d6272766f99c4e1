import PeachOS.Config
import PeachOS.Lib.Buffer
import PeachOS.Lib.CInt

/-!
# `peachos_terminal_readline`

The keys of a line are read into a buffer until return is pressed or the buffer is
full.  A backspace takes the last character back; on an empty line it is stored as
a character.
-/

namespace PeachOS
namespace Stdlib

open Lib

/-- The key, and the answers of `peachos_getkey` behind it; without a key among the
answers the call waits for ever. -/
def peachosGetkeyblock : List Byte → Option (Byte × List Byte)
  | [] => none
  | val :: answers => if val = 0 then peachosGetkeyblock answers else some (val, answers)

/-- `echoed` is what `peachos_putchar` has been called with, and `answers` is what
`peachos_getkey` has still to return. -/
structure Readline where
  out : List Byte
  i : Int
  echoed : List Byte
  answers : List Byte

theorem peachosGetkeyblock_length_lt
    {answers rest : List Byte} {key : Byte} (h : peachosGetkeyblock answers = some (key, rest)) :
    rest.length < answers.length := by
  induction answers with
  | nil => cases h
  | cons val answers ih =>
      rw [peachosGetkeyblock] at h
      split_ifs at h
      · exact Nat.lt_succ_of_lt (ih h)
      · cases h
        exact Nat.lt_succ_self _

/-- What becomes of the buffer and of `i`, which the loop moves on behind it. -/
def takeKey (s : Readline) (key : Byte) : Except Halt (List Byte × Int) :=
  if key = 0x08 ∧ 1 ≤ s.i then do
    let out ← store .fault s.out (s.i - 1) 0
    pure (out, s.i - 2)
  else do
    let out ← store .fault s.out s.i key
    pure (out, s.i)

/-- The loop of `peachos_terminal_readline`, or `none` if it waits for ever. -/
def readlineLoop (max : Int) (outputWhileTyping : Bool) (s : Readline) :
    Except Halt (Option Readline) :=
  if s.i < max - 1 then
    match _h : peachosGetkeyblock s.answers with
    | none => .ok none
    | some (key, answers) =>
        if key = 13 then
          .ok (some { s with answers := answers })
        else do
          let echoed := if outputWhileTyping then s.echoed ++ [key] else s.echoed
          let (out, i) ← takeKey s key
          readlineLoop max outputWhileTyping ⟨out, i + 1, echoed, answers⟩
  else
    .ok (some s)
termination_by s.answers.length
decreasing_by exact peachosGetkeyblock_length_lt _h

def peachosTerminalReadline (answers out : List Byte) (max : Int) (outputWhileTyping : Bool) :
    Except Halt (Option Readline) := do
  let found ← readlineLoop max outputWhileTyping ⟨out, 0, [], answers⟩
  match found with
  | none => pure none
  | some s =>
      let out ← store .fault s.out s.i 0
      pure (some { s with out := out })

/-- The line that is left when return is pressed or the line is full, with what a
backspace makes of a line. -/
def editor (backspace : List Byte → List Byte) (capacity : Nat) :
    List Byte → List Byte → List Byte
  | line, [] => line
  | line, key :: keys =>
      if line.length = capacity ∨ key = 13 then
        line
      else if key = 0x08 then
        editor backspace capacity (backspace line) keys
      else
        editor backspace capacity (line ++ [key]) keys

/-- The editor of a line: a backspace removes the last character, if there is one. -/
def lineEditor (capacity : Nat) (keys : List Byte) : List Byte :=
  editor List.dropLast capacity [] keys

/-- What the code does on a backspace. -/
def eraseOrStore (line : List Byte) : List Byte :=
  if line = [] then [0x08] else line.dropLast

/-- Backspaces on an empty line come in pairs: `stray` says that the last one is
without its pair, which takes the room of a character, and `held` how many characters
the line has. -/
def StraysPaired (capacity : Nat) : Bool → Nat → List Byte → Prop
  | stray, _, [] => stray = false
  | stray, held, key :: keys =>
      if held + stray.toNat = capacity ∨ key = 13 then
        stray = false
      else if key = 0x08 then
        if held = 0 then
          StraysPaired capacity (!stray) 0 keys
        else
          StraysPaired capacity stray (held - 1) keys
      else
        StraysPaired capacity stray (held + 1) keys

section Loop

variable {max : Int} {outputWhileTyping : Bool} {s : Readline} {key : Byte}
  {answers : List Byte}

theorem readlineLoop_full
    (h : max - 1 ≤ s.i) :
    readlineLoop max outputWhileTyping s = .ok (some s) := by
  rw [readlineLoop, if_neg (not_lt.mpr h)]

theorem readlineLoop_return
    (h : s.i < max - 1) (hkey : peachosGetkeyblock s.answers = some (13, answers)) :
    readlineLoop max outputWhileTyping s = .ok (some { s with answers := answers }) := by
  rw [readlineLoop, if_pos h]
  split
  next heq => cases hkey.symm.trans heq
  next heq =>
    cases hkey.symm.trans heq
    rfl

theorem readlineLoop_key
    {out : List Byte} {i : Int} (h : s.i < max - 1)
    (hkey : peachosGetkeyblock s.answers = some (key, answers)) (h13 : key ≠ 13)
    (htake : takeKey s key = .ok (out, i)) :
    readlineLoop max outputWhileTyping s =
      readlineLoop max outputWhileTyping
        ⟨out, i + 1, if outputWhileTyping then s.echoed ++ [key] else s.echoed, answers⟩ := by
  rw [readlineLoop, if_pos h]
  split
  next heq => cases hkey.symm.trans heq
  next heq =>
    cases hkey.symm.trans heq
    rw [if_neg h13, htake]
    rfl

/-- The line is in front of `i`, and there is room behind it. -/
structure Holds (max : Int) (s : Readline) (line : List Byte) : Prop where
  split : ∃ behind, s.out = line ++ behind
  i : s.i = line.length
  length : s.out.length = max
  room : s.i ≤ max - 1

/-- A key that is stored is the end of the line. -/
theorem Holds.storeKey
    {line : List Byte} (h : Holds max s line) (hroom : s.i < max - 1) (key : Byte)
    (echoed answers : List Byte) :
    ∃ out, store Halt.fault s.out s.i key = .ok out ∧
      Holds max ⟨out, s.i + 1, echoed, answers⟩ (line ++ [key]) := by
  obtain ⟨behind, hout⟩ := h.split
  have hlength := h.length
  have hi := h.i
  cases behind with
  | nil =>
      rw [hout, List.append_nil] at hlength
      omega
  | cons old behind =>
      rw [hi, hout, store_append_cons]
      refine ⟨_, rfl, ⟨⟨behind, ?_⟩, ?_, ?_, ?_⟩⟩
      · rw [List.append_assoc, List.singleton_append]
      · rw [List.length_append, List.length_singleton]
        rfl
      · rw [hout] at hlength
        simpa using hlength
      · dsimp only
        omega

/-- The last character of a line is removed. -/
theorem Holds.eraseLast
    {line : List Byte} {c : Byte} (h : Holds max s (line ++ [c])) (echoed answers : List Byte) :
    ∃ out, store Halt.fault s.out (s.i - 1) 0 = .ok out ∧
      Holds max ⟨out, s.i - 2 + 1, echoed, answers⟩ line := by
  obtain ⟨behind, hout⟩ := h.split
  have hlength := h.length
  have hi := h.i
  have hroom := h.room
  rw [List.length_append, List.length_singleton] at hi
  have hindex : s.i - 1 = (line.length : Nat) := by omega
  rw [hindex, hout, List.append_assoc, List.singleton_append, store_append_cons]
  refine ⟨_, rfl, ⟨⟨0 :: behind, rfl⟩, ?_, ?_, ?_⟩⟩
  · dsimp only
    omega
  · rw [hout] at hlength
    simpa using hlength
  · dsimp only
    omega

/-- A key changes the line as it does in an editor. -/
theorem Holds.takeKey
    {line : List Byte} (h : Holds max s line) (hroom : s.i < max - 1) (key : Byte)
    (echoed answers : List Byte) :
    ∃ out i, takeKey s key = .ok (out, i) ∧
      Holds max ⟨out, i + 1, echoed, answers⟩
        (if key = 0x08 then eraseOrStore line else line ++ [key]) := by
  have hi := h.i
  rw [Stdlib.takeKey]
  by_cases hback : key = 0x08 ∧ 1 ≤ s.i
  · rw [if_pos hback, if_pos hback.1]
    obtain rfl | ⟨line, c, rfl⟩ := line.eq_nil_or_concat'
    · rw [List.length_nil] at hi
      omega
    · obtain ⟨out, hstore, hholds⟩ := h.eraseLast echoed answers
      rw [eraseOrStore, if_neg (List.concat_ne_nil c line), List.dropLast_concat, hstore]
      exact ⟨out, _, rfl, hholds⟩
  · rw [if_neg hback]
    have hline : (if key = 0x08 then eraseOrStore line else line ++ [key]) = line ++ [key] := by
      split_ifs with hkey
      · obtain rfl : line = [] := by
          refine List.eq_nil_of_length_eq_zero ?_
          have hempty : ¬ 1 ≤ s.i := fun hge => hback ⟨hkey, hge⟩
          omega
        rw [eraseOrStore, if_pos rfl, hkey]
        rfl
      · rfl
    obtain ⟨out, hstore, hholds⟩ := h.storeKey hroom key echoed answers
    rw [hline, hstore]
    exact ⟨out, _, rfl, hholds⟩

/-- The keys are the answers that are not 0. -/
theorem peachosGetkeyblock_eq
    (hreturn : 13 ∈ answers) :
    ∃ key rest, peachosGetkeyblock answers = some (key, rest) ∧
      answers.filter (· ≠ 0) = key :: rest.filter (· ≠ 0) ∧ (key ≠ 13 → 13 ∈ rest) := by
  induction answers with
  | nil => cases hreturn
  | cons val answers ih =>
      by_cases h0 : val = 0
      · subst h0
        have hrest : 13 ∈ answers := (List.mem_cons.mp hreturn).resolve_left (by decide)
        obtain ⟨key, rest, hkey, hfilter, h13⟩ := ih hrest
        exact ⟨key, rest, (if_pos rfl).trans hkey,
          (List.filter_cons_of_neg (by simp)).trans hfilter, h13⟩
      · refine ⟨val, answers, if_neg h0, List.filter_cons_of_pos (by simpa using h0), fun hne => ?_⟩
        exact (List.mem_cons.mp hreturn).resolve_left hne.symm

/-- The loop ends with the line of the editor. -/
theorem Holds.readlineLoop
    {line : List Byte} (h : Holds max s line) (hreturn : 13 ∈ s.answers) :
    ∃ s', readlineLoop max outputWhileTyping s = .ok (some s') ∧
      Holds max s' (editor eraseOrStore (max - 1).toNat line (s.answers.filter (· ≠ 0))) := by
  induction hn : s.answers.length using Nat.strong_induction_on generalizing s line with
  | _ n ih =>
      subst hn
      obtain ⟨key, rest, hkey, hfilter, h13⟩ := peachosGetkeyblock_eq hreturn
      have hi := h.i
      rw [hfilter, editor]
      by_cases hroom : s.i < max - 1
      · by_cases hend : key = 13
        · subst hend
          rw [if_pos (Or.inr rfl)]
          exact ⟨_, readlineLoop_return hroom hkey, h.split, h.i, h.length, h.room⟩
        · obtain ⟨out, i, htake, hholds⟩ := h.takeKey hroom key
            (if outputWhileTyping then s.echoed ++ [key] else s.echoed) rest
          rw [if_neg (not_or.mpr ⟨by omega, hend⟩), readlineLoop_key hroom hkey hend htake]
          obtain ⟨s', hloop, hs'⟩ := ih rest.length (peachosGetkeyblock_length_lt hkey) hholds
            (h13 hend) rfl
          refine ⟨s', hloop, ?_⟩
          by_cases hback : key = 0x08
          · rw [if_pos hback] at hs' ⊢
            exact hs'
          · rw [if_neg hback] at hs' ⊢
            exact hs'
      · have hroom' := h.room
        rw [if_pos (Or.inl (by omega))]
        exact ⟨s, readlineLoop_full (by omega), h⟩

/-- The buffer behind the call has the line and a NUL. -/
theorem peachosTerminalReadline_eq
    {out : List Byte} (hmax : 2 ≤ max) (hout : (out.length : Int) = max) (hreturn : 13 ∈ answers)
    (outputWhileTyping : Bool) :
    ∃ s', peachosTerminalReadline answers out max outputWhileTyping = .ok (some s') ∧
      editor eraseOrStore (max - 1).toNat [] (answers.filter (· ≠ 0)) ++ [0] <+: s'.out := by
  have hstart : Holds max ⟨out, 0, [], answers⟩ [] :=
    ⟨⟨out, rfl⟩, rfl, hout, by dsimp only; omega⟩
  obtain ⟨s, hloop, h⟩ := @Holds.readlineLoop max outputWhileTyping _ _ hstart hreturn
  obtain ⟨behind, hbehind⟩ := h.split
  have hlength := h.length
  have hi := h.i
  have hroom := h.room
  rw [peachosTerminalReadline, hloop, ok_bind]
  dsimp only at hi hbehind hlength hroom ⊢
  cases behind with
  | nil =>
      rw [hbehind, List.append_nil] at hlength
      omega
  | cons old behind =>
      rw [hi, hbehind, store_append_cons, ok_bind]
      exact ⟨_, rfl, ⟨behind, by rw [List.append_assoc]; rfl⟩⟩

end Loop

section Editors

variable {capacity : Nat} {line keys : List Byte}

/-- The line of the reference editor has no backspace in it. -/
theorem backspace_not_mem_editor
    (h : 0x08 ∉ line) :
    0x08 ∉ editor List.dropLast capacity line keys := by
  induction keys generalizing line with
  | nil => exact h
  | cons key keys ih =>
      rw [editor]
      split_ifs with hstop hkey
      · exact h
      · exact ih fun hmem => h (List.mem_of_mem_dropLast hmem)
      · refine ih ?_
        rw [List.mem_append, not_or]
        exact ⟨h, fun hmem => hkey (List.mem_singleton.mp hmem).symm⟩

/-- A line with the backspace in front of it that is without its pair. -/
def withStray (stray : Bool) (line : List Byte) : List Byte :=
  if stray then 0x08 :: line else line

theorem length_withStray (stray : Bool) (line : List Byte) :
    (withStray stray line).length = line.length + stray.toNat := by
  cases stray <;> rfl

theorem withStray_append (stray : Bool) (line : List Byte) (key : Byte) :
    withStray stray line ++ [key] = withStray stray (line ++ [key]) := by
  cases stray <;> rfl

theorem eraseOrStore_withStray_nil (stray : Bool) :
    eraseOrStore (withStray stray []) = withStray (!stray) [] := by
  cases stray <;> rfl

theorem eraseOrStore_withStray
    (stray : Bool) (h : line ≠ []) :
    eraseOrStore (withStray stray line) = withStray stray line.dropLast := by
  cases stray with
  | false => exact if_neg h
  | true =>
      rw [withStray, if_pos rfl, eraseOrStore, if_neg (List.cons_ne_nil _ _),
        List.dropLast_cons_of_ne_nil h]
      rfl

theorem withStray_eq_iff
    {stray : Bool} {line' : List Byte} (h8 : 0x08 ∉ line') (hfalse : stray = false → line = line') :
    withStray stray line = line' ↔ stray = false := by
  cases stray with
  | false => exact iff_of_true (hfalse rfl) rfl
  | true => exact iff_of_false (fun h => h8 (h ▸ List.mem_cons_self)) Bool.noConfusion

/-- Both editors leave the same line exactly if the backspaces on an empty line come
in pairs; one without its pair stands in front of the line. -/
theorem editor_eq_iff
    {stray : Bool} (h8 : 0x08 ∉ line) (hroom : line.length + stray.toNat ≤ capacity)
    (hcapacity : 1 ≤ capacity) (hreturn : 13 ∈ keys) :
    editor eraseOrStore capacity (withStray stray line) keys =
        editor List.dropLast capacity line keys ↔
      StraysPaired capacity stray line.length keys := by
  induction keys generalizing stray line with
  | nil => cases hreturn
  | cons key keys ih =>
      rw [editor, StraysPaired, length_withStray]
      by_cases hstop : line.length + stray.toNat = capacity ∨ key = 13
      · rw [if_pos hstop, if_pos hstop]
        refine withStray_eq_iff (backspace_not_mem_editor h8) fun hfalse => ?_
        rw [hfalse] at hstop
        exact (if_pos hstop).symm
      · rw [if_neg hstop, if_neg hstop]
        rw [not_or] at hstop
        have hrest : 13 ∈ keys := (List.mem_cons.mp hreturn).resolve_left (Ne.symm hstop.2)
        have hgoes : ¬ (line.length = capacity ∨ key = 13) := not_or.mpr ⟨by omega, hstop.2⟩
        rw [editor, if_neg hgoes]
        by_cases hkey : key = 0x08
        · rw [if_pos hkey, if_pos hkey, if_pos hkey]
          by_cases hempty : line = []
          · subst hempty
            have hstray : 0 + (!stray).toNat ≤ capacity := by
              have := Bool.toNat_le (!stray)
              omega
            rw [eraseOrStore_withStray_nil, List.length_nil, if_pos rfl]
            exact ih (List.not_mem_nil) hstray hrest
          · have hlength : line.dropLast.length = line.length - 1 := List.length_dropLast
            have hpos := List.length_pos_of_ne_nil hempty
            rw [eraseOrStore_withStray stray hempty, if_neg (by omega), ← hlength]
            exact ih (fun hmem => h8 (List.mem_of_mem_dropLast hmem)) (by omega) hrest
        · rw [if_neg hkey, if_neg hkey, if_neg hkey, withStray_append]
          have hlength : (line ++ [key]).length = line.length + 1 := List.length_append
          rw [← hlength]
          refine ih ?_ (by omega) hrest
          rw [List.mem_append, not_or]
          exact ⟨h8, fun hmem => hkey (List.mem_singleton.mp hmem).symm⟩

/-- No key of a line is 0. -/
theorem zero_not_mem_editor
    {backspace : List Byte → List Byte} (hback : ∀ line, 0 ∉ line → 0 ∉ backspace line)
    (hline : 0 ∉ line) (hkeys : 0 ∉ keys) :
    0 ∉ editor backspace capacity line keys := by
  induction keys generalizing line with
  | nil => exact hline
  | cons key keys ih =>
      have hrest : 0 ∉ keys := fun h0 => hkeys (List.mem_cons_of_mem key h0)
      rw [editor]
      split_ifs
      · exact hline
      · exact ih (hback line hline) hrest
      · refine ih ?_ hrest
        rw [List.mem_append, not_or]
        exact ⟨hline, fun hmem => hkeys (List.mem_singleton.mp hmem ▸ List.mem_cons_self)⟩

/-- Strings in one buffer are the same. -/
theorem eq_of_prefix
    {s s' out : List Byte} (hs : 0 ∉ s) (hs' : 0 ∉ s') (h : s ++ [0] <+: out)
    (h' : s' ++ [0] <+: out) :
    s = s' := by
  obtain ⟨rest, rfl⟩ := h
  obtain ⟨rest', heq⟩ := h'
  have hread (t behind : List Byte) (ht : 0 ∉ t) :
      (t ++ [0] ++ behind).takeWhile (· ≠ 0) = t := by
    have hbyte (c : Byte) (hc : c ∈ t) : decide (c ≠ 0) = true :=
      decide_eq_true fun h0 => ht (h0 ▸ hc)
    rw [List.append_assoc, List.takeWhile_append_of_pos hbyte, List.singleton_append,
      List.takeWhile_cons_of_neg (by simp), List.append_nil]
  rw [← hread s rest hs, ← hread s' rest' hs', heq]

end Editors

/-- The call returns, has stored nothing outside the `max` bytes of the buffer, and
has left the line of the editor there with a NUL. -/
def LeavesLine (answers out : List Byte) (max : Int) (outputWhileTyping : Bool)
    (keys : List Byte) : Prop :=
  ∃ s, peachosTerminalReadline answers out max outputWhileTyping = .ok (some s) ∧
    lineEditor (max - 1).toNat keys ++ [0] <+: s.out

theorem leavesLine_iff
    {answers out keys : List Byte} {max : Int} (hmax : 2 ≤ max) (hout : (out.length : Int) = max)
    (hkeys : answers.filter (· ≠ 0) = keys) (hreturn : 13 ∈ keys) (outputWhileTyping : Bool) :
    LeavesLine answers out max outputWhileTyping keys ↔
      StraysPaired (max - 1).toNat false 0 keys := by
  subst hkeys
  have hanswers : 13 ∈ answers := (List.mem_filter.mp hreturn).1
  obtain ⟨s, hcall, hline⟩ := peachosTerminalReadline_eq hmax hout hanswers outputWhileTyping
  have h0 : 0 ∉ answers.filter (· ≠ 0) := fun hmem => by simpa using (List.mem_filter.mp hmem).2
  have hcode : 0 ∉ editor eraseOrStore (max - 1).toNat [] (answers.filter (· ≠ 0)) := by
    refine zero_not_mem_editor (fun line hline => ?_) List.not_mem_nil h0
    rw [eraseOrStore]
    split_ifs
    · decide
    · exact fun hmem => hline (List.mem_of_mem_dropLast hmem)
  have hreference : 0 ∉ lineEditor (max - 1).toNat (answers.filter (· ≠ 0)) :=
    zero_not_mem_editor (fun line hline hmem => hline (List.mem_of_mem_dropLast hmem))
      List.not_mem_nil h0
  have heditors := @editor_eq_iff (max - 1).toNat [] _ false List.not_mem_nil (Nat.zero_le _)
    (by omega) hreturn
  rw [List.length_nil] at heditors
  rw [← heditors]
  constructor
  · rintro ⟨s', hcall', hline'⟩
    cases hcall.symm.trans hcall'
    exact eq_of_prefix hcode hreference hline hline'
  · intro heq
    refine ⟨s, hcall, ?_⟩
    rw [lineEditor, ← heq]
    exact hline

/-- A line is read as the editor edits it exactly if the backspaces on an empty line
come in pairs. -/
theorem readline_leavesLine_iff
    (answers out keys : List Byte) (max : Int) (outputWhileTyping : Bool) (hmax : 2 ≤ max)
    (hout : (out.length : Int) = max) (hkeys : answers.filter (· ≠ 0) = keys ++ [13]) :
    LeavesLine answers out max outputWhileTyping (keys ++ [13]) ↔
      StraysPaired (max - 1).toNat false 0 (keys ++ [13]) :=
  leavesLine_iff hmax hout hkeys (by simp) outputWhileTyping

/-- Two characters, of which the second one is taken back. -/
theorem readline_leavesLine_iff_erased :
    LeavesLine [97, 0, 98, 8, 13] [0, 0, 0, 0] 4 true ([97, 98, 8] ++ [13]) ↔
      StraysPaired 3 false 0 ([97, 98, 8] ++ [13]) :=
  readline_leavesLine_iff _ _ _ 4 true (by decide) rfl rfl

/-- Every line is read as the editor edits it. -/
def LinesEdited : Prop :=
  ∀ (answers out keys : List Byte) (max : Int) (outputWhileTyping : Bool), 2 ≤ max →
    (out.length : Int) = max → answers.filter (· ≠ 0) = keys ++ [13] →
      LeavesLine answers out max outputWhileTyping (keys ++ [13])

/-- A backspace on the empty line, and return. -/
theorem linesEdited_false : ¬ LinesEdited := by
  intro h
  have hcall := h [8, 13] [0, 0, 0] [8] 3 false (by decide) rfl rfl
  have hpaired := (leavesLine_iff (by decide) rfl rfl (by decide) false).mp hcall
  exact absurd hpaired (by simp [StraysPaired])

end Stdlib
end PeachOS
