import PeachOS.Screen
import PeachOS.Stdlib.Readline

/-!
# The line on the screen

`peachos_terminal_readline` edits its buffer, and hands each key to the terminal,
which has a backspace of its own.  The two agree until one of them is asked for what
it cannot do: the buffer has nothing to take back on an empty line, the terminal
nothing in front of the cursor at the start of a row.
-/

namespace PeachOS

open Lib Terminal

/-- `isr80h_command3_putchar`, with the item on the stack of the task. -/
def isr80hCommand3Putchar (t : Terminal) (item : Word) : Terminal :=
  t.terminalWritechar (item.setWidth 8) 15

/-- A character that is passed as an `int`. -/
theorem isr80hCommand3Putchar_signExtend
    (t : Terminal) (c : Byte) :
    isr80hCommand3Putchar t (c.signExtend 32) = t.terminalWritechar c 15 := by
  have hc : (c.signExtend 32).setWidth 8 = c := by
    ext i hi
    rw [BitVec.getElem_setWidth, BitVec.getLsbD_signExtend, if_pos hi,
      decide_eq_true (by omega : i < 32), Bool.true_and, BitVec.getLsbD_eq_getElem hi]
  rw [isr80hCommand3Putchar, hc]

namespace Stdlib

/-- The calls of `peachos_putchar`, whose argument is an `int`. -/
def echo (t : Terminal) (keys : List Byte) : Terminal :=
  keys.foldl (fun t key => isr80hCommand3Putchar t (key.signExtend 32)) t

/-- The line begins where the cursor was, the cursor is behind it, and what was there
before the line is left alone. -/
structure ShowsLine (t : Terminal) (text : List Byte) (t' : Terminal) : Prop where
  cursor : t'.cursorCell = t.cursorCell + text.length
  col : t'.terminalCol.toNat < vgaWidth
  before : ∀ i < t.cursorCell, t'.videoMem i = t.videoMem i
  chars : ∀ i c, text[i]? = some c → t'.videoMem (t.cursorCell + i) = terminalMakeChar c 15
  behind : ∀ i, t.cursorCell + text.length ≤ i → i < vgaWidth * vgaHeight → Blank (t'.videoMem i)

/-- The line behind a key. -/
def editLine (line : List Byte) (key : Byte) : List Byte :=
  if key = 0x08 then eraseOrStore line else line ++ [key]

/-- The keys that are read: those up to the return, or until the line is full. -/
def readKeys (capacity : Nat) : List Byte → List Byte → List Byte
  | _, [] => []
  | line, key :: keys =>
      if line.length = capacity ∨ key = 13 then []
      else key :: readKeys capacity (editLine line key) keys

theorem editor_cons
    (capacity : Nat) (line keys : List Byte) (key : Byte) :
    editor eraseOrStore capacity line (key :: keys) =
      if line.length = capacity ∨ key = 13 then line
      else editor eraseOrStore capacity (editLine line key) keys := by
  rw [editor, editLine]
  by_cases hkey : key = 0x08
  · rw [if_pos hkey, if_pos hkey]
  · rw [if_neg hkey, if_neg hkey]

/-- A return at the end changes nothing. -/
theorem editor_return
    (capacity : Nat) (line keys : List Byte) :
    editor eraseOrStore capacity line (keys ++ [13]) = editor eraseOrStore capacity line keys ∧
      readKeys capacity line (keys ++ [13]) = readKeys capacity line keys := by
  induction keys generalizing line with
  | nil => exact ⟨if_pos (Or.inr rfl), if_pos (Or.inr rfl)⟩
  | cons key keys ih =>
      rw [List.cons_append, editor_cons, editor_cons, readKeys, readKeys, (ih _).1, (ih _).2]
      exact ⟨rfl, rfl⟩

/-- Every key that is read is echoed. -/
theorem readlineLoop_echoed
    {max : Int} {s s' : Readline} {line : List Byte} (h : Holds max s line)
    (hreturn : 13 ∈ s.answers) (hloop : readlineLoop max true s = .ok (some s')) :
    s'.echoed = s.echoed ++ readKeys (max - 1).toNat line (s.answers.filter (· ≠ 0)) := by
  induction hn : s.answers.length using Nat.strong_induction_on generalizing s line with
  | _ n ih =>
      subst hn
      obtain ⟨key, rest, hkey, hfilter, h13⟩ := peachosGetkeyblock_eq hreturn
      have hi := h.i
      have hroom' := h.room
      rw [hfilter, readKeys]
      by_cases hroom : s.i < max - 1
      · by_cases hend : key = 13
        · subst hend
          cases (readlineLoop_return hroom hkey).symm.trans hloop
          rw [if_pos (Or.inr rfl), List.append_nil]
        · obtain ⟨out, i, htake, hholds⟩ := h.takeKey hroom key (s.echoed ++ [key]) rest
          rw [readlineLoop_key hroom hkey hend htake, if_pos rfl] at hloop
          rw [if_neg (not_or.mpr ⟨by omega, hend⟩)]
          refine (ih rest.length (peachosGetkeyblock_length_lt hkey) hholds (h13 hend) hloop
            rfl).trans ?_
          rw [List.append_assoc]
          rfl
      · cases (readlineLoop_full (by omega)).symm.trans hloop
        rw [if_pos (Or.inl (by omega)), List.append_nil]

/-- The line of the call, and the keys that it has echoed. -/
theorem peachosTerminalReadline_echoed
    {max : Int} {out answers : List Byte} (hmax : 2 ≤ max) (hout : (out.length : Int) = max)
    (hreturn : 13 ∈ answers) :
    ∃ s, peachosTerminalReadline answers out max true = .ok (some s) ∧
      editor eraseOrStore (max - 1).toNat [] (answers.filter (· ≠ 0)) ++ [0] <+: s.out ∧
      s.echoed = readKeys (max - 1).toNat [] (answers.filter (· ≠ 0)) := by
  obtain ⟨s, hcall, hline⟩ := peachosTerminalReadline_eq hmax hout hreturn true
  refine ⟨s, hcall, hline, ?_⟩
  have hstart : Holds max ⟨out, 0, [], answers⟩ [] :=
    ⟨⟨out, rfl⟩, rfl, hout, by dsimp only; omega⟩
  rw [peachosTerminalReadline] at hcall
  obtain ⟨found, hloop, hcall⟩ := bind_eq_ok_iff.mp hcall
  cases found with
  | none => cases hcall
  | some s' =>
      obtain ⟨out', -, hcall⟩ := bind_eq_ok_iff.mp hcall
      cases hcall
      have hechoed := readlineLoop_echoed hstart hreturn hloop
      exact hechoed

/-- The terminal follows the buffer: a backspace has a character of the line in front of
it, in the same row, and no other key is a newline. -/
def Follows (cell : Nat) (line : List Byte) (key : Byte) : Prop :=
  if key = 0x08 then line ≠ [] ∧ (cell + line.length) % vgaWidth ≠ 0 else key ≠ 0x0A

section Key

variable {t t' : Terminal} {line : List Byte} {key : Byte}

theorem echo_cons
    (t : Terminal) (key : Byte) (keys : List Byte) :
    echo t (key :: keys) = echo (t.terminalWritechar key 15) keys := by
  rw [echo, List.foldl_cons, isr80hCommand3Putchar_signExtend]
  rfl

theorem ShowsLine.storeKey
    (h : ShowsLine t line t') (hnewline : key ≠ 0x0A) (hback : key ≠ 0x08)
    (hroom : t.cursorCell + line.length < vgaWidth * vgaHeight) :
    ShowsLine t (line ++ [key]) (t'.terminalWritechar key 15) := by
  have hstart := h.cursor
  have hwritten := terminalWritechar_written hnewline hback h.col (by omega) 15
  refine ⟨?_, hwritten.col, fun i hi => ?_, fun i c hi => ?_, fun i hi hscreen => ?_⟩
  · rw [hwritten.cursor, hstart, List.length_append]
    rfl
  · rw [hwritten.cells, if_neg (by omega)]
    exact h.before i hi
  · rw [hwritten.cells, hstart]
    rcases Nat.lt_trichotomy i line.length with hlt | rfl | hgt
    · rw [if_neg (by omega)]
      rw [List.getElem?_append_left hlt] at hi
      exact h.chars i c hi
    · rw [if_pos rfl]
      rw [List.getElem?_concat_length] at hi
      rw [Option.some.inj hi]
    · rw [List.getElem?_eq_none (by rw [List.length_append]; exact hgt)] at hi
      cases hi
  · rw [List.length_append, List.length_singleton] at hi
    rw [hwritten.cells, if_neg (by omega)]
    exact h.behind i (by omega) hscreen

theorem ShowsLine.eraseLast
    {c : Byte} (h : ShowsLine t (line ++ [c]) t') (hcol : t'.terminalCol ≠ 0) :
    ShowsLine t line (t'.terminalWritechar 0x08 15) := by
  have hlt := h.col
  have hend := h.cursor
  have hpos : t'.terminalCol.toNat ≠ 0 := fun h0 => hcol (BitVec.eq_of_toNat_eq h0)
  have hprev : (t'.terminalCol - 1).toNat = t'.terminalCol.toNat - 1 := by
    rw [vgaWidth] at hlt
    bv_omega
  rw [List.length_append, List.length_singleton, cursorCell] at hend
  have hcell : t'.terminalRow.toNat * vgaWidth + (t'.terminalCol.toNat - 1) =
      t.cursorCell + line.length := by omega
  rw [terminalWritechar_backspace, terminalBackspace_within hcol hlt]
  have hcells (i : Nat) : (t'.terminalPutchar (t'.terminalCol.toNat - 1) t'.terminalRow.toNat
      0x20 15).videoMem i =
        if i = t.cursorCell + line.length then terminalMakeChar 0x20 15 else t'.videoMem i := by
    rw [terminalPutchar, hcell]
  refine ⟨?_, ?_, fun i hi => ?_, fun i d hi => ?_, fun i hi hscreen => ?_⟩
  · change t'.terminalRow.toNat * vgaWidth + (t'.terminalCol - 1).toNat = _
    rw [hprev, hcell]
  · change (t'.terminalCol - 1).toNat < _
    omega
  · refine (hcells i).trans ?_
    rw [if_neg (by omega)]
    exact h.before i hi
  · obtain ⟨hlength, -⟩ := List.getElem?_eq_some_iff.mp hi
    refine (hcells _).trans ?_
    rw [if_neg (by omega)]
    exact h.chars i d (by rw [List.getElem?_append_left hlength]; exact hi)
  · rw [hcells]
    split_ifs with heq
    · exact blank_terminalMakeChar
    · exact h.behind i (by rw [List.length_append, List.length_singleton]; omega) hscreen

/-- A backspace at the start of a row takes the cursor off the screen. -/
theorem not_showsLine_backspace
    {line' : List Byte} (hcol : t'.terminalCol = 0) (hcell : t'.cursorCell ≠ 0) :
    ¬ ShowsLine t line' (t'.terminalWritechar 0x08 15) := by
  intro h
  have hrow : t'.terminalRow ≠ 0 := fun h0 => hcell (by rw [cursorCell, h0, hcol]; rfl)
  have hlt := h.col
  rw [terminalWritechar_backspace, terminalBackspace_wraps hrow hcol] at hlt
  change (0xFFFF : Half).toNat < vgaWidth at hlt
  exact absurd hlt (by decide)

/-- On an empty line the buffer gets a character, and the cursor goes back. -/
theorem not_showsLine_stray
    (h : ShowsLine t [] t') :
    ¬ ShowsLine t [0x08] (t'.terminalWritechar 0x08 15) := by
  intro h'
  have hend := h'.cursor
  have hstart := h.cursor
  have hlt := h.col
  rw [List.length_singleton] at hend
  rw [List.length_nil, Nat.add_zero] at hstart
  by_cases hcol : t'.terminalCol = 0
  · by_cases hcell : t'.cursorCell = 0
    · have hrow : t'.terminalRow = 0 := by
        rw [cursorCell, vgaWidth] at hcell
        exact BitVec.eq_of_toNat_eq (show t'.terminalRow.toNat = 0 by omega)
      rw [terminalWritechar_backspace, terminalBackspace_origin hrow hcol] at hend
      omega
    · exact not_showsLine_backspace hcol hcell h'
  · have hprev : (t'.terminalCol - 1).toNat ≤ t'.terminalCol.toNat := by bv_omega
    rw [terminalWritechar_backspace, terminalBackspace_within hcol hlt] at hend
    change t'.terminalRow.toNat * vgaWidth + (t'.terminalCol - 1).toNat = _ at hend
    rw [cursorCell] at hstart
    omega

/-- The screen goes on showing the line exactly if the terminal follows. -/
theorem ShowsLine.key_iff
    (h : ShowsLine t line t') (hroom : t.cursorCell + line.length < vgaWidth * vgaHeight)
    (key : Byte) :
    ShowsLine t (editLine line key) (t'.terminalWritechar key 15) ↔
      Follows t.cursorCell line key := by
  rw [editLine, Follows]
  by_cases hback : key = 0x08
  · subst hback
    rw [if_pos rfl, if_pos rfl]
    obtain rfl | ⟨line, c, rfl⟩ := line.eq_nil_or_concat'
    · exact iff_of_false (not_showsLine_stray h) fun hfollows => hfollows.1 rfl
    · have hend := h.cursor
      have hlt := h.col
      have hedge : t'.terminalCol = 0 ↔ (t.cursorCell + (line ++ [c]).length) % vgaWidth = 0 := by
        rw [← hend, ← BitVec.toNat_inj, cursorCell, vgaWidth]
        rw [vgaWidth] at hlt
        change t'.terminalCol.toNat = 0 ↔ _
        omega
      rw [eraseOrStore, if_neg (List.concat_ne_nil c line), List.dropLast_concat]
      by_cases hcol : t'.terminalCol = 0
      · refine iff_of_false (not_showsLine_backspace hcol ?_) fun hfollows =>
          hfollows.2 (hedge.mp hcol)
        rw [hend, List.length_append, List.length_singleton]
        omega
      · exact iff_of_true (h.eraseLast hcol)
          ⟨List.concat_ne_nil c line, fun h0 => hcol (hedge.mpr h0)⟩
  · rw [if_neg hback, if_neg hback]
    by_cases hnewline : key = 0x0A
    · subst hnewline
      refine iff_of_false (fun h' => ?_) (not_not.mpr rfl)
      have hchar := h'.chars line.length 0x0A List.getElem?_concat_length
      have hblank := h.behind (t.cursorCell + line.length) (Nat.le_refl _) hroom
      rw [terminalWritechar_newline] at hchar
      rw [show t'.videoMem _ = _ from hchar] at hblank
      exact absurd hblank (by rw [Blank]; decide)
    · exact iff_of_true (h.storeKey hnewline hback hroom) hnewline

end Key

/-- The terminal follows at every key that is read. -/
def AllFollow (capacity cell : Nat) : List Byte → List Byte → Prop
  | _, [] => True
  | line, key :: keys =>
      line.length = capacity ∨ key = 13 ∨
        (Follows cell line key ∧ AllFollow capacity cell (editLine line key) keys)

theorem length_editLine_le
    (line : List Byte) (key : Byte) :
    (editLine line key).length ≤ line.length + 1 := by
  rw [editLine, eraseOrStore]
  split_ifs
  · exact Nat.le_add_left 1 _
  · rw [List.length_dropLast]
    omega
  · exact Nat.le_of_eq List.length_append

/-- However far the keys have been typed, the screen shows the line, exactly if the
terminal follows at every key. -/
theorem showsLine_iff_allFollow
    {t t' : Terminal} {line keys : List Byte} (capacity : Nat) (h : ShowsLine t line t')
    (hroom : t.cursorCell + (line.length + keys.length) ≤ vgaWidth * vgaHeight) :
    (∀ done, done <+: keys → ShowsLine t (editor eraseOrStore capacity line done)
        (echo t' (readKeys capacity line done))) ↔
      AllFollow capacity t.cursorCell line keys := by
  induction keys generalizing line t' with
  | nil =>
      refine iff_of_true (fun done hdone => ?_) trivial
      rw [List.prefix_nil.mp hdone]
      exact h
  | cons key keys ih =>
      rw [List.length_cons] at hroom
      rw [AllFollow]
      by_cases hstop : line.length = capacity ∨ key = 13
      · refine iff_of_true (fun done hdone => ?_) (or_assoc.mp (Or.inl hstop))
        cases done with
        | nil => exact h
        | cons key' done =>
            obtain rfl := (List.cons_prefix_cons.mp hdone).1
            rw [editor_cons, readKeys, if_pos hstop, if_pos hstop]
            exact h
      · obtain ⟨hfull, hreturn⟩ := not_or.mp hstop
        have hkey := h.key_iff (by omega) key
        have hlength := length_editLine_le line key
        have hsplit : (∀ done, done <+: key :: keys →
            ShowsLine t (editor eraseOrStore capacity line done)
              (echo t' (readKeys capacity line done))) ↔
            ∀ done, done <+: keys →
              ShowsLine t (editor eraseOrStore capacity (editLine line key) done)
                (echo (t'.terminalWritechar key 15)
                  (readKeys capacity (editLine line key) done)) := by
          constructor
          · intro hall done hdone
            have hshows := hall (key :: done) (List.cons_prefix_cons.mpr ⟨rfl, hdone⟩)
            rwa [editor_cons, readKeys, if_neg hstop, if_neg hstop, echo_cons] at hshows
          · intro hall done hdone
            cases done with
            | nil => exact h
            | cons key' done =>
                obtain ⟨rfl, hrest⟩ := List.cons_prefix_cons.mp hdone
                rw [editor_cons, readKeys, if_neg hstop, if_neg hstop, echo_cons]
                exact hall done hrest
        rw [hsplit]
        constructor
        · intro hall
          have hnow : ShowsLine t (editLine line key) (t'.terminalWritechar key 15) :=
            hall [] List.nil_prefix
          exact Or.inr (Or.inr ⟨hkey.mp hnow, (ih hnow (by omega)).mp hall⟩)
        · intro hfollow
          obtain ⟨hfollows, hrest⟩ := (hfollow.resolve_left hfull).resolve_left hreturn
          exact (ih (hkey.mpr hfollows) (by omega)).mpr hrest

/-- With return behind the keys, the call returns a line, and the screen shows it. -/
def LineOnScreen (t : Terminal) (out : List Byte) (max : Int) (keys : List Byte) : Prop :=
  ∀ answers : List Byte, answers.filter (· ≠ 0) = keys ++ [13] →
    ∃ s line, peachosTerminalReadline answers out max true = .ok (some s) ∧
      line ++ [0] <+: s.out ∧ 0 ∉ line ∧ ShowsLine t line (echo t s.echoed)

theorem lineOnScreen_iff
    {t : Terminal} {out keys : List Byte} {max : Int} (hmax : 2 ≤ max)
    (hout : (out.length : Int) = max) (h0 : 0 ∉ keys) :
    LineOnScreen t out max keys ↔
      ShowsLine t (editor eraseOrStore (max - 1).toNat [] keys)
        (echo t (readKeys (max - 1).toNat [] keys)) := by
  obtain ⟨heditor, hread⟩ := editor_return (max - 1).toNat [] keys
  have hcode : 0 ∉ editor eraseOrStore (max - 1).toNat [] keys := by
    refine zero_not_mem_editor (fun line hline => ?_) List.not_mem_nil h0
    rw [eraseOrStore]
    split_ifs
    · decide
    · exact fun hmem => hline (List.mem_of_mem_dropLast hmem)
  constructor
  · intro h
    have hkeys : (keys ++ [13]).filter (· ≠ 0) = keys ++ [13] := by
      refine List.filter_eq_self.mpr fun key hkey => decide_eq_true fun hzero => ?_
      rcases List.mem_append.mp hkey with hkey | hkey
      · exact h0 (hzero ▸ hkey)
      · rw [List.mem_singleton.mp hkey] at hzero
        exact absurd hzero (by decide)
    obtain ⟨s, line, hcall, hline, hnul, hshows⟩ := h _ hkeys
    obtain ⟨s', hcall', hline', hechoed⟩ := peachosTerminalReadline_echoed hmax hout
      (List.mem_append_right keys (List.mem_singleton_self 13))
    cases hcall.symm.trans hcall'
    rw [hkeys, heditor] at hline'
    rw [hkeys, hread] at hechoed
    rw [← eq_of_prefix hnul hcode hline hline', ← hechoed]
    exact hshows
  · intro h answers hanswers
    have hreturn : 13 ∈ answers := by
      have hmem : 13 ∈ answers.filter (· ≠ 0) := by rw [hanswers]; simp
      exact (List.mem_filter.mp hmem).1
    obtain ⟨s, hcall, hline, hechoed⟩ := peachosTerminalReadline_echoed hmax hout hreturn
    rw [hanswers, heditor] at hline
    rw [hanswers, hread] at hechoed
    exact ⟨s, _, hcall, hline, hcode, by rw [hechoed]; exact h⟩

/-- At every moment of typing the screen shows the line that the program would get,
exactly if no backspace comes on an empty line or with the cursor at the start of a
row, and no key is a newline. -/
theorem readline_shows_iff
    (t : Terminal) (out keys : List Byte) (max : Int) (hmax : 2 ≤ max)
    (hout : (out.length : Int) = max) (h0 : 0 ∉ keys) (hcol : t.terminalCol.toNat < vgaWidth)
    (hblank : ∀ i, t.cursorCell ≤ i → i < vgaWidth * vgaHeight → Blank (t.videoMem i))
    (hroom : t.cursorCell + keys.length ≤ vgaWidth * vgaHeight) :
    (∀ done, done <+: keys → LineOnScreen t out max done) ↔
      AllFollow (max - 1).toNat t.cursorCell [] keys := by
  have hstart : ShowsLine t [] t :=
    ⟨rfl, hcol, fun _ _ => rfl, fun i c hi => (by cases hi), fun i hi => hblank i hi⟩
  have hiff := @showsLine_iff_allFollow t t [] keys (max - 1).toNat hstart (by simpa using hroom)
  rw [← hiff]
  refine forall_congr' fun done => imp_congr_right fun hdone => ?_
  exact lineOnScreen_iff hmax hout fun hmem => h0 (hdone.subset hmem)

/-- Behind the prompt of the shell. -/
def prompt : Terminal := ⟨fun _ => 0x20, 2, 2, []⟩

/-- Two characters, of which the second one is taken back. -/
theorem readline_shows_iff_prompt :
    (∀ done, done <+: [97, 98, 8] → LineOnScreen prompt [0, 0, 0, 0] 4 done) ↔
      AllFollow 3 162 [] [97, 98, 8] :=
  readline_shows_iff prompt [0, 0, 0, 0] [97, 98, 8] 4 (by decide) rfl (by decide) (by decide)
    (fun _ _ _ => rfl) (by decide)

end Stdlib
end PeachOS
