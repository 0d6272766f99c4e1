import PeachOS.Lib.ByteMemory
import PeachOS.Terminal

/-!
# The page on the screen

What `print` of `kernel.c` leaves on the screen, cell by cell.  The cells are counted
along the rows: behind the last cell of a row comes the first one of the next, so a
line that is too long goes on there by itself.
-/

namespace PeachOS
namespace Terminal

open Lib

/-- `print`, of the bytes in front of the NUL. -/
def print (t : Terminal) (str : List Byte) : Terminal :=
  t.writechars (str.map fun c => (c, 15))

/-- The cells that `print` writes, by column and row. -/
def cellsOf (t : Terminal) (str : List Byte) : List (Nat × Nat) :=
  (t.print str).written.drop t.written.length

/-- Where a cell is in memory; `video_mem` is not bounded. -/
def cellAddress (cell : Nat × Nat) : Ptr :=
  0xB8000 + BitVec.ofNat 32 (2 * (cell.2 * vgaWidth + cell.1))

/-- A byte of the cells. -/
def InCells (cells : List (Nat × Nat)) (b : Ptr) : Prop :=
  ∃ cell ∈ cells, (b - cellAddress cell).toNat < 2

/-- The memory once the cells hold what the terminal has in them. -/
def showCells (t : Terminal) (cells : List (Nat × Nat)) (mem : Memory) : Memory := fun b =>
  (cells.find? fun cell => (b - cellAddress cell).toNat < 2).elim (mem b) fun cell =>
    (t.videoMem (cell.2 * vgaWidth + cell.1)).extractLsb' (8 * (b - cellAddress cell).toNat) 8

/-- The cells up to one of them end before its address. -/
theorem InCells.below
    {cells : List (Nat × Nat)} {b : Ptr} (hb : InCells cells b) {n : Nat}
    (hcells : ∀ cell ∈ cells, cell.2 * vgaWidth + cell.1 < n) (hn : 0xB8000 + 2 * n ≤ 2 ^ 32) :
    b.toNat < 0xB8000 + 2 * n := by
  obtain ⟨cell, hcell, hlt⟩ := hb
  have hindex := hcells cell hcell
  have haddress : (cellAddress cell).toNat = 0xB8000 + 2 * (cell.2 * vgaWidth + cell.1) := by
    have hvideo : (0xB8000 : Ptr).toNat = 0xB8000 := rfl
    rw [cellAddress, BitVec.toNat_add, BitVec.toNat_ofNat, hvideo]
    omega
  have hbounds := toNat_of_sub_lt hlt (by omega)
  omega

theorem showCells_of_not_inCells
    (t : Terminal) {cells : List (Nat × Nat)} (mem : Memory) {b : Ptr} (hb : ¬ InCells cells b) :
    t.showCells cells mem b = mem b := by
  have hnone : (cells.find? fun cell => (b - cellAddress cell).toNat < 2) = none :=
    List.find?_eq_none.mpr fun cell hcell hlt => hb ⟨cell, hcell, of_decide_eq_true hlt⟩
  rw [showCells, hnone]
  rfl

/-- The rows that a line takes from its column on; behind a full row the cursor is in
the next one. -/
def rowsOf (col : Nat) (line : List Byte) : Nat := (col + line.length) / vgaWidth + 1

/-- The cells of a line, up to the end of its last row. -/
def lineCells (col : Nat) (line : List Byte) : List (Option Byte) :=
  line.map some ++ List.replicate (vgaWidth * rowsOf col line - (col + line.length)) none

/-- The cells of a text that begins in the column, line by line; nothing is written to
the ones that are `none`. -/
def pageCells : Nat → List (List Byte) → List (Option Byte)
  | _, [] => []
  | col, line :: lines => lineCells col line ++ pageCells 0 lines

/-- The page stands on the screen from the cursor on, and the rest is as it was. -/
def ShowsPage (t : Terminal) (cells : List (Option Byte)) (t' : Terminal) : Prop :=
  (∀ i < t.cursorCell, t'.videoMem i = t.videoMem i) ∧
    ∀ i, t'.videoMem (t.cursorCell + i) =
      cells[i]?.join.elim (t.videoMem (t.cursorCell + i)) (terminalMakeChar · 15)

theorem length_lineCells
    (col : Nat) (line : List Byte) :
    col + (lineCells col line).length = vgaWidth * rowsOf col line := by
  rw [lineCells, List.length_append, List.length_map, List.length_replicate, rowsOf, vgaWidth]
  omega

/-- Behind its characters a line has no cell. -/
theorem lineCells_join
    (col : Nat) (chars : List Byte) (i : Nat) :
    (lineCells col chars)[i]?.join = chars[i]? := by
  rw [lineCells]
  by_cases hi : i < chars.length
  · rw [List.getElem?_append_left (by rwa [List.length_map]), List.getElem?_map,
      List.getElem?_eq_getElem hi]
    rfl
  · rw [List.getElem?_append_right (by rw [List.length_map]; omega), List.getElem?_replicate,
      List.getElem?_eq_none (by omega)]
    split_ifs <;> rfl

variable {t : Terminal} {c : Byte}

/-- A character is written at the cursor, which goes on by one cell. -/
structure Written (t : Terminal) (c colour : Byte) (t' : Terminal) : Prop where
  cursor : t'.cursorCell = t.cursorCell + 1
  col : t'.terminalCol.toNat < vgaWidth
  cells : ∀ i, t'.videoMem i =
    if i = t.cursorCell then terminalMakeChar c colour else t.videoMem i

theorem row_lt_of_cursorCell
    {n : Nat} (h : t.cursorCell < vgaWidth * n) :
    t.terminalRow.toNat < n := by
  rw [cursorCell, vgaWidth] at h
  omega

theorem terminalWritechar_written
    (hnewline : c ≠ 0x0A) (hback : c ≠ 0x08) (hcol : t.terminalCol.toNat < vgaWidth)
    (hroom : t.cursorCell < vgaWidth * vgaHeight) (colour : Byte) :
    Written t c colour (t.terminalWritechar c colour) := by
  have hrow := row_lt_of_cursorCell hroom
  by_cases hend : t.terminalCol.toNat + 1 = vgaWidth
  · rw [terminalWritechar_wraps hnewline hback hend]
    have hnext : (t.terminalRow + 1).toNat = t.terminalRow.toNat + 1 := by
      rw [vgaHeight] at hrow
      bv_omega
    refine ⟨?_, Nat.zero_lt_succ _, fun i => rfl⟩
    change (t.terminalRow + 1).toNat * vgaWidth + 0 = _
    rw [hnext, cursorCell, Nat.add_assoc, hend, Nat.succ_mul, Nat.add_zero]
  · have hnext : (t.terminalCol + 1).toNat = t.terminalCol.toNat + 1 := by
      rw [vgaWidth] at hcol
      bv_omega
    rw [terminalWritechar_within hnewline hback (by omega)]
    refine ⟨?_, ?_, fun i => rfl⟩
    · change t.terminalRow.toNat * vgaWidth + (t.terminalCol + 1).toNat = _
      rw [hnext]
      rfl
    · change (t.terminalCol + 1).toNat < vgaWidth
      omega

/-- A newline takes the cursor to the start of the next row. -/
theorem cursorCell_newline
    (hcol : t.terminalCol.toNat < vgaWidth) (hroom : t.cursorCell < vgaWidth * vgaHeight) :
    t.newline.cursorCell = vgaWidth * (t.cursorCell / vgaWidth + 1) := by
  have hrow := row_lt_of_cursorCell hroom
  have hnext : (t.terminalRow + 1).toNat = t.terminalRow.toNat + 1 := by
    rw [vgaHeight] at hrow
    bv_omega
  change (t.terminalRow + 1).toNat * vgaWidth + 0 = _
  rw [hnext, cursorCell]
  unfold vgaWidth at *
  omega

/-- The line stands behind what was there. -/
structure LineWritten (t : Terminal) (chars : List Byte) (t' : Terminal) : Prop where
  cursor : t'.cursorCell = t.cursorCell + chars.length
  col : t'.terminalCol.toNat < vgaWidth
  before : ∀ i < t.cursorCell, t'.videoMem i = t.videoMem i
  cells : ∀ i, t'.videoMem (t.cursorCell + i) =
    chars[i]?.elim (t.videoMem (t.cursorCell + i)) (terminalMakeChar · 15)

theorem print_append
    (t : Terminal) (str str' : List Byte) :
    t.print (str ++ str') = (t.print str).print str' := by
  rw [print, List.map_append, writechars, List.foldl_append]
  rfl

theorem print_line
    {line : List Byte} (hline : ∀ c ∈ line, c ≠ 0x0A ∧ c ≠ 0x08)
    (hcol : t.terminalCol.toNat < vgaWidth)
    (hroom : t.cursorCell + line.length ≤ vgaWidth * vgaHeight) :
    LineWritten t line (t.print line) := by
  induction line generalizing t with
  | nil => exact ⟨rfl, hcol, fun _ _ => rfl, fun _ => rfl⟩
  | cons c line ih =>
      rw [List.length_cons] at hroom
      obtain ⟨hnewline, hback⟩ := hline c List.mem_cons_self
      have hchar := terminalWritechar_written hnewline hback hcol (by omega) 15
      have hrest := ih (fun d hd => hline d (List.mem_cons_of_mem c hd)) hchar.col
        (by rw [hchar.cursor]; omega)
      have hstart := hchar.cursor
      refine ⟨?_, hrest.col, fun i hi => ?_, fun i => ?_⟩
      · rw [List.length_cons]
        refine hrest.cursor.trans ?_
        omega
      · refine (hrest.before i (by omega)).trans ?_
        rw [hchar.cells, if_neg (by omega)]
      · cases i with
        | zero =>
            refine (hrest.before _ (by omega)).trans ?_
            rw [hchar.cells]
            exact if_pos rfl
        | succ i =>
            have hcell := hrest.cells i
            rw [hstart, hchar.cells, if_neg (by omega)] at hcell
            rw [List.getElem?_cons_succ, ← Nat.add_assoc, Nat.add_right_comm]
            exact hcell

theorem cursorCell_newline_le (t : Terminal) :
    t.newline.cursorCell ≤ (t.cursorCell / vgaWidth + 1) * vgaWidth := by
  have hrow : (t.terminalRow + 1).toNat ≤ t.terminalRow.toNat + 1 := by bv_omega
  change (t.terminalRow + 1).toNat * vgaWidth + 0 ≤ _
  rw [cursorCell]
  unfold vgaWidth
  omega

/-- A character is written where the cursor is, also behind the screen. -/
theorem terminalWritechar_cell
    (t : Terminal) (hnewline : c ≠ 0x0A) (hback : c ≠ 0x08) (colour : Byte) :
    (t.terminalWritechar c colour).written =
        t.written ++ [(t.terminalCol.toNat, t.terminalRow.toNat)] ∧
      (t.terminalWritechar c colour).cursorCell ≤ t.cursorCell + 1 := by
  have hcol : (t.terminalCol + 1).toNat ≤ t.terminalCol.toNat + 1 := by bv_omega
  have hrow : (t.terminalRow + 1).toNat ≤ t.terminalRow.toNat + 1 := by bv_omega
  rw [terminalWritechar, if_neg hnewline, if_neg hback]
  dsimp only [terminalPutchar]
  split_ifs with hend
  · refine ⟨rfl, ?_⟩
    change (t.terminalRow + 1).toNat * vgaWidth + 0 ≤ _
    rw [cursorCell]
    unfold vgaWidth at *
    omega
  · refine ⟨rfl, ?_⟩
    change t.terminalRow.toNat * vgaWidth + (t.terminalCol + 1).toNat ≤ _
    rw [cursorCell]
    omega

/-- The cells of a line lie behind the cursor, one for each character. -/
theorem print_line_cells
    {line : List Byte} (hline : ∀ c ∈ line, c ≠ 0x0A ∧ c ≠ 0x08) :
    ∃ cells, (t.print line).written = t.written ++ cells ∧
      (∀ cell ∈ cells, cell.2 * vgaWidth + cell.1 < t.cursorCell + line.length) ∧
      (t.print line).cursorCell ≤ t.cursorCell + line.length := by
  induction line generalizing t with
  | nil => exact ⟨[], (List.append_nil _).symm, fun _ h => (List.not_mem_nil h).elim, Nat.le_refl _⟩
  | cons c line ih =>
      obtain ⟨hnewline, hback⟩ := hline c List.mem_cons_self
      obtain ⟨hwritten, hcursor⟩ := terminalWritechar_cell t hnewline hback 15
      obtain ⟨cells, hrest, hcells, hend⟩ :=
        @ih (t.terminalWritechar c 15) fun d hd => hline d (List.mem_cons_of_mem c hd)
      have hcons : t.print (c :: line) = (t.terminalWritechar c 15).print line := rfl
      refine ⟨(t.terminalCol.toNat, t.terminalRow.toNat) :: cells, ?_, fun cell hcell => ?_, ?_⟩
      · rw [hcons, hrest, hwritten, List.append_assoc]
        rfl
      · rw [List.length_cons]
        rcases List.mem_cons.mp hcell with rfl | hcell
        · change t.cursorCell < _
          omega
        · have hlt := hcells cell hcell
          omega
      · rw [hcons, List.length_cons]
        omega

/-- The cells of a line with its newline. -/
theorem print_line_newline_cells
    {line : List Byte} (hline : ∀ c ∈ line, c ≠ 0x0A ∧ c ≠ 0x08) :
    (∀ cell ∈ t.cellsOf (line ++ [0x0A]),
        cell.2 * vgaWidth + cell.1 < t.cursorCell + line.length) ∧
      (t.print (line ++ [0x0A])).cursorCell ≤
        ((t.cursorCell + line.length) / vgaWidth + 1) * vgaWidth ∧
      vgaWidth ∣ (t.print (line ++ [0x0A])).cursorCell := by
  obtain ⟨cells, hwritten, hcells, hcursor⟩ := @print_line_cells t line hline
  have hprint : t.print (line ++ [0x0A]) = (t.print line).newline := by
    rw [print_append]
    exact terminalWritechar_newline _ 15
  refine ⟨fun cell hcell => hcells cell ?_, ?_, ?_⟩
  · have hsame : (t.print line).newline.written = t.written ++ cells := hwritten
    rwa [cellsOf, hprint, hsame, List.drop_left] at hcell
  · rw [hprint]
    refine (cursorCell_newline_le _).trans (Nat.mul_le_mul_right _ ?_)
    exact Nat.add_le_add_right (Nat.div_le_div_right hcursor) 1
  · rw [hprint]
    exact ⟨(t.print line).newline.terminalRow.toNat, Nat.mul_comm _ _⟩

theorem print_newline (t : Terminal) : t.print [0x0A] = t.newline :=
  terminalWritechar_newline t 15

/-- The start of the next line. -/
theorem LineWritten.next
    {line : List Byte} {t' : Terminal} (h : LineWritten t line t')
    (hroom : t'.cursorCell < vgaWidth * vgaHeight) :
    t'.newline.cursorCell = t.cursorCell + (lineCells t.terminalCol.toNat line).length := by
  have hlength := length_lineCells t.terminalCol.toNat line
  rw [cursorCell_newline h.col hroom, h.cursor]
  rw [cursorCell, rowsOf] at *
  unfold vgaWidth at *
  omega

/-- The first line and the page below it. -/
theorem LineWritten.showsPage
    {line : List Byte} {t' t'' : Terminal} {cells : List (Option Byte)} (h : LineWritten t line t')
    (hroom : t'.cursorCell < vgaWidth * vgaHeight) (hrest : ShowsPage t'.newline cells t'') :
    ShowsPage t (lineCells t.terminalCol.toNat line ++ cells) t'' := by
  have hnext := h.next hroom
  have hend := h.cursor
  have hlength := length_lineCells t.terminalCol.toNat line
  have hline : line.length ≤ (lineCells t.terminalCol.toNat line).length := by
    rw [rowsOf, vgaWidth] at hlength
    omega
  obtain ⟨hbefore, hcells⟩ := hrest
  rw [hnext] at hbefore hcells
  refine ⟨fun i hi => (hbefore i (by omega)).trans (h.before i hi), fun i => ?_⟩
  by_cases hi : i < (lineCells t.terminalCol.toNat line).length
  · rw [List.getElem?_append_left hi, lineCells_join]
    exact (hbefore _ (by omega)).trans (h.cells i)
  · obtain ⟨j, rfl⟩ := Nat.exists_eq_add_of_le (Nat.not_lt.mp hi)
    have hblank := h.cells ((lineCells t.terminalCol.toNat line).length + j)
    rw [List.getElem?_eq_none (by omega), Option.elim] at hblank
    have hcell := hcells j
    rw [Nat.add_assoc, show t'.newline.videoMem _ = _ from hblank] at hcell
    rw [List.getElem?_append_right (Nat.le_add_right _ _), Nat.add_sub_cancel_left]
    exact hcell

/-- A text without a backspace, line by line. -/
theorem showsPage_print
    (t : Terminal) (text : List Byte) (hback : 0x08 ∉ text) (hcol : t.terminalCol.toNat < vgaWidth)
    (hroom : t.cursorCell + (pageCells t.terminalCol.toNat (text.splitOn 0x0A)).length ≤
      vgaWidth * vgaHeight) :
    ShowsPage t (pageCells t.terminalCol.toNat (text.splitOn 0x0A)) (t.print text) := by
  induction hn : text.length using Nat.strong_induction_on generalizing t text with
  | _ n ih =>
      subst hn
      have hcells (line : List Byte) :
          line.length < (lineCells t.terminalCol.toNat line).length := by
        have hlength := length_lineCells t.terminalCol.toNat line
        rw [rowsOf, vgaWidth] at hlength
        omega
      have hplain (line : List Byte) (hnewline : 0x0A ∉ line) (hback : 0x08 ∉ line) :
          ∀ c ∈ line, c ≠ 0x0A ∧ c ≠ 0x08 :=
        fun c hc => ⟨fun h => hnewline (h ▸ hc), fun h => hback (h ▸ hc)⟩
      by_cases hnewline : 0x0A ∈ text
      · obtain ⟨line, rest, rfl, hline⟩ := List.eq_append_cons_of_mem hnewline
        rw [List.splitOn_append_cons_self_of_not_mem hline, pageCells] at hroom ⊢
        rw [List.length_append] at hroom
        have hlt := hcells line
        have hwritten := print_line (hplain line hline fun h => hback (List.mem_append_left _ h))
          hcol (by omega)
        have hend := hwritten.cursor
        rw [← List.singleton_append, print_append, print_append, print_newline]
        refine hwritten.showsPage (by omega) (ih rest.length ?_ (t.print line).newline rest
          (fun h => hback (List.mem_append_right _ (List.mem_cons_of_mem _ h)))
          (Nat.zero_lt_succ _) ?_ rfl)
        · rw [List.length_append, List.length_cons]
          omega
        · rw [hwritten.next (by omega), Nat.add_assoc]
          exact hroom
      · rw [List.splitOn_eq_singleton hnewline, pageCells, pageCells, List.append_nil] at hroom ⊢
        have hlt := hcells text
        have hwritten := print_line (hplain text hnewline hback) hcol (by omega)
        exact ⟨hwritten.before, fun i => by rw [lineCells_join]; exact hwritten.cells i⟩

theorem foldl_print
    (t : Terminal) (texts : List (List Byte)) :
    texts.foldl print t = t.print texts.flatten := by
  induction texts generalizing t with
  | nil => rfl
  | cons text texts ih => rw [List.foldl_cons, ih, List.flatten_cons, print_append]

/-- Texts without a backspace, printed one behind the other, stand on the screen as one page
when they have room. -/
theorem print_shows_page
    (t : Terminal) (texts : List (List Byte)) (hback : 0x08 ∉ texts.flatten)
    (hcol : t.terminalCol.toNat < vgaWidth)
    (hroom : t.cursorCell + (pageCells t.terminalCol.toNat (texts.flatten.splitOn 0x0A)).length ≤
      vgaWidth * vgaHeight) :
    ShowsPage t (pageCells t.terminalCol.toNat (texts.flatten.splitOn 0x0A))
      (texts.foldl print t) := by
  rw [foldl_print]
  exact showsPage_print t texts.flatten hback hcol hroom

/-- In the middle of a row. -/
def indented : Terminal := ⟨fun _ => 0, 3, 70, []⟩

/-- A line that is too long for the row, in two pieces, and another one. -/
def twoLines : List (List Byte) := [List.replicate 15 0x61, List.replicate 5 0x61 ++ [0x0A, 0x62]]

theorem print_shows_page_twoLines :
    ShowsPage indented (pageCells indented.terminalCol.toNat (twoLines.flatten.splitOn 0x0A))
      (twoLines.foldl print indented) :=
  print_shows_page indented twoLines (by decide) (by decide) (by decide +kernel)

end Terminal
end PeachOS
