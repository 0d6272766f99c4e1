import PeachOS.Config

/-!
# The terminal

`terminal_writechar` of `kernel.c`.  The cursor is two counters of 16 bits; a cell
of the screen is a half word of the video memory, at an index that its column and
its row give.
-/

namespace PeachOS

def vgaWidth : Nat := 80
def vgaHeight : Nat := 20

/-- `written` remembers the column and the row of what has been written. -/
structure Terminal where
  videoMem : Nat → Half
  terminalRow : Half
  terminalCol : Half
  written : List (Nat × Nat)

/-- Both are of type `char`, and negative from 0x80 on. -/
def terminalMakeChar (c colour : Byte) : Half :=
  (colour.signExtend 32 <<< 8 ||| c.signExtend 32).setWidth 16

namespace Terminal

def terminalPutchar (t : Terminal) (x y : Nat) (c colour : Byte) : Terminal :=
  { t with
    videoMem := fun i => if i = y * vgaWidth + x then terminalMakeChar c colour else t.videoMem i
    written := t.written ++ [(x, y)] }

/-- `terminal_col = 0; terminal_row += 1`. -/
def newline (t : Terminal) : Terminal :=
  { t with terminalCol := 0, terminalRow := t.terminalRow + 1 }

mutual

def terminalBackspace (t : Terminal) : Terminal :=
  if t.terminalRow = 0 ∧ t.terminalCol = 0 then
    t
  else
    let t :=
      if t.terminalCol = 0 then
        { t with terminalRow := t.terminalRow - 1, terminalCol := BitVec.ofNat 16 vgaWidth }
      else
        t
    let t := terminalWritechar { t with terminalCol := t.terminalCol - 1 } 0x20 15
    { t with terminalCol := t.terminalCol - 1 }
termination_by 1

def terminalWritechar (t : Terminal) (c colour : Byte) : Terminal :=
  if c = 0x0A then
    t.newline
  else if c = 0x08 then
    t.terminalBackspace
  else
    let t := t.terminalPutchar t.terminalCol.toNat t.terminalRow.toNat c colour
    let t := { t with terminalCol := t.terminalCol + 1 }
    if vgaWidth ≤ t.terminalCol.toNat then t.newline else t
termination_by if c = 0x08 then 2 else 0

end

/-- The loops over `y` and `x`; `written` begins here. -/
def terminalInitialize (t : Terminal) : Terminal :=
  let t := { t with terminalRow := 0, terminalCol := 0, written := [] }
  (List.range vgaHeight).foldl
    (fun t y => (List.range vgaWidth).foldl (fun t x => t.terminalPutchar x y 0x20 0) t) t

/-- Characters, each with its colour, one after the other. -/
def writechars (t : Terminal) (cs : List (Byte × Byte)) : Terminal :=
  cs.foldl (fun t c => t.terminalWritechar c.1 c.2) t

variable {t : Terminal} {c : Byte}

theorem terminalWritechar_newline (t : Terminal) (colour : Byte) :
    t.terminalWritechar 0x0A colour = t.newline := by
  rw [terminalWritechar]
  exact if_pos rfl

theorem terminalWritechar_backspace (t : Terminal) (colour : Byte) :
    t.terminalWritechar 0x08 colour = t.terminalBackspace := by
  rw [terminalWritechar]
  exact (if_neg (by decide)).trans (if_pos rfl)

/-- Within a line the cursor moves on by one cell. -/
theorem terminalWritechar_within
    (hnewline : c ≠ 0x0A) (hback : c ≠ 0x08) (hcol : t.terminalCol.toNat + 1 < vgaWidth)
    (colour : Byte) :
    t.terminalWritechar c colour =
      { t.terminalPutchar t.terminalCol.toNat t.terminalRow.toNat c colour with
        terminalCol := t.terminalCol + 1 } := by
  have hnat : (t.terminalCol + 1).toNat = t.terminalCol.toNat + 1 := by
    rw [vgaWidth] at hcol
    bv_omega
  rw [terminalWritechar, if_neg hnewline, if_neg hback]
  refine if_neg ?_
  change ¬ vgaWidth ≤ (t.terminalCol + 1).toNat
  omega

/-- At the end of a line, or behind it, the cursor goes to the next one. -/
theorem terminalWritechar_wraps
    (hnewline : c ≠ 0x0A) (hback : c ≠ 0x08) (hcol : t.terminalCol.toNat + 1 = vgaWidth)
    (colour : Byte) :
    t.terminalWritechar c colour =
      (t.terminalPutchar t.terminalCol.toNat t.terminalRow.toNat c colour).newline := by
  have hnat : (t.terminalCol + 1).toNat = vgaWidth := by
    rw [vgaWidth] at hcol ⊢
    bv_omega
  rw [terminalWritechar, if_neg hnewline, if_neg hback]
  refine (if_pos ?_).trans rfl
  exact Nat.le_of_eq hnat.symm

theorem terminalBackspace_origin
    (hrow : t.terminalRow = 0) (hcol : t.terminalCol = 0) :
    t.terminalBackspace = t := by
  rw [terminalBackspace, if_pos ⟨hrow, hcol⟩]

/-- Behind the first column the cell before the cursor is erased. -/
theorem terminalBackspace_within
    (hcol : t.terminalCol ≠ 0) (hlt : t.terminalCol.toNat < vgaWidth) :
    t.terminalBackspace =
      { t.terminalPutchar (t.terminalCol.toNat - 1) t.terminalRow.toNat 0x20 15 with
        terminalCol := t.terminalCol - 1 } := by
  have hpos : t.terminalCol.toNat ≠ 0 := fun h0 => hcol (BitVec.eq_of_toNat_eq h0)
  have hprev : (t.terminalCol - 1).toNat = t.terminalCol.toNat - 1 := by bv_omega
  have hback : t.terminalCol - 1 + 1 - 1 = t.terminalCol - 1 := by bv_omega
  rw [terminalBackspace, if_neg fun h => hcol h.2, if_neg hcol]
  dsimp only
  rw [terminalWritechar_within (by decide) (by decide) (by dsimp only; omega)]
  dsimp only
  rw [hback, hprev]
  rfl

/-- At the start of a line the last cell of the one above is erased, and the cursor
leaves the screen. -/
theorem terminalBackspace_wraps
    (hrow : t.terminalRow ≠ 0) (hcol : t.terminalCol = 0) :
    t.terminalBackspace =
      { t.terminalPutchar (vgaWidth - 1) (t.terminalRow - 1).toNat 0x20 15 with
        terminalCol := 0xFFFF } := by
  have hrow' : t.terminalRow - 1 + 1 = t.terminalRow := by bv_omega
  rw [terminalBackspace, if_neg fun h => hrow h.1, if_pos hcol]
  dsimp only
  rw [terminalWritechar_wraps (by decide) (by decide) rfl]
  dsimp only [newline, terminalPutchar]
  rw [hrow']
  rfl

structure OnScreen (t : Terminal) : Prop where
  col : t.terminalCol.toNat < vgaWidth
  written : ∀ cell ∈ t.written, cell.1 < vgaWidth ∧ cell.2 < vgaHeight

/-- A newline fits anywhere, another character where the cursor is on the screen, and
a backspace where there is a cell before it in the same line, or at the origin. -/
def Fits (t : Terminal) (c : Byte) : Prop :=
  if c = 0x0A then
    True
  else if c = 0x08 then
    (t.terminalRow = 0 ∧ t.terminalCol = 0) ∨
      (t.terminalCol ≠ 0 ∧ t.terminalRow.toNat < vgaHeight)
  else
    t.terminalRow.toNat < vgaHeight

theorem OnScreen.newline
    (h : OnScreen t) :
    OnScreen t.newline :=
  ⟨Nat.zero_lt_succ _, h.written⟩

theorem OnScreen.terminalPutchar_iff
    (h : OnScreen t) {x y : Nat} (hx : x < vgaWidth) (c colour : Byte) {row col : Half}
    (hcol : col.toNat < vgaWidth) :
    OnScreen { t.terminalPutchar x y c colour with terminalRow := row, terminalCol := col } ↔
      y < vgaHeight := by
  constructor
  · intro h'
    exact (h'.written (x, y) (List.mem_append_right _ (List.mem_singleton_self _))).2
  · intro hy
    refine ⟨hcol, fun cell hcell => ?_⟩
    rcases List.mem_append.mp hcell with hcell | hcell
    · exact h.written cell hcell
    · rw [List.mem_singleton.mp hcell]
      exact ⟨hx, hy⟩

/-- A backspace stays on the screen exactly where it fits. -/
theorem OnScreen.terminalBackspace_iff
    (h : OnScreen t) :
    OnScreen t.terminalBackspace ↔ Fits t 0x08 := by
  rw [Fits, if_neg (by decide), if_pos rfl]
  by_cases hcol : t.terminalCol = 0
  · by_cases hrow : t.terminalRow = 0
    · rw [terminalBackspace_origin hrow hcol]
      exact iff_of_true h (Or.inl ⟨hrow, hcol⟩)
    · rw [terminalBackspace_wraps hrow hcol]
      refine iff_of_false (fun h' => ?_) ?_
      · have hcol' : (0xFFFF : Half).toNat < vgaWidth := h'.col
        exact absurd hcol' (by decide)
      · rintro (⟨hrow', -⟩ | ⟨hcol', -⟩)
        · exact hrow hrow'
        · exact hcol' hcol
  · have hlt := h.col
    have hprev : (t.terminalCol - 1).toNat < vgaWidth := by
      rw [vgaWidth] at hlt ⊢
      bv_omega
    rw [terminalBackspace_within hcol hlt]
    refine (h.terminalPutchar_iff (by omega) 0x20 15 hprev).trans ?_
    exact ⟨fun hy => Or.inr ⟨hcol, hy⟩, fun hor => (hor.resolve_left fun h0 => hcol h0.2).2⟩

/-- A character stays on the screen exactly where it fits. -/
theorem OnScreen.terminalWritechar_iff
    (h : OnScreen t) (c colour : Byte) :
    OnScreen (t.terminalWritechar c colour) ↔ Fits t c := by
  by_cases hnewline : c = 0x0A
  · rw [hnewline, terminalWritechar_newline]
    exact iff_of_true h.newline trivial
  · by_cases hback : c = 0x08
    · rw [hback, terminalWritechar_backspace]
      exact h.terminalBackspace_iff
    · rw [Fits, if_neg hnewline, if_neg hback]
      have hlt := h.col
      by_cases hend : t.terminalCol.toNat + 1 = vgaWidth
      · rw [terminalWritechar_wraps hnewline hback hend]
        exact h.terminalPutchar_iff hlt c colour (by decide)
      · have hnext : (t.terminalCol + 1).toNat < vgaWidth := by
          rw [vgaWidth] at hlt hend ⊢
          bv_omega
        rw [terminalWritechar_within hnewline hback (by omega)]
        exact h.terminalPutchar_iff hlt c colour hnext

/-- The screen with the cursor at its first cell. -/
structure AtOrigin (t : Terminal) : Prop extends OnScreen t where
  row : t.terminalRow = 0
  origin : t.terminalCol = 0

theorem terminalInitialize_atOrigin (t : Terminal) : AtOrigin t.terminalInitialize := by
  refine List.foldlRecOn _ _ ⟨⟨Nat.zero_lt_succ _, nofun⟩, rfl, rfl⟩ fun t ht y hy => ?_
  refine List.foldlRecOn _ _ ht fun t ht x hx => ?_
  exact ⟨(ht.terminalPutchar_iff (List.mem_range.mp hx) 0x20 0 ht.col).mpr (List.mem_range.mp hy),
    ht.row, ht.origin⟩

/-- Every state that the characters lead through is on the screen. -/
def StaysOnScreen (t : Terminal) (cs : List (Byte × Byte)) : Prop :=
  ∀ done, done <+: cs → OnScreen (t.writechars done)

/-- Every character fits where it is written. -/
def AllFit (t : Terminal) (cs : List (Byte × Byte)) : Prop :=
  ∀ done c, done ++ [c] <+: cs → Fits (t.writechars done) c.1

theorem staysOnScreen_iff
    (h : OnScreen t) (cs : List (Byte × Byte)) :
    StaysOnScreen t cs ↔ AllFit t cs := by
  have hstep (done : List (Byte × Byte)) (c : Byte × Byte) (hdone : OnScreen (t.writechars done)) :
      OnScreen (t.writechars (done ++ [c])) ↔ Fits (t.writechars done) c.1 := by
    rw [writechars, List.foldl_append]
    exact hdone.terminalWritechar_iff c.1 c.2
  constructor
  · intro hstays done c hprefix
    rw [← hstep done c (hstays done ((List.prefix_append _ _).trans hprefix))]
    exact hstays _ hprefix
  · intro hall done hprefix
    induction done using List.reverseRecOn with
    | nil => exact h
    | append_singleton done c ih =>
        rw [hstep done c (ih ((List.prefix_append _ _).trans hprefix))]
        exact hall done c hprefix

/-- From `terminal_initialize` on everything stays on the screen exactly if every
character fits. -/
theorem terminalRun_staysOnScreen_iff
    (t : Terminal) (cs : List (Byte × Byte)) :
    StaysOnScreen t.terminalInitialize cs ↔ AllFit t.terminalInitialize cs :=
  staysOnScreen_iff (terminalInitialize_atOrigin t).toOnScreen cs

/-- Whatever is written stays on the screen. -/
def WritesStayOnScreen : Prop :=
  ∀ (t : Terminal) (cs : List (Byte × Byte)), StaysOnScreen t.terminalInitialize cs

/-- A newline and a backspace. -/
theorem writesStayOnScreen_false : ¬ WritesStayOnScreen := by
  intro h
  let t : Terminal := ⟨fun _ => 0, 0, 0, []⟩
  have hinit := terminalInitialize_atOrigin t
  have hfits := (staysOnScreen_iff hinit.toOnScreen _).mp (h t [(0x0A, 15), (0x08, 15)])
    [(0x0A, 15)] (0x08, 15) List.prefix_rfl
  have hnewline : t.terminalInitialize.writechars [(0x0A, 15)] = t.terminalInitialize.newline :=
    terminalWritechar_newline _ _
  rw [hnewline, Fits, if_neg (by decide), if_pos rfl] at hfits
  rcases hfits with ⟨hrow, -⟩ | ⟨hcol, -⟩
  · change t.terminalInitialize.terminalRow + 1 = 0 at hrow
    rw [hinit.row] at hrow
    exact absurd hrow (by decide)
  · exact hcol rfl

/-- Index of the cell at the cursor. -/
def cursorCell (t : Terminal) : Nat := t.terminalRow.toNat * vgaWidth + t.terminalCol.toNat

/-- A blank shows a space, in whatever colour. -/
def Blank (cell : Half) : Prop := cell.setWidth 8 = 0x20

/-- A character and a backspace leave the cursor where it was, its cell blank and the
other cells as they were. -/
structure Undone (t t' : Terminal) : Prop where
  row : t'.terminalRow = t.terminalRow
  col : t'.terminalCol = t.terminalCol
  blank : Blank (t'.videoMem t.cursorCell)
  others : ∀ i, i ≠ t.cursorCell → t'.videoMem i = t.videoMem i

theorem blank_terminalMakeChar : Blank (terminalMakeChar 0x20 15) := by
  rw [Blank]
  decide

theorem undone_within
    (hnewline : c ≠ 0x0A) (hback : c ≠ 0x08) (hcol : t.terminalCol.toNat + 1 < vgaWidth)
    (colour colour' : Byte) :
    Undone t ((t.terminalWritechar c colour).terminalWritechar 0x08 colour') := by
  have hnext : (t.terminalCol + 1).toNat = t.terminalCol.toNat + 1 := by
    rw [vgaWidth] at hcol
    bv_omega
  have hne : t.terminalCol + 1 ≠ 0 := fun h0 => by
    rw [h0] at hnext
    cases hnext
  rw [terminalWritechar_within hnewline hback hcol, terminalWritechar_backspace,
    terminalBackspace_within hne (by dsimp only; omega)]
  dsimp only
  rw [hnext, Nat.add_sub_cancel, BitVec.add_sub_cancel]
  refine ⟨rfl, rfl, ?_, fun i hi => ?_⟩
  · dsimp only [terminalPutchar, cursorCell]
    rw [if_pos rfl]
    exact blank_terminalMakeChar
  · exact (if_neg hi).trans (if_neg hi)

theorem not_undone_wraps
    (hnewline : c ≠ 0x0A) (hback : c ≠ 0x08) (hcol : t.terminalCol.toNat + 1 = vgaWidth)
    (hrow : t.terminalRow.toNat + 1 < vgaHeight) (colour colour' : Byte) :
    ¬ Undone t ((t.terminalWritechar c colour).terminalWritechar 0x08 colour') := by
  intro h
  have hne : t.terminalRow + 1 ≠ 0 := by
    rw [vgaHeight] at hrow
    bv_omega
  have hcol' := h.col
  rw [terminalWritechar_wraps hnewline hback hcol, terminalWritechar_backspace,
    terminalBackspace_wraps hne rfl] at hcol'
  change 0xFFFF = t.terminalCol at hcol'
  rw [← hcol'] at hcol
  exact absurd hcol (by decide)

/-- A backspace undoes a character exactly if that was not in the last column. -/
theorem backspace_undoes_iff
    (t : Terminal) (c colour colour' : Byte) (hrow : t.terminalRow.toNat + 1 < vgaHeight)
    (hcol : t.terminalCol.toNat < vgaWidth) (hnewline : c ≠ 0x0A) (hback : c ≠ 0x08) :
    Undone t ((t.terminalWritechar c colour).terminalWritechar 0x08 colour') ↔
      t.terminalCol.toNat + 1 ≠ vgaWidth := by
  constructor
  · exact fun h hend => not_undone_wraps hnewline hback hend hrow colour colour' h
  · exact fun hend => undone_within hnewline hback (by omega) colour colour'

/-- A character at the start of the screen. -/
theorem backspace_undoes_iff_origin :
    Undone ⟨fun _ => 0, 0, 0, []⟩
        (((⟨fun _ => 0, 0, 0, []⟩ : Terminal).terminalWritechar 0x41 15).terminalWritechar
          0x08 15) ↔
      (0 : Half).toNat + 1 ≠ vgaWidth :=
  backspace_undoes_iff ⟨fun _ => 0, 0, 0, []⟩ 0x41 15 15 (by decide) (by decide) (by decide)
    (by decide)

/-- A backspace undoes every character that is written above the last row. -/
def BackspaceUndoes : Prop :=
  ∀ (t : Terminal) (c colour colour' : Byte), t.terminalRow.toNat + 1 < vgaHeight →
    t.terminalCol.toNat < vgaWidth → c ≠ 0x0A → c ≠ 0x08 →
      Undone t ((t.terminalWritechar c colour).terminalWritechar 0x08 colour')

/-- A character at the end of the first line. -/
theorem backspaceUndoes_false : ¬ BackspaceUndoes := fun h =>
  not_undone_wraps (t := ⟨fun _ => 0, 0, 79, []⟩) (by decide) (by decide) rfl (by decide) 15 15
    (h ⟨fun _ => 0, 0, 79, []⟩ 0x41 15 15 (by decide) (by decide) (by decide) (by decide))

end Terminal

end PeachOS
