import Betawise.BasicOutput
import Betawise.FocusRuns
import Betawise.TextTape
import Betawise.TypedText

/-!
# Rubbing out what was typed

In the Terminal-font geometry the screen is a tape of cells in reading order.
Whatever `fputc` and `SetCursor` did before, typing a text moves along the tape
and each rub-out, a backspace, a space and a backspace, moves back by one cell:
the right margin of a row and column 1 of the next are the same place on it. The
one exception is a screen of 255 columns, where `g_CurCol` is 0 at the margin
and a backspace there goes to the row above.
-/
namespace Betawise.RubOut
open Os3kState Os3kTerminal TerminalGeometry TerminalScroll FocusRuns TypedText TextTape EventRuns

/-! ### Positions -/

/-- The cursor stands in column `col` of a row, where column `maxCol + 1` is the
margin. `g_CurCol` holds the column as a byte. -/
structure Positioned (fw : Firmware) (font : FontHeader) (row col : ℕ) (s : Os3k) : Prop
    extends Geometry fw font s, Rolled font s where
  rowRange : 1 ≤ row ∧ row ≤ s.maxRow
  colRange : 1 ≤ col ∧ col ≤ s.maxCol + 1
  curRow : s.curRow = row
  curCol : s.curCol = col % 256
  x : s.cursor.x = cellX font s col
  y : s.cursor.y = cellY font s row

variable {fw : Firmware} {font : FontHeader} {s : Os3k} {row col : ℕ}

theorem positioned_of_atCell (h : AtCell fw font row col s) (hcol : col ≤ s.maxCol) :
    Positioned fw font row col s where
  toGeometry := h.toGeometry
  toRolled := h.toRolled
  rowRange := h.curRow ▸ h.row
  colRange := h.curCol ▸ h.col
  curRow := h.curRow
  curCol := by
    have hcols := h.cols
    rw [h.curCol]
    omega
  x := h.curCol ▸ h.x
  y := h.curRow ▸ h.y

/-- Left of the margin the state is a coherent one. -/
theorem Positioned.atCell (h : Positioned fw font row col s) (hcol : col ≤ s.maxCol) :
    AtCell fw font row col s := by
  have hcols := h.cols
  have hcur : s.curCol = col := by
    rw [h.curCol]
    omega
  refine ⟨⟨h.toGeometry,h.toRolled,?_,?_,?_,?_⟩,h.curRow,hcur⟩
  · rw [h.curRow]
    exact h.rowRange
  · rw [hcur]
    exact h.colRange
  · rw [hcur]
    exact h.x
  · rw [h.curRow]
    exact h.y

theorem Positioned.margin_iff (h : Positioned fw font row col s) :
    AtMargin s ↔ col = s.maxCol + 1 := by
  have hcol := h.colRange
  have hwidth := h.width
  have hcols := h.cols
  rw [AtMargin, h.x]
  by_cases hlast : col = s.maxCol + 1
  · rw [hlast, h.toGeometry.cellX_margin]
    omega
  · rw [h.toGeometry.cellX_eq hcol.1 (by omega)]
    omega

theorem Positioned.setCursorMode (h : Positioned fw font row col s) (mode : CursorMode) :
    Positioned fw font row col (setCursorMode mode s) :=
  ⟨h.toGeometry.of_fields rfl rfl rfl rfl rfl,h.toRolled.of_fields rfl rfl rfl,h.rowRange,
    h.colRange,h.curRow,h.curCol,h.x,h.y⟩

/-- A glyph left of the margin moves the cursor to the next column, as a byte. -/
theorem Positioned.drawGlyph (h : Positioned fw font row col s) (hcol : col ≤ s.maxCol) (b : ℕ) :
    Positioned fw font row (col + 1) (drawGlyph fw font b s) := by
  have hx : (Os3kTerminal.drawGlyph fw font b s).cursor.x = cellX font s (col + 1) :=
    h.toGeometry.advanceX_eq h.colRange.1 hcol h.x
  refine ⟨h.toGeometry.of_fields rfl rfl rfl rfl rfl,h.toRolled.of_fields rfl rfl rfl,h.rowRange,
    ⟨Nat.le_add_left 1 col,Nat.succ_le_succ hcol⟩,h.curRow,?_,hx,h.y⟩
  change u8 ((s.curCol : ℤ) + 1) = (col + 1) % 256
  rw [h.curCol]
  simp only [u8]
  omega

/-! ### Rolls -/

/-- Inside the screen `SetCursor` does not roll. -/
theorem setCursor_roll (g : Geometry fw font s) (hrow : 1 ≤ row ∧ row ≤ s.maxRow)
    (mode : CursorMode) : (setCursor fw row col mode s).curLcdRoll = s.curLcdRoll := by
  have hlow : ¬ row < 1 := by omega
  have hhigh : ¬ row > (Os3kTerminal.setCursorMode .hide s).maxRow := Nat.not_lt.mpr hrow.2
  simp only [setCursor, g.pCurFont, if_neg hlow, if_neg hhigh]
  rfl

/-- A row above the first always rolls. -/
theorem setCursor_above_roll (g : Geometry fw font s) (r : Rolled font s) (mode : CursorMode) :
    (setCursor fw 0 col mode s).curLcdRoll ≠ s.curLcdRoll := by
  have hroll : (setCursor fw 0 col mode s).curLcdRoll = (rollBack font s).curLcdRoll := by
    simp only [setCursor, g.pCurFont, Nat.lt_one_iff, if_true]
    rfl
  have hnonneg := r.nonneg
  have hlt := r.lt
  rw [hroll, rollBack_roll g r]
  rcases g.height with h | h <;> rw [h] <;> omega

/-! ### Backspace -/

theorem emit_backspace (hfont : s.pCurFont = some font) :
    emit fw s 0x08 = backspace fw s.cursorMode s := by
  simp only [emit, fputcStdout, hfont]
  rfl

/-- Where a backspace goes that does not leave the screen at the top. -/
theorem Positioned.backspace (h : Positioned fw font row col s)
    (hhome : ¬ (row = 1 ∧ col % 256 ≤ 1)) {row' col' : ℕ}
    (hgoal : (row',col') = if 1 < col % 256 then (row,col % 256 - 1) else (row - 1,s.maxCol)) :
    col' ≤ s.maxCol ∧ Positioned fw font row' col' (emit fw s 0x08) ∧
      picture (emit fw s 0x08) = picture s ∧ (emit fw s 0x08).curLcdRoll = s.curLcdRoll := by
  have hrow := h.rowRange
  have hcol := h.colRange
  have hcols := h.cols
  have hrows := h.toGeometry.maxRow_le
  -- both branches are a `SetCursor` inside the screen
  have hset : emit fw s 0x08 = setCursor fw row' col' s.cursorMode s ∧
      (1 ≤ row' ∧ row' ≤ s.maxRow) ∧ 1 ≤ col' ∧ col' ≤ s.maxCol := by
    rw [emit_backspace h.pCurFont, Os3kTerminal.backspace, h.curRow, h.curCol]
    by_cases hleft : 1 < col % 256
    · rw [if_pos hleft] at hgoal ⊢
      obtain ⟨rfl,rfl⟩ := Prod.mk.inj hgoal
      rw [u8_pred (by omega) (by omega)]
      exact ⟨rfl,hrow,by omega⟩
    · rw [if_neg hleft] at hgoal ⊢
      obtain ⟨rfl,rfl⟩ := Prod.mk.inj hgoal
      rw [u8_pred (by omega) (by omega)]
      exact ⟨rfl,by omega,by omega⟩
  obtain ⟨hset,hrow',hcol'⟩ := hset
  obtain ⟨hat,hpicture⟩ := setCursor_inside h.toGeometry h.toRolled hrow' ⟨hcol'.1,by omega⟩
    s.cursorMode
  have hsame := setCursor_sameScreen fw row' col' s.cursorMode s
  rw [hset]
  exact ⟨hcol'.2,positioned_of_atCell hat (by rw [hsame.2.2.2.2]; exact hcol'.2),hpicture,
    setCursor_roll h.toGeometry hrow' _⟩

/-- A backspace that keeps the roll was not made at the beginning of row 1. -/
theorem Positioned.not_home (h : Positioned fw font row col s)
    (hroll : (emit fw s 0x08).curLcdRoll = s.curLcdRoll) : ¬ (row = 1 ∧ col % 256 ≤ 1) := by
  rintro ⟨rfl,hcol⟩
  have hset : emit fw s 0x08 = setCursor fw 0 s.maxCol s.cursorMode s := by
    rw [emit_backspace h.pCurFont, Os3kTerminal.backspace, h.curRow, h.curCol,
      if_neg (by omega)]
    rfl
  rw [hset] at hroll
  exact setCursor_above_roll h.toGeometry h.toRolled _ hroll

/-! ### The tape -/

/-- The pixels of a cell, by column and line. -/
abbrev Cell := ℕ → ℕ → Bool

/-- The number of the cell that holds a pixel, in reading order. -/
def cellIndex (font : FontHeader) (s : Os3k) (line col : ℕ) : ℕ :=
  line / font.height * s.maxCol + col / 6

/-- The picture and the cursor as a tape of `S`. -/
structure OnTape (fw : Firmware) (font : FontHeader) (S : Screen Cell) (row col : ℕ) (s : Os3k)
    (t : Tape Cell) : Prop extends Positioned fw font row col s where
  size : S.size = s.maxRow * s.maxCol
  line : S.line = s.maxCol
  blank : S.blank = fun _ _ => false
  pos : t.pos = (row - 1) * s.maxCol + (col - 1)
  cell : ∀ line < 64, ∀ c < s.lcdWidth,
    picture s line c = t.cell (cellIndex font s line c) (c % 6) (line % font.height)

variable {S : Screen Cell} {t : Tape Cell}

theorem cell_div {m q c : ℕ} (hc : c < m) : (q * m + c) / m = q := by
  rw [Nat.mul_comm, Nat.mul_add_div (Nat.zero_lt_of_lt hc), Nat.div_eq_of_lt hc, Nat.add_zero]

theorem cell_mod {m q c : ℕ} (hc : c < m) : (q * m + c) % m = c := by
  rw [Nat.mul_comm, Nat.mul_add_mod, Nat.mod_eq_of_lt hc]

theorem cell_inj {m q q' c c' : ℕ} (hc : c < m) (hc' : c' < m) :
    q * m + c = q' * m + c' ↔ q = q' ∧ c = c' := by
  constructor
  · intro h
    have hdiv := congrArg (· / m) h
    have hmod := congrArg (· % m) h
    simp only [cell_div hc, cell_div hc', cell_mod hc, cell_mod hc'] at hdiv hmod
    exact ⟨hdiv,hmod⟩
  · rintro ⟨rfl,rfl⟩
    rfl

theorem Positioned.col_lt (h : Positioned fw font row col s) {c : ℕ} (hc : c < s.lcdWidth) :
    c / 6 < s.maxCol := by
  have hwidth := h.width
  omega

/-- The right margin of a row is where the next row begins. -/
theorem row_end {m : ℕ} (hrow : 1 ≤ row) : (row - 1) * m + m = row * m := by
  rw [← Nat.succ_mul]
  exact congrArg (· * m) (Nat.succ_pred_eq_of_pos hrow)

/-- The last position is the right margin of the last row. -/
theorem Positioned.pos_le (h : Positioned fw font row col s) :
    (row - 1) * s.maxCol + (col - 1) ≤ s.maxRow * s.maxCol ∧
      ((row - 1) * s.maxCol + (col - 1) = s.maxRow * s.maxCol ↔
        row = s.maxRow ∧ col = s.maxCol + 1) := by
  have hrow := h.rowRange
  have hcol := h.colRange
  have hend := row_end (m := s.maxCol) hrow.1
  by_cases hlast : row = s.maxRow
  · rw [← hlast]
    omega
  · have hrows : (row + 1) * s.maxCol ≤ s.maxRow * s.maxCol :=
      Nat.mul_le_mul_right s.maxCol (by omega)
    have hcols := h.cols
    rw [Nat.succ_mul] at hrows
    omega

theorem OnTape.pos_le (h : OnTape fw font S row col s t) : t.pos ≤ S.size := by
  rw [h.pos, h.size]
  exact h.toPositioned.pos_le.1

theorem OnTape.pos_eq_size_iff (h : OnTape fw font S row col s t) :
    t.pos = S.size ↔ row = s.maxRow ∧ col = s.maxCol + 1 := by
  rw [h.pos, h.size]
  exact h.toPositioned.pos_le.2

/-- A move on the tape, over an unchanged picture. -/
theorem OnTape.move (h : OnTape fw font S row col s t) {u : Os3k} (hsame : SameScreen s u)
    {row' col' pos : ℕ} (hat : Positioned fw font row' col' u) (hpicture : picture u = picture s)
    (hpos : pos = (row' - 1) * s.maxCol + (col' - 1)) :
    OnTape fw font S row' col' u ⟨pos,t.cell⟩ where
  toPositioned := hat
  size := by rw [hsame.2.2.2.1, hsame.2.2.2.2, h.size]
  line := by rw [hsame.2.2.2.2, h.line]
  blank := h.blank
  pos := by rw [hsame.2.2.2.2]; exact hpos
  cell := by
    intro line hline c hc
    rw [hpicture, cellIndex, hsame.2.2.2.2]
    exact h.cell line hline c (by rw [← hsame.2.1]; exact hc)

theorem OnTape.cellIndex_lt_iff (h : OnTape fw font S row col s t) (line : ℕ) {c : ℕ}
    (hc : c < s.lcdWidth) : cellIndex font s line c < S.size ↔ line < 64 := by
  rw [h.size, ← Nat.div_lt_iff_lt_mul h.cols.1, cellIndex, cell_div (h.toPositioned.col_lt hc),
    Nat.div_lt_iff_lt_mul h.height_pos, h.rows_mul]

/-- The tape after `k` scrolls holds the picture moved up by `k` rows. -/
theorem OnTape.scrolled_cell (h : OnTape fw font S row col s t) (k : ℕ) (line : ℕ) {c : ℕ}
    (hc : c < s.lcdWidth) :
    Tape.scrolled S k t (cellIndex font s line c) (c % 6) (line % font.height) =
      if line + k * font.height < 64 then picture s (line + k * font.height) c else false := by
  have hindex : cellIndex font s line c + k * S.line =
      cellIndex font s (line + k * font.height) c := by
    rw [cellIndex, cellIndex, Nat.add_mul_div_right _ _ h.height_pos, Nat.add_mul, h.line]
    omega
  rw [Tape.scrolled, hindex]
  simp only [h.cellIndex_lt_iff _ hc]
  by_cases hline : line + k * font.height < 64
  · rw [if_pos hline, if_pos hline, h.cell _ hline c hc, Nat.add_mul_mod_self_right]
  · rw [if_neg hline, if_neg hline, h.blank]

/-! ### Typing -/

/-- A glyph left of the margin is a cell written on the tape. -/
theorem OnTape.drawGlyph (h : OnTape fw font S row col s t) (hcol : col ≤ s.maxCol) (b : ℕ) :
    OnTape fw font S row (col + 1) (drawGlyph fw font b s) (t.write (glyphPixel fw font b)) where
  toPositioned := h.toPositioned.drawGlyph hcol b
  size := h.size
  line := h.line
  blank := h.blank
  pos := by
    have h1 := h.colRange.1
    change t.pos + 1 = (row - 1) * s.maxCol + (col + 1 - 1)
    rw [h.pos]
    omega
  cell := by
    intro line hline c hc
    have hat := h.toPositioned.atCell hcol
    have hdraw := hat.picture_drawGlyph (by rw [hat.curCol]; exact hcol) b hline hc
    have h1 := h.colRange.1
    have hcell : cellIndex font s line c = t.pos ↔
        line / font.height = row - 1 ∧ c / 6 = col - 1 := by
      rw [cellIndex, h.pos]
      exact cell_inj (h.toPositioned.col_lt hc) (by omega)
    rw [hdraw, hat.curRow, hat.curCol]
    change _ = (if cellIndex font s line c = t.pos then _ else _ : Cell) _ _
    by_cases hin : line / font.height = row - 1 ∧ c / 6 = col - 1
    · rw [if_pos hin, if_pos (hcell.mpr hin)]
    · rw [if_neg hin, if_neg (mt hcell.mp hin)]
      exact h.cell line hline c hc

theorem OnTape.setCursorMode (h : OnTape fw font S row col s t) (mode : CursorMode) :
    OnTape fw font S row col (setCursorMode mode s) t :=
  ⟨h.toPositioned.setCursorMode mode,h.size,h.line,h.blank,h.pos,h.cell⟩

/-- From the margin of another row the wrap only moves the cursor. -/
theorem OnTape.nextRow (h : OnTape fw font S row (s.maxCol + 1) s t) (hlast : row < s.maxRow)
    (mode : CursorMode) :
    OnTape fw font S (row + 1) 1 (setCursor fw (row + 1) 1 mode s) t := by
  have hrow := h.rowRange
  have hcols := h.cols
  have hsame := setCursor_sameScreen fw (row + 1) 1 mode s
  obtain ⟨hat,hpicture⟩ := setCursor_inside h.toGeometry h.toRolled
    (by omega : 1 ≤ row + 1 ∧ row + 1 ≤ s.maxRow) ⟨Nat.le_refl 1,Nat.le_add_left 1 _⟩ mode
  have hend := row_end (m := s.maxCol) hrow.1
  refine h.move hsame (positioned_of_atCell hat (by rw [hsame.2.2.2.2]; exact hcols.1)) hpicture ?_
  rw [h.pos, Nat.add_sub_cancel row 1]
  omega

/-- From the margin of the last row it scrolls. -/
theorem OnTape.scroll (h : OnTape fw font S s.maxRow (s.maxCol + 1) s t) (mode : CursorMode) :
    OnTape fw font S s.maxRow 1 (setCursor fw (s.maxRow + 1) 1 mode s) (t.scroll S) := by
  have hcols := h.cols
  have hsame := setCursor_sameScreen fw (s.maxRow + 1) 1 mode s
  obtain ⟨hat,hpicture⟩ := setCursor_below h.toGeometry h.toRolled (Nat.lt_succ_self s.maxRow)
    ⟨Nat.le_refl 1,hcols.1⟩ mode
  refine ⟨positioned_of_atCell hat (by rw [hsame.2.2.2.2]; exact hcols.1),?_,?_,h.blank,?_,?_⟩
  · rw [hsame.2.2.2.1, hsame.2.2.2.2, h.size]
  · rw [hsame.2.2.2.2, h.line]
  · change t.pos - S.line = _
    rw [hsame.2.2.2.2, h.pos, h.line]
    omega
  · intro line hline c hc
    rw [hsame.2.1] at hc
    have hcell := h.scrolled_cell 1 line hc
    rw [hpicture line hline c hc, if_pos (by omega : (1 - 1) * 6 ≤ c), cellIndex, hsame.2.2.2.2]
    rw [Nat.one_mul] at hcell
    exact hcell.symm

/-- The deferred wrap leaves the margin, and in the last row it scrolls. -/
theorem OnTape.wrapOrHide (h : OnTape fw font S row col s t) :
    ∃ row' col',col' ≤ (wrapOrHide fw s).maxCol ∧
      OnTape fw font S row' col' (wrapOrHide fw s) (if t.pos = S.size then t.scroll S else t) := by
  have hrow := h.rowRange
  have hrows := h.toGeometry.maxRow_le
  by_cases hmargin : (s.cursor.x : ℤ) = s.lcdWidth - 1
  · obtain rfl := h.toPositioned.margin_iff.mp hmargin
    have hwrap : Os3kTerminal.wrapOrHide fw s = setCursor fw (row + 1) 1 .hide s := by
      rw [Os3kTerminal.wrapOrHide, if_pos hmargin, h.curRow, u8_succ (by omega)]
    have hcols : 1 ≤ (setCursor fw (row + 1) 1 .hide s).maxCol := by
      rw [(setCursor_sameScreen fw (row + 1) 1 .hide s).2.2.2.2]
      exact h.cols.1
    rw [hwrap]
    by_cases hlast : row = s.maxRow
    · subst hlast
      rw [if_pos (h.pos_eq_size_iff.mpr ⟨rfl,rfl⟩)]
      exact ⟨s.maxRow,1,hcols,h.scroll .hide⟩
    · rw [if_neg (mt h.pos_eq_size_iff.mp fun heq => hlast heq.1)]
      exact ⟨row + 1,1,hcols,h.nextRow (by omega) .hide⟩
  · have hcol : col ≠ s.maxCol + 1 := mt h.toPositioned.margin_iff.mpr hmargin
    have hrange := h.colRange
    rw [Os3kTerminal.wrapOrHide, if_neg hmargin,
      if_neg (mt h.pos_eq_size_iff.mp fun heq => hcol heq.2)]
    exact ⟨row,col,by change col ≤ s.maxCol; omega,h.setCursorMode .hide⟩

theorem OnTape.put (h : OnTape fw font S row col s t) {b : ℕ} (hb : Printing b) :
    ∃ row' col',OnTape fw font S row' col' (emit fw s b) (t.put S (glyphPixel fw font b)) := by
  obtain ⟨row',col',hcol,hwrap⟩ := h.wrapOrHide
  rw [emit_printing_eq h.pCurFont hb, putGlyph]
  exact ⟨row',col' + 1,(hwrap.drawGlyph hcol b).setCursorMode _⟩

/-- How often typing scrolls: at each byte that comes at the right margin of the
last row. -/
def scrolls (fw : Firmware) : List ℕ → Os3k → ℕ
  | [],_ => 0
  | b::bs,s => (if AtMargin s ∧ s.curRow = s.maxRow then 1 else 0) + scrolls fw bs (emit fw s b)

theorem OnTape.typing (h : OnTape fw font S row col s t) {bs : List ℕ}
    (hbs : ∀ b ∈ bs, Printing b) :
    (∃ row' col',OnTape fw font S row' col' (bs.foldl (emit fw) s)
        (Tape.type S (bs.map (glyphPixel fw font)) t)) ∧
      scrolls fw bs s = Tape.scrolls S (bs.map (glyphPixel fw font)) t := by
  induction bs generalizing row col s t with
  | nil => exact ⟨⟨row,col,h⟩,rfl⟩
  | cons b bs ih =>
    obtain ⟨row',col',hput⟩ := h.put (hbs b List.mem_cons_self)
    obtain ⟨htyped,hscrolls⟩ := ih hput fun c hc => hbs c (List.mem_cons_of_mem b hc)
    have hfirst : AtMargin s ∧ s.curRow = s.maxRow ↔ t.pos = S.size := by
      rw [h.pos_eq_size_iff, h.toPositioned.margin_iff, h.curRow, and_comm]
    refine ⟨htyped,?_⟩
    simp only [scrolls, List.map_cons, Tape.scrolls, hfirst, hscrolls]

/-! ### Rubbing out -/

/-- What is printed for `n` deletions: a backspace, a space and a backspace each. -/
def rubOuts : ℕ → List ℕ
  | 0 => []
  | n + 1 => BasicOutput.rubOut ++ rubOuts n

theorem printing_space : Printing 0x20 := by
  unfold Printing
  decide

/-- On the tape a backspace goes back by one cell, except from column 256. -/
theorem Positioned.back_pos (h : Positioned fw font row col s)
    (hhome : ¬ (row = 1 ∧ col % 256 ≤ 1)) {row' col' : ℕ}
    (hgoal : (row',col') = if 1 < col % 256 then (row,col % 256 - 1) else (row - 1,s.maxCol)) :
    (row' - 1) * s.maxCol + (col' - 1) + (if col = 256 then 256 else 1) =
      (row - 1) * s.maxCol + (col - 1) := by
  have hrow := h.rowRange
  have hcol := h.colRange
  have hcols := h.cols
  by_cases hleft : 1 < col % 256
  · rw [if_pos hleft] at hgoal
    obtain ⟨rfl,rfl⟩ := Prod.mk.inj hgoal
    rw [if_neg (by omega)]
    omega
  · rw [if_neg hleft] at hgoal
    obtain ⟨rfl,rfl⟩ := Prod.mk.inj hgoal
    obtain ⟨r,rfl⟩ : ∃ r, row = r + 2 := ⟨row - 2,by omega⟩
    have hnext : (r + 1) * s.maxCol = r * s.maxCol + s.maxCol := Nat.succ_mul r s.maxCol
    simp only [Nat.add_sub_cancel, show r + 2 - 1 = r + 1 from rfl, hnext]
    split_ifs <;> omega

/-- A printing byte left of the margin. -/
theorem Positioned.emit_eq (h : Positioned fw font row col s) (hcol : col ≤ s.maxCol) {b : ℕ}
    (hb : Printing b) :
    emit fw s b = Os3kTerminal.setCursorMode s.cursorMode
      (Os3kTerminal.drawGlyph fw font b (Os3kTerminal.setCursorMode .hide s)) := by
  refine emit_inside fw h.pCurFont (fun hx => ?_) hb
  have := h.margin_iff.mp hx
  omega

/-- From column 256, the margin of a screen of 255 columns, a backspace goes astray. -/
theorem OnTape.col_le (h : OnTape fw font S row col s t)
    (hclean : S.line ≤ 254 ∨ t.pos % 255 ≠ 0) : col ≤ 255 := by
  have hcol := h.colRange
  have hcols := h.cols
  have hpos := h.pos
  rw [h.line] at hclean
  by_contra hlt
  have hmax : s.maxCol = 255 := by omega
  rw [hmax] at hpos
  omega

theorem OnTape.back (h : OnTape fw font S row col s t) (hcol : col ≤ 255) (hpos : 1 ≤ t.pos) :
    ∃ row' col',col' ≤ (emit fw s 0x08).maxCol ∧
      OnTape fw font S row' col' (emit fw s 0x08) t.back ∧
        (emit fw s 0x08).curLcdRoll = s.curLcdRoll := by
  have hsame := (fputcStdout_sameScreen fw h.pCurFont 0x08).1
  have hhome : ¬ (row = 1 ∧ col % 256 ≤ 1) := by
    rintro ⟨rfl,hone⟩
    have hcol₁ := h.colRange.1
    rw [h.pos, Nat.sub_self, Nat.zero_mul] at hpos
    omega
  obtain ⟨row',col',hgoal⟩ : ∃ row' col',
      (row',col') = if 1 < col % 256 then (row,col % 256 - 1) else (row - 1,s.maxCol) := ⟨_,_,rfl⟩
  obtain ⟨hcol',hat,hpicture,hroll⟩ := h.toPositioned.backspace hhome hgoal
  have hmove := h.toPositioned.back_pos hhome hgoal
  rw [if_neg (by omega)] at hmove
  refine ⟨row',col',by rw [hsame.2.2.2.2]; exact hcol',h.move hsame hat hpicture ?_,hroll⟩
  rw [h.pos]
  omega

theorem OnTape.print (h : OnTape fw font S row col s t) (hcol : col ≤ s.maxCol) {b : ℕ}
    (hb : Printing b) :
    OnTape fw font S row (col + 1) (emit fw s b) (t.write (glyphPixel fw font b)) ∧
      (emit fw s b).curLcdRoll = s.curLcdRoll := by
  rw [h.toPositioned.emit_eq hcol hb]
  exact ⟨((h.setCursorMode .hide).drawGlyph hcol b).setCursorMode _,rfl⟩

/-- One rub-out. -/
theorem OnTape.rubOut (h : OnTape fw font S row col s t) (hpos : 1 ≤ t.pos)
    (hclean : S.line ≤ 254 ∨ t.pos % 255 ≠ 0) :
    let s₁ := emit fw s 0x08
    let s₂ := emit fw s₁ 0x20
    let s₃ := emit fw s₂ 0x08
    (∃ row' col',OnTape fw font S row' col' s₃ (t.rubOut S (glyphPixel fw font 0x20))) ∧
      s₁.curLcdRoll = s.curLcdRoll ∧ s₂.curLcdRoll = s.curLcdRoll ∧
        s₃.curLcdRoll = s.curLcdRoll := by
  intro s₁ s₂ s₃
  obtain ⟨row₁,col₁,hcol₁,hback₁,hroll₁⟩ := h.back (h.col_le hclean) hpos
  obtain ⟨hprint,hroll₂⟩ := hback₁.print hcol₁ printing_space
  -- the space leads back to the position before, so the second backspace is as safe
  have hplace : (t.back.write (glyphPixel fw font 0x20)).pos = t.pos := Nat.sub_add_cancel hpos
  obtain ⟨row₃,col₃,-,hback₃,hroll₃⟩ := hprint.back (hprint.col_le (by rwa [hplace]))
    (by rwa [hplace])
  rw [Tape.rubOut_eq _ hpos h.pos_le]
  exact ⟨⟨row₃,col₃,hback₃⟩,hroll₁,hroll₂.trans hroll₁,hroll₃.trans (hroll₂.trans hroll₁)⟩

theorem OnTape.rubOuts (h : OnTape fw font S row col s t) {n : ℕ} {roll : ℤ} (hn : n ≤ t.pos)
    (hclean : S.line ≤ 254 ∨ ∀ i < n, (t.pos - i) % 255 ≠ 0) (hroll : s.curLcdRoll = roll) :
    (∃ row' col',OnTape fw font S row' col' ((rubOuts n).foldl (emit fw) s)
        ((Tape.rubOut S (glyphPixel fw font 0x20))^[n] t)) ∧
      Throughout (emit fw) (fun u => u.curLcdRoll = roll) s (rubOuts n) := by
  induction n generalizing row col s t with
  | zero => exact ⟨⟨row,col,h⟩,hroll⟩
  | succ n ih =>
    have hfirst : S.line ≤ 254 ∨ t.pos % 255 ≠ 0 :=
      hclean.imp_right fun hpos => hpos 0 (Nat.succ_pos n)
    obtain ⟨⟨row',col',hone⟩,hroll₁,hroll₂,hroll₃⟩ := h.rubOut (by omega) hfirst
    have hpos : (t.rubOut S (glyphPixel fw font 0x20)).pos = t.pos - 1 := by
      rw [Tape.rubOut_spec _ (by omega) h.pos_le]
    obtain ⟨hrest,hthroughout⟩ := ih hone (by omega)
      (hclean.imp_right fun hpos' i hi => by
        have := hpos' (i + 1) (Nat.succ_lt_succ hi)
        rwa [hpos, Nat.sub_sub, Nat.add_comm 1 i]) (hroll₃.trans hroll)
    exact ⟨hrest,hroll,hroll₁.trans hroll,hroll₂.trans hroll,hthroughout⟩

/-! ### When a rub-out goes back too far -/

/-- The cursor in reading order. The right margin of a row and column 1 of the
next row are the same position. -/
def position (s : Os3k) : ℕ :=
  (s.curRow - 1) * s.maxCol + (if AtMargin s then s.maxCol else s.curCol - 1)

theorem Positioned.position_eq (h : Positioned fw font row col s) :
    position s = (row - 1) * s.maxCol + (col - 1) := by
  have hcol := h.colRange
  have hcols := h.cols
  rw [position, h.curRow, h.curCol]
  by_cases hmargin : AtMargin s
  · rw [if_pos hmargin, h.margin_iff.mp hmargin, Nat.add_sub_cancel]
  · have hlast := mt h.margin_iff.mpr hmargin
    rw [if_neg hmargin, Nat.mod_eq_of_lt (by omega)]

theorem foldl_sameScreen (fw : Firmware) (hfont : s.pCurFont = some font) (bs : List ℕ) :
    SameScreen s (bs.foldl (emit fw) s) := by
  induction bs generalizing s with
  | nil => exact .refl s
  | cons b bs ih =>
    have hone := (fputcStdout_sameScreen fw hfont b).1
    exact hone.trans (ih (hone.1.trans hfont))

/-- A backspace that does not roll the screen goes back, by more than a cell from
column 256. -/
theorem Positioned.back_position (h : Positioned fw font row col s)
    (hroll : (emit fw s 0x08).curLcdRoll = s.curLcdRoll) :
    ∃ row' col',col' ≤ s.maxCol ∧ Positioned fw font row' col' (emit fw s 0x08) ∧
      position (emit fw s 0x08) + (if col = 256 then 256 else 1) = position s := by
  have hsame := (fputcStdout_sameScreen fw h.pCurFont 0x08).1
  have hhome := h.not_home hroll
  obtain ⟨row',col',hgoal⟩ : ∃ row' col',
      (row',col') = if 1 < col % 256 then (row,col % 256 - 1) else (row - 1,s.maxCol) := ⟨_,_,rfl⟩
  obtain ⟨hcol',hat,-,-⟩ := h.backspace hhome hgoal
  refine ⟨row',col',hcol',hat,?_⟩
  rw [hat.position_eq, h.position_eq, hsame.2.2.2.2, h.back_pos hhome hgoal]

/-- A rub-out goes back by at least a cell, and by more over a cell in column 255
of a screen of 255 columns. -/
theorem Positioned.rubOut_position (h : Positioned fw font row col s) {s₁ s₂ s₃ : Os3k}
    (h₁ : s₁ = emit fw s 0x08) (h₂ : s₂ = emit fw s₁ 0x20) (h₃ : s₃ = emit fw s₂ 0x08)
    (hroll₁ : s₁.curLcdRoll = s.curLcdRoll) (hroll₃ : s₃.curLcdRoll = s₂.curLcdRoll) :
    ∃ row' col',Positioned fw font row' col' s₃ ∧ position s₃ + 1 ≤ position s ∧
      (s.maxCol = 255 → position s % 255 = 0 → position s₃ + 1 < position s) := by
  obtain ⟨row₁,col₁,hcol₁,hat₁,hback₁⟩ := h.back_position (h₁ ▸ hroll₁)
  have hcols := (fputcStdout_sameScreen fw h.pCurFont 0x08).1.2.2.2.2
  rw [← h₁] at hat₁ hback₁ hcols
  have hat₂ : Positioned fw font row₁ (col₁ + 1) s₂ := by
    rw [h₂, hat₁.emit_eq (hcols ▸ hcol₁) printing_space]
    exact ((hat₁.setCursorMode .hide).drawGlyph (hcols ▸ hcol₁) 0x20).setCursorMode _
  have hcols₂ := (fputcStdout_sameScreen fw hat₁.pCurFont 0x20).1.2.2.2.2
  rw [← h₂, hcols] at hcols₂
  have hspace : position s₂ = position s₁ + 1 := by
    have h1 := hat₁.colRange.1
    rw [hat₂.position_eq, hat₁.position_eq, hcols₂, hcols]
    omega
  obtain ⟨row₃,col₃,-,hat₃,hback₃⟩ := hat₂.back_position (h₃ ▸ hroll₃)
  rw [← h₃] at hat₃ hback₃
  refine ⟨row₃,col₃,hat₃,by split_ifs at hback₁ hback₃ <;> omega,fun hmax hplace => ?_⟩
  -- either the first backspace comes from column 256, or the second one does
  by_cases hfar : col = 256
  · rw [if_pos hfar] at hback₁
    split_ifs at hback₃ <;> omega
  · rw [if_neg hfar] at hback₁
    have hlast : col₁ + 1 = 256 := by
      have hpos := hat₂.position_eq
      have hrange := hat₁.colRange
      rw [hcols₂, hmax] at hpos
      omega
    rw [if_pos hlast] at hback₃
    omega

/-- Rub-outs that do not roll the screen go back by a cell each at least; if by no
more than that, none of them was made over a cell in column 255. -/
theorem Positioned.rubOuts_position (h : Positioned fw font row col s) {n : ℕ} {roll : ℤ}
    (hkept : Throughout (emit fw) (fun u => u.curLcdRoll = roll) s (rubOuts n)) :
    let u := (rubOuts n).foldl (emit fw) s
    position u + n ≤ position s ∧
      (s.maxCol = 255 → position u + n = position s → ∀ i < n, (position s - i) % 255 ≠ 0) := by
  induction n generalizing row col s with
  | zero => exact ⟨Nat.le_refl _,fun _ _ i hi => absurd hi (Nat.not_lt_zero i)⟩
  | succ n ih =>
    obtain ⟨hroll,hroll₁,hroll₂,hrest⟩ := hkept
    obtain ⟨row',col',hat,hone,hfar⟩ := h.rubOut_position rfl rfl rfl (hroll₁.trans hroll.symm)
      (hrest.first.trans hroll₂.symm)
    have hcols := (foldl_sameScreen fw h.pCurFont [0x08,0x20,0x08]).2.2.2.2
    obtain ⟨hmany,hclean⟩ := ih hat hrest
    simp only [rubOuts, BasicOutput.rubOut, List.cons_append, List.nil_append, List.foldl_cons,
      List.foldl_nil] at hcols hmany hclean ⊢
    refine ⟨by omega,fun hmax hexact i hi => ?_⟩
    cases i with
    | zero =>
      intro hplace
      have := hfar hmax hplace
      omega
    | succ i =>
      have hnext := hclean (hcols.trans hmax) (by omega) i (by omega)
      have hplace : position s - (i + 1) =
          position (emit fw (emit fw (emit fw s 0x08) 0x20) 0x08) - i := by omega
      rwa [hplace]

/-! ### Reachable states -/

/-- Output and cursor motion of an applet. -/
inductive Motion where
  | fputc (c : ℤ)
  | setCursor (row col : ℕ) (mode : CursorMode)

def move (fw : Firmware) (s : Os3k) : Motion → Os3k
  | .fputc c => (fputc fw c stdout s).2
  | .setCursor row col mode => setCursor fw row col mode s

/-- `SetCursor` names a cell of the screen. -/
def Motion.InRange (s : Os3k) : Motion → Prop
  | .fputc _ => True
  | .setCursor row col _ => (1 ≤ row ∧ row ≤ s.maxRow) ∧ 1 ≤ col ∧ col ≤ s.maxCol

instance (s : Os3k) : (e : Motion) → Decidable (e.InRange s)
  | .fputc _ => isTrue trivial
  | .setCursor row col _ =>
    inferInstanceAs (Decidable ((1 ≤ row ∧ row ≤ s.maxRow) ∧ 1 ≤ col ∧ col ≤ s.maxCol))

/-- The tape that a state shows. -/
def tapeOf (font : FontHeader) (s : Os3k) : Tape Cell where
  pos := position s
  cell := fun i dx dy => picture s (i / s.maxCol * font.height + dy) (i % s.maxCol * 6 + dx)

def screenOf (g : Geometry fw font s) : Screen Cell where
  size := s.maxRow * s.maxCol
  line := s.maxCol
  blank := fun _ _ => false
  line_pos := g.cols.1
  line_le := Nat.le_mul_of_pos_left s.maxCol g.maxRow_pos

theorem Positioned.onTape (h : Positioned fw font row col s) :
    OnTape fw font (screenOf h.toGeometry) row col s (tapeOf font s) where
  toPositioned := h
  size := rfl
  line := rfl
  blank := rfl
  pos := h.position_eq
  cell := by
    intro line _ c hc
    have hcol := h.col_lt hc
    simp only [tapeOf, cellIndex, cell_div hcol, cell_mod hcol, Nat.div_add_mod']

theorem Positioned.bell (h : Positioned fw font row col s) (mode : CursorMode) :
    Positioned fw font row col (bell mode s) := by
  refine bell_rule (fun u lcd mode trace h hleft hright _ => ?_) h mode
  exact ⟨h.toGeometry.of_fields rfl rfl rfl rfl rfl,h.toRolled.of_fields rfl hleft hright,
    h.rowRange,h.colRange,h.curRow,h.curCol,h.x,h.y⟩

/-- `SetCursor` to a column of the screen, to whatever row. -/
theorem positioned_setCursor (g : Geometry fw font s) (r : Rolled font s) (row : ℕ) {col : ℕ}
    (hcol : 1 ≤ col ∧ col ≤ s.maxCol) (mode : CursorMode) :
    ∃ row',Positioned fw font row' col (setCursor fw row col mode s) := by
  have hsame := setCursor_sameScreen fw row col mode s
  have hcol' : col ≤ (setCursor fw row col mode s).maxCol := by
    rw [hsame.2.2.2.2]
    exact hcol.2
  rcases Nat.eq_zero_or_pos row with rfl | hpos
  · exact ⟨1,positioned_of_atCell (setCursor_above g r hcol mode).1 hcol'⟩
  · rcases Nat.lt_or_ge s.maxRow row with hlow | hin
    · exact ⟨s.maxRow,positioned_of_atCell (setCursor_below g r hlow hcol mode).1 hcol'⟩
    · exact ⟨row,positioned_of_atCell
        (setCursor_inside g r ⟨hpos,hin⟩ ⟨hcol.1,Nat.le_succ_of_le hcol.2⟩ mode).1 hcol'⟩

/-- Every byte of output leads from a position to a position. -/
theorem positioned_emit (h : Positioned fw font row col s) (b : ℕ) :
    ∃ row' col',Positioned fw font row' col' (emit fw s b) := by
  have hcols := h.cols
  have hset (row' : ℕ) {col' : ℕ} (hcol' : 1 ≤ col' ∧ col' ≤ s.maxCol) :
      ∃ row₁ col₁,Positioned fw font row₁ col₁ (setCursor fw row' col' s.cursorMode s) := by
    obtain ⟨row₁,hat⟩ := positioned_setCursor h.toGeometry h.toRolled row' hcol' s.cursorMode
    exact ⟨row₁,col',hat⟩
  by_cases hprint : Printing b
  · obtain ⟨row',col',hput⟩ := h.onTape.put hprint
    exact ⟨row',col',hput.toPositioned⟩
  · unfold Os3kTerminal.emit fputcStdout
    simp only [h.pCurFont]
    split_ifs with hbell hback hfeed hreturn
    · exact ⟨row,col,h.bell _⟩
    · unfold Os3kTerminal.backspace
      have hbyte : s.curCol < 256 := by
        rw [h.curCol]
        exact Nat.mod_lt col (by decide)
      have hcur := h.curCol
      have hcol := h.colRange
      split_ifs with hleft
      · rw [u8_pred (by omega) (by omega)]
        exact hset _ (by omega)
      · exact hset _ ⟨hcols.1,Nat.le_refl _⟩
    · exact hset _ ⟨Nat.le_refl 1,hcols.1⟩
    · exact hset _ ⟨Nat.le_refl 1,hcols.1⟩
    · exact absurd ⟨hbell,hback,hfeed,hreturn⟩ hprint

theorem move_sameScreen (hfont : s.pCurFont = some font) (e : Motion) :
    SameScreen s (move fw s e) := by
  cases e with
  | fputc c => exact (fputcStdout_sameScreen fw hfont (u8 c)).1
  | setCursor row col mode => exact setCursor_sameScreen fw row col mode s

theorem positioned_move (h : Positioned fw font row col s) {e : Motion} (he : e.InRange s) :
    ∃ row' col',Positioned fw font row' col' (move fw s e) := by
  cases e with
  | fputc c => exact positioned_emit h (u8 c)
  | setCursor row₁ col₁ mode =>
    obtain ⟨row',hat⟩ := positioned_setCursor h.toGeometry h.toRolled row₁ he.2 mode
    exact ⟨row',col₁,hat⟩

theorem positioned_run (h : Positioned fw font row col s) {es : List Motion}
    (hes : ∀ e ∈ es, e.InRange s) :
    (∃ row' col',Positioned fw font row' col' (es.foldl (move fw) s)) ∧
      SameScreen s (es.foldl (move fw) s) := by
  have hkept : ∀ u e, (∃ row' col',Positioned fw font row' col' u) ∧ SameScreen s u →
      e.InRange s → (∃ row' col',Positioned fw font row' col' (move fw u e)) ∧
        SameScreen s (move fw u e) := by
    rintro u e ⟨⟨row₁,col₁,hat⟩,hsame⟩ he
    refine ⟨positioned_move hat ?_,hsame.trans (move_sameScreen hat.pCurFont e)⟩
    cases e with
    | fputc c => trivial
    | setCursor row' col' mode =>
      rw [Motion.InRange, hsame.2.2.2.1, hsame.2.2.2.2]
      exact he
  have hrun := Along.throughout hkept ⟨⟨row,col,h⟩,.refl s⟩ (along_const_iff.mpr hes)
  have hlast := throughout_iff_take.mp hrun es.length
  rwa [List.take_length] at hlast

/-! ### Rubbing out undoes typing -/

/-- What typing `bs` in state `s` and then as many rub-outs should come to: the
cursor is back where it was, the typed cells show spaces, every other cell shows what
it showed, moved up by the scrolls of the typing, and no rub-out rolls the screen. -/
structure Undone (fw : Firmware) (font : FontHeader) (bs : List ℕ) (s : Os3k) : Prop where
  place : position ((rubOuts bs.length).foldl (emit fw) (bs.foldl (emit fw) s)) +
    scrolls fw bs s * s.maxCol = position s
  cells : ∀ line < 64, ∀ c < s.lcdWidth,
    displayed ((rubOuts bs.length).foldl (emit fw) (bs.foldl (emit fw) s)) line c =
      if position s ≤ cellIndex font s line c + scrolls fw bs s * s.maxCol ∧
          cellIndex font s line c + scrolls fw bs s * s.maxCol < position s + bs.length
      then glyphPixel fw font 0x20 (c % 6) (line % font.height)
      else if line + scrolls fw bs s * font.height < 64
      then displayed s (line + scrolls fw bs s * font.height) c else false
  roll : Throughout (emit fw) (fun u => u.curLcdRoll = (bs.foldl (emit fw) s).curLcdRoll)
    (bs.foldl (emit fw) s) (rubOuts bs.length)

/-- Typing moves on by the length of the text, less the scrolls. -/
theorem Positioned.position_typed (h : Positioned fw font row col s) {bs : List ℕ}
    (hbs : ∀ b ∈ bs, Printing b) :
    position (bs.foldl (emit fw) s) + scrolls fw bs s * s.maxCol = position s + bs.length := by
  obtain ⟨⟨row',col',htyped⟩,hscrolls⟩ := h.onTape.typing hbs
  obtain ⟨hmove,-,-⟩ := Tape.type_spec (screenOf h.toGeometry) (bs.map (glyphPixel fw font))
    h.onTape.pos_le
  rw [List.length_map, ← hscrolls] at hmove
  rw [htyped.toPositioned.position_eq, ← htyped.pos]
  exact hmove

/-- Outside column 255 the rub-outs of a text find every cell of it again. -/
theorem Positioned.undone (h : Positioned fw font row col s) {bs : List ℕ}
    (hbs : ∀ b ∈ bs, Printing b) (hkept : scrolls fw bs s * s.maxCol ≤ position s)
    (hclean : s.maxCol ≤ 254 ∨ ∀ i < bs.length, (position s + i) % 255 ≠ 254) :
    Undone fw font bs s := by
  have hcols := h.cols
  have hmove := h.position_typed hbs
  obtain ⟨⟨row₁,col₁,htyped⟩,hscrolls⟩ := h.onTape.typing hbs
  have hpos := htyped.toPositioned.position_eq.trans htyped.pos.symm
  rw [hpos] at hmove
  have hclean' : (screenOf h.toGeometry).line ≤ 254 ∨ ∀ i < bs.length,
      ((Tape.type (screenOf h.toGeometry) (bs.map (glyphPixel fw font)) (tapeOf font s)).pos - i) %
        255 ≠ 0 := by
    change s.maxCol ≤ 254 ∨ _
    by_cases hmax : s.maxCol ≤ 254
    · exact Or.inl hmax
    · have hfull : s.maxCol = 255 := by omega
      rw [hfull] at hmove hkept
      refine Or.inr fun i hi => ?_
      have := hclean.resolve_left hmax (bs.length - 1 - i) (by omega)
      omega
  obtain ⟨⟨row',col',hback⟩,hroll⟩ := htyped.rubOuts (n := bs.length) (by omega) hclean' rfl
  obtain ⟨hplace,hcells⟩ := Tape.rubOuts_type (S := screenOf h.toGeometry) (glyphPixel fw font 0x20)
    (bs.map (glyphPixel fw font)) h.onTape.pos_le (by rw [← hscrolls]; exact hkept)
  rw [List.length_map, ← hscrolls] at hplace hcells
  have hsame : SameScreen s ((rubOuts bs.length).foldl (emit fw) (bs.foldl (emit fw) s)) :=
    (foldl_sameScreen fw h.pCurFont bs).trans (foldl_sameScreen fw htyped.pCurFont _)
  refine ⟨?_,fun line hline c hc => ?_,hroll⟩
  · rw [hback.toPositioned.position_eq, ← hback.pos]
    exact hplace
  · have hcell := hback.cell line hline c (by rw [hsame.2.1]; exact hc)
    have hold : displayed s = picture s := funext₂ h.displayed_eq
    rw [cellIndex, hsame.2.2.2.2] at hcell
    rw [hback.displayed_eq, hcell, hold, ← h.onTape.scrolled_cell (scrolls fw bs s) line hc]
    change _ = if (tapeOf font s).pos ≤ _ ∧ _ < (tapeOf font s).pos + _ then _ else _
    rw [← cellIndex, hcells _ ((h.onTape.cellIndex_lt_iff line hc).mpr hline)]
    exact apply_ite (fun cell : Cell => cell (c % 6) (line % font.height)) _ _ _

/-- On 255 columns the rub-outs of a text that fills a cell in column 255 miss. -/
theorem Positioned.clean_of_undone (h : Positioned fw font row col s) {bs : List ℕ}
    (hbs : ∀ b ∈ bs, Printing b) (hundone : Undone fw font bs s) (hmax : s.maxCol = 255) :
    ∀ i < bs.length, (position s + i) % 255 ≠ 254 := by
  have hmove := h.position_typed hbs
  obtain ⟨⟨row₁,col₁,htyped⟩,-⟩ := h.onTape.typing hbs
  have hcols := (foldl_sameScreen fw h.pCurFont bs).2.2.2.2
  have hplace := hundone.place
  obtain ⟨-,hclean⟩ := htyped.toPositioned.rubOuts_position hundone.roll
  rw [hmax] at hmove hplace
  intro i hi hlast
  have hzero := hclean (hcols.trans hmax) (by omega) (bs.length - 1 - i) (by omega)
  omega

/-- From every state that output and `SetCursor` reach, rubbing out a text undoes
typing it, unless a cell of it was the last of a row of 255 columns. -/
theorem rubOut_undoes_typing_iff {s₀ : Os3k} (g : Geometry fw font s₀) {es : List Motion}
    (hes : ∀ e ∈ es, e.InRange s₀) {bs : List ℕ} (hbs : ∀ b ∈ bs, Printing b) :
    let s := es.foldl (move fw) (clearScreen fw s₀)
    scrolls fw bs s * s.maxCol ≤ position s →
      (Undone fw font bs s ↔
        s.maxCol ≤ 254 ∨ ∀ i < bs.length, (position s + i) % 255 ≠ 254) := by
  intro s hkept
  obtain ⟨hhome,-⟩ := clearScreen_home g
  have hsame := clearScreen_sameScreen fw g.pCurFont
  have hstart := positioned_of_atCell hhome hhome.cols.1
  have hrange : ∀ e ∈ es, e.InRange (clearScreen fw s₀) := by
    intro e he
    cases e with
    | fputc c => trivial
    | setCursor row col mode =>
      rw [Motion.InRange, hsame.2.2.2.1, hsame.2.2.2.2]
      exact hes _ he
  obtain ⟨⟨row,col,h⟩,-⟩ := positioned_run hstart hrange
  have hcols := h.cols
  refine ⟨fun hundone => ?_,h.undone hbs hkept⟩
  rcases Nat.lt_or_ge s.maxCol 255 with hlt | hge
  · exact Or.inl (Nat.le_of_lt_succ hlt)
  · exact Or.inr (h.clean_of_undone hbs hundone (Nat.le_antisymm hcols.2 hge))

/-- A hundred letters on the Neo that begin near the end of the last row, wrap three
times and scroll each time. -/
theorem rubOut_undoes_typing_iff_neo :
    Undone neoFirmware neoFont (List.replicate 100 65)
      ([Motion.fputc 65,.setCursor 8 40 .shown].foldl (move neoFirmware)
        (clearScreen neoFirmware neoFocused)) :=
  (rubOut_undoes_typing_iff geometry_neoFocused
    (by decide)
    (fun b hb => by
      rw [List.eq_of_mem_replicate hb]
      unfold Printing
      decide)
    (by decide +kernel)).mpr (Or.inl (by decide))

/-- An LCD of 255 columns. -/
def wideFirmware : Firmware := solidFirmware (some neoFont) (some neoFont) 1530 64

def wideFocused : Os3k :=
  beforeApplet wideFirmware .setFocus
    (beforeApplet wideFirmware .init (bss ⟨⟨0,false⟩,⟨0,false⟩,fun _ _ => false⟩))

/-- The cursor in the last column of row 2. -/
def lastColumn : Os3k :=
  [Motion.setCursor 2 255 .shown].foldl (move wideFirmware) (clearScreen wideFirmware wideFocused)

/-- A letter in column 255 leaves `g_CurCol` 0. The first backspace goes to row 1, the
second above it, and the screen scrolls down. -/
theorem rubOut_in_last_column_scrolls_down :
    Geometry wideFirmware neoFont wideFocused ∧
      (Motion.setCursor 2 255 .shown).InRange wideFocused ∧ Printing 65 ∧
      scrolls wideFirmware [65] lastColumn * lastColumn.maxCol ≤ position lastColumn ∧
      ¬ Undone wideFirmware neoFont [65] lastColumn := by
  have hgeometry : Geometry wideFirmware neoFont wideFocused :=
    geometry_setFocus (rfl : wideFirmware.systemFont = some neoFont) rfl (Or.inl rfl) (n := 255)
      (by decide) rfl rfl _
  refine ⟨hgeometry,by decide,by unfold Printing; decide,by decide +kernel,?_⟩
  intro hundone
  have hplace := hundone.place
  revert hplace
  decide +kernel

end Betawise.RubOut
