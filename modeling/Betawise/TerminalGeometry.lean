import Betawise.CircularLines
import Betawise.Os3kTerminal

/-!
# The Terminal-font geometry and what `SetCursor` and a glyph do to the picture

Fonts six columns wide and 8 or 16 lines high on a 64-line LCD whose width is
six times the column count. A coherent state is one in which the globals, the
firmware's cursor and both controllers agree; `SetCursor` leads from any state
of this geometry to a coherent one, and the picture changes only by a scroll
and by the erased part of the row that it exposes.
-/
namespace Betawise.TerminalGeometry
open Os3kState Os3kTerminal CircularLines

structure Geometry (fw : Firmware) (font : FontHeader) (s : Os3k) : Prop where
  pCurFont : s.pCurFont = some font
  maxWidth : font.maxWidth = 6
  height : font.height = 8 ∨ font.height = 16
  width : s.lcdWidth = 6 * s.maxCol
  cols : 1 ≤ s.maxCol ∧ s.maxCol ≤ 255
  lines : s.lcdHeight = 64
  rows : s.maxRow = 64 / font.height
  fwWidth : fw.lcdWidth = s.lcdWidth
  fwLines : fw.lcdHeight = 64

/-- The roll is a whole number of rows and both controllers start there. -/
structure Rolled (font : FontHeader) (s : Os3k) : Prop where
  nonneg : 0 ≤ s.curLcdRoll
  lt : s.curLcdRoll < 64
  dvd : (font.height : ℤ) ∣ s.curLcdRoll
  left : (s.lcd.left.startLine : ℤ) = s.curLcdRoll
  right : (s.lcd.right.startLine : ℤ) = s.curLcdRoll

/-- Column `maxCol + 1` stands for the right margin with a deferred wrap. -/
structure Coherent (fw : Firmware) (font : FontHeader) (s : Os3k) : Prop
    extends Geometry fw font s, Rolled font s where
  row : 1 ≤ s.curRow ∧ s.curRow ≤ s.maxRow
  col : 1 ≤ s.curCol ∧ s.curCol ≤ s.maxCol + 1
  x : s.cursor.x = cellX font s s.curCol
  y : s.cursor.y = cellY font s s.curRow

/-- The LCD memory read from start line `g_CurLcdRoll`. -/
def picture (s : Os3k) (line col : ℕ) : Bool :=
  view 64 s.curLcdRoll.toNat s.lcd.ram line col

/-- What the two controllers show, each for its half of the columns. -/
def displayed (s : Os3k) (line col : ℕ) : Bool :=
  view 64 (if col < s.lcdWidth / 2 then s.lcd.left.startLine else s.lcd.right.startLine)
    s.lcd.ram line col

variable {fw : Firmware} {font : FontHeader} {s : Os3k}

theorem Rolled.displayed_eq (h : Rolled font s) (line col : ℕ) :
    displayed s line col = picture s line col := by
  have hl := h.left
  have hr := h.right
  have hstart : (if col < s.lcdWidth / 2 then s.lcd.left.startLine else s.lcd.right.startLine) =
      s.curLcdRoll.toNat := by
    split <;> omega
  rw [displayed, hstart, picture]

theorem Geometry.height_pos (g : Geometry fw font s) : 0 < font.height := by
  rcases g.height with h | h <;> omega

theorem Geometry.height_dvd (g : Geometry fw font s) : font.height ∣ 64 := by
  rcases g.height with h | h <;> rw [h] <;> decide

theorem Geometry.rows_mul (g : Geometry fw font s) : s.maxRow * font.height = 64 := by
  rw [g.rows]
  exact Nat.div_mul_cancel g.height_dvd

theorem Geometry.maxRow_pos (g : Geometry fw font s) : 1 ≤ s.maxRow := by
  rw [g.rows]
  rcases g.height with h | h <;> rw [h] <;> decide

theorem Geometry.maxRow_le (g : Geometry fw font s) : s.maxRow ≤ 8 := by
  rw [g.rows]
  rcases g.height with h | h <;> rw [h]
  decide

/-! ### Positions -/

/-- A column's position fits the cursor's word. -/
theorem u16_cell {col : ℕ} (h1 : 1 ≤ col) (h2 : col ≤ 256) :
    u16 (((col : ℤ) - 1) * (6 : ℕ)) = (col - 1) * 6 := by
  have hcast : ((col : ℤ) - 1) * (6 : ℕ) = ((col - 1) * 6 : ℕ) := by
    push_cast [h1]
    rfl
  have hlt : (col - 1) * 6 < 65536 := by omega
  rw [u16, hcast]
  omega

theorem Geometry.cellX_eq (g : Geometry fw font s) {col : ℕ} (h1 : 1 ≤ col)
    (h2 : col ≤ s.maxCol) : cellX font s col = (col - 1) * 6 := by
  have hw := g.width
  have hc := g.cols
  have hx := u16_cell h1 (by omega : col ≤ 256)
  have hne : (col - 1) * 6 ≠ s.lcdWidth := by omega
  simp only [cellX, g.maxWidth, hx, if_neg hne]

theorem Geometry.cellX_margin (g : Geometry fw font s) :
    cellX font s (s.maxCol + 1) = s.lcdWidth - 1 := by
  have hw := g.width
  have hc := g.cols
  have hx := u16_cell (Nat.le_add_left 1 s.maxCol) (by omega)
  have heq : (s.maxCol + 1 - 1) * 6 = s.lcdWidth := by omega
  simp only [cellX, g.maxWidth, hx, if_pos heq]
  rw [heq, u16]
  omega

/-- Advancing past a glyph leads to the x of the next column, the margin included. -/
theorem Geometry.advanceX_eq (g : Geometry fw font s) {col : ℕ} (h1 : 1 ≤ col)
    (h2 : col ≤ s.maxCol) (hx : s.cursor.x = cellX font s col) :
    advanceX font s = cellX font s (col + 1) := by
  have hc := g.cols
  rw [g.cellX_eq h1 h2] at hx
  have hnext : (s.cursor.x : ℤ) + font.maxWidth = (((col + 1 : ℕ) : ℤ) - 1) * font.maxWidth := by
    rw [hx, g.maxWidth]
    omega
  rw [advanceX, cellX, hnext]

theorem Geometry.cellY_eq (g : Geometry fw font s) (r : Rolled font s) {row : ℕ}
    (h1 : 1 ≤ row) (h2 : row ≤ s.maxRow) :
    cellY font s row = memoryLine 64 s.curLcdRoll.toNat ((row - 1) * font.height) := by
  have hn := r.nonneg
  have hl := r.lt
  have hrows := g.rows
  simp only [cellY, memoryLine, u16, g.lines]
  rcases g.height with h | h <;> rw [h] at hrows ⊢ <;> split <;> omega

/-! ### Rolls -/

theorem rollOn_roll (g : Geometry fw font s) (r : Rolled font s) :
    (rollOn font s).curLcdRoll = ((s.curLcdRoll.toNat + font.height) % 64 : ℕ) := by
  have hn := r.nonneg
  have hl := r.lt
  simp only [rollOn, s16, g.lines]
  rcases g.height with h | h <;> rw [h] <;> split <;> omega

theorem rollBack_roll (g : Geometry fw font s) (r : Rolled font s) :
    (rollBack font s).curLcdRoll = ((s.curLcdRoll.toNat + (64 - font.height)) % 64 : ℕ) := by
  have hn := r.nonneg
  have hl := r.lt
  simp only [rollBack, s16, g.lines]
  rcases g.height with h | h <;> rw [h] <;> split <;> omega

/-! ### Frames: what the geometry and the roll depend on -/

theorem Geometry.of_fields (g : Geometry fw font s) {t : Os3k}
    (hfont : t.pCurFont = s.pCurFont) (hwidth : t.lcdWidth = s.lcdWidth)
    (hheight : t.lcdHeight = s.lcdHeight) (hrow : t.maxRow = s.maxRow)
    (hcol : t.maxCol = s.maxCol) : Geometry fw font t where
  pCurFont := hfont.trans g.pCurFont
  maxWidth := g.maxWidth
  height := g.height
  width := by rw [hwidth, hcol, g.width]
  cols := by rw [hcol]; exact g.cols
  lines := hheight.trans g.lines
  rows := hrow.trans g.rows
  fwWidth := by rw [hwidth, g.fwWidth]
  fwLines := g.fwLines

theorem Rolled.of_fields (r : Rolled font s) {t : Os3k}
    (hroll : t.curLcdRoll = s.curLcdRoll) (hl : t.lcd.left.startLine = s.lcd.left.startLine)
    (hr : t.lcd.right.startLine = s.lcd.right.startLine) : Rolled font t where
  nonneg := by rw [hroll]; exact r.nonneg
  lt := by rw [hroll]; exact r.lt
  dvd := by rw [hroll]; exact r.dvd
  left := by rw [hroll, hl]; exact r.left
  right := by rw [hroll, hr]; exact r.right

/-- A roll sent to both controllers is the roll they start at. -/
theorem rolled_sendRoll {n : ℕ} (hroll : s.curLcdRoll = (n % 64 : ℕ))
    (hdvd : font.height ∣ n % 64) : Rolled font (sendRoll s) where
  nonneg := by simp only [sendRoll, lcdSetScreenRoll, lcdCommand]; omega
  lt := by simp only [sendRoll, lcdSetScreenRoll, lcdCommand]; omega
  dvd := by
    simp only [sendRoll, lcdSetScreenRoll, lcdCommand, hroll]
    exact_mod_cast hdvd
  left := by
    simp only [sendRoll, lcdSetScreenRoll, lcdCommand, command_startLine, hroll, u16]
    omega
  right := by
    simp only [sendRoll, lcdSetScreenRoll, lcdCommand, command_startLine, hroll, u16]
    omega

theorem Rolled.dvd_toNat (r : Rolled font s) : font.height ∣ s.curLcdRoll.toNat := by
  have hn := r.nonneg
  have hd := r.dvd
  rw [← Int.toNat_of_nonneg hn] at hd
  exact_mod_cast hd

theorem rolled_rollOn (g : Geometry fw font s) (r : Rolled font s) :
    Rolled font (sendRoll (rollOn font s)) := by
  refine rolled_sendRoll (rollOn_roll g r) ?_
  rw [Nat.dvd_mod_iff g.height_dvd]
  exact Nat.dvd_add r.dvd_toNat (Nat.dvd_refl _)

theorem rolled_rollBack (g : Geometry fw font s) (r : Rolled font s) :
    Rolled font (sendRoll (rollBack font s)) := by
  refine rolled_sendRoll (rollBack_roll g r) ?_
  rw [Nat.dvd_mod_iff g.height_dvd]
  exact Nat.dvd_add r.dvd_toNat (Nat.dvd_sub g.height_dvd (Nat.dvd_refl _))

theorem coherent_placeCursor (g : Geometry fw font s) (r : Rolled font s) {row col : ℕ}
    (hrow : 1 ≤ row ∧ row ≤ s.maxRow) (hcol : 1 ≤ col ∧ col ≤ s.maxCol + 1) :
    Coherent fw font (placeCursor font row col s) where
  toGeometry := g.of_fields rfl rfl rfl rfl rfl
  toRolled := r.of_fields rfl rfl rfl
  row := hrow
  col := hcol
  x := rfl
  y := rfl

theorem coherent_setCursorMode (c : Coherent fw font s) (mode : CursorMode) :
    Coherent fw font (setCursorMode mode s) where
  toGeometry := c.toGeometry.of_fields rfl rfl rfl rfl rfl
  toRolled := c.toRolled.of_fields rfl rfl rfl
  row := c.row
  col := c.col
  x := c.x
  y := c.y

theorem coherent_clearRow (c : Coherent fw font s) : Coherent fw font (clearRow fw font s) where
  toGeometry := c.toGeometry.of_fields rfl rfl rfl rfl rfl
  toRolled := c.toRolled.of_fields rfl rfl rfl
  row := c.row
  col := c.col
  x := c.x
  y := c.y

/-! ### Pictures -/

/-- The lines of a text row are the lines of its block of the display. -/
theorem Coherent.line_mem (c : Coherent fw font s) {line : ℕ} (hline : line < 64) :
    (s.cursor.y ≤ memoryLine 64 s.curLcdRoll.toNat line ∧
      memoryLine 64 s.curLcdRoll.toNat line < s.cursor.y + font.height) ↔
      line / font.height = s.curRow - 1 := by
  have hrow := c.row
  have hfit : (s.curRow - 1) * font.height < 64 := by
    calc (s.curRow - 1) * font.height < s.maxRow * font.height :=
          Nat.mul_lt_mul_of_pos_right (by omega) c.height_pos
      _ = 64 := c.rows_mul
  rw [c.y, c.toGeometry.cellY_eq c.toRolled hrow.1 hrow.2]
  exact memoryLine_mem_block c.height_dvd c.dvd_toNat _ hfit hline c.height_pos

theorem picture_rollOn (g : Geometry fw font s) (r : Rolled font s) (line col : ℕ) :
    picture (sendRoll (rollOn font s)) line col =
      if line + font.height < 64 then picture s (line + font.height) col
      else picture s (line + font.height - 64) col := by
  have hroll : (sendRoll (rollOn font s)).curLcdRoll.toNat =
      (s.curLcdRoll.toNat + font.height) % 64 := by
    change (rollOn font s).curLcdRoll.toNat = _
    rw [rollOn_roll g r, Int.toNat_natCast]
  simp only [picture, hroll, view_rollOn]
  split <;> rfl

theorem picture_rollBack (g : Geometry fw font s) (r : Rolled font s) (line col : ℕ) :
    picture (sendRoll (rollBack font s)) line col =
      if line < font.height then picture s (line + (64 - font.height)) col
      else picture s (line - font.height) col := by
  have hroll : (sendRoll (rollBack font s)).curLcdRoll.toNat =
      (s.curLcdRoll.toNat + (64 - font.height)) % 64 := by
    change (rollBack font s).curLcdRoll.toNat = _
    rw [rollBack_roll g r, Int.toNat_natCast]
  have hh : font.height ≤ 64 := Nat.le_of_dvd (by decide) g.height_dvd
  simp only [picture, hroll, view_rollBack _ hh]
  split <;> rfl

/-- The erase blanks the cursor's row from the cursor's column to the edge. -/
theorem Coherent.picture_clearRow (c : Coherent fw font s) (hcol : s.curCol ≤ s.maxCol)
    {line col : ℕ} (hline : line < 64) (hw : col < s.lcdWidth) :
    picture (clearRow fw font s) line col =
      if line / font.height = s.curRow - 1 ∧ (s.curCol - 1) * 6 ≤ col then false
      else picture s line col := by
  have hx := (c.x).trans (c.toGeometry.cellX_eq c.col.1 hcol)
  have hlt : memoryLine 64 s.curLcdRoll.toNat line < 64 := memoryLine_lt (by decide)
  have hrect : InRect fw.lcdWidth fw.lcdHeight s.cursor.x s.cursor.y s.lcdWidth font.height
      (memoryLine 64 s.curLcdRoll.toNat line) col ↔
      line / font.height = s.curRow - 1 ∧ (s.curCol - 1) * 6 ≤ col := by
    rw [← c.line_mem hline, ← hx, InRect, c.fwWidth, c.fwLines]
    omega
  simp only [picture, view, clearRow, rasterOpWhiteness, fw.rasterOpWhiteness_apply,
    hrect]

/-- The pixel of glyph `c` at a place inside its cell. -/
def glyphPixel (fw : Firmware) (font : FontHeader) (c dx dy : ℕ) : Bool :=
  fw.bitmapPixel (glyphAddress font c) font.maxWidth font.height dx dy

/-- A glyph changes the cursor's cell and nothing else. -/
theorem Coherent.picture_drawGlyph (c : Coherent fw font s) (hcol : s.curCol ≤ s.maxCol)
    (b : ℕ) {line col : ℕ} (hline : line < 64) (hw : col < s.lcdWidth) :
    picture (drawGlyph fw font b s) line col =
      if line / font.height = s.curRow - 1 ∧ col / 6 = s.curCol - 1
      then glyphPixel fw font b (col % 6) (line % font.height)
      else picture s line col := by
  have hx := (c.x).trans (c.toGeometry.cellX_eq c.col.1 hcol)
  have h1 := c.col.1
  have hlt : memoryLine 64 s.curLcdRoll.toNat line < 64 := memoryLine_lt (by decide)
  have hrect : InRect fw.lcdWidth fw.lcdHeight s.cursor.x s.cursor.y font.maxWidth font.height
      (memoryLine 64 s.curLcdRoll.toNat line) col ↔
      line / font.height = s.curRow - 1 ∧ col / 6 = s.curCol - 1 := by
    rw [← c.line_mem hline, InRect, c.fwWidth, c.fwLines, c.maxWidth]
    omega
  simp only [picture, view, drawGlyph, drawBitmap, fw.drawBitmap_apply, hrect, glyphPixel]
  split
  · rename_i hin
    have hdx : col - s.cursor.x = col % 6 := by omega
    have hdy : memoryLine 64 s.curLcdRoll.toNat line - s.cursor.y = line % font.height := by
      have hb := memoryLine_block c.height_dvd c.dvd_toNat
        (Nat.dvd_mul_left font.height (line / font.height)) (by decide)
        (Nat.mod_lt line c.height_pos)
      rw [Nat.div_add_mod' line font.height, hin.1] at hb
      rw [c.y, c.toGeometry.cellY_eq c.toRolled c.row.1 c.row.2, hb, Nat.add_sub_cancel_left]
    rw [hdx, hdy]
  · rfl

end Betawise.TerminalGeometry
