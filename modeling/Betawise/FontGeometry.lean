import Mathlib.Data.List.Basic
import Mathlib.Data.List.Induction
import Mathlib.Tactic.Ring
import Betawise.TerminalScroll

/-!
# Which fonts keep text on the LCD

`BwProcessMessage` installs any font the firmware or the Terminal font applet
hands it. The column count is the width divided by a constant 6, the row count
tells only height 16 from all others, the right margin is found by an equality
and the roll and the cursor's line are each reduced by one subtraction. Together
these keep every glyph on a 64-line LCD for exactly the fonts that `Fits` lists.
-/
namespace Betawise.FontGeometry
open Os3kState Os3kTerminal TerminalScroll

/-! ### What is asked of a font -/

/-- The column count that `MSG_SETFOCUS` computes. -/
def columns (width : ℕ) : ℕ := width / 6 % 256

/-- Heights that divide the LCD into the rows counted on, and widths that reach
the right margin exactly and fit in the columns counted on. -/
def Fits (font : FontHeader) (width : ℕ) : Prop :=
  (font.height = 1 ∨ font.height = 2 ∨ font.height = 4 ∨ font.height = 8 ∨ font.height = 16) ∧
    (font.maxWidth ∣ width ∨ font.maxWidth ∣ width - 1) ∧
    1 ≤ columns width ∧ (columns width - 1) * font.maxWidth ≤ width

/-- `MSG_INIT`, `MSG_SETFOCUS` and `ClearScreen()`, with the calls since then. -/
def cleared (fw : Firmware) (s : Os3k) : Os3k :=
  clearScreen fw (beforeApplet fw .setFocus (beforeApplet fw .init { s with trace := [] }))

/-- `fputc` on `stdout` for each character in turn. -/
def output (fw : Firmware) (cs : List ℤ) (s : Os3k) : Os3k :=
  cs.foldl (fun s c => (fputc fw c stdout s).2) s

/-- A character whose byte is none of those that `fputc` handles itself. -/
def Printing (c : ℤ) : Prop := u8 c ≠ 0x07 ∧ u8 c ≠ 0x08 ∧ u8 c ≠ 0x0A ∧ u8 c ≠ 0x0D

instance (c : ℤ) : Decidable (Printing c) := inferInstanceAs (Decidable (_ ∧ _))

/-- Every glyph drawn so far lies on the LCD. -/
def GlyphsInside (width : ℕ) (calls : List Call) : Prop :=
  ∀ x y w h bitmap, Call.drawBitmap x y w h bitmap ∈ calls → x + w ≤ width ∧ y + h ≤ 64

/-- The cells of different rows share no line of the LCD memory. -/
def RowsApart (font : FontHeader) (s : Os3k) : Prop :=
  ∀ r₁ r₂, 1 ≤ r₁ → r₁ ≤ s.maxRow → 1 ≤ r₂ → r₂ ≤ s.maxRow → r₁ ≠ r₂ →
    cellY font s r₁ + font.height ≤ cellY font s r₂ ∨
      cellY font s r₂ + font.height ≤ cellY font s r₁

/-- The place of the newest glyph. -/
def lastGlyph : List Call → Option (ℕ × ℕ)
  | [] => none
  | .drawBitmap x y _ _ _::_ => some (x,y)
  | _::calls => lastGlyph calls

/-- Printing one glyph more than a line holds puts that glyph on the next row. -/
def LongLineContinues (fw : Firmware) (font : FontHeader) (s : Os3k) : Prop :=
  s.cursor.x = 0 → ∀ cs : List ℤ, (∀ c ∈ cs, Printing c) →
    cs.length = fw.lcdWidth / font.maxWidth + 1 →
    ∃ x, lastGlyph (output fw cs s).trace =
      some (x,(setCursor fw (u8 (s.curRow + 1)) 1 .hide s).cursor.y)

/-- Text stays on the LCD, whatever is written from state `s` on. -/
def TextStays (fw : Firmware) (font : FontHeader) (s : Os3k) : Prop :=
  ∀ cs : List ℤ, GlyphsInside fw.lcdWidth (output fw cs s).trace ∧
    RowsApart font (output fw cs s) ∧ LongLineContinues fw font (output fw cs s)

variable {fw : Firmware} {font : FontHeader} {s : Os3k}

/-! ### The invariant of fonts that fit -/

/-- What the font and the screen have in common, unchanged by any output. -/
structure Fitted (fw : Firmware) (font : FontHeader) (s : Os3k) : Prop where
  pCurFont : s.pCurFont = some font
  width : s.lcdWidth = fw.lcdWidth
  bound : s.lcdWidth < 65536
  lines : s.lcdHeight = 64
  height_dvd : font.height ∣ 64
  maxRow : 1 ≤ s.maxRow
  rows : s.maxRow * font.height ≤ 64
  width_pos : 1 ≤ font.maxWidth
  margin : font.maxWidth ∣ s.lcdWidth ∨ font.maxWidth ∣ s.lcdWidth - 1
  wide : 6 ≤ s.lcdWidth
  maxCol : 1 ≤ s.maxCol ∧ s.maxCol < 256
  cols : (s.maxCol - 1) * font.maxWidth ≤ s.lcdWidth

/-- The roll is a whole number of rows of a 64-line memory. -/
def WholeRows (font : FontHeader) (roll : ℤ) : Prop :=
  0 ≤ roll ∧ roll < 64 ∧ (font.height : ℤ) ∣ roll

/-- The cursor stands on a multiple of the font's width or at the right margin,
and no column left of it is beyond the margin. -/
structure OnScreen (fw : Firmware) (font : FontHeader) (s : Os3k) : Prop
    extends Fitted fw font s where
  roll : WholeRows font s.curLcdRoll
  row : 1 ≤ s.curRow ∧ s.curRow ≤ s.maxRow
  y : s.cursor.y = cellY font s s.curRow
  x_lt : s.cursor.x < s.lcdWidth
  x : font.maxWidth ∣ s.cursor.x ∨ s.cursor.x = s.lcdWidth - 1
  col_lt : s.curCol < 256
  col : (s.curCol - 1) * font.maxWidth ≤ s.cursor.x ∨
    s.cursor.x = s.lcdWidth - 1 ∧ (s.curCol - 1) * font.maxWidth ≤ s.lcdWidth
  inside : GlyphsInside fw.lcdWidth s.trace

theorem Fitted.of_sameScreen (f : Fitted fw font s) {t : Os3k} (h : SameScreen s t) :
    Fitted fw font t := by
  obtain ⟨hfont,hwidth,hheight,hrow,hcol⟩ := h
  constructor
  · exact hfont.trans f.pCurFont
  · exact hwidth.trans f.width
  · rw [hwidth]; exact f.bound
  · exact hheight.trans f.lines
  · exact f.height_dvd
  · rw [hrow]; exact f.maxRow
  · rw [hrow]; exact f.rows
  · exact f.width_pos
  · rw [hwidth]; exact f.margin
  · rw [hwidth]; exact f.wide
  · rw [hcol]; exact f.maxCol
  · rw [hwidth, hcol]; exact f.cols

theorem Fitted.height_le (f : Fitted fw font s) : font.height ≤ 64 :=
  Nat.le_of_dvd (by decide) f.height_dvd

/-- Under a roll of whole rows, row `r` starts at the line that many rows on. -/
theorem Fitted.cellY_eq (f : Fitted fw font s) (hroll : WholeRows font s.curLcdRoll) {row : ℕ}
    (h1 : 1 ≤ row) (h2 : row ≤ s.maxRow) :
    cellY font s row = ((row - 1) * font.height + s.curLcdRoll.toNat) % 64 := by
  obtain ⟨h0,h64,-⟩ := hroll
  have hrow : row * font.height ≤ 64 := (Nat.mul_le_mul_right _ h2).trans f.rows
  have hmul : (row - 1) * font.height + font.height = row * font.height := by
    rw [← Nat.succ_mul, Nat.succ_eq_add_one, Nat.sub_add_cancel h1]
  have hcast : ((row : ℤ) - 1) * font.height = ((row - 1) * font.height : ℕ) := by
    push_cast [Nat.cast_sub h1]
    ring
  simp only [cellY, u16, f.lines, hcast]
  split <;> omega

/-- A cell of the screen ends inside the LCD memory. -/
theorem Fitted.cellY_fits (f : Fitted fw font s) (hroll : WholeRows font s.curLcdRoll)
    {row : ℕ} (h1 : 1 ≤ row) (h2 : row ≤ s.maxRow) : cellY font s row + font.height ≤ 64 := by
  have hdvd : font.height ∣ s.curLcdRoll.toNat := by
    have hd := hroll.2.2
    rw [← Int.toNat_of_nonneg hroll.1] at hd
    exact_mod_cast hd
  have hy : font.height ∣ cellY font s row := by
    rw [f.cellY_eq hroll h1 h2, Nat.dvd_mod_iff f.height_dvd]
    exact Nat.dvd_add (Nat.dvd_mul_left _ _) hdvd
  have hlt : cellY font s row < 64 := by
    rw [f.cellY_eq hroll h1 h2]
    exact Nat.mod_lt _ (by decide)
  exact Nat.le_of_lt_add_of_dvd (Nat.add_lt_add_right hlt _) (Nat.dvd_add hy (Nat.dvd_refl _))
    f.height_dvd

theorem OnScreen.rowsApart (h : OnScreen fw font s) : RowsApart font s := by
  intro r₁ r₂ h₁ h₁' h₂ h₂' hne
  have e₁ := h.toFitted.cellY_eq h.roll h₁ h₁'
  have e₂ := h.toFitted.cellY_eq h.roll h₂ h₂'
  have f₁ := h.toFitted.cellY_fits h.roll h₁ h₁'
  have f₂ := h.toFitted.cellY_fits h.roll h₂ h₂'
  have hlt := h.roll.2.1
  -- the two rows are at least one height apart before the reduction modulo 64
  have hstep {a b : ℕ} (ha : 1 ≤ a) (hab : a < b) (hb : b ≤ s.maxRow) :
      (a - 1) * font.height + font.height ≤ (b - 1) * font.height ∧
        (b - 1) * font.height + font.height ≤ 64 := by
    constructor
    · rw [← Nat.succ_mul]
      exact Nat.mul_le_mul_right _ (by omega)
    · rw [← Nat.succ_mul]
      exact (Nat.mul_le_mul_right _ (by omega)).trans h.rows
  rcases Nat.lt_or_gt_of_ne hne with hlt₁ | hlt₁
  · have := hstep h₁ hlt₁ h₂'
    omega
  · have := hstep h₂ hlt₁ h₁'
    omega

/-! ### Every character keeps the invariant -/

theorem Fitted.cellX_eq (f : Fitted fw font s) {col : ℕ} (h1 : 1 ≤ col)
    (hcol : (col - 1) * font.maxWidth ≤ s.lcdWidth) :
    cellX font s col = if (col - 1) * font.maxWidth = s.lcdWidth then s.lcdWidth - 1
      else (col - 1) * font.maxWidth := by
  have hw := f.bound
  have hwide := f.wide
  have hcast : ((col : ℤ) - 1) * font.maxWidth = ((col - 1) * font.maxWidth : ℕ) := by
    push_cast [Nat.cast_sub h1]
    ring
  simp only [cellX, u16, hcast]
  split_ifs <;> omega

theorem setCursor_glyphs (fw : Firmware) (row col : ℕ) (mode : CursorMode) (s : Os3k)
    (x y w h bitmap : ℕ) : Call.drawBitmap x y w h bitmap ∈ (setCursor fw row col mode s).trace ↔
      Call.drawBitmap x y w h bitmap ∈ s.trace := by
  unfold setCursor
  split
  · simp [os3kSetCursor]
  · dsimp only
    split_ifs <;>
      simp [setCursorMode, clearRow, rasterOpWhiteness, placeCursor, sendRoll, lcdSetScreenRoll,
        lcdCommand, rollBack, rollOn]

theorem Fitted.wholeRows_rollOn (f : Fitted fw font s) (h : WholeRows font s.curLcdRoll) :
    WholeRows font (rollOn font s).curLcdRoll := by
  obtain ⟨h0,h64,hdvd⟩ := h
  have hh := f.height_le
  have hlcd : (font.height : ℤ) ∣ 64 := by exact_mod_cast f.height_dvd
  have hon : s16 (s.curLcdRoll + font.height) = s.curLcdRoll + font.height := by
    simp only [s16]
    omega
  simp only [rollOn, f.lines, hon]
  split
  · have hoff : s16 (s.curLcdRoll + font.height - (64 : ℕ)) =
        s.curLcdRoll + font.height - 64 := by
      simp only [s16]
      omega
    rw [hoff]
    exact ⟨by omega,by omega,Int.dvd_sub (Int.dvd_add hdvd (Int.dvd_refl _)) hlcd⟩
  · exact ⟨by omega,by omega,Int.dvd_add hdvd (Int.dvd_refl _)⟩

theorem Fitted.wholeRows_rollBack (f : Fitted fw font s) (h : WholeRows font s.curLcdRoll) :
    WholeRows font (rollBack font s).curLcdRoll := by
  obtain ⟨h0,h64,hdvd⟩ := h
  have hh := f.height_le
  have hlcd : (font.height : ℤ) ∣ 64 := by exact_mod_cast f.height_dvd
  have hback : s16 (s.curLcdRoll - font.height) = s.curLcdRoll - font.height := by
    simp only [s16]
    omega
  simp only [rollBack, f.lines, hback]
  split
  · have hoff : s16 (s.curLcdRoll - font.height + (64 : ℕ)) =
        s.curLcdRoll - font.height + 64 := by
      simp only [s16]
      omega
    rw [hoff]
    exact ⟨by omega,by omega,Int.dvd_add (Int.dvd_sub hdvd (Int.dvd_refl _)) hlcd⟩
  · exact ⟨by omega,by omega,Int.dvd_sub hdvd (Int.dvd_refl _)⟩

/-- The place `SetCursor` computes is on the screen. -/
theorem Fitted.placeCursor_onScreen (f : Fitted fw font s) (hroll : WholeRows font s.curLcdRoll)
    (hinside : GlyphsInside fw.lcdWidth s.trace) {row col : ℕ}
    (hrow : 1 ≤ row ∧ row ≤ s.maxRow) (hcol : 1 ≤ col ∧ col < 256)
    (hfit : (col - 1) * font.maxWidth ≤ s.lcdWidth) :
    OnScreen fw font (placeCursor font row col s) := by
  have hwide := f.wide
  have hx := f.cellX_eq hcol.1 hfit
  refine ⟨f.of_sameScreen (.refl _),hroll,hrow,rfl,?_,?_,
    hcol.2,?_,hinside⟩
  · change cellX font s col < s.lcdWidth
    rw [hx]
    split_ifs <;> omega
  · change font.maxWidth ∣ cellX font s col ∨ cellX font s col = s.lcdWidth - 1
    rw [hx]
    split_ifs
    · exact Or.inr rfl
    · exact Or.inl (Nat.dvd_mul_left _ _)
  · change (col - 1) * font.maxWidth ≤ cellX font s col ∨ cellX font s col = s.lcdWidth - 1 ∧ _
    rw [hx]
    split_ifs with h
    · exact Or.inr ⟨rfl,hfit⟩
    · exact Or.inl (Nat.le_refl _)

theorem OnScreen.of_cursor (h : OnScreen fw font s) {t : Os3k} (hscreen : SameScreen s t)
    (hroll : t.curLcdRoll = s.curLcdRoll) (hrow : t.curRow = s.curRow) (hcol : t.curCol = s.curCol)
    (hcursor : t.cursor = s.cursor) (hinside : GlyphsInside fw.lcdWidth t.trace) :
    OnScreen fw font t := by
  have f := h.toFitted.of_sameScreen hscreen
  refine ⟨f,?_,?_,?_,?_,?_,?_,?_,hinside⟩
  · rw [hroll]; exact h.roll
  · rw [hrow, hscreen.2.2.2.1]; exact h.row
  · rw [hcursor, hrow, h.y, cellY, cellY, hroll, hscreen.2.2.1]
  · rw [hcursor, hscreen.2.1]; exact h.x_lt
  · rw [hcursor, hscreen.2.1]; exact h.x
  · rw [hcol]; exact h.col_lt
  · rw [hcursor, hcol, hscreen.2.1]; exact h.col

/-- `SetCursor` to any row and to a column that starts on the LCD. -/
theorem OnScreen.setCursor (h : OnScreen fw font s) {row col : ℕ} (mode : CursorMode)
    (hcol : 1 ≤ col ∧ col < 256) (hfit : (col - 1) * font.maxWidth ≤ s.lcdWidth) :
    OnScreen fw font (setCursor fw row col mode s) := by
  have f := h.toFitted
  have hroll := h.roll
  have hsame := setCursor_sameScreen fw row col mode s
  have hinside : GlyphsInside fw.lcdWidth (Os3kTerminal.setCursor fw row col mode s).trace :=
    fun x y w b d hd => h.inside x y w b d ((setCursor_glyphs ..).mp hd)
  have hplace {u : Os3k} (hu : SameScreen s u) (hr : WholeRows font u.curLcdRoll)
      (hg : GlyphsInside fw.lcdWidth u.trace) {r : ℕ} (h1 : 1 ≤ r ∧ r ≤ s.maxRow) :
      OnScreen fw font (placeCursor font r col u) :=
    (f.of_sameScreen hu).placeCursor_onScreen hr hg (by rw [hu.2.2.2.1]; exact h1) hcol
      (by rw [hu.2.1]; exact hfit)
  have hquiet : GlyphsInside fw.lcdWidth (setCursorMode .hide s).trace :=
    fun x y w b d hd => h.inside x y w b d (by simpa [setCursorMode] using hd)
  unfold Os3kTerminal.setCursor at hinside hsame ⊢
  simp only [f.pCurFont] at hinside hsame ⊢
  split_ifs at hinside hsame ⊢ with hlow hhigh
  · let u := sendRoll (rollBack font (setCursorMode .hide s))
    have hu : SameScreen s u := .refl _
    have hg : GlyphsInside fw.lcdWidth u.trace := fun x y w b d hd => h.inside x y w b d
      (by simpa [u, sendRoll, rollBack, lcdSetScreenRoll, lcdCommand, setCursorMode] using hd)
    have hon := hplace hu (f.wholeRows_rollBack hroll) hg ⟨Nat.le_refl 1,f.maxRow⟩
    exact hon.of_cursor (.refl _) rfl rfl rfl rfl hinside
  · let u := sendRoll (rollOn font (setCursorMode .hide s))
    have hu : SameScreen s u := .refl _
    have hg : GlyphsInside fw.lcdWidth u.trace := fun x y w b d hd => h.inside x y w b d
      (by simpa [u, sendRoll, rollOn, lcdSetScreenRoll, lcdCommand, setCursorMode] using hd)
    have hon := hplace hu (f.wholeRows_rollOn hroll) hg ⟨f.maxRow,Nat.le_refl _⟩
    exact hon.of_cursor (.refl _) rfl rfl rfl rfl hinside
  · have hon := hplace (u := setCursorMode .hide s) (.refl _) hroll hquiet
      (r := row) ⟨by omega,by simpa [setCursorMode] using hhigh⟩
    exact hon.of_cursor (.refl _) rfl rfl rfl rfl hinside

/-- Left of the margin there is room for a whole glyph. -/
theorem OnScreen.room (h : OnScreen fw font s) (hx : s.cursor.x ≠ s.lcdWidth - 1) :
    s.cursor.x + font.maxWidth ≤ s.lcdWidth := by
  have hlt := h.x_lt
  have hdvd := h.x.resolve_right hx
  have hstep := Nat.dvd_add hdvd (Nat.dvd_refl font.maxWidth)
  rcases h.margin with hw | hw
  · exact Nat.le_of_lt_add_of_dvd (by omega) hstep hw
  · exact (Nat.le_of_lt_add_of_dvd (by omega) hstep hw).trans (Nat.sub_le _ _)

theorem OnScreen.advanceX_eq (h : OnScreen fw font s) (hx : s.cursor.x ≠ s.lcdWidth - 1) :
    advanceX font s = if s.cursor.x + font.maxWidth = s.lcdWidth then s.lcdWidth - 1
      else s.cursor.x + font.maxWidth := by
  have hroom := h.room hx
  have hw := h.bound
  have hwide := h.wide
  have hsum : u16 ((s.cursor.x : ℤ) + font.maxWidth) = s.cursor.x + font.maxWidth := by
    simp only [u16]
    omega
  simp only [advanceX, hsum]
  split_ifs with hedge
  · simp only [u16]
    omega
  · rfl

/-- A glyph drawn left of the margin. -/
theorem OnScreen.drawGlyph (h : OnScreen fw font s) (hx : s.cursor.x ≠ s.lcdWidth - 1) (b : ℕ) :
    OnScreen fw font (drawGlyph fw font b s) := by
  have f := h.toFitted
  have hroom := h.room hx
  have hwide := h.wide
  have hadvance := h.advanceX_eq hx
  have hleft := h.col.resolve_right fun hm => hx hm.1
  have hcol : (u8 ((s.curCol : ℤ) + 1) - 1) * font.maxWidth ≤ s.cursor.x + font.maxWidth := by
    have hle : u8 ((s.curCol : ℤ) + 1) - 1 ≤ s.curCol - 1 + 1 := by
      simp only [u8]
      omega
    calc _ ≤ (s.curCol - 1 + 1) * font.maxWidth := Nat.mul_le_mul_right _ hle
      _ = (s.curCol - 1) * font.maxWidth + font.maxWidth := Nat.succ_mul _ _
      _ ≤ s.cursor.x + font.maxWidth := Nat.add_le_add_right hleft _
  refine ⟨f.of_sameScreen (.refl _),h.roll,h.row,h.y,?_,?_,?_,?_,?_⟩
  · change advanceX font s < s.lcdWidth
    rw [hadvance]
    split_ifs <;> omega
  · change font.maxWidth ∣ advanceX font s ∨ advanceX font s = s.lcdWidth - 1
    rw [hadvance]
    split_ifs
    · exact Or.inr rfl
    · exact Or.inl (Nat.dvd_add (h.x.resolve_right hx) (Nat.dvd_refl _))
  · change u8 ((s.curCol : ℤ) + 1) < 256
    exact u8_lt _
  · change (u8 ((s.curCol : ℤ) + 1) - 1) * font.maxWidth ≤ advanceX font s ∨
      advanceX font s = s.lcdWidth - 1 ∧ _
    rw [hadvance]
    split_ifs
    · exact Or.inr ⟨rfl,hcol.trans hroom⟩
    · exact Or.inl hcol
  · intro x y w d bitmap hd
    rcases List.mem_cons.mp hd with heq | hold
    · obtain ⟨rfl,rfl,rfl,rfl,-⟩ := Call.drawBitmap.inj heq
      rw [← f.width, h.y]
      exact ⟨hroom,f.cellY_fits h.roll h.row.1 h.row.2⟩
    · exact h.inside x y w d bitmap hold

theorem OnScreen.setCursorMode (h : OnScreen fw font s) (mode : CursorMode) :
    OnScreen fw font (setCursorMode mode s) :=
  h.of_cursor (.refl _) rfl rfl rfl rfl fun x y w b d hd =>
    h.inside x y w b d (by simpa [Os3kTerminal.setCursorMode] using hd)

theorem OnScreen.nextRow (h : OnScreen fw font s) (row : ℕ) (mode : CursorMode) :
    OnScreen fw font (Os3kTerminal.setCursor fw row 1 mode s) :=
  h.setCursor mode (by decide) (by simp)

/-- `SetCursor` to column 1 leads to the left edge. -/
theorem OnScreen.nextRow_x (h : OnScreen fw font s) (row : ℕ) (mode : CursorMode) :
    (Os3kTerminal.setCursor fw row 1 mode s).cursor.x = 0 := by
  have hzero {u : Os3k} (hu : SameScreen s u) : cellX font u 1 = 0 := by
    have hwide := h.wide
    have hx := (h.toFitted.of_sameScreen hu).cellX_eq (Nat.le_refl 1) (by simp)
    rw [hx, if_neg (by rw [hu.2.1]; omega), Nat.sub_self, Nat.zero_mul]
  unfold Os3kTerminal.setCursor
  simp only [h.pCurFont]
  split_ifs <;> exact hzero (.refl _)

/-- Whether it wraps first or not, a glyph is drawn on the screen. -/
theorem OnScreen.wrapOrHide (h : OnScreen fw font s) :
    OnScreen fw font (wrapOrHide fw s) ∧
      (Os3kTerminal.wrapOrHide fw s).cursor.x ≠ (Os3kTerminal.wrapOrHide fw s).lcdWidth - 1 := by
  have hwide := h.wide
  unfold Os3kTerminal.wrapOrHide
  split_ifs with hx
  · have hsame := setCursor_sameScreen fw (u8 (s.curRow + 1)) 1 .hide s
    refine ⟨h.nextRow _ _,?_⟩
    rw [h.nextRow_x, hsame.2.1]
    omega
  · refine ⟨h.setCursorMode .hide,?_⟩
    simp only [Os3kTerminal.setCursorMode]
    omega

theorem OnScreen.putGlyph (h : OnScreen fw font s) (b : ℕ) (mode : CursorMode) :
    OnScreen fw font (putGlyph fw font b mode s) :=
  (h.wrapOrHide.1.drawGlyph h.wrapOrHide.2 b).setCursorMode mode

theorem OnScreen.backspace (h : OnScreen fw font s) (mode : CursorMode) :
    OnScreen fw font (backspace fw mode s) := by
  have hcol := h.col_lt
  unfold Os3kTerminal.backspace
  split_ifs with h1
  · rw [u8_pred (by omega) (by omega)]
    refine h.setCursor mode (by omega) ?_
    have hleft : (s.curCol - 1) * font.maxWidth ≤ s.lcdWidth := by
      have hx := h.x_lt
      rcases h.col with hc | hc <;> omega
    exact (Nat.mul_le_mul_right _ (Nat.sub_le _ 1)).trans hleft
  · exact h.setCursor mode h.maxCol h.cols

theorem OnScreen.bell (h : OnScreen fw font s) (mode : CursorMode) :
    OnScreen fw font (bell mode s) := by
  have hpix {s : Os3k} (h : OnScreen fw font s) (e : Bool) : OnScreen fw font (lcdAllPixOn e s) :=
    h.of_cursor (.refl _) rfl rfl rfl rfl fun x y w b d hd =>
      h.inside x y w b d (by simpa [lcdAllPixOn, lcdCommand] using hd)
  have hsleep {s : Os3k} (h : OnScreen fw font s) (n : ℕ) :
      OnScreen fw font (sleepCentimilliseconds n s) :=
    h.of_cursor (.refl _) rfl rfl rfl rfl fun x y w b d hd =>
      h.inside x y w b d (by simpa [sleepCentimilliseconds] using hd)
  exact (hpix (hsleep (hpix (h.setCursorMode .hide) true) 10000) false).setCursorMode mode

theorem OnScreen.emit (h : OnScreen fw font s) (b : ℕ) : OnScreen fw font (emit fw s b) := by
  unfold Os3kTerminal.emit fputcStdout
  simp only [h.pCurFont]
  split_ifs
  · exact h.bell _
  · exact h.backspace _
  · exact h.nextRow _ _
  · exact h.nextRow _ _
  · exact h.putGlyph _ _

theorem OnScreen.output (h : OnScreen fw font s) (cs : List ℤ) :
    OnScreen fw font (output fw cs s) := by
  induction cs generalizing s with
  | nil => exact h
  | cons c cs ih => exact ih (h.emit (u8 c))

/-! ### A long line -/

theorem fputc_printing (hfont : s.pCurFont = some font) {c : ℤ} (hc : Printing c) :
    (fputc fw c stdout s).2 = putGlyph fw font (u8 c) s.cursorMode s := by
  obtain ⟨h7,h8,ha,hd⟩ := hc
  rw [fputc, if_neg (by simp), fputcStdout]
  simp only [hfont, if_neg h7, if_neg h8, if_neg ha, if_neg hd]

/-- A line feed from states with the same screen, row and roll leads to the same line. -/
theorem setCursor_y_congr {t : Os3k} (hfont : s.pCurFont = some font) (hsame : SameScreen s t)
    (hroll : t.curLcdRoll = s.curLcdRoll) (row col : ℕ) (mode : CursorMode) :
    (setCursor fw row col mode t).cursor.y = (setCursor fw row col mode s).cursor.y := by
  obtain ⟨hf,-,hheight,hrow,-⟩ := hsame
  simp only [setCursor, hf, hfont, setCursorMode, hrow]
  split_ifs <;>
    simp only [clearRow, rasterOpWhiteness, placeCursor, sendRoll, lcdSetScreenRoll, lcdCommand,
      rollBack, rollOn, cellY, hroll, hheight]

/-- Glyphs short of the margin: the cursor moves along its row. -/
theorem OnScreen.output_line (h : OnScreen fw font s) (hx : s.cursor.x = 0) (cs : List ℤ)
    (hcs : ∀ c ∈ cs, Printing c)
    (hshort : ∀ k < cs.length, k * font.maxWidth < s.lcdWidth - 1) :
    let t := FontGeometry.output fw cs s
    SameScreen s t ∧ t.curLcdRoll = s.curLcdRoll ∧ t.curRow = s.curRow ∧
      t.cursor.y = s.cursor.y ∧
      t.cursor.x = if cs.length * font.maxWidth = s.lcdWidth then s.lcdWidth - 1
        else cs.length * font.maxWidth := by
  have hwide := h.wide
  induction cs using List.reverseRecOn with
  | nil =>
    refine ⟨.refl _,rfl,rfl,rfl,?_⟩
    rw [List.length_nil, Nat.zero_mul, if_neg (by omega)]
    exact hx
  | append_singleton cs c ih =>
    have hlen : (cs ++ [c]).length = cs.length + 1 := by simp
    obtain ⟨hsame,hroll,hrow,hy,hxt⟩ := ih (fun d hd => hcs d (List.mem_append_left _ hd))
      fun k hk => hshort k (by omega)
    have hmargin := hshort cs.length (by omega)
    have ht : OnScreen fw font (FontGeometry.output fw cs s) := h.output cs
    have hleft : (FontGeometry.output fw cs s).cursor.x = cs.length * font.maxWidth := by
      rw [hxt, if_neg (by omega)]
    have hne : (FontGeometry.output fw cs s).cursor.x ≠
        (FontGeometry.output fw cs s).lcdWidth - 1 := by
      rw [hleft, hsame.2.1]
      omega
    have hstep : FontGeometry.output fw (cs ++ [c]) s = Os3kTerminal.setCursorMode
        (FontGeometry.output fw cs s).cursorMode (Os3kTerminal.drawGlyph fw font (u8 c)
          (Os3kTerminal.setCursorMode .hide (FontGeometry.output fw cs s))) := by
      have hwide' := ht.wide
      rw [FontGeometry.output, List.foldl_append]
      change (fputc fw c stdout (FontGeometry.output fw cs s)).2 = _
      rw [fputc_printing ht.pCurFont (hcs c (by simp)), Os3kTerminal.putGlyph,
        Os3kTerminal.wrapOrHide, if_neg (by omega)]
    have hadvance := (ht.setCursorMode .hide).advanceX_eq hne
    intro t
    have heq : t = _ := hstep
    rw [heq]
    refine ⟨hsame.trans (hiddenGlyph_sameScreen ..),hroll,hrow,hy,?_⟩
    change advanceX font (Os3kTerminal.setCursorMode .hide (FontGeometry.output fw cs s)) = _
    have hsucc : (cs.length + 1) * font.maxWidth = cs.length * font.maxWidth + font.maxWidth :=
      Nat.succ_mul _ _
    rw [hadvance, hlen, hsucc]
    simp only [Os3kTerminal.setCursorMode, hleft, hsame.2.1]

/-- At the right margin a glyph goes to the left end of the next row. -/
theorem OnScreen.putGlyph_margin (h : OnScreen fw font s) (hx : s.cursor.x = s.lcdWidth - 1)
    (b : ℕ) (mode : CursorMode) :
    let t := Os3kTerminal.putGlyph fw font b mode s
    let y := (Os3kTerminal.setCursor fw (u8 (s.curRow + 1)) 1 .hide s).cursor.y
    lastGlyph t.trace = some (0,y) ∧ t.cursor.y = y ∧
      (font.maxWidth ≠ s.lcdWidth → t.cursor.x = font.maxWidth) ∧ t.lcdWidth = s.lcdWidth := by
  have hwide := h.wide
  have hwrap : Os3kTerminal.wrapOrHide fw s =
      Os3kTerminal.setCursor fw (u8 (s.curRow + 1)) 1 .hide s := by
    rw [Os3kTerminal.wrapOrHide, if_pos (by omega)]
  have hnext := h.nextRow (u8 (s.curRow + 1)) .hide
  have hx0 := h.nextRow_x (u8 (s.curRow + 1)) .hide
  have hw := (setCursor_sameScreen fw (u8 (s.curRow + 1)) 1 .hide s).2.1
  rw [Os3kTerminal.putGlyph, hwrap]
  refine ⟨?_,rfl,?_,hw⟩
  · change some (_,_) = _
    rw [hx0]
  · intro hne
    change advanceX font (Os3kTerminal.setCursor fw (u8 (s.curRow + 1)) 1 .hide s) = _
    rw [hnext.advanceX_eq (by rw [hx0, hw]; omega), hx0, hw, Nat.zero_add, if_neg hne]

/-- Short of the margin a glyph goes to the cursor's place. -/
theorem lastGlyph_putGlyph (b : ℕ) (mode : CursorMode)
    (hx : (s.cursor.x : ℤ) ≠ s.lcdWidth - 1) :
    lastGlyph (putGlyph fw font b mode s).trace = some (s.cursor.x,s.cursor.y) := by
  rw [putGlyph, wrapOrHide, if_neg hx]
  rfl

theorem OnScreen.output_snoc (h : OnScreen fw font s) (cs : List ℤ) {c : ℤ} (hc : Printing c) :
    FontGeometry.output fw (cs ++ [c]) s =
      Os3kTerminal.putGlyph fw font (u8 c) (FontGeometry.output fw cs s).cursorMode
        (FontGeometry.output fw cs s) := by
  rw [FontGeometry.output, List.foldl_append]
  exact fputc_printing (h.output cs).pCurFont hc

theorem OnScreen.longLineContinues (h : OnScreen fw font s) : LongLineContinues fw font s := by
  intro hx cs hcs hlen
  have hwide := h.wide
  rw [← h.width] at hlen
  obtain rfl | ⟨cs₁,c,rfl⟩ := List.eq_nil_or_concat' cs
  · simp at hlen
  have hlen₁ : cs₁.length = s.lcdWidth / font.maxWidth := by simpa using hlen
  have hcs₁ : ∀ d ∈ cs₁, Printing d := fun d hd => hcs d (List.mem_append_left _ hd)
  have hc : Printing c := hcs c (by simp)
  rw [h.output_snoc cs₁ hc]
  -- the line is full after `n` glyphs; the next one then goes to the next row
  have hfull (l : List ℤ) (hl : ∀ d ∈ l, Printing d)
      (hshort : ∀ k < l.length, k * font.maxWidth < s.lcdWidth - 1)
      (hn : l.length * font.maxWidth = s.lcdWidth ∨ l.length * font.maxWidth = s.lcdWidth - 1)
      (b : ℕ) :
      let v := FontGeometry.output fw l s
      let t := Os3kTerminal.putGlyph fw font b v.cursorMode v
      let y := (Os3kTerminal.setCursor fw (u8 (s.curRow + 1)) 1 .hide s).cursor.y
      lastGlyph t.trace = some (0,y) ∧ t.cursor.y = y ∧
        (font.maxWidth ≠ s.lcdWidth → t.cursor.x = font.maxWidth) ∧ t.lcdWidth = s.lcdWidth := by
    obtain ⟨hsame,hroll,hrow,-,hxl⟩ := h.output_line hx l hl hshort
    have hmargin : (FontGeometry.output fw l s).cursor.x =
        (FontGeometry.output fw l s).lcdWidth - 1 := by
      rw [hxl, hsame.2.1]
      split_ifs <;> omega
    have hput := (h.output l).putGlyph_margin hmargin b (FontGeometry.output fw l s).cursorMode
    rw [hrow, hsame.2.1, setCursor_y_congr h.pCurFont hsame hroll] at hput
    exact hput
  have hdiv := Nat.div_mul_le_self s.lcdWidth font.maxWidth
  have hpos := h.width_pos
  obtain hone | hmore : font.maxWidth = 1 ∨ 2 ≤ font.maxWidth := by omega
  · -- glyphs one pixel wide reach the margin one glyph early
    rw [hone, Nat.div_one] at hlen₁
    obtain rfl | ⟨cs₂,d,rfl⟩ := List.eq_nil_or_concat' cs₁
    · simp at hlen₁
      omega
    have hlen₂ : cs₂.length = s.lcdWidth - 1 := by
      simp at hlen₁
      omega
    have hd : Printing d := hcs₁ d (by simp)
    obtain ⟨-,hy,hx₁,hw⟩ := hfull cs₂ (fun e he => hcs₁ e (List.mem_append_left _ he))
      (fun k hk => by rw [hone]; omega) (Or.inr (by rw [hone]; omega)) (u8 d)
    have hx₁' := hx₁ (by omega)
    refine ⟨1,?_⟩
    rw [h.output_snoc cs₂ hd, lastGlyph_putGlyph _ _ (by omega), hy, hx₁', hone]
  · refine ⟨0,(hfull cs₁ hcs₁ ?_ ?_ (u8 c)).1⟩
    · intro k hk
      have hle : (k + 1) * font.maxWidth ≤ s.lcdWidth :=
        (Nat.mul_le_mul_right _ (by omega)).trans hdiv
      rw [Nat.succ_mul] at hle
      omega
    · rw [hlen₁]
      rcases h.margin with hw | ⟨m,hm⟩
      · exact Or.inl (Nat.div_mul_cancel hw)
      · have hW : s.lcdWidth = font.maxWidth * m + 1 := by omega
        have hq : s.lcdWidth / font.maxWidth = m := by
          rw [hW, Nat.mul_add_div (by omega), Nat.div_eq_of_lt (by omega), Nat.add_zero]
        rw [hq, hm, Nat.mul_comm]
        exact Or.inr rfl

/-! ### The state that text starts from -/

/-- The terminal after `MSG_INIT`, `MSG_SETFOCUS` and `ClearScreen()`. -/
structure Start (fw : Firmware) (font : FontHeader) (s : Os3k) : Prop where
  pCurFont : s.pCurFont = some font
  width : s.lcdWidth = fw.lcdWidth
  lines : s.lcdHeight = 64
  maxRow : s.maxRow = if font.height = 16 then 4 else 8
  maxCol : s.maxCol = columns fw.lcdWidth
  curRow : s.curRow = 1
  curCol : s.curCol = 1
  roll : s.curLcdRoll = 0
  x : s.cursor.x = 0
  y : s.cursor.y = 0
  noGlyph : ∀ x y w h bitmap, Call.drawBitmap x y w h bitmap ∉ s.trace

theorem start_cleared {sys : FontHeader} (hsys : fw.systemFont = some sys)
    (hwidth : fw.lcdWidth < 65536) (hlines : fw.lcdHeight = 64) (s : Os3k) :
    Start fw (selectFont fw sys) (cleared fw s) := by
  have hw : u16 (fw.lcdWidth : ℤ) = fw.lcdWidth := by
    simp only [u16]
    omega
  have hl : u16 ((fw.lcdHeight : ℤ) - (fw.lcdHeight : ℤ) % 2) = 64 := by
    rw [hlines]
    decide
  have hcleared : cleared fw s =
      { pCurFont := some (selectFont fw sys)
        lcdWidth := u16 fw.lcdWidth
        lcdHeight := u16 (fw.lcdHeight - fw.lcdHeight % 2)
        curLcdRoll := 0
        curRow := 1
        curCol := 1
        maxRow := u8 (if (selectFont fw sys).height = 16
          then (u16 (fw.lcdHeight - fw.lcdHeight % 2) : ℤ) / 16
          else (u16 (fw.lcdHeight - fw.lcdHeight % 2) : ℤ) / 8)
        maxCol := u8 ((u16 fw.lcdWidth : ℤ) / 6)
        cursor := { s.cursor with x := 0, y := 0 }
        cursorMode := s.cursorMode
        lcd := ⟨s.lcd.left.command (lcdCmdStartLine 0),s.lcd.right.command (lcdCmdStartLine 0),
          fw.clearScreen (fw.clearScreen s.lcd.ram)⟩
        trace := [.lcdCommand (lcdCmdStartLine 0),.clearScreen,.clearScreen] } := by
    simp only [cleared, clearScreen, beforeApplet, os3kClearScreen, hsys, lcdSetScreenRoll,
      lcdCommand]
  rw [hcleared]
  constructor
  · rfl
  · exact hw
  · exact hl
  · change u8 (if (selectFont fw sys).height = 16
      then (u16 (fw.lcdHeight - fw.lcdHeight % 2) : ℤ) / 16
      else (u16 (fw.lcdHeight - fw.lcdHeight % 2) : ℤ) / 8) = _
    rw [hl]
    split_ifs <;> rfl
  · change u8 ((u16 fw.lcdWidth : ℤ) / 6) = columns fw.lcdWidth
    rw [hw]
    simp only [u8, columns]
    omega
  · rfl
  · rfl
  · rfl
  · rfl
  · rfl
  · intro x y w h bitmap
    simp

/-- The start for a font that fits. -/
theorem Start.onScreen (st : Start fw font s) (hfits : Fits font fw.lcdWidth)
    (hpos : 1 ≤ font.maxWidth) (hbound : fw.lcdWidth < 65536) : OnScreen fw font s := by
  obtain ⟨hheight,hmargin,hcol,hcols⟩ := hfits
  have hwide : 6 ≤ fw.lcdWidth := by
    simp only [columns] at hcol
    omega
  have hcol_lt : columns fw.lcdWidth < 256 := Nat.mod_lt _ (by decide)
  have f : Fitted fw font s := by
    refine ⟨st.pCurFont,st.width,?_,st.lines,?_,?_,?_,hpos,?_,?_,?_,?_⟩
    · rw [st.width]; exact hbound
    · rcases hheight with h | h | h | h | h <;> rw [h] <;> decide
    · rw [st.maxRow]
      split_ifs <;> decide
    · rw [st.maxRow]
      rcases hheight with h | h | h | h | h <;> rw [h] <;> decide
    · rw [st.width]; exact hmargin
    · rw [st.width]; exact hwide
    · rw [st.maxCol]; exact ⟨hcol,hcol_lt⟩
    · rw [st.maxCol, st.width]; exact hcols
  have hroll : WholeRows font s.curLcdRoll := by
    rw [st.roll]
    exact ⟨Int.le_refl 0,by decide,Int.dvd_zero _⟩
  refine ⟨f,hroll,?_,?_,?_,?_,?_,?_,?_⟩
  · rw [st.curRow]
    exact ⟨Nat.le_refl 1,f.maxRow⟩
  · rw [st.curRow, f.cellY_eq hroll (Nat.le_refl 1) f.maxRow, st.roll, st.y]
    simp
  · rw [st.x, st.width]
    omega
  · rw [st.x]
    exact Or.inl (Nat.dvd_zero _)
  · rw [st.curCol]
    decide
  · rw [st.curCol]
    simp
  · intro x y w h bitmap hd
    exact absurd hd (st.noGlyph x y w h bitmap)

/-! ### Fonts that do not fit leave the LCD -/

/-- What a glyph that does not wrap says about its cursor. -/
theorem putGlyph_inside {width b : ℕ} {mode : CursorMode}
    (h : GlyphsInside width (putGlyph fw font b mode s).trace)
    (hx : (s.cursor.x : ℤ) ≠ s.lcdWidth - 1) :
    s.cursor.x + font.maxWidth ≤ width ∧ s.cursor.y + font.height ≤ 64 := by
  rw [putGlyph, wrapOrHide, if_neg hx] at h
  exact h _ _ _ _ (glyphAddress font b) (by simp [drawGlyph, drawBitmap, setCursorMode])

/-- A backspace at home, then a letter: the last column must be on the LCD. -/
theorem Start.cols_of_inside (st : Start fw font s) (hpos : 1 ≤ font.maxWidth)
    (hbound : fw.lcdWidth < 65536)
    (h : GlyphsInside fw.lcdWidth (output fw [8,65] s).trace) :
    1 ≤ columns fw.lcdWidth ∧ (columns fw.lcdWidth - 1) * font.maxWidth ≤ fw.lcdWidth := by
  have hmax : columns fw.lcdWidth < 256 := Nat.mod_lt _ (by decide)
  have hfont := font.maxWidth_lt
  let u := setCursor fw 0 s.maxCol s.cursorMode s
  have hback : (fputc fw 8 stdout s).2 = u := by
    have h8 : u8 8 = 8 := rfl
    have h0 : u8 (((1 : ℕ) : ℤ) - 1) = 0 := rfl
    rw [fputc, if_neg (by simp), fputcStdout]
    simp only [st.pCurFont, h8, backspace, st.curCol, st.curRow, h0]
    rfl
  have hsame : SameScreen s u := setCursor_sameScreen ..
  have hput : (output fw [8,65] s) = putGlyph fw font 65 u.cursorMode u := by
    change (fputc fw 65 stdout (fputc fw 8 stdout s).2).2 = _
    rw [hback]
    exact fputc_printing (hsame.1.trans st.pCurFont) (by decide)
  have hx : u.cursor.x = cellX font s s.maxCol := by
    simp only [u, setCursor, st.pCurFont]
    rfl
  rw [hput] at h
  have hw := hsame.2.1.trans st.width
  rw [cellX, st.maxCol, st.width] at hx
  obtain hzero | hcol : columns fw.lcdWidth = 0 ∨ 1 ≤ columns fw.lcdWidth := by omega
  · -- column 0 lies a glyph's width below 65536
    have hcast : u16 (((columns fw.lcdWidth : ℤ) - 1) * font.maxWidth) = 65536 - font.maxWidth := by
      rw [hzero]
      simp only [u16]
      omega
    have hnarrow : fw.lcdWidth < 65280 := by
      simp only [columns] at hzero
      omega
    rw [hcast, if_neg (by omega)] at hx
    have := (putGlyph_inside h (by omega)).1
    omega
  · refine ⟨hcol,?_⟩
    have hmul : (columns fw.lcdWidth - 1) * font.maxWidth ≤ 254 * 255 :=
      Nat.mul_le_mul (by omega) (by omega)
    have hcast : u16 (((columns fw.lcdWidth : ℤ) - 1) * font.maxWidth) =
        (columns fw.lcdWidth - 1) * font.maxWidth := by
      rw [show (columns fw.lcdWidth : ℤ) - 1 = (columns fw.lcdWidth - 1 : ℕ) by omega,
        ← Nat.cast_mul, u16]
      omega
    by_contra hover
    rw [hcast, if_neg (by omega)] at hx
    have := (putGlyph_inside h (by omega)).1
    omega

/-- One glyph more than fits: the width must reach the margin exactly. -/
theorem Start.margin_of_inside (st : Start fw font s) (hpos : 1 ≤ font.maxWidth)
    (hbound : fw.lcdWidth < 65536)
    (h : ∀ n, GlyphsInside fw.lcdWidth (output fw (List.replicate n 65) s).trace) :
    font.maxWidth ∣ fw.lcdWidth ∨ font.maxWidth ∣ fw.lcdWidth - 1 := by
  by_contra hnone
  obtain ⟨hW,hW₁⟩ := not_or.mp hnone
  have hne (k : ℕ) : k * font.maxWidth ≠ fw.lcdWidth ∧ k * font.maxWidth ≠ fw.lcdWidth - 1 :=
    ⟨fun hk => hW ⟨k,by rw [← hk, Nat.mul_comm]⟩,fun hk => hW₁ ⟨k,by rw [← hk, Nat.mul_comm]⟩⟩
  have hstep (u : Os3k) (hfont : u.pCurFont = some font) :
      (fputc fw 65 stdout u).2 = putGlyph fw font 65 u.cursorMode u :=
    fputc_printing hfont (by decide)
  -- no multiple of the width meets the margin, so the line never wraps
  have hrun (n : ℕ) (hn : n * font.maxWidth ≤ fw.lcdWidth) :
      let u := output fw (List.replicate n 65) s
      u.pCurFont = some font ∧ u.lcdWidth = fw.lcdWidth ∧ u.cursor.x = n * font.maxWidth := by
    induction n with
    | zero => exact ⟨st.pCurFont,st.width,by rw [Nat.zero_mul]; exact st.x⟩
    | succ n ih =>
      have hsucc : (n + 1) * font.maxWidth = n * font.maxWidth + font.maxWidth := Nat.succ_mul _ _
      have := hne n
      have := hne (n + 1)
      obtain ⟨hfont,hwidth,hx⟩ := ih (by omega)
      have hout : output fw (List.replicate (n + 1) 65) s =
          putGlyph fw font 65 (output fw (List.replicate n 65) s).cursorMode
            (output fw (List.replicate n 65) s) := by
        rw [List.replicate_succ', output, List.foldl_append]
        exact hstep _ hfont
      rw [hout, putGlyph, wrapOrHide, if_neg (by rw [hx, hwidth]; omega)]
      have hglyph := hiddenGlyph_sameScreen fw font 65
        (output fw (List.replicate n 65) s).cursorMode (output fw (List.replicate n 65) s)
      refine ⟨hglyph.1.trans hfont,hglyph.2.1.trans hwidth,?_⟩
      change (advanceX font (setCursorMode .hide (output fw (List.replicate n 65) s))) = _
      simp only [advanceX, setCursorMode, hx, hwidth, u16]
      rw [if_neg (by omega)]
      omega
  have hdiv := Nat.div_mul_le_self fw.lcdWidth font.maxWidth
  obtain ⟨hfont,hwidth,hx⟩ := hrun _ hdiv
  have hlast := h (fw.lcdWidth / font.maxWidth + 1)
  rw [List.replicate_succ', output, List.foldl_append] at hlast
  have := hne (fw.lcdWidth / font.maxWidth)
  have hover := (putGlyph_inside (by
    rw [← hstep _ hfont]
    exact hlast) (by rw [hx, hwidth]; omega)).1
  have hmod := Nat.lt_div_mul_add (a := fw.lcdWidth) (b := font.maxWidth) hpos
  omega

/-- The state after `k` line feeds: seven rows down, then one row of roll each. -/
theorem Start.feeds (st : Start fw font s) (h16 : font.height ≠ 16) (hwide : 1 ≤ fw.lcdWidth)
    (k : ℕ) (hk : (k - 7) * font.height < 64) :
    let u := output fw (List.replicate k 10) s
    (u.pCurFont = some font ∧ u.lcdWidth = fw.lcdWidth ∧ u.lcdHeight = 64 ∧ u.maxRow = 8) ∧
      u.curRow = min (k + 1) 8 ∧ u.curLcdRoll = ((k - 7) * font.height : ℕ) ∧
      u.cursor.x = 0 ∧ u.cursor.y = cellY font u u.curRow := by
  induction k with
  | zero =>
    have hrow := st.maxRow
    rw [if_neg h16] at hrow
    refine ⟨⟨st.pCurFont,st.width,st.lines,hrow⟩,st.curRow,?_,st.x,?_⟩
    · rw [Nat.zero_sub, Nat.zero_mul]
      exact st.roll
    · change s.cursor.y = cellY font s s.curRow
      rw [cellY, st.curRow, st.roll, st.y, st.lines]
      simp [u16]
  | succ k ih =>
    have hmono : (k - 7) * font.height ≤ (k + 1 - 7) * font.height :=
      Nat.mul_le_mul_right _ (by omega)
    obtain ⟨⟨hfont,hwidth,hlines,hmax⟩,hrow,hroll,-,-⟩ := ih (by omega)
    intro u
    have hu : u = setCursor fw (min (k + 1) 8 + 1) 1
        (output fw (List.replicate k 10) s).cursorMode (output fw (List.replicate k 10) s) := by
      have h10 : u8 10 = 10 := rfl
      have hnext : u8 (((min (k + 1) 8 : ℕ) : ℤ) + 1) = min (k + 1) 8 + 1 := u8_succ (by omega)
      change output fw (List.replicate (k + 1) 10) s = _
      rw [List.replicate_succ', output, List.foldl_append]
      change (fputc fw 10 stdout (output fw (List.replicate k 10) s)).2 = _
      rw [fputc, if_neg (by simp), fputcStdout]
      simp only [hfont, h10, hrow, hnext]
      rfl
    have hx {v : Os3k} (hv : v.lcdWidth = fw.lcdWidth) : cellX font v 1 = 0 := by
      simp only [cellX, u16, hv]
      rw [if_neg (by simp; omega)]
      simp
    generalize output fw (List.replicate k 10) s = v at hu hfont hwidth hlines hmax hrow hroll
    have hsame := setCursor_sameScreen fw (min (k + 1) 8 + 1) 1 v.cursorMode v
    rw [← hu] at hsame
    refine ⟨⟨hsame.1.trans hfont,hsame.2.1.trans hwidth,hsame.2.2.1.trans hlines,
      hsame.2.2.2.1.trans hmax⟩,?_⟩
    rw [hu]
    simp only [setCursor, hfont]
    rw [if_neg (by omega)]
    obtain hin | hbelow : k < 7 ∨ 7 ≤ k := by omega
    · rw [if_neg (by simp only [setCursorMode, hmax]; omega)]
      refine ⟨?_,?_,hx hwidth,rfl⟩
      · change min (k + 1) 8 + 1 = min (k + 1 + 1) 8
        omega
      · change v.curLcdRoll = _
        rw [hroll, show k - 7 = 0 by omega, show k + 1 - 7 = 0 by omega]
    · have hsucc : (k + 1 - 7) * font.height = (k - 7) * font.height + font.height := by
        rw [show k + 1 - 7 = k - 7 + 1 by omega, Nat.succ_mul]
      rw [if_pos (by simp only [setCursorMode, hmax]; omega)]
      refine ⟨?_,?_,hx hwidth,rfl⟩
      · change v.maxRow = min (k + 1 + 1) 8
        omega
      · change (rollOn font (setCursorMode .hide v)).curLcdRoll = _
        simp only [rollOn, setCursorMode, hroll, hlines, s16]
        rw [if_neg (by omega)]
        omega

/-- Enough line feeds, then a letter: the height must be one that the rows fit. -/
theorem Start.height_of_inside (st : Start fw font s) (hpos : 1 ≤ font.height)
    (hle : font.height ≤ 64) (hwide : 6 ≤ fw.lcdWidth)
    (h : ∀ k, GlyphsInside fw.lcdWidth (output fw (List.replicate k 10 ++ [65]) s).trace) :
    font.height = 1 ∨ font.height = 2 ∨ font.height = 4 ∨ font.height = 8 ∨ font.height = 16 := by
  by_contra hnone
  have h16 : font.height ≠ 16 := by omega
  -- the letter stands `k` rows below line 0, reduced once
  have hlast (k : ℕ) (hk : (k - 7) * font.height < 64) :
      (if 64 ≤ k * font.height then k * font.height - 64 else k * font.height) + font.height ≤
        64 := by
    obtain ⟨⟨hfont,hwidth,hlines,-⟩,hrow,hroll,hx,hy⟩ := st.feeds h16 (by omega) k hk
    have hglyph := h k
    rw [output, List.foldl_append] at hglyph
    change GlyphsInside _ (fputc fw 65 stdout (output fw (List.replicate k 10) s)).2.trace at hglyph
    rw [fputc_printing hfont (by decide)] at hglyph
    have hin := (putGlyph_inside hglyph (by rw [hx, hwidth]; omega)).2
    have hsum : (((min (k + 1) 8 : ℕ) : ℤ) - 1) * font.height + ((k - 7) * font.height : ℕ) =
        (k * font.height : ℕ) := by
      rw [show ((min (k + 1) 8 : ℕ) : ℤ) - 1 = (min k 7 : ℕ) by omega, ← Nat.cast_mul,
        ← Nat.cast_add, ← Nat.add_mul, show min k 7 + (k - 7) = k by omega]
    have hsmall : k * font.height < 65536 := by
      have hsplit : k * font.height ≤ (7 + (k - 7)) * font.height :=
        Nat.mul_le_mul_right _ (by omega)
      rw [Nat.add_mul] at hsplit
      omega
    have hreduced : u16 ((k * font.height : ℕ) : ℤ) = k * font.height := by
      simp only [u16]
      omega
    rw [hy, hrow, cellY, hroll, hsum, hreduced, hlines] at hin
    refine Nat.le_trans (Nat.add_le_add_right ?_ _) hin
    split_ifs
    · simp only [u16]
      omega
    · exact Nat.le_refl _
  obtain hlow | hhigh : font.height ≤ 15 ∨ 17 ≤ font.height := by omega
  · have hmul := Nat.div_mul_le_self 64 font.height
    have hover := Nat.lt_div_mul_add (a := 64) (b := font.height) hpos
    have hsub : (64 / font.height - 7) * font.height ≤ 64 / font.height * font.height :=
      Nat.mul_le_mul_right _ (Nat.sub_le _ _)
    have hne : 64 / font.height * font.height ≠ 64 := by
      intro heq
      have hcases : ∀ n < 16, 64 / n * n = 64 → n = 1 ∨ n = 2 ∨ n = 4 ∨ n = 8 ∨ n = 16 := by
        decide
      exact hnone (hcases font.height (by omega) heq)
    have := hlast (64 / font.height) (by omega)
    rw [if_neg (by omega)] at this
    omega
  · have := hlast 7 (by simp)
    rw [if_pos (by omega)] at this
    omega

/-! ### The exact condition -/

/-- Text stays on the LCD for the fonts that fit, and for no others. -/
theorem textStays_iff_fits {sys : FontHeader} (hsys : fw.systemFont = some sys)
    (hheight : 1 ≤ (selectFont fw sys).height ∧ (selectFont fw sys).height ≤ 64)
    (hwidth : 1 ≤ (selectFont fw sys).maxWidth ∧ (selectFont fw sys).maxWidth ≤ fw.lcdWidth)
    (hbound : fw.lcdWidth < 65536) (hlines : fw.lcdHeight = 64) (s : Os3k) :
    TextStays fw (selectFont fw sys) (cleared fw s) ↔ Fits (selectFont fw sys) fw.lcdWidth := by
  have st := start_cleared hsys hbound hlines s
  constructor
  · intro h
    have hcols := st.cols_of_inside hwidth.1 hbound (h _).1
    have hwide : 6 ≤ fw.lcdWidth := by
      have := hcols.1
      simp only [columns] at this
      omega
    exact ⟨st.height_of_inside hheight.1 hheight.2 hwide fun k => (h _).1,
      st.margin_of_inside hwidth.1 hbound fun n => (h _).1,hcols⟩
  · intro hfits cs
    have hon := (st.onScreen hfits hwidth.1 hbound).output cs
    exact ⟨hon.inside,hon.rowsApart,hon.longLineContinues⟩

/-- The Neo's Terminal font fits its LCD. -/
theorem textStays_iff_fits_neo :
    TextStays neoFirmware neoFont
      (cleared neoFirmware (bss ⟨⟨0,false⟩,⟨0,false⟩,fun _ _ => false⟩)) :=
  (textStays_iff_fits (rfl : neoFirmware.systemFont = some neoFont) (by decide) (by decide)
    (by decide) rfl _).mpr
    ⟨by decide,Or.inl (by decide),by decide,by decide⟩

/-- A system font of height 12 on the Neo's LCD: the sixth row's lines 60 to 71
pass the end of the memory. -/
def tallFont : FontHeader :=
  { neoFont with height := 12, maxBytes := 12, height_lt := by decide, maxBytes_lt := by decide }

def tallFirmware : Firmware := solidFirmware (some tallFont) none 264 64

theorem tallFont_leaves_lcd :
    let s := cleared tallFirmware (bss ⟨⟨0,false⟩,⟨0,false⟩,fun _ _ => false⟩)
    Call.drawBitmap 0 60 6 12 780 ∈ (output tallFirmware [10,10,10,10,10,65] s).trace ∧
      ¬ TextStays tallFirmware tallFont s := by
  intro s
  have hdraw : Call.drawBitmap 0 60 6 12 780 ∈
      (output tallFirmware [10,10,10,10,10,65] s).trace := by decide +kernel
  refine ⟨hdraw,fun h => ?_⟩
  have := ((h [10,10,10,10,10,65]).1 _ _ _ _ _ hdraw).2
  omega

end Betawise.FontGeometry
