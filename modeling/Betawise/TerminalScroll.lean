import Betawise.TerminalGeometry

/-!
# `SetCursor` in the Terminal-font geometry

Inside the screen `SetCursor` moves the cursor and leaves the picture alone. A
row outside the screen scrolls it by one row. The row that the scroll exposes is
the one that just left at the other end, and the erase that follows starts at
the cursor's column, so it blanks the exposed row from that column on.
-/
namespace Betawise.TerminalScroll
open Os3kState Os3kTerminal TerminalGeometry

variable {fw : Firmware} {font : FontHeader} {s : Os3k}

/-- A coherent state with the cursor on a given cell. -/
structure AtCell (fw : Firmware) (font : FontHeader) (r c : ℕ) (s : Os3k) : Prop
    extends Coherent fw font s where
  curRow : s.curRow = r
  curCol : s.curCol = c

/-- The globals that no terminal operation changes. -/
def SameScreen (s t : Os3k) : Prop :=
  t.pCurFont = s.pCurFont ∧ t.lcdWidth = s.lcdWidth ∧ t.lcdHeight = s.lcdHeight ∧
    t.maxRow = s.maxRow ∧ t.maxCol = s.maxCol

theorem SameScreen.refl (s : Os3k) : SameScreen s s := ⟨rfl,rfl,rfl,rfl,rfl⟩

theorem SameScreen.trans {s t u : Os3k} (h : SameScreen s t) (h' : SameScreen t u) :
    SameScreen s u :=
  ⟨h'.1.trans h.1,h'.2.1.trans h.2.1,h'.2.2.1.trans h.2.2.1,h'.2.2.2.1.trans h.2.2.2.1,
    h'.2.2.2.2.trans h.2.2.2.2⟩

theorem setCursorMode_sameScreen (mode : CursorMode) (s : Os3k) :
    SameScreen s (setCursorMode mode s) := .refl _

theorem placeCursor_sameScreen (font : FontHeader) (row col : ℕ) (s : Os3k) :
    SameScreen s (placeCursor font row col s) := .refl _

theorem drawGlyph_sameScreen (fw : Firmware) (font : FontHeader) (b : ℕ) (s : Os3k) :
    SameScreen s (drawGlyph fw font b s) := .refl _

/-- A glyph drawn with the cursor hidden. -/
theorem hiddenGlyph_sameScreen (fw : Firmware) (font : FontHeader) (b : ℕ) (mode : CursorMode)
    (s : Os3k) :
    SameScreen s (setCursorMode mode (drawGlyph fw font b (setCursorMode .hide s))) :=
  (setCursorMode_sameScreen .hide s).trans <| (drawGlyph_sameScreen fw font b _).trans <|
    setCursorMode_sameScreen mode _

theorem lcdAllPixOn_sameScreen (enable : Bool) (s : Os3k) :
    SameScreen s (lcdAllPixOn enable s) := .refl _

theorem sleepCentimilliseconds_sameScreen (n : ℕ) (s : Os3k) :
    SameScreen s (sleepCentimilliseconds n s) := .refl _

/-- What follows a roll. -/
theorem scroll_sameScreen (fw : Firmware) (font : FontHeader) (row col : ℕ) (mode : CursorMode)
    {s t : Os3k} (h : SameScreen s t) :
    SameScreen s
      (setCursorMode mode (clearRow fw font (placeCursor font row col (sendRoll t)))) := by
  have hsend : SameScreen t (sendRoll t) := .refl _
  have hclear (u : Os3k) : SameScreen u (clearRow fw font u) := .refl _
  exact h.trans <| hsend.trans <| (placeCursor_sameScreen font row col _).trans <|
    (hclear _).trans <| setCursorMode_sameScreen mode _

theorem setCursor_sameScreen (fw : Firmware) (row col : ℕ) (mode : CursorMode) (s : Os3k) :
    SameScreen s (setCursor fw row col mode s) := by
  unfold setCursor
  split
  · exact .refl _
  · rename_i font _
    dsimp only
    have hhide := setCursorMode_sameScreen .hide s
    split_ifs
    · have hroll : SameScreen (setCursorMode .hide s) (rollBack font (setCursorMode .hide s)) :=
        .refl _
      exact scroll_sameScreen fw font 1 col mode (hhide.trans hroll)
    · have hroll : SameScreen (setCursorMode .hide s) (rollOn font (setCursorMode .hide s)) :=
        .refl _
      exact scroll_sameScreen fw font _ col mode (hhide.trans hroll)
    · exact hhide.trans <| (placeCursor_sameScreen font row col _).trans <|
        setCursorMode_sameScreen mode _

theorem bell_sameScreen (mode : CursorMode) (s : Os3k) : SameScreen s (bell mode s) :=
  (setCursorMode_sameScreen .hide s).trans <| (lcdAllPixOn_sameScreen true _).trans <|
    (sleepCentimilliseconds_sameScreen 10000 _).trans <| (lcdAllPixOn_sameScreen false _).trans <|
      setCursorMode_sameScreen mode _

theorem fputcStdout_sameScreen (fw : Firmware) {font : FontHeader} {s : Os3k}
    (hfont : s.pCurFont = some font) (b : ℕ) :
    SameScreen s (emit fw s b) ∧ (fputcStdout fw b s).1 = b := by
  unfold emit fputcStdout
  simp only [hfont]
  split_ifs
  · exact ⟨bell_sameScreen ..,rfl⟩
  · refine ⟨?_,rfl⟩
    unfold backspace
    split_ifs <;> exact setCursor_sameScreen ..
  · exact ⟨setCursor_sameScreen ..,rfl⟩
  · exact ⟨setCursor_sameScreen ..,rfl⟩
  · refine ⟨?_,rfl⟩
    have hwrap : SameScreen s (wrapOrHide fw s) := by
      unfold wrapOrHide
      split_ifs
      · exact setCursor_sameScreen ..
      · exact setCursorMode_sameScreen .hide s
    exact hwrap.trans <| (drawGlyph_sameScreen fw font b _).trans <| setCursorMode_sameScreen _ _

theorem clearScreen_sameScreen (fw : Firmware) {font : FontHeader} {s : Os3k}
    (hfont : s.pCurFont = some font) : SameScreen s (clearScreen fw s) := by
  simp only [clearScreen, os3kClearScreen, hfont]
  exact ⟨hfont.symm,rfl,rfl,rfl,rfl⟩

/-! ### The three cases of `SetCursor` -/

theorem setCursor_inside (g : Geometry fw font s) (r : Rolled font s) {row col : ℕ}
    (hrow : 1 ≤ row ∧ row ≤ s.maxRow) (hcol : 1 ≤ col ∧ col ≤ s.maxCol + 1) (mode : CursorMode) :
    AtCell fw font row col (setCursor fw row col mode s) ∧
      picture (setCursor fw row col mode s) = picture s := by
  have hset : setCursor fw row col mode s =
      setCursorMode mode (placeCursor font row col (setCursorMode .hide s)) := by
    simp only [setCursor, g.pCurFont]
    rw [if_neg (by omega), if_neg (by simp only [setCursorMode]; omega)]
  have g₁ : Geometry fw font (setCursorMode .hide s) := g.of_fields rfl rfl rfl rfl rfl
  have r₁ : Rolled font (setCursorMode .hide s) := r.of_fields rfl rfl rfl
  rw [hset]
  exact ⟨⟨coherent_setCursorMode (coherent_placeCursor g₁ r₁ hrow hcol) mode,rfl,rfl⟩,rfl⟩

/-- The part of `SetCursor` that follows a roll: the cursor goes to the exposed
row, which is blanked from the cursor's column on. -/
theorem placeCursor_clearRow (g : Geometry fw font s) (r : Rolled font s) {row col : ℕ}
    (hrow : 1 ≤ row ∧ row ≤ s.maxRow) (hcol : 1 ≤ col ∧ col ≤ s.maxCol) (mode : CursorMode) :
    AtCell fw font row col (setCursorMode mode (clearRow fw font (placeCursor font row col s))) ∧
      ∀ line < 64, ∀ c < s.lcdWidth,
        picture (setCursorMode mode (clearRow fw font (placeCursor font row col s))) line c =
          if line / font.height = row - 1 ∧ (col - 1) * 6 ≤ c then false else picture s line c := by
  have c₁ : Coherent fw font (placeCursor font row col s) :=
    coherent_placeCursor g r hrow ⟨hcol.1,Nat.le_succ_of_le hcol.2⟩
  refine ⟨⟨coherent_setCursorMode (coherent_clearRow c₁) mode,rfl,rfl⟩,?_⟩
  intro line hline c hc
  exact c₁.picture_clearRow hcol.2 hline hc

/-- A row below the last: the picture moves up by one row. -/
theorem setCursor_below (g : Geometry fw font s) (r : Rolled font s) {row col : ℕ}
    (hrow : s.maxRow < row) (hcol : 1 ≤ col ∧ col ≤ s.maxCol) (mode : CursorMode) :
    AtCell fw font s.maxRow col (setCursor fw row col mode s) ∧
      ∀ line < 64, ∀ c < s.lcdWidth, picture (setCursor fw row col mode s) line c =
        if line + font.height < 64 then picture s (line + font.height) c
        else if (col - 1) * 6 ≤ c then false
        else picture s (line + font.height - 64) c := by
  let s₁ := setCursorMode .hide s
  let s₂ := sendRoll (rollOn font s₁)
  have hset : setCursor fw row col mode s =
      setCursorMode mode (clearRow fw font (placeCursor font s.maxRow col s₂)) := by
    simp only [setCursor, g.pCurFont]
    rw [if_neg (by omega), if_pos (by simp only [setCursorMode]; omega)]
    rfl
  have g₁ : Geometry fw font s₁ := g.of_fields rfl rfl rfl rfl rfl
  have r₁ : Rolled font s₁ := r.of_fields rfl rfl rfl
  obtain ⟨hat,hpicture⟩ := placeCursor_clearRow (g₁.of_fields (t := s₂) rfl rfl rfl rfl rfl)
    (rolled_rollOn g₁ r₁) ⟨g.maxRow_pos,Nat.le_refl s.maxRow⟩ hcol mode
  rw [hset]
  refine ⟨hat,?_⟩
  intro line hline c hc
  -- the last row of the display is the one the roll wraps around
  have hlast : line / font.height = s.maxRow - 1 ↔ ¬ line + font.height < 64 := by
    have hmul := g.rows_mul
    rcases g.height with h | h <;> rw [h] at hmul ⊢ <;> omega
  have hroll : picture s₂ line c = if line + font.height < 64
      then picture s (line + font.height) c else picture s (line + font.height - 64) c :=
    picture_rollOn g₁ r₁ line c
  rw [hpicture line hline c hc, hroll]
  simp only [hlast]
  by_cases hup : line + font.height < 64 <;> simp [hup]

/-- A row above the first: the picture moves down by one row. -/
theorem setCursor_above (g : Geometry fw font s) (r : Rolled font s) {col : ℕ}
    (hcol : 1 ≤ col ∧ col ≤ s.maxCol) (mode : CursorMode) :
    AtCell fw font 1 col (setCursor fw 0 col mode s) ∧
      ∀ line < 64, ∀ c < s.lcdWidth, picture (setCursor fw 0 col mode s) line c =
        if line < font.height then
          if (col - 1) * 6 ≤ c then false else picture s (line + (64 - font.height)) c
        else picture s (line - font.height) c := by
  let s₁ := setCursorMode .hide s
  let s₂ := sendRoll (rollBack font s₁)
  have hset : setCursor fw 0 col mode s =
      setCursorMode mode (clearRow fw font (placeCursor font 1 col s₂)) := by
    simp only [setCursor, g.pCurFont]
    rw [if_pos (by omega)]
  have g₁ : Geometry fw font s₁ := g.of_fields rfl rfl rfl rfl rfl
  have r₁ : Rolled font s₁ := r.of_fields rfl rfl rfl
  obtain ⟨hat,hpicture⟩ := placeCursor_clearRow (g₁.of_fields (t := s₂) rfl rfl rfl rfl rfl)
    (rolled_rollBack g₁ r₁) ⟨Nat.le_refl 1,g.maxRow_pos⟩ hcol mode
  rw [hset]
  refine ⟨hat,?_⟩
  intro line hline c hc
  have hfirst : line / font.height = 1 - 1 ↔ line < font.height := by
    rcases g.height with h | h <;> rw [h] <;> omega
  have hroll : picture s₂ line c = if line < font.height
      then picture s (line + (64 - font.height)) c else picture s (line - font.height) c :=
    picture_rollBack g₁ r₁ line c
  rw [hpicture line hline c hc, hroll]
  simp only [hfirst]
  by_cases hup : line < font.height <;> simp [hup]

/-! ### Glyphs -/

/-- A glyph left of the margin moves the cursor to the next column. -/
theorem AtCell.drawGlyph {row col : ℕ} (h : AtCell fw font row col s) (hcol : col ≤ s.maxCol)
    (hlt : col ≤ 254) (b : ℕ) :
    AtCell fw font row (col + 1) (drawGlyph fw font b s) := by
  have hcur := h.curCol
  have hpos := h.col.1
  have hnext : u8 ((s.curCol : ℤ) + 1) = s.curCol + 1 := u8_succ (by omega)
  have g₁ : Geometry fw font (Os3kTerminal.drawGlyph fw font b s) :=
    h.toGeometry.of_fields rfl rfl rfl rfl rfl
  have hx : (Os3kTerminal.drawGlyph fw font b s).cursor.x = cellX font s (s.curCol + 1) :=
    h.toGeometry.advanceX_eq hpos (by omega) h.x
  refine ⟨⟨g₁,h.toRolled.of_fields rfl rfl rfl,h.row,?_,?_,h.y⟩,h.curRow,?_⟩
  · change 1 ≤ u8 ((s.curCol : ℤ) + 1) ∧ u8 ((s.curCol : ℤ) + 1) ≤ s.maxCol + 1
    rw [hnext]
    omega
  · change _ = cellX font s (u8 ((s.curCol : ℤ) + 1))
    rw [hnext, hx]
  · change u8 ((s.curCol : ℤ) + 1) = col + 1
    rw [hnext, hcur]

/-- The library's test for the right margin. -/
theorem AtCell.margin_iff {row col : ℕ} (h : AtCell fw font row col s) :
    (s.cursor.x : ℤ) = s.lcdWidth - 1 ↔ col = s.maxCol + 1 := by
  have hcol := h.col
  have hwidth := h.width
  have hcols := h.cols
  rw [h.x, ← h.curCol]
  by_cases hlast : s.curCol = s.maxCol + 1
  · rw [hlast, h.toGeometry.cellX_margin]
    omega
  · rw [h.toGeometry.cellX_eq hcol.1 (by omega)]
    omega

/-! ### `MSG_SETFOCUS` and `ClearScreen` -/

/-- The geometry that the library computes when the applet gets the focus. -/
theorem geometry_setFocus {sys : FontHeader} (hsys : fw.systemFont = some sys)
    (hwidth : (selectFont fw sys).maxWidth = 6)
    (hheight : (selectFont fw sys).height = 8 ∨ (selectFont fw sys).height = 16) {n : ℕ}
    (hn : 1 ≤ n ∧ n ≤ 255) (hw : fw.lcdWidth = 6 * n) (hl : fw.lcdHeight = 64) (s : Os3k) :
    Geometry fw (selectFont fw sys)
      (beforeApplet fw .setFocus (beforeApplet fw .init s)) := by
  have hlcd : u16 (fw.lcdWidth : ℤ) = 6 * n := by
    simp only [u16, hw]
    omega
  have hcols : u8 ((6 * n : ℕ) / 6 : ℕ) = n := by
    rw [Nat.mul_div_cancel_left n (by decide), u8_natCast (by omega)]
  have hlines : u16 ((fw.lcdHeight : ℤ) - (fw.lcdHeight : ℤ) % 2) = 64 := by rw [hl]; decide
  simp only [beforeApplet, os3kClearScreen, hsys]
  refine ⟨rfl,hwidth,hheight,?_,?_,hlines,?_,?_,hl⟩
  · change u16 (fw.lcdWidth : ℤ) = 6 * u8 ((u16 (fw.lcdWidth : ℤ) : ℤ) / 6)
    rw [hlcd]
    exact_mod_cast congrArg (6 * ·) hcols.symm
  · change 1 ≤ u8 ((u16 (fw.lcdWidth : ℤ) : ℤ) / 6) ∧ u8 ((u16 (fw.lcdWidth : ℤ) : ℤ) / 6) ≤ 255
    rw [hlcd]
    rw [show u8 (((6 * n : ℕ) : ℤ) / 6) = n from by exact_mod_cast hcols]
    exact hn
  · simp only [hlines]
    rcases hheight with h | h <;> simp [h, u8]
  · exact hw.trans hlcd.symm

/-- The Terminal font of the Neo: six by eight pixels. -/
def neoFont : FontHeader := ⟨8,6,6,0,by decide,by decide,by decide⟩

/-- The Neo's LCD, with a firmware that draws every glyph solid. -/
def neoFirmware : Firmware := solidFirmware (some neoFont) (some neoFont) 264 64

/-- A Neo applet that has just been given the focus for the first time. -/
def neoFocused : Os3k :=
  beforeApplet neoFirmware .setFocus
    (beforeApplet neoFirmware .init (bss ⟨⟨0,false⟩,⟨0,false⟩,fun _ _ => false⟩))

theorem geometry_neoFocused : Geometry neoFirmware neoFont neoFocused :=
  geometry_setFocus (rfl : neoFirmware.systemFont = some neoFont) rfl (Or.inl rfl) (n := 44)
    (by decide) rfl rfl _

/-- `ClearScreen` leaves a blank picture, unrolled, with the cursor at home. -/
theorem clearScreen_home (g : Geometry fw font s) :
    AtCell fw font 1 1 (clearScreen fw s) ∧
      ∀ line col, picture (clearScreen fw s) line col = false := by
  have hclear : clearScreen fw s = lcdSetScreenRoll 0
      { os3kClearScreen fw s with curRow := 1, curCol := 1, curLcdRoll := 0 } := by
    simp only [clearScreen, os3kClearScreen, g.pCurFont]
  have g₁ : Geometry fw font (clearScreen fw s) := by
    rw [hclear]
    exact g.of_fields rfl rfl rfl rfl rfl
  have r₁ : Rolled font (clearScreen fw s) := by
    rw [hclear]
    refine ⟨Int.le_refl 0,(by decide : (0 : ℤ) < 64),Int.dvd_zero _,?_,?_⟩ <;>
      simp [lcdSetScreenRoll, lcdCommand]
  have hcol := g.cols
  have hrow := g.maxRow_pos
  refine ⟨⟨⟨g₁,r₁,?_,?_,?_,?_⟩,?_,?_⟩,?_⟩
  · rw [hclear]
    exact ⟨Nat.le_refl 1,hrow⟩
  · rw [hclear]
    exact ⟨Nat.le_refl 1,Nat.le_add_left 1 _⟩
  · have hx := g₁.cellX_eq (Nat.le_refl 1) g₁.cols.1
    rw [hclear] at hx ⊢
    exact hx.symm
  · have hy := g₁.cellY_eq r₁ (Nat.le_refl 1) g₁.maxRow_pos
    rw [hclear] at hy ⊢
    rw [show (lcdSetScreenRoll 0 { os3kClearScreen fw s with
      curRow := 1, curCol := 1, curLcdRoll := 0 }).curRow = 1 from rfl, hy]
    simp [lcdSetScreenRoll, lcdCommand, os3kClearScreen, CircularLines.memoryLine]
  · rw [hclear]
    rfl
  · rw [hclear]
    rfl
  · intro line col
    rw [hclear]
    exact fw.clearScreen_apply _ _ _

/-! ### A scroll exposes one row -/

/-- The picture moved up (`row` below the last) or down (`row` above the first)
by one row, the exposed row blank over its whole width. -/
def Scrolled (height width : ℕ) (up : Prop) [Decidable up]
    (old new : ℕ → ℕ → Bool) : Prop :=
  ∀ line < 64, ∀ c < width, new line c =
    if up then if line + height < 64 then old (line + height) c else false
    else if line < height then false else old (line - height) c

/-- `SetCursor` to a row off the screen exposes a blank row there, disturbs
nothing else, and leaves the cursor in that row at the column asked for. -/
def ExposesBlankRow (fw : Firmware) (font : FontHeader) (row col : ℕ) (mode : CursorMode)
    (s : Os3k) : Prop :=
  let t := setCursor fw row col mode s
  Scrolled font.height s.lcdWidth (s.maxRow < row) (displayed s) (displayed t) ∧
    AtCell fw font (if s.maxRow < row then s.maxRow else 1) col t

/-- The row about to leave the screen shows nothing left of column `col`. -/
def LeavingRowBlank (font : FontHeader) (row col : ℕ) (s : Os3k) : Prop :=
  ∀ line < font.height, ∀ c < (col - 1) * 6,
    displayed s (if s.maxRow < row then line else line + (64 - font.height)) c = false

/-- The exposed row is the row that left, erased from the cursor's column on:
it is blank exactly if that row was already blank left of the column. -/
theorem scroll_exposesBlankRow_iff (co : Coherent fw font s) {row col : ℕ}
    (hrow : row < 1 ∨ s.maxRow < row) (hcol : 1 ≤ col ∧ col ≤ s.maxCol) (mode : CursorMode) :
    ExposesBlankRow fw font row col mode s ↔ LeavingRowBlank font row col s := by
  have hwidth : (col - 1) * 6 < s.lcdWidth := by
    have := co.width
    omega
  have hh := Nat.le_of_dvd (by decide) co.height_dvd
  have hold : displayed s = picture s := funext₂ co.displayed_eq
  unfold ExposesBlankRow LeavingRowBlank Scrolled
  dsimp only
  rw [hold]
  by_cases hup : s.maxRow < row
  · obtain ⟨hat,hpicture⟩ := setCursor_below co.toGeometry co.toRolled hup hcol mode
    rw [show displayed (setCursor fw row col mode s) = _ from funext₂ hat.displayed_eq]
    simp only [hup, if_true]
    constructor
    · rintro ⟨h,-⟩ line hline c hc
      have h₁ := h (line + (64 - font.height)) (by omega) c (by omega)
      rw [hpicture _ (by omega) c (by omega), if_neg (by omega), if_neg (by omega),
        if_neg (by omega)] at h₁
      rwa [show line + (64 - font.height) + font.height - 64 = line by omega] at h₁
    · intro h
      refine ⟨?_,hat⟩
      intro line hline c hc
      rw [hpicture line hline c hc]
      split_ifs with h₁ h₂
      · rfl
      · rfl
      · exact h (line + font.height - 64) (by omega) c (by omega)
  · obtain rfl : row = 0 := by omega
    obtain ⟨hat,hpicture⟩ := setCursor_above co.toGeometry co.toRolled hcol mode
    rw [show displayed (setCursor fw 0 col mode s) = _ from funext₂ hat.displayed_eq]
    simp only [hup, if_false]
    constructor
    · rintro ⟨h,-⟩ line hline c hc
      have h₁ := h line (by omega) c (by omega)
      rwa [hpicture _ (by omega) c (by omega), if_pos hline, if_neg (by omega),
        if_pos hline] at h₁
    · intro h
      refine ⟨?_,hat⟩
      intro line hline c hc
      rw [hpicture line hline c hc]
      split_ifs with h₁ h₂
      · rfl
      · exact h line h₁ c (by omega)
      · rfl

/-- A Neo screen with a letter at the left end of the bottom row. -/
def bottomLetter : Os3k :=
  drawGlyph neoFirmware neoFont 65
    (setCursor neoFirmware 8 1 .hide (clearScreen neoFirmware neoFocused))

/-- The cursor then goes home. -/
def bottomLetterHome : Os3k := setCursor neoFirmware 1 1 .hide bottomLetter

theorem coherent_bottomLetterHome : Coherent neoFirmware neoFont bottomLetterHome := by
  have g : Geometry neoFirmware neoFont bottomLetter :=
    geometry_neoFocused.of_fields rfl rfl rfl rfl rfl
  have r : Rolled neoFont bottomLetter := by
    constructor <;> decide
  have hrow : 1 ≤ 1 ∧ 1 ≤ bottomLetter.maxRow := by decide
  have hcol : 1 ≤ 1 ∧ 1 ≤ bottomLetter.maxCol + 1 := by decide
  exact (setCursor_inside g r hrow hcol .hide).1.toCoherent

/-- A line feed at the bottom of the cleared screen exposes a blank row. -/
theorem scroll_exposesBlankRow_iff_neo :
    ExposesBlankRow neoFirmware neoFont 9 1 .hide bottomLetterHome :=
  (scroll_exposesBlankRow_iff coherent_bottomLetterHome (by decide) (by decide) .hide).mpr
    (fun _ _ _ hc => absurd hc (Nat.not_lt_zero _))

/-- The backspace at home asks for column 44 of row 0. The old bottom row comes
back at the top, and its letter stays: only the last cell of the row is erased. -/
theorem backspace_home_exposes_old_row :
    Coherent neoFirmware neoFont bottomLetterHome ∧
      (putchar neoFirmware 8 bottomLetterHome).2 =
        setCursor neoFirmware 0 44 .hide bottomLetterHome ∧
      displayed (setCursor neoFirmware 0 44 .hide bottomLetterHome) 0 0 = true ∧
      ¬ ExposesBlankRow neoFirmware neoFont 0 44 .hide bottomLetterHome := by
  have hpixel : displayed (setCursor neoFirmware 0 44 .hide bottomLetterHome) 0 0 = true := by
    decide
  refine ⟨coherent_bottomLetterHome,rfl,hpixel,?_⟩
  intro h
  have hblank := h.1 0 (by decide) 0 (by decide)
  rw [if_neg (by decide), if_pos (by decide), hpixel] at hblank
  exact Bool.noConfusion hblank

end Betawise.TerminalScroll
