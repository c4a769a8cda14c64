import Betawise.EventRuns
import Betawise.FontGeometry

/-!
# Runs of an applet that gains and loses the focus

Three copies of the same fact must agree: the start line of the LCD controllers
with `g_CurLcdRoll`, and the firmware's cursor with `g_CurRow` and `g_CurCol`.
`ClearScreen` writes all of them. `MSG_KILLFOCUS` rewrites only the controllers
and `MSG_SETFOCUS` only the firmware's cursor, so the agreement depends on what
the globals hold when the focus comes back. The run theorem gives the exact
condition for any font, any LCD and any order of events.
-/
namespace Betawise.FocusRuns
open Os3kState Os3kTerminal TerminalScroll FontGeometry EventRuns

/-! ### Sessions -/

/-- A message delivered to `BwProcessMessage`, or a library call the applet makes
while it handles one. Arguments are converted as C converts them. -/
inductive Event where
  | setFocus
  | killFocus
  | setCursor (row col : ℤ) (mode : CursorMode)
  | clearScreen
  | fputc (c : ℤ)

structure Session where
  focused : Bool
  os3k : Os3k

def step (fw : Firmware) (σ : Session) : Event → Session
  | .setFocus => ⟨true,beforeApplet fw .setFocus σ.os3k⟩
  | .killFocus => ⟨false,beforeApplet fw .killFocus σ.os3k⟩
  | .setCursor row col mode => ⟨σ.focused,setCursor fw (u8 row) (u8 col) mode σ.os3k⟩
  | .clearScreen => ⟨σ.focused,clearScreen fw σ.os3k⟩
  | .fputc c => ⟨σ.focused,(fputc fw c stdout σ.os3k).2⟩

/-- Both controllers start at `g_CurLcdRoll`, and the firmware's cursor stands on
the cell of `g_CurRow` and `g_CurCol`. -/
structure Agrees (font : FontHeader) (s : Os3k) : Prop where
  pCurFont : s.pCurFont = some font
  left : (s.lcd.left.startLine : ℤ) = s.curLcdRoll
  right : (s.lcd.right.startLine : ℤ) = s.curLcdRoll
  x : s.cursor.x = cellX font s s.curCol
  y : s.cursor.y = cellY font s s.curRow

/-- What is asked of a session: agreement whenever the applet has the focus. -/
def AgreesInFocus (σ : Session) : Prop :=
  σ.focused = true → ∃ font, Agrees font σ.os3k

/-! ### The condition on each event -/

/-- A scroll to `row` ends on a roll that fits the six bits of the start line. -/
def ScrollFits (font : FontHeader) (row : ℕ) (s : Os3k) : Prop :=
  if row < 1 then
    font.height ≤ s.curLcdRoll ∨
      font.height ≤ s.lcdHeight + s.curLcdRoll ∧ s.lcdHeight + s.curLcdRoll < font.height + 64
  else if s.maxRow < row then
    if s.curLcdRoll + font.height < s.lcdHeight then s.curLcdRoll + font.height < 64
    else s.curLcdRoll + font.height < s.lcdHeight + 64
  else True

instance (font : FontHeader) (row : ℕ) (s : Os3k) : Decidable (ScrollFits font row s) := by
  unfold ScrollFits
  infer_instance

/-- The right margin, where the next glyph goes to the next row first. -/
def AtMargin (s : Os3k) : Prop := (s.cursor.x : ℤ) = s.lcdWidth - 1

instance (s : Os3k) : Decidable (AtMargin s) := inferInstanceAs (Decidable (_ = _))

/-- The condition for one byte: a scroll it causes fits, and `g_CurCol` is not
counted past 255. -/
def ByteFits (font : FontHeader) (b : ℕ) (s : Os3k) : Prop :=
  if b = 0x07 then True
  else if b = 0x08 then
    ScrollFits font (if s.curCol > 1 then s.curRow else u8 ((s.curRow : ℤ) - 1)) s
  else if b = 0x0A then ScrollFits font (u8 (s.curRow + 1)) s
  else if b = 0x0D then ScrollFits font s.curRow s
  else if AtMargin s then ScrollFits font (u8 (s.curRow + 1)) s
  else s.curCol = 255 → font.maxWidth = 0

/-- `MSG_SETFOCUS` homes the firmware's cursor and nothing else: the globals must
already say that the start line is the roll and that the cursor is at the origin. -/
def OriginShadowed (font : FontHeader) (s : Os3k) : Prop :=
  (s.lcd.left.startLine : ℤ) = s.curLcdRoll ∧ (s.lcd.right.startLine : ℤ) = s.curLcdRoll ∧
    cellX font s s.curCol = 0 ∧ cellY font s s.curRow = 0

/-- The condition on an event in the state that receives it. Calls made without
the focus are free. -/
def Keeps (fw : Firmware) (σ : Session) : Event → Prop
  | .setFocus => ∀ font, σ.os3k.pCurFont = some font → OriginShadowed (selectFont fw font) σ.os3k
  | .killFocus => True
  | .clearScreen => True
  | .setCursor row _ _ =>
    σ.focused = true → ∀ font, σ.os3k.pCurFont = some font → ScrollFits font (u8 row) σ.os3k
  | .fputc c =>
    σ.focused = true → ∀ font, σ.os3k.pCurFont = some font → ByteFits font (u8 c) σ.os3k

/-- What holds in every session, with or without the focus: there is a font, and
the registers and counters are in the range of their types. -/
structure Ready (s : Os3k) : Prop where
  font : ∃ font, s.pCurFont = some font
  width : 1 ≤ s.lcdWidth
  height : 1 ≤ s.lcdHeight ∧ s.lcdHeight < 65536
  col : s.curCol < 256
  maxCol : s.maxCol < 256
  startLine : s.lcd.left.startLine < 64

variable {fw : Firmware} {font : FontHeader} {s : Os3k}

/-! ### `SetCursor` -/

theorem Ready.of_fields (h : Ready s) {t : Os3k} (hsame : SameScreen s t) (hcol : t.curCol < 256)
    (hline : t.lcd.left.startLine < 64) : Ready t where
  font := by rw [hsame.1]; exact h.font
  width := by rw [hsame.2.1]; exact h.width
  height := by rw [hsame.2.2.1]; exact h.height
  col := hcol
  maxCol := by rw [hsame.2.2.2.2]; exact h.maxCol
  startLine := hline

/-- The controllers receive the low six bits of the new roll. -/
theorem sendRoll_left (s : Os3k) :
    (sendRoll s).lcd.left.startLine = u16 s.curLcdRoll % 64 ∧
      (sendRoll s).lcd.right.startLine = u16 s.curLcdRoll % 64 := by
  simp [sendRoll, lcdSetScreenRoll, lcdCommand]

/-- The registers equal the roll exactly if the roll has six bits. -/
theorem sendRoll_agrees_iff (s : Os3k) :
    (((sendRoll s).lcd.left.startLine : ℤ) = s.curLcdRoll ↔
      0 ≤ s.curLcdRoll ∧ s.curLcdRoll < 64) ∧
    (((sendRoll s).lcd.right.startLine : ℤ) = s.curLcdRoll ↔
      0 ≤ s.curLcdRoll ∧ s.curLcdRoll < 64) := by
  rw [(sendRoll_left s).1, (sendRoll_left s).2]
  simp only [u16]
  omega

theorem agrees_setCursorMode (mode : CursorMode) :
    Agrees font (setCursorMode mode s) ↔ Agrees font s :=
  ⟨fun h => ⟨h.pCurFont,h.left,h.right,h.x,h.y⟩,fun h => ⟨h.pCurFont,h.left,h.right,h.x,h.y⟩⟩

/-- The cursor is placed by the formulas of its cell, so only the roll can disagree. -/
theorem placeCursor_agrees_iff (hfont : s.pCurFont = some font) (row col : ℕ) :
    Agrees font (clearRow fw font (placeCursor font row col s)) ↔
      (s.lcd.left.startLine : ℤ) = s.curLcdRoll ∧ (s.lcd.right.startLine : ℤ) = s.curLcdRoll :=
  ⟨fun h => ⟨h.left,h.right⟩,fun h => ⟨hfont,h.1,h.2,rfl,rfl⟩⟩

/-- The end of a scroll. -/
theorem scroll_agrees_iff (hfont : s.pCurFont = some font) (row col : ℕ) (mode : CursorMode) :
    Agrees font (setCursorMode mode (clearRow fw font (placeCursor font row col (sendRoll s)))) ↔
      0 ≤ s.curLcdRoll ∧ s.curLcdRoll < 64 := by
  have hsent : (sendRoll s).curLcdRoll = s.curLcdRoll := rfl
  have hfont' : (sendRoll s).pCurFont = some font := hfont
  rw [agrees_setCursorMode, placeCursor_agrees_iff hfont', hsent, (sendRoll_agrees_iff s).1,
    (sendRoll_agrees_iff s).2, and_self]

theorem rollBack_fits_iff (h64 : s.curLcdRoll < 64) (h0 : 0 ≤ s.curLcdRoll)
    (hl : s.lcdHeight < 65536) :
    (0 ≤ (rollBack font s).curLcdRoll ∧ (rollBack font s).curLcdRoll < 64) ↔
      ScrollFits font 0 s := by
  have hh := font.height_lt
  have hs : s16 (s.curLcdRoll - font.height) = s.curLcdRoll - font.height := by
    simp only [s16]
    omega
  rw [ScrollFits, if_pos (by omega)]
  simp only [rollBack, hs]
  split
  · simp only [s16]
    omega
  · omega

theorem rollOn_fits_iff (h64 : s.curLcdRoll < 64) (h0 : 0 ≤ s.curLcdRoll) {row : ℕ}
    (h1 : ¬ row < 1) (hrow : s.maxRow < row) :
    (0 ≤ (rollOn font s).curLcdRoll ∧ (rollOn font s).curLcdRoll < 64) ↔
      ScrollFits font row s := by
  have hh := font.height_lt
  have hs : s16 (s.curLcdRoll + font.height) = s.curLcdRoll + font.height := by
    simp only [s16]
    omega
  rw [ScrollFits, if_neg h1, if_pos hrow]
  simp only [rollOn, hs]
  split
  · rw [if_neg (by omega)]
    simp only [s16]
    omega
  · rw [if_pos (by omega)]
    omega

/-- `SetCursor` keeps the agreement exactly if a scroll it causes fits. Only the
start lines matter before the call: the cursor is placed afresh. -/
theorem setCursor_agrees_iff (hready : Ready s) (hfont : s.pCurFont = some font)
    (hleft : (s.lcd.left.startLine : ℤ) = s.curLcdRoll)
    (hright : (s.lcd.right.startLine : ℤ) = s.curLcdRoll) (row col : ℕ) (mode : CursorMode) :
    Agrees font (setCursor fw row col mode s) ↔ ScrollFits font row s := by
  have h0 : 0 ≤ s.curLcdRoll := by omega
  have h64 : s.curLcdRoll < 64 := by
    have := hready.startLine
    omega
  have hheight := hready.height.2
  unfold setCursor
  simp only [hfont]
  split_ifs with hlow hhigh
  · obtain rfl : row = 0 := by omega
    rw [← rollBack_fits_iff h64 h0 hheight]
    exact scroll_agrees_iff (s := rollBack font (setCursorMode .hide s)) hfont 1 col mode
  · rw [← rollOn_fits_iff h64 h0 hlow hhigh]
    exact scroll_agrees_iff (s := rollOn font (setCursorMode .hide s)) hfont s.maxRow col mode
  · rw [ScrollFits, if_neg hlow, if_neg (by simpa [setCursorMode] using hhigh)]
    exact ⟨fun _ => trivial,fun _ => ⟨hfont,hleft,hright,rfl,rfl⟩⟩

theorem Ready.setCursor (h : Ready s) (row : ℕ) {col : ℕ} (hcol : col < 256)
    (mode : CursorMode) : Ready (setCursor fw row col mode s) := by
  obtain ⟨font,hfont⟩ := h.font
  refine h.of_fields (setCursor_sameScreen ..) ?_ ?_
  · unfold Os3kTerminal.setCursor
    simp only [hfont]
    split_ifs <;> exact hcol
  · have hsent (u : Os3k) : (sendRoll u).lcd.left.startLine < 64 := by
      rw [(sendRoll_left u).1]
      exact Nat.mod_lt _ (by decide)
    unfold Os3kTerminal.setCursor
    simp only [hfont]
    split_ifs
    · exact hsent _
    · exact hsent _
    · exact h.startLine

/-! ### Bytes -/

/-- A glyph drawn at a cell advances both copies alike, unless `g_CurCol` wraps. -/
theorem drawGlyph_agrees_iff (hcol : s.curCol < 256) (h : Agrees font s)
    (hx : s.cursor.x = u16 (((s.curCol : ℤ) - 1) * font.maxWidth)) (b : ℕ) :
    Agrees font (drawGlyph fw font b s) ↔ (s.curCol = 255 → font.maxWidth = 0) := by
  have hw := font.maxWidth_lt
  have hlaw : Agrees font (drawGlyph fw font b s) ↔
      advanceX font s = cellX font s (u8 ((s.curCol : ℤ) + 1)) :=
    ⟨fun h' => h'.x,fun h' => ⟨h.pCurFont,h.left,h.right,h',h.y⟩⟩
  have hnext : u16 ((s.cursor.x : ℤ) + font.maxWidth) = u16 ((s.curCol : ℤ) * font.maxWidth) := by
    have hring : ((s.curCol : ℤ) - 1) * font.maxWidth + font.maxWidth =
        (s.curCol : ℤ) * font.maxWidth := by ring
    rw [hx]
    simp only [u16]
    omega
  rw [hlaw, advanceX, hnext]
  by_cases h255 : s.curCol = 255
  · -- the column wraps to 0, whose x is just below 65536
    simp only [h255, true_implies, cellX, u16, u8]
    constructor
    · intro heq
      by_contra hpos
      norm_num at heq
      split_ifs at heq <;> omega
    · intro h0
      simp [h0]
  · have hu8 : (u8 ((s.curCol : ℤ) + 1) : ℤ) - 1 = s.curCol := by
      simp only [u8]
      omega
    simp only [h255, false_implies, cellX, hu8]

/-- After `SetCursor` the start line is all that can disagree. -/
theorem setCursor_agrees_of_left (hfont : s.pCurFont = some font)
    (hright : (s.lcd.right.startLine : ℤ) = s.curLcdRoll) {row col : ℕ} {mode : CursorMode}
    (h : ((setCursor fw row col mode s).lcd.left.startLine : ℤ) =
      (setCursor fw row col mode s).curLcdRoll) : Agrees font (setCursor fw row col mode s) := by
  unfold setCursor at h ⊢
  simp only [hfont] at h ⊢
  split_ifs at h ⊢
  · exact (scroll_agrees_iff (s := rollBack font (setCursorMode .hide s)) hfont 1 col mode).mpr
      ((sendRoll_agrees_iff _).1.mp h)
  · exact (scroll_agrees_iff (s := rollOn font (setCursorMode .hide s)) hfont _ col mode).mpr
      ((sendRoll_agrees_iff _).1.mp h)
  · exact ⟨hfont,h,hright,rfl,rfl⟩

theorem setCursor_curCol (hfont : s.pCurFont = some font) (row col : ℕ) (mode : CursorMode) :
    (setCursor fw row col mode s).curCol = col := by
  unfold setCursor
  simp only [hfont]
  split_ifs <;> rfl

theorem cellX_one (hwidth : 1 ≤ s.lcdWidth) : cellX font s 1 = 0 := by
  simp only [cellX, u16, Nat.cast_one, Int.sub_self, Int.zero_mul]
  rw [if_neg (by simp; omega)]
  rfl

theorem cellY_one (hroll : s.curLcdRoll = 0) (hheight : 1 ≤ s.lcdHeight) :
    cellY font s 1 = 0 := by
  simp only [cellY, u16, hroll, Nat.cast_one, Int.sub_self, Int.zero_mul]
  rw [if_neg (by simp; omega)]
  rfl

/-- Off the margin the cursor's x is not an encoded right edge. -/
theorem Agrees.x_eq (h : Agrees font s) (hwidth : 1 ≤ s.lcdWidth) (hmargin : ¬ AtMargin s) :
    s.cursor.x = u16 (((s.curCol : ℤ) - 1) * font.maxWidth) := by
  have hx := h.x
  rw [AtMargin] at hmargin
  rw [hx] at hmargin ⊢
  simp only [cellX] at hmargin ⊢
  split_ifs at hmargin ⊢ with hedge
  · exfalso
    simp only [u16] at hedge hmargin
    omega
  · rfl

theorem putGlyph_agrees_iff (hready : Ready s) (h : Agrees font s) (b : ℕ) (mode : CursorMode) :
    Agrees font (putGlyph fw font b mode s) ↔
      if AtMargin s then ScrollFits font (u8 (s.curRow + 1)) s
      else s.curCol = 255 → font.maxWidth = 0 := by
  rw [putGlyph, agrees_setCursorMode, wrapOrHide]
  split_ifs with hmargin hmargin' hmargin'
  · have hagrees : Agrees font (setCursor fw (u8 (s.curRow + 1)) 1 .hide s) ↔ _ :=
      setCursor_agrees_iff hready h.pCurFont h.left h.right _ 1 .hide
    rw [← hagrees]
    constructor
    · intro hdraw
      exact setCursor_agrees_of_left h.pCurFont h.right hdraw.left
    · intro hset
      have hcol : (setCursor fw (u8 (s.curRow + 1)) 1 .hide s).curCol = 1 :=
        setCursor_curCol h.pCurFont (u8 (s.curRow + 1)) 1 .hide
      have hw := (setCursor_sameScreen fw (u8 (s.curRow + 1)) 1 .hide s).2.1
      have hx := hset.x
      rw [hcol, cellX_one (by rw [hw]; exact hready.width)] at hx
      refine (drawGlyph_agrees_iff (by rw [hcol]; decide) hset ?_ b).mpr (by rw [hcol]; omega)
      rw [hx, hcol]
      simp [u16]
  · exact absurd hmargin hmargin'
  · exact absurd hmargin' hmargin
  · exact drawGlyph_agrees_iff (s := setCursorMode .hide s) hready.col
      ((agrees_setCursorMode .hide).mpr h) (h.x_eq hready.width hmargin) b

/-- The bell writes neither copy. -/
theorem Agrees.bell (h : Agrees font s) (mode : CursorMode) : Agrees font (bell mode s) := by
  refine bell_rule (fun u lcd mode trace h hleft hright _ => ?_) h mode
  exact ⟨h.pCurFont,(congrArg Nat.cast hleft).trans h.left,(congrArg Nat.cast hright).trans h.right,
    h.x,h.y⟩

theorem emit_agrees_iff (hready : Ready s) (h : Agrees font s) (b : ℕ) :
    Agrees font (emit fw s b) ↔ ByteFits font b s := by
  have hset (row col : ℕ) (mode : CursorMode) :
      Agrees font (setCursor fw row col mode s) ↔ ScrollFits font row s :=
    setCursor_agrees_iff hready h.pCurFont h.left h.right row col mode
  have hput : Agrees font (putGlyph fw font b s.cursorMode s) ↔ _ :=
    putGlyph_agrees_iff hready h b s.cursorMode
  unfold emit fputcStdout ByteFits
  simp only [h.pCurFont]
  split_ifs with hbell hbs hback hlf hcr hmargin
  · exact ⟨fun _ => trivial,fun _ => h.bell _⟩
  · rw [backspace, if_pos hback]
    exact hset ..
  · rw [backspace, if_neg hback]
    exact hset ..
  · exact hset ..
  · exact hset ..
  · simpa only [if_pos hmargin] using hput
  · simpa only [if_neg hmargin] using hput

theorem Ready.emit (h : Ready s) (b : ℕ) : Ready (emit fw s b) := by
  obtain ⟨font,hfont⟩ := h.font
  have hcol := h.col
  have hsame := (fputcStdout_sameScreen fw hfont b).1
  have hdraw {v : Os3k} (hv : Ready v) : Ready (drawGlyph fw font b v) :=
    hv.of_fields (.refl _) (show u8 ((v.curCol : ℤ) + 1) < 256 from u8_lt _) hv.startLine
  have hmode {v : Os3k} (hv : Ready v) (mode : CursorMode) : Ready (setCursorMode mode v) :=
    hv.of_fields (.refl _) hv.col hv.startLine
  unfold Os3kTerminal.emit fputcStdout at hsame ⊢
  simp only [hfont] at hsame ⊢
  split_ifs
  · refine bell_rule (fun u lcd mode trace h hleft _ _ => ?_) h _
    exact h.of_fields (.refl _) h.col (hleft.trans_lt h.startLine)
  · unfold backspace
    split_ifs
    · exact h.setCursor _ (u8_lt _) _
    · exact h.setCursor _ h.maxCol _
  · exact h.setCursor _ (by decide) _
  · exact h.setCursor _ (by decide) _
  · refine hmode (hdraw ?_) _
    unfold wrapOrHide
    split_ifs
    · exact h.setCursor _ (by decide) _
    · exact hmode h _

/-! ### Runs -/

theorem Ready.step {σ : Session} (h : Ready σ.os3k) (e : Event) : Ready (step fw σ e).os3k := by
  obtain ⟨font,hfont⟩ := h.font
  cases e with
  | setFocus =>
    change Ready (beforeApplet fw .setFocus σ.os3k)
    simp only [beforeApplet, os3kClearScreen, hfont]
    exact ⟨⟨_,rfl⟩,h.width,h.height,h.col,u8_lt (σ.os3k.lcdWidth / 6),h.startLine⟩
  | killFocus =>
    change Ready (beforeApplet fw .killFocus σ.os3k)
    simp only [beforeApplet, hfont]
    exact h.of_fields (.refl _) h.col (by simp [lcdSetScreenRoll, lcdCommand])
  | setCursor row col mode => exact h.setCursor _ (u8_lt _) _
  | clearScreen =>
    change Ready (clearScreen fw σ.os3k)
    simp only [clearScreen, os3kClearScreen, hfont]
    exact h.of_fields ⟨hfont.symm,rfl,rfl,rfl,rfl⟩ (by decide : 1 < 256)
      (by simp [lcdSetScreenRoll, lcdCommand])
  | fputc c => exact h.emit (u8 c)

theorem setFocus_agrees_iff {sys : FontHeader} (hsys : s.pCurFont = some sys) :
    Agrees (selectFont fw sys) (beforeApplet fw .setFocus s) ↔
      OriginShadowed (selectFont fw sys) s := by
  simp only [beforeApplet, os3kClearScreen, hsys]
  constructor
  · intro h
    exact ⟨h.left,h.right,h.x.symm,h.y.symm⟩
  · intro h
    exact ⟨rfl,h.1,h.2.1,h.2.2.1.symm,h.2.2.2.symm⟩

/-- `ClearScreen` writes every copy, whatever they held before. -/
theorem clearScreen_agrees (hready : Ready s) (hfont : s.pCurFont = some font) :
    Agrees font (clearScreen fw s) := by
  have hx : cellX font s 1 = 0 := cellX_one hready.width
  have hy : cellY font { s with curLcdRoll := 0 } 1 = 0 := cellY_one rfl hready.height.1
  simp only [clearScreen, os3kClearScreen, hfont]
  exact ⟨rfl,by simp [lcdSetScreenRoll, lcdCommand],by simp [lcdSetScreenRoll, lcdCommand],
    hx.symm,hy.symm⟩

/-- One event: the agreement is kept under the event's condition and broken at
once without it. -/
theorem step_agrees_iff {σ : Session} (hready : Ready σ.os3k) (h : AgreesInFocus σ) (e : Event) :
    AgreesInFocus (step fw σ e) ↔ Keeps fw σ e := by
  obtain ⟨font,hfont⟩ := hready.font
  have huniq {f : FontHeader} (hf : σ.os3k.pCurFont = some f) : f = font :=
    Option.some.inj (hf.symm.trans hfont)
  cases e with
  | setFocus =>
    have hset : Agrees (selectFont fw font) (beforeApplet fw .setFocus σ.os3k) ↔ _ :=
      setFocus_agrees_iff hfont
    constructor
    · intro hafter f hf
      obtain ⟨g,hg⟩ := hafter rfl
      obtain rfl := huniq hf
      have hcur : (beforeApplet fw .setFocus σ.os3k).pCurFont = some (selectFont fw f) := by
        simp only [beforeApplet, os3kClearScreen, hfont]
      obtain rfl := Option.some.inj (hg.pCurFont.symm.trans hcur)
      exact hset.mp hg
    · exact fun hkeeps _ => ⟨_,hset.mpr (hkeeps font hfont)⟩
  | killFocus => exact ⟨fun _ => trivial,fun _ hfocus => absurd hfocus Bool.false_ne_true⟩
  | setCursor row col mode =>
    constructor
    · intro hafter hfocus f hf
      obtain ⟨g,hg⟩ := hafter hfocus
      obtain ⟨f',hag⟩ := h hfocus
      obtain rfl := huniq hf
      obtain rfl := huniq hag.pCurFont
      obtain rfl := huniq ((setCursor_sameScreen ..).1.symm.trans hg.pCurFont)
      exact (setCursor_agrees_iff hready hf hag.left hag.right ..).mp hg
    · intro hkeeps hfocus
      obtain ⟨f,hag⟩ := h hfocus
      exact ⟨f,(setCursor_agrees_iff hready hag.pCurFont hag.left hag.right ..).mpr
        (hkeeps hfocus f hag.pCurFont)⟩
  | clearScreen => exact ⟨fun _ => trivial,fun _ _ => ⟨font,clearScreen_agrees hready hfont⟩⟩
  | fputc c =>
    constructor
    · intro hafter hfocus f hf
      obtain ⟨g,hg⟩ := hafter hfocus
      obtain ⟨f',hag⟩ := h hfocus
      obtain rfl := huniq hf
      obtain rfl := huniq hag.pCurFont
      obtain rfl := huniq ((fputcStdout_sameScreen fw hf (u8 c)).1.1.symm.trans hg.pCurFont)
      exact (emit_agrees_iff hready hag (u8 c)).mp hg
    · intro hkeeps hfocus
      obtain ⟨f,hag⟩ := h hfocus
      exact ⟨f,(emit_agrees_iff hready hag (u8 c)).mpr (hkeeps hfocus f hag.pCurFont)⟩

theorem ready_init {sys : FontHeader} (hsys : fw.systemFont = some sys)
    (hwidth : 1 ≤ fw.lcdWidth ∧ fw.lcdWidth < 65536)
    (hheight : 2 ≤ fw.lcdHeight ∧ fw.lcdHeight < 65536)
    (hcol : s.curCol < 256 ∧ s.maxCol < 256) (hline : s.lcd.left.startLine < 64) :
    Ready (beforeApplet fw .init s) := by
  refine ⟨⟨sys,hsys⟩,?_,?_,hcol.1,hcol.2,hline⟩
  · change 1 ≤ u16 fw.lcdWidth
    simp only [u16]
    omega
  · change 1 ≤ u16 (fw.lcdHeight - fw.lcdHeight % 2) ∧ u16 (fw.lcdHeight - fw.lcdHeight % 2) < 65536
    simp only [u16]
    omega

/-- Over any order of events, from any globals: the shadow agrees with the
hardware whenever the applet has the focus, exactly if every event meets its
condition in the state that receives it. -/
theorem agreesInFocus_iff {sys : FontHeader} (hsys : fw.systemFont = some sys)
    (hwidth : 1 ≤ fw.lcdWidth ∧ fw.lcdWidth < 65536)
    (hheight : 2 ≤ fw.lcdHeight ∧ fw.lcdHeight < 65536)
    (hcol : s.curCol < 256 ∧ s.maxCol < 256) (hline : s.lcd.left.startLine < 64)
    (es : List Event) :
    Throughout (step fw) AgreesInFocus ⟨false,beforeApplet fw .init s⟩ es ↔
      Along (step fw) (Keeps fw) ⟨false,beforeApplet fw .init s⟩ es := by
  refine throughout_iff_along (I := fun σ => Ready σ.os3k ∧ AgreesInFocus σ) (fun _ h => h.2)
    ?_ ?_ ⟨ready_init hsys hwidth hheight hcol hline,fun h => absurd h Bool.false_ne_true⟩
    (along_true _ es)
  · intro σ e h _ hok
    exact ⟨h.1.step e,(step_agrees_iff h.1 h.2 e).mpr hok⟩
  · intro σ e h _ hok hafter
    exact hok ((step_agrees_iff h.1 h.2 e).mp hafter)

/-- On an LCD of at most 64 lines, with a font no taller than it, every scroll fits. -/
theorem scrollFits_of_lines (hlines : s.lcdHeight ≤ 64) (hheight : font.height ≤ s.lcdHeight)
    (h0 : 0 ≤ s.curLcdRoll) (hlt : s.curLcdRoll < s.lcdHeight) (row : ℕ) :
    ScrollFits font row s := by
  unfold ScrollFits
  split_ifs
  · omega
  · omega
  · omega

/-- Column 0 is no column of the screen. -/
theorem cellX_zero_ne (hpos : 0 < font.maxWidth) (s : Os3k) : cellX font s 0 ≠ 0 := by
  have hw := font.maxWidth_lt
  intro hx
  simp only [cellX, u16, Nat.cast_zero, Int.zero_sub, Int.neg_one_mul] at hx
  split_ifs at hx <;> omega

/-- From zeroed globals a `MSG_SETFOCUS` that comes first breaks the agreement. -/
theorem first_setFocus_disagrees {sys : FontHeader} (hsys : fw.systemFont = some sys)
    (hwidth : 1 ≤ fw.lcdWidth ∧ fw.lcdWidth < 65536)
    (hheight : 2 ≤ fw.lcdHeight ∧ fw.lcdHeight < 65536)
    (hcol : s.curCol = 0 ∧ s.maxCol < 256) (hline : s.lcd.left.startLine < 64)
    (hpos : 0 < (selectFont fw sys).maxWidth) :
    ¬ AgreesInFocus (step fw ⟨false,beforeApplet fw .init s⟩ .setFocus) := by
  have hready := ready_init (s := s) hsys hwidth hheight ⟨hcol.1.trans_lt (by decide),hcol.2⟩ hline
  intro hafter
  have hkeeps := (step_agrees_iff (σ := ⟨false,beforeApplet fw .init s⟩) hready
    (fun h => absurd h Bool.false_ne_true) .setFocus).mp hafter
  refine cellX_zero_ne hpos (beforeApplet fw .init s) ?_
  have hx := (hkeeps sys hsys).2.2.1
  rwa [show (beforeApplet fw .init s).curCol = 0 from hcol.1] at hx

/-- With a font that fits and the start line at 0, as `MSG_KILLFOCUS` leaves it, the
globals shadow the origin only for row 1, column 1 and no roll. -/
theorem originShadowed_iff_home (f : Fitted fw font s)
    (hrow : 1 ≤ s.curRow ∧ s.curRow ≤ s.maxRow) (hcol : s.curCol < 256)
    (hleft : s.lcd.left.startLine = 0) (hright : s.lcd.right.startLine = 0) :
    OriginShadowed font s ↔ s.curLcdRoll = 0 ∧ s.curRow = 1 ∧ s.curCol = 1 := by
  have hw := font.maxWidth_lt
  have hpos := f.width_pos
  have hwide := f.wide
  have hheight : 1 ≤ font.height := Nat.pos_of_dvd_of_pos f.height_dvd (by decide)
  unfold OriginShadowed
  rw [hleft, hright]
  constructor
  · rintro ⟨hroll,-,hx,hy⟩
    have hroll0 : s.curLcdRoll = 0 := hroll.symm
    rw [f.cellY_eq (by rw [hroll0]; exact ⟨Int.le_refl 0,by decide,Int.dvd_zero _⟩) hrow.1 hrow.2,
      hroll0] at hy
    have hone {n w : ℕ} (hw : 1 ≤ w) (h : (n - 1) * w = 0) : n ≤ 1 := by
      rcases Nat.mul_eq_zero.mp h with h | h <;> omega
    refine ⟨hroll0,?_,?_⟩
    · have hlast : (s.curRow - 1) * font.height + font.height ≤ 64 := by
        have hle : (s.curRow - 1 + 1) * font.height ≤ s.maxRow * font.height :=
          Nat.mul_le_mul_right _ (by omega)
        rw [Nat.succ_mul] at hle
        exact hle.trans f.rows
      have := hone (n := s.curRow) hheight (by omega)
      omega
    · obtain hzero | hge : s.curCol = 0 ∨ 1 ≤ s.curCol := by omega
      · rw [hzero] at hx
        exact absurd hx (cellX_zero_ne hpos s)
      · have hmul : (s.curCol - 1) * font.maxWidth ≤ 254 * 255 :=
          Nat.mul_le_mul (by omega) (by omega)
        have hcast : ((s.curCol : ℤ) - 1) * font.maxWidth =
            ((s.curCol - 1) * font.maxWidth : ℕ) := by
          rw [show (s.curCol : ℤ) - 1 = (s.curCol - 1 : ℕ) by omega, ← Nat.cast_mul]
        simp only [cellX, u16, hcast] at hx
        have := hone (n := s.curCol) hpos (by split_ifs at hx <;> omega)
        omega
  · rintro ⟨hroll,hrow1,hcol1⟩
    rw [hroll, hrow1, hcol1]
    exact ⟨rfl,rfl,cellX_one (by omega),cellY_one hroll (by rw [f.lines]; decide)⟩

/-- A Neo before `MSG_INIT`. -/
def zeroGlobals : Os3k := bss ⟨⟨0,false⟩,⟨0,false⟩,fun _ _ => false⟩

/-- The same with globals that already say row 1, column 1. -/
def homeGlobals : Os3k := { zeroGlobals with curRow := 1, curCol := 1 }

theorem agreesInFocus_iff_neo :
    Throughout (step neoFirmware) AgreesInFocus ⟨false,beforeApplet neoFirmware .init homeGlobals⟩
      [.setFocus,.clearScreen,.setCursor 9 1 .shown,.killFocus] := by
  refine (agreesInFocus_iff (rfl : neoFirmware.systemFont = some neoFont) (by decide) (by decide)
    (by decide) (by decide) _).mpr ⟨?_,trivial,?_,trivial,trivial⟩
  · intro font hfont
    obtain rfl := Option.some.inj hfont
    exact ⟨by decide,by decide,by decide,by decide⟩
  · intro _ font hfont
    obtain rfl := Option.some.inj hfont
    decide

/-- An applet that scrolls by one line and then loses the focus. -/
def scrollThenLeave : List Event :=
  [.setFocus,.clearScreen,.setCursor 9 1 .hide,.killFocus,.setFocus]

/-- When the focus comes back the controllers start at line 0 while
`g_CurLcdRoll` is still 8, and the cursor is at the origin while `g_CurRow` is 8. -/
theorem refocus_after_scroll_disagrees :
    let σ := scrollThenLeave.foldl (step neoFirmware)
      ⟨false,beforeApplet neoFirmware .init zeroGlobals⟩
    (σ.focused = true ∧ σ.os3k.lcd.left.startLine = 0 ∧ σ.os3k.curLcdRoll = 8) ∧
      (σ.os3k.cursor.x = 0 ∧ σ.os3k.cursor.y = 0 ∧ σ.os3k.curRow = 8) ∧
      ¬ Throughout (step neoFirmware) AgreesInFocus
        ⟨false,beforeApplet neoFirmware .init zeroGlobals⟩ scrollThenLeave := by
  intro σ
  have hlast : σ.focused = true ∧ σ.os3k.lcd.left.startLine = 0 ∧ σ.os3k.curLcdRoll = 8 := by
    decide
  refine ⟨hlast,by decide,fun h => ?_⟩
  obtain ⟨font,hag⟩ := throughout_iff_take.mp h 5 hlast.1
  have hleft : (σ.os3k.lcd.left.startLine : ℤ) = σ.os3k.curLcdRoll := hag.left
  rw [hlast.2.1, hlast.2.2] at hleft
  exact absurd hleft (by decide)

end Betawise.FocusRuns
