import Betawise.Os3kState

/-!
# The terminal functions of `os3k.c`

Each function is the state change of the C function of the same name, on the
path with a font (`g_pCurFont` set) and on the path without one. Arithmetic is
done in integers, as C does after promotion, and reduced where it is stored.
-/
namespace Betawise.Os3kTerminal
open Os3kState

/-! ### Firmware calls and LCD registers -/

def setCursorMode (mode : CursorMode) (s : Os3k) : Os3k :=
  { s with cursorMode := mode, trace := .setCursorMode mode :: s.trace }

/-- Both controllers receive every command. -/
def lcdCommand (cmd : ℕ) (s : Os3k) : Os3k :=
  { s with
    lcd := { s.lcd with left := s.lcd.left.command cmd, right := s.lcd.right.command cmd }
    trace := .lcdCommand cmd :: s.trace }

def lcdSetScreenRoll (roll : ℕ) (s : Os3k) : Os3k :=
  lcdCommand (lcdCmdStartLine roll) s

/-- The source passes the constant `true` to the macro, whatever `enable` is. -/
def lcdAllPixOn (_enable : Bool) (s : Os3k) : Os3k :=
  lcdCommand (lcdCmdAllPixOn 1) s

/-- The firmware's `ClearScreen` also homes its cursor. -/
def os3kClearScreen (fw : Firmware) (s : Os3k) : Os3k :=
  { s with
    lcd := { s.lcd with ram := fw.clearScreen s.lcd.ram }
    cursor := { s.cursor with x := 0, y := 0 }
    trace := .clearScreen :: s.trace }

def os3kSetCursor (row col : ℕ) (mode : CursorMode) (s : Os3k) : Os3k :=
  { s with cursorMode := mode, trace := .setCursor row col mode :: s.trace }

def os3kFputc (fw : Firmware) (c : ℤ) (stream : ℕ) (s : Os3k) : ℤ × Os3k :=
  let trace := .fputc c stream :: s.trace
  (fw.fputcResult trace,{ s with trace := trace })

/-- `GetCursorPos(&g_CurRow, &g_CurCol)`. -/
def getCursorPos (fw : Firmware) (s : Os3k) : Os3k :=
  { s with
    curRow := u8 (fw.getCursorPos s.trace).1
    curCol := u8 (fw.getCursorPos s.trace).2 }

def drawBitmap (fw : Firmware) (x y w h bitmap : ℕ) (s : Os3k) : Os3k :=
  { s with
    lcd := { s.lcd with ram := fw.drawBitmap x y w h bitmap s.lcd.ram }
    trace := .drawBitmap x y w h bitmap :: s.trace }

/-- `RasterOp(x, y, w, h, NULL, ROP_WHITENESS)`. -/
def rasterOpWhiteness (fw : Firmware) (x y w h : ℕ) (s : Os3k) : Os3k :=
  { s with
    lcd := { s.lcd with ram := fw.rasterOpWhiteness x y w h s.lcd.ram }
    trace := .rasterOpWhiteness x y w h :: s.trace }

def sleepCentimilliseconds (n : ℕ) (s : Os3k) : Os3k :=
  { s with trace := .sleepCentimilliseconds n :: s.trace }

/-! ### `ClearScreen` and `SetCursor` -/

def clearScreen (fw : Firmware) (s : Os3k) : Os3k :=
  let s := os3kClearScreen fw s
  match s.pCurFont with
  | none => s
  | some _ => lcdSetScreenRoll 0 { s with curRow := 1, curCol := 1, curLcdRoll := 0 }

/-- The roll after `SetCursor` was asked for a row above the first. -/
def rollBack (font : FontHeader) (s : Os3k) : Os3k :=
  let roll := s16 (s.curLcdRoll - font.height)
  { s with curLcdRoll := if roll < 0 then s16 (roll + s.lcdHeight) else roll }

/-- The roll after `SetCursor` was asked for a row below the last. -/
def rollOn (font : FontHeader) (s : Os3k) : Os3k :=
  let roll := s16 (s.curLcdRoll + font.height)
  { s with curLcdRoll := if roll ≥ s.lcdHeight then s16 (roll - s.lcdHeight) else roll }

/-- `CURSOR_STRUCT->x` for a column; the right edge is encoded as width - 1. -/
def cellX (font : FontHeader) (s : Os3k) (col : ℕ) : ℕ :=
  let x := u16 (((col : ℤ) - 1) * font.maxWidth)
  if x = s.lcdWidth then u16 ((x : ℤ) - 1) else x

/-- `CURSOR_STRUCT->y` for a row under the current roll. -/
def cellY (font : FontHeader) (s : Os3k) (row : ℕ) : ℕ :=
  let y := u16 (((row : ℤ) - 1) * font.height + s.curLcdRoll)
  if y ≥ s.lcdHeight then u16 ((y : ℤ) - s.lcdHeight) else y

def placeCursor (font : FontHeader) (row col : ℕ) (s : Os3k) : Os3k :=
  { s with
    curRow := row
    curCol := col
    cursor := ⟨some font,cellX font s col,cellY font s row⟩ }

/-- The erase that follows a scroll, from the cursor's own position. -/
def clearRow (fw : Firmware) (font : FontHeader) (s : Os3k) : Os3k :=
  rasterOpWhiteness fw s.cursor.x s.cursor.y s.lcdWidth font.height s

def sendRoll (s : Os3k) : Os3k := lcdSetScreenRoll (u16 s.curLcdRoll) s

def setCursor (fw : Firmware) (row col : ℕ) (mode : CursorMode) (s : Os3k) : Os3k :=
  match s.pCurFont with
  | none => os3kSetCursor row col mode s
  | some font =>
    let s := setCursorMode .hide s
    if row < 1 then
      setCursorMode mode (clearRow fw font (placeCursor font 1 col (sendRoll (rollBack font s))))
    else if row > s.maxRow then
      setCursorMode mode
        (clearRow fw font (placeCursor font s.maxRow col (sendRoll (rollOn font s))))
    else setCursorMode mode (placeCursor font row col s)

/-! ### Character output -/

def stdout : ℕ := 1

/-- The `'\a'` case: the pixels are lit for a tenth of a second. -/
def bell (mode : CursorMode) (s : Os3k) : Os3k :=
  setCursorMode mode (lcdAllPixOn false (sleepCentimilliseconds 10000
    (lcdAllPixOn true (setCursorMode .hide s))))

/-- The bell keeps what depends neither on the cursor mode and the calls made nor on
the all-pixels registers. -/
theorem bell_rule {P : Os3k → Prop}
    (hP : ∀ (u : Os3k) (lcd : Lcd) (mode : CursorMode) (trace : List Call), P u →
      lcd.left.startLine = u.lcd.left.startLine → lcd.right.startLine = u.lcd.right.startLine →
        lcd.ram = u.lcd.ram → P { u with lcd := lcd, cursorMode := mode, trace := trace })
    {s : Os3k} (h : P s) (mode : CursorMode) : P (bell mode s) :=
  hP s (bell mode s).lcd mode (bell mode s).trace h
    ((command_allPixOn _ 1).trans (command_allPixOn _ 1))
    ((command_allPixOn _ 1).trans (command_allPixOn _ 1)) rfl

/-- The `'\b'` case, shared by both rendering paths. -/
def backspace (fw : Firmware) (mode : CursorMode) (s : Os3k) : Os3k :=
  if s.curCol > 1 then setCursor fw s.curRow (u8 ((s.curCol : ℤ) - 1)) mode s
  else setCursor fw (u8 ((s.curRow : ℤ) - 1)) s.maxCol mode s

/-- The address of a glyph; the offset passes through a `short`. -/
def glyphAddress (font : FontHeader) (c : ℕ) : ℕ :=
  u32 (font.bitmapData + s16 (font.maxBytes * c))

/-- The wrap that the right margin deferred, or hiding the cursor in place. -/
def wrapOrHide (fw : Firmware) (s : Os3k) : Os3k :=
  if (s.cursor.x : ℤ) = s.lcdWidth - 1 then setCursor fw (u8 (s.curRow + 1)) 1 .hide s
  else setCursorMode .hide s

/-- `CURSOR_STRUCT->x` moves past a glyph, and is held at the right edge. -/
def advanceX (font : FontHeader) (s : Os3k) : ℕ :=
  let x := u16 (s.cursor.x + font.maxWidth)
  if x = s.lcdWidth then u16 ((x : ℤ) - 1) else x

/-- The glyph is drawn at the cursor, which then advances by one column. -/
def drawGlyph (fw : Firmware) (font : FontHeader) (c : ℕ) (s : Os3k) : Os3k :=
  let s := drawBitmap fw s.cursor.x s.cursor.y font.maxWidth font.height (glyphAddress font c) s
  { s with
    cursor := { s.cursor with x := advanceX font s }
    curCol := u8 (s.curCol + 1) }

def putGlyph (fw : Firmware) (font : FontHeader) (c : ℕ) (mode : CursorMode) (s : Os3k) : Os3k :=
  setCursorMode mode (drawGlyph fw font c (wrapOrHide fw s))

/-- `fputc` on `stdout`, after `c` was reduced to a byte. Without a font the
cursor is first read back from the firmware, and the characters the library
does not handle itself go to the firmware. -/
def fputcStdout (fw : Firmware) (c : ℕ) (s : Os3k) : ℤ × Os3k :=
  let mode := s.cursorMode
  match s.pCurFont with
  | none =>
    let s := getCursorPos fw s
    if c = 0x08 then (c,backspace fw mode s)
    else if c = 0x0D then (c,setCursor fw s.curRow 1 mode s)
    else os3kFputc fw c stdout s
  | some font =>
    if c = 0x07 then (c,bell mode s)
    else if c = 0x08 then (c,backspace fw mode s)
    else if c = 0x0A then (c,setCursor fw (u8 (s.curRow + 1)) 1 mode s)
    else if c = 0x0D then (c,setCursor fw s.curRow 1 mode s)
    else (c,putGlyph fw font c mode s)

/-- The state after one byte on `stdout`. -/
def emit (fw : Firmware) (s : Os3k) (b : ℕ) : Os3k := (fputcStdout fw b s).2

def fputc (fw : Firmware) (c : ℤ) (stream : ℕ) (s : Os3k) : ℤ × Os3k :=
  if stream ≠ stdout then os3kFputc fw c stream s
  else fputcStdout fw (u8 c) s

/-- The string is the bytes before its terminator. -/
def fputs (fw : Firmware) (stream : ℕ) : List ℕ → Os3k → ℤ × Os3k
  | [],s => (0,s)
  | c::cs,s =>
    let r := fputc fw c stream s
    if r.1 < 0 then r else fputs fw stream cs r.2

def putchar (fw : Firmware) (c : ℤ) (s : Os3k) : ℤ × Os3k := fputc fw c stdout s

def puts (fw : Firmware) (str : List ℕ) (s : Os3k) : ℤ × Os3k := fputs fw stdout str s

/-! ### Messages -/

inductive Message where
  | init
  | setFocus
  | killFocus
  | other
  deriving DecidableEq, Repr

/-- `g_pCurFont` once the Terminal font applet was looked up and asked. -/
def selectFont (fw : Firmware) (sys : FontHeader) : FontHeader :=
  fw.terminalFont.getD sys

/-- The state in which `BwProcessMessage` hands a message to the applet. -/
def beforeApplet (fw : Firmware) (message : Message) (s : Os3k) : Os3k :=
  match message with
  | .init =>
    { s with
      pCurFont := fw.systemFont
      lcdWidth := u16 fw.lcdWidth
      lcdHeight := u16 (fw.lcdHeight - fw.lcdHeight % 2) }
  | .setFocus =>
    let s := os3kClearScreen fw s
    match s.pCurFont with
    | none => s
    | some sys =>
      let font := selectFont fw sys
      { s with
        pCurFont := some font
        maxCol := u8 (s.lcdWidth / 6)
        maxRow := u8 (if font.height = 16 then s.lcdHeight / 16 else s.lcdHeight / 8) }
  | .killFocus =>
    match s.pCurFont with
    | none => s
    | some _ => lcdSetScreenRoll 0 s
  | .other => s

def bwProcessMessage (fw : Firmware) (processMessage : Message → Os3k → Os3k)
    (message : Message) (s : Os3k) : Os3k :=
  processMessage message (beforeApplet fw message s)

end Betawise.Os3kTerminal
