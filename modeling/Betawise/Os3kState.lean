import Mathlib.Data.Int.Notation
import Mathlib.Data.Nat.Notation

/-!
# State of the BetaWise terminal library

The data that `os3k.c` and `os3k.h` share: the font header, the library's
globals, the firmware's `CURSOR_STRUCT`, the LCD with its two controllers and
the calls the library makes. Machine integers are natural numbers or integers
that every assignment reduces to the width of the C type.

The firmware is a parameter. Its fields are the answers the library reads and
its drawing primitives; the contract fields say that these write exactly their
rectangle, clipped to the LCD, and that clearing blanks the whole memory.
-/
namespace Betawise.Os3kState

/-- Conversion to `uint8_t`. -/
def u8 (z : ℤ) : ℕ := (z % 256).toNat

/-- Conversion to `uint16_t`. -/
def u16 (z : ℤ) : ℕ := (z % 65536).toNat

/-- Conversion to `uint32_t`. -/
def u32 (z : ℤ) : ℕ := (z % 4294967296).toNat

/-- Conversion to `int16_t`. -/
def s16 (z : ℤ) : ℤ := (z + 32768) % 65536 - 32768

/-- `CursorMode_e`. -/
inductive CursorMode where
  | hide
  | shown
  deriving DecidableEq, Repr

/-- `FontHeader_t`. Both lookup tables are null for the monospaced fonts the
library draws with, and the library never reads them. -/
structure FontHeader where
  height : ℕ
  maxWidth : ℕ
  maxBytes : ℕ
  bitmapData : ℕ
  height_lt : height < 256
  maxWidth_lt : maxWidth < 256
  maxBytes_lt : maxBytes < 256

/-- The part of `struct Cursor_t` at 0x5C68 that the library reads or writes. -/
structure Cursor where
  pFont : Option FontHeader
  x : ℕ
  y : ℕ

/-- The display registers of one ST7565R controller. -/
structure Controller where
  startLine : ℕ
  allPixOn : Bool
  deriving DecidableEq, Repr

/-- The controller decodes the start-line and all-pixels commands; every other
command byte leaves these two registers alone. -/
def Controller.command (k : Controller) (cmd : ℕ) : Controller :=
  if 0x40 ≤ cmd ∧ cmd ≤ 0x7F then { k with startLine := cmd - 0x40 }
  else if cmd = 0xA4 then { k with allPixOn := false }
  else if cmd = 0xA5 then { k with allPixOn := true }
  else k

/-- LCD memory: one bit for each line and column. -/
abbrev Ram := ℕ → ℕ → Bool

structure Lcd where
  left : Controller
  right : Controller
  ram : Ram

/-- `LCD_CMD_ALL_PIX_ON(yes)`. -/
def lcdCmdAllPixOn (yes : ℕ) : ℕ := 0xA4 ||| (yes &&& 1)

/-- `LCD_CMD_START_LINE(line)`. -/
def lcdCmdStartLine (line : ℕ) : ℕ := 0x40 ||| (line &&& 0x3F)

/-- What the library asks of the firmware and of the LCD command registers. -/
inductive Call where
  | clearScreen
  | lcdCommand (cmd : ℕ)
  | setCursorMode (mode : CursorMode)
  | setCursor (row col : ℕ) (mode : CursorMode)
  | drawBitmap (x y w h bitmap : ℕ)
  | rasterOpWhiteness (x y w h : ℕ)
  | sleepCentimilliseconds (n : ℕ)
  | fputc (c : ℤ) (stream : ℕ)
  | putChar (c : ℕ)
  deriving DecidableEq, Repr

/-- A pixel of the rectangle at `(x, y)` of size `w` by `h`, inside an LCD of
`width` by `height`. -/
def InRect (width height x y w h line col : ℕ) : Prop :=
  (x ≤ col ∧ col < x + w ∧ y ≤ line ∧ line < y + h) ∧ col < width ∧ line < height

instance (width height x y w h line col : ℕ) :
    Decidable (InRect width height x y w h line col) := by
  unfold InRect
  infer_instance

/-- The firmware as the library uses it. `bitmapPixel bitmap w h dx dy` is the
bit that `DrawBitmap` decodes from the bytes at address `bitmap`. Answers that
depend on the firmware's own text state are functions of the calls so far. -/
structure Firmware where
  systemFont : Option FontHeader
  terminalFont : Option FontHeader
  lcdWidth : ℕ
  lcdHeight : ℕ
  bitmapPixel : ℕ → ℕ → ℕ → ℕ → ℕ → Bool
  clearScreen : Ram → Ram
  drawBitmap : ℕ → ℕ → ℕ → ℕ → ℕ → Ram → Ram
  rasterOpWhiteness : ℕ → ℕ → ℕ → ℕ → Ram → Ram
  getCursorPos : List Call → ℕ × ℕ
  fputcResult : List Call → ℤ
  clearScreen_apply : ∀ ram line col, clearScreen ram line col = false
  drawBitmap_apply : ∀ x y w h bitmap ram line col,
    drawBitmap x y w h bitmap ram line col =
      if InRect lcdWidth lcdHeight x y w h line col
      then bitmapPixel bitmap w h (col - x) (line - y) else ram line col
  rasterOpWhiteness_apply : ∀ x y w h ram line col,
    rasterOpWhiteness x y w h ram line col =
      if InRect lcdWidth lcdHeight x y w h line col then false else ram line col

/-- The library's globals together with the hardware and firmware state that
its code touches. `trace` holds the calls made so far, newest first. -/
structure Os3k where
  pCurFont : Option FontHeader
  lcdWidth : ℕ
  lcdHeight : ℕ
  curLcdRoll : ℤ
  curRow : ℕ
  curCol : ℕ
  maxRow : ℕ
  maxCol : ℕ
  cursor : Cursor
  cursorMode : CursorMode
  lcd : Lcd
  trace : List Call

/-- The globals as `.bss` leaves them, over an LCD in any state. -/
def bss (lcd : Lcd) : Os3k where
  pCurFont := none
  lcdWidth := 0
  lcdHeight := 0
  curLcdRoll := 0
  curRow := 0
  curCol := 0
  maxRow := 0
  maxCol := 0
  cursor := ⟨none,0,0⟩
  cursorMode := .hide
  lcd := lcd
  trace := []

/-- A firmware that draws nothing but solid glyphs: the contract can be met. -/
def solidFirmware (systemFont terminalFont : Option FontHeader) (width height : ℕ) :
    Firmware where
  systemFont := systemFont
  terminalFont := terminalFont
  lcdWidth := width
  lcdHeight := height
  bitmapPixel := fun _ _ _ _ _ => true
  clearScreen := fun _ _ _ => false
  drawBitmap := fun x y w h _ ram line col =>
    if InRect width height x y w h line col then true else ram line col
  rasterOpWhiteness := fun x y w h ram line col =>
    if InRect width height x y w h line col then false else ram line col
  getCursorPos := fun _ => (1,1)
  fputcResult := fun _ => 0
  clearScreen_apply := fun _ _ _ => rfl
  drawBitmap_apply := fun _ _ _ _ _ _ _ _ => rfl
  rasterOpWhiteness_apply := fun _ _ _ _ _ _ _ => rfl

theorem u8_lt (z : ℤ) : u8 z < 256 := by
  simp only [u8]
  omega

theorem u8_natCast {n : ℕ} (h : n < 256) : u8 n = n := by
  simp only [u8]
  omega

theorem u8_succ {n : ℕ} (h : n < 255) : u8 ((n : ℤ) + 1) = n + 1 := by
  simp only [u8]
  omega

theorem u8_pred {n : ℕ} (h1 : 1 ≤ n) (h : n ≤ 256) : u8 ((n : ℤ) - 1) = n - 1 := by
  simp only [u8]
  omega

theorem lcdCmdStartLine_eq (line : ℕ) : lcdCmdStartLine line = 64 + line % 64 := by
  have hand : line &&& 0x3F = line % 64 := Nat.and_two_pow_sub_one_eq_mod line 6
  have hlt : line % 64 < 2 ^ 6 := Nat.mod_lt _ (by decide)
  rw [lcdCmdStartLine, hand]
  simpa using (Nat.two_pow_add_eq_or_of_lt hlt 1).symm

/-- Sending a start line sets the register to the low six bits of the line. -/
@[simp] theorem command_startLine (k : Controller) (line : ℕ) :
    k.command (lcdCmdStartLine line) = { k with startLine := line % 64 } := by
  have hlt : line % 64 < 64 := Nat.mod_lt _ (by decide)
  rw [lcdCmdStartLine_eq, Controller.command, if_pos (by omega)]
  simp

/-- The all-pixels command leaves the start line alone. -/
@[simp] theorem command_allPixOn (k : Controller) (yes : ℕ) :
    (k.command (lcdCmdAllPixOn yes)).startLine = k.startLine := by
  have hbit : yes &&& 1 = 0 ∨ yes &&& 1 = 1 := by
    rw [Nat.and_one_is_mod]
    omega
  rcases hbit with h | h <;> simp [lcdCmdAllPixOn, Controller.command, h]

end Betawise.Os3kState
