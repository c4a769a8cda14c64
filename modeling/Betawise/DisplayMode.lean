import Betawise.FocusRuns
import Betawise.ReferenceTerminal

/-!
# What the library leaves in the LCD controllers

The controllers' registers are write only: what they hold is what the stream of
commands last put there. A display is in order when the last all-pixels command,
if there was one, is the off form and both controllers start at `g_CurLcdRoll`.
Every call of the library returns with the display in order and with the cursor
mode it found or was asked for, if no bell is rung and every scroll ends on a
roll of six bits. The bell itself never does: its second command lights the
pixels again.
-/
namespace Betawise.DisplayMode
open Os3kState Os3kTerminal TerminalScroll EventRuns FocusRuns

/-! ### Calls of the library -/

/-- A call that writes the screen at most once. Arguments are converted as C
converts them. -/
inductive Output where
  | clearScreen
  | setCursor (row col : ℤ) (mode : CursorMode)
  | fputc (c : ℤ)

def output (fw : Firmware) (s : Os3k) : Output → Os3k
  | .clearScreen => clearScreen fw s
  | .setCursor row col mode => setCursor fw (u8 row) (u8 col) mode s
  | .fputc c => (fputc fw c stdout s).2

inductive LibraryCall where
  | output (o : Output)
  | fputs (str : List ℕ)

def call (fw : Firmware) (s : Os3k) : LibraryCall → Os3k
  | .output o => output fw s o
  | .fputs str => (fputs fw stdout str s).2

/-- `fputs` calls `fputc` for every byte. -/
def LibraryCall.outputs : LibraryCall → List Output
  | .output o => [o]
  | .fputs str => str.map fun b : ℕ => .fputc b

/-! ### A display in order -/

/-- The last all-pixels command of a stream, newest first: on or off. -/
def lastAllPixels : List Call → Option Bool
  | [] => none
  | .lcdCommand cmd :: calls =>
    if cmd = lcdCmdAllPixOn 1 then some true
    else if cmd = lcdCmdAllPixOn 0 then some false
    else lastAllPixels calls
  | _ :: calls => lastAllPixels calls

structure InOrder (s : Os3k) : Prop where
  pixels : lastAllPixels s.trace ≠ some true
  left : (s.lcd.left.startLine : ℤ) = s.curLcdRoll
  right : (s.lcd.right.startLine : ℤ) = s.curLcdRoll

/-- What the user sees: a controller with all pixels on shows nothing else. -/
def visible (s : Os3k) (line col : ℕ) : Bool :=
  let k := if col < s.lcdWidth / 2 then s.lcd.left else s.lcd.right
  k.allPixOn || CircularLines.view s.lcdHeight k.startLine s.lcd.ram line col

/-- The cursor mode a call is to leave: the one it found, or the one it was asked for. -/
def Output.mode (s : Os3k) : Output → CursorMode
  | .setCursor _ _ mode => mode
  | _ => s.cursorMode

/-- What is asked of a call that is made in state `s`. -/
structure Undisturbed (fw : Firmware) (s : Os3k) (o : Output) : Prop where
  inOrder : InOrder (output fw s o)
  mode : (output fw s o).cursorMode = o.mode s
  bell : ∀ c, o = .fputc c → u8 c = 0x07 → visible (output fw s o) = visible s ∧
    (output fw s o).cursor = s.cursor ∧ (output fw s o).curRow = s.curRow ∧
    (output fw s o).curCol = s.curCol

/-- The same of the calls that applets make: `fputs` leaves the cursor mode it found. -/
def CallUndisturbed (fw : Firmware) (s : Os3k) : LibraryCall → Prop
  | .output o => Undisturbed fw s o
  | .fputs str => InOrder (call fw s (.fputs str)) ∧
      (call fw s (.fputs str)).cursorMode = s.cursorMode

/-! ### The condition on each call -/

/-- The byte is not the bell, and a scroll it causes ends on a roll of six bits. -/
def QuietByte (font : FontHeader) (b : ℕ) (s : Os3k) : Prop :=
  if b = 0x07 then False
  else if b = 0x08 then
    ScrollFits font (if s.curCol > 1 then s.curRow else u8 ((s.curRow : ℤ) - 1)) s
  else if b = 0x0A then ScrollFits font (u8 (s.curRow + 1)) s
  else if b = 0x0D then ScrollFits font s.curRow s
  else AtMargin s → ScrollFits font (u8 (s.curRow + 1)) s

instance (font : FontHeader) (b : ℕ) (s : Os3k) : Decidable (QuietByte font b s) := by
  unfold QuietByte
  infer_instance

def Quiet (s : Os3k) : Output → Prop
  | .clearScreen => True
  | .setCursor row _ _ => ∀ font, s.pCurFont = some font → ScrollFits font (u8 row) s
  | .fputc c => ∀ font, s.pCurFont = some font → QuietByte font (u8 c) s

variable {fw : Firmware} {font : FontHeader} {s : Os3k}

/-! ### The command stream of each call -/

/-- A start line is not an all-pixels command. -/
@[simp] theorem lastAllPixels_startLine (line : ℕ) (calls : List Call) :
    lastAllPixels (.lcdCommand (lcdCmdStartLine line) :: calls) = lastAllPixels calls := by
  have hlt : line % 64 < 64 := Nat.mod_lt _ (by decide)
  have hon : lcdCmdAllPixOn 1 = 165 := rfl
  have hoff : lcdCmdAllPixOn 0 = 164 := rfl
  rw [lastAllPixels, lcdCmdStartLine_eq, hon, hoff, if_neg (by omega), if_neg (by omega)]

theorem setCursor_lastAllPixels (hfont : s.pCurFont = some font) (row col : ℕ)
    (mode : CursorMode) :
    lastAllPixels (setCursor fw row col mode s).trace = lastAllPixels s.trace := by
  have hscroll (row' : ℕ) (t : Os3k) : lastAllPixels (setCursorMode mode
      (clearRow fw font (placeCursor font row' col (sendRoll t)))).trace =
      lastAllPixels t.trace := lastAllPixels_startLine ..
  unfold setCursor
  simp only [hfont]
  split_ifs
  · exact hscroll ..
  · exact hscroll ..
  · rfl

/-- A glyph sends no command of its own. -/
theorem drawGlyph_inOrder_iff (b : ℕ) (mode : CursorMode) :
    InOrder (setCursorMode mode (drawGlyph fw font b s)) ↔ InOrder s :=
  ⟨fun h => ⟨h.pixels,h.left,h.right⟩,fun h => ⟨h.pixels,h.left,h.right⟩⟩

/-- The bell ends with the pixels lit, whatever went before. -/
theorem bell_lastAllPixels (mode : CursorMode) :
    lastAllPixels (bell mode s).trace = some true := rfl

theorem visible_of_allPixOn (hleft : s.lcd.left.allPixOn = true)
    (hright : s.lcd.right.allPixOn = true) (line col : ℕ) : visible s line col = true := by
  by_cases hcol : col < s.lcdWidth / 2
  · simp [visible, hcol, hleft]
  · simp [visible, hcol, hright]

/-- So every pixel of the LCD shows lit after it. -/
theorem visible_bell (mode : CursorMode) (line col : ℕ) :
    visible (bell mode s) line col = true :=
  visible_of_allPixOn rfl rfl line col

/-! ### One call -/

theorem setCursor_inOrder_iff (hready : Ready s) (hfont : s.pCurFont = some font)
    (h : InOrder s) (row col : ℕ) (mode : CursorMode) :
    InOrder (setCursor fw row col mode s) ↔ ScrollFits font row s := by
  have hagrees : Agrees font (setCursor fw row col mode s) ↔ ScrollFits font row s :=
    setCursor_agrees_iff hready hfont h.left h.right row col mode
  rw [← hagrees]
  constructor
  · exact fun h' => setCursor_agrees_of_left hfont h.right h'.left
  · exact fun h' => ⟨by rw [setCursor_lastAllPixels hfont]; exact h.pixels,h'.left,h'.right⟩

theorem emit_inOrder_iff (hready : Ready s) (hfont : s.pCurFont = some font) (h : InOrder s)
    (b : ℕ) : InOrder (emit fw s b) ↔ QuietByte font b s := by
  have hset (row col : ℕ) (mode : CursorMode) :
      InOrder (setCursor fw row col mode s) ↔ ScrollFits font row s :=
    setCursor_inOrder_iff hready hfont h row col mode
  unfold emit fputcStdout QuietByte
  simp only [hfont]
  split_ifs with hbell hbs hback hlf hcr
  · exact ⟨fun h' => h'.pixels (bell_lastAllPixels _),False.elim⟩
  · rw [backspace, if_pos hback]
    exact hset ..
  · rw [backspace, if_neg hback]
    exact hset ..
  · exact hset ..
  · exact hset ..
  · rw [putGlyph, drawGlyph_inOrder_iff, wrapOrHide]
    by_cases hmargin : AtMargin s
    · rw [AtMargin] at hmargin
      rw [if_pos hmargin, hset]
      exact ⟨fun hfits _ => hfits,fun hfits => hfits hmargin⟩
    · rw [AtMargin] at hmargin
      rw [if_neg hmargin]
      exact ⟨fun _ hat => absurd hat hmargin,fun _ => ⟨h.pixels,h.left,h.right⟩⟩

theorem clearScreen_inOrder (hready : Ready s) (h : InOrder s) : InOrder (clearScreen fw s) := by
  obtain ⟨font,hfont⟩ := hready.font
  have hagrees : Agrees font (clearScreen fw s) := clearScreen_agrees hready hfont
  refine ⟨?_,hagrees.left,hagrees.right⟩
  simp only [clearScreen, os3kClearScreen, hfont]
  exact (lastAllPixels_startLine 0 _).trans_ne h.pixels

theorem output_inOrder_iff (hready : Ready s) (h : InOrder s) (o : Output) :
    InOrder (output fw s o) ↔ Quiet s o := by
  obtain ⟨font,hfont⟩ := hready.font
  have huniq (P : FontHeader → Prop) : P font ↔ ∀ f, s.pCurFont = some f → P f := by
    simp [hfont]
  cases o with
  | clearScreen => exact ⟨fun _ => trivial,fun _ => clearScreen_inOrder hready h⟩
  | setCursor row col mode =>
    exact (setCursor_inOrder_iff hready hfont h ..).trans (huniq fun f => ScrollFits f (u8 row) s)
  | fputc c =>
    exact (emit_inOrder_iff hready hfont h (u8 c)).trans (huniq fun f => QuietByte f (u8 c) s)

/-- Every path ends by setting the mode that was asked for or read on entry. -/
theorem output_mode (hfont : s.pCurFont = some font) (o : Output) :
    (output fw s o).cursorMode = o.mode s := by
  have hmode (mode : CursorMode) (t : Os3k) : (setCursorMode mode t).cursorMode = mode := rfl
  have hset (row col : ℕ) (mode : CursorMode) :
      (setCursor fw row col mode s).cursorMode = mode := by
    unfold setCursor
    simp only [hfont]
    split_ifs <;> exact hmode ..
  cases o with
  | clearScreen =>
    simp only [output, clearScreen, os3kClearScreen, hfont]
    rfl
  | setCursor row col mode => exact hset ..
  | fputc c =>
    change (fputcStdout fw (u8 c) s).2.cursorMode = s.cursorMode
    unfold fputcStdout
    simp only [hfont]
    split_ifs
    · exact hmode ..
    · unfold backspace
      split_ifs <;> exact hset ..
    · exact hset ..
    · exact hset ..
    · exact hmode ..

theorem Ready.output (h : Ready s) (o : Output) : Ready (output fw s o) := by
  cases o with
  | clearScreen =>
    have hstep : Ready (step fw ⟨true,s⟩ .clearScreen).os3k := Ready.step h .clearScreen
    exact hstep
  | setCursor row col mode => exact h.setCursor _ (u8_lt _) _
  | fputc c => exact h.emit (u8 c)

/-- One call: all that is asked of it holds exactly under its condition. -/
theorem undisturbed_iff_quiet (hready : Ready s) (h : InOrder s) (o : Output) :
    Undisturbed fw s o ↔ Quiet s o := by
  obtain ⟨font,hfont⟩ := hready.font
  constructor
  · exact fun hund => (output_inOrder_iff hready h o).mp hund.inOrder
  · intro hquiet
    refine ⟨(output_inOrder_iff hready h o).mpr hquiet,output_mode hfont o,?_⟩
    rintro c rfl hbell
    have hbyte : QuietByte font (u8 c) s := hquiet font hfont
    rw [QuietByte, if_pos hbell] at hbyte
    exact hbyte.elim

/-! ### Runs -/

theorem output_sameScreen (hfont : s.pCurFont = some font) (o : Output) :
    SameScreen s (output fw s o) := by
  cases o with
  | clearScreen =>
    simp only [output, clearScreen, os3kClearScreen, hfont]
    exact ⟨hfont.symm,rfl,rfl,rfl,rfl⟩
  | setCursor row col mode => exact setCursor_sameScreen ..
  | fputc c => exact (fputcStdout_sameScreen fw hfont (u8 c)).1

theorem call_eq_foldl (hfont : s.pCurFont = some font) (c : LibraryCall) :
    call fw s c = c.outputs.foldl (output fw) s := by
  cases c with
  | output o => rfl
  | fputs str =>
    have hbytes := ReferenceTerminal.write_eq_foldl fw hfont (.fputs str)
    simp only [ReferenceTerminal.Write.bytes, List.foldl_map] at hbytes
    simp only [LibraryCall.outputs, List.foldl_map]
    exact hbytes

/-- A string leaves what its last byte leaves, and the mode passes from byte to byte. -/
theorem outputs_undisturbed (h : InOrder s) {c : LibraryCall} (hfont : s.pCurFont = some font)
    (hs : Along (output fw) (Undisturbed fw) s c.outputs) : CallUndisturbed fw s c := by
  cases c with
  | output o => exact hs.1
  | fputs str =>
    rw [CallUndisturbed, call_eq_foldl hfont]
    clear hfont
    induction str generalizing s with
    | nil => exact ⟨h,rfl⟩
    | cons b str ih =>
      obtain ⟨hinOrder,hmode⟩ := ih hs.1.inOrder hs.2
      exact ⟨hinOrder,hmode.trans hs.1.mode⟩

theorem calls_undisturbed (h : InOrder s) {cs : List LibraryCall} (hfont : s.pCurFont = some font)
    (hs : Along (output fw) (Undisturbed fw) s (cs.flatMap LibraryCall.outputs)) :
    Along (call fw) (CallUndisturbed fw) s cs := by
  induction cs generalizing s with
  | nil => trivial
  | cons c cs ih =>
    rw [List.flatMap_cons, along_append] at hs
    rw [← call_eq_foldl hfont] at hs
    have hcall : CallUndisturbed fw s c := outputs_undisturbed h hfont hs.1
    have hinOrder : InOrder (call fw s c) := by
      cases c with
      | output o => exact hcall.inOrder
      | fputs str => exact hcall.1
    have hfont' : (call fw s c).pCurFont = some font := by
      rw [call_eq_foldl hfont]
      exact List.foldlRecOn (motive := fun t : Os3k => t.pCurFont = some font) c.outputs _ hfont
        fun t ht o _ => (output_sameScreen ht o).1.trans ht
    exact ⟨hcall,ih hinOrder hfont' hs.2⟩

/-- Over any run of calls: every call, those of `fputc` inside `fputs` included,
leaves the display in order exactly if every byte and every position is quiet in
the state that receives it. -/
theorem calls_undisturbed_iff_quiet (hready : Ready s) (h : InOrder s) (cs : List LibraryCall) :
    (Along (call fw) (CallUndisturbed fw) s cs ∧
      Along (output fw) (Undisturbed fw) s (cs.flatMap LibraryCall.outputs)) ↔
    Along (output fw) (fun t o => Quiet t o) s (cs.flatMap LibraryCall.outputs) := by
  obtain ⟨font,hfont⟩ := hready.font
  have hiff : Along (output fw) (Undisturbed fw) s (cs.flatMap LibraryCall.outputs) ↔
      Along (output fw) (fun t o => Quiet t o) s (cs.flatMap LibraryCall.outputs) := by
    refine along_iff_along (I := fun t => Ready t ∧ InOrder t) (L := fun _ => True)
      ?_ ?_ ⟨hready,h⟩ fun _ _ => trivial
    · intro t o ht _ hquiet
      have hund : Undisturbed fw t o := (undisturbed_iff_quiet ht.1 ht.2 o).mpr hquiet
      exact ⟨hund,Ready.output ht.1 o,hund.inOrder⟩
    · exact fun t o ht _ hund => (undisturbed_iff_quiet ht.1 ht.2 o).mp hund
  rw [hiff]
  exact ⟨fun hall => hall.2,fun hquiet => ⟨calls_undisturbed h hfont (hiff.mpr hquiet),hquiet⟩⟩

/-- On 64 lines every scroll fits, so the bell is all there is to avoid. -/
theorem quiet_iff_noBell (hready : Ready s) (h : InOrder s) (hfont : s.pCurFont = some font)
    (hlines : s.lcdHeight = 64) (hheight : font.height ≤ 64) (o : Output) :
    Quiet s o ↔ ∀ c, o = .fputc c → u8 c ≠ 0x07 := by
  have hfits (row : ℕ) : ScrollFits font row s := by
    have hlt := hready.startLine
    have hleft := h.left
    exact scrollFits_of_lines (by omega) (by omega) (by omega) (by omega) row
  have huniq {f : FontHeader} (hf : s.pCurFont = some f) : font = f :=
    Option.some.inj (hfont.symm.trans hf)
  cases o with
  | clearScreen => exact ⟨fun _ _ hc => (nomatch hc),fun _ => trivial⟩
  | setCursor row col mode =>
    exact ⟨fun _ _ hc => (nomatch hc),fun _ f hf => huniq hf ▸ hfits _⟩
  | fputc c =>
    constructor
    · rintro hquiet c' ⟨⟩ hbell
      have hbyte := hquiet font hfont
      rw [QuietByte, if_pos hbell] at hbyte
      exact hbyte
    · intro hne f hf
      obtain rfl := huniq hf
      unfold QuietByte
      rw [if_neg (hne c rfl)]
      split_ifs
      · exact hfits _
      · exact hfits _
      · exact hfits _
      · exact hfits _
      · exact fun _ => hfits _

/-- On a 64-line LCD: a run of calls leaves the display in order throughout exactly
if it writes no bell. -/
theorem calls_undisturbed_iff_noBell (hready : Ready s) (h : InOrder s)
    (hfont : s.pCurFont = some font) (hlines : s.lcdHeight = 64) (hheight : font.height ≤ 64)
    (cs : List LibraryCall) :
    Along (output fw) (Undisturbed fw) s (cs.flatMap LibraryCall.outputs) ↔
      ∀ o ∈ cs.flatMap LibraryCall.outputs, ∀ c, o = .fputc c → u8 c ≠ 0x07 := by
  refine Iff.trans (b := Along (output fw) (fun _ o => ∀ c, o = .fputc c → u8 c ≠ 0x07) s _) ?_
    along_const_iff
  refine along_iff_along (L := fun _ => True) (I := fun t =>
    Ready t ∧ InOrder t ∧ t.pCurFont = some font ∧ t.lcdHeight = 64) ?_ ?_
    ⟨hready,h,hfont,hlines⟩ fun _ _ => trivial
  · rintro t o ⟨hr,ho,hf,hl⟩ - hbell
    have hund : Undisturbed fw t o :=
      (undisturbed_iff_quiet hr ho o).mpr ((quiet_iff_noBell hr ho hf hl hheight o).mpr hbell)
    have hsame : SameScreen t (output fw t o) := output_sameScreen hf o
    exact ⟨hund,Ready.output hr o,hund.inOrder,hsame.1.trans hf,hsame.2.2.1.trans hl⟩
  · rintro t o ⟨hr,ho,hf,hl⟩ - hund
    exact (quiet_iff_noBell hr ho hf hl hheight o).mp ((undisturbed_iff_quiet hr ho o).mp hund)

theorem ready_neoFocused : Ready neoFocused :=
  ⟨⟨neoFont,rfl⟩,by decide,by decide,by decide,by decide,by decide⟩

theorem inOrder_neoFocused : InOrder neoFocused := ⟨by decide,by decide,by decide⟩

/-- A greeting and a position below the last row. -/
def greeting : List LibraryCall :=
  [.output .clearScreen,.fputs [0x48,0x0A],.output (.setCursor 9 1 .shown)]

theorem calls_undisturbed_iff_quiet_neo :
    Along (call neoFirmware) (CallUndisturbed neoFirmware) neoFocused greeting := by
  refine ((calls_undisturbed_iff_quiet ready_neoFocused inOrder_neoFocused greeting).mpr
    ?_).1
  refine ⟨trivial,?_,?_,?_,trivial⟩
  · intro font hfont
    obtain rfl := Option.some.inj hfont
    decide
  · intro font hfont
    obtain rfl := Option.some.inj hfont
    decide
  · intro font hfont
    obtain rfl := Option.some.inj hfont
    decide

/-- `"\a"` on a cleared Neo screen: the command that should switch the test mode
off is the one that switches it on. -/
theorem bell_leaves_pixels_on :
    let s := clearScreen neoFirmware neoFocused
    let t := output neoFirmware s (.fputc 0x07)
    (s.trace.head? = some (.lcdCommand 0x40) ∧ t.trace.take 2 =
      [.setCursorMode s.cursorMode,.lcdCommand 0xA5]) ∧
    (∀ line col, visible s line col = false ∧ visible t line col = true) ∧
    ¬ Along (call neoFirmware) (CallUndisturbed neoFirmware) neoFocused
      [.output .clearScreen,.output (.fputc 0x07)] := by
  intro s t
  refine ⟨⟨rfl,rfl⟩,fun line col => ⟨?_,visible_bell _ line col⟩,?_⟩
  · have hoff : s.lcd.left.allPixOn = false ∧ s.lcd.right.allPixOn = false := ⟨rfl,rfl⟩
    have hram : s.lcd.ram = fun _ _ => false := rfl
    by_cases hcol : col < s.lcdWidth / 2
    · simp [visible, CircularLines.view, hcol, hoff.1, hram]
    · simp [visible, CircularLines.view, hcol, hoff.2, hram]
  · exact fun hrun => hrun.2.1.inOrder.pixels (bell_lastAllPixels _)

end Betawise.DisplayMode
