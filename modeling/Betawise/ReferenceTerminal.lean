import Betawise.EventRuns
import Betawise.TerminalScroll

/-!
# The terminal refines a plain character terminal

The reference terminal is a grid of characters with a cursor. It knows nothing
of rolls, pixels or start lines: a printing byte is put in the cursor's cell, a
line feed on the last row moves every row up, and column `cols + 1` is the right
margin, where the next printing byte first goes to the next line.

The library keeps the same picture in a circular LCD memory. `Shows` relates the
two: the cursor is on the same cell of a coherent state, and every pixel of the
displayed picture is the pixel of the reference terminal's glyph there.
-/
namespace Betawise.ReferenceTerminal
open Os3kState Os3kTerminal TerminalGeometry TerminalScroll EventRuns

/-! ### The reference terminal -/

structure Reference where
  row : ℕ
  col : ℕ
  cell : ℕ → ℕ → Option ℕ

namespace Reference

/-- A cleared screen with the cursor at home. -/
def blank : Reference := ⟨1,1,fun _ _ => none⟩

/-- Column 1 of the next row; on the last row the screen scrolls up by one. -/
def nextLine (rows : ℕ) (t : Reference) : Reference :=
  if t.row < rows then { t with row := t.row + 1, col := 1 }
  else ⟨rows,1,fun r c => if r < rows then t.cell (r + 1) c else none⟩

/-- The character goes to the cursor's cell, which advances. -/
def place (b : ℕ) (t : Reference) : Reference :=
  { t with
    cell := fun r c => if r = t.row ∧ c = t.col then some b else t.cell r c
    col := t.col + 1 }

def put (rows cols b : ℕ) (t : Reference) : Reference :=
  place b (if t.col = cols + 1 then t.nextLine rows else t)

/-- One cell back, from column 1 to the last column of the row above. -/
def back (cols : ℕ) (t : Reference) : Reference :=
  if 1 < t.col then { t with col := t.col - 1 } else { t with row := t.row - 1, col := cols }

/-- One byte of output; the bell does not show. -/
def step (rows cols : ℕ) (t : Reference) (b : ℕ) : Reference :=
  if b = 0x07 then t
  else if b = 0x08 then t.back cols
  else if b = 0x0A then t.nextLine rows
  else if b = 0x0D then { t with col := 1 }
  else t.put rows cols b

/-- The bytes that a backspace at the home cell is not among. -/
def NotHomeBackspace (t : Reference) (b : ℕ) : Prop := ¬ (b = 0x08 ∧ t.row = 1 ∧ t.col = 1)

instance (t : Reference) (b : ℕ) : Decidable (t.NotHomeBackspace b) :=
  inferInstanceAs (Decidable (¬ _))

/-- Glyph `b` as the font stores it: `max_bytes` bytes for each character. -/
def glyph (fw : Firmware) (font : FontHeader) (b dx dy : ℕ) : Bool :=
  fw.bitmapPixel ((font.bitmapData + font.maxBytes * b) % 4294967296) font.maxWidth font.height
    dx dy

/-- The picture of the grid, in cells six columns wide. -/
def pixel (fw : Firmware) (font : FontHeader) (t : Reference) (line col : ℕ) : Bool :=
  match t.cell (line / font.height + 1) (col / 6 + 1) with
  | none => false
  | some b => glyph fw font b (col % 6) (line % font.height)

end Reference

/-! ### Writes to `stdout` -/

/-- A call of `fputc` or `fputs` with `stdout`. -/
inductive Write where
  | fputc (c : ℤ)
  | fputs (str : List ℕ)

def Write.bytes : Write → List ℕ
  | .fputc c => [u8 c]
  | .fputs str => str.map fun b : ℕ => u8 b

def write (fw : Firmware) (s : Os3k) : Write → Os3k
  | .fputc c => (fputc fw c stdout s).2
  | .fputs str => (fputs fw stdout str s).2

/-- With a font every call returns its byte, so `fputs` never stops early. -/
theorem write_eq_foldl (fw : Firmware) {font : FontHeader} {s : Os3k}
    (hfont : s.pCurFont = some font) (w : Write) : write fw s w = w.bytes.foldl (emit fw) s := by
  cases w with
  | fputc c => rfl
  | fputs str =>
    induction str generalizing s with
    | nil => rfl
    | cons c cs ih =>
      have hsame := fputcStdout_sameScreen fw hfont (u8 c)
      have hput : fputc fw c stdout s = fputcStdout fw (u8 c) s := rfl
      change (if (fputc fw c stdout s).1 < 0 then _ else _ : ℤ × Os3k).2 = _
      rw [hput, if_neg (by omega)]
      exact ih (hsame.1.1.trans hfont)

theorem writes_eq_foldl (fw : Firmware) {font : FontHeader} {s : Os3k}
    (hfont : s.pCurFont = some font) (ws : List Write) :
    ws.foldl (write fw) s = (ws.flatMap Write.bytes).foldl (emit fw) s := by
  induction ws generalizing s with
  | nil => rfl
  | cons w ws ih =>
    have hkeep : ∀ (bs : List ℕ) (t : Os3k), t.pCurFont = some font →
        (bs.foldl (emit fw) t).pCurFont = some font := by
      intro bs
      induction bs with
      | nil => exact fun t ht => ht
      | cons b bs ihb =>
        exact fun t ht => ihb _ ((fputcStdout_sameScreen fw ht b).1.1.trans ht)
    rw [List.foldl_cons, List.flatMap_cons, List.foldl_append, write_eq_foldl fw hfont w]
    exact ih (hkeep _ _ hfont)

/-! ### The simulation -/

/-- The library's state shows what the reference terminal holds. -/
structure Shows (fw : Firmware) (font : FontHeader) (s : Os3k) (t : Reference) : Prop where
  cell : AtCell fw font t.row t.col s
  pixels : ∀ line < 64, ∀ c < s.lcdWidth, picture s line c = t.pixel fw font line c

variable {fw : Firmware} {font : FontHeader} {s : Os3k} {t : Reference}

/-- Up to 128 bytes for each glyph the offset fits the `short`. -/
theorem glyphPixel_eq (hbytes : font.maxBytes ≤ 128) {b : ℕ} (hb : b < 256) (dx dy : ℕ) :
    glyphPixel fw font b dx dy = Reference.glyph fw font b dx dy := by
  have hmul : font.maxBytes * b ≤ 128 * 255 := Nat.mul_le_mul hbytes (by omega)
  have haddr : glyphAddress font b = (font.bitmapData + font.maxBytes * b) % 4294967296 := by
    have hshort : s16 ((font.maxBytes : ℤ) * (b : ℤ)) = ((font.maxBytes * b : ℕ) : ℤ) := by
      simp only [s16]
      push_cast at hmul ⊢
      omega
    rw [glyphAddress, hshort]
    simp only [u32]
    omega
  rw [glyphPixel, Reference.glyph, haddr]

/-- A line feed, and the wrap that the right margin deferred. -/
theorem nextLine_shows (h : Shows fw font s t) (mode : CursorMode) :
    Shows fw font (setCursor fw (u8 (s.curRow + 1)) 1 mode s) (t.nextLine s.maxRow) := by
  have hc := h.cell
  have hrow := hc.row
  have hcols := hc.cols
  have hsame := setCursor_sameScreen fw (u8 (s.curRow + 1)) 1 mode s
  have hmax := hc.toGeometry.maxRow_le
  have hnext : u8 (s.curRow + 1) = s.curRow + 1 := u8_succ (by omega)
  rw [hnext] at hsame ⊢
  unfold Reference.nextLine
  split
  · rename_i hlt
    have hnext : 1 ≤ s.curRow + 1 ∧ s.curRow + 1 ≤ s.maxRow := ⟨by omega,by rw [hc.curRow]; omega⟩
    obtain ⟨hat,hpicture⟩ := setCursor_inside hc.toGeometry hc.toRolled hnext
      (⟨Nat.le_refl 1,by omega⟩ : 1 ≤ 1 ∧ 1 ≤ s.maxCol + 1) mode
    refine ⟨⟨hat.toCoherent,hat.curRow.trans (by rw [hc.curRow]),hat.curCol⟩,?_⟩
    intro line hline c hw
    rw [hpicture]
    exact h.pixels line hline c (by rw [← hsame.2.1]; exact hw)
  · rename_i hge
    have hnext : s.maxRow < s.curRow + 1 := by rw [hc.curRow]; omega
    obtain ⟨hat,hpicture⟩ := setCursor_below hc.toGeometry hc.toRolled hnext
      ⟨Nat.le_refl 1,hc.cols.1⟩ mode
    refine ⟨⟨hat.toCoherent,hat.curRow,hat.curCol⟩,?_⟩
    intro line hline c hw
    rw [hsame.2.1] at hw
    rw [hpicture line hline c hw]
    -- rows of the grid move up exactly as blocks of lines do
    have hmul := hc.rows_mul
    have hblock : line + font.height < 64 ↔ line / font.height + 1 < s.maxRow := by
      rcases hc.height with h8 | h8 <;> rw [h8] at hmul ⊢ <;> omega
    have hdiv : (line + font.height) / font.height = line / font.height + 1 :=
      Nat.add_div_right line hc.height_pos
    by_cases hup : line + font.height < 64
    · rw [if_pos hup, h.pixels _ hup c hw]
      simp only [Reference.pixel, hdiv, Nat.add_mod_right, if_pos (hblock.mp hup)]
    · rw [if_neg hup, if_pos (by omega)]
      simp only [Reference.pixel, if_neg (fun hlt => hup (hblock.mpr hlt))]

/-- A glyph drawn left of the margin. -/
theorem drawGlyph_shows (h : Shows fw font s t) (hcols : s.maxCol ≤ 254)
    (hbytes : font.maxBytes ≤ 128) {b : ℕ} (hb : b < 256) (hcol : t.col ≤ s.maxCol) :
    Shows fw font (drawGlyph fw font b s) (t.place b) := by
  have hc := h.cell
  have hcur : s.curCol ≤ s.maxCol := by
    rw [hc.curCol]
    exact hcol
  have hpos := hc.col.1
  refine ⟨hc.drawGlyph hcol (hcol.trans hcols) b,fun line hline c hw => ?_⟩
  rw [hc.toCoherent.picture_drawGlyph hcur b hline hw, glyphPixel_eq hbytes hb,
    h.pixels line hline c hw]
  have hcell : line / font.height = s.curRow - 1 ∧ c / 6 = s.curCol - 1 ↔
      line / font.height + 1 = t.row ∧ c / 6 + 1 = t.col := by
    rw [← hc.curRow, ← hc.curCol]
    have := hc.row
    omega
  simp only [hcell, Reference.pixel, Reference.place]
  split <;> rfl

theorem Shows.setCursorMode (h : Shows fw font s t) (mode : CursorMode) :
    Shows fw font (setCursorMode mode s) t :=
  ⟨⟨coherent_setCursorMode h.cell.toCoherent mode,h.cell.curRow,h.cell.curCol⟩,h.pixels⟩

theorem putGlyph_shows (h : Shows fw font s t) (hcols : s.maxCol ≤ 254)
    (hbytes : font.maxBytes ≤ 128) {b : ℕ} (hb : b < 256) (mode : CursorMode) :
    Shows fw font (putGlyph fw font b mode s) (t.put s.maxRow s.maxCol b) := by
  unfold putGlyph Reference.put wrapOrHide
  refine Shows.setCursorMode ?_ mode
  by_cases hmargin : t.col = s.maxCol + 1
  · rw [if_pos hmargin, if_pos (h.cell.margin_iff.mpr hmargin)]
    have hnext := nextLine_shows h .hide
    have hsame := setCursor_sameScreen fw (u8 (s.curRow + 1)) 1 .hide s
    have hhome : (t.nextLine s.maxRow).col = 1 := by
      unfold Reference.nextLine
      split <;> rfl
    refine drawGlyph_shows hnext ?_ hbytes hb ?_
    · rw [hsame.2.2.2.2]
      exact hcols
    · rw [hhome, hsame.2.2.2.2]
      exact h.cell.cols.1
  · rw [if_neg hmargin, if_neg (fun hx => hmargin (h.cell.margin_iff.mp hx))]
    have hcol := h.cell.col
    rw [h.cell.curCol] at hcol
    have hinside : t.col ≤ s.maxCol := by omega
    exact drawGlyph_shows (h.setCursorMode .hide) hcols hbytes hb hinside

/-- Moving the cursor inside the screen does not change what is shown. -/
theorem setCursor_shows (h : Shows fw font s t) {row col : ℕ}
    (hrow : 1 ≤ row ∧ row ≤ s.maxRow) (hcol : 1 ≤ col ∧ col ≤ s.maxCol + 1) (mode : CursorMode) :
    Shows fw font (setCursor fw row col mode s) { t with row := row, col := col } := by
  obtain ⟨hat,hpicture⟩ := setCursor_inside h.cell.toGeometry h.cell.toRolled hrow hcol mode
  have hsame := setCursor_sameScreen fw row col mode s
  refine ⟨⟨hat.toCoherent,hat.curRow,hat.curCol⟩,?_⟩
  intro line hline c hw
  rw [hpicture, h.pixels line hline c (by rw [← hsame.2.1]; exact hw)]
  rfl

theorem backspace_shows (h : Shows fw font s t) (hcols : s.maxCol ≤ 254)
    (hhome : ¬ (t.row = 1 ∧ t.col = 1)) (mode : CursorMode) :
    Shows fw font (backspace fw mode s) (t.back s.maxCol) := by
  have hrow := h.cell.row
  have hcol := h.cell.col
  have hcols₁ := h.cell.cols
  have hmax := h.cell.toGeometry.maxRow_le
  rw [h.cell.curRow] at hrow
  rw [h.cell.curCol] at hcol
  unfold backspace Reference.back
  rw [h.cell.curRow, h.cell.curCol]
  split
  · rw [u8_pred (by omega) (by omega)]
    exact setCursor_shows h hrow ⟨by omega,by omega⟩ mode
  · rw [u8_pred (by omega) (by omega)]
    exact setCursor_shows h ⟨by omega,by omega⟩ ⟨by omega,by omega⟩ mode

theorem bell_shows (h : Shows fw font s t) (mode : CursorMode) :
    Shows fw font (bell mode s) t := by
  refine bell_rule (P := (Shows fw font · t))
    (fun u lcd mode trace h hleft hright hram => ?_) h mode
  have hc := h.cell
  refine ⟨⟨⟨hc.toGeometry.of_fields rfl rfl rfl rfl rfl,hc.toRolled.of_fields rfl hleft hright,
    hc.row,hc.col,hc.x,hc.y⟩,hc.curRow,hc.curCol⟩,fun line hline c hc => ?_⟩
  rw [picture, hram]
  exact h.pixels line hline c hc

/-- One byte of output. -/
theorem emit_shows (h : Shows fw font s t) (hcols : s.maxCol ≤ 254)
    (hbytes : font.maxBytes ≤ 128) {b : ℕ} (hb : b < 256) (hback : t.NotHomeBackspace b) :
    Shows fw font (emit fw s b) (t.step s.maxRow s.maxCol b) := by
  have hrow := h.cell.row
  unfold emit fputcStdout Reference.step
  simp only [h.cell.pCurFont]
  split_ifs with hbell hbs hlf hcr
  · exact bell_shows h _
  · exact backspace_shows h hcols (fun hhome => hback ⟨hbs,hhome⟩) _
  · exact nextLine_shows h _
  · rw [h.cell.curRow] at hrow ⊢
    exact setCursor_shows h hrow ⟨Nat.le_refl 1,by omega⟩ _
  · exact putGlyph_shows h hcols hbytes hb _

theorem Write.bytes_lt (w : Write) : ∀ b ∈ w.bytes, b < 256 := by
  intro b hb
  cases w with
  | fputc c =>
    obtain rfl := List.mem_singleton.mp hb
    exact u8_lt c
  | fputs str =>
    obtain ⟨c,-,rfl⟩ := List.mem_map.mp hb
    exact u8_lt c

/-- After `ClearScreen`, whatever is written to `stdout`, the LCD shows what the
reference terminal holds and the cursor is where the reference cursor is. Both
controllers start at the line from which `picture` reads the memory. -/
theorem terminal_refines_reference (g : Geometry fw font s) (hbytes : font.maxBytes ≤ 128)
    (hcols : 2 ≤ s.maxCol ∧ s.maxCol ≤ 254) (ws : List Write)
    (hback : Along (Reference.step s.maxRow s.maxCol) Reference.NotHomeBackspace Reference.blank
      (ws.flatMap Write.bytes)) :
    let u := ws.foldl (write fw) (clearScreen fw s)
    let t := (ws.flatMap Write.bytes).foldl (Reference.step s.maxRow s.maxCol) Reference.blank
    (u.curRow = t.row ∧ u.curCol = t.col) ∧
      ∀ line < 64, ∀ c < s.lcdWidth,
        picture u line c = t.pixel fw font line c ∧ displayed u line c = picture u line c := by
  intro u t
  obtain ⟨hhome,hblank⟩ := clearScreen_home g
  have hsame := clearScreen_sameScreen fw g.pCurFont
  have hshows : Shows fw font (clearScreen fw s) Reference.blank :=
    ⟨hhome,fun line _ c _ => hblank line c⟩
  have hlt : ∀ b ∈ ws.flatMap Write.bytes, b < 256 := by
    intro b hb
    obtain ⟨w,-,hw⟩ := List.mem_flatMap.mp hb
    exact w.bytes_lt b hw
  -- the relation also carries the screen's size, which the reference steps by
  have hrun : Shows fw font u t ∧ SameScreen s u := by
    have hu : u = (ws.flatMap Write.bytes).foldl (emit fw) (clearScreen fw s) :=
      writes_eq_foldl fw hhome.pCurFont ws
    rw [hu]
    refine simulation (R := fun u t => Shows fw font u t ∧ SameScreen s u) ?_ ⟨hshows,hsame⟩
      (hback.and_mem hlt)
    rintro v t b ⟨h,hv⟩ ⟨hok,hb⟩
    have hemit := (fputcStdout_sameScreen fw h.cell.pCurFont b).1
    have hnext := emit_shows h (by rw [hv.2.2.2.2]; exact hcols.2) hbytes hb hok
    rw [hv.2.2.2.1, hv.2.2.2.2] at hnext
    exact ⟨hnext,hv.trans hemit⟩
  obtain ⟨h,hu⟩ := hrun
  refine ⟨⟨h.cell.curRow,h.cell.curCol⟩,?_⟩
  intro line hline c hc
  exact ⟨h.pixels line hline c (by rw [hu.2.1]; exact hc),h.cell.displayed_eq line c⟩

/-- A line that wraps on the Neo, rubbed out to the row above, then a scroll. -/
theorem terminal_refines_reference_neo :
    let ws := [Write.fputs (List.replicate 45 65),.fputc 8,.fputc 8,.fputs (List.replicate 9 10)]
    let u := ws.foldl (write neoFirmware) (clearScreen neoFirmware neoFocused)
    let t := (ws.flatMap Write.bytes).foldl (Reference.step 8 44) Reference.blank
    (u.curRow = t.row ∧ u.curCol = t.col) ∧
      ∀ line < 64, ∀ c < 264,
        picture u line c = t.pixel neoFirmware neoFont line c ∧
          displayed u line c = picture u line c :=
  terminal_refines_reference geometry_neoFocused (by decide) (by decide) _
    (by decide +kernel)

end Betawise.ReferenceTerminal
