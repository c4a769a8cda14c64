import Betawise.ReferenceTerminal

/-!
# Text inside a row

Printing bytes written from a cell that leaves room for them up to the right margin
fill one cell each. They scroll nothing, and no other cell changes.
-/
namespace Betawise.TypedText
open Os3kState Os3kTerminal TerminalGeometry TerminalScroll ReferenceTerminal

/-- The bytes that `fputc` draws. -/
def Printing (b : ℕ) : Prop := b ≠ 0x07 ∧ b ≠ 0x08 ∧ b ≠ 0x0A ∧ b ≠ 0x0D

/-- The cell shows glyph `b`. -/
def ShowsByte (fw : Firmware) (font : FontHeader) (s : Os3k) (row col b : ℕ) : Prop :=
  ∀ line < 64, ∀ x < s.lcdWidth, line / font.height + 1 = row → x / 6 + 1 = col →
    picture s line x = glyphPixel fw font b (x % 6) (line % font.height)

/-- Nothing changed but cells `col` up to `stop` of the row. -/
def OnlyCells (font : FontHeader) (row col stop : ℕ) (s t : Os3k) : Prop :=
  ∀ line < 64, ∀ x < s.lcdWidth,
    ¬ (line / font.height + 1 = row ∧ col ≤ x / 6 + 1 ∧ x / 6 + 1 < stop) →
      picture t line x = picture s line x

variable {fw : Firmware} {font : FontHeader} {s t u : Os3k} {row col stop : ℕ}

theorem OnlyCells.trans (h : OnlyCells font row col stop s t) (h' : OnlyCells font row col stop t u)
    (hsame : SameScreen s t) : OnlyCells font row col stop s u := by
  intro line hline x hx hout
  rw [h' line hline x (by rw [hsame.2.1]; exact hx) hout, h line hline x hx hout]

theorem OnlyCells.mono (h : OnlyCells font row col stop s t) {col' stop' : ℕ} (hcol : col' ≤ col)
    (hstop : stop ≤ stop') : OnlyCells font row col' stop' s t :=
  fun line hline x hx hout => h line hline x hx fun hin => hout ⟨hin.1,by omega,by omega⟩

/-- A cell outside the change shows what it showed. -/
theorem ShowsByte.frame {b row' col' : ℕ} (h : ShowsByte fw font s row' col' b)
    (hsame : SameScreen s t) (honly : OnlyCells font row col stop s t)
    (hout : row' ≠ row ∨ col' < col ∨ stop ≤ col') : ShowsByte fw font t row' col' b := by
  intro line hline x hx hrow hcol
  rw [hsame.2.1] at hx
  rw [honly line hline x hx (by omega)]
  exact h line hline x hx hrow hcol

theorem emit_printing_eq (hfont : s.pCurFont = some font) {b : ℕ} (hb : Printing b) :
    emit fw s b = putGlyph fw font b s.cursorMode s := by
  obtain ⟨hbell,hback,hfeed,hreturn⟩ := hb
  unfold emit fputcStdout
  simp only [hfont, if_neg hbell, if_neg hback, if_neg hfeed, if_neg hreturn]

/-- Left of the margin nothing is wrapped. -/
theorem emit_inside (fw : Firmware) (hfont : s.pCurFont = some font)
    (hmargin : ¬ (s.cursor.x : ℤ) = s.lcdWidth - 1) {b : ℕ} (hb : Printing b) :
    emit fw s b =
      setCursorMode s.cursorMode (drawGlyph fw font b (setCursorMode .hide s)) := by
  rw [emit_printing_eq hfont hb, putGlyph, wrapOrHide, if_neg hmargin]

/-- One printing byte. -/
theorem emit_printing (h : AtCell fw font row col s) (hcol : col ≤ s.maxCol)
    (hlt : col ≤ 254) {b : ℕ} (hb : Printing b) :
    AtCell fw font row (col + 1) (emit fw s b) ∧ SameScreen s (emit fw s b) ∧
      ShowsByte fw font (emit fw s b) row col b ∧
      OnlyCells font row col (col + 1) s (emit fw s b) := by
  have hsame := (fputcStdout_sameScreen fw h.pCurFont b).1
  have hmargin : ¬ (s.cursor.x : ℤ) = s.lcdWidth - 1 := fun hx => by
    have := h.margin_iff.mp hx
    omega
  have h₁ : AtCell fw font row col (setCursorMode .hide s) :=
    ⟨coherent_setCursorMode h.toCoherent .hide,h.curRow,h.curCol⟩
  have hemit := emit_inside fw h.pCurFont hmargin hb
  have hpicture : ∀ line < 64, ∀ x < s.lcdWidth, picture (emit fw s b) line x =
      if line / font.height + 1 = row ∧ x / 6 + 1 = col
      then glyphPixel fw font b (x % 6) (line % font.height) else picture s line x := by
    intro line hline x hx
    have hdraw := h₁.toCoherent.picture_drawGlyph (by rw [h₁.curCol]; exact hcol) b hline hx
    have hcell : line / font.height = (setCursorMode .hide s).curRow - 1 ∧
        x / 6 = (setCursorMode .hide s).curCol - 1 ↔
          line / font.height + 1 = row ∧ x / 6 + 1 = col := by
      have hrow₁ := h₁.row.1
      have hcol₁ := h₁.col.1
      rw [h₁.curRow] at hrow₁ ⊢
      rw [h₁.curCol] at hcol₁ ⊢
      omega
    simp only [hcell] at hdraw
    rw [hemit]
    exact hdraw
  have hat : AtCell fw font row (col + 1) (emit fw s b) := by
    have hdrawn := h₁.drawGlyph hcol hlt b
    rw [hemit]
    exact ⟨coherent_setCursorMode hdrawn.toCoherent _,hdrawn.curRow,hdrawn.curCol⟩
  refine ⟨hat,hsame,fun line hline x hx hr hc => ?_,fun line hline x hx hout => ?_⟩
  · rw [hsame.2.1] at hx
    rw [hpicture line hline x hx, if_pos ⟨hr,hc⟩]
  · rw [hpicture line hline x hx, if_neg (by omega)]

/-- Text from a cell on. -/
structure Typed (fw : Firmware) (font : FontHeader) (row col : ℕ) (bs : List ℕ) (s t : Os3k) :
    Prop where
  atCell : AtCell fw font row (col + bs.length) t
  same : SameScreen s t
  shows : ∀ i b,bs[i]? = some b → ShowsByte fw font t row (col + i) b
  only : OnlyCells font row col (col + bs.length) s t

theorem typed_foldl {bs : List ℕ} (h : AtCell fw font row col s)
    (hcol : col + bs.length ≤ s.maxCol + 1) (hlt : col + bs.length ≤ 255)
    (hbs : ∀ b ∈ bs, Printing b) :
    Typed fw font row col bs s (bs.foldl (emit fw) s) := by
  induction bs generalizing col s with
  | nil => exact ⟨h,.refl _,nofun,fun _ _ _ _ _ => rfl⟩
  | cons b bs ih =>
    rw [List.length_cons] at hcol hlt
    obtain ⟨hat,hsame,hshows,honly⟩ :=
      emit_printing h (by omega) (by omega) (hbs b List.mem_cons_self)
    have hmax := hsame.2.2.2.2
    obtain ⟨hat',hsame',hshows',honly'⟩ := ih hat (by omega) (by omega)
      fun c hc => hbs c (List.mem_cons_of_mem b hc)
    have hlen : col + (b::bs).length = col + 1 + bs.length := by
      rw [List.length_cons]
      omega
    rw [← hlen] at hat' honly'
    refine ⟨hat',hsame.trans hsame',fun i c hc => ?_,?_⟩
    · cases i with
      | zero =>
        obtain rfl : b = c := Option.some.inj hc
        exact hshows.frame hsame' honly' (Or.inr (Or.inl (Nat.lt_succ_self col)))
      | succ i =>
        have := hshows' i c hc
        rwa [Nat.add_assoc, Nat.add_comm 1] at this
    · exact (honly.mono (Nat.le_refl col) (by omega)).trans
        (honly'.mono (Nat.le_succ col) (Nat.le_refl _)) hsame

/-- The text of one call. -/
theorem puts_eq {bs : List ℕ} (hfont : s.pCurFont = some font) (hbs : ∀ b ∈ bs, b < 256) :
    (puts fw bs s).2 = bs.foldl (emit fw) s := by
  have hbyte : ∀ b ∈ bs, u8 (b : ℤ) = b := fun b hb => u8_natCast (hbs b hb)
  have hbytes : (Write.fputs bs).bytes = bs := by
    change bs.map (fun b : ℕ => u8 b) = bs
    exact (List.map_congr_left hbyte).trans (List.map_id' bs)
  have hwrite := write_eq_foldl fw hfont (.fputs bs)
  rw [hbytes] at hwrite
  exact hwrite

theorem foldl_pCurFont (hfont : s.pCurFont = some font) (bs : List ℕ) :
    (bs.foldl (emit fw) s).pCurFont = some font := by
  induction bs generalizing s with
  | nil => exact hfont
  | cons b bs ih => exact ih ((fputcStdout_sameScreen fw hfont b).1.1.trans hfont)

/-- Text placed with `SetCursor`. -/
theorem typed_setCursor {bs : List ℕ} (g : Geometry fw font s) (r : Rolled font s)
    (hrow : 1 ≤ row ∧ row ≤ s.maxRow) (hcol : 1 ≤ col ∧ col + bs.length ≤ s.maxCol + 1)
    (hlt : col + bs.length ≤ 255) (hbs : ∀ b ∈ bs, Printing b) (mode : CursorMode) :
    Typed fw font row col bs s (bs.foldl (emit fw) (setCursor fw row col mode s)) := by
  obtain ⟨hat,hpicture⟩ := setCursor_inside g r hrow ⟨hcol.1,by omega⟩ mode
  have hsame := setCursor_sameScreen fw row col mode s
  obtain ⟨hat',hsame',hshows,honly⟩ := typed_foldl hat (by rw [hsame.2.2.2.2]; exact hcol.2) hlt hbs
  refine ⟨hat',hsame.trans hsame',hshows,fun line hline x hx hout => ?_⟩
  rw [honly line hline x (by rw [hsame.2.1]; exact hx) hout, hpicture]

end Betawise.TypedText
