import Betawise.EventRuns
import Betawise.Os3kTerminal

/-!
# Text that the firmware renders

Without a system font `g_pCurFont` stays null, `fputc` reads the position back
from the firmware before every byte, and `SetCursor` is the firmware's. The
geometry is computed only when there is a font: `g_MaxCol` keeps the zero of
`.bss`, and the backspace that goes to the row above goes to that column.
-/
namespace Betawise.FirmwareText
open Os3kState Os3kTerminal EventRuns

/-! ### Histories -/

/-- A message, and what the applet writes while it handles it. -/
structure Delivery where
  message : Message
  written : List ℤ

def deliver (fw : Firmware) (s : Os3k) (d : Delivery) : Os3k :=
  bwProcessMessage fw (fun _ t => d.written.foldl (fun u c => (fputc fw c stdout u).2) t)
    d.message s

/-- What the library does for a message before the applet has it, or for one byte. -/
inductive Event where
  | message (m : Message)
  | fputc (c : ℤ)

def step (fw : Firmware) (s : Os3k) : Event → Os3k
  | .message m => beforeApplet fw m s
  | .fputc c => (fputc fw c stdout s).2

def Delivery.events (d : Delivery) : List Event := .message d.message :: d.written.map .fputc

theorem history_eq_foldl (fw : Firmware) (s : Os3k) (history : List Delivery) :
    history.foldl (deliver fw) s = (history.flatMap Delivery.events).foldl (step fw) s := by
  induction history generalizing s with
  | nil => rfl
  | cons d history ih =>
    rw [List.foldl_cons, ih, List.flatMap_cons, List.foldl_append, Delivery.events,
      List.foldl_cons, List.foldl_map]
    rfl

/-! ### Valid cells -/

/-- The firmware counts rows and columns from 1, and reports them as bytes. -/
def OneBased (fw : Firmware) : Prop :=
  ∀ calls, (1 ≤ (fw.getCursorPos calls).1 ∧ (fw.getCursorPos calls).1 < 256) ∧
    1 ≤ (fw.getCursorPos calls).2 ∧ (fw.getCursorPos calls).2 < 256

def ValidCall : Call → Prop
  | .setCursor row col _ => 1 ≤ row ∧ 1 ≤ col
  | _ => True

/-- One cell back on a screen of `cols` columns. -/
def previousCell (cols : ℕ) (cell : ℕ × ℕ) : ℕ × ℕ :=
  if 1 < cell.2 then (cell.1,cell.2 - 1) else (cell.1 - 1,cols)

/-- A backspace moves the firmware's cursor to the cell before the reported one. -/
def MovesBack (fw : Firmware) (cols : ℕ) (s : Os3k) : Event → Prop
  | .message _ => True
  | .fputc c => u8 c = 0x08 → fw.getCursorPos s.trace ≠ (1,1) →
      (step fw s (.fputc c)).trace = .setCursor (previousCell cols (fw.getCursorPos s.trace)).1
        (previousCell cols (fw.getCursorPos s.trace)).2 s.cursorMode :: s.trace

/-- What is asked of an event: every call made so far names a valid cell. -/
structure UsesValidCells (fw : Firmware) (cols : ℕ) (s : Os3k) (e : Event) : Prop where
  calls : ∀ call ∈ (step fw s e).trace, ValidCall call
  back : MovesBack fw cols s e

/-- The condition: no backspace while the firmware reports column 1. -/
def OffColumnOne (fw : Firmware) (s : Os3k) : Event → Prop
  | .message _ => True
  | .fputc c => u8 c = 0x08 → (fw.getCursorPos s.trace).2 ≠ 1

instance (fw : Firmware) (s : Os3k) : (e : Event) → Decidable (OffColumnOne fw s e)
  | .message _ => isTrue trivial
  | .fputc c =>
    inferInstanceAs (Decidable (u8 c = 0x08 → (fw.getCursorPos s.trace).2 ≠ 1))

/-- No font was ever selected, so the geometry was never computed. -/
structure Unset (s : Os3k) : Prop where
  pCurFont : s.pCurFont = none
  maxCol : s.maxCol = 0

variable {fw : Firmware} {s : Os3k}

/-! ### One event -/

theorem unset_bss (lcd : Lcd) : Unset (bss lcd) := ⟨rfl,rfl⟩

theorem setCursor_eq (h : s.pCurFont = none) (row col : ℕ) (mode : CursorMode) :
    setCursor fw row col mode s = os3kSetCursor row col mode s := by
  simp only [setCursor, h]

/-- A reported position survives the conversion to bytes. -/
theorem OneBased.getCursorPos (hpos : OneBased fw) (s : Os3k) :
    (getCursorPos fw s).curRow = (fw.getCursorPos s.trace).1 ∧
      (getCursorPos fw s).curCol = (fw.getCursorPos s.trace).2 := by
  obtain ⟨hrow,hcol⟩ := hpos s.trace
  simp only [Os3kTerminal.getCursorPos, u8]
  omega

/-- The call a backspace makes: from column 1 it names column 0. -/
theorem backspace_trace (h : Unset s) (hpos : OneBased fw) {c : ℤ} (hc : u8 c = 0x08) :
    (step fw s (.fputc c)).trace =
      .setCursor (previousCell 0 (fw.getCursorPos s.trace)).1
        (previousCell 0 (fw.getCursorPos s.trace)).2 s.cursorMode :: s.trace := by
  obtain ⟨⟨hr1,hr2⟩,hc1,hc2⟩ := hpos s.trace
  obtain ⟨hrow,hcol⟩ := hpos.getCursorPos s
  have hfont : (getCursorPos fw s).pCurFont = none := h.pCurFont
  have hmax : (getCursorPos fw s).maxCol = 0 := h.maxCol
  have hstep : step fw s (.fputc c) = backspace fw s.cursorMode (getCursorPos fw s) := by
    change (fputcStdout fw (u8 c) s).2 = _
    simp only [fputcStdout, h.pCurFont, hc, if_true]
  rw [hstep, backspace, setCursor_eq hfont, setCursor_eq hfont, hrow, hcol, hmax]
  simp only [previousCell]
  split_ifs with hgt
  · have hu : u8 (((fw.getCursorPos s.trace).2 : ℤ) - 1) = (fw.getCursorPos s.trace).2 - 1 :=
      u8_pred (by omega) (by omega)
    rw [hu]
    rfl
  · have hu : u8 (((fw.getCursorPos s.trace).1 : ℤ) - 1) = (fw.getCursorPos s.trace).1 - 1 :=
      u8_pred (by omega) (by omega)
    rw [hu]
    rfl

/-- Every other event makes at most one call, and that one is valid. -/
theorem other_trace (h : Unset s) (hpos : OneBased fw) {e : Event}
    (he : ∀ c, e = .fputc c → u8 c ≠ 0x08) :
    (step fw s e).trace = s.trace ∨
      ∃ call, ValidCall call ∧ (step fw s e).trace = call :: s.trace := by
  cases e with
  | message m =>
    cases m with
    | init => exact .inl rfl
    | setFocus =>
      refine .inr ⟨.clearScreen,trivial,?_⟩
      simp only [step, beforeApplet, os3kClearScreen, h.pCurFont]
    | killFocus =>
      left
      simp only [step, beforeApplet, h.pCurFont]
    | other => exact .inl rfl
  | fputc c =>
    obtain ⟨⟨hr1,hr2⟩,-⟩ := hpos s.trace
    have hfont : (getCursorPos fw s).pCurFont = none := h.pCurFont
    have hstep : step fw s (.fputc c) = (fputcStdout fw (u8 c) s).2 := rfl
    right
    rw [hstep]
    simp only [fputcStdout, h.pCurFont, if_neg (he c rfl)]
    split_ifs with hcr
    · refine ⟨.setCursor (fw.getCursorPos s.trace).1 1 s.cursorMode,⟨hr1,Nat.le_refl 1⟩,?_⟩
      rw [setCursor_eq hfont, (hpos.getCursorPos s).1]
      rfl
    · exact ⟨.fputc (u8 c) stdout,trivial,rfl⟩

/-- Nothing sets the font or the geometry. -/
theorem Unset.step (h : Unset s) (hsys : fw.systemFont = none) (e : Event) :
    Unset (step fw s e) := by
  have hset (t : Os3k) (ht : Unset t) (row col : ℕ) (mode : CursorMode) :
      Unset (setCursor fw row col mode t) := by
    rw [setCursor_eq ht.pCurFont]
    exact ⟨ht.pCurFont,ht.maxCol⟩
  cases e with
  | message m =>
    cases m with
    | init => exact ⟨hsys,h.maxCol⟩
    | setFocus =>
      simp only [FirmwareText.step, beforeApplet, os3kClearScreen, h.pCurFont]
      exact ⟨rfl,h.maxCol⟩
    | killFocus =>
      simp only [FirmwareText.step, beforeApplet, h.pCurFont]
      exact h
    | other => exact h
  | fputc c =>
    have hread : Unset (getCursorPos fw s) := ⟨h.pCurFont,h.maxCol⟩
    change Unset (fputcStdout fw (u8 c) s).2
    simp only [fputcStdout, h.pCurFont]
    split_ifs
    · unfold backspace
      split_ifs <;> exact hset _ hread ..
    · exact hset _ hread ..
    · exact ⟨h.pCurFont,h.maxCol⟩

/-- One event, in a state whose calls were valid so far. -/
theorem usesValidCells_iff (h : Unset s) (hvalid : ∀ call ∈ s.trace, ValidCall call)
    (hpos : OneBased fw) (cols : ℕ) (e : Event) :
    UsesValidCells fw cols s e ↔ OffColumnOne fw s e := by
  by_cases hback : ∃ c, e = .fputc c ∧ u8 c = 0x08
  · obtain ⟨c,rfl,hc⟩ := hback
    have htrace := backspace_trace h hpos hc
    obtain ⟨⟨hr1,-⟩,hc1,-⟩ := hpos s.trace
    constructor
    · intro huse _ hone
      have hnew := huse.calls (.setCursor (previousCell 0 (fw.getCursorPos s.trace)).1
        (previousCell 0 (fw.getCursorPos s.trace)).2 s.cursorMode) (by rw [htrace]; simp)
      rw [previousCell, if_neg (by omega)] at hnew
      exact absurd hnew.2 (Nat.not_succ_le_zero 0)
    · intro hoff
      have hgt : 1 < (fw.getCursorPos s.trace).2 := by
        have := hoff hc
        omega
      refine ⟨?_,fun _ _ => ?_⟩
      · rw [htrace, List.forall_mem_cons]
        refine ⟨?_,hvalid⟩
        rw [previousCell, if_pos hgt]
        exact ⟨hr1,by omega⟩
      · rw [htrace, previousCell, previousCell, if_pos hgt, if_pos hgt]
  · have hother : ∀ c, e = .fputc c → u8 c ≠ 0x08 := fun c he hc => hback ⟨c,he,hc⟩
    constructor
    · intro _
      cases e with
      | message m => trivial
      | fputc c => exact fun hc => absurd hc (hother c rfl)
    · intro _
      refine ⟨?_,?_⟩
      · rcases other_trace h hpos hother with htrace | ⟨call,hcall,htrace⟩
        · rw [htrace]
          exact hvalid
        · rw [htrace, List.forall_mem_cons]
          exact ⟨hcall,hvalid⟩
      · cases e with
        | message m => trivial
        | fputc c => exact fun hc => absurd hc (hother c rfl)

/-! ### Whole histories -/

/-- Over any history of messages and bytes on a machine without a system font:
every `_OS3K_SetCursor` names a valid cell and every backspace moves back by one
cell exactly if none is written at column 1. -/
theorem usesValidCells_iff_offColumnOne (hsys : fw.systemFont = none) (hpos : OneBased fw)
    (cols : ℕ) (lcd : Lcd) (history : List Delivery) :
    Along (step fw) (UsesValidCells fw cols) (bss lcd) (history.flatMap Delivery.events) ↔
      Along (step fw) (OffColumnOne fw) (bss lcd) (history.flatMap Delivery.events) := by
  refine along_iff_along (L := fun _ => True)
    (I := fun s => Unset s ∧ ∀ call ∈ s.trace, ValidCall call) ?_ ?_
    ⟨unset_bss lcd,fun _ h => absurd h List.not_mem_nil⟩ fun _ _ => trivial
  · rintro s e ⟨h,hvalid⟩ - hoff
    have huse := (usesValidCells_iff h hvalid hpos cols e).mpr hoff
    exact ⟨huse,h.step hsys e,huse.calls⟩
  · rintro s e ⟨h,hvalid⟩ - huse
    exact (usesValidCells_iff h hvalid hpos cols e).mp huse

/-- So no message and nothing the applet writes makes an invalid call. -/
theorem history_validCalls (hsys : fw.systemFont = none) (hpos : OneBased fw) (lcd : Lcd)
    {history : List Delivery}
    (hoff : Along (step fw) (OffColumnOne fw) (bss lcd) (history.flatMap Delivery.events)) :
    ∀ call ∈ (history.foldl (deliver fw) (bss lcd)).trace, ValidCall call := by
  have hrun : Throughout (step fw) (fun s => Unset s ∧ ∀ call ∈ s.trace, ValidCall call)
      (bss lcd) (history.flatMap Delivery.events) := by
    refine Along.throughout ?_ ⟨unset_bss lcd,fun _ h => absurd h List.not_mem_nil⟩ hoff
    rintro s e ⟨h,hvalid⟩ hoff
    exact ⟨h.step hsys e,((usesValidCells_iff h hvalid hpos 1 e).mpr hoff).calls⟩
  have hlast := throughout_iff_take.mp hrun (history.flatMap Delivery.events).length
  rw [List.take_length, ← history_eq_foldl] at hlast
  exact hlast.2

/-! ### An AlphaSmart 3000 -/

/-- The text cursor of a screen of 40 columns after the calls so far. -/
def textCursor : List Call → ℕ × ℕ
  | [] => (1,1)
  | .clearScreen :: _ => (1,1)
  | .setCursor row col _ :: _ => (row,col)
  | .fputc c _ :: calls =>
    let cell := textCursor calls
    if c = 0x0A then (cell.1 + 1,1)
    else if cell.2 < 40 then (cell.1,cell.2 + 1) else (cell.1 + 1,1)
  | _ :: calls => textCursor calls

/-- Four rows of 40 columns, and no system font. -/
def alphaSmart : Firmware :=
  { solidFirmware none none 240 32 with
    getCursorPos := fun calls =>
      (max 1 (min (textCursor calls).1 4),max 1 (min (textCursor calls).2 40)) }

theorem oneBased_alphaSmart : OneBased alphaSmart := by
  intro calls
  change (1 ≤ max 1 (min _ 4) ∧ max 1 (min _ 4) < 256) ∧
    1 ≤ max 1 (min _ 40) ∧ max 1 (min _ 40) < 256
  omega

def anyLcd : Lcd := ⟨⟨0,false⟩,⟨0,false⟩,fun _ _ => false⟩

theorem usesValidCells_iff_offColumnOne_letters :
    Along (step alphaSmart) (UsesValidCells alphaSmart 40) (bss anyLcd)
      (List.flatMap Delivery.events
        [⟨.init,[]⟩,⟨.setFocus,[0x48,0x69]⟩,⟨.other,[0x08,0x0D]⟩]) :=
  (usesValidCells_iff_offColumnOne rfl oneBased_alphaSmart 40 anyLcd _).mpr
    ⟨trivial,trivial,by decide,by decide,trivial,by decide,by decide,trivial⟩

/-- A line feed and a backspace: from row 2, column 1 the library asks for row 1,
column 0 where the last column of row 1 is 40. -/
theorem backspace_names_column_zero :
    let σ := List.foldl (deliver alphaSmart) (bss anyLcd)
      [⟨.init,[]⟩,⟨.setFocus,[0x0A]⟩,⟨.other,[0x08]⟩]
    σ.trace = [.setCursor 1 0 .hide,.fputc 0x0A stdout,.clearScreen] ∧
      previousCell 40 (alphaSmart.getCursorPos (σ.trace.drop 1)) = (1,40) ∧
      ¬ Along (step alphaSmart) (UsesValidCells alphaSmart 40) (bss anyLcd)
        (List.flatMap Delivery.events [⟨.init,[]⟩,⟨.setFocus,[0x0A]⟩,⟨.other,[0x08]⟩]) := by
  intro σ
  refine ⟨by decide,by decide,fun hrun => ?_⟩
  have hcall := hrun.2.2.2.2.1.calls (.setCursor 1 0 .hide) (by decide)
  exact absurd hcall.2 (by decide)

end Betawise.FirmwareText
