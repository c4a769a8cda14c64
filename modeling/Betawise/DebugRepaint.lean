import Betawise.DebugInvoke
import Betawise.DebugScreen

/-!
# Repainting behind the firmware's screens

A full redraw writes columns 3 to 43 of every row and clears nothing else, and the
battery screen is followed by no redraw at all. So what the firmware leaves in the other
columns, or on the battery screen anywhere, stays on the display, where a new
`MSG_SETFOCUS` would clear it first.
-/
namespace Betawise.DebugRepaint
open Os3kState Os3kTerminal CircularLines TerminalGeometry TerminalScroll TypedText ByteMemory
open EventRuns DebugTool DebugNavigation DebugDump DebugScreen

/-! ### What a redraw leaves -/

/-- A pixel column of the columns 3 to 43. -/
def InColumns (x : ℕ) : Prop := 2 ≤ x / 6 ∧ x / 6 < 43

instance (x : ℕ) : Decidable (InColumns x) := inferInstanceAs (Decidable (_ ∧ _))

/-- The dump on a blank screen, as the tool draws it behind its handler. -/
def dumpPicture (m : Machine) (font : FontHeader) (memory : Memory) (base : Addr)
    (line x : ℕ) : Bool :=
  if InColumns x then
    match (rowText m (installed m memory)
      (base + BitVec.ofNat 32 (8 * (line / font.height))))[x / 6 - 2]? with
    | none => false
    | some b => glyphPixel m.fw font b (x % 6) (line % font.height)
  else false

variable {m : Machine} {font : FontHeader} {rows : ℕ} {s : Tool}

/-- Rows of the dump change columns 3 to 43 only. -/
theorem dumpRedrawRows_margins (h : Screen m font rows s) {count row : ℕ}
    (hrow : 1 ≤ row ∧ row + count ≤ rows + 1) (a : Addr) :
    ∀ line < 64, ∀ x < s.os3k.lcdWidth,¬ InColumns x →
      picture (dumpRedrawRows m count row a s).os3k line x = picture s.os3k line x := by
  induction count generalizing row a s with
  | zero => exact fun _ _ _ _ _ => rfl
  | succ count ih =>
    intro line hline x hx hout
    obtain ⟨o,error,hfirst,htyped⟩ := dumpRedrawRow_typed h ⟨hrow.1,by omega⟩ a
    have h₁ : Screen m font rows { s with os3k := o, busError := error } :=
      h.drawn rfl htyped.same htyped.atCell.toRolled
    have hfit : 1 ≤ row + 1 ∧ row + 1 + count ≤ rows + 1 := by omega
    have hwidth : x < o.lcdWidth := htyped.same.2.1.symm ▸ hx
    have hlen := rowText_length m s.memory a
    rw [dumpRedrawRows, hfirst, ih h₁ hfit (a + 8) line hline x hwidth hout]
    refine htyped.only line hline x hx ?_
    unfold InColumns at hout
    omega

/-- The picture behind a full redraw: the dump in its columns, and what was there before
in the others. -/
theorem redraw_picture (h : Screen m font rows s) (hplaced : Placed rows s.toNavigation) :
    Screen m font rows (dumpRedrawScreen m s) ∧
      SameScreen s.os3k (dumpRedrawScreen m s).os3k ∧
      ∀ line < 64, ∀ x < s.os3k.lcdWidth,picture (dumpRedrawScreen m s).os3k line x =
        if InColumns x then dumpPicture m font s.memory s.pAddress line x
        else picture s.os3k line x := by
  have h₁ : Screen m font rows (installBusErrorHandler m s) := screen_congr h rfl rfl
  have hfit : 1 ≤ 1 ∧ 1 + rows ≤ rows + 1 := by omega
  obtain ⟨o,error,hdraw,htyped⟩ := dumpRedrawRows_typed h₁ hfit s.pAddress
  have hmargins := dumpRedrawRows_margins h₁ hfit s.pAddress
  rw [hdraw] at hmargins
  let t := uninstallBusErrorHandler
    { installBusErrorHandler m s with os3k := o, busError := error }
  have hredraw : dumpRedrawScreen m s = dumpSetCursorCur m t := by
    change dumpSetCursorCur m (uninstallBusErrorHandler
      (dumpRedrawRows m s.rowsPerScreen 1 s.pAddress (installBusErrorHandler m s))) = _
    rw [hplaced.rowsPerScreen, hdraw]
  have ht : Screen m font rows t := h.drawn rfl htyped.same htyped.rolled
  obtain ⟨hscreen,hsame,hpicture⟩ := setCursorCur_picture ht hplaced
  rw [hredraw]
  refine ⟨hscreen,htyped.same.trans hsame,fun line hline x hx => ?_⟩
  rw [hpicture]
  change picture o line x = _
  split_ifs with hin
  · have hrow : line / font.height < rows := by
      rw [← h.maxRow, Nat.div_lt_iff_lt_mul h.geometry.height_pos, h.geometry.rows_mul]
      exact hline
    have hlen := rowText_length m (installed m s.memory)
      (s.pAddress + BitVec.ofNat 32 (8 * (line / font.height)))
    have hcolumns : 2 ≤ x / 6 ∧ x / 6 < 43 := hin
    obtain ⟨b,hb⟩ : ∃ b,(rowText m (installed m s.memory)
        (s.pAddress + BitVec.ofNat 32 (8 * (line / font.height))))[x / 6 - 2]? = some b :=
      ⟨_,List.getElem?_eq_getElem (by omega)⟩
    have hshown := htyped.shows _ hrow _ b hb line hline x (htyped.same.2.1.symm ▸ hx)
      (Nat.add_comm _ 1) (by omega)
    rw [hshown, dumpPicture, if_pos hin, hb]
  · exact hmargins line hline x hx hin

/-! ### A fresh `MSG_SETFOCUS` -/

/-- The tool as it gets the focus once more. -/
def refocused (m : Machine) (s : Tool) : Tool :=
  processSetFocus m (draw (beforeApplet m.fw .setFocus) s)

theorem geometry_refocus {fw : Firmware} {o : Os3k} (g : Geometry fw font o)
    (hfont : selectFont fw font = font) : Geometry fw font (beforeApplet fw .setFocus o) := by
  have hcols := g.cols
  have hwidth := g.width
  have hcol : u8 ((o.lcdWidth : ℤ) / 6) = o.maxCol := by
    rw [hwidth]
    simp only [u8]
    omega
  simp only [beforeApplet, os3kClearScreen, g.pCurFont, hfont]
  refine ⟨rfl,g.maxWidth,g.height,?_,?_,g.lines,?_,g.fwWidth,g.fwLines⟩
  · change o.lcdWidth = 6 * u8 ((o.lcdWidth : ℤ) / 6)
    rw [hcol, hwidth]
  · change 1 ≤ u8 ((o.lcdWidth : ℤ) / 6) ∧ u8 ((o.lcdWidth : ℤ) / 6) ≤ 255
    rw [hcol]
    exact hcols
  · simp only [g.lines]
    rcases g.height with h | h <;> simp [h, u8]

/-- A fresh `MSG_SETFOCUS` draws the dump on a blank screen. -/
theorem refocused_picture (h : Screen m font rows s) (hplaced : Placed rows s.toNavigation)
    (hfont : selectFont m.fw font = font) :
    ∀ line < 64, ∀ x < s.os3k.lcdWidth,
      displayed (refocused m s).os3k line x = dumpPicture m font s.memory s.pAddress line x := by
  have g := geometry_refocus h.geometry hfont
  obtain ⟨hat,hblank⟩ := clearScreen_home g
  have hmaxRow : (beforeApplet m.fw .setFocus s.os3k).maxRow = rows :=
    g.rows.trans (h.geometry.rows.symm.trans h.maxRow)
  have hrowsPerScreen : u8 (sysIntRowCount m (beforeApplet m.fw .setFocus s.os3k)) =
      s.rowsPerScreen := by
    rw [sysIntRowCount, g.pCurFont, hplaced.rowsPerScreen]
    simp only [hmaxRow]
    rcases hplaced.size with hr | hr <;> rw [hr] <;> rfl
  have hbytes : u8 (8 * s.rowsPerScreen) = s.bytesPerScreen := by
    rw [hplaced.bytes, hplaced.rowsPerScreen]
    rcases hplaced.size with hr | hr <;> rw [hr] <;> rfl
  let cleared : Tool :=
    { s with os3k := clearScreen m.fw (beforeApplet m.fw .setFocus s.os3k) }
  have hfocus : refocused m s = dumpRedrawScreen m cleared := by
    simp only [refocused, processSetFocus, draw, hrowsPerScreen, hbytes]
    rfl
  have hwidths : (clearScreen m.fw (beforeApplet m.fw .setFocus s.os3k)).lcdWidth =
      s.os3k.lcdWidth := by
    rw [← hat.fwWidth, h.geometry.fwWidth]
  have hcols : (clearScreen m.fw (beforeApplet m.fw .setFocus s.os3k)).maxCol =
      s.os3k.maxCol := by
    have h₁ := hat.width
    have h₂ := h.geometry.width
    omega
  have hscreen : Screen m font rows cleared :=
    ⟨h.neo,hat.toGeometry,hat.toRolled,hcols.symm ▸ h.wide,
      hat.rows.trans (h.geometry.rows.symm.trans h.maxRow)⟩
  obtain ⟨hdone,-,hpicture⟩ := redraw_picture hscreen hplaced
  intro line hline x hx
  rw [hfocus, hdone.rolled.displayed_eq, hpicture line hline x (hwidths.symm ▸ hx)]
  split_ifs with hin
  · rfl
  · rw [dumpPicture, if_neg hin]
    exact hblank line x

/-! ### Complete repainting -/

/-- The display is the one that a fresh `MSG_SETFOCUS` would draw. -/
def Repaints (m : Machine) (s : Tool) : Prop :=
  ∀ line < 64, ∀ x < s.os3k.lcdWidth,
    displayed s.os3k line x = displayed (refocused m s).os3k line x

/-- LCD memory that is blank outside columns 3 to 43. -/
def MarginsBlank (m : Machine) (ram : Ram) : Prop :=
  ∀ line < 64, ∀ x < m.fw.lcdWidth,¬ InColumns x → ram line x = false

/-- Every line of memory is on the display. -/
theorem exists_memoryLine (start : ℕ) {l : ℕ} (hl : l < 64) :
    ∃ line < 64,memoryLine 64 start line = l := by
  refine ⟨(l + (64 - start % 64)) % 64,Nat.mod_lt _ (by decide),?_⟩
  unfold memoryLine
  omega

theorem picture_margins_iff (m : Machine) (o : Os3k) (hwidth : m.fw.lcdWidth = o.lcdWidth) :
    (∀ line < 64, ∀ x < o.lcdWidth,¬ InColumns x → picture o line x = false) ↔
      MarginsBlank m o.lcd.ram := by
  unfold MarginsBlank
  rw [hwidth]
  constructor
  · intro h l hl x hx hout
    obtain ⟨line,hline,rfl⟩ := exists_memoryLine o.curLcdRoll.toNat hl
    exact h line hline x hx hout
  · intro h line _ x hx hout
    exact h _ (memoryLine_lt (by decide)) x hx hout

/-- A full redraw repaints completely exactly if the margins were blank. -/
theorem redraw_repaints_iff (h : Screen m font rows s) (hplaced : Placed rows s.toNavigation)
    (hfont : selectFont m.fw font = font) :
    Repaints m (dumpRedrawScreen m s) ↔ MarginsBlank m s.os3k.lcd.ram := by
  obtain ⟨hscreen,hsame,hpicture⟩ := redraw_picture h hplaced
  have hnavigation := dumpRedrawScreen_toNavigation m s
  have hfresh := refocused_picture hscreen (by rw [hnavigation]; exact hplaced) hfont
  rw [dumpRedrawScreen_memory, show (dumpRedrawScreen m s).pAddress = s.pAddress from
    congrArg Navigation.pAddress hnavigation] at hfresh
  rw [← picture_margins_iff m s.os3k h.geometry.fwWidth]
  unfold Repaints
  rw [hsame.2.1] at hfresh ⊢
  constructor
  · intro hall line hline x hx hout
    have heq := hall line hline x hx
    rw [hfresh line hline x hx, hscreen.rolled.displayed_eq, hpicture line hline x hx, if_neg hout,
      dumpPicture, if_neg hout] at heq
    exact heq
  · intro hall line hline x hx
    rw [hfresh line hline x hx, hscreen.rolled.displayed_eq, hpicture line hline x hx]
    split_ifs with hin
    · rfl
    · rw [dumpPicture, if_neg hin]
      exact hall line hline x hx hin

/-! ### What the firmware's screens leave -/

/-- The LCD memory when the loop of Ctrl+G ends. -/
def promptLeaves (m : Machine) (last : Scribble) : List (Scribble × List ℕ) → Ram
  | [] => last.ram
  | (k,text)::ps =>
    if (numberFromString m m.prompt text).number.isSome then k.ram else promptLeaves m last ps

/-- The LCD memory when the loop of Ctrl+I ends, by Escape or with a call. -/
def dialogLeaves (m : Machine) (last : Scribble) : List Round → (Fin 7 → List ℕ) → Ram
  | [],_ => last.ram
  | r::rs,buffer =>
    if withoutCapsLock r.key = keyEsc then r.scribble.ram
    else if h : r.choice.val < 7 then
      dialogLeaves m last rs (Function.update buffer ⟨r.choice.val,h⟩ r.text)
    else if ∀ i,(parseField m buffer i).number.isSome then r.calledOs3k.lcd.ram
    else dialogLeaves m last rs buffer

theorem storeOpcode_os3k (p : Parsed) (s : Tool) : (storeOpcode p s).os3k = s.os3k := by
  unfold storeOpcode
  split <;> rfl

theorem goToLoop_ram (m : Machine) (last : Scribble) (ps : List (Scribble × List ℕ)) (s : Tool) :
    (goToLoop m last ps s).os3k.lcd.ram = promptLeaves m last ps := by
  induction ps generalizing s with
  | nil => rfl
  | cons p ps ih =>
    have hstored : (storeOpcode (numberFromString m m.prompt p.2)
        (draw (scribble p.1) s)).os3k.lcd.ram = p.1.ram := by
      rw [storeOpcode_os3k]
      rfl
    rw [goToLoop, promptLeaves]
    cases (numberFromString m m.prompt p.2).number with
    | none => exact ih _
    | some addr => exact hstored

theorem invokeLoop_ram (m : Machine) (last : Scribble) (rs : List Round) (s : Tool) :
    (invokeLoop m last rs s).2.os3k.lcd.ram = dialogLeaves m last rs s.buffer := by
  induction rs generalizing s with
  | nil => rfl
  | cons r rs ih =>
    have hbuffer : (draw (scribble r.scribble) (storeOpcodes m s)).buffer = s.buffer :=
      DebugInvoke.storeOpcodes_buffer m s
    simp only [invokeLoop, dialogLeaves, hbuffer]
    split_ifs
    · rfl
    · rw [ih, DebugInvoke.editField_buffer, hbuffer]
    · rfl
    · rw [ih, hbuffer]

/-! ### Runs -/

/-- What makes the display complete again: blank margins behind a dialog or prompt, and
behind the battery screen the dump itself. -/
def LeavesDump (m : Machine) (font : FontHeader) (s : Tool) : Event → Prop
  | .char _ => True
  | .key param d =>
    (Pressed 0x801C param → MarginsBlank m (dialogLeaves m d.last d.rounds s.buffer)) ∧
      (Pressed 0x8010 param → MarginsBlank m (promptLeaves m d.last d.prompts)) ∧
      (Pressed 0xC04E param → ∀ line < 64, ∀ x < m.fw.lcdWidth,
        view 64 s.os3k.curLcdRoll.toNat d.last.ram line x =
          dumpPicture m font s.memory s.pAddress line x)

/-- Behind Ctrl+I, Ctrl+G and Ctrl+Cmd+B the display is the one that a fresh
`MSG_SETFOCUS` would draw. -/
def RepaintsBehind (m : Machine) (s : Tool) : Event → Prop
  | .char _ => True
  | .key param d =>
    Pressed 0x801C param ∨ Pressed 0x8010 param ∨ Pressed 0xC04E param →
      Repaints m (processMessage m s (.key param d))

/-- Code called from the dialog leaves the start line alone. -/
def KeepsStartLine (m : Machine) (font : FontHeader) : Event → Prop
  | .char _ => True
  | .key _ d => ∀ r ∈ d.rounds,DisplayKept m font r

theorem screen_restored (m : Machine) (font : FontHeader) (rows : ℕ) :
    Restored m font rows fun s => Screen m font rows s ∧ Placed rows s.toNavigation where
  screen _ h := h.1
  placed _ h := h.2
  navigate _ _ h hn _ := ⟨screen_congr h.1 rfl rfl,hn⟩
  setCursorCur _ h := ⟨(setCursorCur_picture h.1 h.2).1,h.2⟩
  redraw s h hplaced := ⟨(redraw_picture h hplaced).1,by
    rw [dumpRedrawScreen_toNavigation]
    exact hplaced⟩
  writeAndRedraw s value mask h := ⟨writeAndRedraw_screen h.1 h.2 value mask,by
    rw [dumpWriteAndRedrawCur_toNavigation]
    exact h.2⟩

/-- Every event leaves a display on which the dump can be drawn. -/
theorem step_screen (h : Screen m font rows s ∧ Placed rows s.toNavigation) {e : Event}
    (hkeeps : KeepsStartLine m font e) :
    Screen m font rows (processMessage m s e) ∧
      Placed rows (processMessage m s e).toNavigation := by
  have r := screen_restored m font rows
  cases e with
  | char param => exact r.char h param
  | key param d =>
    refine r.key h d (fun _ => ⟨scribble_screen h.1 d.last,h.2⟩) fun _ => ?_
    exact invokeLoop_screen (clearScreen_screen h.1) d.last d.rounds fun _ => hkeeps

theorem repaintsBehind_iff (h : Screen m font rows s ∧ Placed rows s.toNavigation)
    (hfont : selectFont m.fw font = font) {e : Event} (hkeeps : KeepsStartLine m font e) :
    RepaintsBehind m s e ↔ LeavesDump m font s e := by
  cases e with
  | char param => exact Iff.rfl
  | key param d =>
    have hplaced := (step_screen h hkeeps).2
    simp only [RepaintsBehind, LeavesDump, ← decodeKey_ctrlI, ← decodeKey_ctrlG,
      ← decodeKey_ctrlCmdB]
    change Placed rows (processKey m d s (decodeKey param)).toNavigation at hplaced
    change (_ → Repaints m (processKey m d s (decodeKey param))) ↔ _
    cases hkey : decodeKey param with
    | ctrlI =>
      rw [hkey] at hplaced
      unfold processKey at hplaced ⊢
      rw [dumpRedrawScreen_toNavigation] at hplaced
      have hscreen := invokeLoop_screen (clearScreen_screen h.1) d.last d.rounds fun _ => hkeeps
      have hiff := redraw_repaints_iff hscreen hplaced hfont
      rw [invokeLoop_ram] at hiff
      exact ⟨fun hr => ⟨fun _ => hiff.mp (hr (Or.inl rfl)),nofun,nofun⟩,
        fun hm _ => hiff.mpr (hm.1 rfl)⟩
    | ctrlG =>
      rw [hkey] at hplaced
      unfold processKey at hplaced ⊢
      rw [dumpRedrawScreen_toNavigation] at hplaced
      have hiff := redraw_repaints_iff (goToLoop_screen h.1 d.last d.prompts) hplaced hfont
      rw [goToLoop_ram] at hiff
      exact ⟨fun hr => ⟨nofun,fun _ => hiff.mp (hr (Or.inr (Or.inl rfl))),nofun⟩,
        fun hm _ => hiff.mpr (hm.2.1 rfl)⟩
    | ctrlCmdB =>
      have hscreen := scribble_screen h.1 d.last
      have hfresh := refocused_picture hscreen h.2 hfont
      have hleft (line x : ℕ) : displayed (draw (scribble d.last) s).os3k line x =
          view 64 s.os3k.curLcdRoll.toNat d.last.ram line x :=
        hscreen.rolled.displayed_eq line x
      have hwidth := h.1.geometry.fwWidth
      rw [hwidth]
      constructor
      · refine fun hr => ⟨nofun,nofun,fun _ line hline x hx => ?_⟩
        rw [← hleft]
        exact (hr (Or.inr (Or.inr rfl)) line hline x hx).trans (hfresh line hline x hx)
      · intro hm _ line hline x hx
        exact (hleft line x).trans
          ((hm.2.2 rfl line hline x hx).trans (hfresh line hline x hx).symm)
    | _ => exact ⟨fun _ => ⟨nofun,nofun,nofun⟩,fun _ hor => by simp at hor⟩

/-- On the Neo, in every run: behind all dialogs, prompts and battery screens the display
is the one of a fresh `MSG_SETFOCUS` exactly if each of them left blank margins, and each
battery screen the dump. -/
theorem repaints_iff_leavesDump {sys : FontHeader} {cols : ℕ} (neo : Neo m sys cols) (s₀ : Tool)
    (es : List Event) (hkeeps : ∀ e ∈ es,KeepsStartLine m (selectFont m.fw sys) e) :
    Along (processMessage m) (RepaintsBehind m) (focused m s₀) es ↔
      Along (processMessage m) (LeavesDump m (selectFont m.fw sys)) (focused m s₀) es := by
  have hfont : selectFont m.fw (selectFont m.fw sys) = selectFont m.fw sys := by
    unfold selectFont
    cases m.fw.terminalFont <;> rfl
  have hcurrent := focused_current neo s₀
  refine along_iff_along (I := fun s => Screen m (selectFont m.fw sys)
    (64 / (selectFont m.fw sys).height) s ∧ Placed _ s.toNavigation)
    (fun s e hs he hok => ⟨?_,step_screen (e := e) hs he⟩) (fun s e hs he hgood => ?_)
    ⟨hcurrent.toScreen,hcurrent.placed⟩ hkeeps
  · exact (repaintsBehind_iff hs hfont he).mpr hok
  · exact (repaintsBehind_iff hs hfont he).mp hgood

theorem neo_neoMachine : Neo neoMachine neoFont 44 :=
  ⟨rfl,rfl,Or.inl rfl,by decide,rfl,rfl,Nat.le_refl 2⟩

/-- Without a round of the dialog nothing is called. -/
theorem keepsStartLine_of_no_rounds {d : Dialogs} (hd : d.rounds = []) (param : BitVec 32) :
    KeepsStartLine m font (.key param d) := by
  intro r hr
  rw [hd] at hr
  exact absurd hr List.not_mem_nil

/-- Behind the prompt only its own leftovers matter. -/
theorem leavesDump_ctrlG (s : Tool) (d : Dialogs) :
    LeavesDump m font s (.key 0x8010 d) ↔ MarginsBlank m (promptLeaves m d.last d.prompts) :=
  ⟨fun h => h.2.1 (by decide),
    fun h => ⟨fun hkey => absurd hkey (by decide),fun _ => h,fun hkey => absurd hkey (by decide)⟩⟩

/-- On the Neo the prompt is left at once and has left a blank LCD. -/
theorem repaints_iff_leavesDump_neo :
    Along (processMessage neoMachine) (RepaintsBehind neoMachine)
      (focused neoMachine (bssTool fun _ => 0)) [.key 0x8010 noDialogs] := by
  have hleaves (s : Tool) : LeavesDump neoMachine neoFont s (.key 0x8010 noDialogs) :=
    (leavesDump_ctrlG s noDialogs).mpr fun _ _ _ _ _ => rfl
  refine (repaints_iff_leavesDump neo_neoMachine _ [.key 0x8010 noDialogs] fun e he => ?_).mpr
    ⟨hleaves _,trivial⟩
  obtain rfl := List.mem_singleton.mp he
  exact keepsStartLine_of_no_rounds rfl 0x8010

/-- A prompt left at once, with a pixel of its first letter, in row 4 and column 1. -/
def pixelDialogs : Dialogs :=
  { noDialogs with
    last := { noDialogs.last with ram := fun line x => decide (line = 27 ∧ x = 1) } }

/-- The pixel stays. -/
theorem prompt_leaves_pixel :
    ¬ RepaintsBehind neoMachine (focused neoMachine (bssTool fun _ => 0))
      (.key 0x8010 pixelDialogs) := by
  have hcurrent := focused_current neo_neoMachine (bssTool fun _ => 0)
  rw [repaintsBehind_iff ⟨hcurrent.toScreen,hcurrent.placed⟩ rfl
    (keepsStartLine_of_no_rounds rfl 0x8010), leavesDump_ctrlG]
  intro hblank
  exact absurd (hblank 27 (by decide) 1 (by decide) (by decide)) (by decide)

end Betawise.DebugRepaint
