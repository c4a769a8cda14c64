import Betawise.DebugDump
import Betawise.DebugNavigation
import Betawise.EventRuns

/-!
# The dump always shows the memory

Between two messages every cell of the dump shows what a full redraw would draw there.
A full redraw establishes this on any display, an edit redraws the one byte that it can
change, and the other messages only move the cursor. The bus-error vector is left out,
since the tool reads it with its own handler in place.
-/
namespace Betawise.DebugScreen
open Os3kState Os3kTerminal TerminalGeometry TerminalScroll TypedText ByteMemory EventRuns
open DebugTool DebugNavigation DebugDump

/-! ### The invariant -/

/-- Every cell shows its byte of the text, those of the bus-error vector apart. -/
def CellsShown (m : Machine) (font : FontHeader) (memory : Memory) (base : Addr) (rows : ℕ)
    (o : Os3k) : Prop :=
  ∀ k < rows, ∀ j b,(rowText m memory (base + BitVec.ofNat 32 (8 * k)))[j]? = some b →
    (∀ x ∈ cellAddr (base + BitVec.ofNat 32 (8 * k)) j,¬ InWord 8 x) →
      ShowsByte m.fw font o (k + 1) (3 + j) b

/-- The dump is up to date. -/
structure Current (m : Machine) (font : FontHeader) (rows : ℕ) (s : Tool) : Prop
    extends Screen m font rows s where
  placed : Placed rows s.toNavigation
  cells : CellsShown m font s.memory s.pAddress rows s.os3k

variable {m : Machine} {font : FontHeader} {rows : ℕ} {s : Tool}

/-- Nothing but the display matters. -/
theorem screen_congr (h : Screen m font rows s) {t : Tool} (hneo : t.isAS3000 = s.isAS3000)
    (hos3k : t.os3k = s.os3k) : Screen m font rows t := by
  refine h.drawn hneo ?_ ?_
  · rw [hos3k]
    exact .refl _
  · rw [hos3k]
    exact h.rolled

theorem showsByte_of_picture {fw : Firmware} {o o' : Os3k} {row col b : ℕ}
    (h : ShowsByte fw font o row col b) (hsame : SameScreen o o')
    (hpicture : picture o' = picture o) : ShowsByte fw font o' row col b := by
  intro line hline x hx hrow hcol
  rw [hpicture]
  exact h line hline x (by rw [← hsame.2.1]; exact hx) hrow hcol

/-- A cursor or mode that leaves the base alone. -/
theorem Current.navigate (h : Current m font rows s) {n : Navigation} (hn : Placed rows n)
    (hbase : n.pAddress = s.pAddress) : Current m font rows { s with toNavigation := n } := by
  refine ⟨screen_congr h.toScreen rfl rfl,hn,?_⟩
  change CellsShown m font s.memory n.pAddress rows s.os3k
  rw [hbase]
  exact h.cells

/-- Placing the cursor shows nothing new. -/
theorem setCursorCur_picture (h : Screen m font rows s) (hplaced : Placed rows s.toNavigation) :
    Screen m font rows (dumpSetCursorCur m s) ∧ SameScreen s.os3k (dumpSetCursorCur m s).os3k ∧
      picture (dumpSetCursorCur m s).os3k = picture s.os3k := by
  obtain ⟨k,hk⟩ := Int.eq_ofNat_of_zero_le hplaced.nonneg
  have hlt := hplaced.lt
  have hbytes := hplaced.bytes
  have hsize := hplaced.size
  have hrow := h.maxRow
  have hwide := h.wide
  have hset : dumpSetCursorCur m s =
      draw (setCursor m.fw (1 + k / 8) (column s.mode (k % 8)) .shown) s := by
    unfold dumpSetCursorCur
    rw [hk]
    exact dumpSetCursor_eq h.neo (by omega) s.mode .shown
  have hcol : 1 ≤ column s.mode (k % 8) ∧ column s.mode (k % 8) ≤ s.os3k.maxCol + 1 := by
    cases s.mode <;> simp only [column] <;> omega
  have hinside : 1 ≤ 1 + k / 8 ∧ 1 + k / 8 ≤ s.os3k.maxRow := by omega
  obtain ⟨hat,hpicture⟩ := setCursor_inside h.geometry h.rolled hinside hcol .shown
  have hsame := setCursor_sameScreen m.fw (1 + k / 8) (column s.mode (k % 8)) .shown s.os3k
  rw [hset]
  exact ⟨h.drawn rfl hsame hat.toRolled,hsame,hpicture⟩

theorem setCursorCur_current (h : Current m font rows s) :
    Current m font rows (dumpSetCursorCur m s) := by
  obtain ⟨hscreen,hsame,hpicture⟩ := setCursorCur_picture h.toScreen h.placed
  exact ⟨hscreen,h.placed,fun k hk j b hb hx =>
    showsByte_of_picture (h.cells k hk j b hb hx) hsame hpicture⟩

/-! ### The full redraw -/

/-- A full redraw is `rows` rows of text with the tool's handler in place. -/
theorem dumpRedrawScreen_eq (h : Screen m font rows s) (hrows : s.rowsPerScreen = rows) :
    ∃ o error,dumpRedrawScreen m s = dumpSetCursorCur m (uninstallBusErrorHandler
        { installBusErrorHandler m s with os3k := o, busError := error }) ∧
      RowsTyped m font (installBusErrorHandler m s).memory rows 1 s.pAddress s.os3k o := by
  have h₁ : Screen m font rows (installBusErrorHandler m s) :=
    screen_congr h rfl rfl
  have hfit : 1 ≤ 1 ∧ 1 + rows ≤ rows + 1 := by omega
  obtain ⟨o,error,hdraw,htyped⟩ := dumpRedrawRows_typed h₁ hfit s.pAddress
  refine ⟨o,error,?_,htyped⟩
  change dumpSetCursorCur m (uninstallBusErrorHandler
    (dumpRedrawRows m s.rowsPerScreen 1 s.pAddress (installBusErrorHandler m s))) = _
  rw [hrows, hdraw]

/-- A full redraw brings the dump up to date, whatever was on the display. -/
theorem redraw_current (h : Screen m font rows s) (hplaced : Placed rows s.toNavigation) :
    Current m font rows (dumpRedrawScreen m s) := by
  obtain ⟨o,error,hredraw,htyped⟩ := dumpRedrawScreen_eq h hplaced.rowsPerScreen
  rw [hredraw]
  refine setCursorCur_current ⟨h.drawn rfl htyped.same htyped.rolled,hplaced,
    fun k hk j b hb hx => ?_⟩
  have hcell : ∀ x ∈ cellAddr (s.pAddress + BitVec.ofNat 32 (8 * k)) j,
      store32 (installBusErrorHandler m s).memory 8 (load32 s.memory 8) x =
        (installBusErrorHandler m s).memory x := fun x hmem => store32_frame _ _ (hx x hmem)
  have hshown := htyped.shows k hk j b ((rowText_congr hcell).symm.trans hb)
  rwa [Nat.add_comm 1 k] at hshown

/-! ### An edit -/

/-- What an edit draws for the byte that it reads back. -/
theorem writeAndRedraw_typed (h : Screen m font rows s) {k : ℕ} (hk : s.cursor = k)
    (hlt : k < 8 * rows) (hrows : rows ≤ 8) (value mask : BitVec 8) {c : BitVec 8 × Bool}
    (hc : dumpByte m (written m value mask s) (current s.toNavigation) = c) :
    ∃ o o',dumpWriteAndRedrawCur m value mask s =
        { s with
          os3k := o'
          memory := edited m value mask s
          busError := c.2
          prevBusErrorHandler := load32 s.memory 8 } ∧
      Typed m.fw font (1 + k / 8) (12 + 3 * (k % 8)) (byteHexText c.1 c.2) s.os3k o ∧
      Typed m.fw font (1 + k / 8) (36 + k % 8) [byteAsciiText false c.1 c.2] o o' := by
  let s₁ : Tool :=
    { s with
      memory := edited m value mask s
      busError := c.2
      prevBusErrorHandler := load32 s.memory 8 }
  have hwrite : dumpWriteAndRedrawCur m value mask s = redrawByte m c s₁ := by
    simp only [dumpWriteAndRedrawCur_readBack, readBack_eq, restored_eq, hc, s₁]
  have h₁ : Screen m font rows s₁ := screen_congr h rfl rfl
  obtain ⟨o,o',hredraw,hhex,hascii⟩ := redrawByte_typed h₁ (k := k) hk hlt hrows c
  exact ⟨o,o',hwrite.trans hredraw,hhex,hascii⟩

theorem writeAndRedraw_screen (h : Screen m font rows s) (hplaced : Placed rows s.toNavigation)
    (value mask : BitVec 8) : Screen m font rows (dumpWriteAndRedrawCur m value mask s) := by
  obtain ⟨k,hk⟩ := Int.eq_ofNat_of_zero_le hplaced.nonneg
  have hlt := hplaced.lt
  have hbytes := hplaced.bytes
  have hsize := hplaced.size
  obtain ⟨o,o',hredraw,hhex,hascii⟩ :=
    writeAndRedraw_typed h (k := k) hk (by omega) (by omega) value mask rfl
  rw [hredraw]
  exact h.drawn rfl (hhex.same.trans hascii.same) hascii.atCell.toRolled

/-- The redraw of the byte under the cursor agrees with a full redraw. -/
theorem writeAndRedraw_current (h : Current m font rows s) (value mask : BitVec 8) :
    Current m font rows (dumpWriteAndRedrawCur m value mask s) := by
  obtain ⟨k,hk⟩ := Int.eq_ofNat_of_zero_le h.placed.nonneg
  have hlt := h.placed.lt
  have hbytes := h.placed.bytes
  have hsize := h.placed.size
  have hp : current s.toNavigation = s.pAddress + BitVec.ofNat 32 k := current_eq hk
  obtain ⟨c,hc⟩ : ∃ c,dumpByte m (written m value mask s) (current s.toNavigation) = c := ⟨_,rfl⟩
  obtain ⟨o,o',hredraw,hhex,hascii⟩ :=
    writeAndRedraw_typed h.toScreen (k := k) hk (by omega) (by omega) value mask hc
  rw [hredraw]
  refine ⟨h.toScreen.drawn rfl (hhex.same.trans hascii.same) hascii.atCell.toRolled,h.placed,
    fun r hr j b hb hx => ?_⟩
  change (rowText m (edited m value mask s) (s.pAddress + BitVec.ofNat 32 (8 * r)))[j]? =
    some b at hb
  change ∀ x ∈ cellAddr (s.pAddress + BitVec.ofNat 32 (8 * r)) j,¬ InWord 8 x at hx
  change ShowsByte m.fw font o' (r + 1) (3 + j) b
  have hj : j < 41 := by
    have := (List.getElem?_eq_some_iff.mp hb).1
    rwa [rowText_length] at this
  have hiff := cellAddr_iff (a := s.pAddress) (k := k) (r := r) (by omega) (by omega) hj
  rw [← hp] at hiff
  have hlen := byteHexText_length c.1 c.2
  by_cases hcell : current s.toNavigation ∈ cellAddr (s.pAddress + BitVec.ofNat 32 (8 * r)) j
  · -- the cell is one of the four that are drawn
    rw [dumpByte_written m value mask s (hx _ hcell)] at hc
    obtain ⟨hr',hj'⟩ := hiff.mp hcell
    have hrow : r + 1 = 1 + k / 8 := by omega
    have haddr (i : ℕ) (hi : i = k % 8) : s.pAddress + BitVec.ofNat 32 (8 * r) +
        BitVec.ofNat 32 i = current s.toNavigation := by
      rw [hp]
      bv_omega
    rw [rowText_getElem?, if_neg (by omega)] at hb
    rw [hrow]
    rcases hj' with hj' | hj'
    · rw [if_neg (by omega), if_pos hj] at hb
      simp only [haddr (j - 33) (by omega), hc] at hb
      have hshown := hascii.shows 0 b hb
      rwa [show 36 + k % 8 + 0 = 3 + j by omega] at hshown
    · rw [if_pos (by omega)] at hb
      simp only [haddr ((j - 9) / 3) (by omega), hc] at hb
      have hshown := hhex.shows ((j - 9) % 3) b hb
      rw [show 12 + 3 * (k % 8) + (j - 9) % 3 = 3 + j by omega] at hshown
      exact hshown.frame hascii.same hascii.only (Or.inr (Or.inl (by omega)))
  · -- the cell keeps its byte, and neither piece of text touches it
    have hsame : ∀ x ∈ cellAddr (s.pAddress + BitVec.ofNat 32 (8 * r)) j,
        edited m value mask s x = s.memory x :=
      fun x hmem => edited_frame m value mask s fun heq => hcell (heq ▸ hmem)
    have hshown := h.cells r hr j b ((rowText_congr hsame).symm.trans hb) hx
    rw [hiff] at hcell
    have hout : r + 1 ≠ 1 + k / 8 ∨ 3 + j < 12 + 3 * (k % 8) ∨ 12 + 3 * (k % 8) + 3 ≤ 3 + j := by
      omega
    refine (hshown.frame hhex.same hhex.only (by rw [hlen]; exact hout)).frame hascii.same
      hascii.only ?_
    rw [List.length_singleton]
    omega

/-! ### What every operation restores -/

/-- A property of the tool and its display that holds again after each operation; a full
redraw establishes it on any display. -/
structure Restored (m : Machine) (font : FontHeader) (rows : ℕ) (P : Tool → Prop) : Prop where
  screen : ∀ s,P s → Screen m font rows s
  placed : ∀ s,P s → Placed rows s.toNavigation
  navigate : ∀ s n,P s → Placed rows n → n.pAddress = s.pAddress → P { s with toNavigation := n }
  setCursorCur : ∀ s,P s → P (dumpSetCursorCur m s)
  redraw : ∀ s,Screen m font rows s → Placed rows s.toNavigation → P (dumpRedrawScreen m s)
  writeAndRedraw : ∀ s value mask,P s → P (dumpWriteAndRedrawCur m value mask s)

theorem current_restored (m : Machine) (font : FontHeader) (rows : ℕ) :
    Restored m font rows (Current m font rows) where
  screen _ h := h.toScreen
  placed _ h := h.placed
  navigate _ _ h hn hbase := h.navigate hn hbase
  setCursorCur _ h := setCursorCur_current h
  redraw _ h hplaced := redraw_current h hplaced
  writeAndRedraw _ value mask h := writeAndRedraw_current h value mask

variable {P : Tool → Prop}

theorem Restored.moveCursor (r : Restored m font rows P) (h : P s) {c : ℤ}
    (hplaced : Placed rows (dumpMoveCursor m c s).toNavigation) : P (dumpMoveCursor m c s) := by
  have hscreen (n : Navigation) : Screen m font rows { s with toNavigation := n } :=
    screen_congr (r.screen s h) rfl rfl
  unfold dumpMoveCursor at hplaced ⊢
  dsimp only at hplaced ⊢
  split_ifs at hplaced ⊢
  · rw [dumpRedrawScreen_toNavigation] at hplaced
    exact r.redraw _ (hscreen _) hplaced
  · rw [dumpRedrawScreen_toNavigation] at hplaced
    exact r.redraw _ (hscreen _) hplaced
  · exact r.setCursorCur _ (r.navigate s { s.toNavigation with cursor := s8 c } h hplaced rfl)

/-! ### Dialogs -/

theorem scribble_screen (h : Screen m font rows s) (k : Scribble) :
    Screen m font rows (draw (scribble k) s) :=
  h.drawn rfl (.refl _) (h.rolled.of_fields rfl rfl rfl)

theorem storeOpcode_screen (h : Screen m font rows s) (p : Parsed) :
    Screen m font rows (storeOpcode p s) := by
  unfold storeOpcode
  split
  · exact h
  · exact screen_congr h rfl rfl

theorem storeOpcodes_screen (h : Screen m font rows s) :
    Screen m font rows (storeOpcodes m s) :=
  List.foldlRecOn _ _ h fun _ h _ _ => storeOpcode_screen h _

theorem editField_screen (h : Screen m font rows s) (i : Fin 7) (text : List ℕ)
    (escaped : Bool) : Screen m font rows (editField m i text escaped s) := by
  have h₁ : Screen m font rows { s with buffer := Function.update s.buffer i text } :=
    screen_congr h rfl rfl
  simp only [editField]
  split_ifs
  · exact h₁
  · exact storeOpcode_screen h₁ _

/-- Code that was called has left the font, the start line and the controllers alone. -/
def DisplayKept (m : Machine) (font : FontHeader) (r : Round) : Prop :=
  Geometry m.fw font r.calledOs3k ∧ Rolled font r.calledOs3k

/-- The invoke dialog only draws on the LCD, and so does the code it calls, if any. -/
theorem invokeLoop_screen (h : Screen m font rows s) (last : Scribble) (rs : List Round)
    (hcall : (invokeLoop m last rs s).1 ≠ none → ∀ r ∈ rs,DisplayKept m font r) :
    Screen m font rows (invokeLoop m last rs s).2 := by
  induction rs generalizing s with
  | nil => exact scribble_screen (storeOpcodes_screen h) last
  | cons r rs ih =>
    have h₁ := scribble_screen (storeOpcodes_screen h) r.scribble
    have htail : (∀ r' ∈ r::rs,DisplayKept m font r') → ∀ r' ∈ rs,DisplayKept m font r' :=
      fun hall r' hr' => hall r' (List.mem_cons_of_mem r hr')
    simp only [invokeLoop] at hcall ⊢
    split_ifs at hcall ⊢
    · exact h₁
    · exact ih (editField_screen h₁ _ _ _) fun hc => htail (hcall hc)
    · obtain ⟨hgeometry,hrolled⟩ := hcall (Option.some_ne_none _) r List.mem_cons_self
      have hwidth : r.calledOs3k.maxCol = s.os3k.maxCol := by
        have h₂ := hgeometry.width
        have h₃ := hgeometry.fwWidth
        have h₄ := h.geometry.width
        have h₅ := h.geometry.fwWidth
        omega
      exact ⟨h₁.neo,hgeometry,hrolled,hwidth ▸ h.wide,
        hgeometry.rows.trans (h.geometry.rows.symm.trans h.maxRow)⟩
    · exact ih h₁ fun hc => htail (hcall hc)

theorem goToLoop_screen (h : Screen m font rows s) (last : Scribble)
    (ps : List (Scribble × List ℕ)) : Screen m font rows (goToLoop m last ps s) := by
  induction ps generalizing s with
  | nil => exact scribble_screen h last
  | cons p ps ih =>
    have h₁ := storeOpcode_screen (scribble_screen h p.1) (numberFromString m m.prompt p.2)
    simp only [goToLoop]
    split
    · exact ih h₁
    · exact screen_congr h₁ rfl rfl

theorem clearScreen_screen (h : Screen m font rows s) :
    Screen m font rows (draw (clearScreen m.fw) s) :=
  h.drawn rfl (clearScreen_sameScreen m.fw h.geometry.pCurFont)
    (clearScreen_home h.geometry).1.toRolled

theorem readLong_frame (m : Machine) (a : Addr) (s : Tool) :
    (readLong m a s).2.isAS3000 = s.isAS3000 ∧ (readLong m a s).2.os3k = s.os3k := by
  unfold readLong
  split_ifs <;> exact ⟨rfl,rfl⟩

theorem Restored.followPointer (r : Restored m font rows P) (h : Screen m font rows s)
    (hplaced : Placed rows (followPointer m s).toNavigation) : P (followPointer m s) := by
  have hframe := readLong_frame m (current s.toNavigation)
    { installBusErrorHandler m s with busError := false }
  unfold DebugTool.followPointer at hplaced ⊢
  dsimp only at hplaced ⊢
  rw [dumpRedrawScreen_toNavigation] at hplaced
  refine r.redraw _ ?_ hplaced
  split_ifs
  · exact screen_congr h hframe.1 hframe.2
  · exact screen_congr h hframe.1 hframe.2

/-! ### Messages -/

/-- Not the battery key, Ctrl+Cmd+B, and no call from the dialog of Ctrl+I. -/
def Quiet (m : Machine) (s : Tool) : Event → Prop
  | .char _ => True
  | .key param d => ¬ Pressed 0xC04E param ∧
    (Pressed 0x801C param → (invokeLoop m d.last d.rounds (draw (clearScreen m.fw) s)).1 = none)

theorem Restored.char (r : Restored m font rows P) (h : P s) (param : BitVec 32) :
    P (processChar m param s) := by
  have hplaced := (char_moved (m := m) (r.placed s h) param).placed
  have hmode (s : Tool) (h : P s) (mode : Mode) : P { s with mode := mode } :=
    r.navigate s { s.toNavigation with mode := mode } h ((r.placed s h).withMode mode) rfl
  by_cases htab : param = 0x09
  · rw [processChar, if_pos htab]
    exact r.setCursorCur _ (hmode s h _)
  by_cases hreturn : param = 0x0D
  · rw [processChar, if_neg htab, if_pos hreturn]
    exact h
  rw [processChar, if_neg htab, if_neg hreturn] at hplaced ⊢
  cases hm : s.mode with
  | nibbleHi =>
    cases hhex : hexCharToNibble (param.setWidth 8).toNat with
    | none => exact h
    | some nibble =>
      exact r.setCursorCur _ (hmode _ (r.writeAndRedraw s (BitVec.ofNat 8 nibble <<< 4) 0x0F h) _)
  | nibbleLo =>
    cases hhex : hexCharToNibble (param.setWidth 8).toNat with
    | none => exact h
    | some nibble =>
      simp only [hm, hhex] at hplaced
      exact r.moveCursor (hmode _ (r.writeAndRedraw s (BitVec.ofNat 8 nibble) 0xF0 h) .nibbleHi)
        hplaced
  | ascii =>
    simp only [hm] at hplaced
    exact r.moveCursor (r.writeAndRedraw s _ _ h) hplaced

/-- A key, if what is on the display after the battery screen is as wanted, and if the
display after the invoke dialog still is one for the dump. -/
theorem Restored.key (r : Restored m font rows P) (h : P s) (d : Dialogs) {key : Key}
    (hbattery : key = .ctrlCmdB → P (draw (scribble d.last) s))
    (hinvoke : key = .ctrlI → Screen m font rows
      (invokeLoop m d.last d.rounds (draw (clearScreen m.fw) s)).2) :
    P (processKey m d s key) := by
  have hscreen := r.screen s h
  have hplaced := (key_moved (m := m) (r.placed s h) d key).placed
  have hmode (mode : Mode) : P { s with mode := mode } :=
    r.navigate s { s.toNavigation with mode := mode } h ((r.placed s h).withMode mode) rfl
  -- the keys that end with a full redraw
  have hredraw {t : Tool} (ht : Screen m font rows t)
      (hp : Placed rows (dumpRedrawScreen m t).toNavigation) : P (dumpRedrawScreen m t) := by
    rw [dumpRedrawScreen_toNavigation] at hp
    exact r.redraw t ht hp
  cases key with
  | left =>
    unfold processKey at hplaced ⊢
    cases hm : s.mode with
    | nibbleLo => exact r.setCursorCur _ (hmode .nibbleHi)
    | nibbleHi =>
      simp only [hm] at hplaced
      exact r.moveCursor (hmode .nibbleLo) hplaced
    | ascii =>
      simp only [hm] at hplaced
      exact r.moveCursor h hplaced
  | right =>
    unfold processKey at hplaced ⊢
    cases hm : s.mode with
    | nibbleHi => exact r.setCursorCur _ (hmode .nibbleLo)
    | nibbleLo =>
      simp only [hm] at hplaced
      exact r.moveCursor (hmode .nibbleHi) hplaced
    | ascii =>
      simp only [hm] at hplaced
      exact r.moveCursor h hplaced
  | up => exact r.moveCursor h hplaced
  | down => exact r.moveCursor h hplaced
  | home => exact r.moveCursor h hplaced
  | ctrlHome => exact r.moveCursor h hplaced
  | endKey => exact r.moveCursor h hplaced
  | ctrlEnd => exact r.moveCursor h hplaced
  | ctrlUp => exact hredraw (screen_congr hscreen rfl rfl) hplaced
  | ctrlDown => exact hredraw (screen_congr hscreen rfl rfl) hplaced
  | ctrlI => exact hredraw (hinvoke rfl) hplaced
  | ctrlG => exact hredraw (goToLoop_screen hscreen d.last d.prompts) hplaced
  | ctrlShiftG =>
    unfold processKey at hplaced ⊢
    dsimp only at hplaced ⊢
    split_ifs at hplaced ⊢
    · exact h
    · exact r.followPointer hscreen hplaced
  | backspace => exact hredraw (screen_congr hscreen rfl rfl) hplaced
  | ctrlR => exact hredraw hscreen hplaced
  | clearFile => exact hredraw (screen_congr hscreen rfl rfl) hplaced
  | ctrlCmdB => exact hbattery rfl
  | other => exact h

theorem step_current (h : Current m font rows s) (e : Event) (hquiet : Quiet m s e) :
    Current m font rows (processMessage m s e) := by
  have r := current_restored m font rows
  cases e with
  | char param => exact r.char h param
  | key param d =>
    refine r.key h d (fun hkey => ?_) fun hkey => ?_
    · exact absurd (decodeKey_ctrlCmdB.mp hkey) hquiet.1
    · exact invokeLoop_screen (clearScreen_screen h.toScreen) d.last d.rounds
        fun hc => absurd (hquiet.2 (decodeKey_ctrlI.mp hkey)) hc

/-! ### Runs -/

/-- The Terminal font on 64 lines of at least 44 columns, as on the Neo. -/
structure Neo (m : Machine) (sys : FontHeader) (cols : ℕ) : Prop where
  systemFont : m.fw.systemFont = some sys
  maxWidth : (selectFont m.fw sys).maxWidth = 6
  height : (selectFont m.fw sys).height = 8 ∨ (selectFont m.fw sys).height = 16
  wide : 44 ≤ cols ∧ cols ≤ 255
  lcdWidth : m.fw.lcdWidth = 6 * cols
  lcdHeight : m.fw.lcdHeight = 64
  hwLevel : 2 ≤ m.hwLevel

/-- The dump is up to date when the tool gets the focus. -/
theorem focused_current {sys : FontHeader} {cols : ℕ} (neo : Neo m sys cols) (s : Tool) :
    Current m (selectFont m.fw sys) (64 / (selectFont m.fw sys).height) (focused m s) := by
  have hcols := neo.wide
  have g := geometry_setFocus neo.systemFont neo.maxWidth neo.height ⟨by omega,neo.wide.2⟩
    neo.lcdWidth neo.lcdHeight s.os3k
  obtain ⟨hat,-⟩ := clearScreen_home g
  have hrows : reportedRows m s = 64 / (selectFont m.fw sys).height := by
    rw [reportedRows, sysIntRowCount, g.pCurFont, g.rows]
  have hsize : reportedRows m s = 4 ∨ reportedRows m s = 8 := by
    rw [hrows]
    rcases neo.height with h | h <;> rw [h] <;> decide
  have hplaced := focused_placed hsize
  rw [hrows] at hplaced
  simp only [focused, processSetFocus, dumpRedrawScreen_toNavigation] at hplaced
  have hwide : (clearScreen m.fw
      (beforeApplet m.fw .setFocus (beforeApplet m.fw .init s.os3k))).maxCol = cols := by
    have hwidth := hat.width
    have hfw := hat.fwWidth
    have := neo.lcdWidth
    omega
  refine redraw_current ⟨?_,hat.toGeometry,hat.toRolled,hwide.symm ▸ neo.wide.1,hat.rows⟩ hplaced
  exact decide_eq_false (Nat.not_lt.mpr neo.hwLevel)

/-- The address of a row, counted from 0. -/
def rowAddr (s : Tool) (row : ℕ) : Addr := s.pAddress + BitVec.ofNat 32 (8 * row)

/-- A pixel of columns 3 to 43, outside the cells of the bus-error vector and of the
library's cursor. -/
def InDump (font : FontHeader) (s : Tool) (line x : ℕ) : Prop :=
  line < 64 ∧ 3 ≤ x / 6 + 1 ∧ x / 6 + 1 ≤ 43 ∧
    ∀ a ∈ cellAddr (rowAddr s (line / font.height)) (x / 6 - 2),
      ¬ InWord 8 a ∧ ¬ InCursorStruct a

/-- The dump shows addresses, bytes and characters as memory has them, and a full redraw
would not change it. -/
def ShowsMemory (m : Machine) (font : FontHeader) (s : Tool) : Prop :=
  ∀ line x,InDump font s line x →
    displayed s.os3k line x =
        glyphPixel m.fw font
          (dumpCell m s.memory (rowAddr s (line / font.height)) (x / 6 - 2))
          (x % 6) (line % font.height) ∧
      displayed (dumpRedrawScreen m s).os3k line x = displayed s.os3k line x

theorem Current.displayed_eq (h : Current m font rows s) {line x : ℕ}
    (hin : InDump font s line x) :
    displayed s.os3k line x =
      glyphPixel m.fw font (dumpCell m s.memory (rowAddr s (line / font.height)) (x / 6 - 2))
        (x % 6) (line % font.height) := by
  obtain ⟨hline,hleft,hright,houtside⟩ := hin
  have hrow : line / font.height < rows := by
    rw [← h.maxRow, Nat.div_lt_iff_lt_mul h.geometry.height_pos, h.geometry.rows_mul]
    exact hline
  have hwidth := h.geometry.width
  have hwide := h.wide
  have hb := rowText_eq_dumpCell m s.memory (rowAddr s (line / font.height))
    (show x / 6 - 2 < 41 by omega)
  rw [h.rolled.displayed_eq]
  exact h.cells _ hrow _ _ hb (fun a ha => (houtside a ha).1) line hline x (by omega) rfl
    (by omega)

theorem Current.showsMemory (h : Current m font rows s) : ShowsMemory m font s := by
  intro line x hin
  have hredraw := redraw_current h.toScreen h.placed
  have hmemory := dumpRedrawScreen_memory m s
  have hbase : (dumpRedrawScreen m s).pAddress = s.pAddress :=
    congrArg Navigation.pAddress (dumpRedrawScreen_toNavigation m s)
  have haddr : rowAddr (dumpRedrawScreen m s) = rowAddr s := by
    funext row
    rw [rowAddr, rowAddr, hbase]
  have hshown := h.displayed_eq hin
  refine ⟨hshown,?_⟩
  rw [hshown, hredraw.displayed_eq (by rw [InDump, haddr]; exact hin), haddr, hmemory]

/-- In every run of quiet events the dump shows the memory after each of them. -/
theorem dump_shows_memory {sys : FontHeader} {cols : ℕ} (neo : Neo m sys cols) (s₀ : Tool)
    (es : List Event) (hquiet : Along (processMessage m) (Quiet m) (focused m s₀) es) :
    Throughout (processMessage m) (ShowsMemory m (selectFont m.fw sys)) (focused m s₀) es := by
  have hrun : Throughout (processMessage m) (Current m (selectFont m.fw sys)
      (64 / (selectFont m.fw sys).height)) (focused m s₀) es :=
    hquiet.throughout (fun _ e h he => step_current h e he) (focused_current neo s₀)
  exact hrun.mono fun _ h => h.showsMemory

/-- A key that neither opens the dialog of Ctrl+I nor shows the battery. -/
theorem quiet_key {param : BitVec 32} (d : Dialogs) (hbattery : ¬ Pressed 0xC04E param)
    (hinvoke : ¬ Pressed 0x801C param) : Quiet m s (.key param d) :=
  ⟨hbattery,fun h => absurd h hinvoke⟩

/-- On the Neo: two digits, a character, one line down, the dialog left at once, and
the scratch area cleared. -/
theorem dump_shows_memory_neo :
    Throughout (processMessage neoMachine) (ShowsMemory neoMachine neoFont)
      (focused neoMachine (bssTool fun _ => 0))
      [.char 0x34,.char 0x46,.char 0x09,.char 0x41,.key 0x0D noDialogs,.key 0x801C noDialogs,
        .key 0x34 noDialogs] := by
  have neo : Neo neoMachine neoFont 44 :=
    ⟨rfl,rfl,Or.inl rfl,by decide,rfl,rfl,Nat.le_refl 2⟩
  exact dump_shows_memory neo _ _
    ⟨trivial,trivial,trivial,trivial,quiet_key _ (by decide) (by decide),
      ⟨by decide,fun _ => rfl⟩,quiet_key _ (by decide) (by decide),trivial⟩

end Betawise.DebugScreen
