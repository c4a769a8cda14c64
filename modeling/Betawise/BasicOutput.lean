import Betawise.EventRuns

/-!
# Terminal output of the BASIC interpreter

`LAB_PRNA` prints one byte and keeps `TPos`, the terminal position. With
`TWidth = 0` the position starts again at the tab size on the next printing byte,
while a backspace only counts it down. `LAB_CRLF_IF_NEEDED` takes position 0 for
the start of a line. The run theorem says for which sequences of bytes it is.
-/
namespace Betawise.BasicOutput
open EventRuns

/-- The interpreter's terminal bytes and what left through `V_OUTP`, oldest first. -/
structure Terminal where
  tPos : ℕ
  tWidth : ℕ
  tabSiz : ℕ
  nullct : ℕ
  out : List ℕ
  deriving DecidableEq

/-- The cold-start settings. -/
def coldStart : Terminal := ⟨0,0,10,0,[]⟩

def vOutp (b : ℕ) (t : Terminal) : Terminal := { t with out := t.out ++ [b] }

/-- `LAB_1880`: the `DBF` loop prints one null more than its count. -/
def printNulls : ℕ → Terminal → Terminal
  | 0,t => vOutp 0x00 t
  | n + 1,t => printNulls n (vOutp 0x00 t)

/-- `LAB_18F9`. After the null loop the low byte of the counter is 0xFF. -/
def printByte (b : ℕ) (t : Terminal) : Terminal :=
  let t := vOutp b t
  if b = 0x0D then
    if t.nullct = 0 then { t with tPos := 0 }
    else { printNulls t.nullct t with tPos := 0xFF }
  else t

/-- `LAB_18F0`: at the terminal's width CR and LF are printed first. Both are below
the space, so that their own way through `LAB_PRNA` is `LAB_18F9`. -/
def fitWidth (t : Terminal) : Terminal :=
  if t.tWidth = t.tPos then printByte 0x0A (printByte 0x0D t) else t

/-- With infinite width the position is reset at the tab size. -/
def foldTab (t : Terminal) : Terminal :=
  if t.tPos = t.tabSiz then { t with tPos := 0 } else t

/-- `SUBQ.b #1`. -/
def decrement (t : Terminal) : Terminal := { t with tPos := (t.tPos + 255) % 256 }

/-- `ADDQ.b #1`. -/
def increment (t : Terminal) : Terminal := { t with tPos := (t.tPos + 1) % 256 }

/-- `LAB_PRNA`. -/
def prna (b : ℕ) (t : Terminal) : Terminal :=
  let t := if b = 0x08 then decrement t else t
  if b < 0x20 then printByte b t
  else printByte b (increment (if t.tWidth = 0 then foldTab t else fitWidth t))

/-- `LAB_CRLF`. -/
def crlf (t : Terminal) : Terminal := prna 0x0A (prna 0x0D t)

/-- `LAB_CRLF_IF_NEEDED`. -/
def crlfIfNeeded (t : Terminal) : Terminal := if t.tPos ≠ 0 then crlf t else t

/-- `LAB_134B`: a rub-out. -/
def rubOut : List ℕ := [0x08,0x20,0x08]

/-! ### Net characters -/

/-- The terminal with the number of net characters on the current line. -/
structure Line where
  terminal : Terminal
  net : ℕ

/-- A printing byte stands on the line, a backspace takes one off, CR starts anew. -/
def netAfter (net b : ℕ) : ℕ :=
  if b = 0x08 then net - 1 else if b = 0x0D then 0 else if 0x20 ≤ b then net + 1 else net

def print (l : Line) (b : ℕ) : Line := ⟨prna b l.terminal,netAfter l.net b⟩

/-- Backspaces never outnumber the printing bytes since the last CR. -/
def Covered (l : Line) (b : ℕ) : Prop := b = 0x08 → 0 < l.net

/-- Position 0 means the start of the line, and the conditional newline is printed
exactly away from it. -/
def StartKnown (l : Line) : Prop :=
  (l.terminal.tPos = 0 ↔ l.net = 0) ∧
    (crlfIfNeeded l.terminal).out = l.terminal.out ++ if l.net = 0 then [] else [0x0D,0x0A]

/-- No backspace is printed with 11, 21, 31, … net characters on the line. -/
def NotFolded (l : Line) (b : ℕ) : Prop := ¬ (b = 0x08 ∧ 1 < l.net ∧ l.net % 10 = 1)

instance (l : Line) (b : ℕ) : Decidable (Covered l b) := inferInstanceAs (Decidable (_ → _))

instance (l : Line) (b : ℕ) : Decidable (NotFolded l b) := inferInstanceAs (Decidable (¬ _))

/-- The position of `net` characters, folded at the tab size of 10. -/
def folded (net : ℕ) : ℕ := if net = 0 then 0 else (net - 1) % 10 + 1

/-- Cold-start settings with the position folded from the net count. -/
structure Counted (l : Line) : Prop where
  tWidth : l.terminal.tWidth = 0
  tabSiz : l.terminal.tabSiz = 10
  nullct : l.terminal.nullct = 0
  tPos : l.terminal.tPos = folded l.net

variable {l : Line}

theorem crlf_out {t : Terminal} (h : t.nullct = 0) : (crlf t).out = t.out ++ [0x0D,0x0A] := by
  simp [crlf, prna, printByte, vOutp, h]

/-- The newline follows from the position alone. -/
theorem startKnown_iff (h : l.terminal.nullct = 0) :
    StartKnown l ↔ (l.terminal.tPos = 0 ↔ l.net = 0) := by
  refine ⟨fun hs => hs.1,fun hs => ⟨hs,?_⟩⟩
  by_cases hpos : l.terminal.tPos = 0
  · simp [crlfIfNeeded, hpos, hs.mp hpos]
  · have hnet : l.net ≠ 0 := fun hn => hpos (hs.mpr hn)
    simp [crlfIfNeeded, hpos, hnet, crlf_out h]

theorem folded_eq_zero_iff (net : ℕ) : folded net = 0 ↔ net = 0 := by
  unfold folded
  split_ifs with h <;> simp [h]

theorem folded_le (net : ℕ) : folded net ≤ 10 := by
  unfold folded
  split_ifs <;> omega

/-- One more character: the fold at 10 comes before the count. -/
theorem folded_succ (net : ℕ) :
    folded (net + 1) = (if folded net = 10 then 0 else folded net) + 1 := by
  obtain rfl | hpos : net = 0 ∨ 0 < net := by omega
  · rfl
  · simp only [folded, if_neg (Nat.succ_ne_zero net), if_neg (Nat.ne_of_gt hpos)]
    split_ifs <;> omega

/-- One character less: the count goes down by one where the fold is not met. -/
theorem folded_pred {net : ℕ} (hpos : 0 < net) (hfold : ¬ (1 < net ∧ net % 10 = 1)) :
    folded (net - 1) = folded net - 1 := by
  simp only [folded, if_neg (Nat.ne_of_gt hpos)]
  split_ifs <;> omega

theorem Counted.startKnown (h : Counted l) : StartKnown l := by
  rw [startKnown_iff h.nullct, h.tPos]
  exact folded_eq_zero_iff l.net

/-- The settings never change. -/
theorem prna_settings {t : Terminal} (h : t.nullct = 0) (hw : t.tWidth = 0) (b : ℕ) :
    (prna b t).tWidth = 0 ∧ (prna b t).tabSiz = t.tabSiz ∧ (prna b t).nullct = 0 := by
  unfold prna
  split_ifs <;>
    simp_all [printByte, vOutp, decrement, increment, foldTab] <;> split_ifs <;> simp_all

/-- The position after one byte with the cold-start settings. -/
theorem prna_tPos {t : Terminal} (hn : t.nullct = 0) (hw : t.tWidth = 0) (b : ℕ) :
    (prna b t).tPos =
      if b = 0x08 then (t.tPos + 255) % 256
      else if b = 0x0D then 0
      else if 0x20 ≤ b then ((if t.tPos = t.tabSiz then 0 else t.tPos) + 1) % 256
      else t.tPos := by
  by_cases hback : b = 0x08
  · subst hback
    simp [prna, printByte, vOutp, decrement]
  · by_cases hcr : b = 0x0D
    · subst hcr
      simp [prna, printByte, vOutp, hn]
    · by_cases hspace : b < 0x20
      · have hnot : ¬ 0x20 ≤ b := by omega
        simp [prna, printByte, vOutp, hback, hcr, hspace, hnot]
      · have hle : 0x20 ≤ b := by omega
        simp only [prna, if_neg hback, if_neg hspace, if_neg hcr, if_pos hle, hw, if_true,
          printByte, vOutp, increment, foldTab]
        split_ifs <;> rfl

/-- Every covered byte but a folded backspace keeps the count. -/
theorem Counted.print (h : Counted l) {b : ℕ} (hcovered : Covered l b) (hfold : NotFolded l b) :
    Counted (print l b) := by
  obtain ⟨hwidth,htab,hnull⟩ := prna_settings h.nullct h.tWidth b
  refine ⟨hwidth,htab.trans h.tabSiz,hnull,?_⟩
  change (prna b l.terminal).tPos = folded (netAfter l.net b)
  rw [prna_tPos h.nullct h.tWidth, h.tPos, h.tabSiz]
  unfold netAfter Covered NotFolded at *
  split_ifs with hback hcr hspace hreset
  · have hpos := hcovered hback
    have hnot : ¬ (1 < l.net ∧ l.net % 10 = 1) := fun hf => hfold ⟨hback,hf⟩
    have hle := folded_le l.net
    have hne := (folded_eq_zero_iff l.net).not.mpr (Nat.ne_of_gt hpos)
    rw [folded_pred hpos hnot]
    omega
  · rfl
  · rw [folded_succ, if_pos hreset]
  · have hle := folded_le l.net
    rw [folded_succ, if_neg hreset]
    omega
  · rfl

/-- A folded backspace leaves position 0 with characters on the line. -/
theorem Counted.folded_backspace (h : Counted l) {b : ℕ} (hfold : ¬ NotFolded l b) :
    ¬ StartKnown (BasicOutput.print l b) := by
  obtain ⟨rfl,hmore,hmod⟩ := not_not.mp hfold
  intro hknown
  have hpos : (prna 0x08 l.terminal).tPos = 0 := by
    rw [prna_tPos h.nullct h.tWidth, if_pos rfl, h.tPos]
    simp only [folded]
    split_ifs <;> omega
  have hnet : l.net - 1 = 0 := hknown.1.mp hpos
  omega

/-- From the start of a line, over covered bytes: position 0 means the start of the
line after every byte exactly if no backspace meets 11, 21, 31, … net characters. -/
theorem startKnown_iff_notFolded (out bs : List ℕ)
    (hcovered : Along print Covered ⟨{ coldStart with out := out },0⟩ bs) :
    Throughout print StartKnown ⟨{ coldStart with out := out },0⟩ bs ↔
      Along print NotFolded ⟨{ coldStart with out := out },0⟩ bs :=
  throughout_iff_along (I := Counted) (fun _ h => h.startKnown)
    (fun _ _ h hc hf => h.print hc hf) (fun _ _ h _ hf => h.folded_backspace hf)
    ⟨rfl,rfl,rfl,rfl⟩ hcovered

/-- Ten letters, one of them rubbed out, and a new line. -/
theorem startKnown_iff_notFolded_ten :
    Throughout print StartKnown ⟨coldStart,0⟩ (List.replicate 10 65 ++ rubOut ++ [0x0D,0x0A]) :=
  (startKnown_iff_notFolded [] _ (by decide)).mpr (by decide)

/-- Eleven letters, one of them rubbed out: ten letters stand on the line and the
position is 0, so that no newline is printed after them. -/
theorem rubOut_eleventh_hides_line :
    let bs := List.replicate 11 65 ++ rubOut
    let l := bs.foldl print ⟨coldStart,0⟩
    Along print Covered ⟨coldStart,0⟩ bs ∧ (l.net = 10 ∧ l.terminal.tPos = 0) ∧
      crlfIfNeeded l.terminal = l.terminal ∧ ¬ Throughout print StartKnown ⟨coldStart,0⟩ bs := by
  intro bs l
  have hend : l.net = 10 ∧ l.terminal.tPos = 0 := by decide
  refine ⟨by decide,hend,by decide,fun h => ?_⟩
  have hknown : StartKnown l := throughout_iff_take.mp h 14
  have hnet := hknown.1.mp hend.2
  omega

end Betawise.BasicOutput
