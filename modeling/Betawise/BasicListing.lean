import Betawise.BasicList
import Betawise.BasicNumbers
import Betawise.BasicOutput
import Betawise.BasicProgram

/-!
# LIST and the editor

`LAB_LIST` walks the chained lines and prints those of a range of numbers on the
terminal. A typed line goes the other way: its number is read, the rest is crunched
and put into the program. Typing the lines of a listing again gives the program back.
-/
namespace Betawise.BasicListing
open LoggedRam BasicKeywords BasicMemory BasicProgram BasicCrunch BasicList BasicNumbers
open BasicOutput (Terminal Counted prna crlf crlfIfNeeded netAfter)

/-! ### LIST -/

/-- A byte that leaves no character of the line behind it uncounted. -/
def Forward (c : ℕ) : Prop := c ≠ 0x08 ∧ c ≠ 0x0D

variable {byte : ℕ → ℕ} {t : Terminal} {net fuel : ℕ} {cs text : List ℕ} {q : Bool}

/-- How LIST spells the text of a line. -/
def shownText (l : BasicProgram.Line) : List ℕ := (listText false l.text).getD []

/-- All tokens of the line have a spelling, and printing it only goes forward. -/
def Listable (l : BasicProgram.Line) : Prop :=
  listText false l.text ≠ none ∧ ∀ c ∈ shownText l, Forward c

/-- The lines of a range of numbers. -/
def inRange (n m : ℕ) (lines : List BasicProgram.Line) : List BasicProgram.Line :=
  lines.filter fun l => decide (n ≤ l.number ∧ l.number ≤ m)

variable {b : Basic} {lines : List BasicProgram.Line}

/-- The line was typed in 7-bit characters without a question mark, and its keywords
have an even number of quotes in front of them. -/
def AsTyped (l : BasicProgram.Line) : Prop :=
  ∃ s, crunch s = some l.text ∧ EvenQuotes l.text ∧ (∀ c ∈ s, c < 128 ∧ Forward c) ∧
    0x3F ∉ s ∧ Ends s

/-- Such a line is shown as it was typed. -/
theorem AsTyped.shown {l : BasicProgram.Line} (h : AsTyped l) :
    Listable l ∧ crunch (shownText l) = some l.text ∧ Ends (shownText l) := by
  obtain ⟨s,hcrunch,heven,hchars,hmark,hends⟩ := h
  have hlist := (listText_shown (fun c hc => (hchars c hc).1) hcrunch).mpr heven
  obtain ⟨ps,hps,-⟩ := Option.map_eq_some_iff.mp hcrunch
  rw [shown_eq_self hps hmark] at hlist
  have htext : shownText l = s := by rw [shownText, hlist]; rfl
  refine ⟨⟨by rw [hlist]; exact Option.some_ne_none s,?_⟩,?_,?_⟩
  · rw [htext]
    exact fun c hc => (hchars c hc).2
  · rw [htext]
    exact hcrunch
  · rw [htext]
    exact hends

end Betawise.BasicListing
