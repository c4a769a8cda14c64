import Mathlib.Logic.Function.Iterate

/-!
# A screen of text as a tape

The cells of a screen in reading order, with a cursor between them. Writing at
the end first moves everything up by one line; the right end of a line and the
beginning of the next are one position. Rubbing out goes back one cell, writes a
space and goes back again: after typing, as many rub-outs lead back to the same
place, and leave spaces where the typed cells were and the scrolled tape
everywhere else, as long as that place has not left at the top.
-/
namespace Betawise.TextTape

/-- Whole lines of cells, and what a scroll brings in. -/
structure Screen (A : Type*) where
  size : ℕ
  line : ℕ
  blank : A
  line_pos : 1 ≤ line
  line_le : line ≤ size

structure Tape (A : Type*) where
  pos : ℕ
  cell : ℕ → A

namespace Tape

variable {A : Type*} (S : Screen A)

/-- Cell `i` after `k` scrolls. -/
def scrolled (k : ℕ) (t : Tape A) (i : ℕ) : A :=
  if i + k * S.line < S.size then t.cell (i + k * S.line) else S.blank

/-- One line up. -/
def scroll (t : Tape A) : Tape A := ⟨t.pos - S.line,scrolled S 1 t⟩

def write (a : A) (t : Tape A) : Tape A := ⟨t.pos + 1,fun i => if i = t.pos then a else t.cell i⟩

def put (a : A) (t : Tape A) : Tape A := write a (if t.pos = S.size then scroll S t else t)

def back (t : Tape A) : Tape A := ⟨t.pos - 1,t.cell⟩

def rubOut (space : A) (t : Tape A) : Tape A := back (put S space (back t))

def type : List A → Tape A → Tape A
  | [],t => t
  | a::as,t => type as (put S a t)

/-- The scrolls that typing causes. -/
def scrolls : List A → Tape A → ℕ
  | [],_ => 0
  | a::as,t => (if t.pos = S.size then 1 else 0) + scrolls as (put S a t)

variable {S} {t : Tape A}

/-! ### Typing -/

theorem scrolled_zero {i : ℕ} (hi : i < S.size) : scrolled S 0 t i = t.cell i := by
  rw [scrolled, Nat.zero_mul, Nat.add_zero, if_pos hi]

/-- One cell of output: the scroll it causes, the position and the other cells. -/
theorem put_spec (S : Screen A) (a : A) (hpos : t.pos ≤ S.size) {k : ℕ}
    (hk : k = if t.pos = S.size then 1 else 0) :
    (put S a t).pos + k * S.line = t.pos + 1 ∧ (put S a t).pos ≤ S.size ∧
      ∀ i < S.size, i + k * S.line ≠ t.pos → (put S a t).cell i = scrolled S k t i := by
  have hline := S.line_pos
  have hsize := S.line_le
  subst hk
  by_cases hend : t.pos = S.size
  · simp only [put, write, scroll, if_pos hend, Nat.one_mul]
    refine ⟨by omega,by omega,fun i _ hne => ?_⟩
    rw [if_neg (by omega)]
  · simp only [put, write, if_neg hend, Nat.zero_mul, Nat.add_zero]
    refine ⟨trivial,by omega,fun i hi hne => ?_⟩
    rw [if_neg hne, scrolled_zero hi]

/-- Typing moves the cursor on by the length of the text, less the scrolls, and
beside the typed cells it only scrolls. -/
theorem type_spec (S : Screen A) (as : List A) (hpos : t.pos ≤ S.size) :
    (type S as t).pos + scrolls S as t * S.line = t.pos + as.length ∧ (type S as t).pos ≤ S.size ∧
      ∀ i < S.size, i + scrolls S as t * S.line < t.pos ∨
        t.pos + as.length ≤ i + scrolls S as t * S.line →
          (type S as t).cell i = scrolled S (scrolls S as t) t i := by
  induction as generalizing t with
  | nil =>
    simp only [scrolls, type, List.length_nil, Nat.zero_mul, Nat.add_zero]
    exact ⟨trivial,hpos,fun i hi _ => (scrolled_zero hi).symm⟩
  | cons a as ih =>
    obtain ⟨hmove,hrange,hcells⟩ := put_spec S a hpos rfl
    obtain ⟨hmoves,hlast,hrest⟩ := ih hrange
    simp only [scrolls, type, List.length_cons, Nat.add_mul] at hmove hmoves ⊢
    refine ⟨by omega,hlast,fun i hi hout => ?_⟩
    rw [hrest i hi (by omega)]
    -- the scrolls of the tail, and before them that of the first cell
    simp only [scrolled, Nat.add_mul]
    by_cases hin : i + scrolls S as (put S a t) * S.line < S.size
    · rw [if_pos hin, hcells _ hin (by omega), scrolled, Nat.add_assoc, Nat.add_comm (_ * _)]
    · rw [if_neg hin, if_neg (by omega)]

/-! ### Rubbing out -/

/-- The space of a rub-out never comes at the end. -/
theorem rubOut_eq (space : A) (h1 : 1 ≤ t.pos) (hpos : t.pos ≤ S.size) :
    rubOut S space t = back (write space (back t)) := by
  have hend : ¬ (back t).pos = S.size := by
    simp only [back]
    omega
  rw [rubOut, put, if_neg hend]

theorem rubOut_spec (space : A) (h1 : 1 ≤ t.pos) (hpos : t.pos ≤ S.size) :
    rubOut S space t = ⟨t.pos - 1,fun i => if i = t.pos - 1 then space else t.cell i⟩ := by
  rw [rubOut_eq space h1 hpos]
  rfl

theorem rubOuts_spec (space : A) {n : ℕ} (hn : n ≤ t.pos) (hpos : t.pos ≤ S.size) :
    ((rubOut S space)^[n] t).pos = t.pos - n ∧
      ∀ i, ((rubOut S space)^[n] t).cell i =
        if t.pos - n ≤ i ∧ i < t.pos then space else t.cell i := by
  induction n generalizing t with
  | zero => exact ⟨rfl,fun i => (if_neg (by omega)).symm⟩
  | succ n ih =>
    have hone := rubOut_spec space (by omega) hpos
    rw [Function.iterate_succ_apply]
    obtain ⟨hmove,hcells⟩ := ih (t := rubOut S space t)
      (by simp only [hone]; omega) (by simp only [hone]; omega)
    simp only [hone] at hmove hcells ⊢
    refine ⟨by omega,fun i => ?_⟩
    rw [hcells]
    by_cases hlast : i = t.pos - 1
    · rw [if_neg (by omega), if_pos hlast, if_pos (by omega)]
    · rw [if_neg hlast]
      exact if_congr (by omega) rfl rfl

/-- Typing and as many rub-outs: the cursor is where it was, on the scrolled tape,
the typed cells are spaces and the others have only scrolled. -/
theorem rubOuts_type (space : A) (as : List A) (hpos : t.pos ≤ S.size)
    (hkept : scrolls S as t * S.line ≤ t.pos) :
    ((rubOut S space)^[as.length] (type S as t)).pos + scrolls S as t * S.line = t.pos ∧
      ∀ i < S.size, ((rubOut S space)^[as.length] (type S as t)).cell i =
        if t.pos ≤ i + scrolls S as t * S.line ∧ i + scrolls S as t * S.line < t.pos + as.length
        then space else scrolled S (scrolls S as t) t i := by
  obtain ⟨hmove,hlast,hcells⟩ := type_spec S as hpos
  obtain ⟨hback,hspaces⟩ := rubOuts_spec (n := as.length) space (by omega) hlast
  refine ⟨by omega,fun i hi => ?_⟩
  rw [hspaces]
  by_cases hin : t.pos ≤ i + scrolls S as t * S.line ∧
      i + scrolls S as t * S.line < t.pos + as.length
  · rw [if_pos hin, if_pos (by omega)]
  · rw [if_neg hin, if_neg (by omega)]
    exact hcells i hi (by omega)

end Tape
end Betawise.TextTape
