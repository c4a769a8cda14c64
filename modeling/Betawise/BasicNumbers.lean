import Betawise.BasicMemory
import Mathlib.Data.List.Basic
import Mathlib.Tactic.Ring
import Mathlib.Tactic.SplitIfs

/-!
# Line numbers read and printed

`LAB_GFPN` reads a line number and tests for overflow by the carry of each doubling
and by the sign after the last digit has been added. Once ten times the number so
far is beyond 2^31 there is no such change of sign, so that 2147483648 and 2147483649
are refused and the numbers from 2147483650 on are not. `LAB_295E` prints a number by
repeated subtraction of powers of ten.
-/
namespace Betawise.BasicNumbers
open BasicMemory

/-! ### Reading -/

/-- One digit at `LAB_1785`. The carry is tested after each of the first steps, and the
overflow of signed addition after the last. -/
def addDigit (d1 digit : ℕ) : Option ℕ :=
  let d2 := d1
  let d1 := d1 + d1
  if 4294967296 ≤ d1 then none
  else
    let d1 := d1 + d1
    if 4294967296 ≤ d1 then none
    else
      let d1 := d1 + d2
      if 4294967296 ≤ d1 then none
      else
        let d1 := d1 + d1
        if 4294967296 ≤ d1 then none
        else if d1 < 2147483648 ∧ 2147483648 ≤ d1 + digit then none
        else some ((d1 + digit) % 4294967296)

/-- `LAB_GFPN` with the number so far: the number and what follows it. Spaces are
skipped, in front of a digit and behind it; an overflow is a syntax error. -/
def gfpn : ℕ → List ℕ → Option (ℕ × List ℕ)
  | d1,[] => some (d1,[])
  | d1,d0::s =>
    if d0 = 0x20 then gfpn d1 s
    else if 0x30 ≤ d0 ∧ d0 ≤ 0x39 then
      match addDigit d1 (d0 - 0x30) with
      | none => none
      | some d1 => gfpn d1 s
    else some (d1,d0::s)

/-- Digits and spaces. -/
def Numeral (cs : List ℕ) : Prop := ∀ c ∈ cs, c = 0x20 ∨ 0x30 ≤ c ∧ c ≤ 0x39

/-- The decimal value, with `n` for the digits in front. -/
def value (n : ℕ) : List ℕ → ℕ
  | [] => n
  | c::cs => value (if c = 0x20 then n else 10 * n + (c - 0x30)) cs

/-- No digit or space comes first. -/
def Ends (rest : List ℕ) : Prop := ∀ c ∈ rest.head?, ¬ (c = 0x20 ∨ 0x30 ≤ c ∧ c ≤ 0x39)

theorem addDigit_eq {d1 d : ℕ} (h : 10 * d1 + d < 4294967296) :
    addDigit d1 d = if 10 * d1 < 2147483648 ∧ 2147483648 ≤ 10 * d1 + d then none
      else some (10 * d1 + d) := by
  have hten : d1 + d1 + (d1 + d1) + d1 + (d1 + d1 + (d1 + d1) + d1) = 10 * d1 := by omega
  simp only [addDigit, hten, Nat.mod_eq_of_lt h]
  split_ifs <;> first | rfl | omega

theorem le_value (n : ℕ) (cs : List ℕ) : n ≤ value n cs := by
  induction cs generalizing n with
  | nil => exact Nat.le_refl n
  | cons c cs ih =>
    rw [value]
    refine Nat.le_trans ?_ (ih _)
    split_ifs <;> omega

theorem gfpn_ends {rest : List ℕ} (h : Ends rest) (d1 : ℕ) : gfpn d1 rest = some (d1,rest) := by
  cases rest with
  | nil => rfl
  | cons c rest =>
    obtain ⟨hspace,hdigit⟩ := not_or.mp (h c rfl)
    rw [gfpn, if_neg hspace, if_neg hdigit]

/-- Behind a number that can take no more digits only spaces come. -/
theorem value_full {n : ℕ} {cs : List ℕ} (h : Numeral cs) (hn : 4294967296 ≤ 10 * n)
    (hv : value n cs < 4294967296) : value n cs = n ∧ ∀ rest, Ends rest →
      gfpn n (cs ++ rest) = some (n,rest) := by
  induction cs with
  | nil => exact ⟨rfl,fun rest hrest => gfpn_ends hrest n⟩
  | cons c cs ih =>
    obtain ⟨hc,hcs⟩ := List.forall_mem_cons.mp h
    rw [value] at hv ⊢
    by_cases hspace : c = 0x20
    · rw [if_pos hspace] at hv ⊢
      refine ⟨(ih hcs hv).1,fun rest hrest => ?_⟩
      rw [List.cons_append, gfpn, if_pos hspace]
      exact (ih hcs hv).2 rest hrest
    · have hle := le_value (10 * n + (c - 0x30)) cs
      rw [if_neg hspace] at hv
      omega

/-- The numerals below 2^32 that are refused are those of 2147483648 and 2147483649. -/
theorem gfpn_numeral {n : ℕ} {cs rest : List ℕ} (h : Numeral cs) (hrest : Ends rest)
    (hn : n ≠ 2147483648 ∧ n ≠ 2147483649) (hv : value n cs < 4294967296) :
    gfpn n (cs ++ rest) =
      if value n cs = 2147483648 ∨ value n cs = 2147483649 then none
      else some (value n cs,rest) := by
  induction cs generalizing n with
  | nil =>
    rw [value, if_neg (not_or.mpr hn)]
    exact gfpn_ends hrest n
  | cons c cs ih =>
    obtain ⟨hc,hcs⟩ := List.forall_mem_cons.mp h
    rw [List.cons_append, gfpn]
    rw [value] at hv ⊢
    by_cases hspace : c = 0x20
    · rw [if_pos hspace] at hv ⊢
      rw [if_pos hspace]
      exact ih hcs hn hv
    · have hdigit : 0x30 ≤ c ∧ c ≤ 0x39 := hc.resolve_left hspace
      rw [if_neg hspace] at hv ⊢
      rw [if_neg hspace, if_pos hdigit]
      generalize hd : c - 0x30 = d at hv ⊢
      have hle := le_value (10 * n + d) cs
      rw [addDigit_eq (by omega)]
      by_cases hover : 10 * n < 2147483648 ∧ 2147483648 ≤ 10 * n + d
      · rw [if_pos hover, (value_full hcs (by omega) hv).1, if_pos (by omega)]
      · rw [if_neg hover]
        exact ih hcs (by omega) hv

/-- A line number is read as its decimal value, and of the numerals below 2^32 only
those of 2147483648 and 2147483649 are refused. -/
theorem gfpn_exact {cs rest : List ℕ} (h : Numeral cs) (hrest : Ends rest)
    (hv : value 0 cs < 4294967296) :
    gfpn 0 (cs ++ rest) =
      if value 0 cs = 2147483648 ∨ value 0 cs = 2147483649 then none
      else some (value 0 cs,rest) :=
  gfpn_numeral h hrest (by decide) hv

/-- 2147483650 is beyond the greatest number of the comment, and is taken. -/
theorem gfpn_exact_beyond :
    gfpn 0 ([0x32,0x31,0x34,0x37,0x34,0x38,0x33,0x36,0x35,0x30] ++ []) = some (2147483650,[]) := by
  have hnumeral : Numeral [0x32,0x31,0x34,0x37,0x34,0x38,0x33,0x36,0x35,0x30] := by
    unfold Numeral
    decide
  have hends : Ends [] := nofun
  exact gfpn_exact hnumeral hends (by decide)

/-! ### Printing -/

end Betawise.BasicNumbers
