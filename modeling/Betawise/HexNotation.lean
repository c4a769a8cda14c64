import Mathlib.Data.Nat.Bitwise

/-!
# Hexadecimal notation

The sixteen digits as ASCII codes. A digit of either case is worth its place in one of
the two alphabets, and a number is written with the digits of the first.
-/
namespace Betawise.HexNotation

/-- `0` to `9` and `A` to `F`. -/
def upperDigits : List ℕ :=
  [0x30,0x31,0x32,0x33,0x34,0x35,0x36,0x37,0x38,0x39,0x41,0x42,0x43,0x44,0x45,0x46]

/-- `0` to `9` and `a` to `f`. -/
def lowerDigits : List ℕ :=
  [0x30,0x31,0x32,0x33,0x34,0x35,0x36,0x37,0x38,0x39,0x61,0x62,0x63,0x64,0x65,0x66]

/-- The value of a digit of either case. -/
def hexValue (c : ℕ) : Option ℕ := (upperDigits.idxOf? c).or (lowerDigits.idxOf? c)

/-- The digit at place `i` of a number, counted from the right. -/
def hexPlace (n i : ℕ) : ℕ := upperDigits.getD (n / 16 ^ i % 16) 0

theorem hexValue_eq_none {c : ℕ} (h : 103 ≤ c) : hexValue c = none := by
  have hupper : c ∉ upperDigits := fun hmem => by
    have hle : ∀ d ∈ upperDigits, d < 103 := by decide
    exact absurd (hle c hmem) (by omega)
  have hlower : c ∉ lowerDigits := fun hmem => by
    have hle : ∀ d ∈ lowerDigits, d < 103 := by decide
    exact absurd (hle c hmem) (by omega)
  rw [hexValue, List.idxOf?_eq_none_iff.mpr hupper, List.idxOf?_eq_none_iff.mpr hlower]
  rfl

/-- Two functions on digits agree if they do on the codes up to the last digit. -/
theorem eq_hexValue {f : ℕ → Option ℕ} (hlow : ∀ c < 103, f c = hexValue c)
    (hhigh : ∀ c, 103 ≤ c → f c = none) (c : ℕ) : f c = hexValue c := by
  by_cases hc : c < 103
  · exact hlow c hc
  · rw [hhigh c (Nat.not_lt.mp hc), hexValue_eq_none (Nat.not_lt.mp hc)]

theorem hexValue_lt {c d : ℕ} (h : hexValue c = some d) : d < 16 := by
  have hc : c < 103 := by
    by_contra hc
    rw [hexValue_eq_none (Nat.not_lt.mp hc)] at h
    exact nomatch h
  have hall : ∀ c < 103, ∀ d ∈ hexValue c, d < 16 := by decide
  exact hall c hc d h

theorem hexPlace_zero (n : ℕ) : hexPlace n 0 = upperDigits.getD (n % 16) 0 := by
  rw [hexPlace, Nat.pow_zero, Nat.div_one]

theorem hexPlace_succ (n i : ℕ) : hexPlace n (i + 1) = hexPlace (n / 16) i := by
  rw [hexPlace, hexPlace, Nat.div_div_eq_div_mul, Nat.pow_succ']

end Betawise.HexNotation
