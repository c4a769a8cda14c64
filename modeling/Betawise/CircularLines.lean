import Mathlib.Algebra.Order.Group.Nat
import Mathlib.Data.Nat.ModEq

/-!
# A display over a circular memory of lines

A display of `H` lines reads a memory of `H` lines from a start line onward,
wrapping at the end. Moving the start line by one block of lines scrolls the
view by that block; the block that leaves at one end is the one that reappears
at the other. When the block height divides both `H` and the start line, each
displayed block is one contiguous block of memory.
-/
namespace Betawise.CircularLines

/-- The line of memory behind line `i` of the display. -/
def memoryLine (H start i : ℕ) : ℕ := (start + i) % H

/-- What the display shows at line `i`. -/
def view {A : Type*} (H start : ℕ) (mem : ℕ → A) (i : ℕ) : A := mem (memoryLine H start i)

variable {H h start i : ℕ}

theorem memoryLine_lt (hH : 0 < H) : memoryLine H start i < H := Nat.mod_lt _ hH

/-- Different lines of the display come from different lines of memory. -/
theorem memoryLine_inj {j : ℕ} (hi : i < H) (hj : j < H)
    (he : memoryLine H start i = memoryLine H start j) : i = j := by
  have hmod : start + i ≡ start + j [MOD H] := he
  exact Nat.ModEq.eq_of_lt_of_lt (Nat.ModEq.add_left_cancel' start hmod) hi hj

theorem memoryLine_start_mod (d : ℕ) :
    memoryLine H ((start + d) % H) i = memoryLine H start (i + d) := by
  simp only [memoryLine, Nat.mod_add_mod]
  congr 1
  omega

theorem memoryLine_add_period : memoryLine H start (i + H) = memoryLine H start i := by
  simp only [memoryLine, ← Nat.add_assoc, Nat.add_mod_right]

/-- Scrolling on by `h` lines: the view moves up and its last `h` lines are the
ones that were first. -/
theorem view_rollOn {A : Type*} (mem : ℕ → A) :
    view H ((start + h) % H) mem i =
      if i + h < H then view H start mem (i + h) else view H start mem (i + h - H) := by
  simp only [view, memoryLine_start_mod]
  split
  · rfl
  · rw [show i + h = i + h - H + H by omega, memoryLine_add_period, Nat.add_sub_cancel]

/-- Scrolling back by `h` lines: the view moves down and its first `h` lines
are the ones that were last. -/
theorem view_rollBack {A : Type*} (mem : ℕ → A) (hh : h ≤ H) :
    view H ((start + (H - h)) % H) mem i =
      if i < h then view H start mem (i + (H - h)) else view H start mem (i - h) := by
  simp only [view, memoryLine_start_mod]
  split
  · rfl
  · rw [show i + (H - h) = i - h + H by omega, memoryLine_add_period]

section Blocks
variable (hH : h ∣ H) (hs : h ∣ start)
include hH hs

/-- Memory lines keep their offset inside a block. -/
theorem memoryLine_mod : memoryLine H start i % h = i % h := by
  obtain ⟨k, rfl⟩ := hs
  rw [memoryLine, Nat.mod_mod_of_dvd _ hH, Nat.mul_add_mod]

/-- A block of the display starts at a block of memory, and does not wrap. -/
theorem memoryLine_block (hi : h ∣ i) {d : ℕ} (hpos : 0 < H) (hd : d < h) :
    memoryLine H start (i + d) = memoryLine H start i + d := by
  have hmod : memoryLine H start i % h = 0 := by
    rw [memoryLine_mod hH hs, Nat.mod_eq_zero_of_dvd hi]
  have hfit : memoryLine H start i + d < H := by
    obtain ⟨q, hq⟩ := Nat.dvd_of_mod_eq_zero hmod
    obtain ⟨n, rfl⟩ := hH
    have hlt : memoryLine (h * n) start i < h * n := memoryLine_lt hpos
    rw [hq] at hlt ⊢
    have hqn : q + 1 ≤ n := Nat.lt_of_mul_lt_mul_left hlt
    calc h * q + d < h * q + h := Nat.add_lt_add_left hd _
      _ = h * (q + 1) := (Nat.mul_succ h q).symm
      _ ≤ h * n := Nat.mul_le_mul_left h hqn
  rw [memoryLine, ← Nat.add_assoc, ← Nat.mod_add_mod]
  exact Nat.mod_eq_of_lt hfit

/-- A display line lies in block `r` exactly if its memory line lies in the
memory block where the block starts. -/
theorem memoryLine_mem_block (r : ℕ) (hr : r * h < H) (hi : i < H) (hpos : 0 < h) :
    (memoryLine H start (r * h) ≤ memoryLine H start i ∧
      memoryLine H start i < memoryLine H start (r * h) + h) ↔ i / h = r := by
  have hH0 : 0 < H := by omega
  constructor
  · rintro ⟨hle, hlt⟩
    obtain ⟨d, hd⟩ := Nat.exists_eq_add_of_le hle
    have hdh : d < h := by omega
    have hsame : memoryLine H start i = memoryLine H start (r * h + d) := by
      rw [memoryLine_block hH hs (Nat.dvd_mul_left h r) hH0 hdh, hd]
    obtain ⟨n, rfl⟩ := hH
    have hrn : r + 1 ≤ n := by
      rw [Nat.mul_comm r h] at hr
      exact Nat.lt_of_mul_lt_mul_left hr
    have hfit : r * h + d < h * n := by
      calc r * h + d < r * h + h := Nat.add_lt_add_left hdh _
        _ = h * (r + 1) := by rw [Nat.mul_succ, Nat.mul_comm]
        _ ≤ h * n := Nat.mul_le_mul_left h hrn
    have hi' : i = r * h + d := memoryLine_inj hi hfit hsame
    rw [hi', Nat.mul_comm, Nat.mul_add_div hpos, Nat.div_eq_of_lt hdh, Nat.add_zero]
  · rintro rfl
    have hsplit : i = i / h * h + i % h := (Nat.div_add_mod' i h).symm
    have hd : i % h < h := Nat.mod_lt _ hpos
    have hb := memoryLine_block hH hs (Nat.dvd_mul_left h (i / h)) hH0 hd
    rw [← hsplit] at hb
    omega

end Blocks

end Betawise.CircularLines
