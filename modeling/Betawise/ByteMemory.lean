import Mathlib.Data.Nat.Notation
import Mathlib.Tactic.SplitIfs

/-!
# Byte memory with 32-bit addresses

A memory is a function from addresses to bytes; words are stored big-endian and
wrap around at the end of the address space. A store is seen by a load at the
same address, and by no load from a word that is apart from it.
-/
namespace Betawise.ByteMemory

abbrev Addr := BitVec 32

abbrev Memory := Addr → BitVec 8

/-- Byte `i` of a word, the most significant first. -/
def byteOf (v : BitVec 32) (i : ℕ) : BitVec 8 := v.extractLsb' (8 * (3 - i)) 8

def load32 (m : Memory) (a : Addr) : BitVec 32 := m a ++ m (a + 1) ++ m (a + 2) ++ m (a + 3)

def store8 (m : Memory) (a : Addr) (b : BitVec 8) : Memory := fun x => if x = a then b else m x

def store32 (m : Memory) (a : Addr) (v : BitVec 32) : Memory := fun x =>
  if x = a then byteOf v 0
  else if x = a + 1 then byteOf v 1
  else if x = a + 2 then byteOf v 2
  else if x = a + 3 then byteOf v 3
  else m x

/-- The bytes of the word at `a`. -/
def InWord (a x : Addr) : Prop := (x - a).toNat < 4

instance (a x : Addr) : Decidable (InWord a x) := inferInstanceAs (Decidable (_ < _))

/-- Two words share no byte. -/
def Apart (a b : Addr) : Prop := ∀ x, InWord a x → ¬ InWord b x

theorem Apart.symm {a b : Addr} (h : Apart a b) : Apart b a := fun x hb ha => h x ha hb

theorem inWord_iff {a x : Addr} : InWord a x ↔ x = a ∨ x = a + 1 ∨ x = a + 2 ∨ x = a + 3 := by
  unfold InWord
  bv_omega

/-- Words apart from one another start at least four bytes from one another. -/
theorem apart_iff {a b : Addr} : Apart a b ↔ 4 ≤ (b - a).toNat ∧ 4 ≤ (a - b).toNat := by
  constructor
  · intro h
    have ha : ¬ InWord b a := h a (by unfold InWord; bv_omega)
    have hb : ¬ InWord a b := h.symm b (by unfold InWord; bv_omega)
    unfold InWord at ha hb
    omega
  · rintro ⟨h₁,h₂⟩ x ha hb
    unfold InWord at ha hb
    bv_omega

instance (a b : Addr) : Decidable (Apart a b) := decidable_of_iff _ apart_iff.symm

theorem store8_frame (m : Memory) {a x : Addr} (b : BitVec 8) (h : x ≠ a) :
    store8 m a b x = m x := if_neg h

/-- A word store leaves every other byte alone. -/
theorem store32_frame (m : Memory) {a x : Addr} (v : BitVec 32) (h : ¬ InWord a x) :
    store32 m a v x = m x := by
  rw [inWord_iff] at h
  simp only [not_or] at h
  simp only [store32, if_neg h.1, if_neg h.2.1, if_neg h.2.2.1, if_neg h.2.2.2]

theorem load32_congr {m m' : Memory} {a : Addr} (h : ∀ x, InWord a x → m x = m' x) :
    load32 m a = load32 m' a := by
  have hbyte (x : Addr) (hx : x = a ∨ x = a + 1 ∨ x = a + 2 ∨ x = a + 3) : m x = m' x :=
    h x (inWord_iff.mpr hx)
  simp only [load32, hbyte a (Or.inl rfl), hbyte (a + 1) (Or.inr (Or.inl rfl)),
    hbyte (a + 2) (Or.inr (Or.inr (Or.inl rfl))), hbyte (a + 3) (Or.inr (Or.inr (Or.inr rfl)))]

theorem bytes_append (v : BitVec 32) :
    byteOf v 0 ++ byteOf v 1 ++ byteOf v 2 ++ byteOf v 3 = v := by
  apply BitVec.eq_of_getLsbD_eq
  intro i hi
  simp only [byteOf, BitVec.getLsbD_append, BitVec.getLsbD_extractLsb']
  split_ifs with h₀ h₁ h₂
  · simp [h₀]
  · simp only [h₁, decide_true, Bool.true_and]
    congr 1
    omega
  · simp only [h₂, decide_true, Bool.true_and]
    congr 1
    omega
  · simp only [show i - 8 - 8 - 8 < 8 by omega, decide_true, Bool.true_and]
    congr 1
    omega

theorem byteOf_append (b₀ b₁ b₂ b₃ : BitVec 8) :
    byteOf (b₀ ++ b₁ ++ b₂ ++ b₃) 0 = b₀ ∧ byteOf (b₀ ++ b₁ ++ b₂ ++ b₃) 1 = b₁ ∧
      byteOf (b₀ ++ b₁ ++ b₂ ++ b₃) 2 = b₂ ∧ byteOf (b₀ ++ b₁ ++ b₂ ++ b₃) 3 = b₃ := by
  refine ⟨?_,?_,?_,?_⟩ <;> apply BitVec.eq_of_getLsbD_eq <;> intro i hi <;>
    simp only [byteOf, BitVec.getLsbD_extractLsb', BitVec.getLsbD_append, hi, decide_true,
      Bool.true_and]
  · rw [if_neg (by omega), if_neg (by omega), if_neg (by omega)]
    congr 1
    omega
  · rw [if_neg (by omega), if_neg (by omega), if_pos (by omega)]
    congr 1
    omega
  · rw [if_neg (by omega), if_pos (by omega)]
    congr 1
    omega
  · rw [if_pos (by omega)]
    congr 1
    omega

/-- The store of a word that another memory holds at the same address. -/
theorem store32_load32 (m m' : Memory) (a x : Addr) :
    store32 m a (load32 m' a) x = if InWord a x then m' x else m x := by
  obtain ⟨h₀,h₁,h₂,h₃⟩ := byteOf_append (m' a) (m' (a + 1)) (m' (a + 2)) (m' (a + 3))
  by_cases hx : InWord a x
  · rw [if_pos hx]
    simp only [store32, load32, h₀, h₁, h₂, h₃]
    split_ifs with hx₀ hx₁ hx₂ hx₃
    · rw [hx₀]
    · rw [hx₁]
    · rw [hx₂]
    · rw [hx₃]
    · exact absurd (inWord_iff.mp hx) (by simp only [hx₀, hx₁, hx₂, hx₃, or_self, not_false_iff])
  · rw [if_neg hx, store32_frame m _ hx]

theorem load32_store32_same (m : Memory) (a : Addr) (v : BitVec 32) :
    load32 (store32 m a v) a = v := by
  have h1 : a + 1 ≠ a := by bv_omega
  have h2 : a + 2 ≠ a ∧ a + 2 ≠ a + 1 := by bv_omega
  have h3 : a + 3 ≠ a ∧ a + 3 ≠ a + 1 ∧ a + 3 ≠ a + 2 := by bv_omega
  simp only [load32, store32, if_true, if_neg h1, if_neg h2.1, if_neg h2.2, if_neg h3.1,
    if_neg h3.2.1, if_neg h3.2.2]
  exact bytes_append v

theorem load32_store32_apart (m : Memory) {a b : Addr} (v : BitVec 32) (h : Apart a b) :
    load32 (store32 m b v) a = load32 m a :=
  load32_congr fun x hx => store32_frame m v (h x hx)

/-! ### Consecutive words -/

/-- The address of word `i` from `base` on. -/
def wordAt (base : Addr) (i : ℕ) : Addr := base + BitVec.ofNat 32 (4 * i)

theorem wordAt_zero (base : Addr) : wordAt base 0 = base := by
  simp [wordAt]

theorem wordAt_succ (base : Addr) (i : ℕ) : wordAt base i + 4 = wordAt base (i + 1) := by
  unfold wordAt
  bv_omega

/-- Different words of a table that does not wrap around onto itself. -/
theorem apart_wordAt (base : Addr) {i k : ℕ} (hne : i ≠ k) (hi : 4 * (i + 1) ≤ 4294967296)
    (hk : 4 * (k + 1) ≤ 4294967296) : Apart (wordAt base i) (wordAt base k) := by
  rw [apart_iff]
  unfold wordAt
  bv_omega

end Betawise.ByteMemory
