import Mathlib.Data.Nat.Notation

/-!
# Trees of operator precedence

Expressions with operands, brackets, unary operators in front and binary operators,
each operator with a precedence. A tree is canonical if the text of its nodes, from
left to right and without further brackets, means the tree: binary operators of equal
precedence associate to the left, and a unary operator takes everything behind it that
binds more tightly.
-/
namespace Betawise.PrecedenceTree

inductive Tree (A U O : Type) where
  | operand (a : A)
  | group (t : Tree A U O)
  | unary (u : U) (t : Tree A U O)
  | binary (o : O) (l r : Tree A U O)

/-- The precedence of the operators. -/
structure Precedence (U O : Type) where
  unary : U → ℕ
  binary : O → ℕ

variable {A U O : Type} (P : Precedence U O)

/-- From its left end, all operators of the tree outside brackets bind more tightly
than `p`. -/
def Opens (p : ℕ) : Tree A U O → Prop
  | .operand _ => True
  | .group _ => True
  | .unary _ _ => True
  | .binary o l _ => p < P.binary o ∧ Opens p l

/-- Up to its right end, no operator of the tree outside brackets is looser than `q`. -/
def Closes (q : ℕ) : Tree A U O → Prop
  | .operand _ => True
  | .group _ => True
  | .unary u t => q ≤ P.unary u ∧ Closes q t
  | .binary o _ r => q ≤ P.binary o ∧ Closes q r

def Canonical : Tree A U O → Prop
  | .operand _ => True
  | .group t => Canonical t ∧ Opens P 0 t
  | .unary u t => Canonical t ∧ Opens P (P.unary u) t
  | .binary o l r =>
    Canonical l ∧ Canonical r ∧ Closes P (P.binary o) l ∧ Opens P (P.binary o) r

variable {P}

theorem Opens.mono {p q : ℕ} {t : Tree A U O} (h : Opens P q t) (hle : p ≤ q) : Opens P p t := by
  induction t with
  | operand _ => trivial
  | group _ _ => trivial
  | unary _ _ _ => trivial
  | binary o l r ihl _ => exact ⟨Nat.lt_of_le_of_lt hle h.1,ihl h.2⟩

/-- Above the precedence of all binary operators there is none. -/
theorem Opens.any {p q : ℕ} {t : Tree A U O} (h : Opens P q t) (hq : ∀ o, P.binary o ≤ q) :
    Opens P p t := by
  cases t with
  | operand _ => trivial
  | group _ => trivial
  | unary _ _ => trivial
  | binary o l r => exact absurd h.1 (Nat.not_lt_of_le (hq o))

/-- A unary operator in front of the leftmost operand. -/
def unaryLeft (u : U) : Tree A U O → Tree A U O
  | .operand a => .unary u (.operand a)
  | .group t => .unary u (.group t)
  | .unary v t => .unary u (.unary v t)
  | .binary o l r => .binary o (unaryLeft u l) r

theorem Opens.unaryLeft {p : ℕ} {u : U} {t : Tree A U O} (h : Opens P p t) :
    Opens P p (unaryLeft u t) := by
  induction t with
  | operand _ => trivial
  | group _ _ => trivial
  | unary _ _ _ => trivial
  | binary o l r ihl _ => exact ⟨h.1,ihl h.2⟩

theorem Closes.unaryLeft {q : ℕ} {u : U} {t : Tree A U O} (h : Closes P q t)
    (hu : q ≤ P.unary u) : Closes P q (unaryLeft u t) := by
  cases t with
  | operand _ => exact ⟨hu,trivial⟩
  | group _ => exact ⟨hu,trivial⟩
  | unary _ _ => exact ⟨hu,h⟩
  | binary o l r => exact h

/-- An operator that binds more tightly than all others can be put there. -/
theorem Canonical.unaryLeft {u : U} {t : Tree A U O} (h : Canonical P t)
    (hu : ∀ o, P.binary o ≤ P.unary u) : Canonical P (unaryLeft u t) := by
  induction t with
  | operand _ => exact ⟨trivial,trivial⟩
  | group _ _ => exact ⟨h,trivial⟩
  | unary _ _ _ => exact ⟨h,trivial⟩
  | binary o l r ihl _ => exact ⟨ihl h.1,h.2.1,h.2.2.1.unaryLeft (hu o),h.2.2.2⟩

end Betawise.PrecedenceTree
