import Mathlib.Algebra.BigOperators.Group.List.Basic
import Mathlib.Data.List.Forall2
import Mathlib.Tactic.Ring

/-!
# Mixed radix

The rank of a list of digits, each below its own radix, the first digit being the most
significant one. Below the product of the radices, ranks and lists of digits correspond
to each other.
-/
namespace Betawise.MixedRadix

/-- The digits are below their radices. -/
def Digits (rs ds : List ℕ) : Prop := List.Forall₂ (fun r d => d < r) rs ds

instance (rs ds : List ℕ) : Decidable (Digits rs ds) :=
  inferInstanceAs (Decidable (List.Forall₂ _ rs ds))

/-- Horner's scheme, from `acc` on. -/
def rank (acc : ℕ) : List ℕ → List ℕ → ℕ
  | r::rs,d::ds => rank (acc * r + d) rs ds
  | _,_ => acc

variable {rs ds ds' : List ℕ} {acc acc' n x : ℕ}

theorem mul_add_lt {r d : ℕ} (hacc : acc < n) (hd : d < r) : acc * r + d < n * r := by
  calc acc * r + d < acc * r + r := Nat.add_lt_add_left hd _
    _ = (acc + 1) * r := by ring
    _ ≤ n * r := Nat.mul_le_mul_right r hacc

theorem Digits.exists_radix (h : Digits rs ds) : ∀ d ∈ ds, ∃ r ∈ rs, d < r := by
  induction h with
  | nil => exact nofun
  | @cons r d rs ds hd _ ih =>
    refine List.forall_mem_cons.mpr ⟨⟨r,List.mem_cons_self,hd⟩,fun d' hd' => ?_⟩
    obtain ⟨r',hr',hlt⟩ := ih d' hd'
    exact ⟨r',List.mem_cons_of_mem r hr',hlt⟩

theorem rank_lt (h : Digits rs ds) (hacc : acc < n) : rank acc rs ds < n * rs.prod := by
  induction h generalizing acc n with
  | nil => simpa [rank] using hacc
  | cons hd _ ih =>
    rw [rank, List.prod_cons, ← Nat.mul_assoc]
    exact ih (mul_add_lt hacc hd)

/-- Digits can be read off the rank. -/
theorem rank_inj (h : Digits rs ds) (h' : Digits rs ds') (heq : rank acc rs ds = rank acc' rs ds') :
    acc = acc' ∧ ds = ds' := by
  induction h generalizing acc acc' ds' with
  | nil =>
    cases h'
    exact ⟨heq,rfl⟩
  | @cons r d rs ds hd _ ih =>
    cases h' with
    | @cons _ d' _ ds' hd' htail =>
      obtain ⟨hstep,rfl⟩ := ih htail heq
      have hmod := congrArg (· % r) hstep
      have hdiv := congrArg (· / r) hstep
      have hpos : 0 < r := Nat.lt_of_le_of_lt (Nat.zero_le d) hd
      simp only [Nat.mul_add_mod_of_lt hd, Nat.mul_add_mod_of_lt hd'] at hmod
      simp only [Nat.add_comm (_ * r), Nat.add_mul_div_right _ _ hpos, Nat.div_eq_of_lt hd,
        Nat.div_eq_of_lt hd', Nat.zero_add] at hdiv
      exact ⟨hdiv,by rw [hmod]⟩

/-- Every number below the product is a rank. -/
theorem exists_rank (hx : x < n * rs.prod) :
    ∃ acc < n, ∃ ds, Digits rs ds ∧ rank acc rs ds = x := by
  induction rs generalizing n with
  | nil => exact ⟨x,by simpa using hx,[],.nil,rfl⟩
  | cons r rs ih =>
    rw [List.prod_cons, ← Nat.mul_assoc] at hx
    obtain ⟨acc,hacc,ds,hds,hrank⟩ := ih hx
    have hpos : 0 < r := Nat.pos_of_mul_pos_left (Nat.lt_of_le_of_lt (Nat.zero_le acc) hacc)
    refine ⟨acc / r,Nat.div_lt_of_lt_mul (by rwa [Nat.mul_comm]),acc % r::ds,
      .cons (Nat.mod_lt _ hpos) hds,?_⟩
    rw [rank, Nat.div_add_mod']
    exact hrank

end Betawise.MixedRadix
