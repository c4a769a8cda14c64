import Mathlib.Order.Basic

/-!
# Steps that may fail

A step changes the state and gives a value or an error; it may also not end. `Yields`
says what holds after it, `Whenever` what holds if it gives a value.
-/
namespace Betawise.FallibleState

/-- Nothing if the step does not end. -/
abbrev Outcome (σ ε α : Type) := Option (Except ε α × σ)

variable {σ ε α β : Type} {o : Outcome σ ε α} {f : α → σ → Outcome σ ε β} {P P' R : α → σ → Prop}
  {Q Q' : σ → Prop} {P₂ : β → σ → Prop}

/-- The next step, unless there was an error. -/
def andThen (o : Outcome σ ε α) (f : α → σ → Outcome σ ε β) : Outcome σ ε β :=
  match o with
  | none => none
  | some (.error e,s) => some (.error e,s)
  | some (.ok a,s) => f a s

/-- The step ends, with `P` of its value and `Q` after an error. -/
def Yields (o : Outcome σ ε α) (P : α → σ → Prop) (Q : σ → Prop) : Prop :=
  match o with
  | none => False
  | some (.error _,s) => Q s
  | some (.ok a,s) => P a s

def Whenever (o : Outcome σ ε α) (R : α → σ → Prop) : Prop :=
  match o with
  | some (.ok a,s) => R a s
  | _ => True

instance [∀ a s, Decidable (R a s)] : (o : Outcome σ ε α) → Decidable (Whenever o R)
  | none => isTrue trivial
  | some (.error _,_) => isTrue trivial
  | some (.ok a,s) => inferInstanceAs (Decidable (R a s))

theorem Yields.andThen (h : Yields o P Q) (hf : ∀ a s, P a s → Yields (f a s) P₂ Q) :
    Yields (andThen o f) P₂ Q := by
  match o with
  | some (.error _,_) => exact h
  | some (.ok a,s) => exact hf a s h

theorem Yields.mono (h : Yields o P Q) (hP : ∀ a s, P a s → P' a s) (hQ : ∀ s, Q s → Q' s) :
    Yields o P' Q' := by
  match o with
  | some (.error _,s) => exact hQ s h
  | some (.ok a,s) => exact hP a s h

/-- A step with a value of which something is known. -/
theorem Yields.and_whenever (h : Yields o P Q) (hR : Whenever o R) :
    Yields o (fun a s => P a s ∧ R a s) Q := by
  match o with
  | some (.error _,_) => exact h
  | some (.ok _,_) => exact ⟨h,hR⟩

end Betawise.FallibleState
