import Mathlib.Data.List.Basic

/-!
# Runs of a deterministic step function over a list of events

`Along` says that every event is met in a state where it is allowed,
`Throughout` that a property holds in every state of the run, the first and the
last included. The rules below lift one-step facts to runs: an invariant, a
simulation, and the rule for exact conditions, where an allowed event keeps the
invariant and any other event breaks the property at once.
-/
namespace Betawise.EventRuns

variable {S T E : Type*}

/-- Every event of the run satisfies `ok` in the state that receives it. -/
def Along (step : S → E → S) (ok : S → E → Prop) : S → List E → Prop
  | _,[] => True
  | s,e::es => ok s e ∧ Along step ok (step s e) es

instance Along.decidable (step : S → E → S) (ok : S → E → Prop) [∀ s e, Decidable (ok s e)] :
    (s : S) → (es : List E) → Decidable (Along step ok s es)
  | _,[] => isTrue trivial
  | s,e::es =>
    have := Along.decidable step ok (step s e) es
    inferInstanceAs (Decidable (ok s e ∧ Along step ok (step s e) es))

/-- Every state of the run satisfies `P`. -/
def Throughout (step : S → E → S) (P : S → Prop) : S → List E → Prop
  | s,[] => P s
  | s,e::es => P s ∧ Throughout step P (step s e) es

variable {step : S → E → S} {ok : S → E → Prop} {P I : S → Prop}

theorem Throughout.first {s : S} {es : List E} (h : Throughout step P s es) : P s := by
  cases es with
  | nil => exact h
  | cons e es => exact h.1

/-- `Throughout` is the property of every initial part of the run. -/
theorem throughout_iff_take {s : S} {es : List E} :
    Throughout step P s es ↔ ∀ n, P ((es.take n).foldl step s) := by
  induction es generalizing s with
  | nil => simp [Throughout]
  | cons e es ih =>
    simp only [Throughout, ih]
    constructor
    · rintro ⟨hs,hrest⟩ n
      cases n with
      | zero => exact hs
      | succ n => exact hrest n
    · intro h
      exact ⟨h 0,fun n => h (n + 1)⟩

theorem along_append {s : S} {es es' : List E} :
    Along step ok s (es ++ es') ↔ Along step ok s es ∧ Along step ok (es.foldl step s) es' := by
  induction es generalizing s with
  | nil => exact ⟨fun h => ⟨trivial,h⟩,fun h => h.2⟩
  | cons e es ih =>
    simp only [List.cons_append, Along, List.foldl_cons, ih, and_assoc]

/-- What holds of every event may be assumed of it when the run meets it. -/
theorem Along.and_mem {Q : E → Prop} {s : S} {es : List E} (h : Along step ok s es)
    (hQ : ∀ e ∈ es, Q e) : Along step (fun s e => ok s e ∧ Q e) s es := by
  induction es generalizing s with
  | nil => trivial
  | cons e es ih =>
    exact ⟨⟨h.1,hQ e List.mem_cons_self⟩,ih h.2 fun e' he' => hQ e' (List.mem_cons_of_mem e he')⟩

/-- An invariant that every allowed event keeps holds throughout the run. -/
theorem Along.throughout (hkeep : ∀ s e, I s → ok s e → I (step s e)) {s : S} {es : List E}
    (hs : I s) (h : Along step ok s es) : Throughout step I s es := by
  induction es generalizing s with
  | nil => exact hs
  | cons e es ih => exact ⟨hs,ih (hkeep s e hs h.1) h.2⟩

theorem Throughout.mono {Q : S → Prop} (hPQ : ∀ s, P s → Q s) {s : S} {es : List E}
    (h : Throughout step P s es) : Throughout step Q s es := by
  induction es generalizing s with
  | nil => exact hPQ s h
  | cons e es ih => exact ⟨hPQ s h.1,ih h.2⟩

/-- If the allowed among the legal events keep the invariant, the invariant gives
the property, and any other legal event breaks the property at once, then the
property holds throughout a legal run exactly if all its events are allowed. -/
theorem throughout_iff_along {legal : S → E → Prop} (hP : ∀ s, I s → P s)
    (hkeep : ∀ s e, I s → legal s e → ok s e → I (step s e))
    (hbreak : ∀ s e, I s → legal s e → ¬ ok s e → ¬ P (step s e)) {s : S} {es : List E}
    (hs : I s) (hlegal : Along step legal s es) :
    Throughout step P s es ↔ Along step ok s es := by
  induction es generalizing s with
  | nil => exact ⟨fun _ => trivial,fun _ => hP s hs⟩
  | cons e es ih =>
    by_cases hok : ok s e
    · have hrest := ih (hkeep s e hs hlegal.1 hok) hlegal.2
      exact ⟨fun h => ⟨hok,hrest.mp h.2⟩,fun h => ⟨hP s hs,hrest.mpr h.2⟩⟩
    · exact ⟨fun h => absurd h.2.first (hbreak s e hs hlegal.1 hok),fun h => absurd h.1 hok⟩

/-- If among the legal events those with `ok` are good and keep the invariant, and
no others are good, then all events of a legal run are good exactly if all have `ok`. -/
theorem along_iff_along {good : S → E → Prop} {L : E → Prop}
    (hkeep : ∀ s e, I s → L e → ok s e → good s e ∧ I (step s e))
    (hbreak : ∀ s e, I s → L e → good s e → ok s e) {s : S} {es : List E} (hs : I s)
    (hlegal : ∀ e ∈ es, L e) : Along step good s es ↔ Along step ok s es := by
  induction es generalizing s with
  | nil => exact Iff.rfl
  | cons e es ih =>
    have he : L e := hlegal e List.mem_cons_self
    have hes : ∀ e' ∈ es, L e' := fun e' he' => hlegal e' (List.mem_cons_of_mem e he')
    constructor
    · rintro ⟨hgood,hrest⟩
      have hok := hbreak s e hs he hgood
      exact ⟨hok,(ih (hkeep s e hs he hok).2 hes).mp hrest⟩
    · rintro ⟨hok,hrest⟩
      obtain ⟨hgood,hinv⟩ := hkeep s e hs he hok
      exact ⟨hgood,(ih hinv hes).mpr hrest⟩

theorem along_true (s : S) (es : List E) : Along step (fun _ _ => True) s es := by
  induction es generalizing s with
  | nil => trivial
  | cons e es ih => exact ⟨trivial,ih _⟩

/-- A condition on the events alone does not depend on the run. -/
theorem along_const_iff {Q : E → Prop} {s : S} {es : List E} :
    Along step (fun _ e => Q e) s es ↔ ∀ e ∈ es, Q e := by
  induction es generalizing s with
  | nil => exact ⟨fun _ _ h => absurd h List.not_mem_nil,fun _ => trivial⟩
  | cons e es ih => simp only [Along, ih, List.forall_mem_cons]

/-- Forward simulation: a run of `step` stays related to the run of `step'` on
the same events while these are allowed in the states of the second run. -/
theorem simulation {step' : T → E → T} {ok' : T → E → Prop} {R : S → T → Prop}
    (hstep : ∀ s t e, R s t → ok' t e → R (step s e) (step' t e)) {s : S} {t : T} {es : List E}
    (h : R s t) (hok : Along step' ok' t es) : R (es.foldl step s) (es.foldl step' t) := by
  induction es generalizing s t with
  | nil => exact h
  | cons e es ih => exact ih (hstep s t e h hok.1) hok.2

end Betawise.EventRuns
