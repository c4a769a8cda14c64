import Betawise.BasicPlaces
import Betawise.EventRuns

/-!
# Assignments, DIM and CLEAR

Every statement finds or makes the variable first, and then evaluates. After an error the
descriptor stack is flushed and the next command is read. Numbers, strings and arrays
together behave as a finite map from places to values.
-/
namespace Betawise.BasicStatements
open LoggedRam BasicVariables BasicArrays BasicStringHeap BasicRoots BasicStrings
open BasicStringMachine BasicStringValues BasicDim BasicPlaces SlidingHeap FallibleState EventRuns

inductive Statement where
  | letNumber (p : Place) (number : List ℕ)
  | letString (p : Place) (e : Expr)
  | dim (name : ℕ) (bounds : List ℕ)
  | clear

/-- `LAB_SVAR`, with `LAB_1E17` for an element. -/
def makePlace : Place → Store → Outcome Store StringError ℕ
  | .scalar name,b =>
    match svar (kindOf name) name b with
    | none => none
    | some (a,b) => some (.ok a,b)
  | .element name indices,b => findPlace (.element name indices) b

/-- `LAB_LET` with the packed value of a numeric expression, or with a string expression;
`LAB_DIM` and `LAB_147A`. -/
def execute : Statement → Store → Outcome Store StringError Unit
  | .letNumber p number,b =>
    andThen (makePlace p b) fun a b => some (.ok (),{ b with ram := pokeBytes a number b.ram })
  | .letString p e,b =>
    andThen (makePlace p b) fun a2 b => andThen (eval e b) fun a0 b => letString a2 a0 b
  | .dim name bounds,b => dim name bounds b
  | .clear,b => some (.ok (),BasicVariables.clear b)

/-- The state in which the next statement starts; after an error, from `LAB_1491` on. -/
def after (b : Store) : Outcome Store StringError Unit → Store
  | none => b
  | some (.ok _,b) => b
  | some (.error _,b) => { b with a4 := b.desSk }

def isOk : Outcome Store StringError Unit → Bool
  | some (.ok _,_) => true
  | _ => false

def next (b : Store) (s : Statement) : Store := after b (execute s b)

/-- The statements of a run, with whether they succeed. -/
def outcomes : Store → List Statement → List (Statement × Bool)
  | _,[] => []
  | b,s::ss => (s,isOk (execute s b))::outcomes (next b s) ss

/-! ### The abstract memory -/

abbrev Memory := Place → Option (List ℕ)

/-- A variable that is looked for in order to be assigned exists from then on. -/
def touch : Place → Memory → Memory
  | .scalar name,f =>
    if f (.scalar name) = none then Function.update f (.scalar name) (some (initial name)) else f
  | .element _ _,f => f

/-- What a statement does to the memory. -/
def update (text : ℕ → ℕ) (f : Memory) : Statement × Bool → Memory
  | (.letNumber p number,ok) =>
    if ok then Function.update (touch p f) p (some number) else touch p f
  | (.letString p e,ok) =>
    if ok then Function.update (touch p f) p (value text (touch p f) e) else touch p f
  | (.dim name bounds,ok) =>
    if ok then fun q => if Dimensioned name bounds.reverse q then some (initial name) else f q
    else f
  | (.clear,_) => fun _ => none

/-! ### What a statement needs -/

/-- There is room for a new variable, for which the interpreter does not test. -/
def MakeSpare : Place → Store → Prop
  | .scalar name,b =>
    gvar (kindOf name) name b = some none → b.earryl + (kindOf name).size < b.sstorl
  | .element _ _,_ => True

instance : (p : Place) → (b : Store) → Decidable (MakeSpare p b)
  | .scalar _,_ => inferInstanceAs (Decidable (_ → _))
  | .element _ _,_ => isTrue trivial

/-- Names and numbers are in range, and there is room where the interpreter does not test
for it or where its test is wrong. -/
def Allowed (b : Store) : Statement → Prop
  | .letNumber p number =>
    Proper p ∧ p.name < 4294967296 ∧ ¬ isString p.name = true ∧ number.length = 4 ∧ MakeSpare p b
  | .letString p e =>
    Proper p ∧ p.name < 4294967296 ∧ isString p.name = true ∧ BasicStringValues.Legal b e ∧
      MakeSpare p b ∧ Whenever (makePlace p b) fun _ b => Spare e b ∧ Whenever (eval e b) CopySpare
  | .dim name bounds =>
    Bounds name bounds ∧ b.earryl + 10 + 2 * bounds.length ≤ b.sstorl ∧
      (elementSize name * count bounds.reverse < 4294967296 →
        b.earryl + arraySize name bounds < 4294967296) ∧
      ¬ 131072 ∣ elementSize name * count bounds.reverse
  | .clear => True

instance (b : Store) : (s : Statement) → Decidable (Allowed b s)
  | .letNumber _ _ => inferInstanceAs (Decidable (_ ∧ _))
  | .letString _ _ => inferInstanceAs (Decidable (_ ∧ _))
  | .dim _ _ => inferInstanceAs (Decidable (_ ∧ _))
  | .clear => isTrue trivial

variable {b b' b₀ : Store} {ns : Kind → ℕ} {xs : List ArrayShape} {k n : ℕ} {p q : Place}
  {f g : Memory}

/-- The places read as the abstract memory. -/
structure Reads (b₀ b : Store) (f : Memory) : Prop where
  layout : ∃ ns xs, Layout b ns xs
  text : SameText b₀ b
  reads : ∀ q, Proper q → readPlace q b = f q

/-- After an error the stack is empty. -/
theorem flush (h : Machine b k xs n) : Machine { b with a4 := b.desSk } k xs 0 := by
  have hsub : ∀ r ∈ roots { b with a4 := b.desSk } k xs 0, r ∈ roots b k xs n := fun r hr =>
    Machine.slot_mem ((List.mem_append.mp hr).resolve_right List.not_mem_nil)
  exact
    { h.toSlotsAt with
      stack := rfl, depth := Nat.zero_le _, stack_ge := h.stack_ge, stack_le := h.stack_le,
      sfncl_le := h.sfncl_le, laid := h.laid.subset hsub,
      valid := fun r hr => ⟨(h.valid r (hsub r hr)).pointer_lt,(h.valid r (hsub r hr)).length_lt,
        (h.valid r (hsub r hr)).string⟩
      above := fun r hr => h.above r (hsub r hr), bottom := h.bottom, top := h.top,
      ememl_lt := h.ememl_lt }

theorem flush_eq (h : Layout b ns xs) : { b with a4 := b.desSk } = b :=
  have hstack : b.desSk = b.a4 := h.stack
  congrArg (fun a4 => { b with a4 := a4 }) hstack

theorem flush_frame (hf : Frame b k xs 0 b') : Frame b k xs 0 { b' with a4 := b'.desSk } :=
  ⟨hf.same,hf.bytes,hf.slot,fun i hi => absurd hi (Nat.not_lt_zero i)⟩

/-- What a step yields, for the next statement. -/
theorem after_yields {o : Outcome Store StringError Unit} {P : Unit → Store → Prop}
    {Q : Store → Prop} (h : Yields o P Q) (b : Store) :
    (isOk o = true ∧ P () (after b o)) ∨
      (isOk o = false ∧ ∃ b', Q b' ∧ after b o = { b' with a4 := b'.desSk }) := by
  match o with
  | some (.ok (),b') => exact Or.inl ⟨rfl,h⟩
  | some (.error e,b') => exact Or.inr ⟨rfl,b',h,rfl⟩

/-! ### The abstract memory on proper places -/

theorem touch_congr (hsame : ∀ q, Proper q → f q = g q) (q : Place) (hq : Proper q) :
    touch p f q = touch p g q := by
  cases p with
  | scalar name =>
    simp only [touch, hsame (.scalar name) trivial]
    split_ifs
    · by_cases hqp : q = .scalar name
      · rw [hqp, Function.update_self, Function.update_self]
      · rw [Function.update_of_ne hqp, Function.update_of_ne hqp, hsame q hq]
    · exact hsame q hq
  | element name is => exact hsame q hq

theorem proper_of_string (hq : StringPlace q) : Proper q ∧ isString q.name = true := by
  cases q with
  | scalar name => exact ⟨trivial,isString_of_kindOf.mp hq⟩
  | element name is => exact ⟨hq.2,hq.1⟩

theorem readString_eq (hq : StringPlace q) (b : Store) : readString q b = readPlace q b := by
  have hs := (proper_of_string hq).2
  unfold readString readPlace valueAt
  generalize findPlace q b = o
  rcases o with _ | ⟨e | a,_⟩
  · rfl
  · rfl
  · exact congrArg some (if_pos hs).symm

/-! ### One statement -/

/-- The variable is made, and the others are kept. -/
theorem makePlace_spec (h : Layout b ns xs) (hp : Proper p) (hlt : p.name < 4294967296)
    (hspare : MakeSpare p b) :
    ∃ r b₁ ns₁, makePlace p b = some (r,b₁) ∧ Layout b₁ ns₁ xs ∧ SameText b b₁ ∧
      (∀ q, Proper q → readPlace q b₁ = touch p (fun q => readPlace q b) q) ∧
      ∀ a, r = .ok a → location b₁ ns₁ xs p = .ok a := by
  cases p with
  | element name is =>
    exact ⟨_,b,ns,h.findPlace_eq hp,h,⟨rfl,rfl,fun _ _ _ => rfl⟩,fun _ _ => rfl,fun _ ha => ha⟩
  | scalar name =>
    have hread := h.readPlace_eq (p := .scalar name) trivial
    have hgvar := h.gvar_eq (kindOf name) name
    cases hpos : position b.ram.byte name (kindOf name).size (startAddress b (kindOf name))
        (ns (kindOf name)) with
    | some i =>
      have hloc : location b ns xs (.scalar name) =
          .ok (startAddress b (kindOf name) + (kindOf name).size * i + 4) := by
        rw [location, hpos]
        rfl
      rw [hpos] at hgvar
      rw [hloc] at hread
      refine ⟨.ok _,b,ns,by rw [makePlace, svar, hgvar]; rfl,h,⟨rfl,rfl,fun _ _ _ => rfl⟩,
        fun q _ => ?_,fun a ha => by rw [hloc, ha]⟩
      have hsome : ¬ readPlace (.scalar name) b = none := by
        rw [hread]
        exact Option.some_ne_none _
      rw [touch, if_neg hsome]
    | none =>
      rw [hpos] at hgvar
      have hloc : location b ns xs (.scalar name) = .error .undefinedVariable := by
        rw [location, hpos]
        rfl
      rw [hloc] at hread
      have hname : Names (kindOf name) name := ⟨hlt,Or.inr rfl⟩
      have hk : kindOf name ≠ .function := by
        unfold kindOf
        split_ifs <;> decide
      obtain ⟨hlayout,hlocation,hreads⟩ := create_places h hname hk hgvar (hspare hgvar)
      have ho := create_opened h hname hk
      refine ⟨.ok _,_,_,by rw [makePlace, svar, hgvar]; rfl,hlayout,⟨?_,?_,fun x hlo hhi => ?_⟩,
        fun q hq => ?_,fun a ha => hlocation.trans ha⟩
      · cases kindOf name <;> rfl
      · cases kindOf name <;> rfl
      · have horder := h.order
        refine ho.front x ?_
        cases kindOf name <;> simp only [endAddress] <;> omega
      · have hnone : readPlace (.scalar name) b = none := hread
        rw [hreads q hq, touch, if_pos hnone, Function.update_apply]

/-- The variable of an assignment is there. -/
theorem Reads.make (hr : Reads b₀ b f) (hp : Proper p) (hlt : p.name < 4294967296)
    (hspare : MakeSpare p b) :
    ∃ r b₁ ns xs, makePlace p b = some (r,b₁) ∧ Layout b₁ ns xs ∧ SameText b b₁ ∧
      Reads b₀ b₁ (touch p f) ∧ ∀ a, r = .ok a → location b₁ ns xs p = .ok a := by
  obtain ⟨⟨ns,xs,h⟩,ht,hreads⟩ := hr
  obtain ⟨r,b₁,ns₁,hmake,h₁,ht₁,hreads₁,hlocation⟩ := makePlace_spec h hp hlt hspare
  exact ⟨r,b₁,ns₁,xs,hmake,h₁,ht₁,⟨⟨ns₁,xs,h₁⟩,ht.trans ht₁,fun q hq =>
    (hreads₁ q hq).trans (touch_congr hreads q hq)⟩,hlocation⟩

/-- A new value at one place. -/
theorem Reads.put (hr : Reads b₀ b f) (h : Layout b ns xs) {a hi : ℕ} {v : List ℕ}
    (hloc : location b ns xs p = .ok a) (hw : Rewritten b ns xs a hi b')
    (hhi : hi = a + elementSize p.name) (ht : SameText b b') (hv : valueAt b' p.name a = v) :
    Reads b₀ b' (Function.update f p (some v)) := by
  refine ⟨⟨ns,xs,hw.layout h⟩,hr.text.trans ht,fun q hq => ?_⟩
  by_cases hqp : q = p
  · subst hqp
    rw [(hw.layout h).readPlace_eq hq, hw.location h, hloc, Function.update_self]
    exact congrArg some hv
  · rw [Function.update_of_ne hqp, ← hr.reads q hq]
    refine hw.readPlace h hq fun c hc => ?_
    have := h.apart hqp hc hloc
    omega

/-- After an error no value has changed. -/
theorem Reads.failed (hr : Reads b₀ b f) (h : Layout b ns xs) (hf : Failed b (ns .string) xs b') :
    Reads b₀ { b' with a4 := b'.desSk } f := by
  obtain ⟨n',hmachine,hframe⟩ := hf
  have hframe' := flush_frame hframe
  have hmachine' := flush hmachine
  exact ⟨⟨ns,xs,(rewritten_frame hmachine' hframe').layout h⟩,
    hr.text.trans (sameText_frame h.toMachine hframe'),fun q hq =>
      (frame_readPlace h hmachine' hframe' hq).trans (hr.reads q hq)⟩

theorem letNumber_reads {number : List ℕ} (hr : Reads b₀ b f)
    (ha : Allowed b (.letNumber p number)) :
    Reads b₀ (next b (.letNumber p number))
      (update b₀.ram.byte f (.letNumber p number,isOk (execute (.letNumber p number) b))) := by
  obtain ⟨hp,hlt,hs,hlen,hspare⟩ := ha
  obtain ⟨r,b₁,ns,xs,hmake,h,-,hr₁,hlocation⟩ := hr.make hp hlt hspare
  cases r with
  | error e =>
    have hexecute : execute (.letNumber p number) b = some (.error e,b₁) := by
      rw [execute, hmake]
      rfl
    rw [next, hexecute]
    show Reads b₀ { b₁ with a4 := b₁.desSk } (touch p f)
    rw [flush_eq h]
    exact hr₁
  | ok a =>
    have hloc := hlocation a rfl
    have hexecute : execute (.letNumber p number) b =
        some (.ok (),{ b₁ with ram := pokeBytes a number b₁.ram }) := by
      rw [execute, hmake]
      rfl
    obtain ⟨hw,hvalue⟩ := rewritten_number h hs hloc hlen
    have hwidth : elementSize p.name = 4 := if_neg hs
    have horder := h.order
    have hrange := h.range hloc
    rw [next, hexecute]
    refine hr₁.put h hloc hw (by rw [hwidth]) ⟨rfl,rfl,fun x _ hhi => ?_⟩ hvalue
    exact (within_pokeBytes a number b₁.ram).frame x (by omega)

theorem letString_reads {e : Expr} (hr : Reads b₀ b f) (ha : Allowed b (.letString p e)) :
    Reads b₀ (next b (.letString p e))
      (update b₀.ram.byte f (.letString p e,isOk (execute (.letString p e) b))) := by
  obtain ⟨hp,hlt,hs,hlegal,hspare,hwhenever⟩ := ha
  obtain ⟨r,b₁,ns,xs,hmake,h,ht₁,hr₁,hlocation⟩ := hr.make hp hlt hspare
  rw [hmake] at hwhenever
  cases r with
  | error e' =>
    have hexecute : execute (.letString p e) b = some (.error e',b₁) := by
      rw [execute, hmake]
      rfl
    rw [next, hexecute]
    show Reads b₀ { b₁ with a4 := b₁.desSk } (touch p f)
    rw [flush_eq h]
    exact hr₁
  | ok a =>
    have hloc := hlocation a rfl
    have hslot := location_slot hs hloc
    have hlegal₁ := hlegal.congr ht₁
    have hexecute : execute (.letString p e) b =
        andThen (eval e b₁) fun a0 b => letString a a0 b := by
      rw [execute, hmake]
      rfl
    obtain ⟨hspare₁,hcopy⟩ : Spare e b₁ ∧ Whenever (eval e b₁) CopySpare := hwhenever
    -- the value in the abstract memory
    have hvalue : value b₁.ram.byte (fun q => readString q b₁) e =
        value b₀.ram.byte (touch p f) e := by
      refine value_congr hr₁.text (hlegal₁.congr hr₁.text.symm) fun q hq => ?_
      rw [readString_eq hq, hr₁.reads q (proper_of_string hq).1]
    have hyields : Yields (andThen (eval e b₁) fun a0 b => letString a a0 b)
        (fun _ b' => ∃ v, value b₀.ram.byte (touch p f) e = some v ∧
          Assigned b₁ (ns .string) xs a v b') (Failed b₁ (ns .string) xs) := by
      refine ((eval_spec e h.toMachine hlegal₁ hspare₁).and_whenever hcopy).andThen ?_
      rintro d b₂ ⟨⟨v,hv,n',hmachine,hframe,hd,hcontent⟩,hspare₂⟩
      have hd₂ : At b₂ (ns .string) xs 0 d n' := hframe.at_ hd
      refine (letString_spec hmachine hd₂ (hframe.slots ▸ hslot) hspare₂).mono (fun _ b' hb => ?_)
        fun b' hb => Failed.of_frame hb hframe
      rw [hcontent] at hb
      exact ⟨v,hvalue ▸ hv,hb.of_frame hframe⟩
    rw [next, hexecute]
    rcases after_yields hyields b with ⟨hok,v,hv,hassigned⟩ | ⟨hok,b',hfailed,hafter⟩
    · rw [hok]
      show Reads b₀ _ (Function.update (touch p f) p (value b₀.ram.byte (touch p f) e))
      rw [hv]
      generalize after b (andThen (eval e b₁) fun a0 b => letString a a0 b) = b' at hassigned
      have horder := h.order
      have hwidth : elementSize p.name = 6 := if_pos hs
      refine hr₁.put h hloc (rewritten_string hs hloc hassigned) (by rw [hwidth])
        ⟨(congrArg Store.desSk hassigned.same :),(congrArg Store.sfncl hassigned.same :),
          fun x hlo hhi => hassigned.bytes x hlo (by omega) fun r hr => ?_⟩ ?_
      · have := h.mem_slots hr
        omega
      · rw [valueAt, if_pos hs]
        exact hassigned.value
    · rw [hok, hafter]
      exact hr₁.failed h hfailed

theorem dim_reads {name : ℕ} {bounds : List ℕ} (hr : Reads b₀ b f)
    (ha : Allowed b (.dim name bounds)) :
    Reads b₀ (next b (.dim name bounds))
      (update b₀.ram.byte f (.dim name bounds,isOk (execute (.dim name bounds) b))) := by
  obtain ⟨ns,xs,h⟩ := hr.layout
  obtain ⟨hbounds,hheader,hwrap,hfill⟩ := ha
  have hdim : execute (.dim name bounds) b = _ := dim_eq h.toArraysAt hbounds.lt name
  rw [next, hdim]
  by_cases hnone : locate name b.sarryl xs = none
  · rw [if_pos hnone]
    rcases build_spec h.toMachine hbounds hheader hwrap hfill with
      ⟨-,x,rfl,hx,b',hbuild,hgrown⟩ | ⟨-,b',hbuild,hmachine,hframe⟩
    · rw [hbuild]
      obtain ⟨hlayout,hplaces⟩ := grown_places h hgrown hnone
      have horder := h.order
      have htext : SameText b b' := by
        refine ⟨(congrArg Store.desSk hgrown.same :),(congrArg Store.sfncl hgrown.same :),
          fun y hlo hhi => hgrown.bytes y hlo (by omega) fun r hr => ?_⟩
        have := h.mem_slots hr
        omega
      refine ⟨⟨ns,xs ++ [x],hlayout⟩,hr.text.trans htext,fun q hq => ?_⟩
      have hread := hplaces q hq
      rw [hx, hr.reads q hq] at hread
      exact hread
    · rw [hbuild]
      exact hr.failed h ⟨0,hmachine,hframe⟩
  · rw [if_neg hnone]
    show Reads b₀ { b with a4 := b.desSk } f
    rw [flush_eq h]
    exact hr

/-- Nothing is left after `LAB_147A`. -/
theorem clear_layout (hge : 24 ≤ b.desSk) (hle : b.desSk ≤ b.sfncl) (hlt : b.sfncl < b.ememl)
    (hmemory : b.ememl < 4294967296) : Layout (BasicVariables.clear b) (fun _ => 0) [] := by
  have hnone : ∀ r, r ∉ roots (BasicVariables.clear b) 0 [] 0 := fun r => List.not_mem_nil
  refine
    { headers := trivial, earryl := rfl, sarryl := rfl, stack := rfl, depth := Nat.zero_le _,
      stack_ge := hge, stack_le := hle, sfncl_le := Nat.le_refl _,
      laid := ⟨fun r hr => absurd hr (hnone r),fun r hr => absurd hr (hnone r),
        fun r hr => absurd hr (hnone r)⟩,
      valid := fun r hr => absurd hr (hnone r), above := fun r hr => absurd hr (hnone r),
      bottom := hlt, top := Nat.le_refl _, ememl_lt := hmemory, stop := fun k => ?_ }
  cases k <;> rfl

theorem clear_reads (h : Layout (BasicVariables.clear b) (fun _ => 0) []) (hq : Proper q) :
    readPlace q (BasicVariables.clear b) = none := by
  rw [h.readPlace_eq hq]
  cases q <;> rfl

theorem next_reads {s : Statement} (hr : Reads b₀ b f) (ha : Allowed b s) :
    Reads b₀ (next b s) (update b₀.ram.byte f (s,isOk (execute s b))) := by
  cases s with
  | letNumber p number => exact letNumber_reads hr ha
  | letString p e => exact letString_reads hr ha
  | dim name bounds => exact dim_reads hr ha
  | clear =>
    obtain ⟨⟨ns,xs,h⟩,ht,hreads⟩ := hr
    have horder := h.order
    have htop := h.top
    have hlayout := clear_layout (b := b) h.stack_ge h.stack_le (by omega) h.ememl_lt
    exact ⟨⟨_,_,hlayout⟩,ht.trans ⟨rfl,rfl,fun _ _ _ => rfl⟩,fun q hq => clear_reads hlayout hq⟩

/-- Every state of a run reads as the abstract memory. -/
theorem run_states {ss : List Statement} (hrun : Along next Allowed b ss) (hr : Reads b₀ b f) :
    Reads b₀ (ss.foldl next b) ((outcomes b ss).foldl (update b₀.ram.byte) f) := by
  induction ss generalizing b f with
  | nil => exact hr
  | cons s ss ih => exact ih hrun.2 (next_reads hr hrun.1)

theorem clear_start (hge : 24 ≤ b.desSk) (hle : b.desSk ≤ b.sfncl) (hlt : b.sfncl < b.ememl)
    (hmemory : b.ememl < 4294967296) :
    Reads (BasicVariables.clear b) (BasicVariables.clear b) fun _ => none :=
  have hlayout := clear_layout hge hle hlt hmemory
  ⟨⟨_,_,hlayout⟩,⟨rfl,rfl,fun _ _ _ => rfl⟩,fun _ hq => clear_reads hlayout hq⟩

/-- After every run of assignments, DIMs and CLEARs from a cleared memory each variable and
each element has the value that it was given last, whichever of the statements have failed
and whichever have collected garbage. -/
theorem run_reads (hge : 24 ≤ b.desSk) (hle : b.desSk ≤ b.sfncl) (hlt : b.sfncl < b.ememl)
    (hmemory : b.ememl < 4294967296) {ss : List Statement}
    (hrun : Along next Allowed (BasicVariables.clear b) ss) (hq : Proper q) :
    readPlace q (ss.foldl next (BasicVariables.clear b)) =
      (outcomes (BasicVariables.clear b) ss).foldl (update b.ram.byte) (fun _ => none) q :=
  (run_states hrun (clear_start hge hle hlt hmemory)).reads q hq

/-- A memory of 51 bytes from the functions on. -/
def small : Store := ⟨⟨fun _ => 0,[]⟩,32,32,32,32,32,83,83,24,24⟩

/-- `A$="A"+"B"`, `DIM B$(2)`, `B$(1)=A$+A$`, `B$(9)="C"` and `A$=LEFT$(B$(1),3)`. -/
def shortRun : List Statement :=
  [.letString (.scalar 0x41800000) (.concatenate (.chr 65) (.chr 66)),.dim 0x42800000 [2],
    .letString (.element 0x42800000 [1])
      (.concatenate (.place (.scalar 0x41800000)) (.place (.scalar 0x41800000))),
    .letString (.element 0x42800000 [9]) (.chr 67),
    .letString (.scalar 0x41800000) (.part (.left 3 0) (.place (.element 0x42800000 [1])))]

theorem shortRun_allowed : Along next Allowed (BasicVariables.clear small) shortRun := by
  decide +kernel

theorem run_reads_short :
    readPlace (.scalar 0x41800000) (shortRun.foldl next (BasicVariables.clear small)) =
      some [65,66,65] := by
  have hread := run_reads (q := .scalar 0x41800000) (by decide) (by decide) (by decide) (by decide)
    shortRun_allowed trivial
  rw [hread]
  decide +kernel

/-! ### Without room -/

/-- A memory of `n` bytes from the functions on. -/
def tight (n : ℕ) : Store := ⟨⟨fun _ => 0,[]⟩,32,32,32,32,32,32 + n,32 + n,24,24⟩

/-- `A$` and `B$`. -/
def stringA : Place := .scalar 0x41800000
def stringB : Place := .scalar 0x42800000

/-- `A$=CHR$(65)`, `B$=CHR$(66)` and `A$=CHR$(67)`. -/
def threeLets : List Statement :=
  [.letString stringA (.chr 65),.letString stringB (.chr 66),.letString stringA (.chr 67)]

/-- With 4 bytes for strings the second one ends at the arrays, where the collection for the
third one does not see it: all three succeed, and `B$` reads `C`. -/
theorem full_memory_shares_string :
    ¬ Along next Allowed (BasicVariables.clear (tight 24)) threeLets ∧
      (outcomes (BasicVariables.clear (tight 24)) threeLets).map Prod.snd = [true,true,true] ∧
      readPlace stringB (threeLets.foldl next (BasicVariables.clear (tight 24))) = some [67] := by
  decide +kernel

/-- `A$=CHR$(65)`, and a new variable `B` with less room than it needs. -/
def newVariable : List Statement :=
  [.letString stringA (.chr 65),.letNumber (.scalar 0x42000000) [0,0,0,0]]

/-- The variable is made over the string. -/
theorem new_variable_overwrites_string :
    ¬ Along next Allowed (BasicVariables.clear (tight 14)) newVariable ∧
      (outcomes (BasicVariables.clear (tight 14)) newVariable).map Prod.snd = [true,true] ∧
      readPlace stringA (newVariable.foldl next (BasicVariables.clear (tight 14))) = some [0] := by
  decide +kernel

/-- `A$=CHR$(65)`, and `DIM B(0)` with less room than its header needs. -/
def newArray : List Statement := [.letString stringA (.chr 65),.dim 0x42000000 [0]]

/-- The array is refused after its header has been written over the string. -/
theorem refused_dim_overwrites_string :
    ¬ Along next Allowed (BasicVariables.clear (tight 14)) newArray ∧
      (outcomes (BasicVariables.clear (tight 14)) newArray).map Prod.snd = [true,false] ∧
      readPlace stringA (newArray.foldl next (BasicVariables.clear (tight 14))) = some [0] := by
  decide +kernel

end Betawise.BasicStatements
