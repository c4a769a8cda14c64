import Betawise.BasicExpression

/-!
# Expressions as trees

What an expression means is said by its tree: the values of the operands, then the
operator. The evaluator reads the items of a tree and finds the tree again, by the
precedence of the operators alone.
-/
namespace Betawise.BasicExpressionTree
open BasicKeywords PrecedenceTree BasicExpression

variable {N S E : Type}

/-! ### Trees of BASIC -/

/-- An operator in front of a value. -/
inductive Sign where
  | plus
  | minus
  | not

def Sign.token : Sign → Token
  | .plus => .PLUS
  | .minus => .MINUS
  | .not => .NOT

/-- One to three different comparison tokens, as in `<=`. -/
structure Comparison where
  tokens : List Token
  nonempty : tokens ≠ []
  compares : ∀ t ∈ tokens, compareBit t ≠ none
  distinct : tokens.Nodup

/-- The bit of a comparison token. -/
def bit (t : Token) : ℕ := (compareBit t).getD 0

def Comparison.flags (c : Comparison) : ℕ := c.tokens.foldl (fun f t => f ||| bit t) 0

/-- An operator between two values. -/
inductive Operation where
  | arithmetic (t : Token) (operator : isOperator t = true)
  | comparison (c : Comparison)

def Operation.tokens : Operation → List Token
  | .arithmetic t _ => [t]
  | .comparison c => c.tokens

def Operation.isComparison : Operation → Bool
  | .arithmetic _ _ => false
  | .comparison _ => true

/-- What is pushed for the operator behind a string or a number. -/
def Operation.operator (string : Bool) : Operation → Operator
  | .arithmetic t _ => .arithmetic t
  | .comparison c => .comparison c.flags string

/-- A plus sign in front of a value does nothing, and so binds most tightly. -/
def precedence : Precedence Sign Operation where
  unary
    | .plus => 0x80
    | .minus => oppt .GT
    | .not => oppt .EQUAL
  binary
    | .arithmetic t _ => oppt t
    | .comparison _ => oppt .LT

abbrev Expression (N S : Type) := Tree (Value N S) Sign Operation

def items : Expression N S → List (Item N S)
  | .operand v => [.operand v]
  | .group t => .leftBracket::(items t ++ [.rightBracket])
  | .unary u t => .token u.token::items t
  | .binary o l r => items l ++ (o.tokens.map .token ++ items r)

/-- Whether the value is a string. -/
def string : Expression N S → Bool
  | .operand v => v.isString
  | .group t => string t
  | .unary .plus t => string t
  | .unary _ _ => false
  | .binary (.arithmetic _ _) l _ => string l
  | .binary (.comparison _) _ _ => false

def comparesStrings : Expression N S → Bool
  | .binary (.comparison _) l _ => string l
  | _ => false

/-- The types match, and no comparison of strings stands directly in front of a
comparison: its number would be taken for a string there. -/
def Typed : Expression N S → Prop
  | .operand _ => True
  | .group t => Typed t
  | .unary .plus t => Typed t
  | .unary _ t => Typed t ∧ string t = false
  | .binary o l r => Typed l ∧ Typed r ∧ string l = string r ∧
    match o with
    | .arithmetic t _ => string l = true → t = .PLUS
    | .comparison _ => comparesStrings l = false

variable (A : Arithmetic N S E)

/-- The operator with both values. -/
def operate : Operation → Value N S → Value N S → Except (Stop E) (Value N S)
  | .arithmetic t _,.num x,.num y => (lift (A.operate t x y)).map .num
  | .arithmetic _ _,.str s,.str t => (lift (A.concatenate s t)).map .str
  | .comparison c,.num x,.num y => .ok (.num (A.compare c.flags x y))
  | .comparison c,.str s,.str t => .ok (.num (A.compareStrings c.flags s t))
  | _,_,_ => .error .typeMismatch

def value : Expression N S → Except (Stop E) (Value N S)
  | .operand v => .ok v
  | .group t => value t
  | .unary .plus t => value t
  | .unary .minus t => (value t).bind (unary A.negate)
  | .unary .not t => (value t).bind (unary A.invert)
  | .binary o l r => (value l).bind fun v => (value r).bind fun w => operate A o v w

variable {A} {p n : ℕ} {s : S} {o : Operation} {op : Option Operation} {v : Value N S}
  {t : Expression N S} {rest rest' : List (Item N S)} {α β : Type}
  {r : Except (Stop E) (Result N S)} {k : Value N S → Except (Stop E) (Result N S)}

theorem bind_ok {ε : Type} {x : Except ε α} {f : α → Except ε β} {b : β}
    (h : x.bind f = .ok b) : ∃ a, x = .ok a ∧ f a = .ok b := by
  cases x with
  | error e => exact absurd h (by simp [Except.bind])
  | ok a => exact ⟨a,rfl,h⟩

theorem map_ok {ε : Type} {x : Except ε α} {f : α → β} {b : β} (h : x.map f = .ok b) :
    ∃ a, x = .ok a ∧ f a = b := by
  cases x with
  | error e => exact absurd h (by simp [Except.map])
  | ok a => exact ⟨a,rfl,Except.ok.inj h⟩

theorem unary_isString {f : N → Except E N} {v w : Value N S} (h : unary f v = .ok w) :
    w.isString = false := by
  cases v with
  | num x =>
    obtain ⟨y,-,rfl⟩ := map_ok h
    rfl
  | str s => exact absurd h (by simp [unary])

theorem operate_isString {u v w : Value N S} (h : operate A o u v = .ok w) :
    w.isString = (u.isString && !o.isComparison) := by
  cases o with
  | arithmetic t ht =>
    cases u <;> cases v
    · obtain ⟨y,-,rfl⟩ := map_ok h
      rfl
    · exact absurd h (by simp [operate])
    · exact absurd h (by simp [operate])
    · obtain ⟨y,-,rfl⟩ := map_ok h
      rfl
  | comparison c =>
    cases u <;> cases v <;> simp [operate] at h <;> subst h <;> rfl

/-- The value of a tree is a string exactly if the tree is one. -/
theorem isString_value (ht : Typed t) (hv : value A t = .ok v) : v.isString = string t := by
  induction t generalizing v with
  | operand w => exact congrArg Value.isString (Except.ok.inj hv).symm
  | group t ih => exact ih ht hv
  | unary u t ih =>
    cases u with
    | plus => exact ih ht hv
    | minus =>
      obtain ⟨w,-,hw⟩ := bind_ok hv
      exact unary_isString hw
    | not =>
      obtain ⟨w,-,hw⟩ := bind_ok hv
      exact unary_isString hw
  | binary o l r ihl _ =>
    obtain ⟨u,hu,hv⟩ := bind_ok hv
    obtain ⟨w,-,hw⟩ := bind_ok hv
    rw [operate_isString hw, ihl ht.1 hu]
    cases o <;> simp [string, Operation.isComparison]

/-! ### Enough fuel -/

/-- With enough fuel the computation always ends like this. -/
def Settles (A : Arithmetic N S E) (f : Evaluator N S E → α) (a : α) : Prop :=
  ∃ n, ∀ m, n ≤ m → f (eval A m) = a

theorem Settles.const (a : α) : Settles A (fun _ => a) a := ⟨0,fun _ _ => rfl⟩

theorem Settles.bind {ε : Type} {f : Evaluator N S E → Except ε α}
    {g : Evaluator N S E → α → Except ε β} {x : Except ε α}
    {y : α → Except ε β} (hf : Settles A f x)
    (hg : ∀ a, x = .ok a → Settles A (fun eval => g eval a) (y a)) :
    Settles A (fun eval => (f eval).bind (g eval)) (x.bind y) := by
  obtain ⟨n,hn⟩ := hf
  cases x with
  | error e => exact ⟨n,fun m hm => by simp only [hn m hm]; rfl⟩
  | ok a =>
    obtain ⟨n',hn'⟩ := hg a rfl
    refine ⟨n + n',fun m hm => ?_⟩
    have hm' := hn m (by omega)
    simp only [hm']
    exact hn' m (by omega)

/-- A call takes its step and some more. -/
theorem Settles.shift {f g : Evaluator N S E → α} {a : α} (c : ℕ)
    (h : ∀ n, f (eval A (n + c)) = g (eval A n)) : Settles A f a ↔ Settles A g a := by
  constructor
  · rintro ⟨n,hn⟩
    exact ⟨n,fun m hm => by rw [← h m]; exact hn (m + c) (by omega)⟩
  · rintro ⟨n,hn⟩
    refine ⟨n + c,fun m hm => ?_⟩
    obtain ⟨m,rfl⟩ := Nat.exists_eq_add_of_le' (Nat.le_trans (Nat.le_add_left c n) hm)
    rw [h m]
    exact hn m (by omega)

theorem Settles.call {g : Goal N S} : Settles A (fun eval => eval g) r ↔
    Settles A (fun eval => step A eval g) r :=
  Settles.shift 1 fun _ => rfl

/-! ### Behind a value -/

/-- No operator is in front. -/
def Ended : List (Item N S) → Prop
  | .token t::_ => compareBit t = none ∧ isOperator t = false
  | _ => True

/-- No comparison token is in front. -/
def NotComparing : List (Item N S) → Prop
  | .token t::_ => compareBit t = none
  | _ => True

/-- An operator, if any, and what follows it. -/
inductive Follows {N S : Type} : Option Operation → List (Item N S) → List (Item N S) → Prop
  | none {rest : List (Item N S)} (h : Ended rest) : Follows none rest rest
  | some {rest : List (Item N S)} (o : Operation)
    (h : o.isComparison = true → NotComparing rest) :
    Follows (some o) (o.tokens.map .token ++ rest) rest

/-- What the evaluator does with the value and the operator that follows. -/
def resume (eval : Evaluator N S E) (p : ℕ) (v : Value N S)
    (op : Option Operation) (rest : List (Item N S)) : Except (Stop E) (Result N S) :=
  match op with
  | none => done p ⟨v,v.isString⟩ rest
  | some o => operatorAt eval p (o.operator v.isString) ⟨v,v.isString && !o.isComparison⟩ rest

theorem notComparing_items (t : Expression N S) (rest : List (Item N S)) :
    NotComparing (items t ++ rest) := by
  induction t generalizing rest with
  | operand v => trivial
  | group t _ => trivial
  | unary u t _ => cases u <;> rfl
  | binary o l r ihl _ =>
    rw [items, List.append_assoc]
    exact ihl _

theorem compareBit_ne_zero {t : Token} {b : ℕ} (h : compareBit t = some b) : b ≠ 0 := by
  cases t <;> simp [compareBit] at h <;> omega

theorem bit_disjoint {t u : Token} (ht : compareBit t ≠ none) (hu : compareBit u ≠ none)
    (h : t ≠ u) : bit t &&& bit u = 0 := by
  cases t <;> simp [compareBit] at ht <;> cases u <;> simp_all [compareBit, bit]

/-- The scan of comparison tokens collects their bits. -/
theorem scan_comparison {ts : List Token} {w : Operand N S} {f : ℕ}
    (hts : ∀ t ∈ ts, compareBit t ≠ none) (hdistinct : ts.Nodup)
    (hnew : ∀ t ∈ ts, f &&& bit t = 0) (hsome : ts ≠ [] ∨ f ≠ 0) (hrest : NotComparing rest) :
    ∃ c, ∀ n, eval A (n + c) (.scan p f w (ts.map .token ++ rest)) =
      operatorAt (eval A n) p
        (.comparison (ts.foldl (fun f t => f ||| bit t) f) w.string) ⟨w.value,false⟩ rest := by
  induction ts generalizing f with
  | nil =>
    have hf : f ≠ 0 := hsome.resolve_left (by simp)
    refine ⟨1,fun n => ?_⟩
    change scanStep (eval A n) p f w rest = _
    unfold scanStep
    split
    · rename_i t rest'
      rw [show compareBit t = none from hrest]
      exact if_pos hf
    · exact if_pos hf
  | cons t ts ih =>
    obtain ⟨ht,hts⟩ := List.forall_mem_cons.mp hts
    obtain ⟨hfree,hnew⟩ := List.forall_mem_cons.mp hnew
    obtain ⟨b,hb⟩ := Option.ne_none_iff_exists'.mp ht
    have hbit : bit t = b := by rw [bit, hb]; rfl
    rw [hbit] at hfree
    have hstep : ∀ u ∈ ts, (f ||| b) &&& bit u = 0 := by
      intro u hu
      rw [Nat.and_or_distrib_right, hnew u hu, Nat.zero_or, ← hbit]
      exact bit_disjoint ht (hts u hu) fun h => (List.nodup_cons.mp hdistinct).1 (h ▸ hu)
    have hsome : ts ≠ [] ∨ f ||| b ≠ 0 := Or.inr fun h => by
      have := Nat.or_eq_zero_iff.mp h
      exact compareBit_ne_zero hb this.2
    obtain ⟨c,hc⟩ := ih hts (List.nodup_cons.mp hdistinct).2 hstep hsome
    refine ⟨c + 1,fun n => ?_⟩
    rw [List.foldl_cons, hbit, ← hc n]
    change scanStep (eval A (n + c)) p f w (.token t::(ts.map .token ++ rest)) = _
    unfold scanStep
    simp only [hb, hfree]
    rfl

/-- Behind a value that is not joined to another string. -/
theorem scan_resume (h : Follows op rest rest')
    (hv : v.isString = true → ∀ o ∈ op, precedence.binary o ≤ oppt .LT) :
    ∃ c, ∀ n, eval A (n + c) (.scan p 0 ⟨v,v.isString⟩ rest) = resume (eval A n) p v op rest' := by
  cases h with
  | none hend =>
    refine ⟨1,fun n => ?_⟩
    change scanStep (eval A n) p 0 _ rest = _
    unfold scanStep
    split
    · rename_i t rest'
      rw [hend.1, hend.2]
      rfl
    · rfl
  | some o hrest =>
    cases o with
    | arithmetic t ht =>
      refine ⟨1,fun n => ?_⟩
      change scanStep (eval A n) p 0 _ (.token t::rest') = _
      cases v with
      | num x => cases t <;> first | rfl | exact absurd ht (by decide)
      | str s =>
        cases t
        case PLUS => exact absurd (hv rfl _ rfl) (show ¬oppt .PLUS ≤ oppt .LT by decide)
        all_goals first | rfl | exact absurd ht (by decide)
    | comparison c =>
      have h := scan_comparison (A := A) (p := p) (f := 0) (w := ⟨v,v.isString⟩) c.compares
        c.distinct (fun t _ => Nat.zero_and _) (Or.inl c.nonempty) (hrest rfl)
      simpa [resume, Operation.operator, Operation.isComparison, Operation.tokens,
        Comparison.flags] using h

/-- If the level in front binds as tightly as the next operator, it ends. -/
theorem resume_ends {f : Evaluator N S E} (hop : ∀ o ∈ op, precedence.binary o ≤ p)
    (hv : v.isString = true → p = oppt .LT) :
    resume f p v op rest = .ok ⟨⟨v,v.isString && !(op.any Operation.isComparison)⟩,
      op.map (Operation.operator v.isString),rest⟩ := by
  cases op with
  | none =>
    have hdone : ¬(p ≠ 0 ∧ p ≠ 0x64 ∧ v.isString = true) := fun h => h.2.1 (hv h.2.2)
    simp [resume, done, if_neg hdone]
  | some o =>
    have hle : (o.operator v.isString).precedence ≤ p := by
      have := hop o rfl
      cases o <;> exact this
    have hmatch : ¬(p ≠ 0x64 ∧ (v.isString && !o.isComparison) = true) := fun h =>
      h.1 (hv (by have := h.2; simp at this; exact this.1))
    simp only [resume, operatorAt, if_pos hle, if_neg hmatch]
    rfl

/-- The number of an operator goes on as a value of the level does. -/
theorem settles_after (hv : v.isString = false)
    (h : Settles A (fun eval => resume eval p v op rest) r) :
    Settles A (fun eval => after eval p v (op.map (Operation.operator false)) rest) r := by
  cases op with
  | none =>
    simpa [resume, done, after, hv] using h
  | some o =>
    simp only [resume, operatorAt, hv, Bool.false_and, Bool.false_eq_true, and_false, if_false] at h
    change Settles A (fun eval => eval (.climb p (o.operator false) v rest)) r
    by_cases hle : (o.operator false).precedence ≤ p
    · simp only [if_pos hle] at h
      refine Settles.call.mpr ?_
      simpa [step, climbStep, if_pos hle] using h
    · simpa only [if_neg hle] using h

/-! ### Reading a tree -/

/-- The next operator does not bind more tightly than those at the right end of the tree,
and no comparison follows a comparison of strings. -/
def Ends (op : Option Operation) (t : Expression N S) : Prop :=
  ∀ o ∈ op, Closes precedence (precedence.binary o) t ∧
    (o.isComparison = true → comparesStrings t = false)

/-- The evaluator reads the tree at the start of a level, and goes on behind it with its
value. A string is also read as the second part of a concatenation. -/
structure Reads (A : Arithmetic N S E) (t : Expression N S) : Prop where
  level : ∀ {p : ℕ} {rest rest' : List (Item N S)} {op : Option Operation}
    {k : Value N S → Except (Stop E) (Result N S)},
    Opens precedence p t → Follows op rest rest' → Ends op t →
    (∀ v, value A t = .ok v →
      Settles A (fun eval => eval (.scan p 0 ⟨v,v.isString⟩ rest)) (k v)) →
    Settles A (fun eval => eval (.level p (items t ++ rest))) ((value A t).bind k)
  joined : Opens precedence (oppt .PLUS) t → string t = true →
    ∀ {p : ℕ} {s : S} {rest : List (Item N S)} {k : Value N S → Except (Stop E) (Result N S)},
    (∀ w, value A t = .ok (.str w) →
      Settles A (fun eval => (lift (A.concatenate s w)).bind
        fun u => eval (.scan p 0 ⟨.str u,true⟩ rest)) (k (.str w))) →
    Settles A (fun eval => eval (.concatenate p s (items t ++ rest))) ((value A t).bind k)

theorem bind_bind {ε γ : Type} (x : Except ε α) (f : α → Except ε β) (g : β → Except ε γ) :
    (x.bind f).bind g = x.bind fun a => (f a).bind g := by
  cases x <;> rfl

theorem settles_scan (h : Follows op rest rest')
    (hv : v.isString = true → ∀ o ∈ op, precedence.binary o ≤ oppt .LT) :
    Settles A (fun eval => eval (.scan p 0 ⟨v,v.isString⟩ rest)) r ↔
      Settles A (fun eval => resume eval p v op rest') r := by
  obtain ⟨c,hc⟩ := scan_resume (A := A) (p := p) h hv
  exact Settles.shift (f := fun eval => eval (.scan p 0 ⟨v,v.isString⟩ rest))
    (g := fun eval => resume eval p v op rest') c hc

/-- A value that a level ends with. -/
theorem settles_ends (h : Follows op rest rest') (hop : ∀ o ∈ op, precedence.binary o ≤ p)
    (hv : v.isString = true → p = oppt .LT) :
    Settles A (fun eval => eval (.scan p 0 ⟨v,v.isString⟩ rest))
      (.ok ⟨⟨v,v.isString && !(op.any Operation.isComparison)⟩,
        op.map (Operation.operator v.isString),rest'⟩) := by
  refine (settles_scan h fun hs o ho => hv hs ▸ hop o ho).mpr ⟨0,fun m _ => ?_⟩
  exact resume_ends hop hv

/-- A number that an operator gave goes on as if it had been read. -/
theorem settles_number (h : Follows op rest rest') (hv : v.isString = false)
    (hscan : Settles A (fun eval => eval (.scan p 0 ⟨v,v.isString⟩ rest)) r) :
    Settles A (fun eval => after eval p v (op.map (Operation.operator false)) rest') r := by
  have hnum : v.isString = true → ∀ o ∈ op, precedence.binary o ≤ oppt .LT :=
    fun hs => absurd hs (by simp [hv])
  exact settles_after hv ((settles_scan h hnum).mp hscan)

theorem Reads.operand (v : Value N S) : Reads A (.operand v) where
  level _ _ _ hk := Settles.call.mpr (hk v rfl)
  joined _ hs _ _ _ _ hk := by
    cases v with
    | num x => exact absurd hs (by simp [string, Value.isString])
    | str w => exact Settles.call.mpr (hk w rfl)

/-- An expression in brackets. -/
theorem settles_bracketed (h : Reads A t) (hopens : Opens precedence 0 t)
    (rest : List (Item N S)) :
    Settles A (fun eval => bracketed eval (items t ++ .rightBracket::rest))
      ((value A t).bind fun v => .ok (⟨v,v.isString⟩,rest)) := by
  have hends : Ends none t := fun o ho => absurd ho (by simp)
  have hfollows : Follows none (.rightBracket::rest) (.rightBracket::rest) := .none trivial
  have hlevel := h.level (k := fun v => .ok ⟨⟨v,v.isString⟩,none,.rightBracket::rest⟩) hopens
    hfollows hends fun v _ => Settles.call.mpr (Settles.const _)
  have hclosed := hlevel.bind (g := fun _ => closed) fun r _ => Settles.const (closed r)
  rwa [bind_bind] at hclosed

theorem items_group (t : Expression N S) (rest : List (Item N S)) :
    items (.group t) ++ rest = .leftBracket::(items t ++ .rightBracket::rest) := by
  simp [items]

theorem Reads.group (h : Reads A t) (ht : Typed t) (hopens : Opens precedence 0 t) :
    Reads A (.group t) where
  level {p rest _ _ k} _ _ _ hk := by
    have hread := (settles_bracketed h hopens rest).bind (β := Result N S)
      (g := fun eval r => eval (.scan p 0 r.1 r.2)) (y := fun r => k r.1.value) fun a ha => by
        obtain ⟨v,hv,hr⟩ := bind_ok ha
        obtain rfl := Except.ok.inj hr
        exact hk v hv
    rw [bind_bind] at hread
    rw [items_group]
    exact Settles.call.mpr hread
  joined _ hs p s rest k hk := by
    have hread := (settles_bracketed h hopens rest).bind (β := Result N S)
      (g := fun eval r => join A eval p s r.1 r.2) (y := fun r => k r.1.value) fun a ha => by
        obtain ⟨v,hv,hr⟩ := bind_ok ha
        obtain rfl := Except.ok.inj hr
        have hstring : v.isString = true := (isString_value ht hv).trans hs
        cases v with
        | num x => exact absurd hstring (by simp [Value.isString])
        | str w => exact hk w hv
    rw [bind_bind] at hread
    rw [items_group]
    exact Settles.call.mpr hread

theorem oppt_le (o : Operation) : precedence.binary o ≤ 0x7F := by
  cases o with
  | arithmetic t _ =>
    change oppt t ≤ 0x7F
    cases t <;> decide
  | comparison _ => exact show oppt .LT ≤ 0x7F by decide

theorem Ends.unary {u : Sign} (h : Ends op (.unary u t))
    (hcompares : comparesStrings t = true → precedence.unary u < oppt .LT) : Ends op t := by
  intro o ho
  obtain ⟨⟨hle,hcloses⟩,-⟩ := h o ho
  refine ⟨hcloses,fun hcomparison => ?_⟩
  cases o with
  | arithmetic _ _ => exact absurd hcomparison (by simp [Operation.isComparison])
  | comparison c =>
    by_contra hne
    exact absurd (hcompares (by simpa using hne)) (Nat.not_lt_of_le hle)

/-- A comparison of strings that is opened is above the level. -/
theorem lt_of_comparesStrings (h : Opens precedence p t) (hs : comparesStrings t = true) :
    p < oppt .LT := by
  cases t with
  | operand _ => exact absurd hs (by simp [comparesStrings])
  | group _ => exact absurd hs (by simp [comparesStrings])
  | unary _ _ => exact absurd hs (by simp [comparesStrings])
  | binary o l r =>
    cases o with
    | arithmetic _ _ => exact absurd hs (by simp [comparesStrings])
    | comparison c => exact h.1

theorem Reads.plus (h : Reads A t) (hopens : Opens precedence (precedence.unary .plus) t) :
    Reads A (.unary .plus t) where
  level _ hrest hends hk := by
    have hall : ∀ o, precedence.binary o ≤ precedence.unary .plus := fun o =>
      Nat.le_trans (oppt_le o) (by decide)
    refine Settles.call.mpr (h.level (hopens.any hall) hrest (hends.unary ?_) hk)
    exact fun hs => lt_of_comparesStrings hopens hs
  joined _ hs _ _ _ _ hk :=
    Settles.call.mpr (h.joined (hopens.mono (by decide)) hs hk)

/-- Minus and NOT. -/
theorem Reads.signed {u : Sign} {f : N → Except E N} (h : Reads A t) (ht : Typed t)
    (hstring : string t = false) (hopens : Opens precedence (precedence.unary u) t)
    (hvalue : value A (.unary u t) = (value A t).bind (unary f))
    (hstep : ∀ eval p rest, levelStep A eval p (.token u.token::rest) =
      (eval (.level (precedence.unary u) rest)).bind fun r =>
        (unary f r.operand.value).bind fun v => after eval p v r.pending r.rest) :
    Reads A (.unary u t) where
  level {p rest rest' op k} _ hrest hends hk := by
    have hends' : Ends op t := hends.unary fun hs => lt_of_comparesStrings hopens hs
    have hread := (h.level hopens hrest hends' fun v hv =>
      settles_ends hrest (fun o ho => (hends o ho).1.1) fun hs => by
        rw [isString_value ht hv, hstring] at hs
        exact absurd hs (by simp)).bind (β := Result N S)
      (g := fun eval r => (unary f r.operand.value).bind fun v => after eval p v r.pending r.rest)
      (y := fun r => (unary f r.operand.value).bind k) fun r hr => by
        obtain ⟨v,hv,hr⟩ := bind_ok hr
        obtain rfl := Except.ok.inj hr
        refine (Settles.const _).bind fun w hw => ?_
        have hw' : value A (.unary u t) = .ok w := by rw [hvalue, hv]; exact hw
        rw [isString_value ht hv, hstring]
        exact settles_number hrest (unary_isString hw) (hk w hw')
    rw [bind_bind] at hread
    refine Settles.call.mpr ?_
    rw [hvalue, bind_bind]
    simp only [items, List.cons_append, step, hstep]
    exact hread
  joined _ hs := by
    cases u with
    | plus => exact absurd hs (by simp [string, hstring])
    | minus => exact absurd hs (by simp [string])
    | not => exact absurd hs (by simp [string])

theorem operator_precedence (o : Operation) (b : Bool) :
    (o.operator b).precedence = precedence.binary o := by
  cases o <;> rfl

theorem apply_operator {u v : Value N S} {b : Bool} (huv : u.isString = v.isString)
    (hb : o.isComparison = true → b = v.isString)
    (hstring : u.isString = true → o.isComparison = true) :
    apply A (o.operator u.isString) u ⟨v,b⟩ = operate A o u v := by
  cases o with
  | arithmetic t _ =>
    cases u with
    | num x =>
      cases v with
      | num y => rfl
      | str s => exact absurd huv (by simp [Value.isString])
    | str s => exact absurd (hstring rfl) (by simp [Operation.isComparison])
  | comparison c =>
    obtain rfl := hb rfl
    cases u <;> cases v <;> simp [Value.isString] at huv <;> rfl

/-- The flag of a string is pushed for comparisons only. -/
theorem map_operator {b : Bool} (h : b = true → op.any Operation.isComparison = false) :
    op.map (Operation.operator b) = op.map (Operation.operator false) := by
  cases op with
  | none => rfl
  | some q =>
    cases hb : b
    · rfl
    · cases q with
      | arithmetic _ _ => rfl
      | comparison _ => exact absurd (h hb) (by simp [Operation.isComparison])

section Binary
variable {l r : Expression N S} {k : Value N S → Except (Stop E) (Result N S)} {u : Value N S}

/-- A plus sign behind a string. -/
theorem settles_concatenate {ho : isOperator .PLUS = true} (hr : Reads A r)
    (hright : string r = true) (hopens : Opens precedence (oppt .PLUS) r)
    (hk : ∀ v x, value A r = .ok v → operate A (.arithmetic .PLUS ho) (.str s) v = .ok x →
      Settles A (fun eval => eval (.scan p 0 ⟨x,x.isString⟩ rest)) (k x)) :
    Settles A (fun eval => eval (.scan p 0 ⟨.str s,true⟩ (.token .PLUS::(items r ++ rest))))
      ((value A r).bind fun v => (operate A (.arithmetic .PLUS ho) (.str s) v).bind k) := by
  refine Settles.call.mpr ?_
  refine hr.joined (k := fun v => (operate A (.arithmetic .PLUS ho) (.str s) v).bind k) hopens
    hright fun w hw => ?_
  have hjoin := (Settles.const (A := A) (lift (A.concatenate s w))).bind (β := Result N S)
    (g := fun eval u => eval (.scan p 0 ⟨.str u,true⟩ rest)) (y := fun u => k (.str u))
    fun x hx => hk _ _ hw (by rw [operate, hx]; rfl)
  have hvalue : (operate A (.arithmetic .PLUS ho) (.str s) (.str w)).bind k =
      (lift (A.concatenate s w)).bind fun u => k (.str u) := by
    rw [operate]
    cases lift (E := E) (A.concatenate s w) <;> rfl
  rw [hvalue]
  exact hjoin

/-- Any other operator and its right operand. -/
theorem settles_operator (hr : Reads A r) (htyped : Typed r) (huv : u.isString = string r)
    (hstring : u.isString = true → o.isComparison = true)
    (hopens : Opens precedence (precedence.binary o) r) (hp : p < precedence.binary o)
    (hrest : Follows op rest rest')
    (hop : ∀ q ∈ op, precedence.binary q ≤ precedence.binary o ∧
      Closes precedence (precedence.binary q) r ∧ (q.isComparison = true → u.isString = false))
    (hk : ∀ v x, value A r = .ok v → operate A o u v = .ok x →
      Settles A (fun eval => eval (.scan p 0 ⟨x,x.isString⟩ rest)) (k x)) :
    Settles A (fun eval => eval (.scan p 0 ⟨u,u.isString⟩
        (o.tokens.map .token ++ (items r ++ rest))))
      ((value A r).bind fun v => (operate A o u v).bind k) := by
  have hcomparison : u.isString = true → precedence.binary o = oppt .LT := by
    intro hu
    cases o with
    | arithmetic _ _ => exact absurd (hstring hu) (by simp [Operation.isComparison])
    | comparison _ => rfl
  have hends : Ends op r := by
    intro q hq
    refine ⟨(hop q hq).2.1,fun hcompares => ?_⟩
    by_contra hs
    have hlt := lt_of_comparesStrings hopens (by simpa using hs)
    have hle := (hop q hq).1
    cases q with
    | arithmetic _ _ => exact absurd hcompares (by simp [Operation.isComparison])
    | comparison _ => exact absurd hle (Nat.not_le_of_lt hlt)
  have hvalue : ∀ v, value A r = .ok v → u.isString = v.isString := fun v hv =>
    huv.trans (isString_value htyped hv).symm
  have hread := (hr.level hopens hrest hends fun v hv =>
    settles_ends hrest (fun q hq => (hop q hq).1) fun hs =>
      hcomparison ((hvalue v hv).trans hs)).bind (β := Result N S)
    (g := fun eval w => (apply A (o.operator u.isString) u w.operand).bind
      fun x => after eval p x w.pending w.rest)
    (y := fun w => (operate A o u w.operand.value).bind k) fun w hw => by
      obtain ⟨v,hv,hw⟩ := bind_ok hw
      obtain rfl := Except.ok.inj hw
      have huv := hvalue v hv
      have hpending : ∀ q ∈ op, v.isString = true → q.isComparison = false := fun q hq hv => by
        by_contra hcompares
        have := (hop q hq).2.2 (by simpa using hcompares)
        exact absurd (this.symm.trans (huv.trans hv)) (by simp)
      have hflag : (v.isString && !(op.any Operation.isComparison)) = v.isString := by
        cases op with
        | none => simp
        | some q =>
          cases hs : v.isString
          · rfl
          · simp [hpending q rfl hs]
      have hop' : op.map (Operation.operator v.isString) = op.map (Operation.operator false) :=
        map_operator fun hs => by simpa [hs] using hflag
      simp only [apply_operator huv (fun _ => hflag) hstring, hop']
      refine (Settles.const _).bind fun x hx => settles_number hrest ?_ (hk v x hv hx)
      rw [operate_isString hx]
      cases hs : u.isString
      · rfl
      · rw [hstring hs]
        rfl
  rw [bind_bind] at hread
  have hle : ¬precedence.binary o ≤ p := Nat.not_le_of_lt hp
  have hclear : (u.isString && !o.isComparison) = false := by
    cases hs : u.isString
    · rfl
    · rw [hstring hs]
      rfl
  refine (settles_scan (.some o fun _ => notComparing_items r rest) fun hs q hq => ?_).mpr ?_
  · obtain rfl := Option.some.inj hq
    exact Nat.le_of_eq (hcomparison hs)
  · simp only [resume, operatorAt, operator_precedence, if_neg hle, hclear, Bool.false_eq_true,
      if_false]
    refine Settles.call.mpr ?_
    simp only [step, climbStep, operator_precedence, if_neg hle]
    exact hread

end Binary

theorem Reads.binary {l r : Expression N S} (hl : Reads A l) (hr : Reads A r)
    (ht : Typed (.binary o l r)) (hcanonical : Canonical precedence (.binary o l r)) :
    Reads A (.binary o l r) where
  level {p rest rest' op k} hopens hrest hends hk := by
    obtain ⟨htl,htr,hstring,hop⟩ := ht
    obtain ⟨-,-,hcloses,hright⟩ := hcanonical
    have hbehind : Ends (some o) l := by
      intro q hq
      obtain rfl := Option.some.inj hq
      refine ⟨hcloses,fun hcompares => ?_⟩
      cases o with
      | arithmetic _ _ => exact absurd hcompares (by simp [Operation.isComparison])
      | comparison _ => exact hop
    have hread := hl.level (k := fun u => (value A r).bind fun v => (operate A o u v).bind k)
      hopens.2 (.some o fun _ => notComparing_items r rest) hbehind fun u hu => by
        have hk : ∀ v x, value A r = .ok v → operate A o u v = .ok x →
            Settles A (fun eval => eval (.scan p 0 ⟨x,x.isString⟩ rest)) (k x) := by
          intro v x hv hx
          refine hk x ?_
          rw [value, hu]
          change ((value A r).bind fun w => operate A o u w) = _
          rw [hv]
          exact hx
        have hul := isString_value htl hu
        by_cases hjoined : u.isString = true ∧ o.isComparison = false
        · obtain ⟨hu',ho⟩ := hjoined
          have hsl : string l = true := hul.symm.trans hu'
          cases o with
          | comparison _ => exact absurd ho (by simp [Operation.isComparison])
          | arithmetic t _ =>
            obtain rfl := hop hsl
            cases u with
            | num _ => exact absurd hu' (by simp [Value.isString])
            | str s => exact settles_concatenate hr (hstring.symm.trans hsl) hright hk
        · have hcomparison : u.isString = true → o.isComparison = true := fun hs => by
            by_contra hc
            exact hjoined ⟨hs,by simpa using hc⟩
          refine settles_operator hr htr (hul.trans hstring) hcomparison hright hopens.1 hrest
            (fun q hq => ?_) hk
          obtain ⟨⟨hle,hcl⟩,hcompares⟩ := hends q hq
          refine ⟨hle,hcl,fun hc => ?_⟩
          by_contra hs
          have ho := hcomparison (by simpa using hs)
          have := hcompares hc
          cases o with
          | arithmetic _ _ => exact absurd ho (by simp [Operation.isComparison])
          | comparison _ => exact hs (hul.trans this)
    have hitems : items (.binary o l r) ++ rest =
        items l ++ (o.tokens.map .token ++ (items r ++ rest)) := by
      simp [items]
    rw [hitems, value, bind_bind]
    simpa only [bind_bind] using hread
  joined hopens hs _ _ _ _ _ := by
    cases o with
    | arithmetic t _ =>
      have hlt : oppt .PLUS < oppt t := hopens.1
      rw [ht.2.2.2 hs] at hlt
      exact absurd hlt (Nat.lt_irrefl _)
    | comparison _ => exact absurd hs (by simp [string])

/-- The evaluator reads every canonical tree with types that match. -/
theorem reads (A : Arithmetic N S E) {t : Expression N S} (hcanonical : Canonical precedence t)
    (ht : Typed t) : Reads A t := by
  induction t with
  | operand v => exact Reads.operand v
  | group t ih => exact (ih hcanonical.1 ht).group ht hcanonical.2
  | unary u t ih =>
    cases u with
    | plus => exact (ih hcanonical.1 ht).plus hcanonical.2
    | minus =>
      exact (ih hcanonical.1 ht.1).signed ht.1 ht.2 hcanonical.2 rfl fun _ _ _ => rfl
    | not =>
      exact (ih hcanonical.1 ht.1).signed ht.1 ht.2 hcanonical.2 rfl fun _ _ _ => rfl
  | binary o l r ihl ihr =>
    exact (ihl hcanonical.1 ht.1).binary (ihr hcanonical.2.1 ht.2.1) ht hcanonical

/-- An expression is evaluated to the value of its tree, and its items are used up. -/
theorem eval_items (A : Arithmetic N S E) {t : Expression N S}
    (hcanonical : Canonical precedence t) (hopens : Opens precedence 0 t) (ht : Typed t)
    {rest : List (Item N S)} (hrest : Ended rest) :
    ∃ n, ∀ m, n ≤ m → eval A m (.level 0 (items t ++ rest)) =
      (value A t).bind fun v => .ok ⟨⟨v,v.isString⟩,none,rest⟩ :=
  (reads A hcanonical ht).level (k := fun v => .ok ⟨⟨v,v.isString⟩,none,rest⟩) hopens
    (.none hrest) (fun o ho => absurd ho (by simp)) fun v _ =>
      (settles_scan (.none hrest) fun _ o ho => absurd ho (by simp)).mpr (Settles.const _)

/-- Sums and products of whole numbers. -/
def integers : Arithmetic Int (List ℕ) Empty where
  operate
    | .MULT,x,y => .ok (x * y)
    | _,x,y => .ok (x + y)
  negate x := .ok (-x)
  invert x := .ok (-x - 1)
  compare _ x y := if x = y then -1 else 0
  compareStrings _ s t := if s = t then -1 else 0
  concatenate s t := .ok (s ++ t)

/-- The tree of `1+2*3`. -/
def sumOfProduct : Expression Int (List ℕ) :=
  .binary (.arithmetic .PLUS rfl) (.operand (.num 1))
    (.binary (.arithmetic .MULT rfl) (.operand (.num 2)) (.operand (.num 3)))

theorem sumOfProduct_canonical : Canonical precedence sumOfProduct ∧
    Opens precedence 0 sumOfProduct ∧ Typed sumOfProduct := by
  refine ⟨⟨trivial,⟨trivial,trivial,trivial,trivial⟩,trivial,?_,trivial⟩,⟨?_,trivial⟩,?_⟩
  · show oppt .PLUS < oppt .MULT
    decide
  · show 0 < oppt .PLUS
    decide
  · simp [sumOfProduct, Typed, string, Value.isString]

theorem eval_items_sum : ∃ n, ∀ m, n ≤ m → eval integers m (.level 0
    [.operand (.num 1),.token .PLUS,.operand (.num 2),.token .MULT,.operand (.num 3)]) =
      .ok ⟨⟨.num 7,false⟩,none,[]⟩ :=
  eval_items integers (t := sumOfProduct) sumOfProduct_canonical.1 sumOfProduct_canonical.2.1
    sumOfProduct_canonical.2.2 (show Ended [] from trivial)

end Betawise.BasicExpressionTree
