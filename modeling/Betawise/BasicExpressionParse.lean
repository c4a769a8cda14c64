import Betawise.BasicExpressionTree

/-!
# What the evaluator accepts

If an expression has a value, what was read is the text of a canonical tree whose types
match, and the value is that of the tree. Together with `eval_items` these are exactly
the expressions that are evaluated.
-/
namespace Betawise.BasicExpressionParse
open BasicKeywords PrecedenceTree BasicExpression BasicExpressionTree

variable {N S E : Type} {A : Arithmetic N S E} {n p : ℕ} {s : S} {o : Operation}
  {op : Option Operation} {v w x : Value N S} {t : Expression N S}
  {xs rest rest' : List (Item N S)} {r : Result N S}

/-! ### What has been read -/

/-- A tree that has been read at a level, with its value. -/
structure Left (A : Arithmetic N S E) (p : ℕ) (t : Expression N S) (v : Value N S) : Prop where
  canonical : Canonical precedence t
  opens : Opens precedence p t
  typed : Typed t
  value : value A t = .ok v

/-- The result of a level: a tree, and the operator that ended it. -/
structure Parsed (A : Arithmetic N S E) (p : ℕ) (xs : List (Item N S)) (r : Result N S)
    (t : Expression N S) (op : Option Operation) (rest : List (Item N S)) : Prop
    extends Left A p t r.operand.value where
  text : xs = items t ++ rest
  follows : Follows op rest r.rest
  ends : Ends op t
  below : ∀ o ∈ op, precedence.binary o ≤ p
  pending : r.pending = op.map (Operation.operator r.operand.value.isString)
  string : r.operand.string = (r.operand.value.isString && !(op.any Operation.isComparison))

/-- A level above the comparisons also ends with a string in front of a comparison. No
operator takes it. -/
def Parses (A : Arithmetic N S E) (p : ℕ) (xs : List (Item N S)) (r : Result N S) : Prop :=
  (∃ t op rest, Parsed A p xs r t op rest) ∨ oppt .LT < p ∧ r.operand.value.isString = true

/-- The results for a fuel are parsed. -/
structure Sound (A : Arithmetic N S E) (n : ℕ) : Prop where
  level : ∀ {p : ℕ} {xs : List (Item N S)} {r : Result N S},
    eval A n (.level p xs) = .ok r → Parses A p xs r
  scan : ∀ {p : ℕ} {rest : List (Item N S)} {r : Result N S} {t : Expression N S}
    {v : Value N S}, eval A n (.scan p 0 ⟨v,v.isString⟩ rest) = .ok r → Left A p t v →
    (∀ o, (v.isString = true → precedence.binary o ≤ oppt .PLUS) →
      Closes precedence (precedence.binary o) t) →
    comparesStrings t = false → Parses A p (items t ++ rest) r
  climb : ∀ {p : ℕ} {rest rest' : List (Item N S)} {r : Result N S} {t : Expression N S}
    {v : Value N S} {o : Operation}, eval A n (.climb p (o.operator v.isString) v rest') = .ok r →
    Left A p t v → Follows (some o) rest rest' → Ends (some o) t →
    (v.isString = true → o.isComparison = true) → Parses A p (items t ++ rest) r

/-! ### Operators -/

theorem operatorAt_ok {f : Evaluator N S E} {op : Operator} {b : Bool}
    (h : operatorAt f p op ⟨v,b⟩ rest = .ok r) :
    op.precedence ≤ p ∧ (b = true → p = oppt .LT) ∧ r = ⟨⟨v,b⟩,some op,rest⟩ ∨
      p < op.precedence ∧ b = false ∧ f (.climb p op v rest) = .ok r := by
  unfold operatorAt at h
  split_ifs at h with hle hmatch hstring
  · have hb : b = true → p = oppt .LT := fun hb => by
      by_contra hp
      exact hmatch ⟨hp,hb⟩
    exact Or.inl ⟨hle,hb,(Except.ok.inj h).symm⟩
  · exact Or.inr ⟨Nat.lt_of_not_le hle,by simpa using hstring,h⟩

/-- An operator behind the left operand. -/
theorem Sound.operator (hn : Sound A n)
    (h : operatorAt (eval A n) p (o.operator v.isString) ⟨v,v.isString && !o.isComparison⟩ rest' =
      .ok r) (hleft : Left A p t v)
    (hcloses : (v.isString = true → precedence.binary o ≤ oppt .PLUS) →
      Closes precedence (precedence.binary o) t) (hstrings : comparesStrings t = false)
    (hfollows : Follows (some o) rest rest') : Parses A p (items t ++ rest) r := by
  obtain ⟨hle,hb,rfl⟩ | ⟨-,hb,hclimb⟩ := operatorAt_ok h
  · rw [operator_precedence] at hle
    refine Or.inl ⟨t,some o,rest,hleft,rfl,hfollows,?_,?_,rfl,rfl⟩
    · intro q hq
      obtain rfl := Option.some.inj hq
      refine ⟨hcloses fun hs => ?_,fun _ => hstrings⟩
      cases o with
      | arithmetic _ _ =>
        have hp : p = oppt .LT := hb (by simp [hs, Operation.isComparison])
        rw [hp] at hle
        exact Nat.le_trans hle (by decide)
      | comparison _ => exact show oppt .LT ≤ oppt .PLUS by decide
    · intro q hq
      obtain rfl := Option.some.inj hq
      exact hle
  · have hcompares : v.isString = true → o.isComparison = true := fun hs => by
      simpa [hs] using hb
    refine hn.climb hclimb hleft hfollows ?_ hcompares
    intro q hq
    obtain rfl := Option.some.inj hq
    refine ⟨hcloses fun hs => ?_,fun _ => hstrings⟩
    cases o with
    | arithmetic _ _ => exact absurd (hcompares hs) (by simp [Operation.isComparison])
    | comparison _ => exact show oppt .LT ≤ oppt .PLUS by decide

/-- Behind the number that an operator gave. -/
theorem Sound.number (hn : Sound A n) (hleft : Left A p t v) (hv : v.isString = false)
    (h : after (eval A n) p v (op.map (Operation.operator false)) rest' = .ok r)
    (hfollows : Follows op rest rest') (hends : Ends op t) : Parses A p (items t ++ rest) r := by
  cases op with
  | none =>
    obtain rfl := Except.ok.inj h
    exact Or.inl ⟨t,none,rest,hleft,rfl,hfollows,hends,by simp,rfl,by simp [hv]⟩
  | some q =>
    rw [← hv] at h
    exact hn.climb h hleft hfollows hends (by simp [hv])

theorem apply_ok {b : Bool} (h : apply A (o.operator v.isString) v ⟨w,b⟩ = .ok x)
    (hv : v.isString = true → o.isComparison = true) (hb : w.isString = false → b = false) :
    v.isString = w.isString ∧ (o.isComparison = true → b = w.isString) ∧
      operate A o v w = .ok x := by
  cases o with
  | arithmetic t _ =>
    cases v <;> cases w <;> simp [Operation.operator, apply] at h
    · exact ⟨rfl,by simp [Operation.isComparison],h⟩
  | comparison c =>
    cases v <;> cases w <;> cases b <;> simp_all [Operation.operator, apply, Value.isString,
      operate]

/-- The comparison tokens in front are read one after another. -/
theorem scan_final {f : ℕ} {v : Operand N S} (h : eval A n (.scan p f v xs) = .ok r) :
    ∃ (m : ℕ) (ts : List Token) (rest : List (Item N S)), m < n ∧ xs = ts.map .token ++ rest ∧
      (∀ t ∈ ts, compareBit t ≠ none ∧ f &&& bit t = 0) ∧ ts.Nodup ∧ NotComparing rest ∧
      scanStep (eval A m) p (ts.foldl (fun f t => f ||| bit t) f) v rest = .ok r := by
  induction n generalizing f xs with
  | zero => exact absurd h (by simp [eval])
  | succ n ih =>
    have hstep : scanStep (eval A n) p f v xs = .ok r := h
    by_cases hrest : NotComparing xs
    · exact ⟨n,[],xs,Nat.lt_succ_self n,rfl,by simp,List.nodup_nil,hrest,hstep⟩
    · obtain ⟨t,xs,rfl,hcompare⟩ : ∃ (t : Token) (ys : List (Item N S)),
          xs = .token t::ys ∧ compareBit t ≠ none := by
        unfold NotComparing at hrest
        split at hrest
        · exact ⟨_,_,rfl,hrest⟩
        · exact absurd trivial hrest
      obtain ⟨b,hb⟩ := Option.ne_none_iff_exists'.mp hcompare
      have hbit : bit t = b := by rw [bit, hb]; rfl
      simp only [scanStep, hb] at hstep
      split_ifs at hstep with hfree
      obtain ⟨m,ts,rest,hm,rfl,hts,hdistinct,hrest,hfinal⟩ := ih hstep
      have hfree : f &&& b = 0 := by simpa using hfree
      refine ⟨m,t::ts,rest,Nat.lt_succ_of_lt hm,rfl,?_,?_,hrest,?_⟩
      · refine List.forall_mem_cons.mpr ⟨⟨hcompare,hbit ▸ hfree⟩,fun u hu => ⟨(hts u hu).1,?_⟩⟩
        have hboth := (hts u hu).2
        rw [Nat.and_or_distrib_right] at hboth
        exact (Nat.or_eq_zero_iff.mp hboth).1
      · refine List.nodup_cons.mpr ⟨fun ht => ?_,hdistinct⟩
        have hboth := (hts t ht).2
        rw [Nat.and_or_distrib_right, hbit, Nat.and_self] at hboth
        exact compareBit_ne_zero hb (Nat.or_eq_zero_iff.mp hboth).2
      · rw [List.foldl_cons, hbit]
        exact hfinal

theorem foldl_bit_ne_zero {ts : List Token} (hts : ∀ t ∈ ts, compareBit t ≠ none) {f : ℕ}
    (h : ts ≠ [] ∨ f ≠ 0) : ts.foldl (fun f t => f ||| bit t) f ≠ 0 := by
  induction ts generalizing f with
  | nil => exact h.resolve_left (by simp)
  | cons t ts ih =>
    obtain ⟨ht,hts⟩ := List.forall_mem_cons.mp hts
    refine ih hts (Or.inr fun hzero => ?_)
    obtain ⟨b,hb⟩ := Option.ne_none_iff_exists'.mp ht
    refine compareBit_ne_zero hb ?_
    have := (Nat.or_eq_zero_iff.mp hzero).2
    rwa [bit, hb] at this

/-! ### Strings -/

/-- The second part of a concatenation. -/
structure Part (A : Arithmetic N S E) (t : Expression N S) (w : S) : Prop where
  canonical : Canonical precedence t
  opens : ∀ q, Opens precedence q t
  closes : ∀ o, Closes precedence (precedence.binary o) t
  typed : Typed t
  value : value A t = .ok (.str w)

theorem precedence_pos (o : Operation) : 0 < precedence.binary o := by
  cases o with
  | arithmetic t ht =>
    change 0 < oppt t
    cases t <;> first | decide | exact absurd ht (by decide)
  | comparison _ => exact show 0 < oppt .LT by decide

/-- No operator is behind an expression. -/
theorem Parsed.none (h : Parsed A 0 xs r t op rest) : op = none := by
  cases op with
  | none => rfl
  | some o => exact absurd (h.below o rfl) (Nat.not_le_of_lt (precedence_pos o))

theorem bracketed_ok (hn : Sound A n) {v : Operand N S}
    (h : bracketed (eval A n) xs = .ok (v,rest)) :
    ∃ t, Left A 0 t v.value ∧ xs = items t ++ .rightBracket::rest ∧
      v.string = v.value.isString := by
  obtain ⟨r,hr,hclosed⟩ := bind_ok h
  obtain ⟨t,op,ys,hparsed⟩ | ⟨hlt,-⟩ := hn.level hr
  swap
  · exact absurd hlt (by decide)
  obtain rfl := hparsed.none
  have hfollows := hparsed.follows
  have hstring := hparsed.string
  unfold closed at hclosed
  split at hclosed
  · rename_i zs hrest
    obtain ⟨rfl,rfl⟩ := Prod.mk.inj (Except.ok.inj hclosed)
    rw [hrest] at hfollows
    cases hfollows
    exact ⟨t,hparsed.toLeft,hparsed.text,by simpa using hstring⟩
  · exact absurd hclosed (by simp)

/-- A part behind a further plus sign. -/
theorem Part.plus {w : S} (h : Part A t w) : Part A (.unary .plus t) w where
  canonical := ⟨h.canonical,h.opens _⟩
  opens _ := trivial
  closes o := ⟨Nat.le_trans (oppt_le o) (by decide),h.closes o⟩
  typed := h.typed
  value := h.value

/-- What is joined to the first string. -/
theorem join_ok {f : Evaluator N S E} {v : Operand N S} (h : join A f p s v rest = .ok r) :
    ∃ w u, v.value = .str w ∧ lift (A.concatenate s w) = .ok u ∧
      f (.scan p 0 ⟨.str u,true⟩ rest) = .ok r := by
  unfold join at h
  split at h
  · rename_i w hstring hvalue
    obtain ⟨u,hu,hscan⟩ := bind_ok h
    exact ⟨w,u,hvalue,hu,hscan⟩
  · exact absurd h (by simp)
  · exact absurd h (by simp)

theorem joined_ok (hsound : ∀ m, m < n → Sound A m)
    (h : eval A n (.concatenate p s xs) = .ok r) :
    ∃ m t rest w u, m < n ∧ xs = items t ++ rest ∧ Part A t w ∧
      lift (A.concatenate s w) = .ok u ∧ eval A m (.scan p 0 ⟨.str u,true⟩ rest) = .ok r := by
  induction n generalizing xs with
  | zero => exact absurd h (by simp [eval])
  | succ n ih =>
    have hstep : concatenateStep A (eval A n) p s xs = .ok r := h
    unfold concatenateStep at hstep
    split at hstep
    · rename_i ys
      obtain ⟨m,t,rest,w,u,hm,rfl,hpart,hu,hscan⟩ :=
        ih (fun m hm => hsound m (Nat.lt_succ_of_lt hm)) hstep
      exact ⟨m,.unary .plus t,rest,w,u,Nat.lt_succ_of_lt hm,rfl,hpart.plus,hu,hscan⟩
    · exact absurd hstep (by simp)
    · exact absurd hstep (by simp)
    · rename_i ys
      obtain ⟨⟨v,rest⟩,hbracketed,hjoin⟩ := bind_ok hstep
      obtain ⟨t,hleft,rfl,-⟩ := bracketed_ok (hsound n (Nat.lt_succ_self n)) hbracketed
      obtain ⟨w,u,hw,hu,hscan⟩ := join_ok hjoin
      refine ⟨n,.group t,rest,w,u,Nat.lt_succ_self n,(items_group t rest).symm,?_,hu,hscan⟩
      exact ⟨⟨hleft.canonical,hleft.opens⟩,fun _ => trivial,fun _ => trivial,hleft.typed,
        hw ▸ hleft.value⟩
    · rename_i v ys
      obtain ⟨w,u,hw,hu,hscan⟩ := join_ok hstep
      obtain rfl := hw
      exact ⟨n,.operand (.str w),ys,w,u,Nat.lt_succ_self n,rfl,
        ⟨trivial,fun _ => trivial,fun _ => trivial,trivial,rfl⟩,hu,hscan⟩
    · exact absurd hstep (by simp)

/-! ### Runs -/

theorem done_ok {b : Bool} (h : (done p ⟨v,b⟩ rest : Except (Stop E) (Result N S)) = .ok r) :
    (b = true → p = 0 ∨ p = oppt .LT) ∧ r = (⟨⟨v,b⟩,none,rest⟩ : Result N S) := by
  unfold done at h
  split_ifs at h with hmatch
  refine ⟨fun hb => ?_,(Except.ok.inj h).symm⟩
  by_contra hp
  exact hmatch ⟨fun h => hp (Or.inl h),fun h => hp (Or.inr h),hb⟩

/-- What stands behind a value: an operator, a string to be joined, or neither. -/
inductive Behind (f : Evaluator N S E) (p : ℕ) (v : Value N S) (r : Result N S) :
    List (Item N S) → Prop where
  | operator {xs rest : List (Item N S)} (o : Operation) (hfollows : Follows (some o) xs rest)
    (h : operatorAt f p (o.operator v.isString) ⟨v,v.isString && !o.isComparison⟩ rest = .ok r) :
    Behind f p v r xs
  | joined {rest : List (Item N S)} (s : S) (hv : v = .str s)
    (h : f (.concatenate p s rest) = .ok r) : Behind f p v r (.token .PLUS::rest)
  | ended {rest : List (Item N S)} (hend : Ended rest)
    (h : (done p ⟨v,v.isString⟩ rest : Except (Stop E) (Result N S)) = .ok r) :
    Behind f p v r rest

theorem scan_behind (h : eval A n (.scan p 0 ⟨v,v.isString⟩ xs) = .ok r) :
    ∃ m, m < n ∧ Behind (eval A m) p v r xs := by
  obtain ⟨m,ts,ys,hm,rfl,hts,hdistinct,hrest,hfinal⟩ := scan_final h
  refine ⟨m,hm,?_⟩
  by_cases hempty : ts = []
  · subst hempty
    rw [List.foldl_nil] at hfinal
    change Behind (eval A m) p v r ys
    unfold scanStep at hfinal
    split at hfinal
    · rename_i t zs
      simp only [show compareBit t = none from hrest] at hfinal
      split_ifs at hfinal with hzero hoperator
      · exact absurd rfl hzero
      · split at hfinal
        · exact .joined _ rfl hfinal
        · exact absurd hfinal (by simp)
        · refine .operator (.arithmetic _ hoperator) (.some (.arithmetic _ hoperator) ?_) ?_
          · exact fun h => absurd h (by simp [Operation.isComparison])
          · simpa [Operation.operator, Operation.isComparison] using hfinal
      · exact .ended ⟨hrest,by simpa using hoperator⟩ hfinal
    · rename_i hnone
      refine .ended ?_ (by simpa using hfinal)
      unfold Ended
      split
      · exact absurd rfl (hnone _ _)
      · trivial
  · have hcompares : ∀ t ∈ ts, compareBit t ≠ none := fun t ht => (hts t ht).1
    have hflags := foldl_bit_ne_zero (f := 0) hcompares (Or.inl hempty)
    refine .operator (.comparison ⟨ts,hempty,hcompares,hdistinct⟩) (.some _ fun _ => hrest) ?_
    simp only [Operation.operator, Operation.isComparison, Bool.not_true, Bool.and_false]
    unfold scanStep at hfinal
    split at hfinal
    · rename_i t zs
      simp only [show compareBit t = none from hrest, if_pos hflags] at hfinal
      exact hfinal
    · simp only [if_pos hflags] at hfinal
      exact hfinal

/-- Above the comparisons a string can only be compared. -/
theorem string_stays (hsound : ∀ m, m < n → Sound A m) (hp : oppt .LT < p)
    (h : eval A n (.scan p 0 ⟨.str s,true⟩ xs) = .ok r) : r.operand.value.isString = true := by
  induction n using Nat.strongRecOn generalizing s xs with
  | ind n ih =>
    obtain ⟨m,hm,hbehind⟩ := scan_behind (v := .str s) h
    cases hbehind with
    | operator o _ hat =>
      obtain ⟨-,-,rfl⟩ | ⟨hlt,hb,-⟩ := operatorAt_ok hat
      · rfl
      · rw [operator_precedence] at hlt
        cases o with
        | arithmetic _ _ => exact absurd hb (by simp [Value.isString, Operation.isComparison])
        | comparison _ => exact absurd hlt (Nat.not_lt_of_le (Nat.le_of_lt hp))
    | joined s hv hjoin =>
      obtain ⟨k,t,ys,w,u,hk,rfl,-,hu,hscan⟩ :=
        joined_ok (fun k hk => hsound k (Nat.lt_trans hk hm)) hjoin
      have hkn : k < n := Nat.lt_trans hk hm
      exact ih k hkn (fun j hj => hsound j (Nat.lt_trans hj hkn)) hscan
    | ended _ hdone =>
      obtain ⟨-,rfl⟩ := done_ok hdone
      rfl

theorem Left.joined {t₁ : Expression N S} {u w : S} (h : Left A p t (.str s))
    (hpart : Part A t₁ w) (hp : p ≤ oppt .LT) (hcloses : Closes precedence (oppt .PLUS) t)
    (hu : lift (A.concatenate s w) = .ok u) :
    Left A p (.binary (.arithmetic .PLUS rfl) t t₁) (.str u) where
  canonical := ⟨h.canonical,hpart.canonical,hcloses,hpart.opens _⟩
  opens := ⟨Nat.lt_of_le_of_lt hp (by decide),h.opens⟩
  typed := by
    have hs : string t = true := (isString_value h.typed h.value).symm
    have hs₁ : string t₁ = true := (isString_value hpart.typed hpart.value).symm
    exact ⟨h.typed,hpart.typed,hs.trans hs₁.symm,fun _ => rfl⟩
  value := by
    rw [BasicExpressionTree.value, h.value]
    change ((BasicExpressionTree.value A t₁).bind fun w => operate A _ _ w) = _
    rw [hpart.value]
    change (lift (A.concatenate s w)).map Value.str = _
    rw [hu]
    rfl

theorem sound_scan (hsound : ∀ m, m < n → Sound A m)
    (h : eval A n (.scan p 0 ⟨v,v.isString⟩ rest) = .ok r) (hleft : Left A p t v)
    (hcloses : ∀ o, (v.isString = true → precedence.binary o ≤ oppt .PLUS) →
      Closes precedence (precedence.binary o) t) (hstrings : comparesStrings t = false) :
    Parses A p (items t ++ rest) r := by
  obtain ⟨m,hm,hbehind⟩ := scan_behind h
  cases hbehind with
  | operator o hfollows hat => exact (hsound m hm).operator hat hleft (hcloses o) hstrings hfollows
  | joined s hv hjoin =>
    subst hv
    obtain ⟨m',t₁,ys,w,u,hm',rfl,hpart,hu,hscan⟩ :=
      joined_ok (fun k hk => hsound k (Nat.lt_trans hk hm)) hjoin
    by_cases hp : oppt .LT < p
    · have hm'' : m' < n := Nat.lt_trans hm' hm
      exact Or.inr ⟨hp,string_stays (fun k hk => hsound k (Nat.lt_trans hk hm'')) hp hscan⟩
    · have hjoined := hleft.joined hpart (Nat.le_of_not_lt hp)
        (hcloses (.arithmetic .PLUS rfl) fun _ => Nat.le_refl _) hu
      have hread := (hsound m' (Nat.lt_trans hm' hm)).scan (v := .str u) hscan hjoined
        (fun o ho => ⟨ho rfl,hpart.closes o⟩) rfl
      simpa [items, Operation.tokens] using hread
  | ended hend hdone =>
    obtain ⟨-,rfl⟩ := done_ok hdone
    exact Or.inl ⟨t,none,rest,hleft,rfl,.none hend,by simp [Ends],by simp,rfl,by simp⟩

theorem Left.operated {t₁ : Expression N S} (h : Left A p t v)
    (h₁ : Left A (precedence.binary o) t₁ w) (hp : p < precedence.binary o)
    (hends : Ends (some o) t) (htypes : v.isString = w.isString)
    (hv : v.isString = true → o.isComparison = true) (hx : operate A o v w = .ok x) :
    Left A p (.binary o t t₁) x where
  canonical := ⟨h.canonical,h₁.canonical,(hends o rfl).1,h₁.opens⟩
  opens := ⟨hp,h.opens⟩
  typed := by
    have hs := isString_value h.typed h.value
    have hs₁ := isString_value h₁.typed h₁.value
    refine ⟨h.typed,h₁.typed,hs.symm.trans (htypes.trans hs₁),?_⟩
    cases o with
    | arithmetic _ _ => exact fun hl => absurd (hv (hs.trans hl)) (by simp [Operation.isComparison])
    | comparison _ => exact (hends _ rfl).2 rfl
  value := by
    rw [BasicExpressionTree.value, h.value]
    change ((BasicExpressionTree.value A t₁).bind fun w => operate A o v w) = _
    rw [h₁.value]
    exact hx

theorem sound_climb (hn : Sound A n)
    (h : eval A (n + 1) (.climb p (o.operator v.isString) v rest') = .ok r) (hleft : Left A p t v)
    (hfollows : Follows (some o) rest rest') (hends : Ends (some o) t)
    (hv : v.isString = true → o.isComparison = true) : Parses A p (items t ++ rest) r := by
  have hstep : climbStep A (eval A n) p (o.operator v.isString) v rest' = .ok r := h
  simp only [climbStep, operator_precedence] at hstep
  split_ifs at hstep with hle
  · obtain rfl := Except.ok.inj hstep
    have hflag : false = (v.isString && !o.isComparison) := by
      cases hs : v.isString
      · rfl
      · rw [hv hs]
        rfl
    refine Or.inl ⟨t,some o,rest,hleft,rfl,hfollows,hends,fun q hq => ?_,rfl,hflag⟩
    obtain rfl := Option.some.inj hq
    exact hle
  · obtain ⟨r₁,hr₁,hstep⟩ := bind_ok hstep
    obtain ⟨x,hx,hafter⟩ := bind_ok hstep
    obtain ⟨t₁,op,ys,hparsed⟩ | ⟨hlt,hs⟩ := hn.level hr₁
    · have hb : r₁.operand.value.isString = false → r₁.operand.string = false := fun hs => by
        rw [hparsed.string, hs]
        rfl
      obtain ⟨htypes,hflag,hoperate⟩ := apply_ok hx hv hb
      have hstring : r₁.operand.value.isString = true → op.any Operation.isComparison = false := by
        intro hs
        have := (hflag (hv (htypes.trans hs))).symm.trans hparsed.string
        simpa [hs] using this
      have hpending : r₁.pending = op.map (Operation.operator false) := by
        rw [hparsed.pending]
        exact map_operator hstring
      rw [hpending] at hafter
      have hx' : x.isString = false := by
        rw [operate_isString hoperate]
        cases hs : v.isString
        · rfl
        · rw [hv hs]
          rfl
      have hends' : Ends op (.binary o t t₁) := by
        intro q hq
        refine ⟨⟨hparsed.below q hq,(hparsed.ends q hq).1⟩,fun hc => ?_⟩
        cases o with
        | arithmetic _ _ => rfl
        | comparison c =>
          by_contra hs
          have hs : string t = true := by simpa [comparesStrings] using hs
          have hw := htypes.symm.trans ((isString_value hleft.typed hleft.value).trans hs)
          obtain rfl : op = some q := hq
          exact absurd (hc.symm.trans (hstring hw)) (by simp)
      have hread := hn.number (hleft.operated hparsed.toLeft (Nat.lt_of_not_le hle) hends htypes hv
        hoperate) hx' hafter hparsed.follows hends'
      cases hfollows with
      | some o _ =>
        rw [hparsed.text]
        simpa [items] using hread
    · cases o with
      | arithmetic q _ =>
        cases hw : r₁.operand.value with
        | num _ => exact absurd hs (by simp [hw, Value.isString])
        | str _ => cases v <;> simp [Operation.operator, apply, hw] at hx
      | comparison _ => exact absurd hlt (Nat.lt_irrefl _)

/-! ### Signs -/

theorem items_unaryLeft (t : Expression N S) :
    items (unaryLeft .plus t) = .token .PLUS::items t := by
  induction t with
  | operand _ => rfl
  | group _ _ => rfl
  | unary _ _ _ => rfl
  | binary o l r ihl _ => simp [unaryLeft, items, ihl]

theorem string_unaryLeft (t : Expression N S) : string (unaryLeft .plus t) = string t := by
  induction t with
  | operand _ => rfl
  | group _ _ => rfl
  | unary _ _ _ => rfl
  | binary o l r ihl _ => cases o <;> simp [unaryLeft, string, ihl]

theorem comparesStrings_unaryLeft (t : Expression N S) :
    comparesStrings (unaryLeft .plus t) = comparesStrings t := by
  cases t with
  | operand _ => rfl
  | group _ => rfl
  | unary _ _ => rfl
  | binary o l r => cases o <;> simp [unaryLeft, comparesStrings, string_unaryLeft]

theorem value_unaryLeft (t : Expression N S) : value A (unaryLeft .plus t) = value A t := by
  induction t with
  | operand _ => rfl
  | group _ _ => rfl
  | unary _ _ _ => rfl
  | binary o l r ihl _ => simp [unaryLeft, value, ihl]

theorem Typed.unaryLeft {t : Expression N S} (h : Typed t) : Typed (unaryLeft .plus t) := by
  induction t with
  | operand _ => trivial
  | group _ _ => exact h
  | unary _ _ _ => exact h
  | binary o l r ihl _ =>
    obtain ⟨hl,hr,hs,ho⟩ := h
    refine ⟨ihl hl,hr,(string_unaryLeft l).trans hs,?_⟩
    cases o with
    | arithmetic t _ => exact fun h => ho ((string_unaryLeft l).symm.trans h)
    | comparison c => exact (comparesStrings_unaryLeft l).trans ho

/-- A plus sign in front of all that a level has read belongs to the leftmost value. -/
theorem Parsed.unaryLeft (h : Parsed A p xs r t op rest) :
    Parsed A p (.token .PLUS::xs) r (unaryLeft .plus t) op rest where
  canonical := h.canonical.unaryLeft fun o => Nat.le_trans (oppt_le o) (by decide)
  opens := h.opens.unaryLeft
  typed := Typed.unaryLeft h.typed
  value := (value_unaryLeft t).trans h.value
  text := by rw [items_unaryLeft, h.text]; rfl
  follows := h.follows
  ends := fun o ho => ⟨(h.ends o ho).1.unaryLeft (Nat.le_trans (oppt_le o) (by decide)),
    fun hc => (comparesStrings_unaryLeft t).trans ((h.ends o ho).2 hc)⟩
  below := h.below
  pending := h.pending
  string := h.string

/-- Minus or NOT, with what its level has read. -/
theorem Sound.signed (hn : Sound A n) {u : Sign} {f : N → Except E N}
    (hvalue : ∀ t : Expression N S, value A (.unary u t) = (value A t).bind (unary f))
    (htyped : ∀ t : Expression N S, Typed t → string t = false → Typed (.unary u t))
    (h : ((eval A n (.level (precedence.unary u) xs)).bind fun r =>
      (unary f r.operand.value).bind fun v => after (eval A n) p v r.pending r.rest) = .ok r) :
    Parses A p (.token u.token::xs) r := by
  obtain ⟨r₁,hr₁,h⟩ := bind_ok h
  obtain ⟨v,hv,hafter⟩ := bind_ok h
  have hnum : r₁.operand.value.isString = false := by
    cases hw : r₁.operand.value with
    | num _ => rfl
    | str _ => simp [hw, unary] at hv
  obtain ⟨t,op,rest,hparsed⟩ | ⟨-,hs⟩ := hn.level hr₁
  · have hstring : string t = false :=
      (isString_value hparsed.typed hparsed.value).symm.trans hnum
    have hleft : Left A p (.unary u t) v := by
      refine ⟨⟨hparsed.canonical,hparsed.opens⟩,trivial,htyped t hparsed.typed hstring,?_⟩
      rw [hvalue, hparsed.value]
      exact hv
    rw [hparsed.pending, hnum] at hafter
    rw [hparsed.text]
    exact hn.number hleft (unary_isString hv) hafter hparsed.follows fun o ho =>
      ⟨⟨hparsed.below o ho,(hparsed.ends o ho).1⟩,fun _ => rfl⟩
  · exact absurd (hs.symm.trans hnum) (by simp)

theorem sound_level (hn : Sound A n) (h : eval A (n + 1) (.level p xs) = .ok r) :
    Parses A p xs r := by
  have hstep : levelStep A (eval A n) p xs = .ok r := h
  unfold levelStep at hstep
  split at hstep
  · rename_i ys
    obtain ⟨t,op,rest,hparsed⟩ | hstring := hn.level hstep
    · exact Or.inl ⟨_,op,rest,hparsed.unaryLeft⟩
    · exact Or.inr hstring
  · exact hn.signed (u := .minus) (fun _ => rfl) (fun _ h hs => ⟨h,hs⟩) hstep
  · exact hn.signed (u := .not) (fun _ => rfl) (fun _ h hs => ⟨h,hs⟩) hstep
  · rename_i ys
    obtain ⟨⟨⟨v,b⟩,rest⟩,hbracketed,hscan⟩ := bind_ok hstep
    obtain ⟨t,hleft,rfl,hb⟩ := bracketed_ok hn hbracketed
    obtain rfl : b = v.isString := hb
    rw [← items_group]
    exact hn.scan hscan ⟨⟨hleft.canonical,hleft.opens⟩,trivial,hleft.typed,hleft.value⟩
      (fun _ _ => trivial) rfl
  · rename_i v ys
    exact hn.scan (t := .operand v) hstep ⟨trivial,trivial,trivial,rfl⟩ (fun _ _ => trivial) rfl
  · exact absurd hstep (by simp)

theorem sound (A : Arithmetic N S E) (n : ℕ) : Sound A n := by
  induction n using Nat.strongRecOn with
  | ind n ih =>
    cases n with
    | zero =>
      exact ⟨fun h => absurd h (by simp [eval]),fun h => absurd h (by simp [eval]),
        fun h => absurd h (by simp [eval])⟩
    | succ n =>
      have hn := ih n (Nat.lt_succ_self n)
      exact ⟨sound_level hn,sound_scan ih,sound_climb hn⟩

/-- What the evaluator gives a value is the text of a canonical tree with types that
match, up to a place where no operator is, and the value is that of the tree. -/
theorem eval_parses (h : eval A n (.level 0 xs) = .ok r) :
    ∃ t, Canonical precedence t ∧ Opens precedence 0 t ∧ Typed t ∧ xs = items t ++ r.rest ∧
      Ended r.rest ∧ value A t = .ok r.operand.value ∧ r.pending = none := by
  obtain ⟨t,op,rest,hparsed⟩ | ⟨hlt,-⟩ := (sound A n).level h
  swap
  · exact absurd hlt (by decide)
  obtain rfl := hparsed.none
  have hfollows := hparsed.follows
  have htext := hparsed.text
  have hpending := hparsed.pending
  generalize hrest : r.rest = ys at *
  cases hfollows with
  | none hend =>
    exact ⟨t,hparsed.canonical,hparsed.opens,hparsed.typed,htext,hend,hparsed.value,hpending⟩

theorem eval_parses_sum : ∃ t : Expression Int (List ℕ), Canonical precedence t ∧ Typed t ∧
    [.operand (.num 1),.token .PLUS,.operand (.num 2),.token .MULT,.operand (.num 3)] = items t ∧
      value integers t = .ok (.num 7) := by
  obtain ⟨t,hcanonical,-,ht,hitems,-,hvalue,-⟩ := eval_parses
    (show eval integers 9 (.level 0
      [.operand (.num 1),.token .PLUS,.operand (.num 2),.token .MULT,.operand (.num 3)]) =
        .ok ⟨⟨.num 7,false⟩,none,[]⟩ from rfl)
  exact ⟨t,hcanonical,ht,by simpa using hitems,hvalue⟩

end Betawise.BasicExpressionParse
