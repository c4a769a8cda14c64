import Betawise.BasicKeywords
import Betawise.PrecedenceTree

/-!
# The evaluation of expressions

`LAB_EVEX` keeps the operators that wait for their right operand on the stack, each with
its precedence, and does an operator as soon as the next one does not bind more tightly.
An expression is a list of items here: operands (literals, variables and function calls
with their values), brackets and tokens. The arithmetic is a parameter.

The data type flag is cleared when a comparison has been read, before the operator in
front of the left operand is done. A string there is then taken for a number, and what
the interpreter reads is not modelled (`wild`).
-/
namespace Betawise.BasicExpression
open BasicKeywords PrecedenceTree

variable {N S E : Type}

inductive Value (N S : Type) where
  | num (x : N)
  | str (s : S)

def Value.isString : Value N S → Bool
  | .num _ => false
  | .str _ => true

inductive Item (N S : Type) where
  | operand (v : Value N S)
  | token (t : Token)
  | leftBracket
  | rightBracket
  | mark (c : ℕ)

inductive Stop (E : Type) where
  | syntaxError
  | typeMismatch
  | wild
  | noFuel
  | error (e : E)

/-- The routines that the operators call, with the left operand first. -/
structure Arithmetic (N S E : Type) where
  operate : Token → N → N → Except E N
  negate : N → Except E N
  invert : N → Except E N
  compare : ℕ → N → N → N
  compareStrings : ℕ → S → S → N
  concatenate : S → S → Except E S

/-- The precedence values at `LAB_OPPT`; those of the last three operators are for the
minus sign, NOT and comparisons. -/
def oppt : Token → ℕ
  | .PLUS => 0x79
  | .MINUS => 0x79
  | .MULT => 0x7B
  | .DIV => 0x7B
  | .POWER => 0x7F
  | .AND => 0x50
  | .EOR => 0x46
  | .OR => 0x46
  | .RSHIFT => 0x56
  | .LSHIFT => 0x56
  | .GT => 0x7D
  | .EQUAL => 0x5A
  | .LT => 0x64
  | _ => 0

/-- An operator with the flags that are pushed with it: for a comparison the three bits
of `comp_f` and whether the left operand was a string. -/
inductive Operator where
  | arithmetic (t : Token)
  | comparison (flags : ℕ) (string : Bool)

def Operator.precedence : Operator → ℕ
  | .arithmetic t => oppt t
  | .comparison _ _ => oppt .LT

/-- FAC1 with the data type flag. -/
structure Operand (N S : Type) where
  value : Value N S
  string : Bool

/-- The value of a level, the operator that ended it, and the items behind this. -/
structure Result (N S : Type) where
  operand : Operand N S
  pending : Option Operator
  rest : List (Item N S)

/-- The bit of `LAB_1AE0`. -/
def compareBit : Token → Option ℕ
  | .GT => some 1
  | .EQUAL => some 2
  | .LT => some 4
  | _ => none

/-- Between the tokens of `+` and `>`, of which the latter is not included. -/
def isOperator (t : Token) : Bool := Token.PLUS.code ≤ t.code ∧ t.code < Token.GT.code

/-- Where the evaluation is: at a value (`LAB_1ACD`), behind it (`LAB_1ADE`), at an
operator (`LAB_1B3C`), or at the second string of a concatenation (`LAB_224D`). -/
inductive Goal (N S : Type) where
  | level (precedence : ℕ) (items : List (Item N S))
  | scan (precedence compF : ℕ) (v : Operand N S) (items : List (Item N S))
  | climb (precedence : ℕ) (op : Operator) (v : Value N S) (items : List (Item N S))
  | concatenate (precedence : ℕ) (s : S) (items : List (Item N S))

/-- What does the calls. -/
abbrev Evaluator (N S E : Type) := Goal N S → Except (Stop E) (Result N S)

def lift {α : Type} : Except E α → Except (Stop E) α
  | .ok a => .ok a
  | .error e => .error (.error e)

variable (A : Arithmetic N S E)

/-- A numeric routine with FAC1. -/
def unary (f : N → Except E N) : Value N S → Except (Stop E) (Value N S)
  | .num x => (lift (f x)).map .num
  | .str _ => .error .wild

/-- An operator with its operands in FAC2 and FAC1; a comparison checks that their types
match. -/
def apply (op : Operator) (v : Value N S) (w : Operand N S) : Except (Stop E) (Value N S) :=
  match op with
  | .arithmetic t =>
    match v,w.value with
    | .num x,.num y => (lift (A.operate t x y)).map .num
    | _,_ => .error .wild
  | .comparison flags string =>
    if w.string ≠ string then .error .typeMismatch
    else
      match v,w.value with
      | .num x,.num y => if string then .error .wild else .ok (.num (A.compare flags x y))
      | .str s,.str t => if string then .ok (.num (A.compareStrings flags s t)) else .error .wild
      | _,_ => .error .wild

/-- `LAB_1B1D` behind the call: the level ends, or goes on with the pending operator. -/
def after (eval : Evaluator N S E) (precedence : ℕ) (v : Value N S)
    (pending : Option Operator) (rest : List (Item N S)) : Except (Stop E) (Result N S) :=
  match pending with
  | none => .ok ⟨⟨v,false⟩,none,rest⟩
  | some op => eval (.climb precedence op v rest)

/-- `LAB_1B13`: the level ends if the operator in front of it binds as tightly. The type
is checked except behind a comparison. -/
def operatorAt (eval : Evaluator N S E) (precedence : ℕ) (op : Operator)
    (v : Operand N S) (rest : List (Item N S)) : Except (Stop E) (Result N S) :=
  if op.precedence ≤ precedence then
    if precedence ≠ 0x64 ∧ v.string then .error .typeMismatch else .ok ⟨v,some op,rest⟩
  else if v.string then .error .typeMismatch
  else eval (.climb precedence op v.value rest)

/-- `LAB_1B78`. -/
def done (precedence : ℕ) (v : Operand N S) (rest : List (Item N S)) :
    Except (Stop E) (Result N S) :=
  if precedence ≠ 0 ∧ precedence ≠ 0x64 ∧ v.string then .error .typeMismatch
  else .ok ⟨v,none,rest⟩

/-- `LAB_1BFB`: the right bracket, and what follows it. -/
def closed (r : Result N S) : Except (Stop E) (Operand N S × List (Item N S)) :=
  match r.rest with
  | .rightBracket::rest => .ok (r.operand,rest)
  | _ => .error .syntaxError

/-- `LAB_1BF7`: an expression within brackets. -/
def bracketed (eval : Evaluator N S E) (items : List (Item N S)) :
    Except (Stop E) (Operand N S × List (Item N S)) :=
  (eval (.level 0 items)).bind closed

/-- `LAB_GVAL` at the start of a level, where the data type flag is clear. -/
def levelStep (eval : Evaluator N S E) (precedence : ℕ)
    (items : List (Item N S)) : Except (Stop E) (Result N S) :=
  match items with
  | .token .PLUS::rest => eval (.level precedence rest)
  | .token .MINUS::rest =>
    (eval (.level (oppt .GT) rest)).bind fun r =>
      (unary A.negate r.operand.value).bind fun v => after eval precedence v r.pending r.rest
  | .token .NOT::rest =>
    (eval (.level (oppt .EQUAL) rest)).bind fun r =>
      (unary A.invert r.operand.value).bind fun v => after eval precedence v r.pending r.rest
  | .leftBracket::rest =>
    (bracketed eval rest).bind fun r => eval (.scan precedence 0 r.1 r.2)
  | .operand v::rest => eval (.scan precedence 0 ⟨v,v.isString⟩ rest)
  | _ => .error .syntaxError

/-- `LAB_1ADE` with the comparison bits so far. -/
def scanStep (eval : Evaluator N S E) (precedence compF : ℕ)
    (v : Operand N S) (items : List (Item N S)) : Except (Stop E) (Result N S) :=
  match items with
  | .token t::rest =>
    match compareBit t with
    | some bit =>
      if compF &&& bit ≠ 0 then .error .syntaxError
      else eval (.scan precedence (compF ||| bit) v rest)
    | none =>
      if compF ≠ 0 then
        operatorAt eval precedence (.comparison compF v.string) ⟨v.value,false⟩ items
      else if isOperator t then
        match t,v.string,v.value with
        | .PLUS,true,.str s => eval (.concatenate precedence s rest)
        | .PLUS,true,.num _ => .error .wild
        | _,_,_ => operatorAt eval precedence (.arithmetic t) v rest
      else done precedence v items
  | _ =>
    if compF ≠ 0 then operatorAt eval precedence (.comparison compF v.string) ⟨v.value,false⟩ items
    else done precedence v items

/-- `LAB_224E`: the second value must be a string. -/
def join (eval : Evaluator N S E) (precedence : ℕ) (s : S) (v : Operand N S)
    (rest : List (Item N S)) : Except (Stop E) (Result N S) :=
  match v.string,v.value with
  | true,.str t =>
    (lift (A.concatenate s t)).bind fun u => eval (.scan precedence 0 ⟨.str u,true⟩ rest)
  | true,.num _ => .error .wild
  | false,_ => .error .typeMismatch

/-- The second string of a concatenation. A NOT there drops a return address that is
not on the stack. -/
def concatenateStep (eval : Evaluator N S E) (precedence : ℕ) (s : S)
    (items : List (Item N S)) : Except (Stop E) (Result N S) :=
  match items with
  | .token .PLUS::rest => eval (.concatenate precedence s rest)
  | .token .MINUS::_ => .error .typeMismatch
  | .token .NOT::_ => .error .wild
  | .leftBracket::rest => (bracketed eval rest).bind fun r => join A eval precedence s r.1 r.2
  | .operand v::rest => join A eval precedence s ⟨v,v.isString⟩ rest
  | _ => .error .syntaxError

/-- `LAB_1B3C` and `LAB_1B1C`. -/
def climbStep (eval : Evaluator N S E) (precedence : ℕ) (op : Operator)
    (v : Value N S) (items : List (Item N S)) : Except (Stop E) (Result N S) :=
  if op.precedence ≤ precedence then .ok ⟨⟨v,false⟩,some op,items⟩
  else
    (eval (.level op.precedence items)).bind fun r =>
      (apply A op v r.operand).bind fun w => after eval precedence w r.pending r.rest

/-- One step of the evaluation. -/
def step (eval : Evaluator N S E) : Evaluator N S E
  | .level precedence items => levelStep A eval precedence items
  | .scan precedence compF v items => scanStep eval precedence compF v items
  | .climb precedence op v items => climbStep A eval precedence op v items
  | .concatenate precedence s items => concatenateStep A eval precedence s items

def eval : ℕ → Evaluator N S E
  | 0,_ => .error .noFuel
  | fuel + 1,g => step A (eval fuel) g

end Betawise.BasicExpression
