import Betawise.BasicRoots
import Betawise.FallibleState

/-!
# String expressions

A string value is passed on as the address of its descriptor: in a variable, in an array
or on the descriptor stack. New strings are put at the bottom of the string memory, and a
garbage collection may come in between.
-/
namespace Betawise.BasicStrings
open LoggedRam BasicVariables BasicArrays BasicStringHeap BasicRoots SlidingHeap FallibleState
open BasicMemory (evenLength)

inductive StringError where
  | tooComplex
  | tooLong
  | outOfMemory
  | undefinedVariable
  | functionCall
  | array (e : ArrayError)

inductive Place where
  | scalar (name : ℕ)
  | element (name : ℕ) (indices : List ℕ)
  deriving DecidableEq

def Place.name : Place → ℕ
  | .scalar name => name
  | .element name _ => name

/-- `LAB_GVAR`, with the error of a variable that does not exist. -/
def findPlace : Place → Store → Outcome Store StringError ℕ
  | .scalar name,b =>
    match gvar (kindOf name) name b with
    | none => none
    | some none => some (.error .undefinedVariable,b)
    | some (some a) => some (.ok a,b)
  | .element name indices,b =>
    match element name indices b with
    | none => none
    | some (.error e) => some (.error (.array e),b)
    | some (.ok a) => some (.ok a,b)

/-- `LAB_RTST`: a new descriptor on the stack, which ends at `des_sk_e`. -/
def pushString (pointer length : ℕ) (b : Store) : Outcome Store StringError ℕ :=
  if b.a4 = b.desSk - 24 then some (.error .tooComplex,b)
  else
    let a4 := b.a4 - 6
    let ram := poke32 a4 pointer (pokeBytes (a4 + 4) (bytes16 length) b.ram)
    some (.ok a4,{ b with a4 := a4, ram := ram })

/-- `LAB_22BA`: the pointer and the length of a descriptor, which is taken off the stack if
it is on top; its space is free again if it is at the bottom of the string memory. -/
def popString (d : ℕ) (b : Store) : ℕ × ℕ × Store :=
  let a4 := if d = b.a4 then b.a4 + 6 else b.a4
  let a1 := read32 b.ram.byte d
  let d0 := read16 b.ram.byte (d + 4)
  let sstorl := if d + 6 = a4 ∧ a1 = b.sstorl then b.sstorl + evenLength d0 else b.sstorl
  (a1,d0,{ b with a4 := a4, sstorl := sstorl })

/-- `LAB_2115` with its error. -/
def allocate (length : ℕ) (b : Store) : Outcome Store StringError ℕ :=
  match makeSpace length b with
  | none => none
  | some (none,b) => some (.error .outOfMemory,b)
  | some (some a,b) => some (.ok a,b)

/-- `LAB_22A0`. -/
def copyBytes : ℕ → ℕ → ℕ → Ram → Ram
  | 0,_,_,r => r
  | n + 1,a0,a1,r => copyBytes n (a0 + 1) (a1 + 1) (poke a1 (r.byte a0) r)

/-- `LAB_20E0`, from the ends on. -/
def copyBytesDown : ℕ → ℕ → ℕ → Ram → Ram
  | 0,_,_,r => r
  | n + 1,a1,a0,r => copyBytesDown n (a1 - 1) (a0 - 1) (poke (a0 - 1) (r.byte (a1 - 1)) r)

/-- `LAB_229E`: the address of the copy, the new `Sutill` and the memory. -/
def storeString (d0 a0 sutill : ℕ) (r : Ram) : ℕ × ℕ × Ram :=
  if d0 = 0 then (a0,sutill,r) else (sutill,sutill + d0,copyBytes d0 a0 sutill r)

/-- `LAB_20C9`. -/
def copyString (a0 d1 : ℕ) (b : Store) : Outcome Store StringError ℕ :=
  if d1 = 0 then pushString 0 0 b
  else
    andThen (allocate d1 b) fun p b =>
      pushString p d1 { b with ram := copyBytesDown d1 (a0 + d1) (p + d1) b.ram }

/-- `LAB_MKCHR`. -/
def chrs (c : ℕ) (b : Store) : Outcome Store StringError ℕ :=
  andThen (allocate 1 b) fun p b => pushString p 1 { b with ram := poke p c b.ram }

/-- `LAB_224E`. -/
def concatenate (a0 a1 : ℕ) (b : Store) : Outcome Store StringError ℕ :=
  let d1 := read16 b.ram.byte (a0 + 4) + read16 b.ram.byte (a1 + 4)
  if 65536 ≤ d1 then some (.error .tooLong,b)
  else
    andThen (allocate d1 b) fun p b =>
      let s := storeString (read16 b.ram.byte (a0 + 4)) (read32 b.ram.byte a0) p b.ram
      let t := popString a1 { b with ram := s.2.2 }
      let u := storeString t.2.1 t.1 s.2.1 t.2.2.ram
      let v := popString a0 { t.2.2 with ram := u.2.2 }
      if p = 0 then pushString 0 0 v.2.2 else pushString p (u.2.1 - p) v.2.2

/-- LEFT$, RIGHT$ and MID$ with their numbers. `c` is the character behind the bracket,
which is left in `d0`. -/
inductive Part where
  | left (n c : ℕ)
  | right (n c : ℕ)
  | mid (start : ℕ) (n : Option ℕ)

/-- `LAB_LEFT`, `LAB_RIGHT` and `LAB_MIDS`: the offset and the length of the part, from the
length of the string. Nothing is returned for a function call error. -/
def Part.window : Part → ℕ → Option (ℕ × ℕ)
  | .left n c,length =>
    if n = 0 then some (c,0) else if n < length then some (0,n) else some (0,length)
  | .right n c,length =>
    if n = 0 then some (c,0) else if n ≤ length then some (length - n,n) else some (0,length)
  | .mid start n,length =>
    if start = 0 then none
    else
      let d0 := start - 1
      let d7 := n.getD 65535
      if length ≤ d0 then some (d0,0)
      else if d7 + d0 < 65536 ∧ d7 + d0 < length then some (d0,d7)
      else some (d0,length - d0)

/-- `LAB_231C`. -/
def part (k : Part) (a0 : ℕ) (b : Store) : Outcome Store StringError ℕ :=
  match k.window (read16 b.ram.byte (a0 + 4)) with
  | none => some (.error .functionCall,b)
  | some (d0,d1) =>
    andThen (allocate d1 b) fun sutill b =>
      let s := popString a0 b
      let t := storeString d1 (s.1 + d0) sutill s.2.2.ram
      pushString t.1 d1 { s.2.2 with ram := t.2.2 }

/-- Literals of the program are used where they are, those of a direct command are copied. -/
inductive Expr where
  | literal (a n : ℕ)
  | direct (a n : ℕ)
  | chr (c : ℕ)
  | place (p : Place)
  | part (k : Part) (e : Expr)
  | concatenate (e e' : Expr)

/-- The descriptor of the value. -/
def eval : Expr → Store → Outcome Store StringError ℕ
  | .literal a n,b => pushString a n b
  | .direct a n,b => copyString a n b
  | .chr c,b => chrs c b
  | .place p,b => findPlace p b
  | .part k e,b => andThen (eval e b) fun a0 b => part k a0 b
  | .concatenate e e',b =>
    andThen (eval e b) fun a0 b => andThen (eval e' b) fun a1 b => concatenate a0 a1 b

/-- `LAB_1811`: the descriptor at `a0` is stored at `a2`. -/
def assignString (a2 a0 : ℕ) (b : Store) : Store :=
  let ram := poke32 a2 (read32 b.ram.byte a0) b.ram
  { b with
    a4 := if a0 = b.a4 then b.a4 + 6 else b.a4
    ram := pokeBytes (a2 + 4) [ram.byte (a0 + 4),ram.byte (a0 + 5)] ram }

/-- `LAB_17D6`, with the address of a variable in `a2`. The string of another variable is
copied, from where it was before the space for the copy was made. -/
def letString (a2 a0 : ℕ) (b : Store) : Outcome Store StringError Unit :=
  let a1 := read32 b.ram.byte a0
  let copied :=
    if a1 < b.sstorl ∨ a0 < b.sfncl then some (.ok a0,b)
    else copyString a1 (read16 b.ram.byte (a0 + 4)) b
  andThen copied fun a0 b => some (.ok (),assignString a2 a0 b)

end Betawise.BasicStrings
