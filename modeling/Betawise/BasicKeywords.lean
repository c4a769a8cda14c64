import Betawise.WordTable

/-!
# Keywords and tokens

The tables of the crunch routine and of LIST: `TAB_CHRT` gives the table of the
keywords with a first character, the keyword tables at `TAB_STAR` hold the other
characters and the token, and `LAB_KEYT` gives what LIST prints for a token.
-/
namespace Betawise.BasicKeywords
open WordTable

/-- The tokens in the order of their values. -/
inductive Token where
  | END | FOR | NEXT | DATA | INPUT | DIM | READ | LET | DEC | GOTO | RUN | IF | RESTORE | GOSUB
  | RETURN | REM | STOP | ON | NULL | INC | WAIT | LOAD | SAVE | DEF | POKE | DOKE | LOKE | CALL
  | DO | LOOP | PRINT | CONT | LIST | CLEAR | NEW | WIDTH | GET | SWAP | BITSET | BITCLR | TAB
  | ELSE | TO | FN | SPC | THEN | NOT | STEP | UNTIL | WHILE | PLUS | MINUS | MULT | DIV | POWER
  | AND | EOR | OR | RSHIFT | LSHIFT | GT | EQUAL | LT | SGN | INT | ABS | USR | FRE | POS | SQR
  | RND | LOG | EXP | COS | SIN | TAN | ATN | PEEK | DEEK | LEEK | LEN | STRS | VAL | ASC
  | UCASES | LCASES | CHRS | HEXS | BINS | BITTST | MAX | MIN | RAM | PI | TWOPI | VPTR | SADD
  | LEFTS | RIGHTS | MIDS | USINGS
  deriving DecidableEq

/-- `TK_END` is 0x80, and each token is one more than the one before. -/
def Token.code (t : Token) : ℕ := 0x80 + t.ctorIdx

def word (letters : List Char) (t : Token) : Word := ⟨letters.map Char.toNat,t.code⟩

/-- The tables at `TAB_STAR` in their order, each under its first character. -/
def keywordTables : List (Char × List Word) :=
  [
    ('*',[word [] .MULT]),
    ('+',[word [] .PLUS]),
    ('-',[word [] .MINUS]),
    ('/',[word [] .DIV]),
    ('<',[word ['<'] .LSHIFT, word [] .LT]),
    ('=',[word [] .EQUAL]),
    ('>',[word ['>'] .RSHIFT, word [] .GT]),
    ('?',[word [] .PRINT]),
    ('A',[word ['B','S','('] .ABS, word ['N','D'] .AND, word ['S','C','('] .ASC,
      word ['T','N','('] .ATN]),
    ('B',[word ['I','N','$','('] .BINS, word ['I','T','C','L','R'] .BITCLR,
      word ['I','T','S','E','T'] .BITSET, word ['I','T','T','S','T','('] .BITTST]),
    ('C',[word ['A','L','L'] .CALL, word ['H','R','$','('] .CHRS, word ['L','E','A','R'] .CLEAR,
      word ['O','N','T'] .CONT, word ['O','S','('] .COS]),
    ('D',[word ['A','T','A'] .DATA, word ['E','C'] .DEC, word ['E','E','K','('] .DEEK,
      word ['E','F'] .DEF, word ['I','M'] .DIM, word ['O','K','E'] .DOKE, word ['O'] .DO]),
    ('E',[word ['L','S','E'] .ELSE, word ['N','D'] .END, word ['O','R'] .EOR,
      word ['X','P','('] .EXP]),
    ('F',[word ['O','R'] .FOR, word ['N'] .FN, word ['R','E','('] .FRE]),
    ('G',[word ['E','T'] .GET, word ['O','T','O'] .GOTO, word ['O','S','U','B'] .GOSUB]),
    ('H',[word ['E','X','$','('] .HEXS]),
    ('I',[word ['F'] .IF, word ['N','C'] .INC, word ['N','P','U','T'] .INPUT,
      word ['N','T','('] .INT]),
    ('L',[word ['C','A','S','E','$','('] .LCASES, word ['E','E','K','('] .LEEK,
      word ['E','F','T','$','('] .LEFTS, word ['E','N','('] .LEN, word ['E','T'] .LET,
      word ['I','S','T'] .LIST, word ['O','A','D'] .LOAD, word ['O','G','('] .LOG,
      word ['O','K','E'] .LOKE, word ['O','O','P'] .LOOP]),
    ('M',[word ['A','X','('] .MAX, word ['I','D','$','('] .MIDS, word ['I','N','('] .MIN]),
    ('N',[word ['E','W'] .NEW, word ['E','X','T'] .NEXT, word ['O','T'] .NOT,
      word ['U','L','L'] .NULL]),
    ('O',[word ['N'] .ON, word ['R'] .OR]),
    ('P',[word ['E','E','K','('] .PEEK, word ['I'] .PI, word ['O','K','E'] .POKE,
      word ['O','S','('] .POS, word ['R','I','N','T'] .PRINT]),
    ('R',[word ['A','M','B','A','S','E'] .RAM, word ['E','A','D'] .READ, word ['E','M'] .REM,
      word ['E','S','T','O','R','E'] .RESTORE, word ['E','T','U','R','N'] .RETURN,
      word ['I','G','H','T','$','('] .RIGHTS, word ['N','D','('] .RND, word ['U','N'] .RUN]),
    ('S',[word ['A','D','D','('] .SADD, word ['A','V','E'] .SAVE, word ['G','N','('] .SGN,
      word ['I','N','('] .SIN, word ['P','C','('] .SPC, word ['Q','R','('] .SQR,
      word ['T','E','P'] .STEP, word ['T','O','P'] .STOP, word ['T','R','$','('] .STRS,
      word ['W','A','P'] .SWAP]),
    ('T',[word ['A','B','('] .TAB, word ['A','N','('] .TAN, word ['H','E','N'] .THEN,
      word ['O'] .TO, word ['W','O','P','I'] .TWOPI]),
    ('U',[word ['C','A','S','E','$','('] .UCASES, word ['N','T','I','L'] .UNTIL,
      word ['S','I','N','G','$','('] .USINGS, word ['S','R','('] .USR]),
    ('V',[word ['A','L','('] .VAL, word ['A','R','P','T','R','('] .VPTR]),
    ('W',[word ['A','I','T'] .WAIT, word ['H','I','L','E'] .WHILE,
      word ['I','D','T','H'] .WIDTH]),
    ('^',[word [] .POWER])]

/-- The bytes from `TAB_STAR` on. -/
def tabStar : List ℕ := image keywordTables

/-- The characters from `*` to `^`, each with its table if it has keywords. -/
def tabChrt : List (Option Char) :=
  [some '*', some '+', none, some '-', none, some '/', none, none, none, none, none, none, none,
   none, none, none, none, none, some '<', some '=', some '>', some '?', none, some 'A', some 'B',
   some 'C', some 'D', some 'E', some 'F', some 'G', some 'H', some 'I', none, none, some 'L',
   some 'M', some 'N', some 'O', some 'P', none, some 'R', some 'S', some 'T', some 'U', some 'V',
   some 'W', none, none, none, none, none, none, some '^']

/-- For each token the first character, the number of remaining characters less one,
and the keyword whose other characters they are. -/
def labKeyt : List (Char × ℕ × Token) :=
  [('E',1,.END), ('F',1,.FOR), ('N',2,.NEXT), ('D',2,.DATA), ('I',3,.INPUT), ('D',1,.DIM),
   ('R',2,.READ), ('L',1,.LET), ('D',1,.DEC), ('G',2,.GOTO), ('R',1,.RUN), ('I',0,.IF),
   ('R',5,.RESTORE), ('G',3,.GOSUB), ('R',4,.RETURN), ('R',1,.REM), ('S',2,.STOP), ('O',0,.ON),
   ('N',2,.NULL), ('I',1,.INC), ('W',2,.WAIT), ('L',2,.LOAD), ('S',2,.SAVE), ('D',1,.DEF),
   ('P',2,.POKE), ('D',2,.DOKE), ('L',2,.LOKE), ('C',2,.CALL), ('D',0,.DO), ('L',2,.LOOP),
   ('P',3,.PRINT), ('C',2,.CONT), ('L',2,.LIST), ('C',3,.CLEAR), ('N',1,.NEW), ('W',3,.WIDTH),
   ('G',1,.GET), ('S',2,.SWAP), ('B',4,.BITSET), ('B',4,.BITCLR), ('T',2,.TAB), ('E',2,.ELSE),
   ('T',0,.TO), ('F',0,.FN), ('S',2,.SPC), ('T',2,.THEN), ('N',1,.NOT), ('S',2,.STEP),
   ('U',3,.UNTIL), ('W',3,.WHILE), ('+',0xFF,.PLUS), ('-',0xFF,.MINUS), ('*',0xFF,.MULT),
   ('/',0xFF,.DIV), ('^',0xFF,.POWER), ('A',1,.AND), ('E',1,.EOR), ('O',0,.OR), ('>',0,.RSHIFT),
   ('<',0,.LSHIFT), ('>',0xFF,.GT), ('=',0xFF,.EQUAL), ('<',0xFF,.LT), ('S',2,.SGN), ('I',2,.INT),
   ('A',2,.ABS), ('U',2,.USR), ('F',2,.FRE), ('P',2,.POS), ('S',2,.SQR), ('R',2,.RND),
   ('L',2,.LOG), ('E',2,.EXP), ('C',2,.COS), ('S',2,.SIN), ('T',2,.TAN), ('A',2,.ATN),
   ('P',3,.PEEK), ('D',3,.DEEK), ('L',3,.LEEK), ('L',2,.LEN), ('S',3,.STRS), ('V',2,.VAL),
   ('A',2,.ASC), ('U',5,.UCASES), ('L',5,.LCASES), ('C',3,.CHRS), ('H',3,.HEXS), ('B',3,.BINS),
   ('B',5,.BITTST), ('M',2,.MAX), ('M',2,.MIN), ('R',5,.RAM), ('P',0,.PI), ('T',3,.TWOPI),
   ('V',5,.VPTR), ('S',3,.SADD), ('L',4,.LEFTS), ('R',5,.RIGHTS), ('M',3,.MIDS), ('U',5,.USINGS)]

/-! ### Looking a keyword up -/

/-- From `LAB_13D6` on, with the bytes of the table that are still to come. With
`some d4` the loop has matched `d4` characters of a word; with `none` it is at
`LAB_141B` and skips to the end of the word. -/
def scanTable (peek : ℕ → ℕ) : Option ℕ → List ℕ → Option (ℕ × ℕ)
  | _,[] => none
  | some d4,d0::bs =>
    if 0x80 ≤ d0 then some (d0,d4)
    else if peek (d4 + 1) = d0 then scanTable peek (some (d4 + 1)) bs
    else scanTable peek none bs
  | none,d0::bs =>
    if d0 < 0x80 then scanTable peek none bs
    else if bs.head? = some 0 then none
    else scanTable peek (some 0) bs

/-- The token of the keyword that stands next, with the number of its remaining
characters. Nothing is returned outside `TAB_CHRT`. -/
def lookup (peek : ℕ → ℕ) : Option (Option (ℕ × ℕ)) :=
  match tabChrt[peek 0 - 0x2A]? with
  | none => none
  | some none => some none
  | some (some c) => some (scanTable peek (some 0) (tabStar.drop (offset keywordTables c)))

/-- The label in front of a keyword, as an offset from `TAB_STAR`. -/
def keyOffset (c : Char) (t : Token) : ℕ :=
  offset keywordTables c +
    (((tableOf keywordTables c).takeWhile fun w => decide (w.code ≠ t.code)).flatMap
      encodeWord).length

/-- What LIST prints for a token. Nothing is returned past the end of `LAB_KEYT`. -/
def uncrunch (token : ℕ) : Option (List ℕ) :=
  match labKeyt[token % 128]? with
  | none => none
  | some (c,n,t) =>
    some (c.toNat::if n < 0x80 then (tabStar.drop (keyOffset c t)).take (n + 1) else [])

/-! ### The tables agree with each other -/

/-- The entry for a character is the table of this character. -/
def Labelled (i : ℕ) (l : Option Char) : Bool :=
  l.all fun c => decide (c.toNat = 0x2A + i) && keywordTables.any fun t => t.1 == c

theorem tabChrt_labelled : ∀ i < 53, Labelled i (tabChrt.getD i none) = true := by
  decide +kernel

theorem tabChrt_label {i : ℕ} {c : Char} (h : tabChrt[i]? = some (some c)) :
    c.toNat = 0x2A + i ∧ ∃ t ∈ keywordTables, t.1 = c := by
  obtain ⟨hlt,-⟩ := List.getElem?_eq_some_iff.mp h
  have hall := tabChrt_labelled i hlt
  rw [List.getD_eq_getElem?_getD, h] at hall
  simpa [Labelled, List.any_eq_true] using hall

theorem tables_wellFormed : ∀ t ∈ keywordTables,
    t.2 ≠ [] ∧ (∀ w ∈ t.2, WellFormed w) ∧ LongestFirst t.2 := by
  decide +kernel

def printSpelling : List ℕ := ['P','R','I','N','T'].map Char.toNat

/-- How LIST spells a keyword with its first character. -/
def spelling (c : Char) (w : Word) : List ℕ :=
  if c = '?' then printSpelling else c.toNat::w.letters

theorem uncrunch_code : ∀ t ∈ keywordTables, ∀ w ∈ t.2,
    uncrunch w.code = some (spelling t.1 w) := by
  decide +kernel

/-- The question mark has no other characters. -/
theorem questionMark_letters : ∀ t ∈ keywordTables, t.1 = '?' → ∀ w ∈ t.2, w.letters = [] := by
  decide +kernel

theorem keyword_ascii : ∀ t ∈ keywordTables, 0x2A ≤ t.1.toNat ∧ t.1.toNat < 128 := by
  decide +kernel

/-! ### The scan finds the first word -/

variable {peek peek' : ℕ → ℕ} {w : Word} {ws : List Word}

/-- A table that is not at its end does not start with a null. -/
theorem head_encode (hws : ∀ w ∈ ws, WellFormed w) (more : List ℕ) :
    (encode ws ++ more).head? = some 0 ↔ ws = [] := by
  cases ws with
  | nil => simp [encode]
  | cons w ws =>
    have hw := hws w List.mem_cons_self
    have hcode : w.code ≠ 0 := by have := hw.code; omega
    rw [encode_cons, List.append_assoc]
    cases hletters : w.letters with
    | nil => simpa using hcode
    | cons c cs =>
      have hc : c ≠ 0 := Nat.ne_of_gt (hw.letters c (by simp [hletters])).1
      simpa using hc

/-- The skip goes on with the word behind the token. -/
theorem scanTable_skip (hw : WellFormed w) (hws : ∀ w ∈ ws, WellFormed w) {cs : List ℕ}
    (hcs : ∀ c ∈ cs, c < 128) (more : List ℕ) :
    scanTable peek none (cs ++ w.code::(encode ws ++ more)) =
      if ws = [] then none else scanTable peek (some 0) (encode ws ++ more) := by
  induction cs with
  | nil =>
    have hcode : ¬ w.code < 0x80 := Nat.not_lt.mpr hw.code
    simp only [List.nil_append, scanTable, if_neg hcode, head_encode hws]
  | cons c cs ih =>
    obtain ⟨hc,hcs⟩ := List.forall_mem_cons.mp hcs
    rw [List.cons_append, scanTable, if_pos hc, ih hcs]

/-- The scan in the middle of a word. -/
theorem scanTable_word (hw : WellFormed w) (hws : ∀ w ∈ ws, WellFormed w) {cs : List ℕ}
    (hcs : ∀ c ∈ cs, c < 128) (d4 : ℕ) (more : List ℕ) :
    scanTable peek (some d4) (cs ++ w.code::(encode ws ++ more)) =
      if Reads (fun i => peek (d4 + 1 + i)) cs then some (w.code,d4 + cs.length)
      else if ws = [] then none else scanTable peek (some 0) (encode ws ++ more) := by
  induction cs generalizing d4 with
  | nil => rw [List.nil_append, scanTable, if_pos hw.code, if_pos reads_nil]; rfl
  | cons c cs ih =>
    obtain ⟨hc,hcs⟩ := List.forall_mem_cons.mp hcs
    have hreads : Reads (fun i => peek (d4 + 1 + i)) (c::cs) ↔
        peek (d4 + 1) = c ∧ Reads (fun i => peek (d4 + 1 + 1 + i)) cs := by
      simp only [reads_cons, Nat.add_assoc, Nat.add_comm 1]
    rw [List.cons_append, scanTable, if_neg (Nat.not_le.mpr hc)]
    by_cases hpeek : peek (d4 + 1) = c
    · have hlength : d4 + 1 + cs.length = d4 + (c::cs).length := by
        rw [List.length_cons]; omega
      simp only [ih hcs, hreads, hpeek, true_and, if_true, hlength]
    · rw [if_neg hpeek, scanTable_skip hw hws hcs, if_neg fun h => hpeek (hreads.mp h).1]

/-- The scan of a whole table. -/
theorem scanTable_encode (hne : ws ≠ []) (hws : ∀ w ∈ ws, WellFormed w) (more : List ℕ) :
    scanTable peek (some 0) (encode ws ++ more) =
      (firstMatch (fun i => peek (i + 1)) ws).map fun w => (w.code,w.letters.length) := by
  induction ws with
  | nil => exact absurd rfl hne
  | cons w ws ih =>
    obtain ⟨hw,hrest⟩ := List.forall_mem_cons.mp hws
    have hletters : ∀ c ∈ w.letters, c < 128 := fun c hc => (hw.letters c hc).2
    rw [encode_cons, List.append_assoc, List.cons_append, scanTable_word hw hrest hletters]
    simp only [Nat.zero_add, Nat.add_comm 1, firstMatch]
    split_ifs with hreads hnil
    · rfl
    · rw [hnil]; rfl
    · exact ih hnil hrest

theorem tableOf_wellFormed {c : Char} (h : ∃ t ∈ keywordTables, t.1 = c) :
    tableOf keywordTables c ≠ [] ∧ (∀ w ∈ tableOf keywordTables c, WellFormed w) ∧
      LongestFirst (tableOf keywordTables c) := by
  have hall := tables_wellFormed
  generalize keywordTables = ts at h hall
  induction ts with
  | nil => simp at h
  | cons t ts ih =>
    rw [tableOf]
    split
    · exact hall t List.mem_cons_self
    · exact ih (by simpa [*] using h) fun u hu => hall u (List.mem_cons_of_mem t hu)

/-- The code finds the first keyword of the character's table. -/
theorem lookup_eq (peek : ℕ → ℕ) :
    lookup peek = (tabChrt[peek 0 - 0x2A]?).map fun l => l.bind fun c =>
      (firstMatch (fun i => peek (i + 1)) (tableOf keywordTables c)).map fun w =>
        (w.code,w.letters.length) := by
  unfold lookup
  cases hget : tabChrt[peek 0 - 0x2A]? with
  | none => rfl
  | some l =>
    cases l with
    | none => rfl
    | some c =>
      have hkey := (tabChrt_label hget).2
      obtain ⟨more,hmore⟩ := drop_offset hkey
      obtain ⟨hne,hwf,-⟩ := tableOf_wellFormed hkey
      simp only [Option.map_some, Option.bind_some]
      rw [tabStar, hmore, scanTable_encode hne hwf]

/-- Of the keywords of the character's table that stand next the code takes the longest,
and it takes none only if none stands there. -/
theorem lookup_longest {peek : ℕ → ℕ} {c : Char} (hc : tabChrt[peek 0 - 0x2A]? = some (some c)) :
    (lookup peek = some none ∧
      ∀ v ∈ tableOf keywordTables c, ¬ Reads (fun i => peek (i + 1)) v.letters) ∨
    ∃ w ∈ tableOf keywordTables c, lookup peek = some (some (w.code,w.letters.length)) ∧
      Reads (fun i => peek (i + 1)) w.letters ∧
      ∀ v ∈ tableOf keywordTables c, Reads (fun i => peek (i + 1)) v.letters →
        v.letters.length ≤ w.letters.length := by
  obtain ⟨-,-,hlong⟩ := tableOf_wellFormed (tabChrt_label hc).2
  rw [lookup_eq, hc]
  simp only [Option.map_some, Option.bind_some]
  cases hfirst : firstMatch (fun i => peek (i + 1)) (tableOf keywordTables c) with
  | none => exact Or.inl ⟨rfl,firstMatch_eq_none.mp hfirst⟩
  | some w =>
    obtain ⟨hmem,hreads⟩ := firstMatch_mem hfirst
    exact Or.inr ⟨w,hmem,rfl,hreads,fun v hv hv' => firstMatch_longest hlong hfirst hv hv'⟩

end Betawise.BasicKeywords
