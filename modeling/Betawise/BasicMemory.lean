import Betawise.LoggedRam
import Mathlib.Data.Int.Notation

/-!
# The memory of the BASIC interpreter

Program text grows upwards from `prg_strt` and strings downwards from `Ememl`. The
pointers of `EhBASIC.inc` are fields, and the bytes they point to are a RAM that
records its writes. Loops over the program return nothing when they run out of
fuel. Keyword crunching is left out: a line is entered with its crunched text.
-/
namespace Betawise.BasicMemory
open LoggedRam

/-- The variables in front of `prg_strt`: seven vectors, 19 long words from `Itemp`
to `Lvarpl`, the descriptor stack, the input buffer, the accumulators and utility
words, the byte variables, and the file and stack words. -/
def prgStrt : ℕ :=
  7 * 6 + 19 * 4 + (6 * 4 + 2) + 0x40 * 4 + (4 + 2 + 2 + 8 + 4 + 4 + 8 + 4 + 2) +
    (4 * 4 + 6 + 2 + 8 + 2) + 20 + (4 + 4) + 2

/-- `ram_size`. The `.org` pads the section to this size from `ram_base`. -/
def ramSize : ℕ := 0x1000

/-- A string descriptor. -/
structure Descriptor where
  pointer : ℕ
  length : ℕ

/-- `stack` is the descriptor stack from the newest descriptor on. -/
structure Basic where
  ram : Ram
  smeml : ℕ
  sfncl : ℕ
  svarl : ℕ
  sstrl : ℕ
  sarryl : ℕ
  earryl : ℕ
  sstorl : ℕ
  ememl : ℕ
  stack : List Descriptor

inductive Outcome where
  | done
  | outOfMemory
  | stringTooComplex
  deriving DecidableEq, Repr

/-! ### Cold start -/

/-- The end of the program, of the functions, variables, strings and arrays. -/
def setEnd (e : ℕ) (b : Basic) : Basic :=
  { b with sfncl := e, svarl := e, sstrl := e, sarryl := e, earryl := e }

/-- `LAB_1477`: variables and strings are cleared and the stacks flushed. -/
def clear (b : Basic) : Basic := { setEnd b.sfncl b with sstorl := b.ememl, stack := [] }

/-- `LAB_1463`. -/
def new (b : Basic) : Basic :=
  clear { b with ram := poke32 b.smeml 0 b.ram, sfncl := b.smeml + 4 }

/-- `LAB_COLD`: the end of memory is counted from `prg_strt`. -/
def coldStart (ramBase : ℕ) (byte : ℕ → ℕ) : Basic :=
  let start := ramBase + prgStrt
  new
    { ram := pokeBytes (start - 2) [0,0] ⟨byte,[]⟩
      smeml := start
      sfncl := 0
      svarl := 0
      sstrl := 0
      sarryl := 0
      earryl := 0
      sstorl := 0
      ememl := start + ramSize
      stack := [] }

/-! ### Program lines -/

/-- A long word as a signed number. -/
def signed32 (n : ℕ) : ℤ := if n < 2147483648 then n else (n : ℤ) - 4294967296

/-- `LAB_SSLN` and `LAB_SCLN`: whether the line exists, and where it is or would be. The
branch that goes on is a signed one, while the carry that tells a line that was found is
that of the unsigned comparison. -/
def searchLine (byte : ℕ → ℕ) (number : ℕ) : ℕ → ℕ → Option (Bool × ℕ)
  | 0,_ => none
  | fuel + 1,a =>
    if read32 byte a = 0 then some (false,a)
    else if signed32 (read32 byte (a + 4)) < signed32 number then
      searchLine byte number fuel (read32 byte a)
    else some (decide (read32 byte (a + 4) ≤ number),a)

/-- The first part of `LAB_1295`: the rest of the program moves down over the line. -/
def deleteLine (a : ℕ) (b : Basic) : Basic :=
  let block := read32 b.ram.byte a
  let words := (b.sfncl - block) / 2
  setEnd (a + 2 * words) { b with ram := copyUp words block a b.ram }

/-- The crunched line in the input buffer: its end mark, and a pad byte that makes
the length even. -/
def lineBuffer (text : List ℕ) : List ℕ :=
  text ++ [0] ++ if text.length % 2 = 0 then [0] else []

/-- `LAB_12E6`: the rest of the program moves up and the line is copied in. The next
line pointer is only marked as not null. There is no test for room. -/
def insertLine (a number : ℕ) (text : List ℕ) (b : Basic) : Basic :=
  let top := b.sfncl + (lineBuffer text).length + 8
  let ram := copyDown ((b.sfncl - a) / 2) b.sfncl top b.ram
  let ram := poke32 (a + 4) number (poke32 a 0xFFFFFFFF ram)
  setEnd top { b with ram := pokeBytes (a + 8) (lineBuffer text) ram, sstorl := b.ememl }

/-- `LAB_1330`: the address past the next null byte. -/
def skipText (byte : ℕ → ℕ) : ℕ → ℕ → Option ℕ
  | 0,_ => none
  | fuel + 1,a => if byte a = 0 then some (a + 1) else skipText byte fuel (a + 1)

/-- `LAB_1325` and `LAB_132E`: each line from `a` on gets its pointer to the next. -/
def rechain : ℕ → ℕ → Ram → Option Ram
  | 0,_,_ => none
  | fuel + 1,a,r =>
    if read32 r.byte a = 0 then some r
    else
      match skipText r.byte (fuel + 1) (a + 8) with
      | none => none
      | some e => rechain fuel (e + e % 2) (poke32 a (e + e % 2) r)

/-- The program after the search: an existing line of the number is deleted, and the
new line is inserted unless it is empty. -/
def replaceLine (found : Bool) (a number : ℕ) (text : List ℕ) (b : Basic) : Basic :=
  let b := if found then deleteLine a b else b
  if text = [] then b else insertLine a number text b

/-- `LAB_1295`. -/
def enterLine (number : ℕ) (text : List ℕ) (b : Basic) : Option Basic :=
  match searchLine b.ram.byte number (b.sfncl - b.smeml) b.smeml with
  | none => none
  | some (found,a) =>
    let b := replaceLine found a number text b
    match rechain (b.sfncl - b.smeml) a b.ram with
    | none => none
    | some ram => some (clear { b with ram := ram })

/-! ### Strings -/

/-- The length in whole words; 65535 makes 65536. -/
def evenLength (n : ℕ) : ℕ := n + n % 2

/-- Subtraction of 32-bit numbers. -/
def sub32 (a n : ℕ) : ℕ := if n ≤ a then a - n else a + 4294967296 - n

/-- `LAB_2117`, with an unsigned comparison. -/
def tryReserve (length : ℕ) (b : Basic) : Option (ℕ × Basic) :=
  let a := sub32 b.sstorl length
  if a < b.earryl then none else some (a,{ b with sstorl := a })

/-- One scan of the garbage collection: the highest uncollected string so far, the
descriptor to move, and the bottom of the strings already in place. -/
structure Scan where
  highest : ℕ
  move : Option ℕ
  sstorl : ℕ

/-- `LAB_2206` for descriptor `i`. The negated word of a null length is 0, so that
its sign extension counts as 65536. -/
def scanDescriptor (i : ℕ) (d : Descriptor) (c : Scan) : Scan :=
  if d.pointer = 0 ∨ d.pointer ≤ c.highest ∨ c.sstorl ≤ d.pointer then c
  else
    let length := if d.length = 0 then 65536 else evenLength d.length
    let packed := sub32 c.sstorl length
    if packed = d.pointer then { c with sstorl := packed }
    else { c with highest := d.pointer, move := some i }

def scanStack : ℕ → List Descriptor → Scan → Scan
  | _,[],c => c
  | i,d::ds,c => scanStack (i + 1) ds (scanDescriptor i d c)

/-- The highest uncollected string is moved up to the strings in place. -/
def moveString (i : ℕ) (b : Basic) : Basic :=
  match b.stack[i]? with
  | none => b
  | some d =>
    let length := evenLength d.length
    let top := d.pointer + length
    if top = b.sstorl then { b with sstorl := d.pointer }
    else
      { b with
        ram := copyDown (length / 2) top b.sstorl b.ram
        stack := b.stack.set i { d with pointer := b.sstorl - length }
        sstorl := b.sstorl - length }

/-- `LAB_214B`: one string is moved in each scan. No variables stand between entered
lines and allocations, so that the descriptors are those of the stack. -/
def collect : ℕ → Basic → Option Basic
  | 0,_ => none
  | fuel + 1,b =>
    let c := scanStack 0 b.stack ⟨b.earryl,none,b.sstorl⟩
    match c.move with
    | none => some { b with sstorl := c.sstorl }
    | some i => collect fuel (moveString i { b with sstorl := c.sstorl })

/-- `LAB_GARB`. -/
def garbageCollect (b : Basic) : Option Basic :=
  collect (b.stack.length + 1) { b with sstorl := b.ememl }

/-- `LAB_2115` for a length other than 0: one retry, after a garbage collection. -/
def makeSpace (length : ℕ) (b : Basic) : Option (Option ℕ × Basic) :=
  match tryReserve (evenLength length) b with
  | some (a,b) => some (some a,b)
  | none =>
    match garbageCollect b with
    | none => none
    | some b =>
      match tryReserve (evenLength length) b with
      | some (a,b) => some (some a,b)
      | none => some (none,b)

/-- An error flushes the descriptor stack before the warm start. -/
def warmStart (error : Outcome) (b : Basic) : Outcome × Basic := (error,{ b with stack := [] })

/-- `LAB_RTST`: the stack holds four descriptors. -/
def pushDescriptor (d : Descriptor) (b : Basic) : Outcome × Basic :=
  if b.stack.length = 4 then warmStart .stringTooComplex b
  else (.done,{ b with stack := d::b.stack })

/-- `LAB_20C9`: a string is given space, copied there and pushed. -/
def allocate (content : List ℕ) (b : Basic) : Option (Outcome × Basic) :=
  if content = [] then some (pushDescriptor ⟨0,0⟩ b)
  else
    match makeSpace content.length b with
    | none => none
    | some (none,b) => some (warmStart .outOfMemory b)
    | some (some a,b) =>
      some (pushDescriptor ⟨a,content.length⟩ { b with ram := pokeBytes a content b.ram })

/-- `LAB_22BA` for the newest descriptor: the lowest string is given back. -/
def popDescriptor (b : Basic) : Basic :=
  match b.stack with
  | [] => b
  | d::ds =>
    { b with
      stack := ds
      sstorl := if d.pointer = b.sstorl then b.sstorl + evenLength d.length else b.sstorl }

/-! ### Events -/

inductive Event where
  | enter (number : ℕ) (text : List ℕ)
  | allocate (content : List ℕ)
  | pop

def step (b : Basic) : Event → Option (Outcome × Basic)
  | .enter number text => (enterLine number text b).map fun b => (.done,b)
  | .allocate content => BasicMemory.allocate content b
  | .pop => some (.done,popDescriptor b)

/-- The state after an event; a loop that does not end has no next state. -/
def next (b : Basic) (e : Event) : Basic :=
  match step b e with
  | none => b
  | some (_,b') => b'

/-- `prg_strt` is 502 bytes behind `ram_base`. -/
theorem prgStrt_eq : prgStrt = 502 := rfl

end Betawise.BasicMemory
