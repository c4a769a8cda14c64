import Betawise.ByteMemory
import Betawise.TerminalScroll
import Mathlib.Data.Int.Notation
import Mathlib.Logic.Function.Basic

/-!
# The debugging tool

The memory editor of `DebugTool.c` over the terminal library. The tool's variables
are fields apart from the memory, which holds `g_scratch` since the tool shows and
edits it. The firmware's cursor is the library's field `cursor` and not memory either:
of its sixteen bytes at `CURSOR_STRUCT` the model says nothing. Strings are the bytes
before their terminator. What the user and the firmware do in a dialog comes with the
event that opens it.
-/
namespace Betawise.DebugTool
open Os3kState Os3kTerminal TerminalScroll ByteMemory

/-- `Mode_e`. -/
inductive Mode where
  | nibbleHi
  | nibbleLo
  | ascii
  deriving DecidableEq, Repr

/-- The firmware, the bus and the addresses of the tool's own objects. A store to
an address that is not writable changes nothing; a read that faults leaves garbage. -/
structure Machine where
  fw : Firmware
  hwLevel : ℕ
  rowCount : ℕ
  faults : Addr → Bool
  writable : Addr → Bool
  garbage : Addr → BitVec 8
  busErrorHandler : Addr
  scratch : Addr
  rawSysCall : Addr
  field : Fin 7 → Addr
  prompt : Addr

/-- The variables that say what the screen shows and where the cursor is. -/
structure Navigation where
  pAddress : Addr
  pPrevAddress : Addr
  mode : Mode
  cursor : ℤ
  rowsPerScreen : ℕ
  bytesPerScreen : ℕ

/-- `buffer i` is the string behind the leading blank of `g_buffer[i]`. -/
structure Tool extends Navigation where
  os3k : Os3k
  memory : Memory
  prevBusErrorHandler : BitVec 32
  busError : Bool
  rawSysCall : BitVec 16
  isAS3000 : Bool
  buffer : Fin 7 → List ℕ

/-- Conversion to `char`, which is signed. -/
def s8 (z : ℤ) : ℤ := (z + 128) % 256 - 128

/-- `a & b`, `a | b` and `~a` for `int`. -/
def intAnd (a b : ℤ) : ℤ := (BitVec.ofInt 32 a &&& BitVec.ofInt 32 b).toInt
def intOr (a b : ℤ) : ℤ := (BitVec.ofInt 32 a ||| BitVec.ofInt 32 b).toInt
def intNot (a : ℤ) : ℤ := (~~~BitVec.ofInt 32 a).toInt

/-- A library or firmware call that only concerns the display. -/
def draw (f : Os3k → Os3k) (s : Tool) : Tool := { s with os3k := f s.os3k }

/-! ### Memory behind the bus-error handler -/

/-- A byte of `CURSOR_STRUCT`, where every move of the cursor and every character leaves
its position: the library's variable, but in memory that the tool can show and edit. -/
def InCursorStruct (x : Addr) : Prop := (x - 0x5C68).toNat < 16

instance (x : Addr) : Decidable (InCursorStruct x) := inferInstanceAs (Decidable (_ < _))

def installBusErrorHandler (m : Machine) (s : Tool) : Tool :=
  { s with
    prevBusErrorHandler := load32 s.memory 8
    memory := store32 s.memory 8 m.busErrorHandler }

def uninstallBusErrorHandler (s : Tool) : Tool :=
  { s with memory := store32 s.memory 8 s.prevBusErrorHandler }

def readByte (m : Machine) (a : Addr) (s : Tool) : BitVec 8 × Tool :=
  if m.faults a then (m.garbage a,{ s with busError := true }) else (s.memory a,s)

def writeByte (m : Machine) (a : Addr) (b : BitVec 8) (s : Tool) : Tool :=
  if m.faults a then { s with busError := true }
  else if m.writable a then { s with memory := store8 s.memory a b }
  else s

/-- A long word; the value of a faulting read is not used. -/
def readLong (m : Machine) (a : Addr) (s : Tool) : BitVec 32 × Tool :=
  if m.faults a || m.faults (a + 1) || m.faults (a + 2) || m.faults (a + 3) then
    (0,{ s with busError := true })
  else (load32 s.memory a,s)

/-- The address under the cursor. -/
def current (s : Navigation) : Addr := s.pAddress + BitVec.ofInt 32 s.cursor

/-! ### The dump -/

/-- An upper-case hexadecimal digit. -/
def hexDigit (n : ℕ) : ℕ := if n < 10 then 48 + n else 55 + n

/-- The last `count` hexadecimal digits of a number. -/
def hexText : ℕ → ℕ → List ℕ
  | 0,_ => []
  | count + 1,n => hexText count (n / 16) ++ [hexDigit (n % 16)]

/-- `"%08X "`, or `"%-08.7X"` on the AlphaSmart 3000. -/
def addressText (isAS3000 : Bool) (a : Addr) : List ℕ :=
  if isAS3000 then
    if a.toNat < 0x10000000 then hexText 7 a.toNat ++ [0x20] else hexText 8 a.toNat
  else hexText 8 a.toNat ++ [0x20]

/-- Two multiply signs, or `"%02X "`. -/
def byteHexText (c : BitVec 8) (error : Bool) : List ℕ :=
  if error then [0xD7,0xD7,0x20] else hexText 2 c.toNat ++ [0x20]

/-- A multiply sign, a small dot, or the character itself. -/
def byteAsciiText (isAS3000 : Bool) (c : BitVec 8) (error : Bool) : ℕ :=
  if error then 0xD7
  else if c.toNat < 0x20 then if isAS3000 then 0x08 else 0xB7
  else c.toNat

def dumpSetCursor (m : Machine) (offset : ℤ) (mode : Mode) (cursorMode : CursorMode) (s : Tool) :
    Tool :=
  let row := 1 + (s8 offset).tdiv 8
  let col := (s8 offset).tmod 8
  let col := match mode with
    | .ascii => col + 8 * 3
    | .nibbleLo => col * 3 + 1
    | .nibbleHi => col * 3
  let col := col + if s.isAS3000 then 9 else 12
  draw (setCursor m.fw (u8 row) (u8 col) cursorMode) s

def dumpSetCursorCur (m : Machine) (s : Tool) : Tool := dumpSetCursor m s.cursor s.mode .shown s

def dumpRedrawByteHex (m : Machine) (c : BitVec 8) (error : Bool) (s : Tool) : Tool :=
  draw (fun o => (puts m.fw (byteHexText c error) o).2) s

/-- The firmware's own `PutChar`. -/
def os3kPutChar (c : ℕ) (o : Os3k) : Os3k := { o with trace := .putChar c :: o.trace }

def dumpRedrawByteAscii (m : Machine) (c : BitVec 8) (error : Bool) (s : Tool) : Tool :=
  let c := byteAsciiText s.isAS3000 c error
  if s.isAS3000 then draw (os3kPutChar c) s else draw (fun o => (putchar m.fw c o).2) s

def dumpWriteAndRedrawCur (m : Machine) (value mask : BitVec 8) (s : Tool) : Tool :=
  let p := current s.toNavigation
  let old := readByte m p { installBusErrorHandler m s with busError := false }
  let s := if mask = 0 ∨ old.2.busError = false
    then writeByte m p ((old.1 &&& mask) ||| value) old.2 else old.2
  let c := readByte m p { s with busError := false }
  let s := uninstallBusErrorHandler c.2
  let s := dumpSetCursor m s.cursor .nibbleHi .hide s
  let s := dumpRedrawByteHex m c.1 s.busError s
  let s := dumpSetCursor m s.cursor .ascii .hide s
  dumpRedrawByteAscii m c.1 s.busError s

/-- The bytes of a row, each with its bus-error flag. -/
def readRow (m : Machine) : ℕ → Addr → Tool → List (BitVec 8 × Bool) × Tool
  | 0,_,s => ([],s)
  | n + 1,a,s =>
    let c := readByte m a { s with busError := false }
    let rest := readRow m n (a + 1) c.2
    ((c.1,c.2.busError)::rest.1,rest.2)

def dumpRedrawRow (m : Machine) (row : ℕ) (a : Addr) (s : Tool) : Tool :=
  let s := draw (setCursor m.fw row (if s.isAS3000 then 1 else 3) .hide) s
  let s := draw (fun o => (puts m.fw (addressText s.isAS3000 a) o).2) s
  let r := readRow m 8 a s
  let s := r.1.foldl (fun s c => dumpRedrawByteHex m c.1 c.2 s) r.2
  r.1.foldl (fun s c => dumpRedrawByteAscii m c.1 c.2 s) s

def dumpRedrawRows (m : Machine) : ℕ → ℕ → Addr → Tool → Tool
  | 0,_,_,s => s
  | n + 1,row,a,s => dumpRedrawRows m n (row + 1) (a + 8) (dumpRedrawRow m row a s)

def dumpRedrawScreen (m : Machine) (s : Tool) : Tool :=
  let s := installBusErrorHandler m s
  let s := dumpRedrawRows m s.rowsPerScreen 1 s.pAddress s
  dumpSetCursorCur m (uninstallBusErrorHandler s)

def dumpMoveCursor (m : Machine) (cursor : ℤ) (s : Tool) : Tool :=
  let cursor := s8 cursor
  if cursor < 0 then
    dumpRedrawScreen m { s with pAddress := s.pAddress - 8, cursor := cursor + 8 }
  else if cursor ≥ s.bytesPerScreen then
    dumpRedrawScreen m { s with pAddress := s.pAddress + 8, cursor := cursor - 8 }
  else dumpSetCursorCur m { s with cursor := cursor }

def dumpSetAddress (addr : Addr) (s : Tool) : Tool :=
  { s with
    pPrevAddress := current s.toNavigation
    pAddress := addr &&& ~~~7
    cursor := (addr &&& 7).toNat
    mode := if s.mode = .nibbleLo then .nibbleHi else s.mode }

/-! ### Numbers -/

/-- The value of a hexadecimal digit of either case. -/
def hexCharToNibble (c : ℕ) : Option ℕ :=
  if 48 ≤ c ∧ c ≤ 57 then some (c - 48)
  else if 65 ≤ c ∧ c ≤ 70 then some (c - 65 + 10)
  else if 97 ≤ c ∧ c ≤ 102 then some (c - 97 + 10)
  else none

def hexDigits (n : BitVec 32) : List ℕ → BitVec 32 × List ℕ
  | [] => (n,[])
  | c::cs =>
    match hexCharToNibble c with
    | none => (n,c::cs)
    | some d => hexDigits ((n <<< 4) ||| BitVec.ofNat 32 d) cs

def decDigits (n : BitVec 32) : List ℕ → BitVec 32 × List ℕ
  | [] => (n,[])
  | c::cs =>
    if c < 48 ∨ 57 < c then (n,c::cs) else decDigits (n * 10 + BitVec.ofNat 32 (c - 48)) cs

def tolower (c : ℕ) : ℕ := if 65 ≤ c ∧ c ≤ 90 then c + 32 else c

/-- The number at the head of a string, hexadecimal behind `0x`, and the rest. -/
def digits : List ℕ → BitVec 32 × List ℕ
  | c::d::cs => if c = 48 ∧ tolower d = 120 then hexDigits 0 cs else decDigits 0 (c::d::cs)
  | cs => decDigits 0 cs

/-- The system call of number `n`. -/
def sysCallOpcode (n : BitVec 32) : BitVec 16 := 0xA000 ||| ((n <<< 2) &&& 0x7FC).setWidth 16

/-- The number if the string is one, and the opcode that a string with `!` stores
in `g_rawSysCall` whether it is a number or not. -/
structure Parsed where
  number : Option (BitVec 32)
  opcode : Option (BitVec 16)

/-- `NumberFromString` for a string at address `p`: `$` makes the rest a string
literal, `!` a system call, and a last `+` an offset into the scratch area. -/
def numberFromString (m : Machine) (p : Addr) (str : List ℕ) : Parsed :=
  if str.head? = some 0x24 then ⟨some (p + 1),none⟩
  else if str.head? = some 0x21 then
    let r := digits str.tail
    ⟨if r.2 = [] then some m.rawSysCall else none,some (sysCallOpcode r.1)⟩
  else
    let r := digits str
    if r.2.head? = some 0x2B then ⟨if r.2.tail = [] then some (r.1 + m.scratch) else none,none⟩
    else ⟨if r.2 = [] then some r.1 else none,none⟩

/-- The write that parsing makes. -/
def storeOpcode (p : Parsed) (s : Tool) : Tool :=
  match p.opcode with
  | none => s
  | some opcode => { s with rawSysCall := opcode }

/-! ### Dialogs -/

/-- What firmware calls may leave on the LCD; the start lines are not theirs. -/
structure Scribble where
  ram : Ram
  cursor : Cursor
  cursorMode : CursorMode

def scribble (k : Scribble) (o : Os3k) : Os3k :=
  { o with lcd := { o.lcd with ram := k.ram }, cursor := k.cursor, cursorMode := k.cursorMode }

/-- `KEY_ESC`. -/
def keyEsc : BitVec 16 := 0x48

/-- `key & ~KEY_MOD_CAPS_LOCK`. -/
def withoutCapsLock (key : BitVec 16) : BitVec 16 := key &&& ~~~0x0200

/-- One round of the invoke dialog: the key that ends it, the item chosen (the last
one is the call), and the text left in a field, entered or escaped from. The code
that is called may leave anything in memory and in the library's variables. -/
structure Round where
  scribble : Scribble
  key : BitVec 16
  choice : Fin 8
  text : List ℕ
  escaped : Bool
  calledOs3k : Os3k
  calledMemory : Memory

/-- The texts entered at the prompt for an address, the rounds of the invoke dialog,
and what stands on the LCD at the end. Both loops are left with `KEY_ESC` when there
is nothing more. -/
structure Dialogs where
  prompts : List (Scribble × List ℕ)
  rounds : List Round
  last : Scribble

/-- The loop of Ctrl+G. -/
def goToLoop (m : Machine) (last : Scribble) : List (Scribble × List ℕ) → Tool → Tool
  | [],s => draw (scribble last) s
  | (k,text)::ps,s =>
    let p := numberFromString m m.prompt text
    let s := storeOpcode p (draw (scribble k) s)
    match p.number with
    | none => goToLoop m last ps s
    | some addr => dumpSetAddress addr s

/-- Field `i` as it is parsed in the dialog. -/
def parseField (m : Machine) (buffer : Fin 7 → List ℕ) (i : Fin 7) : Parsed :=
  numberFromString m (m.field i) (buffer i)

/-- All seven fields are parsed in order. -/
def storeOpcodes (m : Machine) (s : Tool) : Tool :=
  (List.finRange 7).foldl (fun s i => storeOpcode (parseField m s.buffer i) s) s

/-- The call of the dialog: the address called, the arguments, and the word that
`g_rawSysCall` holds at that time. -/
structure Invocation where
  target : BitVec 32
  args : List (BitVec 32)
  rawSysCall : BitVec 16

/-- The field of the function. -/
def functionField : Fin 7 := 0

/-- The fields of the arguments in the order of the call. -/
def argFields : List (Fin 7) := [2,4,6,1,3,5]

/-- The call with `stack` as the parsed fields. -/
def invocation (stack : Fin 7 → BitVec 32) (s : Tool) : Invocation :=
  ⟨stack functionField,argFields.map stack,s.rawSysCall⟩

/-- A field is edited, and parsed if the new text was entered. -/
def editField (m : Machine) (i : Fin 7) (text : List ℕ) (escaped : Bool) (s : Tool) : Tool :=
  let s := { s with buffer := Function.update s.buffer i text }
  if escaped then s else storeOpcode (parseField m s.buffer i) s

/-- The loop of Ctrl+I, up to the call if there is one. -/
def invokeLoop (m : Machine) (last : Scribble) : List Round → Tool → Option Invocation × Tool
  | [],s => (none,draw (scribble last) (storeOpcodes m s))
  | r::rs,s =>
    let s := draw (scribble r.scribble) (storeOpcodes m s)
    if withoutCapsLock r.key = keyEsc then (none,s)
    else if h : r.choice.val < 7 then
      invokeLoop m last rs (editField m ⟨r.choice.val,h⟩ r.text r.escaped s)
    else if ∀ i, (parseField m s.buffer i).number.isSome then
      (some (invocation (fun i => (parseField m s.buffer i).number.getD 0) s),
        { s with os3k := r.calledOs3k, memory := r.calledMemory })
    else invokeLoop m last rs s

/-! ### Messages -/

/-- The cases of `MSG_KEY`. -/
inductive Key where
  | left
  | right
  | up
  | ctrlUp
  | down
  | ctrlDown
  | home
  | ctrlHome
  | endKey
  | ctrlEnd
  | ctrlI
  | ctrlG
  | ctrlShiftG
  | backspace
  | ctrlR
  | clearFile
  | ctrlCmdB
  | other
  deriving DecidableEq, Repr

def keyModCtrl : ℕ := 0x8000
def keyModCmd : ℕ := 0x4000
def keyModRightShift : ℕ := 0x0800
def keyModLeftShift : ℕ := 0x0400

/-- The key codes of `os3k.h`, with the modifiers of each case. -/
def keyTable : List (ℕ × Key) :=
  [(0x49,.left),(0x4A,.right),(0x4B,.up),(keyModCtrl ||| 0x4B,.ctrlUp),(0x0D,.down),
    (keyModCtrl ||| 0x0D,.ctrlDown),(0x1F,.home),(keyModCtrl ||| 0x1F,.ctrlHome),
    (0x3E,.endKey),(keyModCtrl ||| 0x3E,.ctrlEnd),(keyModCtrl ||| 0x1C,.ctrlI),
    (keyModCtrl ||| 0x10,.ctrlG),(keyModCtrl ||| keyModLeftShift ||| 0x10,.ctrlShiftG),
    (keyModCtrl ||| keyModRightShift ||| 0x10,.ctrlShiftG),(0x03,.backspace),
    (keyModCtrl ||| 0x23,.ctrlR),(0x34,.clearFile),
    (keyModCtrl ||| keyModCmd ||| 0x4E,.ctrlCmdB)]

/-- `param & ~KEY_MOD_CAPS_LOCK` as a case. -/
def decodeKey (param : BitVec 32) : Key :=
  (keyTable.lookup (param &&& ~~~0x0200).toNat).getD .other

inductive Event where
  | char (param : BitVec 32)
  | key (param : BitVec 32) (dialogs : Dialogs)

/-- `MSG_CHAR`. -/
def processChar (m : Machine) (param : BitVec 32) (s : Tool) : Tool :=
  let c := param.setWidth 8
  if param = 0x09 then
    dumpSetCursorCur m { s with mode := if s.mode = .ascii then .nibbleHi else .ascii }
  else if param = 0x0D then s
  else
    match s.mode with
    | .nibbleHi =>
      match hexCharToNibble c.toNat with
      | none => s
      | some nibble =>
        let s := dumpWriteAndRedrawCur m (BitVec.ofNat 8 nibble <<< 4) 0x0F s
        dumpSetCursorCur m { s with mode := .nibbleLo }
    | .nibbleLo =>
      match hexCharToNibble c.toNat with
      | none => s
      | some nibble =>
        let s := dumpWriteAndRedrawCur m (BitVec.ofNat 8 nibble) 0xF0 s
        dumpMoveCursor m (s.cursor + 1) { s with mode := .nibbleHi }
    | .ascii =>
      let s := dumpWriteAndRedrawCur m c 0x00 s
      dumpMoveCursor m (s.cursor + 1) s

/-- Ctrl+Shift+G on an even address. -/
def followPointer (m : Machine) (s : Tool) : Tool :=
  let r := readLong m (current s.toNavigation)
    { installBusErrorHandler m s with busError := false }
  let s := uninstallBusErrorHandler r.2
  dumpRedrawScreen m (if s.busError then s else dumpSetAddress r.1 s)

/-- `MSG_KEY`. -/
def processKey (m : Machine) (d : Dialogs) (s : Tool) : Key → Tool
  | .left =>
    match s.mode with
    | .nibbleLo => dumpSetCursorCur m { s with mode := .nibbleHi }
    | .nibbleHi => dumpMoveCursor m (s.cursor - 1) { s with mode := .nibbleLo }
    | .ascii => dumpMoveCursor m (s.cursor - 1) s
  | .right =>
    match s.mode with
    | .nibbleHi => dumpSetCursorCur m { s with mode := .nibbleLo }
    | .nibbleLo => dumpMoveCursor m (s.cursor + 1) { s with mode := .nibbleHi }
    | .ascii => dumpMoveCursor m (s.cursor + 1) s
  | .up => dumpMoveCursor m (s.cursor - 8) s
  | .ctrlUp =>
    dumpRedrawScreen m { s with pAddress := s.pAddress - BitVec.ofNat 32 s.bytesPerScreen }
  | .down => dumpMoveCursor m (s.cursor + 8) s
  | .ctrlDown =>
    dumpRedrawScreen m { s with pAddress := s.pAddress + BitVec.ofNat 32 s.bytesPerScreen }
  | .home => dumpMoveCursor m (intAnd s.cursor (intNot 7)) s
  | .ctrlHome => dumpMoveCursor m (intAnd s.cursor (intNot (s.bytesPerScreen - 1))) s
  | .endKey => dumpMoveCursor m (intOr s.cursor 7) s
  | .ctrlEnd => dumpMoveCursor m (intOr s.cursor (s.bytesPerScreen - 1)) s
  | .ctrlI =>
    dumpRedrawScreen m (invokeLoop m d.last d.rounds (draw (clearScreen m.fw) s)).2
  | .ctrlG => dumpRedrawScreen m (goToLoop m d.last d.prompts s)
  | .ctrlShiftG => if intAnd s.cursor 1 ≠ 0 then s else followPointer m s
  | .backspace => dumpRedrawScreen m (dumpSetAddress s.pPrevAddress s)
  | .ctrlR => dumpRedrawScreen m s
  | .clearFile =>
    dumpRedrawScreen m
      { s with memory := fun x => if (x - m.scratch).toNat < 256 then 0 else s.memory x }
  | .ctrlCmdB => draw (scribble d.last) s
  | .other => s

/-- `ProcessMessage` for the two messages of a user at work. -/
def processMessage (m : Machine) (s : Tool) : Event → Tool
  | .char param => processChar m param s
  | .key param d => processKey m d s (decodeKey param)

/-- `MSG_INIT`. -/
def processInit (m : Machine) (s : Tool) : Tool :=
  { s with
    isAS3000 := decide (m.hwLevel < 2)
    pAddress := 0
    pPrevAddress := 0
    mode := .nibbleHi
    cursor := 0
    buffer := fun _ => [] }

/-- `CallSysInt(0, SYS_INT_GET_ROW_COUNT, ..)`: the library answers if it has a font. -/
def sysIntRowCount (m : Machine) (o : Os3k) : ℕ :=
  match o.pCurFont with
  | none => m.rowCount
  | some _ => o.maxRow

/-- `MSG_SETFOCUS`. -/
def processSetFocus (m : Machine) (s : Tool) : Tool :=
  let rows := u8 (sysIntRowCount m s.os3k)
  dumpRedrawScreen m (draw (clearScreen m.fw)
    { s with rowsPerScreen := rows, bytesPerScreen := u8 (8 * rows) })

/-- The tool after its first two messages; the library sees each of them first. -/
def focused (m : Machine) (s : Tool) : Tool :=
  let s := processInit m (draw (beforeApplet m.fw .init) s)
  processSetFocus m (draw (beforeApplet m.fw .setFocus) s)

/-! ### A Neo -/

/-- A Neo on which no address faults, with the tool's objects high in memory. -/
def neoMachine : Machine where
  fw := neoFirmware
  hwLevel := 2
  rowCount := 4
  faults := fun _ => false
  writable := fun _ => true
  garbage := fun _ => 0
  busErrorHandler := 0x80000
  scratch := 0x70000
  rawSysCall := 0x70100
  field := fun i => 0x70110 + 16 * BitVec.ofNat 32 i
  prompt := 0x7F000

/-- The tool's variables before its first message. -/
def bssTool (memory : Memory) : Tool where
  pAddress := 0
  pPrevAddress := 0
  mode := .nibbleHi
  cursor := 0
  rowsPerScreen := 0
  bytesPerScreen := 0
  os3k := bss ⟨⟨0,false⟩,⟨0,false⟩,fun _ _ => false⟩
  memory := memory
  prevBusErrorHandler := 0
  busError := false
  rawSysCall := 0
  isAS3000 := false
  buffer := fun _ => []

/-- The dialog left at once. -/
def noDialogs : Dialogs := ⟨[],[],⟨fun _ _ => false,⟨none,0,0⟩,.hide⟩⟩

end Betawise.DebugTool
