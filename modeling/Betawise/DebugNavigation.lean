import Betawise.NumberSyntax
import Betawise.TerminalScroll
import Mathlib.Data.List.Basic
import Mathlib.Data.Nat.Bitwise

/-!
# Navigation in the debugging tool

Without its window the tool is an editor with one address, a nibble flag and a
remembered address. The window is a base that is a multiple of 8 and a cursor
offset; every message moves their sum as the editor moves its address, and a step
past either end moves the base by one line.
-/
namespace Betawise.DebugNavigation
open Os3kState Os3kTerminal TerminalScroll ByteMemory HexNotation NumberSyntax DebugTool

/-! ### The windowless editor -/

structure Editor where
  address : Addr
  remembered : Addr
  mode : Mode

/-- What a message asks of the editor; `place` leaves the remembered address alone. -/
inductive Command where
  | stay
  | left
  | right
  | move (distance : Addr)
  | lineStart
  | lineEnd
  | place (address : Addr)
  | goTo (address : Addr)
  | back
  | type (param : BitVec 32)

namespace Editor

def left (e : Editor) : Editor :=
  match e.mode with
  | .nibbleLo => { e with mode := .nibbleHi }
  | .nibbleHi => { e with address := e.address - 1, mode := .nibbleLo }
  | .ascii => { e with address := e.address - 1 }

def right (e : Editor) : Editor :=
  match e.mode with
  | .nibbleHi => { e with mode := .nibbleLo }
  | .nibbleLo => { e with address := e.address + 1, mode := .nibbleHi }
  | .ascii => { e with address := e.address + 1 }

/-- A jump remembers the address it leaves and starts at the high nibble. -/
def goTo (address : Addr) (e : Editor) : Editor :=
  ⟨address,e.address,if e.mode = .ascii then .ascii else .nibbleHi⟩

/-- The characters that are stored: all in ASCII mode, hexadecimal digits else. -/
def Accepts (e : Editor) (param : BitVec 32) : Prop :=
  e.mode = .ascii ∨ (hexValue (param.toNat % 256)).isSome

instance (e : Editor) (param : BitVec 32) : Decidable (e.Accepts param) :=
  inferInstanceAs (Decidable (_ ∨ _))

/-- Tab changes sides, Return does nothing, and what is accepted moves on. -/
def type (param : BitVec 32) (e : Editor) : Editor :=
  if param = 0x09 then { e with mode := if e.mode = .ascii then .nibbleHi else .ascii }
  else if param = 0x0D then e
  else if e.Accepts param then e.right
  else e

def step (e : Editor) : Command → Editor
  | .stay => e
  | .left => e.left
  | .right => e.right
  | .move distance => { e with address := e.address + distance }
  | .lineStart => { e with address := e.address - e.address % 8 }
  | .lineEnd => { e with address := e.address - e.address % 8 + 7 }
  | .place address => { e with address := address }
  | .goTo address => e.goTo address
  | .back => e.goTo e.remembered
  | .type param => e.type param

end Editor

/-- The first text entered at the prompt that stands for a number. -/
def enteredAddress (m : Machine) (prompts : List (Scribble × List ℕ)) : Option Addr :=
  prompts.findSome? fun p => textValue m m.prompt p.2

/-- The long word under the cursor, read with the tool's handler in bytes 8 to 11. -/
def pointer (m : Machine) (s : Tool) : Option Addr :=
  let a := current s.toNavigation
  if a.toNat % 2 ≠ 0 then none
  else if m.faults a || m.faults (a + 1) || m.faults (a + 2) || m.faults (a + 3) then none
  else some (load32 (store32 s.memory 8 m.busErrorHandler) a)

def jump : Option Addr → Command
  | none => .stay
  | some v => .goTo v

/-- A key with its modifiers, with Caps Lock or without. -/
def Pressed (key : ℕ) (param : BitVec 32) : Prop :=
  param.toNat = key ∨ param.toNat = key + 0x0200

instance (key : ℕ) (param : BitVec 32) : Decidable (Pressed key param) :=
  inferInstanceAs (Decidable (_ ∨ _))

/-- The keys that navigate on a screen of `rows` rows: the arrows, alone and with Ctrl,
Home and End likewise, Ctrl+G, Ctrl+G with either Shift, and Backspace. -/
def keyCommands (m : Machine) (d : Dialogs) (rows : ℕ) (s : Tool) : List (ℕ × Command) :=
  [(0x49,.left),(0x4A,.right),(0x4B,.move (-8)),(0x0D,.move 8),
    (0x804B,.move (-BitVec.ofNat 32 (8 * rows))),(0x800D,.move (BitVec.ofNat 32 (8 * rows))),
    (0x1F,.lineStart),(0x3E,.lineEnd),(0x801F,.place s.pAddress),
    (0x803E,.place (s.pAddress + BitVec.ofNat 32 (8 * rows) - 1)),
    (0x8010,jump (enteredAddress m d.prompts)),(0x8410,jump (pointer m s)),
    (0x8810,jump (pointer m s)),(0x03,.back)]

/-- What an event means to the editor. -/
def commandOf (m : Machine) (rows : ℕ) (s : Tool) : Event → Command
  | .char param => .type param
  | .key param d =>
    (((keyCommands m d rows s).find? fun e => Pressed e.1 param).map Prod.snd).getD .stay

/-- The commands of a run. -/
def commands (m : Machine) (rows : ℕ) : Tool → List Event → List Command
  | _,[] => []
  | s,e::es => commandOf m rows s e::commands m rows (processMessage m s e) es

/-- The tool without its window. -/
def view (n : Navigation) : Editor := ⟨current n,n.pPrevAddress,n.mode⟩

/-! ### The window -/

/-- Base and cursor of a window of 4 or 8 lines. -/
structure Placed (rows : ℕ) (n : Navigation) : Prop where
  aligned : n.pAddress.toNat % 8 = 0
  size : rows = 4 ∨ rows = 8
  rowsPerScreen : n.rowsPerScreen = rows
  bytes : n.bytesPerScreen = 8 * rows
  nonneg : 0 ≤ n.cursor
  lt : n.cursor < n.bytesPerScreen

/-- `DumpMoveCursor` without its redrawing. -/
def moveCursor (cursor : ℤ) (n : Navigation) : Navigation :=
  if s8 cursor < 0 then { n with pAddress := n.pAddress - 8, cursor := s8 cursor + 8 }
  else if s8 cursor ≥ n.bytesPerScreen then
    { n with pAddress := n.pAddress + 8, cursor := s8 cursor - 8 }
  else { n with cursor := s8 cursor }

/-- `DumpSetAddress`. -/
def setAddress (addr : Addr) (n : Navigation) : Navigation :=
  { n with
    pPrevAddress := current n
    pAddress := addr &&& ~~~7
    cursor := (addr &&& 7).toNat
    mode := if n.mode = .nibbleLo then .nibbleHi else n.mode }

/-- A window of `rows` lines keeps its base while the address is in it, and else moves
by `d`. -/
def slide (rows : ℕ) (base address d : Addr) : Addr :=
  if (address - base).toNat < 8 * rows then base else base + d

variable {m : Machine} {s : Tool} {n : Navigation} {rows : ℕ}

theorem and_seven (x : Addr) : (x &&& 7).toNat = x.toNat % 8 := by
  rw [BitVec.toNat_and]
  exact Nat.and_two_pow_sub_one_eq_mod x.toNat 3

/-- A number is what a mask keeps and what it drops. -/
theorem mask_split (x mask : BitVec 32) :
    (x &&& ~~~mask).toNat + (x &&& mask).toNat = x.toNat := by
  have hsplit : (x &&& ~~~mask) + (x &&& mask) = x := by
    rw [BitVec.add_eq_or_of_and_eq_zero]
    · ext i hi
      simp only [BitVec.getElem_or, BitVec.getElem_and, BitVec.getElem_not]
      cases x[i] <;> cases mask[i] <;> rfl
    · ext i hi
      simp only [BitVec.getElem_and, BitVec.getElem_not, BitVec.getElem_zero]
      cases x[i] <;> cases mask[i] <;> rfl
  have hkept : (x &&& ~~~mask).toNat ≤ x.toNat := by
    rw [BitVec.toNat_and]
    exact Nat.and_le_left
  have hdropped : (x &&& mask).toNat ≤ x.toNat := by
    rw [BitVec.toNat_and]
    exact Nat.and_le_left
  have hsum := congrArg BitVec.toNat hsplit
  rw [BitVec.toNat_add] at hsum
  have := x.isLt
  omega

theorem and_not_seven (x : Addr) : (x &&& ~~~7).toNat = x.toNat - x.toNat % 8 := by
  have hsplit := mask_split x 7
  rw [and_seven] at hsplit
  omega

theorem current_eq {k : ℕ} (hk : n.cursor = k) : current n = n.pAddress + BitVec.ofNat 32 k := by
  rw [current, hk, BitVec.ofInt_natCast]

theorem Placed.bytes_eq (h : Placed rows n) : n.bytesPerScreen = 32 ∨ n.bytesPerScreen = 64 := by
  have hbytes := h.bytes
  rcases h.size with hrows | hrows <;> omega

theorem add_sub_self (p : Addr) (c : ℤ) : p + BitVec.ofInt 32 c - p = BitVec.ofInt 32 c := by
  bv_omega

/-- The cursor is moved to an offset at most one line outside the window. -/
theorem moveCursor_spec (h : Placed rows n) {c : ℤ} (hc : -8 ≤ c ∧ c < n.bytesPerScreen + 8) :
    Placed rows (moveCursor c n) ∧
      view (moveCursor c n) = { view n with address := n.pAddress + BitVec.ofInt 32 c } ∧
      (moveCursor c n).pAddress =
        slide rows n.pAddress (n.pAddress + BitVec.ofInt 32 c) (if c < 0 then -8 else 8) := by
  have hbytes := h.bytes_eq
  have hsize := h.bytes
  have hchar : s8 c = c := by
    simp only [s8]
    omega
  have hoffset : (BitVec.ofInt 32 c).toNat = (c % 4294967296).toNat := BitVec.toNat_ofInt c
  have haligned := h.aligned
  simp only [moveCursor, hchar, slide, add_sub_self, hoffset]
  by_cases hneg : c < 0
  · rw [if_pos hneg, if_neg (by omega), if_pos hneg]
    refine ⟨⟨?_,h.size,h.rowsPerScreen,h.bytes,?_,?_⟩,?_,?_⟩
    · bv_omega
    · change 0 ≤ c + 8
      omega
    · change c + 8 < n.bytesPerScreen
      omega
    · have hcur : n.pAddress - 8 + BitVec.ofInt 32 (c + 8) = n.pAddress + BitVec.ofInt 32 c := by
        rw [BitVec.ofInt_add, show BitVec.ofInt 32 8 = 8 from rfl]
        bv_omega
      exact congrArg (fun a => (⟨a,n.pPrevAddress,n.mode⟩ : Editor)) hcur
    · change n.pAddress - 8 = _
      bv_omega
  · have hnonneg : 0 ≤ c := Int.not_lt.mp hneg
    rw [if_neg hneg, if_neg hneg]
    by_cases hpast : c ≥ n.bytesPerScreen
    · rw [if_pos hpast, if_neg (by omega)]
      refine ⟨⟨?_,h.size,h.rowsPerScreen,h.bytes,?_,?_⟩,?_,rfl⟩
      · bv_omega
      · change 0 ≤ c - 8
        omega
      · change c - 8 < n.bytesPerScreen
        omega
      · have hcur : n.pAddress + 8 + BitVec.ofInt 32 (c - 8) = n.pAddress + BitVec.ofInt 32 c := by
          rw [Int.sub_eq_add_neg, BitVec.ofInt_add]
          bv_omega
        exact congrArg (fun a => (⟨a,n.pPrevAddress,n.mode⟩ : Editor)) hcur
    · rw [if_neg hpast, if_pos (by omega)]
      refine ⟨⟨h.aligned,h.size,h.rowsPerScreen,h.bytes,?_,?_⟩,rfl,rfl⟩
      · exact hnonneg
      · exact Int.lt_of_not_ge hpast

/-- A jump puts the cursor on the first line of the window. -/
theorem setAddress_spec (h : Placed rows n) (addr : Addr) :
    Placed rows (setAddress addr n) ∧ view (setAddress addr n) = (view n).goTo addr := by
  have hbytes := h.bytes_eq
  have hlow := and_seven addr
  have hhigh := and_not_seven addr
  refine ⟨⟨?_,h.size,h.rowsPerScreen,h.bytes,?_,?_⟩,?_⟩
  · change (addr &&& ~~~7).toNat % 8 = 0
    omega
  · exact Int.natCast_nonneg _
  · change ((addr &&& 7).toNat : ℤ) < n.bytesPerScreen
    omega
  · have hcur : current (setAddress addr n) = addr := by
      rw [current_eq (k := (addr &&& 7).toNat) rfl]
      change (addr &&& ~~~7) + _ = addr
      apply BitVec.eq_of_toNat_eq
      rw [BitVec.toNat_add, BitVec.toNat_ofNat, hlow, hhigh]
      have := addr.isLt
      omega
    have hmode : (if n.mode = .nibbleLo then .nibbleHi else n.mode) =
        if n.mode = .ascii then Mode.ascii else .nibbleHi := by
      cases n.mode <;> rfl
    rw [view, hcur, Editor.goTo]
    exact congrArg (fun mode => (⟨addr,current n,mode⟩ : Editor)) hmode

/-! ### What leaves the window alone -/

theorem foldl_toNavigation {A : Type*} {f : Tool → A → Tool}
    (hf : ∀ s a, (f s a).toNavigation = s.toNavigation) (l : List A) (s : Tool) :
    (l.foldl f s).toNavigation = s.toNavigation := by
  induction l generalizing s with
  | nil => rfl
  | cons a l ih => rw [List.foldl_cons, ih, hf]

theorem readByte_toNavigation (m : Machine) (a : Addr) (s : Tool) :
    (readByte m a s).2.toNavigation = s.toNavigation := by
  unfold readByte
  split_ifs <;> rfl

theorem writeByte_toNavigation (m : Machine) (a : Addr) (b : BitVec 8) (s : Tool) :
    (writeByte m a b s).toNavigation = s.toNavigation := by
  unfold writeByte
  split_ifs <;> rfl

theorem readRow_toNavigation (m : Machine) (count : ℕ) (a : Addr) (s : Tool) :
    (readRow m count a s).2.toNavigation = s.toNavigation := by
  induction count generalizing a s with
  | zero => rfl
  | succ count ih => exact (ih _ _).trans (readByte_toNavigation m a _)

theorem dumpRedrawByteAscii_toNavigation (m : Machine) (c : BitVec 8) (error : Bool) (s : Tool) :
    (dumpRedrawByteAscii m c error s).toNavigation = s.toNavigation := by
  simp only [dumpRedrawByteAscii]
  split_ifs <;> rfl

theorem dumpRedrawRow_toNavigation (m : Machine) (row : ℕ) (a : Addr) (s : Tool) :
    (dumpRedrawRow m row a s).toNavigation = s.toNavigation := by
  refine (foldl_toNavigation ?_ _ _).trans ((foldl_toNavigation ?_ _ _).trans ?_)
  · exact fun s c => dumpRedrawByteAscii_toNavigation m c.1 c.2 s
  · exact fun s c => rfl
  · exact readRow_toNavigation m 8 a _

theorem dumpRedrawRows_toNavigation (m : Machine) (count row : ℕ) (a : Addr) (s : Tool) :
    (dumpRedrawRows m count row a s).toNavigation = s.toNavigation := by
  induction count generalizing row a s with
  | zero => rfl
  | succ count ih => exact (ih _ _ _).trans (dumpRedrawRow_toNavigation m row a s)

@[simp] theorem dumpRedrawScreen_toNavigation (m : Machine) (s : Tool) :
    (dumpRedrawScreen m s).toNavigation = s.toNavigation :=
  dumpRedrawRows_toNavigation m s.rowsPerScreen 1 s.pAddress (installBusErrorHandler m s)

@[simp] theorem dumpSetCursorCur_toNavigation (m : Machine) (s : Tool) :
    (dumpSetCursorCur m s).toNavigation = s.toNavigation := rfl

@[simp] theorem dumpWriteAndRedrawCur_toNavigation (m : Machine) (value mask : BitVec 8)
    (s : Tool) : (dumpWriteAndRedrawCur m value mask s).toNavigation = s.toNavigation := by
  refine (dumpRedrawByteAscii_toNavigation m _ _ _).trans ?_
  refine (readByte_toNavigation m _ _).trans ?_
  simp only
  split_ifs
  · exact (writeByte_toNavigation m _ _ _).trans (readByte_toNavigation m _ _)
  · exact readByte_toNavigation m _ _

theorem dumpMoveCursor_toNavigation (m : Machine) (c : ℤ) (s : Tool) :
    (dumpMoveCursor m c s).toNavigation = moveCursor c s.toNavigation := by
  simp only [dumpMoveCursor, moveCursor]
  split_ifs <;> simp

theorem storeOpcode_toNavigation (p : Parsed) (s : Tool) :
    (storeOpcode p s).toNavigation = s.toNavigation := by
  unfold storeOpcode
  split <;> rfl

theorem storeOpcodes_toNavigation (m : Machine) (s : Tool) :
    (storeOpcodes m s).toNavigation = s.toNavigation :=
  foldl_toNavigation (fun _ _ => storeOpcode_toNavigation _ _) _ _

theorem editField_toNavigation (m : Machine) (i : Fin 7) (text : List ℕ) (escaped : Bool)
    (s : Tool) : (editField m i text escaped s).toNavigation = s.toNavigation := by
  simp only [editField]
  split_ifs
  · rfl
  · exact storeOpcode_toNavigation _ _

/-- The invoke dialog leaves the window alone, and so does the code it calls. -/
theorem invokeLoop_toNavigation (m : Machine) (last : Scribble) (rs : List Round) (s : Tool) :
    (invokeLoop m last rs s).2.toNavigation = s.toNavigation := by
  induction rs generalizing s with
  | nil => exact storeOpcodes_toNavigation m s
  | cons r rs ih =>
    have hparsed : (draw (scribble r.scribble) (storeOpcodes m s)).toNavigation = s.toNavigation :=
      storeOpcodes_toNavigation m s
    simp only [invokeLoop]
    split_ifs
    · exact hparsed
    · exact (ih _).trans ((editField_toNavigation ..).trans hparsed)
    · exact hparsed
    · exact (ih _).trans hparsed

theorem goToLoop_toNavigation (m : Machine) (last : Scribble) (ps : List (Scribble × List ℕ))
    (s : Tool) :
    (goToLoop m last ps s).toNavigation =
      match enteredAddress m ps with
      | none => s.toNavigation
      | some v => setAddress v s.toNavigation := by
  induction ps generalizing s with
  | nil => rfl
  | cons p ps ih =>
    have hparsed : (storeOpcode (numberFromString m m.prompt p.2)
        (draw (scribble p.1) s)).toNavigation = s.toNavigation := storeOpcode_toNavigation _ _
    rw [goToLoop, enteredAddress, List.findSome?_cons, ← number_eq_textValue]
    cases (numberFromString m m.prompt p.2).number with
    | none => exact (ih _).trans (by rw [hparsed]; rfl)
    | some v => exact congrArg (setAddress v) hparsed

/-! ### Keys -/

/-- A key code without Caps Lock. -/
def Plain (key : ℕ) : Prop :=
  (BitVec.ofNat 32 key &&& ~~~0x0200).toNat = key ∧
    (BitVec.ofNat 32 (key + 0x0200) &&& ~~~0x0200).toNat = key

instance (key : ℕ) : Decidable (Plain key) := inferInstanceAs (Decidable (_ ∧ _))

theorem pressed_iff {key : ℕ} (hkey : Plain key) {param : BitVec 32} :
    Pressed key param ↔ (param &&& ~~~0x0200).toNat = key := by
  constructor
  · rintro (h | h)
    · have hparam : param = BitVec.ofNat 32 key := by
        rw [← h, BitVec.ofNat_toNat, BitVec.setWidth_eq]
      rw [hparam]
      exact hkey.1
    · have hparam : param = BitVec.ofNat 32 (key + 0x0200) := by
        rw [← h, BitVec.ofNat_toNat, BitVec.setWidth_eq]
      rw [hparam]
      exact hkey.2
  · intro h
    have hsplit := mask_split param 0x0200
    have hbit : (param &&& 0x0200).toNat = 0 ∨ (param &&& 0x0200).toNat = 0x0200 := by
      rw [BitVec.toNat_and]
      change param.toNat &&& 2 ^ 9 = _ ∨ param.toNat &&& 2 ^ 9 = _
      rw [Nat.and_two_pow]
      cases param.toNat.testBit 9 <;> simp
    unfold Pressed
    omega

/-- The first entry whose key is pressed. -/
theorem find?_pressed {A : Type*} {l : List (ℕ × A)} (hl : ∀ e ∈ l, Plain e.1)
    (param : BitVec 32) :
    (l.find? fun e => Pressed e.1 param).map Prod.snd =
      l.lookup (param &&& ~~~0x0200).toNat := by
  induction l with
  | nil => rfl
  | cons e l ih =>
    obtain ⟨key,a⟩ := e
    obtain ⟨he,hl⟩ := List.forall_mem_cons.mp hl
    by_cases hpressed : Pressed key param
    · rw [List.find?_cons_of_pos (by simpa using hpressed), (pressed_iff he).mp hpressed,
        List.lookup_cons_self]
      rfl
    · have hother : (param &&& ~~~0x0200).toNat ≠ key :=
        fun heq => hpressed ((pressed_iff he).mpr heq)
      rw [List.find?_cons_of_neg (by simpa using hpressed), ih hl, List.lookup_cons,
        beq_false_of_ne hother]

/-- A table that leaves out some of the keys of another. -/
theorem lookup_eq_none {A B : Type*} {l : List (ℕ × A)} {k : List (ℕ × B)}
    (hsub : ∀ e ∈ k, e.1 ∈ l.map Prod.fst) {key : ℕ} (hkey : key ∉ l.map Prod.fst) :
    k.lookup key = none := by
  rw [List.lookup_eq_none_iff]
  intro e he
  have hne : key ≠ e.1 := fun heq => hkey (heq ▸ hsub e he)
  simpa using hne

/-- A case that one key of the table has. -/
theorem decodeKey_iff {key : ℕ} {k : Key} (hkey : Plain key) (hmem : key ∈ keyTable.map Prod.fst)
    (hcase : ∀ e ∈ keyTable,e.2 = k ↔ e.1 = key) (hother : k ≠ .other) {param : BitVec 32} :
    decodeKey param = k ↔ Pressed key param := by
  rw [pressed_iff hkey, decodeKey]
  generalize (param &&& ~~~0x0200).toNat = pressed
  cases hlookup : keyTable.lookup pressed with
  | none =>
    refine ⟨fun h => absurd h.symm hother,fun h => ?_⟩
    obtain ⟨e,he,rfl⟩ := List.mem_map.mp hmem
    have hne := List.lookup_eq_none_iff.mp hlookup e he
    rw [h] at hne
    simp at hne
  | some k' =>
    obtain ⟨before,after,htable,-⟩ := List.lookup_eq_some_iff.mp hlookup
    have he : (pressed,k') ∈ keyTable := by
      rw [htable]
      exact List.mem_append_right before List.mem_cons_self
    exact hcase _ he

theorem decodeKey_ctrlI {param : BitVec 32} : decodeKey param = .ctrlI ↔ Pressed 0x801C param :=
  decodeKey_iff (by decide) (by decide) (by decide) (by decide)

theorem decodeKey_ctrlG {param : BitVec 32} : decodeKey param = .ctrlG ↔ Pressed 0x8010 param :=
  decodeKey_iff (by decide) (by decide) (by decide) (by decide)

theorem decodeKey_ctrlCmdB {param : BitVec 32} :
    decodeKey param = .ctrlCmdB ↔ Pressed 0xC04E param :=
  decodeKey_iff (by decide) (by decide) (by decide) (by decide)

/-- The command of each case of `MSG_KEY`. -/
def caseCommand (m : Machine) (d : Dialogs) (rows : ℕ) (s : Tool) : Key → Command
  | .left => .left
  | .right => .right
  | .up => .move (-8)
  | .ctrlUp => .move (-BitVec.ofNat 32 (8 * rows))
  | .down => .move 8
  | .ctrlDown => .move (BitVec.ofNat 32 (8 * rows))
  | .home => .lineStart
  | .ctrlHome => .place s.pAddress
  | .endKey => .lineEnd
  | .ctrlEnd => .place (s.pAddress + BitVec.ofNat 32 (8 * rows) - 1)
  | .ctrlG => jump (enteredAddress m d.prompts)
  | .ctrlShiftG => jump (pointer m s)
  | .backspace => .back
  | .ctrlI | .ctrlR | .clearFile | .ctrlCmdB | .other => .stay

/-- The cases are those of the keys. -/
theorem commandOf_key (m : Machine) (rows : ℕ) (s : Tool) (param : BitVec 32) (d : Dialogs) :
    commandOf m rows s (.key param d) = caseCommand m d rows s (decodeKey param) := by
  have hplain : ∀ e ∈ keyCommands m d rows s, Plain e.1 := by
    have hkeys : ∀ key ∈ (keyCommands m d rows s).map Prod.fst, Plain key := by
      change ∀ key ∈ [0x49,0x4A,0x4B,0x0D,0x804B,0x800D,0x1F,0x3E,0x801F,0x803E,0x8010,0x8410,
        0x8810,0x03], Plain key
      decide
    exact fun e he => hkeys e.1 (List.mem_map_of_mem he)
  rw [commandOf, find?_pressed hplain, decodeKey]
  generalize (param &&& ~~~0x0200).toNat = key
  by_cases hkey : key ∈ keyTable.map Prod.fst
  · change key ∈ [0x49,0x4A,0x4B,0x804B,0x0D,0x800D,0x1F,0x801F,0x3E,0x803E,0x801C,0x8010,0x8410,
      0x8810,0x03,0x8023,0x34,0xC04E] at hkey
    simp only [List.mem_cons, List.not_mem_nil, or_false] at hkey
    rcases hkey with rfl | rfl | rfl | rfl | rfl | rfl | rfl | rfl | rfl | rfl | rfl | rfl | rfl |
      rfl | rfl | rfl | rfl | rfl <;> rfl
  · have hsub : ∀ k ∈ (keyCommands m d rows s).map Prod.fst, k ∈ keyTable.map Prod.fst := by
      change ∀ k ∈ [0x49,0x4A,0x4B,0x0D,0x804B,0x800D,0x1F,0x3E,0x801F,0x803E,0x8010,0x8410,
        0x8810,0x03], k ∈ keyTable.map Prod.fst
      decide
    have hnone : keyTable.lookup key = none := lookup_eq_none (fun e => List.mem_map_of_mem) hkey
    rw [lookup_eq_none (fun e he => hsub e.1 (List.mem_map_of_mem he)) hkey, hnone]
    rfl

/-! ### One step -/

/-- The window stays well placed and the editor makes one step. -/
structure Moved (rows : ℕ) (n n' : Navigation) (c : Command) : Prop where
  placed : Placed rows n'
  view : view n' = (view n).step c

theorem Placed.withMode (h : Placed rows n) (mode : Mode) : Placed rows { n with mode := mode } :=
  ⟨h.aligned,h.size,h.rowsPerScreen,h.bytes,h.nonneg,h.lt⟩

/-- A move of the cursor by up to a line. -/
theorem moveBy_spec (h : Placed rows n) {d : ℤ} (hd : -8 ≤ d ∧ d ≤ 8) :
    Placed rows (moveCursor (n.cursor + d) n) ∧
      view (moveCursor (n.cursor + d) n) =
        { view n with address := current n + BitVec.ofInt 32 d } ∧
      (moveCursor (n.cursor + d) n).pAddress =
        slide rows n.pAddress (current n + BitVec.ofInt 32 d) (if d < 0 then -8 else 8) := by
  have hnonneg := h.nonneg
  have hlt := h.lt
  obtain ⟨hplaced,hview,hbase⟩ := moveCursor_spec h (c := n.cursor + d) (by omega)
  have haddress : n.pAddress + BitVec.ofInt 32 (n.cursor + d) = current n + BitVec.ofInt 32 d := by
    rw [BitVec.ofInt_add, current, BitVec.add_assoc]
  rw [haddress] at hview hbase
  refine ⟨hplaced,hview,hbase.trans ?_⟩
  -- the direction only matters outside the window
  by_cases hout : n.cursor + d < 0
  · rw [if_pos hout, if_pos (by omega)]
  · by_cases hneg : d < 0
    · have hoffset : (BitVec.ofInt 32 (n.cursor + d)).toNat = ((n.cursor + d) % 4294967296).toNat :=
        BitVec.toNat_ofInt _
      have hbytes := h.bytes_eq
      have hsize := h.bytes
      have hinside : (current n + BitVec.ofInt 32 d - n.pAddress).toNat < 8 * rows := by
        rw [← haddress, add_sub_self, hoffset]
        omega
      rw [slide, if_pos hinside, slide, if_pos hinside]
    · rw [if_neg hout, if_neg hneg]

theorem intAnd_not_seven : ∀ k < 64, intAnd (k : ℕ) (intNot 7) = (k - k % 8 : ℕ) := by
  decide

theorem intOr_seven : ∀ k < 64, intOr (k : ℕ) 7 = (k - k % 8 + 7 : ℕ) := by
  decide

theorem intAnd_not_screen : ∀ rows, rows = 4 ∨ rows = 8 → ∀ k < 8 * rows,
    intAnd (k : ℕ) (intNot ((8 * rows : ℕ) - 1)) = 0 := by
  rintro rows (rfl | rfl) <;> decide

theorem intOr_screen : ∀ rows, rows = 4 ∨ rows = 8 → ∀ k < 8 * rows,
    intOr (k : ℕ) ((8 * rows : ℕ) - 1) = (8 * rows - 1 : ℕ) := by
  rintro rows (rfl | rfl) <;> decide

theorem intAnd_one : ∀ k < 64, intAnd (k : ℕ) 1 = (k % 2 : ℕ) := by
  decide

/-- The cursor set to an offset of the window. -/
theorem placeAt_spec (h : Placed rows n) {k : ℕ} (hk : k < n.bytesPerScreen) :
    Moved rows n (moveCursor k n) (.place (n.pAddress + BitVec.ofNat 32 k)) := by
  obtain ⟨hplaced,hview,-⟩ := moveCursor_spec h (c := k) (by omega)
  rw [BitVec.ofInt_natCast] at hview
  exact ⟨hplaced,hview⟩

/-- The first byte of the line under the cursor. -/
theorem lineStart_eq (h : Placed rows n) {k : ℕ} (hk : n.cursor = k) :
    n.pAddress + BitVec.ofNat 32 (k - k % 8) = current n - current n % 8 := by
  have haligned := h.aligned
  have hlt := h.lt
  have hbytes := h.bytes_eq
  have hcur := current_eq hk
  have hmod : (current n).toNat % 8 = k % 8 := by
    rw [hcur, BitVec.toNat_add, BitVec.toNat_ofNat]
    omega
  have hline : (current n % 8).toNat = k % 8 := by
    rw [BitVec.toNat_umod, ← hmod]
    rfl
  rw [hcur] at hline ⊢
  bv_omega

theorem jump_moved (h : Placed rows n) (v : Option Addr) :
    Moved rows n (match v with
      | none => n
      | some v => setAddress v n) (jump v) := by
  cases v with
  | none => exact ⟨h,rfl⟩
  | some v => exact ⟨(setAddress_spec h v).1,(setAddress_spec h v).2⟩

theorem followPointer_toNavigation (m : Machine) (s : Tool)
    (heven : (current s.toNavigation).toNat % 2 = 0) :
    (followPointer m s).toNavigation =
      match pointer m s with
      | none => s.toNavigation
      | some v => setAddress v s.toNavigation := by
  simp only [followPointer, dumpRedrawScreen_toNavigation, pointer, readLong, heven, ne_eq,
    not_true_eq_false, if_false]
  by_cases hfault : (m.faults (current s.toNavigation) || m.faults (current s.toNavigation + 1) ||
      m.faults (current s.toNavigation + 2) || m.faults (current s.toNavigation + 3)) = true
  · rw [if_pos hfault, if_pos hfault]
    rfl
  · rw [if_neg hfault, if_neg hfault]
    rfl

/-- What Left does. -/
def moveLeft (n : Navigation) : Navigation :=
  match n.mode with
  | .nibbleLo => { n with mode := .nibbleHi }
  | .nibbleHi => moveCursor (n.cursor - 1) { n with mode := .nibbleLo }
  | .ascii => moveCursor (n.cursor - 1) n

theorem left_toNavigation (m : Machine) (d : Dialogs) (s : Tool) :
    (processKey m d s .left).toNavigation = moveLeft s.toNavigation := by
  unfold processKey moveLeft
  cases s.mode with
  | nibbleLo => rfl
  | nibbleHi => exact dumpMoveCursor_toNavigation m _ _
  | ascii => exact dumpMoveCursor_toNavigation m _ _

theorem moveBack_view (h : Placed rows n) :
    Placed rows (moveCursor (n.cursor - 1) n) ∧
      view (moveCursor (n.cursor - 1) n) = { view n with address := current n - 1 } := by
  obtain ⟨hplaced,hview,-⟩ := moveBy_spec h (d := -1) (by decide)
  rw [show BitVec.ofInt 32 (-1) = -1 from rfl, ← BitVec.sub_eq_add_neg] at hview
  exact ⟨hplaced,hview⟩

theorem moveLeft_moved (h : Placed rows n) : Moved rows n (moveLeft n) .left := by
  unfold moveLeft
  cases hmode : n.mode with
  | nibbleLo =>
    refine ⟨h.withMode .nibbleHi,?_⟩
    simp only [view, Editor.step, Editor.left, hmode]
    rfl
  | nibbleHi =>
    obtain ⟨hplaced,hview⟩ := moveBack_view (h.withMode .nibbleLo)
    refine ⟨hplaced,hview.trans ?_⟩
    simp only [view, Editor.step, Editor.left, hmode]
    rfl
  | ascii =>
    obtain ⟨hplaced,hview⟩ := moveBack_view h
    refine ⟨hplaced,hview.trans ?_⟩
    simp only [view, Editor.step, Editor.left, hmode]

/-- What Right does, and a character that was accepted. -/
def moveRight (n : Navigation) : Navigation :=
  match n.mode with
  | .nibbleHi => { n with mode := .nibbleLo }
  | .nibbleLo => moveCursor (n.cursor + 1) { n with mode := .nibbleHi }
  | .ascii => moveCursor (n.cursor + 1) n

theorem moveRight_moved (h : Placed rows n) : Moved rows n (moveRight n) .right := by
  unfold moveRight
  cases hmode : n.mode with
  | nibbleHi =>
    refine ⟨h.withMode .nibbleLo,?_⟩
    simp only [view, Editor.step, Editor.right, hmode]
    rfl
  | nibbleLo =>
    obtain ⟨hplaced,hview,-⟩ := moveBy_spec (h.withMode .nibbleHi) (d := 1) (by decide)
    refine ⟨hplaced,hview.trans ?_⟩
    simp only [view, Editor.step, Editor.right, hmode]
    rfl
  | ascii =>
    obtain ⟨hplaced,hview,-⟩ := moveBy_spec h (d := 1) (by decide)
    refine ⟨hplaced,hview.trans ?_⟩
    simp only [view, Editor.step, Editor.right, hmode]
    rfl

theorem right_toNavigation (m : Machine) (d : Dialogs) (s : Tool) :
    (processKey m d s .right).toNavigation = moveRight s.toNavigation := by
  unfold processKey moveRight
  cases s.mode with
  | nibbleHi => rfl
  | nibbleLo => exact dumpMoveCursor_toNavigation m _ _
  | ascii => exact dumpMoveCursor_toNavigation m _ _

/-- The digit that a character code is. -/
theorem hexCharToNibble_param (param : BitVec 32) :
    hexCharToNibble (param.setWidth 8).toNat = hexValue (param.toNat % 256) := by
  rw [hexCharToNibble_eq, BitVec.toNat_setWidth]

theorem processChar_toNavigation (m : Machine) (param : BitVec 32) (s : Tool) :
    (processChar m param s).toNavigation =
      if param = 0x09 then
        { s.toNavigation with mode := if s.mode = .ascii then .nibbleHi else .ascii }
      else if param = 0x0D then s.toNavigation
      else if (view s.toNavigation).Accepts param then moveRight s.toNavigation
      else s.toNavigation := by
  by_cases htab : param = 0x09
  · rw [processChar, if_pos htab, if_pos htab]
    rfl
  by_cases hreturn : param = 0x0D
  · rw [processChar, if_neg htab, if_pos hreturn, if_neg htab, if_pos hreturn]
  rw [processChar, if_neg htab, if_neg hreturn, if_neg htab, if_neg hreturn]
  by_cases haccept : (view s.toNavigation).Accepts param
  · rw [if_pos haccept, moveRight]
    cases hmode : s.mode with
    | nibbleHi =>
      have hhex : s.mode ≠ .ascii := by rw [hmode]; decide
      obtain ⟨nibble,hnibble⟩ := Option.isSome_iff_exists.mp (haccept.resolve_left hhex)
      simp only [hexCharToNibble_param, hnibble, dumpSetCursorCur_toNavigation,
        dumpWriteAndRedrawCur_toNavigation]
    | nibbleLo =>
      have hhex : s.mode ≠ .ascii := by rw [hmode]; decide
      obtain ⟨nibble,hnibble⟩ := Option.isSome_iff_exists.mp (haccept.resolve_left hhex)
      simp only [hexCharToNibble_param, hnibble, dumpMoveCursor_toNavigation,
        dumpWriteAndRedrawCur_toNavigation]
    | ascii =>
      simp only [dumpMoveCursor_toNavigation, dumpWriteAndRedrawCur_toNavigation]
  · obtain ⟨hside,hdigit⟩ := not_or.mp haccept
    rw [Option.not_isSome_iff_eq_none] at hdigit
    rw [if_neg haccept]
    cases hmode : s.mode with
    | nibbleHi => simp only [hexCharToNibble_param, hdigit]
    | nibbleLo => simp only [hexCharToNibble_param, hdigit]
    | ascii => exact absurd hmode hside

theorem char_moved (h : Placed rows s.toNavigation) (param : BitVec 32) :
    Moved rows s.toNavigation (processChar m param s).toNavigation (.type param) := by
  rw [processChar_toNavigation]
  by_cases htab : param = 0x09
  · rw [if_pos htab]
    refine ⟨h.withMode _,?_⟩
    rw [Editor.step, Editor.type, if_pos htab]
    rfl
  by_cases hreturn : param = 0x0D
  · rw [if_neg htab, if_pos hreturn]
    refine ⟨h,?_⟩
    rw [Editor.step, Editor.type, if_neg htab, if_pos hreturn]
  rw [if_neg htab, if_neg hreturn]
  by_cases haccept : (view s.toNavigation).Accepts param
  · rw [if_pos haccept]
    refine ⟨(moveRight_moved h).placed,(moveRight_moved h).view.trans ?_⟩
    rw [Editor.step, Editor.step, Editor.type, if_neg htab, if_neg hreturn, if_pos haccept]
  · rw [if_neg haccept]
    refine ⟨h,?_⟩
    rw [Editor.step, Editor.type, if_neg htab, if_neg hreturn, if_neg haccept]

/-- A whole screen up or down. -/
theorem screen_moved (h : Placed rows n) {a d : Addr} (ha : a = n.pAddress + d)
    (hd : d.toNat % 8 = 0) : Moved rows n { n with pAddress := a } (.move d) := by
  have haligned := h.aligned
  subst ha
  refine ⟨⟨?_,h.size,h.rowsPerScreen,h.bytes,h.nonneg,h.lt⟩,?_⟩
  · change (n.pAddress + d).toNat % 8 = 0
    rw [BitVec.toNat_add]
    omega
  · have hcur : n.pAddress + d + BitVec.ofInt 32 n.cursor = current n + d := by
      rw [current]
      bv_omega
    exact congrArg (fun a => (⟨a,n.pPrevAddress,n.mode⟩ : Editor)) hcur

theorem key_moved (h : Placed rows s.toNavigation) (d : Dialogs) (key : Key) :
    Moved rows s.toNavigation (processKey m d s key).toNavigation
      (caseCommand m d rows s key) := by
  obtain ⟨k,hk⟩ := Int.eq_ofNat_of_zero_le h.nonneg
  have hlt := h.lt
  have hbytes := h.bytes_eq
  have hbytesEq := h.bytes
  have hrows := h.size
  cases key with
  | left =>
    rw [left_toNavigation]
    exact moveLeft_moved h
  | right =>
    rw [right_toNavigation]
    exact moveRight_moved h
  | up =>
    obtain ⟨hplaced,hview,-⟩ := moveBy_spec h (d := -8) (by decide)
    rw [show BitVec.ofInt 32 (-8) = -8 from rfl] at hview
    simp only [processKey, dumpMoveCursor_toNavigation]
    exact ⟨hplaced,hview⟩
  | ctrlUp =>
    simp only [processKey, dumpRedrawScreen_toNavigation]
    refine screen_moved h ?_ ?_
    · rw [BitVec.sub_eq_add_neg, hbytesEq]
    · rcases hrows with hr | hr <;> rw [hr] <;> decide
  | down =>
    obtain ⟨hplaced,hview,-⟩ := moveBy_spec h (d := 8) (by decide)
    rw [show BitVec.ofInt 32 8 = 8 from rfl] at hview
    simp only [processKey, dumpMoveCursor_toNavigation]
    exact ⟨hplaced,hview⟩
  | ctrlDown =>
    simp only [processKey, dumpRedrawScreen_toNavigation]
    refine screen_moved h (by rw [hbytesEq]) ?_
    rcases hrows with hr | hr <;> rw [hr] <;> decide
  | home =>
    obtain ⟨hplaced,hview⟩ := placeAt_spec h (k := k - k % 8) (by omega)
    simp only [processKey, dumpMoveCursor_toNavigation]
    rw [hk, intAnd_not_seven k (by omega)]
    refine ⟨hplaced,hview.trans ?_⟩
    rw [lineStart_eq h hk]
    rfl
  | endKey =>
    obtain ⟨hplaced,hview⟩ := placeAt_spec h (k := k - k % 8 + 7) (by omega)
    simp only [processKey, dumpMoveCursor_toNavigation]
    rw [hk, intOr_seven k (by omega)]
    refine ⟨hplaced,hview.trans ?_⟩
    rw [BitVec.ofNat_add, ← BitVec.add_assoc, lineStart_eq h hk]
    rfl
  | ctrlHome =>
    obtain ⟨hplaced,hview⟩ := placeAt_spec h (k := 0) (by omega)
    simp only [processKey, dumpMoveCursor_toNavigation]
    rw [hk, hbytesEq, intAnd_not_screen rows hrows k (by omega)]
    refine ⟨hplaced,hview.trans ?_⟩
    rw [show BitVec.ofNat 32 0 = 0#32 from rfl, BitVec.add_zero]
    rfl
  | ctrlEnd =>
    obtain ⟨hplaced,hview⟩ := placeAt_spec h (k := 8 * rows - 1) (by omega)
    simp only [processKey, dumpMoveCursor_toNavigation]
    rw [hk, hbytesEq, intOr_screen rows hrows k (by omega)]
    refine ⟨hplaced,hview.trans ?_⟩
    have hlast : s.pAddress + BitVec.ofNat 32 (8 * rows - 1) =
        s.pAddress + BitVec.ofNat 32 (8 * rows) - 1 := by
      rcases hrows with hr | hr <;> rw [hr] <;> bv_omega
    rw [hlast]
    rfl
  | ctrlI =>
    simp only [processKey, dumpRedrawScreen_toNavigation, invokeLoop_toNavigation]
    exact ⟨h,rfl⟩
  | ctrlG =>
    simp only [processKey, dumpRedrawScreen_toNavigation, goToLoop_toNavigation]
    exact jump_moved h _
  | ctrlShiftG =>
    have hcur := current_eq hk
    have haligned := h.aligned
    have hparity : (current s.toNavigation).toNat % 2 = k % 2 := by
      rw [hcur, BitVec.toNat_add, BitVec.toNat_ofNat]
      omega
    simp only [processKey, hk, intAnd_one k (by omega)]
    by_cases hodd : k % 2 = 0
    · rw [if_neg (by omega), followPointer_toNavigation m s (by omega)]
      exact jump_moved h _
    · have hnone : pointer m s = none := by
        unfold pointer
        exact if_pos (by omega)
      rw [if_pos (by omega), caseCommand, hnone]
      exact ⟨h,rfl⟩
  | backspace =>
    simp only [processKey, dumpRedrawScreen_toNavigation]
    exact ⟨(setAddress_spec h s.pPrevAddress).1,(setAddress_spec h s.pPrevAddress).2⟩
  | ctrlR =>
    simp only [processKey, dumpRedrawScreen_toNavigation]
    exact ⟨h,rfl⟩
  | clearFile =>
    simp only [processKey, dumpRedrawScreen_toNavigation]
    exact ⟨h,rfl⟩
  | ctrlCmdB => exact ⟨h,rfl⟩
  | other => exact ⟨h,rfl⟩

theorem step_moved (h : Placed rows s.toNavigation) (e : Event) :
    Moved rows s.toNavigation (processMessage m s e).toNavigation (commandOf m rows s e) := by
  cases e with
  | char param => exact char_moved h param
  | key param d =>
    rw [commandOf_key]
    exact key_moved h d (decodeKey param)

/-! ### Scrolling -/

/-- The ways the window moves for Left, Up, Right and Down. -/
def arrows : List (ℕ × Addr) := [(0x49,-8),(0x4B,-8),(0x4A,8),(0x0D,8)]

/-- The way the window moves for the four arrows and for typed characters. -/
def scrollOf : Event → Option Addr
  | .char _ => some 8
  | .key param _ => (arrows.find? fun e => Pressed e.1 param).map Prod.snd

/-- An arrow is one of four cases. -/
theorem scrollOf_key {param : BitVec 32} {dialogs : Dialogs} {d : Addr}
    (hd : scrollOf (.key param dialogs) = some d) :
    (d = -8 ∧ (decodeKey param = .left ∨ decodeKey param = .up)) ∨
      d = 8 ∧ (decodeKey param = .right ∨ decodeKey param = .down) := by
  rw [scrollOf, find?_pressed (by decide)] at hd
  unfold decodeKey
  generalize (param &&& ~~~0x0200).toNat = key at hd ⊢
  have hmem : key ∈ arrows.map Prod.fst := by
    by_contra hkey
    rw [lookup_eq_none (fun e => List.mem_map_of_mem) hkey] at hd
    exact nomatch hd
  change key ∈ [0x49,0x4B,0x4A,0x0D] at hmem
  simp only [List.mem_cons, List.not_mem_nil, or_false] at hmem
  rcases hmem with rfl | rfl | rfl | rfl
  · exact Or.inl ⟨(Option.some.inj hd).symm,Or.inl rfl⟩
  · exact Or.inl ⟨(Option.some.inj hd).symm,Or.inr rfl⟩
  · exact Or.inr ⟨(Option.some.inj hd).symm,Or.inl rfl⟩
  · exact Or.inr ⟨(Option.some.inj hd).symm,Or.inr rfl⟩

/-- In a state of the window itself there is nothing to scroll. -/
theorem slide_self (h : Placed rows n) (d : Addr) :
    slide rows n.pAddress (current n) d = n.pAddress := by
  obtain ⟨k,hk⟩ := Int.eq_ofNat_of_zero_le h.nonneg
  have hlt := h.lt
  have hbytes := h.bytes_eq
  have hsize := h.bytes
  have hcur := current_eq hk
  rw [slide, if_pos]
  rw [hcur]
  bv_omega

/-- The base after a move of the cursor by up to a line. -/
theorem moveBy_slides (h : Placed rows n) {d : ℤ} (hd : -8 ≤ d ∧ d ≤ 8) :
    (moveCursor (n.cursor + d) n).pAddress =
      slide rows n.pAddress (current (moveCursor (n.cursor + d) n)) (if d < 0 then -8 else 8) := by
  obtain ⟨-,hview,hbase⟩ := moveBy_spec h hd
  rw [hbase, show current (moveCursor (n.cursor + d) n) = current n + BitVec.ofInt 32 d from
    congrArg Editor.address hview]

theorem moveRight_slides (h : Placed rows n) :
    (moveRight n).pAddress = slide rows n.pAddress (current (moveRight n)) 8 := by
  unfold moveRight
  cases n.mode with
  | nibbleHi => exact (slide_self h 8).symm
  | nibbleLo => exact moveBy_slides (h.withMode .nibbleHi) (d := 1) (by decide)
  | ascii => exact moveBy_slides h (d := 1) (by decide)

theorem moveLeft_slides (h : Placed rows n) :
    (moveLeft n).pAddress = slide rows n.pAddress (current (moveLeft n)) (-8) := by
  unfold moveLeft
  cases n.mode with
  | nibbleLo => exact (slide_self h (-8)).symm
  | nibbleHi => exact moveBy_slides (h.withMode .nibbleLo) (d := -1) (by decide)
  | ascii => exact moveBy_slides h (d := -1) (by decide)

/-- The window moves by exactly one line if the address leaves it, and else stays. -/
theorem step_slides (h : Placed rows s.toNavigation) {e : Event} {d : Addr}
    (hd : scrollOf e = some d) :
    (processMessage m s e).pAddress =
      slide rows s.pAddress (current (processMessage m s e).toNavigation) d := by
  cases e with
  | char param =>
    obtain rfl : 8 = d := Option.some.inj hd
    change (processChar m param s).toNavigation.pAddress =
      slide rows s.pAddress (current (processChar m param s).toNavigation) 8
    rw [processChar_toNavigation]
    split_ifs
    · exact (slide_self h 8).symm
    · exact (slide_self h 8).symm
    · exact (slide_self h 8).symm
    · exact moveRight_slides h
    · exact (slide_self h 8).symm
  | key param dialogs =>
    change (processKey m dialogs s (decodeKey param)).toNavigation.pAddress =
      slide rows s.pAddress (current (processKey m dialogs s (decodeKey param)).toNavigation) d
    rcases scrollOf_key hd with ⟨rfl,hkey | hkey⟩ | ⟨rfl,hkey | hkey⟩
    · rw [hkey, left_toNavigation]
      exact moveLeft_slides h
    · simp only [hkey, processKey, dumpMoveCursor_toNavigation]
      exact moveBy_slides h (d := -8) (by decide)
    · rw [hkey, right_toNavigation]
      exact moveRight_slides h
    · simp only [hkey, processKey, dumpMoveCursor_toNavigation]
      exact moveBy_slides h (d := 8) (by decide)

/-! ### Runs -/

theorem focused_toNavigation (m : Machine) (s : Tool) :
    (focused m s).toNavigation =
      ⟨0,0,.nibbleHi,0,(focused m s).rowsPerScreen,u8 (8 * (focused m s).rowsPerScreen)⟩ := by
  simp only [focused, processSetFocus, dumpRedrawScreen_toNavigation]
  rfl

/-- The number of rows that the library, or the firmware in its place, reports. -/
def reportedRows (m : Machine) (s : Tool) : ℕ :=
  sysIntRowCount m (beforeApplet m.fw .setFocus (beforeApplet m.fw .init s.os3k))

variable {s₀ : Tool}

theorem focused_rowsPerScreen (m : Machine) (s : Tool) :
    (focused m s).rowsPerScreen = u8 (reportedRows m s) :=
  congrArg Navigation.rowsPerScreen (dumpRedrawScreen_toNavigation m _)

theorem focused_placed (hrows : reportedRows m s₀ = 4 ∨ reportedRows m s₀ = 8) :
    Placed (reportedRows m s₀) (focused m s₀).toNavigation := by
  rw [focused_toNavigation, focused_rowsPerScreen]
  generalize reportedRows m s₀ = rows at hrows
  refine ⟨rfl,hrows,?_,?_,Int.le_refl 0,?_⟩
  · rcases hrows with rfl | rfl <;> rfl
  · rcases hrows with rfl | rfl <;> rfl
  · rcases hrows with rfl | rfl <;> decide

theorem run_moved (h : Placed rows s.toNavigation) (es : List Event) :
    Placed rows (es.foldl (processMessage m) s).toNavigation ∧
      view (es.foldl (processMessage m) s).toNavigation =
        (commands m rows s es).foldl Editor.step (view s.toNavigation) := by
  induction es generalizing s with
  | nil => exact ⟨h,rfl⟩
  | cons e es ih =>
    have hstep := step_moved (m := m) h e
    obtain ⟨hplaced,hview⟩ := ih hstep.placed
    refine ⟨hplaced,hview.trans ?_⟩
    rw [hstep.view]
    rfl

/-- In every run the tool's base and cursor are a window on the windowless editor:
the base is a multiple of 8, the cursor is in the window, address, mode and remembered
address are those of the editor, and the window scrolls by a line at its ends. -/
theorem navigation_refines_editor (m : Machine) (s₀ : Tool)
    (hrows : reportedRows m s₀ = 4 ∨ reportedRows m s₀ = 8) (es : List Event) :
    let rows := reportedRows m s₀
    let s := es.foldl (processMessage m) (focused m s₀)
    (s.pAddress.toNat % 8 = 0 ∧ 0 ≤ s.cursor ∧ s.cursor < (8 * rows : ℕ)) ∧
      view s.toNavigation =
        (commands m rows (focused m s₀) es).foldl Editor.step ⟨0,0,.nibbleHi⟩ ∧
      ∀ e d,scrollOf e = some d → (processMessage m s e).pAddress =
        slide rows s.pAddress (current (processMessage m s e).toNavigation) d := by
  have hplaced := focused_placed hrows
  have hstart : view (focused m s₀).toNavigation = ⟨0,0,.nibbleHi⟩ := by
    rw [focused_toNavigation]
    rfl
  obtain ⟨hrun,hview⟩ := run_moved (m := m) hplaced es
  rw [hstart] at hview
  refine ⟨⟨hrun.aligned,hrun.nonneg,?_⟩,hview,fun e d hd => step_slides hrun hd⟩
  rw [← hrun.bytes]
  exact hrun.lt

theorem neoMachine_reportedRows (memory : Memory) :
    reportedRows neoMachine (bssTool memory) = 8 :=
  (by decide : sysIntRowCount neoMachine neoFocused = 8)

/-- On the Neo: a letter typed, one line up across address 0, a jump and back. -/
theorem navigation_refines_editor_neo :
    let jump : Dialogs :=
      { noDialogs with prompts := [(noDialogs.last,[0x30,0x78,0x31,0x35])] }
    let es := [.char 0x41,.key 0x4B noDialogs,.key 0x8010 jump,.key 0x03 noDialogs]
    let rows := reportedRows neoMachine (bssTool fun _ => 0)
    let s₀ := focused neoMachine (bssTool fun _ => 0)
    let s := es.foldl (processMessage neoMachine) s₀
    (s.pAddress.toNat % 8 = 0 ∧ 0 ≤ s.cursor ∧ s.cursor < (8 * rows : ℕ)) ∧
      view s.toNavigation = (commands neoMachine rows s₀ es).foldl Editor.step ⟨0,0,.nibbleHi⟩ ∧
      ∀ e d,scrollOf e = some d → (processMessage neoMachine s e).pAddress =
        slide rows s.pAddress (current (processMessage neoMachine s e).toNavigation) d :=
  navigation_refines_editor neoMachine (bssTool fun _ => 0)
    (Or.inr (neoMachine_reportedRows _)) _

end Betawise.DebugNavigation
