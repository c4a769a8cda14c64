import Betawise.DebugTool
import Mathlib.Data.List.Basic

/-!
# The invoke dialog

A field with `!` parses to the address of `g_rawSysCall` and stores its opcode there.
All seven fields are parsed before a call, so that the cell holds the opcode of the
last such field: if that is not the function field, another system call is made.
-/
namespace Betawise.DebugInvoke
open ByteMemory DebugTool

/-- The code that a function field stands for. -/
inductive Code where
  | systemCall (opcode : BitVec 16)
  | address (a : Addr)

/-- The meaning of a function field by itself. -/
def denotedCode (m : Machine) (str : List ℕ) : Option Code :=
  let p := numberFromString m (m.field functionField) str
  match p.opcode with
  | none => p.number.map .address
  | some opcode => p.number.map fun _ => .systemCall opcode

/-- A call through `g_rawSysCall` executes the word that is there. -/
def Reaches (m : Machine) (call : Invocation) : Code → Prop
  | .systemCall opcode => call.target = m.rawSysCall ∧ call.rawSysCall = opcode
  | .address a => call.target = a

/-- The loop makes this call with these fields. -/
def Dispatches (m : Machine) (buffer : Fin 7 → List ℕ) (call : Invocation) : Prop :=
  ∃ last rs s,(invokeLoop m last rs s).1 = some call ∧ (invokeLoop m last rs s).2.buffer = buffer

/-- Code and arguments are those that the fields denote one by one. -/
def Meant (m : Machine) (buffer : Fin 7 → List ℕ) (call : Invocation) : Prop :=
  (∀ c,denotedCode m (buffer functionField) = some c → Reaches m call c) ∧
    call.args.map some = argFields.map fun i => (parseField m buffer i).number

/-- A change of one field changes neither the code, unless it is the function field,
nor the arguments of the other fields. -/
def Independent (m : Machine) (buffer : Fin 7 → List ℕ) (call : Invocation) : Prop :=
  ∀ i text call',Dispatches m (Function.update buffer i text) call' →
    (i ≠ functionField → ∀ c,denotedCode m (buffer functionField) = some c →
      Reaches m call c → Reaches m call' c) ∧
      ∀ k (hk : k < argFields.length),argFields[k] ≠ i → call'.args[k]? = call.args[k]?

/-- The opcodes that some fields store, in order. -/
def opcodes (m : Machine) (buffer : Fin 7 → List ℕ) (fields : List (Fin 7)) :
    List (BitVec 16) :=
  fields.filterMap fun i => (parseField m buffer i).opcode

/-- The fields that are parsed after the function field. -/
def otherFields : List (Fin 7) := (List.finRange 7).tail

/-- The function field stores no opcode, or the last argument field that stores one
stores the same. -/
def Undisturbed (m : Machine) (buffer : Fin 7 → List ℕ) : Prop :=
  ∀ opcode,(parseField m buffer functionField).opcode = some opcode →
    ∀ opcode' ∈ (opcodes m buffer otherFields).getLast?,opcode' = opcode

variable {m : Machine} {buffer : Fin 7 → List ℕ} {call : Invocation}

/-! ### The loop -/

theorem storeOpcode_buffer (p : Parsed) (s : Tool) : (storeOpcode p s).buffer = s.buffer := by
  unfold storeOpcode
  split <;> rfl

theorem storeOpcode_rawSysCall (p : Parsed) (s : Tool) :
    (storeOpcode p s).rawSysCall = p.opcode.getD s.rawSysCall := by
  unfold storeOpcode
  cases p.opcode <;> rfl

theorem editField_buffer (m : Machine) (i : Fin 7) (text : List ℕ) (escaped : Bool) (s : Tool) :
    (editField m i text escaped s).buffer = Function.update s.buffer i text := by
  simp only [editField]
  split_ifs
  · rfl
  · exact storeOpcode_buffer _ _

/-- After some fields the cell holds the last opcode stored. -/
theorem storeFields_spec (m : Machine) (fields : List (Fin 7)) (s : Tool) :
    (fields.foldl (fun s i => storeOpcode (parseField m s.buffer i) s) s).buffer = s.buffer ∧
      (fields.foldl (fun s i => storeOpcode (parseField m s.buffer i) s) s).rawSysCall =
        (opcodes m s.buffer fields).getLast?.getD s.rawSysCall := by
  induction fields generalizing s with
  | nil => exact ⟨rfl,rfl⟩
  | cons i fields ih =>
    obtain ⟨hbuffer,hraw⟩ := ih (storeOpcode (parseField m s.buffer i) s)
    rw [storeOpcode_buffer] at hbuffer hraw
    refine ⟨hbuffer,hraw.trans ?_⟩
    rw [storeOpcode_rawSysCall, opcodes, opcodes, List.filterMap_cons]
    cases (parseField m s.buffer i).opcode with
    | none => rfl
    | some opcode => rw [List.getLast?_cons]; rfl

theorem storeOpcodes_buffer (m : Machine) (s : Tool) : (storeOpcodes m s).buffer = s.buffer :=
  (storeFields_spec m _ s).1

theorem storeOpcodes_rawSysCall (m : Machine) (s : Tool) :
    (storeOpcodes m s).rawSysCall =
      (opcodes m s.buffer (List.finRange 7)).getLast?.getD s.rawSysCall :=
  (storeFields_spec m _ s).2

/-- What a call is made of. -/
structure Called (m : Machine) (buffer : Fin 7 → List ℕ) (call : Invocation) : Prop where
  parsed : ∀ i,(parseField m buffer i).number.isSome
  target : some call.target = (parseField m buffer functionField).number
  args : call.args.map some = argFields.map fun i => (parseField m buffer i).number
  rawSysCall : ∃ raw,
    call.rawSysCall = (opcodes m buffer (List.finRange 7)).getLast?.getD raw

theorem some_getD {o : Option (BitVec 32)} (h : o.isSome) : some (o.getD 0) = o := by
  cases o with
  | none => exact nomatch h
  | some n => rfl

theorem called_invocation {s : Tool} (hs : s.buffer = buffer)
    (hparsed : ∀ i,(parseField m buffer i).number.isSome) (k : Scribble) :
    Called m buffer (invocation (fun i => (parseField m buffer i).number.getD 0)
      (draw (scribble k) (storeOpcodes m s))) where
  parsed := hparsed
  target := some_getD (hparsed functionField)
  args := by simp only [invocation, List.map_map, Function.comp_def, some_getD (hparsed _)]
  rawSysCall := ⟨s.rawSysCall,hs ▸ storeOpcodes_rawSysCall m s⟩

/-- Whatever was done in the dialog, a call is made of the fields it was made with. -/
theorem invokeLoop_called {last : Scribble} {rs : List Round} {s : Tool}
    (h : (invokeLoop m last rs s).1 = some call) :
    Called m (invokeLoop m last rs s).2.buffer call := by
  induction rs generalizing s with
  | nil => exact nomatch h
  | cons r rs ih =>
    have hbuffer : (draw (scribble r.scribble) (storeOpcodes m s)).buffer = s.buffer :=
      storeOpcodes_buffer m s
    simp only [invokeLoop, hbuffer] at h ⊢
    split_ifs at h ⊢ with hesc hfield hparsed
    · exact ih h
    · obtain rfl := Option.some.inj h
      exact called_invocation rfl hparsed r.scribble
    · exact ih h

theorem Dispatches.called (h : Dispatches m buffer call) : Called m buffer call := by
  obtain ⟨last,rs,s,hcall,rfl⟩ := h
  exact invokeLoop_called hcall

/-- Fields that are numbers can be called. -/
theorem dispatches_of_parsed (s : Tool) (hparsed : ∀ i,(parseField m buffer i).number.isSome) :
    ∃ call,Dispatches m buffer call := by
  let k : Scribble := ⟨s.os3k.lcd.ram,s.os3k.cursor,.hide⟩
  let r : Round := ⟨k,0x40,7,[],false,s.os3k,s.memory⟩
  let s' : Tool := { s with buffer := buffer }
  have hbuffer : (draw (scribble r.scribble) (storeOpcodes m s')).buffer = buffer :=
    storeOpcodes_buffer m s'
  have hesc : withoutCapsLock r.key ≠ keyEsc := (by decide : withoutCapsLock 0x40 ≠ keyEsc)
  have hchoice : ¬ r.choice.val < 7 := Nat.lt_irrefl 7
  refine ⟨invocation (fun i => (parseField m buffer i).number.getD 0)
    (draw (scribble k) (storeOpcodes m s')),k,[r],s',?_,?_⟩
  · simp only [invokeLoop, hbuffer]
    rw [if_neg hesc, dif_neg hchoice, if_pos hparsed]
  · simp only [invokeLoop, hbuffer]
    rw [if_neg hesc, dif_neg hchoice, if_pos hparsed]

/-! ### The opcode -/

theorem opcode_eq_none_iff {p : Addr} {str : List ℕ} :
    (numberFromString m p str).opcode = none ↔ str.head? ≠ some 0x21 := by
  unfold numberFromString
  split_ifs with hstring hcall
  · rw [hstring]
    exact ⟨fun _ => by decide,fun _ => rfl⟩
  · exact ⟨fun h => absurd h (by decide),fun h => absurd hcall h⟩
  · exact ⟨fun _ => hcall,fun _ => by simp only; split_ifs <;> rfl⟩

/-- A field that stores an opcode is the address of the cell. -/
theorem number_of_opcode {p : Addr} {str : List ℕ} {opcode : BitVec 16} {n : BitVec 32}
    (hopcode : (numberFromString m p str).opcode = some opcode)
    (hn : (numberFromString m p str).number = some n) : n = m.rawSysCall := by
  have hcall : str.head? = some 0x21 := by
    by_contra hne
    rw [opcode_eq_none_iff.mpr hne] at hopcode
    exact nomatch hopcode
  rw [numberFromString, if_neg (by rw [hcall]; decide), if_pos hcall] at hn
  simp only at hn
  split_ifs at hn
  exact (Option.some.inj hn).symm

/-- The cell at the time of the call, if the function field stores an opcode. -/
theorem Called.rawSysCall_eq (h : Called m buffer call) {opcode : BitVec 16}
    (hopcode : (parseField m buffer functionField).opcode = some opcode) :
    call.rawSysCall = (opcodes m buffer otherFields).getLast?.getD opcode := by
  obtain ⟨raw,hraw⟩ := h.rawSysCall
  have hfields : List.finRange 7 = functionField::otherFields := by decide
  have hall : opcodes m buffer (List.finRange 7) = opcode::opcodes m buffer otherFields := by
    rw [hfields, opcodes, List.filterMap_cons, hopcode]
    rfl
  rw [hraw, hall, List.getLast?_cons]
  rfl

/-- The function field of a call means the address called, or a system call. -/
theorem Called.denotedCode_address (h : Called m buffer call)
    (hplain : (parseField m buffer functionField).opcode = none) :
    denotedCode m (buffer functionField) = some (.address call.target) := by
  have htarget := h.target
  rw [parseField] at hplain htarget
  rw [denotedCode]
  simp only [hplain]
  rw [← htarget]
  rfl

theorem Called.denotedCode_systemCall (h : Called m buffer call) {opcode : BitVec 16}
    (hopcode : (parseField m buffer functionField).opcode = some opcode) :
    denotedCode m (buffer functionField) = some (.systemCall opcode) := by
  have htarget := h.target
  rw [parseField] at hopcode htarget
  rw [denotedCode]
  simp only [hopcode]
  rw [← htarget]
  rfl

theorem Called.meant_iff (h : Called m buffer call) :
    Meant m buffer call ↔ Undisturbed m buffer := by
  rw [Meant, and_iff_left h.args, Undisturbed]
  cases hopcode : (parseField m buffer functionField).opcode with
  | none =>
    rw [h.denotedCode_address hopcode]
    refine ⟨fun _ => nofun,fun _ c hc => ?_⟩
    obtain rfl : Code.address call.target = c := Option.some.inj hc
    rfl
  | some opcode =>
    rw [h.denotedCode_systemCall hopcode]
    have hcell : call.target = m.rawSysCall := number_of_opcode hopcode h.target.symm
    have hraw := h.rawSysCall_eq hopcode
    constructor
    · intro hmeant opcode₀ h₀ opcode' hlast
      obtain rfl : opcode = opcode₀ := Option.some.inj h₀
      have hreached := (hmeant (.systemCall opcode) rfl).2
      rw [hraw, Option.mem_def.mp hlast] at hreached
      exact hreached
    · intro hsame c hc
      obtain rfl : Code.systemCall opcode = c := Option.some.inj hc
      refine ⟨hcell,?_⟩
      rw [hraw]
      cases hlast : (opcodes m buffer otherFields).getLast? with
      | none => rfl
      | some opcode' => exact hsame opcode rfl opcode' hlast

/-! ### Independence -/

theorem parseField_update_of_ne {i k : Fin 7} (h : k ≠ i) (text : List ℕ) :
    parseField m (Function.update buffer i text) k = parseField m buffer k := by
  rw [parseField, Function.update_of_ne h, parseField]

/-- Arguments only depend on their own fields. -/
theorem Called.args_eq (h : Called m buffer call) {i : Fin 7} {text : List ℕ} {call' : Invocation}
    (h' : Called m (Function.update buffer i text) call') {k : ℕ} (hk : k < argFields.length)
    (hne : argFields[k] ≠ i) : call'.args[k]? = call.args[k]? := by
  have hvalue := congrArg (fun l => l[k]?) h.args
  have hvalue' := congrArg (fun l => l[k]?) h'.args
  simp only [List.getElem?_map, List.getElem?_eq_getElem hk, Option.map_some] at hvalue hvalue'
  rw [parseField_update_of_ne hne, ← hvalue] at hvalue'
  exact Option.map_injective (Option.some_injective _) hvalue'

/-- A function field without `!` is called whatever the other fields are. -/
theorem Called.independent (h : Called m buffer call)
    (hplain : (parseField m buffer functionField).opcode = none) : Independent m buffer call := by
  intro i text call' hcall'
  have h' := hcall'.called
  refine ⟨fun hi c hc hreach => ?_,fun k hk hne => h.args_eq h' hk hne⟩
  have htarget' := h'.target
  rw [parseField_update_of_ne (Ne.symm hi), ← h.target] at htarget'
  have hsame : call'.target = call.target := Option.some.inj htarget'
  cases c with
  | address a => exact hsame.trans hreach
  | systemCall opcode =>
    rw [h.denotedCode_address hplain] at hc
    exact nomatch hc

/-- `!0` and `!1` are two system calls. -/
theorem exists_other_opcode (m : Machine) (p : Addr) (opcode : BitVec 16) :
    ∃ text opcode',numberFromString m p text = ⟨some m.rawSysCall,some opcode'⟩ ∧
      opcode' ≠ opcode := by
  by_cases h : opcode = 0xA000
  · exact ⟨[0x21,0x31],0xA004,rfl,by rw [h]; decide⟩
  · exact ⟨[0x21,0x30],0xA000,rfl,fun h' => h h'.symm⟩

/-- With `!` in the function field, another `!` in the last argument field parsed
changes the code. -/
theorem Called.not_independent (h : Called m buffer call) (s : Tool) {opcode : BitVec 16}
    (hopcode : (parseField m buffer functionField).opcode = some opcode)
    (hmeant : Meant m buffer call) : ¬ Independent m buffer call := by
  intro hindep
  obtain ⟨text,opcode',htext,hne⟩ := exists_other_opcode m (m.field 6) opcode
  have hlast : parseField m (Function.update buffer 6 text) 6 =
      ⟨some m.rawSysCall,some opcode'⟩ := by
    rw [parseField, Function.update_self]
    exact htext
  have hparsed : ∀ i,(parseField m (Function.update buffer 6 text) i).number.isSome := by
    intro i
    by_cases hi : i = 6
    · rw [hi, hlast]
      rfl
    · rw [parseField_update_of_ne hi]
      exact h.parsed i
  obtain ⟨call',hcall'⟩ := dispatches_of_parsed s hparsed
  have hopcode₀ :
      (parseField m (Function.update buffer 6 text) functionField).opcode = some opcode := by
    rw [parseField_update_of_ne (by decide)]
    exact hopcode
  have hdenoted := h.denotedCode_systemCall hopcode
  have hreached := ((hindep 6 text call' hcall').1 (by decide) _ hdenoted (hmeant.1 _ hdenoted)).2
  have hraw := hcall'.called.rawSysCall_eq hopcode₀
  have hsplit : opcodes m (Function.update buffer 6 text) otherFields =
      opcodes m (Function.update buffer 6 text) [1,2,3,4,5] ++ [opcode'] := by
    have hsix : opcodes m (Function.update buffer 6 text) [6] = [opcode'] := by
      rw [opcodes, List.filterMap_cons, hlast]
      rfl
    rw [← hsix, opcodes, opcodes, opcodes, ← List.filterMap_append]
    rfl
  rw [hsplit, List.getLast?_concat, Option.getD_some, hreached] at hraw
  exact hne hraw.symm

/-- A call is made of what the fields denote one by one, and stays so under changes of
the other fields, exactly if the function field has no `!`. The call alone is right
exactly if the function field's opcode is the last one stored. -/
theorem fields_independent_iff (h : Dispatches m buffer call) :
    (Meant m buffer call ∧ Independent m buffer call ↔ (buffer functionField).head? ≠ some 0x21) ∧
      (Meant m buffer call ↔ Undisturbed m buffer) := by
  have hcalled := h.called
  refine ⟨?_,hcalled.meant_iff⟩
  rw [← opcode_eq_none_iff (m := m) (p := m.field functionField)]
  change _ ↔ (parseField m buffer functionField).opcode = none
  constructor
  · rintro ⟨hmeant,hindep⟩
    cases hopcode : (parseField m buffer functionField).opcode with
    | none => rfl
    | some opcode =>
      obtain ⟨last,rs,s,-⟩ := h
      exact absurd hindep (hcalled.not_independent s hopcode hmeant)
  · intro hplain
    refine ⟨hcalled.meant_iff.mpr fun opcode hopcode => ?_,hcalled.independent hplain⟩
    rw [hplain] at hopcode
    exact nomatch hopcode

/-- The fields of an invoke dialog: the function, an argument in slot 1, zeros. -/
def fieldsOf (function argument : List ℕ) : Fin 7 → List ℕ :=
  fun i => if i.val = 0 then function else if i.val = 1 then argument else [0x30]

/-- The dialog that is left with the call at once. -/
def callAtOnce (function argument : List ℕ) : Option Invocation × Tool :=
  let s := { bssTool fun _ => 0 with buffer := fieldsOf function argument }
  invokeLoop neoMachine noDialogs.last
    [⟨noDialogs.last,0x40,7,[],false,s.os3k,s.memory⟩] s

/-- `ClearScreen` with the argument 3. -/
theorem fields_independent_iff_clearScreen :
    ∃ call,Dispatches neoMachine (fieldsOf [0x21,0x30] [0x33]) call ∧
      Meant neoMachine (fieldsOf [0x21,0x30] [0x33]) call := by
  let call : Invocation := ⟨0x70100,[0,0,0,3,0,0],0xA000⟩
  have hcall : Dispatches neoMachine (fieldsOf [0x21,0x30] [0x33]) call :=
    ⟨_,_,_,(rfl : (callAtOnce [0x21,0x30] [0x33]).1 = _),rfl⟩
  refine ⟨call,hcall,(fields_independent_iff hcall).2.mpr ?_⟩
  have hnone : opcodes neoMachine (fieldsOf [0x21,0x30] [0x33]) otherFields = [] := rfl
  intro opcode _ opcode' hlast
  rw [hnone] at hlast
  exact nomatch hlast

/-- With `!0` as the function and `!1` as an argument, `SetCursor` is called instead
of `ClearScreen`. -/
theorem shared_cell_calls_other :
    ¬ ∀ m buffer call,Dispatches m buffer call →
      Meant m buffer call ∧ Independent m buffer call := by
  intro hclaim
  let call : Invocation := ⟨0x70100,[0,0,0,0x70100,0,0],0xA004⟩
  have hcall : Dispatches neoMachine (fieldsOf [0x21,0x30] [0x21,0x31]) call :=
    ⟨_,_,_,(rfl : (callAtOnce [0x21,0x30] [0x21,0x31]).1 = _),rfl⟩
  have hreached := ((hclaim _ _ _ hcall).1.1 (.systemCall 0xA000) rfl).2
  exact absurd hreached (by decide)

end Betawise.DebugInvoke
