import Betawise.DebugDump
import Betawise.DebugNavigation
import Betawise.EventRuns

/-!
# Hexadecimal entry

Without display and window, hexadecimal entry is a memory, an address and a flag for the
low nibble, and every digit is one masked store. The tool simulates it on whatever is
typed between the digits; two digits make a byte and move the address on.
-/
namespace Betawise.DebugHexEntry
open Os3kState ByteMemory EventRuns HexNotation DebugTool DebugNavigation DebugDump

/-! ### Entry without a window -/

structure Entry where
  memory : Memory
  address : Addr
  low : Bool

/-- A byte that an edit can change. -/
def Stores (m : Machine) (x : Addr) : Prop :=
  m.faults x = false ∧ m.writable x = true ∧ ¬ InWord 8 x

instance (m : Machine) (x : Addr) : Decidable (Stores m x) := inferInstanceAs (Decidable (_ ∧ _))

/-- The byte at the address is stored, if it can be. -/
def Entry.put (m : Machine) (value mask : BitVec 8) (e : Entry) : Memory := fun x =>
  if x = e.address ∧ Stores m x then typed value mask (e.memory x) else e.memory x

/-- One digit. -/
def Entry.enter (m : Machine) (e : Entry) (d : ℕ) : Entry :=
  if e.low then ⟨e.put m (BitVec.ofNat 8 d) 0xF0,e.address + 1,false⟩
  else ⟨e.put m (BitVec.ofNat 8 d <<< 4) 0x0F,e.address,true⟩

/-- The value of a character that is a hexadecimal digit of either case. -/
def digitOf (c : BitVec 32) : Option ℕ := hexValue (c.toNat % 256)

/-- One character; what is not a digit is ignored. -/
def Entry.type (m : Machine) (e : Entry) (c : BitVec 32) : Entry :=
  match digitOf c with
  | none => e
  | some d => e.enter m d

/-- The byte of two digits. -/
def pairByte (d d' : ℕ) : BitVec 8 := BitVec.ofNat 8 (16 * d + d')

variable {m : Machine} {e : Entry}

/-- What one mask keeps, a mask apart from it drops. -/
theorem typed_apart (old value value' : BitVec 8) {mask mask' : BitVec 8}
    (h : mask &&& mask' = 0#8) :
    typed value' mask' (typed value mask old) = (value &&& mask') ||| value' := by
  rw [typed, typed, BitVec.and_or_distrib_right, BitVec.and_assoc, h, BitVec.and_zero,
    BitVec.zero_or]

/-- The second digit keeps the nibble of the first and nothing of the old byte. -/
theorem typed_pair (old : BitVec 8) {d d' : ℕ} (hd : d < 16) (hd' : d' < 16) :
    typed (BitVec.ofNat 8 d') 0xF0 (typed (BitVec.ofNat 8 d <<< 4) 0x0F old) = pairByte d d' := by
  have hpair : ∀ d < 16, ∀ d' < 16, typed (BitVec.ofNat 8 d') 0xF0
      (typed (BitVec.ofNat 8 d <<< 4) 0x0F 0) = pairByte d d' := by decide
  rw [← hpair d hd d' hd', typed_apart old _ _ rfl, typed_apart 0 _ _ rfl]

theorem enter_pair (hlow : e.low = false) {d d' : ℕ} (hd : d < 16) (hd' : d' < 16) :
    (e.enter m d).enter m d' =
      ⟨fun x => if x = e.address ∧ Stores m x then pairByte d d' else e.memory x,
        e.address + 1,false⟩ := by
  have hfirst : e.enter m d = ⟨e.put m (BitVec.ofNat 8 d <<< 4) 0x0F,e.address,true⟩ := by
    rw [Entry.enter, hlow]
    rfl
  rw [hfirst, Entry.enter, if_pos rfl]
  congr 1
  funext x
  simp only [Entry.put]
  split_ifs
  · exact typed_pair _ hd hd'
  · rfl

/-- What digits leave behind from an address on. -/
structure Entered (m : Machine) (ds : List ℕ) (n : ℕ) (e e' : Entry) : Prop where
  address : e'.address = e.address + BitVec.ofNat 32 n
  low : e'.low = false
  stored : ∀ i < n,Stores m (e.address + BitVec.ofNat 32 i) → ∀ d d',ds[2 * i]? = some d →
    ds[2 * i + 1]? = some d' → e'.memory (e.address + BitVec.ofNat 32 i) = pairByte d d'
  frame : ∀ x,(∀ i < n,x = e.address + BitVec.ofNat 32 i → ¬ Stores m x) →
    e'.memory x = e.memory x

/-- Two digits for each byte, for no more bytes than there are addresses. -/
theorem enter_digits {ds : List ℕ} {n : ℕ} (hlen : ds.length = 2 * n) (hn : n < 4294967296)
    (hds : ∀ d ∈ ds,d < 16) (hlow : e.low = false) :
    Entered m ds n e (ds.foldl (Entry.enter m) e) := by
  induction n generalizing ds e with
  | zero =>
    obtain rfl := List.length_eq_zero_iff.mp hlen
    exact ⟨(BitVec.add_zero _).symm,hlow,nofun,fun _ _ => rfl⟩
  | succ n ih =>
    match ds, hlen with
    | d::d'::ds, hlen =>
      rw [List.length_cons, List.length_cons] at hlen
      have hd : d < 16 := hds d List.mem_cons_self
      have hd' : d' < 16 := hds d' (List.mem_cons_of_mem d List.mem_cons_self)
      let e₁ := (e.enter m d).enter m d'
      have h₁ : e₁ = _ := enter_pair hlow hd hd'
      have haddress : e₁.address = e.address + 1 := by rw [h₁]
      have hmemory (x : Addr) : e₁.memory x =
          if x = e.address ∧ Stores m x then pairByte d d' else e.memory x := by rw [h₁]
      have hnext (i : ℕ) : e₁.address + BitVec.ofNat 32 i =
          e.address + BitVec.ofNat 32 (i + 1) := by
        rw [haddress]
        bv_omega
      obtain ⟨haddr,hlow',hstored,hframe⟩ := ih (e := e₁)
        (show ds.length = 2 * n by omega) (by omega)
        (fun c hc => hds c (List.mem_cons_of_mem d (List.mem_cons_of_mem d' hc))) (by rw [h₁])
      simp only [hnext] at haddr hstored hframe
      refine ⟨haddr,hlow',fun i hi hs c c' hc hc' => ?_,fun x hx => ?_⟩
      · cases i with
        | zero =>
          obtain rfl : d = c := Option.some.inj hc
          obtain rfl : d' = c' := Option.some.inj hc'
          rw [BitVec.add_zero] at hs ⊢
          -- the bytes that follow are other bytes
          have hkept := hframe e.address fun i hi heq => by bv_omega
          exact hkept.trans ((hmemory e.address).trans (if_pos ⟨rfl,hs⟩))
        | succ i => exact hstored i (by omega) hs c c' hc hc'
      · have hkept := hframe x fun i hi => hx (i + 1) (by omega)
        refine hkept.trans ((hmemory x).trans (if_neg ?_))
        rintro ⟨heq,hs⟩
        exact hx 0 (Nat.succ_pos n) (heq.trans (BitVec.add_zero _).symm) hs

/-! ### The tool enters digits -/

/-- The tool with its window shows an entry. -/
structure Entering (rows : ℕ) (s : Tool) (e : Entry) : Prop where
  placed : Placed rows s.toNavigation
  memory : s.memory = e.memory
  address : current s.toNavigation = e.address
  mode : s.mode = if e.low then .nibbleLo else .nibbleHi

variable {rows : ℕ} {s : Tool}

theorem dumpMoveCursor_memory (m : Machine) (c : ℤ) (s : Tool) :
    (dumpMoveCursor m c s).memory = s.memory := by
  simp only [dumpMoveCursor]
  split_ifs
  · exact dumpRedrawScreen_memory m _
  · exact dumpRedrawScreen_memory m _
  · rfl

theorem Entering.edited_eq (h : Entering rows s e) (value mask : BitVec 8) :
    edited m value mask s = e.put m value mask := by
  funext x
  simp only [edited, Entry.put, Stores, h.memory, h.address]
  rfl

/-- A character that is typed in hexadecimal mode. -/
theorem char_entering (h : Entering rows s e) {c : BitVec 32} (htab : c ≠ 0x09) :
    Entering rows (processMessage m s (.char c)) (e.type m c) := by
  have hmoved := char_moved (m := m) h.placed c
  have hmode := h.mode
  have hascii : s.mode ≠ .ascii := by
    rw [hmode]
    split_ifs <;> decide
  have hview : view (processChar m c s).toNavigation =
      (view s.toNavigation).type c := hmoved.view
  cases hdigit : digitOf c with
  | none =>
    -- nothing happens, Return included
    have hsame : processChar m c s = s := by
      rw [processChar, if_neg htab]
      split_ifs
      · rfl
      · unfold digitOf at hdigit
        cases hm : s.mode with
        | nibbleHi => simp only [hexCharToNibble_param, hdigit]
        | nibbleLo => simp only [hexCharToNibble_param, hdigit]
        | ascii => exact absurd hm hascii
    rw [Entry.type, hdigit]
    change Entering rows (processChar m c s) e
    rw [hsame]
    exact h
  | some d =>
    have hreturn : c ≠ 0x0D := by
      rintro rfl
      rw [show digitOf 0x0D = none from rfl] at hdigit
      exact absurd hdigit.symm (Option.some_ne_none d)
    have haccepts : (view s.toNavigation).Accepts c := Or.inr (by
      rw [← digitOf, hdigit]
      rfl)
    rw [Editor.type, if_neg htab, if_neg hreturn, if_pos haccepts] at hview
    rw [Entry.type, hdigit]
    change Entering rows (processChar m c s) (e.enter m d)
    unfold digitOf at hdigit
    cases hlow : e.low with
    | false =>
      have hm : s.mode = .nibbleHi := by rw [hmode, hlow]; rfl
      have hmemory : (processChar m c s).memory =
          (dumpWriteAndRedrawCur m (BitVec.ofNat 8 d <<< 4) 0x0F s).memory := by
        rw [processChar, if_neg htab, if_neg hreturn]
        simp only [hm, hexCharToNibble_param, hdigit]
        rfl
      rw [dumpWriteAndRedrawCur_memory, h.edited_eq] at hmemory
      rw [Entry.enter, hlow]
      simp only [Editor.right, DebugNavigation.view, hm] at hview
      exact ⟨hmoved.placed,hmemory,(congrArg Editor.address hview).trans h.address,
        congrArg Editor.mode hview⟩
    | true =>
      have hm : s.mode = .nibbleLo := by rw [hmode, hlow]; rfl
      have hmemory : (processChar m c s).memory =
          (dumpWriteAndRedrawCur m (BitVec.ofNat 8 d) 0xF0 s).memory := by
        rw [processChar, if_neg htab, if_neg hreturn]
        simp only [hm, hexCharToNibble_param, hdigit]
        exact dumpMoveCursor_memory m _ _
      rw [dumpWriteAndRedrawCur_memory, h.edited_eq] at hmemory
      rw [Entry.enter, hlow]
      simp only [Editor.right, DebugNavigation.view, hm] at hview
      exact ⟨hmoved.placed,hmemory,
        (congrArg Editor.address hview).trans (congrArg (· + 1) h.address),
        congrArg Editor.mode hview⟩

theorem type_eq_enter (m : Machine) (e : Entry) (cs : List (BitVec 32)) :
    cs.foldl (Entry.type m) e = (cs.filterMap digitOf).foldl (Entry.enter m) e := by
  induction cs generalizing e with
  | nil => rfl
  | cons c cs ih =>
    rw [List.foldl_cons, ih, List.filterMap_cons, Entry.type]
    cases digitOf c <;> rfl

theorem digitOf_lt {c : BitVec 32} {d : ℕ} (h : digitOf c = some d) : d < 16 := hexValue_lt h

/-- Characters typed one after another. -/
def typeChars (m : Machine) (s : Tool) (cs : List (BitVec 32)) : Tool :=
  cs.foldl (fun s c => processMessage m s (.char c)) s

/-- From the high nibble at an address, in any state the tool reaches, characters whose
hexadecimal digits are `h₁ h₂ … h₂ₙ` store `h₁h₂`, `h₃h₄`, … in the bytes from there on
that can be stored to, change no other byte, and leave the cursor on the high nibble `n`
addresses on. The bus-error vector is among the bytes that keep their values; of the
library's cursor nothing is said. -/
theorem hexEntry_writes (m : Machine) (s₀ : Tool)
    (hrows : reportedRows m s₀ = 4 ∨ reportedRows m s₀ = 8)
    (es : List Event) (cs : List (BitVec 32)) (n : ℕ)
    (hmode : (es.foldl (processMessage m) (focused m s₀)).mode = .nibbleHi)
    (htab : ∀ c ∈ cs,c ≠ 0x09) (hdigits : (cs.filterMap digitOf).length = 2 * n)
    (hn : n < 4294967296) :
    let s := es.foldl (processMessage m) (focused m s₀)
    let a := current s.toNavigation
    let s' := typeChars m s cs
    (∀ i < n,Stores m (a + BitVec.ofNat 32 i) → ¬ InCursorStruct (a + BitVec.ofNat 32 i) →
        ∀ d d',(cs.filterMap digitOf)[2 * i]? = some d →
          (cs.filterMap digitOf)[2 * i + 1]? = some d' →
            s'.memory (a + BitVec.ofNat 32 i) = pairByte d d') ∧
      (∀ x,¬ InCursorStruct x → (∀ i < n,x = a + BitVec.ofNat 32 i → ¬ Stores m x) →
        s'.memory x = s.memory x) ∧
      current s'.toNavigation = a + BitVec.ofNat 32 n ∧ s'.mode = .nibbleHi := by
  intro s a s'
  obtain ⟨hplaced,-⟩ := run_moved (m := m) (focused_placed hrows) es
  let e : Entry := ⟨s.memory,a,false⟩
  have hstart : Entering (reportedRows m s₀) s e := ⟨hplaced,rfl,rfl,hmode⟩
  have hrun : Entering (reportedRows m s₀) s' (cs.foldl (Entry.type m) e) :=
    simulation (R := Entering (reportedRows m s₀))
      (fun _ _ c h hc => char_entering (c := c) h hc.2) hstart ((along_true e cs).and_mem htab)
  have hds : ∀ d ∈ cs.filterMap digitOf,d < 16 := by
    intro d hd
    obtain ⟨c,-,hc⟩ := List.mem_filterMap.mp hd
    exact digitOf_lt hc
  have hentered := enter_digits (m := m) (e := e) hdigits hn hds rfl
  rw [← type_eq_enter] at hentered
  rw [hrun.memory, hrun.address, hrun.mode, hentered.low]
  exact ⟨fun i hi hs _ => hentered.stored i hi hs,fun x _ hx => hentered.frame x hx,
    hentered.address,rfl⟩

/-- On the Neo: the digits of two bytes, from address 0 on, with a letter between them. -/
theorem hexEntry_writes_neo :
    let s := [].foldl (processMessage neoMachine) (focused neoMachine (bssTool fun _ => 0))
    let a := current s.toNavigation
    let cs : List (BitVec 32) := [0x34,0x47,0x46,0x61,0x31]
    let s' := typeChars neoMachine s cs
    (∀ i < 2,Stores neoMachine (a + BitVec.ofNat 32 i) →
        ¬ InCursorStruct (a + BitVec.ofNat 32 i) →
          ∀ d d',(cs.filterMap digitOf)[2 * i]? = some d →
            (cs.filterMap digitOf)[2 * i + 1]? = some d' →
              s'.memory (a + BitVec.ofNat 32 i) = pairByte d d') ∧
      (∀ x,¬ InCursorStruct x → (∀ i < 2,x = a + BitVec.ofNat 32 i → ¬ Stores neoMachine x) →
        s'.memory x = s.memory x) ∧
      current s'.toNavigation = a + BitVec.ofNat 32 2 ∧ s'.mode = .nibbleHi :=
  hexEntry_writes neoMachine (bssTool fun _ => 0) (Or.inr (neoMachine_reportedRows _)) [] _ 2
    (congrArg Navigation.mode (focused_toNavigation neoMachine _)) (by simp) rfl (by decide)

end Betawise.DebugHexEntry
