import Betawise.EventRuns
import Betawise.LoggedRam
import Mathlib.Data.List.Find

/-!
# Variables

Behind the program stand the functions, the variables, the strings and the arrays. An
entry of the first three is a name of four bytes and a value of a fixed size. An entry is
searched from the start of its kind on; a new one is put at the end of its kind, and
everything behind it moves up. There is no test for room.
-/
namespace Betawise.BasicVariables
open LoggedRam EventRuns

/-- The pointers of `EhBASIC.inc` from `Sfncl` to `Ememl`. `a4` is the descriptor pointer,
and `desSk` the start of the descriptor stack, which grows downwards. -/
structure Store where
  ram : Ram
  sfncl : ℕ
  svarl : ℕ
  sstrl : ℕ
  sarryl : ℕ
  earryl : ℕ
  sstorl : ℕ
  ememl : ℕ
  a4 : ℕ
  desSk : ℕ

inductive Kind where
  | function
  | numeric
  | string
  deriving DecidableEq

/-- The name and a value: two long words, one, or a long word and a word. -/
def Kind.size : Kind → ℕ
  | .function => 12
  | .numeric => 8
  | .string => 10

def startAddress (b : Store) : Kind → ℕ
  | .function => b.sfncl
  | .numeric => b.svarl
  | .string => b.sstrl

def endAddress (b : Store) : Kind → ℕ
  | .function => b.svarl
  | .numeric => b.sstrl
  | .string => b.sarryl

/-- Bit 23 of a name. -/
def isString (name : ℕ) : Bool := name.testBit 23

/-- `LAB_1D4A`: the kind of a name that is not a function's. -/
def kindOf (name : ℕ) : Kind := if isString name then .string else .numeric

/-- `LAB_1D5D` and `LAB_1D5E`: the address of the value. -/
def search (byte : ℕ → ℕ) (name size a1 : ℕ) : ℕ → ℕ → Option (Option ℕ)
  | 0,_ => none
  | fuel + 1,a0 =>
    if a0 = a1 then some none
    else if read32 byte a0 = name then some (some (a0 + 4))
    else search byte name size a1 fuel (a0 + size)

/-- `LAB_GVAR` without an error. -/
def gvar (k : Kind) (name : ℕ) (b : Store) : Option (Option ℕ) :=
  search b.ram.byte name k.size (endAddress b k) (endAddress b k - startAddress b k + 1)
    (startAddress b k)

/-- The pointers behind a new entry. -/
def shift (k : Kind) (b : Store) : Store :=
  let b := { b with earryl := b.earryl + k.size, sarryl := b.sarryl + k.size }
  match k with
  | .function => { b with svarl := b.svarl + k.size, sstrl := b.sstrl + k.size }
  | .numeric => { b with sstrl := b.sstrl + k.size }
  | .string => b

/-- `LAB_1D98`: the address of the value of a new entry. Of a function only the first
long word is cleared. -/
def create (k : Kind) (name : ℕ) (b : Store) : ℕ × Store :=
  let a := endAddress b k
  let ram := copyDown ((b.earryl - a) / 2) b.earryl (b.earryl + k.size) b.ram
  let ram := poke32 (a + 4) 0 (poke32 a name ram)
  let ram := if isString name then pokeBytes (a + 8) [0,0] ram else ram
  (a + 4,{ shift k b with ram := ram })

/-- `LAB_SVAR`. -/
def svar (k : Kind) (name : ℕ) (b : Store) : Option (ℕ × Store) :=
  match gvar k name b with
  | none => none
  | some (some a) => some (a,b)
  | some none => some (create k name b)

/-- A value is stored in its variable, which is created if there is none. -/
def assign (k : Kind) (name : ℕ) (value : List ℕ) (b : Store) : Option Store :=
  match svar k name b with
  | none => none
  | some (a,b) => some { b with ram := pokeBytes a value b.ram }

/-! ### Names -/

/-- `LAB_CASC`. -/
def casc (c : ℕ) : Bool := 0x41 ≤ c ∧ c ≤ 0x5A ∨ 0x61 ≤ c ∧ c ≤ 0x7A

def isDigit (c : ℕ) : Bool := 0x30 ≤ c ∧ c ≤ 0x39

/-- `LAB_1D2D` and `LAB_1D2E`: letters and digits, with spaces between them ignored, and
what follows. -/
def nameChars : List ℕ → List ℕ × List ℕ
  | [] => ([],[])
  | c::s =>
    if c = 0x20 then nameChars s
    else if isDigit c ∨ casc c then (c::(nameChars s).1,(nameChars s).2)
    else ([],c::s)

inductive Mark where
  | float
  | integer
  | string
  deriving DecidableEq

/-- Byte `i` of a name. The mark is the top bit of the second or the third byte. -/
def nameByte (cs : List ℕ) (mark : Mark) (i : ℕ) : ℕ :=
  let c := cs.getD i 0
  if mark = .string ∧ i = 1 ∨ mark = .integer ∧ i = 2 then c ||| 0x80 else c

/-- `Varname`, of the first four characters. -/
def varname (cs : List ℕ) (mark : Mark) : ℕ :=
  read32 (nameByte cs mark) 0

/-- The mark behind a name, and the rest from the next character on. -/
def readMark : List ℕ → Mark × List ℕ
  | 0x24::s => (.string,s.dropWhile fun c => decide (c = 0x20))
  | 0x26::s => (.integer,s.dropWhile fun c => decide (c = 0x20))
  | s => (.float,s)

/-- `LAB_1D12` up to `LAB_1D45`: the name and the rest of the text. Nothing is returned for
a syntax error. -/
def readName (s : List ℕ) : Option (ℕ × List ℕ) :=
  match nameChars s with
  | ([],_) => none
  | (c::cs,rest) =>
    if casc c then some (varname (c::cs) (readMark rest).1,(readMark rest).2) else none

/-! ### Entries in memory -/

structure Entry (k : Kind) where
  name : ℕ
  value : List ℕ
  name_lt : name < 4294967296
  length : value.length + 4 = k.size

def Entry.bytes {k : Kind} (e : Entry k) : List ℕ := bytes32 e.name ++ e.value

def entryBytes {k : Kind} (es : List (Entry k)) : List ℕ := es.flatMap Entry.bytes

/-- What stands between the program and the free memory. -/
structure Contents where
  entries : (k : Kind) → List (Entry k)
  arrays : List ℕ
  even : arrays.length % 2 = 0

def Contents.image (m : Contents) : List ℕ :=
  entryBytes (m.entries .function) ++ entryBytes (m.entries .numeric) ++
    entryBytes (m.entries .string) ++ m.arrays

structure Holds (b : Store) (m : Contents) : Prop where
  image : BytesAt b.ram.byte b.sfncl m.image
  svarl : b.svarl = b.sfncl + (entryBytes (m.entries .function)).length
  sstrl : b.sstrl = b.svarl + (entryBytes (m.entries .numeric)).length
  sarryl : b.sarryl = b.sstrl + (entryBytes (m.entries .string)).length
  earryl : b.earryl = b.sarryl + m.arrays.length

variable {b b' : Store} {m : Contents} {k : Kind} {name a : ℕ} {value : List ℕ}

theorem Entry.bytes_length (e : Entry k) : e.bytes.length = k.size := by
  have := e.length
  simp [Entry.bytes, bytes32]
  omega

theorem entryBytes_append (es fs : List (Entry k)) :
    entryBytes (es ++ fs) = entryBytes es ++ entryBytes fs :=
  List.flatMap_append

theorem entryBytes_cons (e : Entry k) (es : List (Entry k)) :
    entryBytes (e::es) = e.bytes ++ entryBytes es :=
  rfl

theorem entryBytes_length (es : List (Entry k)) :
    (entryBytes es).length = k.size * es.length := by
  induction es with
  | nil => rfl
  | cons e es ih =>
    rw [entryBytes_cons, List.length_append, e.bytes_length, ih, List.length_cons, Nat.mul_succ,
      Nat.add_comm]

theorem Kind.size_even (k : Kind) : k.size % 2 = 0 := by
  cases k <;> rfl

theorem Kind.size_pos (k : Kind) : 8 ≤ k.size := by
  cases k <;> decide

theorem entryBytes_even (es : List (Entry k)) : (entryBytes es).length % 2 = 0 := by
  rw [entryBytes_length, Nat.mul_mod, k.size_even, Nat.zero_mul, Nat.zero_mod]

/-! ### One kind of entries -/

/-- The bytes in front of the entries of a kind. -/
def Contents.before (m : Contents) : Kind → List ℕ
  | .function => []
  | .numeric => entryBytes (m.entries .function)
  | .string => entryBytes (m.entries .function) ++ entryBytes (m.entries .numeric)

/-- The bytes behind them. -/
def Contents.behind (m : Contents) : Kind → List ℕ
  | .function =>
    entryBytes (m.entries .numeric) ++ entryBytes (m.entries .string) ++ m.arrays
  | .numeric => entryBytes (m.entries .string) ++ m.arrays
  | .string => m.arrays

def Contents.set (m : Contents) (k : Kind) (es : List (Entry k)) : Contents :=
  { m with entries := Function.update m.entries k es }

theorem image_set (m : Contents) (k : Kind) (es : List (Entry k)) :
    (m.set k es).image = m.before k ++ (entryBytes es ++ m.behind k) := by
  cases k <;> simp [Contents.set, Contents.image, Contents.before, Contents.behind]

theorem set_entries (m : Contents) (k : Kind) : m.set k (m.entries k) = m := by
  simp [Contents.set]

theorem image_eq (m : Contents) (k : Kind) :
    m.image = m.before k ++ (entryBytes (m.entries k) ++ m.behind k) := by
  rw [← image_set, set_entries]

theorem behind_even (m : Contents) (k : Kind) : (m.behind k).length % 2 = 0 := by
  have hv := entryBytes_even (m.entries .numeric)
  have hs := entryBytes_even (m.entries .string)
  have ha := m.even
  cases k <;> simp only [Contents.behind, List.length_append] <;> omega

theorem Holds.start (h : Holds b m) (k : Kind) :
    startAddress b k = b.sfncl + (m.before k).length := by
  have hv := h.svarl
  have hs := h.sstrl
  cases k <;> simp only [startAddress, Contents.before, List.length_append,
    List.length_nil] <;> omega

theorem Holds.stop (h : Holds b m) (k : Kind) :
    endAddress b k = startAddress b k + (entryBytes (m.entries k)).length := by
  cases k
  · exact h.svarl
  · exact h.sstrl
  · exact h.sarryl

theorem Holds.earryl_eq (h : Holds b m) (k : Kind) :
    b.earryl = endAddress b k + (m.behind k).length := by
  have hs := h.sstrl
  have ha := h.sarryl
  have he := h.earryl
  cases k <;> simp only [endAddress, Contents.behind, List.length_append] <;> omega

/-- A state with one kind of entries changed, from its bytes and pointers. -/
theorem Holds.set (h : Holds b m) {es : List (Entry k)} {r : Ram}
    (hsame : (entryBytes es).length = (entryBytes (m.entries k)).length)
    (himage : BytesAt r.byte b.sfncl (m.set k es).image) :
    Holds { b with ram := r } (m.set k es) := by
  have hv := h.svarl
  have hs := h.sstrl
  have ha := h.sarryl
  refine ⟨himage,?_,?_,?_,h.earryl⟩ <;> cases k <;> simp [Contents.set] <;> omega

theorem Holds.entries (h : Holds b m) (k : Kind) :
    BytesAt b.ram.byte (startAddress b k) (entryBytes (m.entries k)) := by
  have himage := h.image
  rw [image_eq m k] at himage
  rw [h.start]
  exact (bytesAt_append.mp (bytesAt_append.mp himage).2).1

theorem Holds.behind (h : Holds b m) (k : Kind) :
    BytesAt b.ram.byte (endAddress b k) (m.behind k) := by
  have himage := h.image
  rw [image_eq m k] at himage
  rw [h.stop, h.start]
  exact (bytesAt_append.mp (bytesAt_append.mp himage).2).2

/-! ### The search -/

/-- The value of the first entry with the name. -/
def find (name : ℕ) : List (Entry k) → Option (List ℕ)
  | [] => none
  | e::es => if e.name = name then some e.value else find name es

theorem find_append {pre : List (Entry k)} (hpre : ∀ e ∈ pre, e.name ≠ name)
    (es : List (Entry k)) : find name (pre ++ es) = find name es := by
  induction pre with
  | nil => rfl
  | cons e pre ih =>
    obtain ⟨he,hpre⟩ := List.forall_mem_cons.mp hpre
    rw [List.cons_append, find, if_neg he]
    exact ih hpre

theorem find_eq_none {es : List (Entry k)} (h : ∀ e ∈ es, e.name ≠ name) : find name es = none := by
  have := find_append h []
  rwa [List.append_nil] at this

/-- The search ends at the first entry with the name, or at the end. -/
theorem search_spec {byte : ℕ → ℕ} {es : List (Entry k)} {fuel : ℕ}
    (h : BytesAt byte a (entryBytes es)) (hfuel : es.length < fuel) :
    (∃ pre e suf, es = pre ++ e::suf ∧ e.name = name ∧ (∀ x ∈ pre, x.name ≠ name) ∧
      search byte name k.size (a + k.size * es.length) fuel a =
        some (some (a + k.size * pre.length + 4))) ∨
    (∀ e ∈ es, e.name ≠ name) ∧
      search byte name k.size (a + k.size * es.length) fuel a = some none := by
  induction es generalizing a fuel with
  | nil =>
    obtain ⟨fuel,rfl⟩ := Nat.exists_eq_succ_of_ne_zero (Nat.ne_of_gt hfuel)
    exact Or.inr ⟨nofun,if_pos rfl⟩
  | cons e es ih =>
    obtain ⟨fuel,rfl⟩ := Nat.exists_eq_succ_of_ne_zero (Nat.ne_of_gt (Nat.zero_lt_of_lt hfuel))
    rw [entryBytes_cons] at h
    obtain ⟨he,hes⟩ := bytesAt_append.mp h
    have hname : read32 byte a = e.name := (bytesAt_append.mp he).1.read32 e.name_lt
    have hend : a + k.size * (e::es).length = a + k.size + k.size * es.length := by
      rw [List.length_cons, Nat.mul_succ]
      omega
    have hne : a ≠ a + k.size * (e::es).length := by
      have := k.size_pos
      rw [hend]
      omega
    rw [search, if_neg hne, hname, hend]
    by_cases hfound : e.name = name
    · exact Or.inl ⟨[],e,es,rfl,hfound,nofun,if_pos hfound⟩
    · rw [if_neg hfound]
      rw [e.bytes_length] at hes
      rcases ih hes (Nat.lt_of_succ_lt_succ hfuel) with ⟨pre,f,suf,rfl,hf,hpre,hsearch⟩ |
          ⟨hall,hsearch⟩
      · refine Or.inl ⟨e::pre,f,suf,rfl,hf,List.forall_mem_cons.mpr ⟨hfound,hpre⟩,?_⟩
        rw [hsearch, List.length_cons, Nat.mul_succ]
        congr 2
        omega
      · exact Or.inr ⟨List.forall_mem_cons.mpr ⟨hfound,hall⟩,hsearch⟩

theorem gvar_spec (h : Holds b m) (k : Kind) (name : ℕ) :
    (∃ pre e suf, m.entries k = pre ++ e::suf ∧ e.name = name ∧ (∀ x ∈ pre, x.name ≠ name) ∧
      gvar k name b = some (some (startAddress b k + k.size * pre.length + 4))) ∨
    (∀ e ∈ m.entries k, e.name ≠ name) ∧ gvar k name b = some none := by
  have hstop := h.stop k
  rw [entryBytes_length] at hstop
  have hfuel : (m.entries k).length < endAddress b k - startAddress b k + 1 := by
    have := Nat.mul_le_mul_right (m.entries k).length k.size_pos
    omega
  have := @search_spec k name _ _ _ _ (h.entries k) hfuel
  rwa [← hstop] at this

/-! ### New entries -/

/-- Functions have any name; other names say their kind. -/
def Names (k : Kind) (name : ℕ) : Prop :=
  name < 4294967296 ∧ (k = .function ∨ kindOf name = k)

theorem Names.size (h : Names k name) : isString name = true → 10 ≤ k.size := by
  intro hs
  rcases h.2 with rfl | hk
  · decide
  · rw [kindOf, if_pos hs] at hk
    exact hk ▸ (by decide)

/-- The bytes that stand at an address. -/
def bytesFrom (byte : ℕ → ℕ) (a n : ℕ) : List ℕ := (List.range n).map fun i => byte (a + i)

theorem bytesAt_bytesFrom (byte : ℕ → ℕ) (a n : ℕ) : BytesAt byte a (bytesFrom byte a n) :=
  fun i hi => by simp [bytesFrom]

theorem bytesFrom_eq {byte : ℕ → ℕ} {bs : List ℕ} (h : BytesAt byte a bs) :
    bytesFrom byte a bs.length = bs := by
  refine List.ext_getElem (by simp [bytesFrom]) fun i hi hi' => ?_
  simpa [bytesFrom] using h i hi'

/-- The name and the first bytes of a new value. -/
theorem header_spec (hname : Names k name) (a : ℕ) (r : Ram) {r' : Ram}
    (hr' : r' = if isString name then pokeBytes (a + 8) [0,0] (poke32 (a + 4) 0 (poke32 a name r))
      else poke32 (a + 4) 0 (poke32 a name r)) :
    BytesAt r'.byte a (bytes32 name) ∧ BytesAt r'.byte (a + 4) [0,0,0,0] ∧
      (isString name = true → BytesAt r'.byte (a + 8) [0,0]) ∧ Within a (a + k.size) r r' := by
  have hname₁ := bytesAt_pokeBytes a (bytes32 name) r
  have hwithin₁ := within_poke32 a name r
  have hzero := bytesAt_pokeBytes (a + 4) (bytes32 0) (poke32 a name r)
  have hwithin₂ := within_poke32 (a + 4) 0 (poke32 a name r)
  have hname₂ := hwithin₂.bytesAt hname₁ (Or.inl (by simp [bytes32]))
  have hsize := k.size_pos
  have hboth : Within a (a + 8) r (poke32 (a + 4) 0 (poke32 a name r)) :=
    (hwithin₁.mono (Nat.le_refl a) (by omega)).trans (hwithin₂.mono (by omega) (Nat.le_refl _))
  by_cases hs : isString name = true
  · rw [if_pos hs] at hr'
    subst hr'
    have hfit := hname.size hs
    have hwithin₃ := within_pokeBytes (a + 8) [0,0] (poke32 (a + 4) 0 (poke32 a name r))
    refine ⟨hwithin₃.bytesAt hname₂ (Or.inl (by simp [bytes32])),
      hwithin₃.bytesAt hzero (Or.inl (by simp)),fun _ => bytesAt_pokeBytes _ _ _,?_⟩
    exact (hboth.mono (Nat.le_refl a) (by omega)).trans
      (hwithin₃.mono (by omega) (by simp; omega))
  · rw [if_neg hs] at hr'
    subst hr'
    exact ⟨hname₂,hzero,fun h => absurd h hs,hboth.mono (Nat.le_refl a) (by omega)⟩

/-- The value of a new variable. -/
def zeros (k : Kind) : List ℕ := List.replicate (k.size - 4) 0

/-- The pointers of a state with a new entry. -/
theorem holds_append (h : Holds b m) {e : Entry k} {r : Ram}
    (himage : BytesAt r.byte b.sfncl (m.set k (m.entries k ++ [e])).image) :
    Holds { shift k b with ram := r } (m.set k (m.entries k ++ [e])) := by
  have hv := h.svarl
  have hs := h.sstrl
  have ha := h.sarryl
  have he := h.earryl
  have hsize := e.bytes_length
  have hone : (entryBytes (m.entries k ++ [e])).length =
      (entryBytes (m.entries k)).length + k.size := by
    rw [entryBytes_append, List.length_append]
    simpa [entryBytes] using hsize
  cases k <;>
    exact ⟨himage,by simp [Contents.set, shift]; omega,by simp [Contents.set, shift]; omega,
      by simp [Contents.set, shift]; omega,by simp [Contents.set, shift]; omega⟩

/-- A new entry stands behind the others of its kind, and what is behind has moved up. -/
theorem create_spec (h : Holds b m) (hname : Names k name) :
    ∃ e : Entry k, e.name = name ∧ (k ≠ .function → e.value = zeros k) ∧
      (create k name b).1 = startAddress b k + k.size * (m.entries k).length + 4 ∧
      Holds (create k name b).2 (m.set k (m.entries k ++ [e])) ∧
      Within (endAddress b k) (b.earryl + k.size) b.ram (create k name b).2.ram := by
  have hstart := h.start k
  have hstop := h.stop k
  have hearryl := h.earryl_eq k
  have hbehind := h.behind k
  have heven := behind_even m k
  have hlen := entryBytes_length (m.entries k)
  have hsize := k.size_pos
  generalize ha : endAddress b k = a at *
  let opened := copyDown ((b.earryl - a) / 2) b.earryl (b.earryl + k.size) b.ram
  have hopened : BytesAt opened.byte (a + k.size) (m.behind k) := by
    have hmoved := bytesAt_copyDown hbehind heven k.size
    have hwords : (b.earryl - a) / 2 = (m.behind k).length / 2 := by omega
    rw [← hearryl, ← hwords] at hmoved
    exact hmoved
  have hgap : Within (a + k.size) (b.earryl + k.size) b.ram opened :=
    (within_copyDown _ _ _ (by omega) _).mono (by omega) (Nat.le_refl _)
  obtain ⟨hbytes,hzero,hstring,hheader⟩ := header_spec hname a opened
    (show (create k name b).2.ram = _ by simp only [create, ha]; rfl)
  generalize hram : (create k name b).2.ram = r at *
  have hwithin : Within a (b.earryl + k.size) b.ram r :=
    (hgap.mono (by omega) (Nat.le_refl _)).trans (hheader.mono (Nat.le_refl a) (by omega))
  let e : Entry k :=
    { name := name
      value := bytesFrom r.byte (a + 4) (k.size - 4)
      name_lt := hname.1
      length := by simp [bytesFrom]; omega }
  have hentry : BytesAt r.byte a e.bytes :=
    bytesAt_append.mpr ⟨hbytes,bytesAt_bytesFrom _ _ _⟩
  refine ⟨e,rfl,fun hk => ?_,?_,?_,hwithin⟩
  · have hkind : kindOf name = k := hname.2.resolve_left hk
    cases k with
    | function => exact absurd rfl hk
    | numeric => exact bytesFrom_eq hzero
    | string =>
      have hs : isString name = true := by
        by_contra hs
        rw [kindOf, if_neg hs] at hkind
        exact absurd hkind (by decide)
      have hboth : BytesAt r.byte (a + 4) ([0,0,0,0] ++ [0,0]) :=
        bytesAt_append.mpr ⟨hzero,hstring hs⟩
      exact bytesFrom_eq hboth
  · change endAddress b k + 4 = _
    omega
  · have hcreate : (create k name b).2 = { shift k b with ram := r } := by
      rw [← hram]
      rfl
    rw [hcreate]
    refine holds_append h ?_
    have himage := h.image
    rw [image_eq m k, ← List.append_assoc] at himage
    have hfront := hwithin.bytesAt (bytesAt_append.mp himage).1
      (Or.inl (by rw [List.length_append]; omega))
    have hback := hheader.bytesAt hopened (Or.inr (Nat.le_refl _))
    have hone : entryBytes [e] = e.bytes := by simp [entryBytes]
    have hat : b.sfncl + (m.before k ++ entryBytes (m.entries k)).length = a := by
      rw [List.length_append]
      omega
    rw [image_set, entryBytes_append, hone, List.append_assoc, ← List.append_assoc]
    refine bytesAt_append.mpr ⟨hfront,?_⟩
    rw [hat]
    refine bytesAt_append.mpr ⟨hentry,?_⟩
    rwa [e.bytes_length]

/-! ### Spellings -/

theorem nameChars_ascii {s : List ℕ} : ∀ c ∈ (nameChars s).1, 0 < c ∧ c < 128 := by
  induction s with
  | nil => exact nofun
  | cons d s ih =>
    unfold nameChars
    split_ifs with hspace hname
    · exact ih
    · refine List.forall_mem_cons.mpr ⟨?_,ih⟩
      simp [isDigit, casc] at hname
      omega
    · exact nofun

theorem or_top {c : ℕ} (hc : c < 128) : c ||| 0x80 = c + 128 := by
  have h : ∀ c < 128, c ||| 0x80 = c + 128 := by decide +kernel
  exact h c hc

theorem nameByte_eq {cs : List ℕ} (hcs : ∀ c ∈ cs, 0 < c ∧ c < 128) (mark : Mark) (i : ℕ) :
    nameByte cs mark i = cs.getD i 0 +
      (if mark = .string ∧ i = 1 ∨ mark = .integer ∧ i = 2 then 128 else 0) ∧
      cs.getD i 0 < 128 := by
  have hlt : cs.getD i 0 < 128 := by
    rw [List.getD_eq_getElem?_getD]
    cases h : cs[i]? with
    | none => decide
    | some c => exact (hcs c (List.mem_of_getElem? h)).2
  refine ⟨?_,hlt⟩
  unfold nameByte
  split_ifs
  · exact or_top hlt
  · rfl

theorem getElem?_eq_of_getD {cs ds : List ℕ} (hcs : ∀ c ∈ cs, 0 < c ∧ c < 128)
    (hds : ∀ d ∈ ds, 0 < d ∧ d < 128) {i : ℕ} (h : cs.getD i 0 = ds.getD i 0) :
    cs[i]? = ds[i]? := by
  rw [List.getD_eq_getElem?_getD, List.getD_eq_getElem?_getD] at h
  cases hc : cs[i]? with
  | none =>
    cases hd : ds[i]? with
    | none => rfl
    | some d =>
      rw [hc, hd] at h
      exact absurd h (Nat.ne_of_lt (hds d (List.mem_of_getElem? hd)).1)
  | some c =>
    cases hd : ds[i]? with
    | none =>
      rw [hc, hd] at h
      exact absurd h (Nat.ne_of_gt (hcs c (List.mem_of_getElem? hc)).1)
    | some d =>
      rw [hc, hd] at h
      exact congrArg some h

/-- Two names are the same variable exactly if their marks and their first four
characters are the same. -/
theorem varname_eq_iff {cs ds : List ℕ} (hcs : ∀ c ∈ cs, 0 < c ∧ c < 128)
    (hds : ∀ d ∈ ds, 0 < d ∧ d < 128) (mark mark' : Mark) :
    varname cs mark = varname ds mark' ↔ mark = mark' ∧ cs.take 4 = ds.take 4 := by
  constructor
  · intro h
    have hlt : ∀ i, nameByte cs mark i < 256 ∧ nameByte ds mark' i < 256 := by
      intro i
      obtain ⟨hc,hc'⟩ := nameByte_eq hcs mark i
      obtain ⟨hd,hd'⟩ := nameByte_eq hds mark' i
      split_ifs at hc hd <;> omega
    have hbytes : ∀ i < 4, nameByte cs mark i = nameByte ds mark' i := by
      intro i hi
      have h0 := hlt 0
      have h1 := hlt 1
      have h2 := hlt 2
      have h3 := hlt 3
      simp only [varname, read32, Nat.zero_add] at h
      have hcases : i = 0 ∨ i = 1 ∨ i = 2 ∨ i = 3 := by omega
      rcases hcases with rfl | rfl | rfl | rfl <;> omega
    have hboth : ∀ i < 4, cs.getD i 0 = ds.getD i 0 ∧
        ((mark = .string ∧ i = 1 ∨ mark = .integer ∧ i = 2) ↔
          (mark' = .string ∧ i = 1 ∨ mark' = .integer ∧ i = 2)) := by
      intro i hi
      have hsame := hbytes i hi
      obtain ⟨hc,hc'⟩ := nameByte_eq hcs mark i
      obtain ⟨hd,hd'⟩ := nameByte_eq hds mark' i
      rw [hc, hd] at hsame
      split_ifs at hsame with hm hm' hm'
      · exact ⟨by omega,iff_of_true hm hm'⟩
      · omega
      · omega
      · exact ⟨by omega,iff_of_false hm hm'⟩
    refine ⟨?_,List.ext_getElem? fun i => ?_⟩
    · have h1 := (hboth 1 (by decide)).2
      have h2 := (hboth 2 (by decide)).2
      cases mark <;> cases mark' <;> simp at h1 h2 <;> rfl
    · rw [List.getElem?_take, List.getElem?_take]
      split_ifs with hi
      · exact getElem?_eq_of_getD hcs hds (hboth i hi).1
      · rfl
  · rintro ⟨rfl,htake⟩
    have hsame : ∀ i < 4, nameByte cs mark i = nameByte ds mark i := by
      intro i hi
      have := congrArg (fun l => l[i]?) htake
      simp only [List.getElem?_take, if_pos hi] at this
      rw [nameByte, nameByte, List.getD_eq_getElem?_getD, List.getD_eq_getElem?_getD, this]
    exact read32_congr fun i hi => by simpa using hsame i hi

/-- What a text spells. -/
def spelled (s : List ℕ) : List ℕ × Mark :=
  ((nameChars s).1.take 4,(readMark (nameChars s).2).1)

theorem readName_eq {s rest : List ℕ} {n : ℕ} (h : readName s = some (n,rest)) :
    n = varname (nameChars s).1 (readMark (nameChars s).2).1 := by
  unfold readName at h
  split at h
  · exact absurd h (by simp)
  · rename_i hchars
    split_ifs at h
    rw [hchars]
    exact (Prod.mk.inj (Option.some.inj h)).1.symm

/-- Two texts name the same variable exactly if they spell the same. -/
theorem readName_eq_iff {s s' rest rest' : List ℕ} {n n' : ℕ} (h : readName s = some (n,rest))
    (h' : readName s' = some (n',rest')) : n = n' ↔ spelled s = spelled s' := by
  rw [readName_eq h, readName_eq h', varname_eq_iff nameChars_ascii nameChars_ascii, spelled,
    spelled, Prod.mk.injEq, and_comm]

theorem readName_names {s rest : List ℕ} {n : ℕ} (h : readName s = some (n,rest)) :
    Names (kindOf n) n := by
  refine ⟨?_,Or.inr rfl⟩
  have hlt : ∀ i, nameByte (nameChars s).1 (readMark (nameChars s).2).1 i < 256 := by
    intro i
    obtain ⟨hc,hc'⟩ := nameByte_eq (nameChars_ascii (s := s)) (readMark (nameChars s).2).1 i
    split_ifs at hc <;> omega
  have h0 := hlt 0
  have h1 := hlt 1
  have h2 := hlt 2
  have h3 := hlt 3
  rw [readName_eq h, varname]
  simp only [read32, Nat.zero_add]
  omega

/-! ### Values -/

def Entry.withValue (e : Entry k) (value : List ℕ) (h : value.length + 4 = k.size) : Entry k :=
  { e with value := value, length := h }

theorem put_spec (h : Holds b m) {pre suf : List (Entry k)} {e : Entry k}
    (hsplit : m.entries k = pre ++ e::suf) (hvalue : value.length + 4 = k.size) :
    Holds { b with
        ram := pokeBytes (startAddress b k + k.size * pre.length + 4) value b.ram }
      (m.set k (pre ++ e.withValue value hvalue::suf)) := by
  have hstart := h.start k
  have hpre := entryBytes_length pre
  have himage := h.image
  have hname : (bytes32 e.name).length = 4 := rfl
  generalize ha : startAddress b k + k.size * pre.length + 4 = a
  have hwithin := within_pokeBytes a value b.ram
  have hold := e.length
  rw [image_eq m k, hsplit] at himage
  have hfront : m.before k ++ (entryBytes (pre ++ e::suf) ++ m.behind k) =
      (m.before k ++ entryBytes pre ++ bytes32 e.name) ++
        (e.value ++ (entryBytes suf ++ m.behind k)) := by
    simp [entryBytes_append, entryBytes_cons, Entry.bytes]
  have hnew : m.before k ++ (entryBytes (pre ++ e.withValue value hvalue::suf) ++ m.behind k) =
      (m.before k ++ entryBytes pre ++ bytes32 e.name) ++
        (value ++ (entryBytes suf ++ m.behind k)) := by
    simp [entryBytes_append, entryBytes_cons, Entry.bytes, Entry.withValue]
  rw [hfront] at himage
  obtain ⟨hhead,htail⟩ := bytesAt_append.mp himage
  have hat : b.sfncl + (m.before k ++ entryBytes pre ++ bytes32 e.name).length = a := by
    simp only [List.length_append, hname]
    omega
  rw [hat] at htail
  refine h.set ?_ ?_
  · rw [hsplit]
    simp only [entryBytes_length, List.length_append, List.length_cons]
  · rw [image_set, hnew]
    refine bytesAt_append.mpr ⟨hwithin.bytesAt hhead (Or.inl (Nat.le_of_eq hat)),?_⟩
    rw [hat]
    refine bytesAt_append.mpr ⟨bytesAt_pokeBytes a value b.ram,?_⟩
    have hrest := (bytesAt_append.mp htail).2
    have hlen : e.value.length = value.length := by omega
    rw [hlen] at hrest
    exact hwithin.bytesAt hrest (Or.inr (Nat.le_refl _))

/-- What the entries say, as a function of kind and name. -/
def lookup (m : Contents) (k : Kind) (name : ℕ) : Option (List ℕ) := find name (m.entries k)

/-- The value of a variable, if there is one. -/
def readValue (k : Kind) (name : ℕ) (b : Store) : Option (List ℕ) :=
  match gvar k name b with
  | some (some a) => some (bytesFrom b.ram.byte a (k.size - 4))
  | _ => none

theorem readValue_eq (h : Holds b m) (k : Kind) (name : ℕ) :
    readValue k name b = lookup m k name := by
  rcases gvar_spec h k name with ⟨pre,e,suf,hsplit,he,hpre,hgvar⟩ | ⟨hall,hgvar⟩
  · have hentries := h.entries k
    rw [hsplit, entryBytes_append, entryBytes_cons] at hentries
    have hvalue := (bytesAt_append.mp (bytesAt_append.mp
      (bytesAt_append.mp hentries).2).1).2
    rw [entryBytes_length] at hvalue
    have hlen : e.value.length = k.size - 4 := by
      have := e.length
      omega
    rw [readValue, hgvar, lookup, hsplit, find_append hpre, find, if_pos he, ← hlen]
    exact congrArg some (bytesFrom_eq hvalue)
  · rw [readValue, hgvar, lookup, find_eq_none hall]

theorem lookup_set (m : Contents) (es : List (Entry k)) (k' : Kind) (name : ℕ) :
    lookup (m.set k es) k' name = if k' = k then find name es else lookup m k' name := by
  by_cases hk : k' = k
  · subst hk
    simp [lookup, Contents.set]
  · rw [if_neg hk, lookup, lookup]
    have : (m.set k es).entries k' = m.entries k' := Function.update_of_ne hk _ _
    rw [this]

theorem find_replace {pre suf : List (Entry k)} {e : Entry k} (he : e.name = name)
    (hvalue : value.length + 4 = k.size) (hpre : ∀ x ∈ pre, x.name ≠ name) (n : ℕ) :
    find n (pre ++ e.withValue value hvalue::suf) =
      if n = name then some value else find n (pre ++ e::suf) := by
  have hname : (e.withValue value hvalue).name = name := he
  by_cases hn : n = name
  · subst hn
    rw [if_pos rfl, find_append hpre, find, if_pos hname]
    rfl
  · rw [if_neg hn]
    induction pre with
    | nil =>
      rw [List.nil_append, List.nil_append, find, find, hname, he, if_neg (Ne.symm hn),
        if_neg (Ne.symm hn)]
    | cons x pre ih =>
      rw [List.cons_append, List.cons_append, find, find,
        ih (List.forall_mem_cons.mp hpre).2]

theorem find_snoc {es : List (Entry k)} {e : Entry k} {n : ℕ} (hn : n ≠ e.name) :
    find n (es ++ [e]) = find n es := by
  induction es with
  | nil => exact if_neg (Ne.symm hn)
  | cons x es ih => rw [List.cons_append, find, find, ih]

/-- A variable has its value after an assignment, and no other has changed. -/
theorem assign_spec (h : Holds b m) (hname : Names k name) (hvalue : value.length + 4 = k.size) :
    ∃ b' m', assign k name value b = some b' ∧ Holds b' m' ∧ m'.arrays = m.arrays ∧
      ∀ k' n, lookup m' k' n = if k' = k ∧ n = name then some value else lookup m k' n := by
  rcases gvar_spec h k name with ⟨pre,e,suf,hsplit,he,hpre,hgvar⟩ | ⟨hall,hgvar⟩
  · refine ⟨_,_,by rw [assign, svar, hgvar],put_spec h hsplit hvalue,rfl,fun k' n => ?_⟩
    rw [lookup_set]
    by_cases hk : k' = k
    · subst hk
      simp only [true_and, if_true, find_replace he hvalue hpre, lookup, hsplit]
    · simp only [hk, if_false, false_and]
  · obtain ⟨e,he,-,haddress,hholds,-⟩ := create_spec h hname
    have hstart : startAddress (create k name b).2 k = startAddress b k := by
      cases k <;> rfl
    have hsplit : (m.set k (m.entries k ++ [e])).entries k = m.entries k ++ e::[] := by
      simp [Contents.set]
    have hput := put_spec hholds hsplit hvalue
    rw [hstart, ← haddress] at hput
    refine ⟨_,_,by rw [assign, svar, hgvar],hput,rfl,fun k' n => ?_⟩
    rw [lookup_set, lookup_set]
    by_cases hk : k' = k
    · subst hk
      simp only [true_and, if_true, find_replace he hvalue hall, lookup]
      split_ifs with hn
      · rfl
      · exact find_snoc (he ▸ hn)
    · simp only [hk, if_false, false_and]

/-! ### Positions -/

/-- The number of the first entry with the name. -/
def position (byte : ℕ → ℕ) (name size a n : ℕ) : Option ℕ :=
  (List.range n).find? fun i => decide (read32 byte (a + size * i) = name)

variable {byte byte' : ℕ → ℕ} {size c n i : ℕ}

theorem position_succ (byte : ℕ → ℕ) (name size a n : ℕ) :
    position byte name size a (n + 1) = (position byte name size a n).or
      (if read32 byte (a + size * n) = name then some n else none) := by
  rw [position, List.range_succ, List.find?_append, List.find?_singleton]
  simp only [decide_eq_true_eq]
  rfl

theorem position_cons (byte : ℕ → ℕ) (name size a n : ℕ) :
    position byte name size a (n + 1) = if read32 byte a = name then some 0
      else (position byte name size (a + size) n).map (· + 1) := by
  rw [position, List.range_succ_eq_map, List.find?_cons, List.find?_map]
  have hsame : ∀ i, a + size * (i + 1) = a + size + size * i := fun i => by
    rw [Nat.mul_succ]
    omega
  by_cases h : read32 byte a = name
  · simp [h]
  · simp only [Nat.mul_zero, Nat.add_zero, h, decide_false, if_false, Function.comp_def,
      Nat.succ_eq_add_one, hsame]
    rfl

theorem position_congr (h : ∀ i < n, read32 byte' (c + size * i) = read32 byte (a + size * i)) :
    position byte' name size c n = position byte name size a n :=
  List.find?_congr fun i hi => by rw [h i (List.mem_range.mp hi)]

theorem position_spec (h : position byte name size a n = some i) :
    i < n ∧ read32 byte (a + size * i) = name := by
  have hname := List.find?_some h
  rw [decide_eq_true_eq] at hname
  exact ⟨List.mem_range.mp (List.mem_of_find?_eq_some h),hname⟩

theorem search_eq (hpos : 0 < size) {fuel : ℕ} (hfuel : n < fuel) :
    search byte name size (a + size * n) fuel a =
      some ((position byte name size a n).map fun i => a + size * i + 4) := by
  induction n generalizing a fuel with
  | zero =>
    obtain ⟨fuel,rfl⟩ := Nat.exists_eq_succ_of_ne_zero (Nat.ne_of_gt hfuel)
    exact if_pos rfl
  | succ n ih =>
    obtain ⟨fuel,rfl⟩ := Nat.exists_eq_succ_of_ne_zero (Nat.ne_of_gt (Nat.zero_lt_of_lt hfuel))
    have hend : a + size * (n + 1) = a + size + size * n := by
      rw [Nat.mul_succ]
      omega
    rw [search, hend, if_neg (by omega), ih (Nat.lt_of_succ_lt_succ hfuel), position_cons]
    split_ifs with hfound
    · rfl
    · rw [Option.map_map]
      refine congrArg some (congrArg (Option.map · _) (funext fun i => ?_))
      show a + size + size * i + 4 = a + size * (i + 1) + 4
      rw [Nat.mul_succ]
      omega

/-- The entries do not overlap. -/
theorem entry_le (size : ℕ) (h : i < n) : size * i + size ≤ size * n := by
  rw [← Nat.mul_succ]
  exact Nat.mul_le_mul_left size h

/-! ### Runs -/

inductive Event where
  | assign (k : Kind) (name : ℕ) (value : List ℕ)
  | clear

/-- `LAB_1477`. -/
def clear (b : Store) : Store :=
  { b with
    svarl := b.sfncl
    sstrl := b.sfncl
    sarryl := b.sfncl
    earryl := b.sfncl
    sstorl := b.ememl
    a4 := b.desSk }

/-- The state after an event; a search that does not end has no next state. -/
def next (b : Store) : Event → Store
  | .assign k name value => (assign k name value b).getD b
  | .clear => clear b

/-- The variables as a finite map. -/
def update (f : Kind → ℕ → Option (List ℕ)) : Event → Kind → ℕ → Option (List ℕ)
  | .assign k name value,k',n => if k' = k ∧ n = name then some value else f k' n
  | .clear,_,_ => none

def Legal : Event → Prop
  | .assign k name value => Names k name ∧ value.length + 4 = k.size
  | .clear => True

theorem clear_holds (b : Store) : ∃ m, Holds (clear b) m ∧ ∀ k n, lookup m k n = none := by
  refine ⟨⟨fun _ => [],[],rfl⟩,⟨fun i hi => absurd hi (by simp [Contents.image, entryBytes]),
    by simp [entryBytes, clear],by simp [entryBytes, clear],by simp [entryBytes, clear],rfl⟩,
    fun _ _ => rfl⟩

/-- After every run of assignments and clears each search finds the value assigned last,
and finds nothing for a name that has not been assigned. -/
theorem run_finds (h : Holds b m) {es : List Event} (hlegal : ∀ e ∈ es, Legal e) (k : Kind)
    (name : ℕ) :
    readValue k name (es.foldl next b) = es.foldl update (fun k n => readValue k n b) k name := by
  have hsim : ∃ m', Holds (es.foldl next b) m' ∧
      ∀ k n, lookup m' k n = es.foldl update (fun k n => readValue k n b) k n := by
    have halong : Along update (fun _ e => Legal e) (fun k n => readValue k n b) es :=
      along_const_iff.mpr hlegal
    refine simulation (R := fun b (f : Kind → ℕ → Option (List ℕ)) =>
      ∃ m, Holds b m ∧ ∀ k n, lookup m k n = f k n)
      ?_ ⟨m,h,fun k n => (readValue_eq h k n).symm⟩ halong
    rintro b f e ⟨m,hm,hf⟩ he
    cases e with
    | assign k name value =>
      obtain ⟨b',m',hassign,hholds,-,hlookup⟩ := assign_spec hm he.1 he.2
      refine ⟨m',by simpa [next, hassign] using hholds,fun k' n => ?_⟩
      rw [hlookup, update, hf]
    | clear => exact clear_holds b
  obtain ⟨m',hholds,hlookup⟩ := hsim
  rw [readValue_eq hholds, hlookup]

def emptyStore : Store := ⟨⟨fun _ => 0,[]⟩,32,32,32,32,32,400,400,24,24⟩

/-- `A=...`, `B$=...` and `A=...` again. -/
theorem run_finds_again :
    readValue .numeric 0x41000000 ([.assign .numeric 0x41000000 [1,2,3,4],
      .assign .string 0x42800000 [0,0,9,9,0,5],.assign .numeric 0x41000000 [5,6,7,8]].foldl next
        (clear emptyStore)) = some [5,6,7,8] := by
  obtain ⟨m,hm,-⟩ := clear_holds emptyStore
  have hlegal : ∀ e ∈ [Event.assign .numeric 0x41000000 [1,2,3,4],
      .assign .string 0x42800000 [0,0,9,9,0,5],.assign .numeric 0x41000000 [5,6,7,8]],
      Legal e := by
    intro e he
    rcases List.mem_cons.mp he with rfl | he
    · exact ⟨by unfold Names; decide,rfl⟩
    · rcases List.mem_cons.mp he with rfl | he
      · exact ⟨by unfold Names; decide,rfl⟩
      · obtain rfl := List.mem_singleton.mp he
        exact ⟨by unfold Names; decide,rfl⟩
  exact run_finds hm hlegal .numeric 0x41000000

end Betawise.BasicVariables
