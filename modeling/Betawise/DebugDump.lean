import Betawise.DebugTool
import Betawise.HexNotation
import Betawise.TypedText

/-!
# The rows of the dump

On the Neo a row of the dump is 41 bytes of text from column 3 on: the address, the
bytes in hexadecimal, and the bytes as characters. `dumpRedrawRow` writes it from left
to right, so that every cell of the row shows its byte of the text, and nothing else
on the screen changes.
-/
namespace Betawise.DebugDump
open Os3kState Os3kTerminal TerminalGeometry TerminalScroll ReferenceTerminal TypedText ByteMemory
open HexNotation DebugTool

/-! ### The text of a row -/

/-- A byte as the tool reads it, with its bus-error flag. -/
def dumpByte (m : Machine) (memory : Memory) (a : Addr) : BitVec 8 × Bool :=
  if m.faults a then (m.garbage a,true) else (memory a,false)

def rowBytes (m : Machine) (memory : Memory) : ℕ → Addr → List (BitVec 8 × Bool)
  | 0,_ => []
  | n + 1,a => dumpByte m memory a::rowBytes m memory n (a + 1)

/-- Columns 3 to 43: address, hexadecimal digits, characters. -/
def rowText (m : Machine) (memory : Memory) (a : Addr) : List ℕ :=
  addressText false a ++
    ((rowBytes m memory 8 a).flatMap (fun c => byteHexText c.1 c.2) ++
      (rowBytes m memory 8 a).map fun c => byteAsciiText false c.1 c.2)

/-- The address whose byte stands in a cell, if any. -/
def cellAddr (a : Addr) (j : ℕ) : Option Addr :=
  if j < 9 then none
  else if j < 33 then some (a + BitVec.ofNat 32 ((j - 9) / 3))
  else some (a + BitVec.ofNat 32 (j - 33))

/-- What belongs in column `3 + j` of the row for address `a`: the address in eight
hexadecimal digits, each byte in two, and the bytes once more as characters, with a small
dot for those below 0x20 and multiply signs for those that fault. -/
def dumpCell (m : Machine) (memory : Memory) (a : Addr) (j : ℕ) : ℕ :=
  if j < 8 then hexPlace a.toNat (7 - j)
  else if j = 8 then 0x20
  else if j < 33 then
    let x := a + BitVec.ofNat 32 ((j - 9) / 3)
    if (j - 9) % 3 = 2 then 0x20
    else if m.faults x then 0xD7
    else hexPlace (memory x).toNat (1 - (j - 9) % 3)
  else
    let x := a + BitVec.ofNat 32 (j - 33)
    if m.faults x then 0xD7
    else if (memory x).toNat < 0x20 then 0xB7
    else (memory x).toNat

variable {m : Machine} {memory memory' : Memory} {a : Addr}

theorem hexDigit_eq : ∀ d < 16,hexDigit d = upperDigits.getD d 0 := by decide

theorem hexText_length (count n : ℕ) : (hexText count n).length = count := by
  induction count generalizing n with
  | zero => rfl
  | succ count ih => rw [hexText, List.length_append, ih, List.length_singleton]

/-- The digits of a number from the left. -/
theorem hexText_getElem? {count n i : ℕ} (hi : i < count) :
    (hexText count n)[i]? = some (hexPlace n (count - 1 - i)) := by
  induction count generalizing n with
  | zero => exact absurd hi (Nat.not_lt_zero i)
  | succ count ih =>
    rw [hexText, List.getElem?_append, hexText_length]
    split_ifs with hfirst
    · rw [ih hfirst, ← hexPlace_succ, show count - 1 - i + 1 = count + 1 - 1 - i by omega]
    · obtain rfl : i = count := by omega
      rw [Nat.sub_self, Nat.add_sub_cancel, Nat.sub_self, hexPlace_zero,
        ← hexDigit_eq _ (Nat.mod_lt n (by decide))]
      rfl

theorem byteHexText_length (c : BitVec 8) (error : Bool) : (byteHexText c error).length = 3 := by
  cases error with
  | true => rfl
  | false => simp [byteHexText, hexText_length]

theorem addressText_length (a : Addr) : (addressText false a).length = 9 := by
  simp [addressText, hexText_length]

theorem rowBytes_getElem? (n i : ℕ) :
    (rowBytes m memory n a)[i]? =
      if i < n then some (dumpByte m memory (a + BitVec.ofNat 32 i)) else none := by
  induction n generalizing a i with
  | zero => rfl
  | succ n ih =>
    cases i with
    | zero => simp [rowBytes]
    | succ i =>
      have hnext : a + 1 + BitVec.ofNat 32 i = a + BitVec.ofNat 32 (i + 1) := by bv_omega
      rw [rowBytes, List.getElem?_cons_succ, ih, hnext]
      simp only [Nat.succ_lt_succ_iff]

/-- Pieces of three. -/
theorem flatMap_getElem? {A : Type*} {f : A → List ℕ} (hf : ∀ c,(f c).length = 3) (l : List A)
    (i : ℕ) : (l.flatMap f)[i]? = l[i / 3]?.bind fun c => (f c)[i % 3]? := by
  induction l generalizing i with
  | nil => rfl
  | cons c l ih =>
    rw [List.flatMap_cons, List.getElem?_append, hf]
    split_ifs with hi
    · rw [Nat.div_eq_of_lt hi, Nat.mod_eq_of_lt hi]
      rfl
    · obtain ⟨k,rfl⟩ := Nat.exists_eq_add_of_le' (Nat.not_lt.mp hi)
      rw [Nat.add_sub_cancel, ih, Nat.add_div_right k (by decide), Nat.add_mod_right]
      rfl

theorem rowText_getElem? (m : Machine) (memory : Memory) (a : Addr) (j : ℕ) :
    (rowText m memory a)[j]? =
      if j < 9 then (addressText false a)[j]?
      else if j < 33 then
        let c := dumpByte m memory (a + BitVec.ofNat 32 ((j - 9) / 3))
        (byteHexText c.1 c.2)[(j - 9) % 3]?
      else if j < 41 then
        let c := dumpByte m memory (a + BitVec.ofNat 32 (j - 33))
        some (byteAsciiText false c.1 c.2)
      else none := by
  have hlen : ((rowBytes m memory 8 a).flatMap fun c => byteHexText c.1 c.2).length = 24 := by
    simp [rowBytes, byteHexText_length]
  rw [rowText, List.getElem?_append, addressText_length, List.getElem?_append, hlen,
    flatMap_getElem? (f := fun c : BitVec 8 × Bool => byteHexText c.1 c.2)
      (fun c => byteHexText_length c.1 c.2), List.getElem?_map, rowBytes_getElem?,
    rowBytes_getElem?]
  by_cases h9 : j < 9
  · rw [if_pos h9, if_pos h9]
  · rw [if_neg h9, if_neg h9]
    by_cases h33 : j < 33
    · rw [if_pos (by omega), if_pos (by omega), if_pos h33]
      rfl
    · rw [if_neg (by omega), if_neg h33, show j - 9 - 24 = j - 33 by omega]
      by_cases h41 : j < 41
      · rw [if_pos (by omega), if_pos h41]
        rfl
      · rw [if_neg (by omega), if_neg h41]
        rfl

theorem addressText_getElem? (a : Addr) {j : ℕ} (hj : j < 9) :
    (addressText false a)[j]? = some (if j < 8 then hexPlace a.toNat (7 - j) else 0x20) := by
  simp only [addressText, Bool.false_eq_true, if_false, List.getElem?_append, hexText_length]
  split_ifs with hdigit
  · exact hexText_getElem? hdigit
  · obtain rfl : j = 8 := by omega
    rfl

theorem byteHexText_getElem? (c : BitVec 8) (error : Bool) {i : ℕ} (hi : i < 3) :
    (byteHexText c error)[i]? =
      some (if i = 2 then 0x20 else if error then 0xD7 else hexPlace c.toNat (1 - i)) := by
  cases error with
  | true =>
    obtain rfl | rfl | rfl : i = 0 ∨ i = 1 ∨ i = 2 := by omega
    · rfl
    · rfl
    · rfl
  | false =>
    simp only [byteHexText, Bool.false_eq_true, if_false, List.getElem?_append, hexText_length]
    split_ifs with hdigit hlast hlast
    · omega
    · exact hexText_getElem? hdigit
    · rw [hlast]
      rfl
    · omega

/-- The text that is written holds in each column what belongs there. -/
theorem rowText_eq_dumpCell (m : Machine) (memory : Memory) (a : Addr) {j : ℕ} (hj : j < 41) :
    (rowText m memory a)[j]? = some (dumpCell m memory a j) := by
  rw [rowText_getElem?, dumpCell]
  by_cases h9 : j < 9
  · rw [if_pos h9, addressText_getElem? a h9]
    by_cases h8 : j < 8
    · rw [if_pos h8, if_pos h8]
    · rw [if_neg h8, if_neg h8, if_pos (by omega)]
  have h8 : ¬ j < 8 := fun h => h9 (Nat.lt_succ_of_lt h)
  have hblank : ¬ j = 8 := fun h => h9 (h ▸ Nat.lt_succ_self 8)
  rw [if_neg h9, if_neg h8, if_neg hblank]
  by_cases h33 : j < 33
  · rw [if_pos h33, if_pos h33]
    dsimp only
    rw [byteHexText_getElem? _ _ (Nat.mod_lt _ (by decide)), dumpByte]
    cases m.faults (a + BitVec.ofNat 32 ((j - 9) / 3)) <;> rfl
  · rw [if_neg h33, if_pos hj, if_neg h33]
    dsimp only
    rw [dumpByte]
    cases m.faults (a + BitVec.ofNat 32 (j - 33)) <;> rfl

/-- A cell only depends on the byte that stands there. -/
theorem rowText_congr {j : ℕ} (h : ∀ x ∈ cellAddr a j, memory x = memory' x) :
    (rowText m memory a)[j]? = (rowText m memory' a)[j]? := by
  have hbyte : ∀ x ∈ cellAddr a j, dumpByte m memory x = dumpByte m memory' x := fun x hx => by
    rw [dumpByte, dumpByte, h x hx]
  rw [rowText_getElem?, rowText_getElem?]
  unfold cellAddr at hbyte
  split_ifs at hbyte ⊢ with h9 h33 h41
  · rfl
  · rw [hbyte _ rfl]
  · rw [hbyte _ rfl]
  · rfl

/-- A byte stands in three cells of hexadecimal and one of characters. -/
theorem cellAddr_iff {k r j : ℕ} (hk : k < 64) (hr : r < 8) (hj : j < 41) :
    a + BitVec.ofNat 32 k ∈ cellAddr (a + BitVec.ofNat 32 (8 * r)) j ↔
      r = k / 8 ∧ (j = 33 + k % 8 ∨ 9 + 3 * (k % 8) ≤ j ∧ j < 12 + 3 * (k % 8)) := by
  have hsame (i : ℕ) (hi : i < 8) : a + BitVec.ofNat 32 k ∈
      some (a + BitVec.ofNat 32 (8 * r) + BitVec.ofNat 32 i) ↔ k = 8 * r + i := by
    rw [Option.mem_some_iff]
    bv_omega
  unfold cellAddr
  split_ifs with h9 h33
  · simp only [Option.not_mem_none, false_iff]
    omega
  · rw [hsame _ (by omega)]
    omega
  · rw [hsame _ (by omega)]
    omega

/-! ### Its bytes are printing -/

theorem hexDigit_printing {n : ℕ} (hn : n < 16) : Printing (hexDigit n) ∧ hexDigit n < 256 := by
  unfold hexDigit Printing
  split_ifs <;> omega

theorem hexText_printing (count n : ℕ) : ∀ b ∈ hexText count n, Printing b ∧ b < 256 := by
  induction count generalizing n with
  | zero => nofun
  | succ count ih =>
    intro b hb
    rcases List.mem_append.mp hb with hb | hb
    · exact ih _ b hb
    · obtain rfl := List.mem_singleton.mp hb
      exact hexDigit_printing (Nat.mod_lt n (by decide))

theorem addressText_printing (a : Addr) :
    ∀ b ∈ addressText false a, Printing b ∧ b < 256 := by
  intro b hb
  rcases List.mem_append.mp hb with hb | hb
  · exact hexText_printing 8 a.toNat b hb
  · obtain rfl := List.mem_singleton.mp hb
    unfold Printing
    decide

theorem byteHexText_printing (c : BitVec 8) (error : Bool) :
    ∀ b ∈ byteHexText c error, Printing b ∧ b < 256 := by
  intro b hb
  cases error with
  | true =>
    simp only [byteHexText, if_true, List.mem_cons, List.not_mem_nil, or_false] at hb
    unfold Printing
    omega
  | false =>
    rcases List.mem_append.mp hb with hb | hb
    · exact hexText_printing 2 c.toNat b hb
    · obtain rfl := List.mem_singleton.mp hb
      unfold Printing
      decide

theorem byteAsciiText_printing (c : BitVec 8) (error : Bool) :
    Printing (byteAsciiText false c error) ∧ byteAsciiText false c error < 256 := by
  have hlt := c.isLt
  cases error with
  | true =>
    change Printing 0xD7 ∧ 0xD7 < 256
    unfold Printing
    decide
  | false =>
    simp only [byteAsciiText, Printing, Bool.false_eq_true, if_false]
    split_ifs <;> omega

/-! ### Writing a row -/

variable {font : FontHeader} {s : Tool}

theorem dumpRedrawByteHex_eq (hfont : s.os3k.pCurFont = some font) (c : BitVec 8) (error : Bool) :
    dumpRedrawByteHex m c error s =
      draw (fun o => (byteHexText c error).foldl (emit m.fw) o) s := by
  have hputs : (puts m.fw (byteHexText c error) s.os3k).2 = _ :=
    puts_eq hfont fun b hb => (byteHexText_printing c error b hb).2
  simp only [dumpRedrawByteHex, draw, hputs]

theorem dumpRedrawByteAscii_eq (hneo : s.isAS3000 = false) (c : BitVec 8) (error : Bool) :
    dumpRedrawByteAscii m c error s =
      draw (fun o => [byteAsciiText false c error].foldl (emit m.fw) o) s := by
  have hlt := (byteAsciiText_printing c error).2
  have hu8 : u8 (byteAsciiText false c error : ℕ) = byteAsciiText false c error :=
    u8_natCast hlt
  have hput (o : Os3k) : (putchar m.fw (byteAsciiText false c error : ℕ) o).2 =
      emit m.fw o (byteAsciiText false c error) := by
    change (fputcStdout m.fw (u8 (byteAsciiText false c error : ℕ)) o).2 = _
    rw [hu8]
    rfl
  simp only [dumpRedrawByteAscii, hneo, Bool.false_eq_true, if_false, draw, hput, List.foldl_cons,
    List.foldl_nil]

/-- Drawing one piece of text after another. -/
theorem foldl_typed {A : Type*} {f : Tool → A → Tool} {g : A → List ℕ}
    (hf : ∀ s c,s.isAS3000 = false → s.os3k.pCurFont = some font →
      f s c = draw (fun o => (g c).foldl (emit m.fw) o) s) (l : List A)
    (hneo : s.isAS3000 = false) (hfont : s.os3k.pCurFont = some font) :
    l.foldl f s = draw (fun o => (l.flatMap g).foldl (emit m.fw) o) s := by
  induction l generalizing s with
  | nil => rfl
  | cons c l ih =>
    rw [List.foldl_cons, hf s c hneo hfont,
      ih (s := draw (fun o => (g c).foldl (emit m.fw) o) s) hneo (foldl_pCurFont hfont (g c))]
    simp only [draw, List.flatMap_cons, List.foldl_append]

/-- A read with the bus-error flag cleared before it. -/
theorem readByte_eq (m : Machine) (a : Addr) (s : Tool) :
    readByte m a { s with busError := false } =
      ((dumpByte m s.memory a).1,{ s with busError := (dumpByte m s.memory a).2 }) := by
  unfold readByte dumpByte
  split_ifs <;> rfl

theorem readRow_eq (m : Machine) (n : ℕ) (a : Addr) (s : Tool) :
    ∃ error,readRow m n a s = (rowBytes m s.memory n a,{ s with busError := error }) := by
  induction n generalizing a s with
  | zero => exact ⟨s.busError,rfl⟩
  | succ n ih =>
    let c := dumpByte m s.memory a
    obtain ⟨error,hrest⟩ := ih (a + 1) { s with busError := c.2 }
    refine ⟨error,?_⟩
    rw [readRow, readByte_eq]
    change (c::(readRow m n (a + 1) { s with busError := c.2 }).1,
      (readRow m n (a + 1) { s with busError := c.2 }).2) = _
    rw [hrest]
    rfl

/-- The bytes of a row, first in hexadecimal and then as characters. -/
theorem redrawBytes_eq (hneo : s.isAS3000 = false) (hfont : s.os3k.pCurFont = some font)
    (m : Machine) (bytes : List (BitVec 8 × Bool)) :
    bytes.foldl (fun s c => dumpRedrawByteAscii m c.1 c.2 s)
        (bytes.foldl (fun s c => dumpRedrawByteHex m c.1 c.2 s) s) =
      draw (fun o => (bytes.flatMap (fun c => byteHexText c.1 c.2) ++
        bytes.map (fun c => byteAsciiText false c.1 c.2)).foldl (emit m.fw) o) s := by
  have hhexed := foldl_typed (fun s c _ hf => dumpRedrawByteHex_eq (m := m) hf c.1 c.2) bytes
    hneo hfont
  have hascii := foldl_typed (fun s c hn _ => dumpRedrawByteAscii_eq (m := m) hn c.1 c.2) bytes
    (s := draw (fun o => (bytes.flatMap fun c => byteHexText c.1 c.2).foldl (emit m.fw) o) s)
    hneo (foldl_pCurFont hfont _)
  rw [hhexed, hascii]
  simp only [draw, List.map_eq_flatMap, List.foldl_append]

/-- A row is its text from column 3 on. -/
theorem dumpRedrawRow_eq (hneo : s.isAS3000 = false) (hfont : s.os3k.pCurFont = some font)
    (m : Machine) (row : ℕ) (a : Addr) :
    ∃ error,dumpRedrawRow m row a s =
      draw (fun o => (rowText m s.memory a).foldl (emit m.fw) (setCursor m.fw row 3 .hide o))
        { s with busError := error } := by
  have hplaced : (setCursor m.fw row 3 .hide s.os3k).pCurFont = some font :=
    (setCursor_sameScreen m.fw row 3 .hide s.os3k).1.trans hfont
  generalize hset : setCursor m.fw row 3 .hide s.os3k = placed at hplaced
  have hputs : (puts m.fw (addressText false a) placed).2 = _ :=
    puts_eq hplaced fun b hb => (addressText_printing a b hb).2
  have haddressed : ((addressText false a).foldl (emit m.fw) placed).pCurFont = some font :=
    foldl_pCurFont hplaced _
  obtain ⟨error,hread⟩ := readRow_eq m 8 a
    { s with os3k := (addressText false a).foldl (emit m.fw) placed }
  simp only [hneo] at hread
  refine ⟨error,?_⟩
  simp only [dumpRedrawRow, hneo, Bool.false_eq_true, if_false, draw, hset, hputs, hread]
  have hbytes := redrawBytes_eq
    (s := { s with os3k := (addressText false a).foldl (emit m.fw) placed, busError := error })
    hneo haddressed m (rowBytes m s.memory 8 a)
  rw [hneo] at hbytes
  rw [hbytes]
  simp only [draw, rowText, List.foldl_append]

/-! ### What drawing leaves alone -/

/-- Memory and the saved vector are those of `s`. -/
def Keeps (s t : Tool) : Prop :=
  t.memory = s.memory ∧ t.prevBusErrorHandler = s.prevBusErrorHandler

theorem Keeps.refl (s : Tool) : Keeps s s := ⟨rfl,rfl⟩

theorem Keeps.trans {s t u : Tool} (h : Keeps s t) (h' : Keeps t u) : Keeps s u :=
  ⟨h'.1.trans h.1,h'.2.trans h.2⟩

theorem keeps_foldl {A : Type*} {f : Tool → A → Tool} (hf : ∀ s a,Keeps s (f s a)) (l : List A)
    (s : Tool) : Keeps s (l.foldl f s) :=
  List.foldlRecOn l f (.refl s) fun t ht a _ => ht.trans (hf t a)

theorem dumpRedrawByteAscii_keeps (m : Machine) (c : BitVec 8) (error : Bool) (s : Tool) :
    Keeps s (dumpRedrawByteAscii m c error s) := by
  simp only [dumpRedrawByteAscii]
  split_ifs <;> exact .refl s

/-- The two pieces of text that a byte gets. -/
def redrawByte (m : Machine) (c : BitVec 8 × Bool) (s : Tool) : Tool :=
  let s := dumpRedrawByteHex m c.1 c.2 (dumpSetCursor m s.cursor .nibbleHi .hide s)
  dumpRedrawByteAscii m c.1 c.2 (dumpSetCursor m s.cursor .ascii .hide s)

theorem redrawByte_keeps (m : Machine) (c : BitVec 8 × Bool) (s : Tool) :
    Keeps s (redrawByte m c s) := by
  have hhex : Keeps s (dumpSetCursor m s.cursor .ascii .hide
      (dumpRedrawByteHex m c.1 c.2 (dumpSetCursor m s.cursor .nibbleHi .hide s))) := .refl s
  exact hhex.trans (dumpRedrawByteAscii_keeps m c.1 c.2 _)

/-- The state in which a row's bytes are read: its address is on the display. -/
def addressed (m : Machine) (row : ℕ) (a : Addr) (s : Tool) : Tool :=
  let s := draw (setCursor m.fw row (if s.isAS3000 then 1 else 3) .hide) s
  draw (fun o => (puts m.fw (addressText s.isAS3000 a) o).2) s

/-- The bytes of a row on the display. -/
def drawBytes (m : Machine) (bytes : List (BitVec 8 × Bool)) (s : Tool) : Tool :=
  bytes.foldl (fun s c => dumpRedrawByteAscii m c.1 c.2 s)
    (bytes.foldl (fun s c => dumpRedrawByteHex m c.1 c.2 s) s)

/-- A row shows the bytes that are read once its address is on the display. -/
theorem dumpRedrawRow_drawBytes (m : Machine) (row : ℕ) (a : Addr) (s : Tool) :
    dumpRedrawRow m row a s =
      drawBytes m (readRow m 8 a (addressed m row a s)).1
        (readRow m 8 a (addressed m row a s)).2 := rfl

theorem drawBytes_keeps (m : Machine) (bytes : List (BitVec 8 × Bool)) (s : Tool) :
    Keeps s (drawBytes m bytes s) := by
  have hhex (s : Tool) (c : BitVec 8 × Bool) : Keeps s (dumpRedrawByteHex m c.1 c.2 s) := .refl s
  have hascii (s : Tool) (c : BitVec 8 × Bool) : Keeps s (dumpRedrawByteAscii m c.1 c.2 s) :=
    dumpRedrawByteAscii_keeps m c.1 c.2 s
  unfold drawBytes
  generalize hhexed : bytes.foldl (fun s c => dumpRedrawByteHex m c.1 c.2 s) s = t
  have hfirst : Keeps s t := hhexed ▸ keeps_foldl hhex bytes s
  exact hfirst.trans (keeps_foldl hascii bytes t)

theorem dumpRedrawRow_keeps (m : Machine) (row : ℕ) (a : Addr) (s : Tool) :
    Keeps s (dumpRedrawRow m row a s) := by
  obtain ⟨error,hread⟩ := readRow_eq m 8 a (addressed m row a s)
  rw [dumpRedrawRow_drawBytes, hread]
  have haddressed : Keeps s { addressed m row a s with busError := error } := .refl s
  exact haddressed.trans (drawBytes_keeps m _ _)

theorem dumpRedrawRows_keeps (m : Machine) (count row : ℕ) (a : Addr) (s : Tool) :
    Keeps s (dumpRedrawRows m count row a s) := by
  induction count generalizing row a s with
  | zero => exact .refl s
  | succ count ih => exact (dumpRedrawRow_keeps m row a s).trans (ih _ _ _)

/-- The memory with the tool's handler in place. -/
def installed (m : Machine) (memory : Memory) : Memory := store32 memory 8 m.busErrorHandler

/-- Where the vector is not, the handler does not show. -/
theorem installed_frame (m : Machine) (memory : Memory) {x : Addr} (hx : ¬ InWord 8 x) :
    installed m memory x = memory x := store32_frame memory _ hx

theorem restore_installed (m : Machine) (memory : Memory) :
    store32 (installed m memory) 8 (load32 memory 8) = memory := by
  funext x
  rw [store32_load32]
  split_ifs with hx
  · rfl
  · exact installed_frame m memory hx

/-- The memory is as before when the handler is gone again. -/
theorem dumpRedrawScreen_memory (m : Machine) (s : Tool) :
    (dumpRedrawScreen m s).memory = s.memory := by
  obtain ⟨hmemory,hprevious⟩ :=
    dumpRedrawRows_keeps m s.rowsPerScreen 1 s.pAddress (installBusErrorHandler m s)
  have hredraw : (dumpRedrawScreen m s).memory =
      (uninstallBusErrorHandler (dumpRedrawRows m s.rowsPerScreen 1 s.pAddress
        (installBusErrorHandler m s))).memory := rfl
  rw [hredraw, uninstallBusErrorHandler, hmemory, hprevious]
  exact restore_installed m s.memory

/-! ### Rows on a Neo -/

/-- The display that the dump needs. -/
structure Screen (m : Machine) (font : FontHeader) (rows : ℕ) (s : Tool) : Prop where
  neo : s.isAS3000 = false
  geometry : Geometry m.fw font s.os3k
  rolled : Rolled font s.os3k
  wide : 44 ≤ s.os3k.maxCol
  maxRow : s.os3k.maxRow = rows

theorem geometry_of_same {fw : Firmware} {o o' : Os3k} (g : Geometry fw font o)
    (h : SameScreen o o') : Geometry fw font o' :=
  g.of_fields h.1 h.2.1 h.2.2.1 h.2.2.2.1 h.2.2.2.2

variable {rows : ℕ}

theorem Screen.drawn (h : Screen m font rows s) {t : Tool} (hneo : t.isAS3000 = s.isAS3000)
    (hsame : SameScreen s.os3k t.os3k) (hrolled : Rolled font t.os3k) : Screen m font rows t :=
  ⟨hneo.trans h.neo,geometry_of_same h.geometry hsame,hrolled,hsame.2.2.2.2.symm ▸ h.wide,
    hsame.2.2.2.1.trans h.maxRow⟩

theorem rowText_length (m : Machine) (memory : Memory) (a : Addr) :
    (rowText m memory a).length = 41 := by
  simp [rowText, rowBytes, byteHexText_length, addressText_length]

theorem rowText_printing (m : Machine) (memory : Memory) (a : Addr) :
    ∀ b ∈ rowText m memory a,Printing b := by
  intro b hb
  rcases List.mem_append.mp hb with hb | hb
  · exact (addressText_printing a b hb).1
  rcases List.mem_append.mp hb with hb | hb
  · obtain ⟨c,-,hb⟩ := List.mem_flatMap.mp hb
    exact (byteHexText_printing c.1 c.2 b hb).1
  · obtain ⟨c,-,rfl⟩ := List.mem_map.mp hb
    exact (byteAsciiText_printing c.1 c.2).1

theorem dumpRedrawRow_typed (h : Screen m font rows s) {row : ℕ} (hrow : 1 ≤ row ∧ row ≤ rows)
    (a : Addr) :
    ∃ o error,dumpRedrawRow m row a s = { s with os3k := o, busError := error } ∧
      Typed m.fw font row 3 (rowText m s.memory a) s.os3k o := by
  obtain ⟨error,hdraw⟩ := dumpRedrawRow_eq h.neo h.geometry.pCurFont m row a
  have hlen := rowText_length m s.memory a
  have hwide := h.wide
  refine ⟨_,error,hdraw,typed_setCursor h.geometry h.rolled ?_ ?_ ?_ (rowText_printing m _ a) .hide⟩
  · rw [h.maxRow]
    exact hrow
  · omega
  · omega

/-- Rows from `row` on show their text, and nothing above them has changed. -/
structure RowsTyped (m : Machine) (font : FontHeader) (memory : Memory) (count row : ℕ) (a : Addr)
    (o o' : Os3k) : Prop where
  same : SameScreen o o'
  rolled : Rolled font o'
  shows : ∀ k < count, ∀ j b,(rowText m memory (a + BitVec.ofNat 32 (8 * k)))[j]? = some b →
    ShowsByte m.fw font o' (row + k) (3 + j) b
  above : ∀ r < row, ∀ col b,ShowsByte m.fw font o r col b → ShowsByte m.fw font o' r col b

theorem dumpRedrawRows_typed (h : Screen m font rows s) {count row : ℕ}
    (hrow : 1 ≤ row ∧ row + count ≤ rows + 1) (a : Addr) :
    ∃ o error,dumpRedrawRows m count row a s = { s with os3k := o, busError := error } ∧
      RowsTyped m font s.memory count row a s.os3k o := by
  induction count generalizing row a s with
  | zero =>
    exact ⟨s.os3k,s.busError,rfl,.refl _,h.rolled,nofun,fun _ _ _ _ h => h⟩
  | succ count ih =>
    obtain ⟨o,error,hfirst,htyped⟩ := dumpRedrawRow_typed h ⟨hrow.1,by omega⟩ a
    have h₁ : Screen m font rows { s with os3k := o, busError := error } :=
      h.drawn rfl htyped.same htyped.atCell.toRolled
    have hfit : 1 ≤ row + 1 ∧ row + 1 + count ≤ rows + 1 := by omega
    obtain ⟨o',error',hrest,hrows⟩ := ih h₁ hfit (a + 8)
    refine ⟨o',error',?_,htyped.same.trans hrows.same,hrows.rolled,fun k hk j b hb => ?_,
      fun r hr col b hshown => ?_⟩
    · rw [dumpRedrawRows, hfirst, hrest]
    · cases k with
      | zero =>
        rw [Nat.mul_zero, BitVec.add_zero] at hb
        exact hrows.above row (Nat.lt_succ_self row) _ b (htyped.shows j b hb)
      | succ k =>
        have hnext : a + BitVec.ofNat 32 (8 * (k + 1)) = a + 8 + BitVec.ofNat 32 (8 * k) := by
          bv_omega
        rw [hnext] at hb
        have := hrows.shows k (by omega) j b hb
        rwa [Nat.add_right_comm] at this
    · exact hrows.above r (by omega) col b
        (hshown.frame htyped.same htyped.only (Or.inl (by omega)))

/-! ### One byte -/

/-- The column of a byte's digit or character. -/
def column : Mode → ℕ → ℕ
  | .nibbleHi,c => 12 + 3 * c
  | .nibbleLo,c => 13 + 3 * c
  | .ascii,c => 36 + c

theorem dumpSetCursor_eq (hneo : s.isAS3000 = false) {k : ℕ} (hk : k < 64) (mode : Mode)
    (cursorMode : CursorMode) :
    dumpSetCursor m k mode cursorMode s =
      draw (setCursor m.fw (1 + k / 8) (column mode (k % 8)) cursorMode) s := by
  have hchar : s8 k = k := by
    simp only [s8]
    omega
  have hdiv : (k : ℤ).tdiv 8 = (k / 8 : ℕ) := rfl
  have hmod : (k : ℤ).tmod 8 = (k % 8 : ℕ) := rfl
  have hrow : u8 (1 + (k / 8 : ℕ)) = 1 + k / 8 := by
    simp only [u8]
    omega
  have hcol (z : ℤ) (hz : z + 12 = column mode (k % 8)) : u8 (z + 12) = column mode (k % 8) := by
    have hlt : column mode (k % 8) < 256 := by
      cases mode <;> simp only [column] <;> omega
    rw [hz, u8_natCast hlt]
  simp only [dumpSetCursor, hchar, hdiv, hmod, hrow, hneo, Bool.false_eq_true, if_false]
  rw [hcol]
  cases mode <;> simp only [column] <;> omega

theorem redrawByte_typed (h : Screen m font rows s) {k : ℕ} (hk : s.cursor = k)
    (hlt : k < 8 * rows) (hrows : rows ≤ 8) (c : BitVec 8 × Bool) :
    ∃ o o',redrawByte m c s = { s with os3k := o' } ∧
      Typed m.fw font (1 + k / 8) (12 + 3 * (k % 8)) (byteHexText c.1 c.2) s.os3k o ∧
      Typed m.fw font (1 + k / 8) (36 + k % 8) [byteAsciiText false c.1 c.2] o o' := by
  have hwide := h.wide
  have hrow := h.maxRow
  have hlen := byteHexText_length c.1 c.2
  have hinside : 1 ≤ 1 + k / 8 ∧ 1 + k / 8 ≤ s.os3k.maxRow := by omega
  have hhex := typed_setCursor h.geometry h.rolled hinside
    (by omega : 1 ≤ 12 + 3 * (k % 8) ∧
      12 + 3 * (k % 8) + (byteHexText c.1 c.2).length ≤ s.os3k.maxCol + 1) (by omega)
    (fun b hb => (byteHexText_printing c.1 c.2 b hb).1) .hide
  have hsame := hhex.same
  rw [← hsame.2.2.2.1] at hinside
  have hascii := typed_setCursor hhex.atCell.toGeometry hhex.atCell.toRolled hinside
    (by rw [hsame.2.2.2.2]; omega : 1 ≤ 36 + k % 8 ∧ 36 + k % 8 + 1 ≤ _ + 1)
    (by rw [List.length_singleton]; omega)
    (fun b (hb : b ∈ [byteAsciiText false c.1 c.2]) =>
      List.mem_singleton.mp hb ▸ (byteAsciiText_printing c.1 c.2).1) .hide
  refine ⟨_,_,?_,hhex,hascii⟩
  have hplaced :
      (setCursor m.fw (1 + k / 8) (12 + 3 * (k % 8)) .hide s.os3k).pCurFont = some font :=
    (setCursor_sameScreen m.fw _ _ .hide s.os3k).1.trans h.geometry.pCurFont
  let s₁ := draw (setCursor m.fw (1 + k / 8) (12 + 3 * (k % 8)) .hide) s
  let s₂ := draw (fun o => (byteHexText c.1 c.2).foldl (emit m.fw) o) s₁
  have h₁ : dumpSetCursor m s.cursor .nibbleHi .hide s = s₁ := by
    rw [hk, dumpSetCursor_eq h.neo (by omega)]
    rfl
  have h₂ : dumpRedrawByteHex m c.1 c.2 s₁ = s₂ := dumpRedrawByteHex_eq hplaced c.1 c.2
  have h₃ : dumpSetCursor m s₂.cursor .ascii .hide s₂ =
      draw (setCursor m.fw (1 + k / 8) (36 + k % 8) .hide) s₂ := by
    rw [show s₂.cursor = k from hk]
    exact dumpSetCursor_eq (s := s₂) h.neo (by omega) .ascii .hide
  simp only [redrawByte, h₁, h₂, h₃]
  exact dumpRedrawByteAscii_eq (s := draw (setCursor m.fw (1 + k / 8) (36 + k % 8) .hide) s₂)
    h.neo c.1 c.2

/-- The byte that is stored in place of `old`. -/
def typed (value mask old : BitVec 8) : BitVec 8 := (old &&& mask) ||| value

/-- The memory behind an edit, with the tool's handler still in place. -/
def written (m : Machine) (value mask : BitVec 8) (s : Tool) : Memory :=
  let p := current s.toNavigation
  if m.faults p = false ∧ m.writable p = true then
    store8 (installed m s.memory) p (typed value mask (installed m s.memory p))
  else installed m s.memory

/-- The byte that an edit reads back, and the state in which the vector is put back. -/
def readBack (m : Machine) (value mask : BitVec 8) (s : Tool) : (BitVec 8 × Bool) × Tool :=
  let p := current s.toNavigation
  let old := readByte m p { installBusErrorHandler m s with busError := false }
  let s := if mask = 0 ∨ old.2.busError = false
    then writeByte m p ((old.1 &&& mask) ||| value) old.2 else old.2
  let c := readByte m p { s with busError := false }
  ((c.1,c.2.busError),uninstallBusErrorHandler c.2)

/-- An edit redraws the byte that it reads back. -/
theorem dumpWriteAndRedrawCur_readBack (m : Machine) (value mask : BitVec 8) (s : Tool) :
    dumpWriteAndRedrawCur m value mask s =
      redrawByte m (readBack m value mask s).1 (readBack m value mask s).2 := rfl

/-- A byte is stored that neither faults nor refuses the store, and is read back before
the vector is put back. -/
theorem readBack_eq (m : Machine) (value mask : BitVec 8) (s : Tool) :
    readBack m value mask s =
      let c := dumpByte m (written m value mask s) (current s.toNavigation)
      (c,{ s with
        memory := store32 (written m value mask s) 8 (load32 s.memory 8)
        busError := c.2
        prevBusErrorHandler := load32 s.memory 8 }) := by
  let p := current s.toNavigation
  let s₁ := installBusErrorHandler m s
  let old := readByte m p { s₁ with busError := false }
  have hold : old = ((dumpByte m (installed m s.memory) p).1,
      { s₁ with busError := (dumpByte m (installed m s.memory) p).2 }) := readByte_eq m p s₁
  have hwritten : ∃ error,(if mask = 0 ∨ old.2.busError = false
      then writeByte m p ((old.1 &&& mask) ||| value) old.2 else old.2) =
        { s₁ with memory := written m value mask s, busError := error } := by
    rw [hold]
    unfold dumpByte writeByte written
    by_cases hfault : m.faults p = true
    · refine ⟨true,?_⟩
      simp only [p] at hfault
      simp only [p, hfault, if_true, Bool.true_eq_false, false_and, if_false, ite_self]
      rfl
    · have hok : m.faults p = false := Bool.eq_false_iff.mpr hfault
      refine ⟨false,?_⟩
      simp only [p] at hok
      simp only [p, hok, Bool.false_eq_true, if_false, or_true, if_true, true_and]
      split_ifs <;> rfl
  have hsplit (w : Tool) (hw : (if mask = 0 ∨ old.2.busError = false
      then writeByte m p ((old.1 &&& mask) ||| value) old.2 else old.2) = w) :
      let c := readByte m p { w with busError := false }
      readBack m value mask s = ((c.1,c.2.busError),uninstallBusErrorHandler c.2) := by
    subst hw
    rfl
  obtain ⟨error,hwritten⟩ := hwritten
  have hread := readByte_eq m p { s₁ with memory := written m value mask s, busError := error }
  rw [hsplit _ hwritten, hread]
  rfl

/-- The memory that an edit leaves. -/
def edited (m : Machine) (value mask : BitVec 8) (s : Tool) : Memory := fun x =>
  if x = current s.toNavigation ∧ m.faults x = false ∧ m.writable x = true ∧ ¬ InWord 8 x
  then typed value mask (s.memory x) else s.memory x

theorem restored_eq (m : Machine) (value mask : BitVec 8) (s : Tool) :
    store32 (written m value mask s) 8 (load32 s.memory 8) = edited m value mask s := by
  funext x
  rw [store32_load32, edited]
  by_cases hword : InWord 8 x
  · rw [if_pos hword, if_neg fun h => h.2.2.2 hword]
  · have hkeep := installed_frame m s.memory hword
    rw [if_neg hword, written]
    by_cases hp : x = current s.toNavigation
    · rw [← hp]
      split_ifs with hstore hedit hedit
      · rw [store8, if_pos rfl, hkeep]
      · exact absurd ⟨rfl,hstore.1,hstore.2,hword⟩ hedit
      · exact absurd ⟨hedit.2.1,hedit.2.2.1⟩ hstore
      · exact hkeep
    · split_ifs with hstore hedit hedit
      · exact absurd hedit.1 hp
      · rw [store8_frame _ _ hp, hkeep]
      · exact absurd hedit.1 hp
      · exact hkeep

theorem dumpWriteAndRedrawCur_memory (m : Machine) (value mask : BitVec 8) (s : Tool) :
    (dumpWriteAndRedrawCur m value mask s).memory = edited m value mask s := by
  rw [dumpWriteAndRedrawCur_readBack, (redrawByte_keeps m _ _).1, readBack_eq, ← restored_eq]

/-- The library places its cursor anew, whatever stood in the structure. -/
theorem setCursor_placed {fw : Firmware} {o : Os3k} (hfont : o.pCurFont = some font)
    (row col : ℕ) (mode : CursorMode) (k : Cursor) :
    setCursor fw row col mode { o with cursor := k } = setCursor fw row col mode o := by
  cases o
  cases hfont
  dsimp only [setCursor, setCursorMode]
  split_ifs <;> rfl

/-- Nothing that an edit could store in the cursor structure reaches the display: the
redraw of the byte begins with a placement of the cursor. -/
theorem redrawByte_placed (hfont : s.os3k.pCurFont = some font) (m : Machine)
    (c : BitVec 8 × Bool) (k : Cursor) :
    redrawByte m c (draw (fun o => { o with cursor := k }) s) = redrawByte m c s := by
  have hplaced : dumpSetCursor m s.cursor .nibbleHi .hide
      (draw (fun o => { o with cursor := k }) s) = dumpSetCursor m s.cursor .nibbleHi .hide s := by
    unfold dumpSetCursor
    exact congrArg (fun o => { s with os3k := o }) (setCursor_placed hfont _ _ _ k)
  unfold redrawByte
  rw [← hplaced]
  rfl

/-- An edit changes at most the byte under the cursor. -/
theorem edited_frame (m : Machine) (value mask : BitVec 8) (s : Tool) {x : Addr}
    (hx : x ≠ current s.toNavigation) : edited m value mask s x = s.memory x :=
  if_neg fun h => hx h.1

/-- Outside the bus-error vector the byte redrawn is the one that stays. -/
theorem dumpByte_written (m : Machine) (value mask : BitVec 8) (s : Tool)
    (hp : ¬ InWord 8 (current s.toNavigation)) :
    dumpByte m (written m value mask s) (current s.toNavigation) =
      dumpByte m (edited m value mask s) (current s.toNavigation) := by
  rw [dumpByte, dumpByte, ← restored_eq, store32_frame _ _ hp]

end Betawise.DebugDump
