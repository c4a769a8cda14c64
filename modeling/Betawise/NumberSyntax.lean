import Betawise.DebugTool
import Betawise.HexNotation

/-!
# The syntax of numbers

`NumberFromString` accepts exactly the strings of a small grammar. Both digit loops are
one scan over a digit function and a base; it stops at the first character that is not a
digit, and its accumulator is the value of the digits modulo 2^32.
-/
namespace Betawise.NumberSyntax
open ByteMemory DebugTool HexNotation

/-! ### Digit loops -/

/-- The digits at the head of a text, added to `n` in a base, and the rest. -/
def scan (digit : ℕ → Option ℕ) (base : ℕ) : BitVec 32 → List ℕ → BitVec 32 × List ℕ
  | n,[] => (n,[])
  | n,c::cs =>
    match digit c with
    | none => (n,c::cs)
    | some d => scan digit base (n * BitVec.ofNat 32 base + BitVec.ofNat 32 d) cs

/-- The value of digits behind a number `n`. -/
def valueFrom (digit : ℕ → Option ℕ) (base n : ℕ) (ds : List ℕ) : ℕ :=
  ds.foldl (fun v c => v * base + (digit c).getD 0) n

/-- All characters are digits. -/
def Digits (digit : ℕ → Option ℕ) (ds : List ℕ) : Prop := ∀ c ∈ ds,(digit c).isSome

/-- The text does not go on with a digit. -/
def Ends (digit : ℕ → Option ℕ) (rest : List ℕ) : Prop := ∀ c ∈ rest.head?,digit c = none

variable {digit : ℕ → Option ℕ} {base : ℕ}

theorem scan_append {ds rest : List ℕ} (hds : Digits digit ds) (hrest : Ends digit rest) (n : ℕ) :
    scan digit base (BitVec.ofNat 32 n) (ds ++ rest) =
      (BitVec.ofNat 32 (valueFrom digit base n ds),rest) := by
  induction ds generalizing n with
  | nil =>
    cases rest with
    | nil => rfl
    | cons c cs =>
      have hc : digit c = none := hrest c rfl
      rw [List.nil_append, scan, hc]
      rfl
  | cons c ds ih =>
    obtain ⟨d,hd⟩ := Option.isSome_iff_exists.mp (hds c List.mem_cons_self)
    have hnext : BitVec.ofNat 32 n * BitVec.ofNat 32 base + BitVec.ofNat 32 d =
        BitVec.ofNat 32 (n * base + (digit c).getD 0) := by
      rw [hd, BitVec.ofNat_add, BitVec.ofNat_mul, Option.getD_some]
    rw [List.cons_append, scan, hd]
    change scan digit base (BitVec.ofNat 32 n * BitVec.ofNat 32 base + BitVec.ofNat 32 d) _ = _
    rw [hnext, ih fun c' hc' => hds c' (List.mem_cons_of_mem c hc')]
    rfl

/-- Every text is digits and a rest that does not go on with one. -/
theorem digits_split (digit : ℕ → Option ℕ) (cs : List ℕ) :
    ∃ ds rest,cs = ds ++ rest ∧ Digits digit ds ∧ Ends digit rest := by
  induction cs with
  | nil => exact ⟨[],[],rfl,nofun,nofun⟩
  | cons c cs ih =>
    cases hc : digit c with
    | none =>
      refine ⟨[],c::cs,rfl,nofun,fun c' hc' => ?_⟩
      obtain rfl : c = c' := Option.some.inj hc'
      exact hc
    | some d =>
      obtain ⟨ds,rest,rfl,hds,hrest⟩ := ih
      refine ⟨c::ds,rest,rfl,fun c' hc' => ?_,hrest⟩
      rcases List.mem_cons.mp hc' with rfl | hc'
      · exact Option.isSome_iff_exists.mpr ⟨d,hc⟩
      · exact hds c' hc'

/-- A decimal digit. -/
def decDigit (c : ℕ) : Option ℕ := if 48 ≤ c ∧ c ≤ 57 then some (c - 48) else none

/-- The ranges of `HexCharToNibble` are those of the digits. -/
theorem hexCharToNibble_eq (c : ℕ) : hexCharToNibble c = hexValue c :=
  eq_hexValue (by decide) (fun c hc => by
    rw [hexCharToNibble, if_neg (by omega), if_neg (by omega), if_neg (by omega)]) c

theorem shift_or_nibble (n : BitVec 32) {d : ℕ} (hd : d < 16) :
    (n <<< 4) ||| BitVec.ofNat 32 d = n * BitVec.ofNat 32 16 + BitVec.ofNat 32 d := by
  have hlow : (n <<< 4) &&& BitVec.ofNat 32 d = 0 := by
    apply BitVec.eq_of_getLsbD_eq
    intro i hi
    change _ = (0#32).getLsbD i
    rw [BitVec.getLsbD_and, BitVec.getLsbD_shiftLeft, BitVec.getLsbD_ofNat, BitVec.getLsbD_zero]
    by_cases h4 : i < 4
    · simp [h4]
    · have hbit : d.testBit i = false :=
        Nat.testBit_lt_two_pow (hd.trans_le (Nat.pow_le_pow_right Nat.two_pos (Nat.not_lt.mp h4)))
      simp [hbit]
  rw [← BitVec.add_eq_or_of_and_eq_zero _ _ hlow, BitVec.shiftLeft_eq_mul_twoPow]
  rfl

theorem hexDigits_eq (n : BitVec 32) (cs : List ℕ) : hexDigits n cs = scan hexValue 16 n cs := by
  induction cs generalizing n with
  | nil => rfl
  | cons c cs ih =>
    rw [hexDigits, scan, hexCharToNibble_eq]
    cases hc : hexValue c with
    | none => rfl
    | some d => exact (ih _).trans (by rw [shift_or_nibble n (hexValue_lt hc)])

theorem decDigits_eq (n : BitVec 32) (cs : List ℕ) : decDigits n cs = scan decDigit 10 n cs := by
  induction cs generalizing n with
  | nil => rfl
  | cons c cs ih =>
    rw [decDigits, scan, decDigit]
    by_cases hc : c < 48 ∨ 57 < c
    · rw [if_pos hc, if_neg (by omega)]
    · rw [if_neg hc, if_pos (by omega)]
      exact ih _

/-! ### The grammar -/

/-- A numeral and its value: `0x` or `0X` and any number of hexadecimal digits of either
case, or any number of decimal digits. -/
inductive Numeral : List ℕ → ℕ → Prop
  | hex (x : ℕ) (ds : List ℕ) (hx : x = 0x78 ∨ x = 0x58) (hds : Digits hexValue ds) :
      Numeral (0x30::x::ds) (valueFrom hexValue 16 0 ds)
  | dec (ds : List ℕ) (hds : Digits decDigit ds) : Numeral ds (valueFrom decDigit 10 0 ds)

/-- The strings that are numbers, string literals apart. -/
inductive Accepted : List ℕ → Prop
  | plain {num : List ℕ} {v : ℕ} (h : Numeral num v) : Accepted num
  | scratch {num : List ℕ} {v : ℕ} (h : Numeral num v) : Accepted (num ++ [0x2B])
  | sysCall {num : List ℕ} {v : ℕ} (h : Numeral num v) : Accepted (0x21::num)

/-- The texts of hexadecimal numbers. -/
def HexPrefix (str : List ℕ) : Prop :=
  ∃ x cs,str = 0x30::x::cs ∧ (x = 0x78 ∨ x = 0x58)

theorem tolower_eq_x {d : ℕ} : tolower d = 120 ↔ d = 0x78 ∨ d = 0x58 := by
  unfold tolower
  split_ifs <;> omega

theorem digits_hex {x : ℕ} (hx : x = 0x78 ∨ x = 0x58) (cs : List ℕ) :
    digits (0x30::x::cs) = scan hexValue 16 (BitVec.ofNat 32 0) cs := by
  rw [digits, if_pos ⟨rfl,tolower_eq_x.mpr hx⟩]
  exact hexDigits_eq 0 cs

theorem digits_dec {str : List ℕ} (h : ¬ HexPrefix str) :
    digits str = scan decDigit 10 (BitVec.ofNat 32 0) str := by
  have hdec : digits str = decDigits 0 str := by
    unfold digits
    split
    · rename_i c d cs
      rw [if_neg]
      rintro ⟨rfl,hd⟩
      exact h ⟨d,cs,rfl,tolower_eq_x.mp hd⟩
    · rfl
  rw [hdec]
  exact decDigits_eq 0 str

/-- Behind a numeral the string is at its end or goes on with a plus sign. -/
theorem digits_append {num rest : List ℕ} {v : ℕ} (h : Numeral num v)
    (hrest : ∀ c ∈ rest.head?,c = 0x2B) : digits (num ++ rest) = (BitVec.ofNat 32 v,rest) := by
  have hends {digit : ℕ → Option ℕ} (hplus : digit 0x2B = none) : Ends digit rest :=
    fun c hc => hrest c hc ▸ hplus
  cases h with
  | hex x ds hx hds => exact (digits_hex hx (ds ++ rest)).trans (scan_append hds (hends rfl) 0)
  | dec ds hds =>
    have hno : ¬ HexPrefix (num ++ rest) := by
      rintro ⟨x,cs,heq,hx⟩
      -- the x is neither a decimal digit nor a plus sign
      have hmem : x ∈ num ∨ x ∈ rest.head? := by
        cases num with
        | nil =>
          rw [List.nil_append] at heq
          have := hrest 0x30 (by rw [heq]; rfl)
          omega
        | cons c num =>
          obtain ⟨-,heq⟩ := List.cons_eq_cons.mp heq
          cases num with
          | nil => exact Or.inr (by rw [show rest = x::cs from heq]; rfl)
          | cons d num =>
            obtain ⟨rfl,-⟩ := List.cons_eq_cons.mp heq
            exact Or.inl (List.mem_cons_of_mem c List.mem_cons_self)
      rcases hmem with hmem | hmem
      · have hdigit := hds x hmem
        rcases hx with rfl | rfl <;> exact absurd hdigit (by decide)
      · have := hrest x hmem
        omega
    exact (digits_dec hno).trans (scan_append hds (hends rfl) 0)

/-- Every string is a numeral, whose value is read, and a rest. -/
theorem digits_numeral (str : List ℕ) :
    ∃ num v rest,str = num ++ rest ∧ Numeral num v ∧ digits str = (BitVec.ofNat 32 v,rest) := by
  by_cases hprefix : HexPrefix str
  · obtain ⟨x,cs,rfl,hx⟩ := hprefix
    obtain ⟨ds,rest,rfl,hds,hrest⟩ := digits_split hexValue cs
    exact ⟨0x30::x::ds,_,rest,rfl,.hex x ds hx hds,
      (digits_hex hx (ds ++ rest)).trans (scan_append hds hrest 0)⟩
  · obtain ⟨ds,rest,rfl,hds,hrest⟩ := digits_split decDigit str
    exact ⟨ds,_,rest,rfl,.dec ds hds,
      (digits_dec hprefix).trans (scan_append hds hrest 0)⟩

/-- A numeral starts with a digit. -/
theorem Numeral.head_digit {num : List ℕ} {v : ℕ} (h : Numeral num v) :
    ∀ c ∈ num.head?,48 ≤ c ∧ c ≤ 57 := by
  intro c hc
  cases h with
  | hex x ds hx hds =>
    obtain rfl : 0x30 = c := Option.some.inj hc
    decide
  | dec ds hds =>
    have hdigit := hds c (List.mem_of_mem_head? hc)
    unfold decDigit at hdigit
    split_ifs at hdigit with hrange
    · exact hrange
    · exact absurd hdigit (by decide)

/-- It starts with no other character. -/
theorem Numeral.head?_ne {num : List ℕ} {v c : ℕ} (h : Numeral num v) (hc : c < 48) :
    num.head? ≠ some c := fun heq => by
  have := h.head_digit c heq
  omega

/-- Nor does it do so with a plus sign behind it. -/
theorem Numeral.scratch_head?_ne {num : List ℕ} {v c : ℕ} (h : Numeral num v) (hc : c < 43) :
    (num ++ [0x2B]).head? ≠ some c := by
  intro heq
  cases num with
  | nil =>
    have := Option.some.inj heq
    omega
  | cons d num =>
    have := h.head_digit c heq
    omega

/-! ### A call -/

/-- What a call returns and leaves in `*pNumber` and in `g_rawSysCall`. -/
structure Outcome where
  returned : ℤ
  pNumber : BitVec 32
  rawSysCall : BitVec 16

/-- `NumberFromString(p, pNumber)`. -/
def call (m : Machine) (p : Addr) (str : List ℕ) (pNumber : BitVec 32) (rawSysCall : BitVec 16) :
    Outcome where
  returned := if (numberFromString m p str).number.isSome then 0 else -1
  pNumber := (numberFromString m p str).number.getD pNumber
  rawSysCall := (numberFromString m p str).opcode.getD rawSysCall

theorem call_rawSysCall (m : Machine) (p : Addr) (str : List ℕ) (pNumber : BitVec 32) (s : Tool) :
    (call m p str pNumber s.rawSysCall).rawSysCall =
      (storeOpcode (numberFromString m p str) s).rawSysCall := by
  unfold call storeOpcode
  cases (numberFromString m p str).opcode <;> rfl

/-- The low nine bits of a number, two places up. -/
theorem opcodeBits (v : ℕ) : ((v % 4294967296) <<< 2 % 4294967296) &&& 0x7FC = 4 * (v % 512) := by
  have hshift : 4 * (v % 512) = (v % 2 ^ 9) <<< 2 := by
    rw [Nat.shiftLeft_eq]
    omega
  have hmask : 0x7FC = (2 ^ 9 - 1) <<< 2 := by decide
  rw [hshift, hmask, show 4294967296 = 2 ^ 32 from rfl]
  apply Nat.eq_of_testBit_eq
  intro i
  simp only [Nat.testBit_and, Nat.testBit_shiftLeft, Nat.testBit_mod_two_pow,
    Nat.testBit_two_pow_sub_one]
  by_cases hlow : i < 11
  · have hi : i < 32 ∧ i - 2 < 32 := by omega
    simp only [hi.1, hi.2, decide_true, Bool.true_and]
    cases decide (i ≥ 2) <;> cases v.testBit (i - 2) <;> cases decide (i - 2 < 9) <;> rfl
  · have hi : ¬ i - 2 < 9 := by omega
    simp [hi]

theorem sysCallOpcode_ofNat (v : ℕ) :
    sysCallOpcode (BitVec.ofNat 32 v) = BitVec.ofNat 16 (0xA000 + 4 * (v % 512)) := by
  have hlt : v % 512 < 512 := Nat.mod_lt v (by decide)
  have hor : 0xA000 ||| 4 * (v % 512) = 0xA000 + 4 * (v % 512) :=
    (Nat.two_pow_add_eq_or_of_lt (i := 11) (b := 4 * (v % 512)) (by omega) 20).symm
  have hbits : ((BitVec.ofNat 32 v <<< 2) &&& 0x7FC).toNat = 4 * (v % 512) := opcodeBits v
  have hlow : 4 * (v % 512) % 2 ^ 16 = 4 * (v % 512) := Nat.mod_eq_of_lt (by omega)
  have hsum : (0xA000 + 4 * (v % 512)) % 2 ^ 16 = 0xA000 + 4 * (v % 512) :=
    Nat.mod_eq_of_lt (by omega)
  apply BitVec.eq_of_toNat_eq
  rw [sysCallOpcode, BitVec.toNat_or, BitVec.toNat_setWidth, hbits, BitVec.toNat_ofNat, hlow, hsum]
  exact hor

variable {m : Machine} {p : Addr} {str : List ℕ} {pNumber : BitVec 32} {rawSysCall : BitVec 16}

theorem call_literal (h : str.head? = some 0x24) :
    call m p str pNumber rawSysCall = ⟨0,p + 1,rawSysCall⟩ := by
  simp only [call, numberFromString, if_pos h]
  rfl

/-- A string that is neither a literal nor a system call. -/
theorem numberFromString_plain (hliteral : str.head? ≠ some 0x24) (hcall : str.head? ≠ some 0x21) :
    numberFromString m p str =
      if (digits str).2.head? = some 0x2B then
        ⟨if (digits str).2.tail = [] then some ((digits str).1 + m.scratch) else none,none⟩
      else ⟨if (digits str).2 = [] then some (digits str).1 else none,none⟩ := by
  rw [numberFromString, if_neg hliteral, if_neg hcall]

theorem call_plain {num : List ℕ} {v : ℕ} (h : Numeral num v) :
    call m p num pNumber rawSysCall = ⟨0,BitVec.ofNat 32 v,rawSysCall⟩ := by
  have hdigits : digits num = (BitVec.ofNat 32 v,[]) := by
    have hnil : digits (num ++ []) = (BitVec.ofNat 32 v,[]) := digits_append h nofun
    rwa [List.append_nil] at hnil
  simp only [call, hdigits, numberFromString_plain (h.head?_ne (c := 0x24) (by decide))
    (h.head?_ne (c := 0x21) (by decide))]
  rfl

theorem call_scratch {num : List ℕ} {v : ℕ} (h : Numeral num v) :
    call m p (num ++ [0x2B]) pNumber rawSysCall = ⟨0,BitVec.ofNat 32 v + m.scratch,rawSysCall⟩ := by
  have hdigits : digits (num ++ [0x2B]) = (BitVec.ofNat 32 v,[0x2B]) :=
    digits_append h fun c hc => (Option.some.inj hc).symm
  simp only [call, hdigits, numberFromString_plain (h.scratch_head?_ne (c := 0x24) (by decide))
    (h.scratch_head?_ne (c := 0x21) (by decide))]
  rfl

theorem call_sysCall {num : List ℕ} {v : ℕ} (h : Numeral num v) :
    call m p (0x21::num) pNumber rawSysCall =
      ⟨0,m.rawSysCall,BitVec.ofNat 16 (0xA000 + 4 * (v % 512))⟩ := by
  have hdigits : digits num = (BitVec.ofNat 32 v,[]) := by
    have hnil : digits (num ++ []) = (BitVec.ofNat 32 v,[]) := digits_append h nofun
    rwa [List.append_nil] at hnil
  simp only [call, numberFromString, List.head?_cons, List.tail_cons, hdigits]
  simp [sysCallOpcode_ofNat]

/-- Whatever is parsed to a number follows the grammar. -/
theorem accepted_of_isSome (hliteral : str.head? ≠ some 0x24)
    (h : (numberFromString m p str).number.isSome) : Accepted str := by
  by_cases hcall : str.head? = some 0x21
  · obtain ⟨num,v,rest,hsplit,hnum,hdigits⟩ := digits_numeral str.tail
    have hrest : rest = [] := by
      simp only [numberFromString, if_neg hliteral, if_pos hcall, hdigits] at h
      by_contra hne
      rw [if_neg hne] at h
      exact nomatch h
    obtain ⟨tail,rfl⟩ := List.head?_eq_some_iff.mp hcall
    rw [hrest, List.append_nil] at hsplit
    obtain rfl : tail = num := hsplit
    exact .sysCall hnum
  · obtain ⟨num,v,rest,rfl,hnum,hdigits⟩ := digits_numeral str
    rw [numberFromString_plain hliteral hcall, hdigits] at h
    by_cases hplus : rest.head? = some 0x2B
    · obtain ⟨tail,rfl⟩ := List.head?_eq_some_iff.mp hplus
      have htail : tail = [] := by
        by_contra hne
        rw [if_pos hplus, List.tail_cons, if_neg hne] at h
        exact nomatch h
      rw [htail]
      exact .scratch hnum
    · have hrest : rest = [] := by
        by_contra hne
        rw [if_neg hplus, if_neg hne] at h
        exact nomatch h
      rw [hrest, List.append_nil]
      exact .plain hnum

/-! ### The value of a text -/

instance (digit : ℕ → Option ℕ) (ds : List ℕ) : Decidable (Digits digit ds) :=
  inferInstanceAs (Decidable (∀ c ∈ ds, _))

/-- The value of a text of digits only. -/
def digitsValue (digit : ℕ → Option ℕ) (base : ℕ) (ds : List ℕ) : Option ℕ :=
  if Digits digit ds then some (valueFrom digit base 0 ds) else none

def numeralValue : List ℕ → Option ℕ
  | 0x30::0x78::ds => digitsValue hexValue 16 ds
  | 0x30::0x58::ds => digitsValue hexValue 16 ds
  | ds => digitsValue decDigit 10 ds

/-- The number that a text at address `p` stands for. -/
def textValue (m : Machine) (p : Addr) (text : List ℕ) : Option Addr :=
  if text.head? = some 0x24 then some (p + 1)
  else if text.head? = some 0x21 then (numeralValue text.tail).map fun _ => m.rawSysCall
  else if text.getLast? = some 0x2B then
    (numeralValue text.dropLast).map fun v => BitVec.ofNat 32 v + m.scratch
  else (numeralValue text).map fun v => BitVec.ofNat 32 v

theorem digitsValue_eq_some {ds : List ℕ} {v : ℕ} :
    digitsValue digit base ds = some v ↔ Digits digit ds ∧ v = valueFrom digit base 0 ds := by
  unfold digitsValue
  split_ifs with hds
  · simp [hds, eq_comm]
  · simp [hds]

theorem numeralValue_eq_some {text : List ℕ} {v : ℕ} :
    numeralValue text = some v ↔ Numeral text v := by
  constructor
  · unfold numeralValue
    split
    · intro h
      obtain ⟨hds,rfl⟩ := digitsValue_eq_some.mp h
      exact .hex 0x78 _ (Or.inl rfl) hds
    · intro h
      obtain ⟨hds,rfl⟩ := digitsValue_eq_some.mp h
      exact .hex 0x58 _ (Or.inr rfl) hds
    · intro h
      obtain ⟨hds,rfl⟩ := digitsValue_eq_some.mp h
      exact .dec text hds
  · intro h
    cases h with
    | hex x ds hx hds =>
      rcases hx with rfl | rfl
      · exact digitsValue_eq_some.mpr ⟨hds,rfl⟩
      · exact digitsValue_eq_some.mpr ⟨hds,rfl⟩
    | dec ds hds =>
      -- neither x is a decimal digit
      have hx : ∀ x ∈ text, x ≠ 0x78 ∧ x ≠ 0x58 := fun x hmem => by
        have hdigit := hds x hmem
        constructor <;> rintro rfl <;> exact absurd hdigit (by decide)
      unfold numeralValue
      split
      · exact absurd rfl (hx 0x78 (by simp)).1
      · exact absurd rfl (hx 0x58 (by simp)).2
      · exact digitsValue_eq_some.mpr ⟨hds,rfl⟩

/-- No numeral has a plus sign in it. -/
theorem Numeral.ne_plus {num : List ℕ} {v : ℕ} (h : Numeral num v) : ∀ c ∈ num,c ≠ 0x2B := by
  rintro c hc rfl
  cases h with
  | hex x ds hx hds =>
    rcases List.mem_cons.mp hc with hc | hc
    · exact absurd hc (by decide)
    · rcases List.mem_cons.mp hc with rfl | hc
      · omega
      · exact absurd (hds 0x2B hc) (by decide)
  | dec ds hds => exact absurd (hds 0x2B hc) (by decide)

theorem number_of_call {a : Addr} {opcode : BitVec 16}
    (h : call m p str 0 0 = ⟨0,a,opcode⟩) : (numberFromString m p str).number = some a := by
  have hreturned : (call m p str 0 0).returned = 0 := by rw [h]
  have hnumber : (call m p str 0 0).pNumber = a := by rw [h]
  unfold call at hreturned hnumber
  cases hn : (numberFromString m p str).number with
  | none =>
    simp only [hn] at hreturned
    exact absurd hreturned (by decide)
  | some x =>
    simp only [hn] at hnumber
    exact congrArg some hnumber

theorem number_of_textValue {a : Addr} (h : textValue m p str = some a) :
    (numberFromString m p str).number = some a := by
  unfold textValue at h
  split_ifs at h with hliteral hcall hplus
  · obtain rfl := Option.some.inj h
    exact number_of_call (call_literal hliteral)
  · obtain ⟨num,rfl⟩ := List.head?_eq_some_iff.mp hcall
    obtain ⟨v,hv,rfl⟩ := Option.map_eq_some_iff.mp h
    exact number_of_call (call_sysCall (numeralValue_eq_some.mp hv))
  · obtain ⟨num,rfl⟩ := List.getLast?_eq_some_iff.mp hplus
    obtain ⟨v,hv,rfl⟩ := Option.map_eq_some_iff.mp h
    rw [List.dropLast_concat] at hv
    exact number_of_call (call_scratch (numeralValue_eq_some.mp hv))
  · obtain ⟨v,hv,rfl⟩ := Option.map_eq_some_iff.mp h
    exact number_of_call (call_plain (numeralValue_eq_some.mp hv))

/-- Every string of the grammar stands for a number. -/
theorem Accepted.textValue_ne_none (h : Accepted str) : textValue m p str ≠ none := by
  cases h with
  | plain h =>
    have hplus : str.getLast? ≠ some 0x2B := fun heq =>
      h.ne_plus 0x2B (List.mem_of_getLast? heq) rfl
    rw [textValue, if_neg (h.head?_ne (by decide)), if_neg (h.head?_ne (by decide)),
      if_neg hplus, numeralValue_eq_some.mpr h]
    exact Option.some_ne_none _
  | scratch h =>
    rw [textValue, if_neg (h.scratch_head?_ne (by decide)), if_neg (h.scratch_head?_ne (by decide)),
      if_pos List.getLast?_concat, List.dropLast_concat, numeralValue_eq_some.mpr h]
    exact Option.some_ne_none _
  | sysCall h =>
    rw [textValue, if_neg (by simp), if_pos List.head?_cons, List.tail_cons,
      numeralValue_eq_some.mpr h]
    exact Option.some_ne_none _

/-- What is parsed is the number that the text stands for. -/
theorem number_eq_textValue (m : Machine) (p : Addr) (str : List ℕ) :
    (numberFromString m p str).number = textValue m p str := by
  cases hvalue : textValue m p str with
  | some a => exact number_of_textValue hvalue
  | none =>
    have hliteral : str.head? ≠ some 0x24 := fun h => by
      rw [textValue, if_pos h] at hvalue
      exact nomatch hvalue
    rw [← Option.not_isSome_iff_eq_none]
    exact fun hsome => (accepted_of_isSome hliteral hsome).textValue_ne_none hvalue

/-- `NumberFromString` accepts exactly the grammar: a string literal is its address, a
numeral its value, with a plus sign an offset into the scratch area, and with an
exclamation mark the cell that then holds the system call's opcode. -/
theorem numberFromString_grammar (m : Machine) (p : Addr) (str : List ℕ) (pNumber : BitVec 32)
    (rawSysCall : BitVec 16) :
    let r := call m p str pNumber rawSysCall
    (str.head? = some 0x24 → r = ⟨0,p + 1,rawSysCall⟩) ∧
      (str.head? ≠ some 0x24 →
        (r.returned = 0 ↔ Accepted str) ∧
          (¬ Accepted str → r.returned = -1 ∧ r.pNumber = pNumber)) ∧
      ∀ num v,Numeral num v →
        (str = num → r = ⟨0,BitVec.ofNat 32 v,rawSysCall⟩) ∧
          (str = num ++ [0x2B] → r = ⟨0,BitVec.ofNat 32 v + m.scratch,rawSysCall⟩) ∧
          (str = 0x21::num → r = ⟨0,m.rawSysCall,BitVec.ofNat 16 (0xA000 + 4 * (v % 512))⟩) := by
  intro r
  have hnumeral : ∀ num v,Numeral num v →
      (str = num → r = ⟨0,BitVec.ofNat 32 v,rawSysCall⟩) ∧
        (str = num ++ [0x2B] → r = ⟨0,BitVec.ofNat 32 v + m.scratch,rawSysCall⟩) ∧
        (str = 0x21::num →
          r = ⟨0,m.rawSysCall,BitVec.ofNat 16 (0xA000 + 4 * (v % 512))⟩) := by
    intro num v hnum
    refine ⟨?_,?_,?_⟩
    · rintro rfl
      exact call_plain hnum
    · rintro rfl
      exact call_scratch hnum
    · rintro rfl
      exact call_sysCall hnum
  refine ⟨call_literal,fun hliteral => ?_,hnumeral⟩
  have haccepted : Accepted str → r.returned = 0 := by
    intro h
    cases h with
    | plain h => rw [(hnumeral _ _ h).1 rfl]
    | scratch h => rw [(hnumeral _ _ h).2.1 rfl]
    | sysCall h => rw [(hnumeral _ _ h).2.2 rfl]
  have hnumber : ¬ Accepted str → (numberFromString m p str).number = none := by
    intro h
    rw [← Option.not_isSome_iff_eq_none]
    exact fun hsome => h (accepted_of_isSome hliteral hsome)
  have hrejected : ¬ Accepted str → r.returned = -1 ∧ r.pNumber = pNumber := by
    intro h
    simp only [r, call, hnumber h]
    exact ⟨rfl,rfl⟩
  refine ⟨⟨fun hzero => ?_,haccepted⟩,hrejected⟩
  by_contra hnot
  rw [(hrejected hnot).1] at hzero
  exact absurd hzero (by decide)

end Betawise.NumberSyntax
