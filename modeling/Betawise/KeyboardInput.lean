import Betawise.Os3kTerminal
import Mathlib.Tactic.SplitIfs

/-!
# `getchar`

`getchar` scans the keyboard until a key is ready, takes it, and goes on until a
key translates to a character. The character passes through a plain `char`,
which is signed here, on its way to the `int` that is returned: what comes back
is the sign-extended byte, and that is the character exactly up to 0x7F.
-/
namespace Betawise.KeyboardInput
open Os3kState Os3kTerminal

/-! ### Keys -/

/-- `KeyMod_e`, with `-fshort-enums`. -/
abbrev KeyMod := BitVec 16

def keyModCtrl : KeyMod := 0x8000
def keyModCapsLock : KeyMod := 0x0200
def keyApplets : KeyMod := 0x29
def keyBackspace : KeyMod := 0x03
def keyC : KeyMod := 0x41

/-- `TranslateKeyToChar` over the firmware's function; no result stands for the
applets menu, which does not return. -/
def translateKeyToChar (os3k : KeyMod → BitVec 8) (key : KeyMod) : Option (BitVec 8) :=
  let c := os3k key
  if c = 0 then
    let key := key &&& ~~~keyModCapsLock
    if key = keyApplets then none
    else if key = keyModCtrl ||| keyC then some 0x03
    else if key = keyBackspace then some 0x08
    else some c
  else some c

/-! ### The keyboard -/

/-- A key, and how often the keyboard is still to be scanned before it is ready. -/
structure Arrival where
  polls : ℕ
  key : KeyMod

/-- The keys to come, in order. -/
abbrev Keyboard := List Arrival

def isKeyReady : Keyboard → Bool
  | [] => false
  | a::_ => a.polls == 0

def scanKeyboard : Keyboard → Keyboard
  | [] => []
  | a::kb => { a with polls := a.polls - 1 }::kb

/-- `GetKey(false)`. -/
def getKey : Keyboard → Option (KeyMod × Keyboard)
  | [] => none
  | a::kb => some (a.key,kb)

/-- The inner loop, for at most `fuel` tests. -/
def awaitKey : ℕ → Keyboard → Option Keyboard
  | 0,_ => none
  | fuel + 1,kb => if isKeyReady kb then some kb else awaitKey fuel (scanKeyboard kb)

/-- `getchar`, for at most `fuel` rounds; the `char` is signed. -/
def getchar (os3k : KeyMod → BitVec 8) : ℕ → Keyboard → Option (ℤ × Keyboard)
  | 0,_ => none
  | fuel + 1,kb =>
    (awaitKey fuel kb).bind fun kb =>
      (getKey kb).bind fun r =>
        (translateKeyToChar os3k r.1).bind fun c =>
          if c = 0 then getchar os3k fuel r.2 else some (c.toInt,r.2)

/-- `n` calls in succession. -/
def getchars (os3k : KeyMod → BitVec 8) (fuel : ℕ) : ℕ → Keyboard → Option (List ℤ × Keyboard)
  | 0,kb => some ([],kb)
  | n + 1,kb =>
    (getchar os3k fuel kb).bind fun r =>
      (getchars os3k fuel n r.2).map fun rs => (r.1::rs.1,rs.2)

/-! ### What is typed -/

def withCapsLock (key : KeyMod) : KeyMod := key ||| keyModCapsLock

/-- The character of a key, 0 for none: the firmware's, or the two that the library
adds with or without Caps Lock. -/
def character (os3k : KeyMod → BitVec 8) (key : KeyMod) : BitVec 8 :=
  if os3k key ≠ 0 then os3k key
  else if key = keyModCtrl ||| keyC ∨ key = withCapsLock (keyModCtrl ||| keyC) then 0x03
  else if key = keyBackspace ∨ key = withCapsLock keyBackspace then 0x08
  else 0

def delivered (os3k : KeyMod → BitVec 8) (kb : Keyboard) : List (BitVec 8) :=
  (kb.map fun a => character os3k a.key).filter (· ≠ 0)

/-- The keys left when the `n`-th character was taken. -/
def rest (os3k : KeyMod → BitVec 8) : ℕ → Keyboard → Keyboard
  | 0,kb => kb
  | _ + 1,[] => []
  | n + 1,a::kb => if character os3k a.key = 0 then rest os3k (n + 1) kb else rest os3k n kb

/-- None of the keys is the one that opens the applets menu. -/
def NoMenu (kb : Keyboard) : Prop :=
  ∀ a ∈ kb, a.key ≠ keyApplets ∧ a.key ≠ withCapsLock keyApplets

/-- What is asked of `n` calls: they return the first `n` characters typed, as
`unsigned char`s, take no further key, and `putchar` returns each of them again
(where the firmware renders, if its `fputc` returns the byte it was given). -/
def Delivers (fw : Firmware) (os3k : KeyMod → BitVec 8) (kb : Keyboard) (n : ℕ) : Prop :=
  ∃ enough, ∀ fuel ≥ enough, ∃ cs, getchars os3k fuel n kb = some (cs,rest os3k n kb) ∧
    cs = ((delivered os3k kb).take n).map (fun c => (c.toNat : ℤ)) ∧
    ∀ c ∈ cs, (1 ≤ c ∧ c ≤ 255) ∧ ∀ s : Os3k,
      (s.pCurFont = none → fw.fputcResult (.fputc (u8 c) stdout :: s.trace) = u8 c) →
        (putchar fw c s).1 = c

variable {fw : Firmware} {os3k : KeyMod → BitVec 8} {kb : Keyboard} {n : ℕ}

/-! ### Translation -/

/-- Masking Caps Lock out leaves a key that has it clear only from that key and
the same with Caps Lock. -/
theorem masked_eq_iff (key : KeyMod) {k : KeyMod} (hk : k &&& keyModCapsLock = 0) :
    key &&& ~~~keyModCapsLock = k ↔ key = k ∨ key = withCapsLock k := by
  have hsplit (v : KeyMod) : v = (v &&& ~~~keyModCapsLock) ||| (v &&& keyModCapsLock) := by
    rw [← BitVec.and_or_distrib_left, BitVec.or_comm, BitVec.or_not_self, BitVec.and_allOnes]
  have hclear : k &&& ~~~keyModCapsLock = k := by
    have hor := hsplit k
    rw [hk] at hor
    exact (hor.trans BitVec.or_zero).symm
  constructor
  · intro hmask
    have hor := hsplit key
    rw [hmask] at hor
    have hbit : key &&& keyModCapsLock = 0 ∨ key &&& keyModCapsLock = keyModCapsLock := by
      rw [show keyModCapsLock = BitVec.twoPow 16 9 from rfl, BitVec.and_twoPow]
      split <;> simp
    rcases hbit with hbit | hbit
    · left
      rw [hor, hbit]
      exact BitVec.or_zero
    · right
      rw [hor, hbit]
      rfl
  · rintro (rfl | rfl)
    · exact hclear
    · rw [withCapsLock, BitVec.and_or_distrib_right, hclear, BitVec.and_not_self]
      exact BitVec.or_zero

theorem translateKeyToChar_eq {key : KeyMod} (hmenu : key ≠ keyApplets ∧
    key ≠ withCapsLock keyApplets) :
    translateKeyToChar os3k key = some (character os3k key) := by
  have happlets := masked_eq_iff key (k := keyApplets) (by decide)
  have hcopy := masked_eq_iff key (k := keyModCtrl ||| keyC) (by decide)
  have hback := masked_eq_iff key (k := keyBackspace) (by decide)
  simp only [translateKeyToChar, character, happlets, hcopy, hback]
  by_cases hc : os3k key = 0
  · have hnone : ¬ os3k key ≠ 0 := fun hne => hne hc
    rw [if_pos hc, if_neg (not_or.mpr hmenu), if_neg hnone]
    split_ifs
    · rfl
    · rfl
    · rw [hc]
  · rw [if_neg hc, if_pos hc]

/-! ### One call -/

/-- Enough rounds for every key of the keyboard. -/
def patience : Keyboard → ℕ
  | [] => 0
  | a::kb => a.polls + 2 + patience kb

theorem awaitKey_eq {fuel : ℕ} (a : Arrival) (hfuel : a.polls < fuel) :
    awaitKey fuel (a::kb) = some (⟨0,a.key⟩::kb) := by
  obtain ⟨polls,key⟩ := a
  induction fuel generalizing polls with
  | zero => exact absurd hfuel (Nat.not_lt_zero _)
  | succ fuel ih =>
    cases polls with
    | zero => rfl
    | succ polls => exact ih polls (Nat.lt_of_succ_lt_succ hfuel)

theorem awaitKey_nil (fuel : ℕ) : awaitKey fuel [] = none := by
  induction fuel with
  | zero => rfl
  | succ fuel ih => exact ih

theorem delivered_cons (a : Arrival) :
    delivered os3k (a::kb) = if character os3k a.key = 0 then delivered os3k kb
      else character os3k a.key::delivered os3k kb := by
  by_cases hzero : character os3k a.key = 0
  · rw [if_pos hzero]
    simp [delivered, hzero]
  · rw [if_neg hzero]
    exact List.filter_cons_of_pos (decide_eq_true hzero)

/-- A call takes keys up to the first that has a character, and returns that
character as a signed byte; with no such key it does not return. -/
theorem getchar_eq (hmenu : NoMenu kb) {fuel : ℕ} (hfuel : patience kb ≤ fuel) :
    getchar os3k fuel kb =
      (delivered os3k kb).head?.map fun c => (c.toInt,rest os3k 1 kb) := by
  induction kb generalizing fuel with
  | nil =>
    cases fuel with
    | zero => rfl
    | succ fuel =>
      rw [getchar, awaitKey_nil]
      rfl
  | cons a kb ih =>
    obtain ⟨ha,hkb⟩ := List.forall_mem_cons.mp hmenu
    rw [patience] at hfuel
    obtain ⟨fuel,rfl⟩ : ∃ f, fuel = f + 1 := ⟨fuel - 1,by omega⟩
    have htail := ih hkb (show patience kb ≤ fuel by omega)
    rw [getchar, awaitKey_eq a (by omega), delivered_cons]
    simp only [Option.bind_some, getKey, translateKeyToChar_eq ha, rest]
    split_ifs
    · exact htail
    · rfl

/-! ### Successive calls -/

theorem rest_succ (n : ℕ) (kb : Keyboard) :
    rest os3k (n + 1) kb = rest os3k n (rest os3k 1 kb) := by
  induction kb with
  | nil => cases n <;> rfl
  | cons a kb ih =>
    simp only [rest]
    split_ifs
    · exact ih
    · rfl

theorem delivered_rest (kb : Keyboard) :
    delivered os3k (rest os3k 1 kb) = (delivered os3k kb).tail := by
  induction kb with
  | nil => rfl
  | cons a kb ih =>
    rw [delivered_cons]
    simp only [rest]
    split_ifs
    · exact ih
    · rfl

theorem rest_suffix (kb : Keyboard) : rest os3k 1 kb <:+ kb := by
  induction kb with
  | nil => exact List.suffix_refl _
  | cons a kb ih =>
    simp only [rest]
    split_ifs
    · exact ih.trans (List.suffix_cons a kb)
    · exact List.suffix_cons a kb

theorem patience_rest (kb : Keyboard) : patience (rest os3k 1 kb) ≤ patience kb := by
  induction kb with
  | nil => exact Nat.le_refl _
  | cons a kb ih =>
    simp only [rest, patience]
    split_ifs
    · exact Nat.le_trans ih (Nat.le_add_left ..)
    · exact Nat.le_add_left ..

/-- `n` calls return the first `n` characters typed, each as a signed byte. -/
theorem getchars_eq (hmenu : NoMenu kb) {fuel : ℕ} (hfuel : patience kb ≤ fuel)
    (hn : n ≤ (delivered os3k kb).length) :
    getchars os3k fuel n kb =
      some (((delivered os3k kb).take n).map BitVec.toInt,rest os3k n kb) := by
  induction n generalizing kb with
  | zero => simp only [getchars, rest, List.take_zero, List.map_nil]
  | succ n ih =>
    cases hd : delivered os3k kb with
    | nil =>
      rw [hd] at hn
      exact absurd hn (Nat.not_succ_le_zero n)
    | cons c cs =>
      have htail : delivered os3k (rest os3k 1 kb) = cs := by
        rw [delivered_rest, hd, List.tail_cons]
      have hrest : NoMenu (rest os3k 1 kb) := fun a ha => hmenu a ((rest_suffix kb).subset ha)
      rw [hd, List.length_cons] at hn
      rw [getchars, getchar_eq hmenu hfuel, hd, List.head?_cons, Option.map_some,
        Option.bind_some, ih hrest (Nat.le_trans (patience_rest kb) hfuel) (by rw [htail]; omega),
        htail, rest_succ n kb]
      rfl

/-! ### The condition -/

/-- A byte sign-extended is the byte exactly up to 0x7F. -/
theorem toInt_eq_toNat_iff (c : BitVec 8) : c.toInt = c.toNat ↔ c.toNat ≤ 0x7F := by
  have hlt := c.isLt
  rw [BitVec.toInt_eq_toNat_cond]
  split <;> omega

/-- `fputc` returns a byte that it was given. -/
theorem putchar_eq {c : ℤ} (hc : 0 ≤ c ∧ c ≤ 255) (s : Os3k)
    (hecho : s.pCurFont = none → fw.fputcResult (.fputc (u8 c) stdout :: s.trace) = u8 c) :
    (putchar fw c s).1 = c := by
  have hu8 : (u8 c : ℤ) = c := by
    simp only [u8]
    omega
  change (fputcStdout fw (u8 c) s).1 = c
  unfold fputcStdout
  cases hfont : s.pCurFont with
  | none =>
    dsimp only
    split_ifs
    · exact hu8
    · exact hu8
    · exact (hecho hfont).trans hu8
  | some font =>
    dsimp only
    split_ifs <;> exact hu8

theorem delivered_ne_zero {c : BitVec 8} (hc : c ∈ delivered os3k kb) : c ≠ 0 := by
  simpa using (List.mem_filter.mp hc).2

/-- For every stream of keys and every translation by the firmware: the calls
deliver the first `n` characters exactly if these are at most 0x7F. -/
theorem delivers_iff_signedPositive (fw : Firmware) (hmenu : NoMenu kb)
    (hn : n ≤ (delivered os3k kb).length) :
    Delivers fw os3k kb n ↔ ∀ c ∈ (delivered os3k kb).take n, c.toNat ≤ 0x7F := by
  constructor
  · rintro ⟨enough,hall⟩
    obtain ⟨cs,hrun,hcs,-⟩ := hall (max enough (patience kb)) (Nat.le_max_left ..)
    rw [getchars_eq hmenu (Nat.le_max_right ..) hn] at hrun
    have heq := (congrArg Prod.fst (Option.some.inj hrun)).trans hcs
    exact fun c hc => (toInt_eq_toNat_iff c).mp (List.map_inj_left.mp heq c hc)
  · intro hascii
    refine ⟨patience kb,fun fuel hfuel => ⟨_,getchars_eq hmenu hfuel hn,?_,?_⟩⟩
    · exact List.map_congr_left fun c hc => (toInt_eq_toNat_iff c).mpr (hascii c hc)
    · intro v hv
      obtain ⟨c,hc,rfl⟩ := List.mem_map.mp hv
      have hint := (toInt_eq_toNat_iff c).mpr (hascii c hc)
      have hpos : c.toNat ≠ 0 := fun h0 =>
        delivered_ne_zero (List.mem_of_mem_take hc) (BitVec.eq_of_toNat_eq h0)
      have hlt := c.isLt
      rw [hint]
      exact ⟨by omega,fun s hecho => putchar_eq (by omega) s hecho⟩

/-- A layout with three letters, one of them accented. -/
def layout (key : KeyMod) : BitVec 8 :=
  if key = 0x18 then 0x61 else if key = 0x4E then 0x62 else if key = 0x1020 then 0xE9 else 0

/-- A letter, a key without a character, then Ctrl+C and Backspace with Caps Lock. -/
def typedKeys : Keyboard := [⟨3,0x18⟩,⟨0,0x48⟩,⟨1,0x8241⟩,⟨2,0x0203⟩]

/-- What a firmware's `fputc` returns that returns what it was given. -/
def echoed : List Call → ℤ
  | .fputc c _::_ => u8 c
  | _ => 0

/-- Firmware without a font whose `fputc` returns the byte. -/
def echoing : Firmware := { solidFirmware none none 264 64 with fputcResult := echoed }

/-- On a machine without a font the condition on the firmware is met. -/
theorem echoing_fputc (c : ℤ) (trace : List Call) :
    echoing.fputcResult (.fputc (u8 c) stdout :: trace) = u8 c :=
  congrArg Nat.cast (u8_natCast (u8_lt c))

theorem delivers_iff_signedPositive_keys : Delivers echoing layout typedKeys 3 := by
  have hmenu : NoMenu typedKeys := by
    simp only [NoMenu, typedKeys, List.forall_mem_cons]
    exact ⟨by decide,by decide,by decide,by decide,fun _ h => absurd h List.not_mem_nil⟩
  exact (delivers_iff_signedPositive echoing hmenu (by decide)).mpr (by decide)

/-- The letter 0xE9 comes back as -23, for which `putchar` returns 233. -/
theorem accented_letter_is_negative :
    (getchar layout 2 [⟨0,0x1020⟩]).map Prod.fst = some (-23) ∧
      (∀ s, s.pCurFont = none → (putchar echoing (-23) s).1 = 233) ∧
      ¬ Delivers echoing layout [⟨0,0x1020⟩] 1 := by
  have hmenu : NoMenu [⟨0,0x1020⟩] := by
    simp only [NoMenu, List.forall_mem_cons]
    exact ⟨by decide,fun _ h => absurd h List.not_mem_nil⟩
  refine ⟨by decide,?_,?_⟩
  · intro s hfont
    change (fputcStdout echoing 233 s).1 = 233
    unfold fputcStdout
    rw [hfont]
    exact echoing_fputc 233 s.trace
  · rintro ⟨enough,hall⟩
    obtain ⟨cs,hrun,hcs,-⟩ := hall (max enough (patience [⟨0,0x1020⟩])) (Nat.le_max_left ..)
    rw [getchars_eq hmenu (Nat.le_max_right ..) (by decide)] at hrun
    have heq := (congrArg Prod.fst (Option.some.inj hrun)).trans hcs
    exact absurd heq (by decide)

end Betawise.KeyboardInput
