import Betawise.BasicMemory
import Mathlib.Data.List.Basic
import Mathlib.Tactic.Ring

/-!
# Entering program lines

The program is a list of lines laid out in memory, sorted by their numbers as signed
ones, each with a pointer to the next. Deleting and inserting only keep the pointers from
being null; rechaining makes them point to the next lines again. `enterLine_spec` gives
the program after a line has been entered, and the addresses written on the way.
-/
namespace Betawise.BasicProgram
open LoggedRam BasicMemory

structure Line where
  number : ℕ
  text : List ℕ
  number_lt : number < 4294967296
  text_ne : text ≠ []
  noNull : ∀ c ∈ text, c ≠ 0

/-- Header and line buffer. -/
def lineSize (text : List ℕ) : ℕ := 8 + (lineBuffer text).length

/-- What follows the pointer to the next line. -/
def Line.body (l : Line) : List ℕ := bytes32 l.number ++ lineBuffer l.text

def Line.size (l : Line) : ℕ := lineSize l.text

def programSize (ls : List Line) : ℕ := (ls.map Line.size).sum

@[simp] theorem programSize_nil : programSize [] = 0 := rfl

@[simp] theorem programSize_cons (l : Line) (ls : List Line) :
    programSize (l::ls) = l.size + programSize ls := rfl

@[simp] theorem programSize_append (ks ls : List Line) :
    programSize (ks ++ ls) = programSize ks + programSize ls := by
  simp only [programSize, List.map_append, List.sum_append]

theorem lineBuffer_length (text : List ℕ) :
    (lineBuffer text).length = text.length + 1 + (text.length + 1) % 2 := by
  unfold lineBuffer
  split_ifs with h
  · simp only [List.length_append, List.length_singleton]
    omega
  · simp only [List.length_append, List.length_singleton, List.length_nil]
    omega

theorem Line.size_eq (l : Line) :
    l.size = 8 + (l.text.length + 1 + (l.text.length + 1) % 2) := by
  rw [Line.size, lineSize, lineBuffer_length]

theorem Line.body_length (l : Line) : 4 + l.body.length = l.size := by
  simp only [Line.body, Line.size, lineSize, bytes32, List.length_append, List.length_cons,
    List.length_nil]
  omega

theorem Line.size_pos (l : Line) : 8 ≤ l.size := by
  rw [l.size_eq]
  omega

theorem Line.size_even (l : Line) : l.size % 2 = 0 := by
  rw [l.size_eq]
  omega

theorem programSize_even (ls : List Line) : programSize ls % 2 = 0 := by
  induction ls with
  | nil => rfl
  | cons l ls ih =>
    have := l.size_even
    rw [programSize_cons]
    omega

theorem length_le_programSize (ls : List Line) : ls.length ≤ programSize ls := by
  induction ls with
  | nil => exact Nat.le_refl 0
  | cons l ls ih =>
    have := l.size_pos
    rw [programSize_cons, List.length_cons]
    omega

/-! ### Lines in memory -/

/-- The lines stand at `a` and on; `Next` relates each pointer to the next line. -/
def Laid (Next : ℕ → ℕ → Prop) (byte : ℕ → ℕ) : ℕ → List Line → Prop
  | _,[] => True
  | a,l::ls =>
    Next (read32 byte a) (a + l.size) ∧ BytesAt byte (a + 4) l.body ∧
      Laid Next byte (a + l.size) ls

/-- A chained line points to the next one. -/
def Linked (p e : ℕ) : Prop := p = e

/-- A line that is not chained yet only has a pointer that is not null. -/
def Marked (p _e : ℕ) : Prop := p ≠ 0

variable {Next Next' : ℕ → ℕ → Prop} {byte byte' : ℕ → ℕ} {a a' : ℕ} {ls pre suf : List Line}

theorem laid_append {ks ls : List Line} :
    Laid Next byte a (ks ++ ls) ↔
      Laid Next byte a ks ∧ Laid Next byte (a + programSize ks) ls := by
  induction ks generalizing a with
  | nil => simp [Laid]
  | cons k ks ih =>
    simp only [List.cons_append, Laid, ih, programSize_cons, Nat.add_assoc, and_assoc]

/-- Lines whose bytes stand unchanged at `a'`. -/
theorem Laid.move (h : Laid Next byte a ls)
    (hnext : ∀ p n, 0 < n → Next p (a + n) → Next' p (a' + n))
    (hsame : ∀ i < programSize ls, byte' (a' + i) = byte (a + i)) : Laid Next' byte' a' ls := by
  induction ls generalizing a a' with
  | nil => trivial
  | cons l ls ih =>
    obtain ⟨hp,hbody,hrest⟩ := h
    have hpos := l.size_pos
    rw [programSize_cons] at hsame
    have hread : read32 byte' a' = read32 byte a :=
      read32_congr fun i hi => hsame i (by omega)
    refine ⟨?_,hbody.congr fun i hi => ?_,ih hrest (fun p n hn hp => ?_) fun i hi => ?_⟩
    · rw [hread]
      exact hnext _ l.size (by omega) hp
    · have hlen := l.body_length
      rw [Nat.add_assoc a', Nat.add_assoc a]
      exact hsame (4 + i) (by omega)
    · rw [Nat.add_assoc] at hp ⊢
      exact hnext p (l.size + n) (by omega) hp
    · rw [Nat.add_assoc a', Nat.add_assoc a]
      exact hsame (l.size + i) (by omega)

theorem Laid.congr (h : Laid Next byte a ls)
    (hsame : ∀ x, a ≤ x → x < a + programSize ls → byte' x = byte x) : Laid Next byte' a ls :=
  h.move (fun _ _ _ hp => hp) fun i hi => hsame (a + i) (by omega) (by omega)

theorem Laid.marked (h : Laid Linked byte a ls) : Laid Marked byte a ls :=
  h.move (fun p n hn hp => show p ≠ 0 from hp ▸ by omega) fun _ _ => rfl

theorem Laid.number {l : Line} (h : Laid Next byte a (l::ls)) :
    read32 byte (a + 4) = l.number :=
  BytesAt.read32 (bytesAt_append.mp h.2.1).1 l.number_lt

theorem Laid.text {l : Line} (h : Laid Next byte a (l::ls)) :
    BytesAt byte (a + 8) (lineBuffer l.text) :=
  (bytesAt_append.mp h.2.1).2

/-! ### Search -/

/-- The line that stands where a number belongs counts as found unless it is above the
number as an unsigned one. -/
def found (n : ℕ) (suf : List Line) : Bool := suf.head?.any fun l => decide (l.number ≤ n)

/-- The search ends at the first line that is not below the number as a signed one. -/
theorem searchLine_spec {n fuel : ℕ} (hpre : Laid Linked byte a (pre ++ suf))
    (hend : read32 byte (a + programSize (pre ++ suf)) = 0)
    (hbelow : ∀ l ∈ pre, signed32 l.number < signed32 n)
    (habove : ∀ l ∈ suf.head?, signed32 n ≤ signed32 l.number) (hfuel : pre.length < fuel) :
    searchLine byte n fuel a = some (found n suf,a + programSize pre) := by
  induction pre generalizing a fuel with
  | nil =>
    obtain ⟨fuel,rfl⟩ := Nat.exists_eq_succ_of_ne_zero (Nat.ne_of_gt hfuel)
    rw [List.nil_append] at hpre hend
    cases suf with
    | nil =>
      rw [programSize_nil, Nat.add_zero] at hend
      simp [searchLine, hend, found]
    | cons l ls =>
      have hnext : read32 byte a ≠ 0 := hpre.marked.1
      have hle : signed32 n ≤ signed32 l.number := habove l rfl
      rw [searchLine, if_neg hnext, hpre.number, if_neg (Int.not_lt.mpr hle)]
      rfl
  | cons l pre ih =>
    obtain ⟨fuel,rfl⟩ := Nat.exists_eq_succ_of_ne_zero (Nat.ne_of_gt (Nat.zero_lt_of_lt hfuel))
    have hnext : read32 byte a ≠ 0 := hpre.marked.1
    have hlink : read32 byte a = a + l.size := hpre.1
    rw [List.cons_append, programSize_cons] at hend
    rw [searchLine, if_neg hnext, hpre.number, if_pos (hbelow l List.mem_cons_self), hlink,
      ih hpre.2.2 (by rw [Nat.add_assoc]; exact hend)
        (fun k hk => hbelow k (List.mem_cons_of_mem l hk))
        (by rw [List.length_cons] at hfuel; omega),
      programSize_cons, Nat.add_assoc]

/-! ### Deletion and insertion -/

/-- The program while it is edited: the lines in front of the change are linked,
and the lines behind it only marked. -/
structure Edited (b : Basic) (pre suf : List Line) : Prop where
  linked : Laid Linked b.ram.byte b.smeml pre
  marked : Laid Marked b.ram.byte (b.smeml + programSize pre) suf
  marker : read32 b.ram.byte (b.smeml + programSize pre + programSize suf) = 0
  sfncl : b.sfncl = b.smeml + programSize pre + programSize suf + 4

variable {b : Basic}

theorem deleteLine_spec {l : Line} (h : Edited b pre (l::suf))
    (hlink : read32 b.ram.byte (b.smeml + programSize pre) =
      b.smeml + programSize pre + l.size) :
    Edited (deleteLine (b.smeml + programSize pre) b) pre suf ∧
      Within (b.smeml + programSize pre)
        (b.smeml + programSize pre + programSize suf + 4) b.ram
        (deleteLine (b.smeml + programSize pre) b).ram := by
  have hsfncl := h.sfncl
  have hmarked := h.marked.2.2
  have hmarker := h.marker
  rw [programSize_cons] at hsfncl hmarker
  generalize ha : b.smeml + programSize pre = a at *
  have hwords : 2 * ((b.sfncl - (a + l.size)) / 2) = programSize suf + 4 := by
    have := programSize_even suf
    omega
  have hram : (deleteLine a b).ram =
      copyUp ((b.sfncl - (a + l.size)) / 2) (a + l.size) a b.ram := by
    rw [← hlink]
    rfl
  have hend : (deleteLine a b).sfncl = a + 2 * ((b.sfncl - (a + l.size)) / 2) := by
    rw [← hlink]
    rfl
  have hbyte : ∀ i < programSize suf + 4,
      (deleteLine a b).ram.byte (a + i) = b.ram.byte (a + l.size + i) := by
    intro i hi
    rw [hram, copyUp_byte _ _ _ (Nat.le_add_right a _), if_pos (by omega), Nat.add_sub_cancel_left]
  have hwithin : Within a (a + programSize suf + 4) b.ram (deleteLine a b).ram := by
    rw [hram]
    exact (within_copyUp _ _ _ _).mono (Nat.le_refl a) (by omega)
  refine ⟨⟨?_,?_,?_,?_⟩,hwithin⟩
  · exact h.linked.congr fun x _ hx => hwithin.frame x (by omega)
  · change Laid Marked (deleteLine a b).ram.byte (b.smeml + programSize pre) suf
    rw [ha]
    exact hmarked.move (fun _ _ _ hp => hp) fun i hi => hbyte i (by omega)
  · change read32 (deleteLine a b).ram.byte (b.smeml + programSize pre + programSize suf) = 0
    rw [ha, ← hmarker]
    refine read32_congr fun i hi => ?_
    rw [Nat.add_assoc a, hbyte _ (by omega)]
    congr 1
    ring
  · change (deleteLine a b).sfncl = b.smeml + programSize pre + programSize suf + 4
    rw [hend, hwords, ha, Nat.add_assoc]

theorem insertLine_spec (l : Line) (h : Edited b pre suf) :
    Edited (insertLine (b.smeml + programSize pre) l.number l.text b) pre (l::suf) ∧
      Within (b.smeml + programSize pre) (b.sfncl + l.size) b.ram
        (insertLine (b.smeml + programSize pre) l.number l.text b).ram ∧
      b.sfncl + l.size - 1 ∈
        (insertLine (b.smeml + programSize pre) l.number l.text b).ram.written := by
  have hsfncl := h.sfncl
  have hmarked := h.marked
  have hmarker := h.marker
  generalize ha : b.smeml + programSize pre = a at *
  have hsize := l.size_pos
  have hlen : 8 + (lineBuffer l.text).length = l.size := rfl
  have hwords : 2 * ((b.sfncl - a) / 2) = programSize suf + 4 := by
    have := programSize_even suf
    omega
  let opened := copyDown ((b.sfncl - a) / 2) b.sfncl (b.sfncl + l.size) b.ram
  let headed := poke32 (a + 4) l.number (poke32 a 0xFFFFFFFF opened)
  have hram : (insertLine a l.number l.text b).ram =
      pokeBytes (a + 8) (lineBuffer l.text) headed := by
    have htop : b.sfncl + (lineBuffer l.text).length + 8 = b.sfncl + l.size := by omega
    simp only [insertLine, setEnd, htop]
    rfl
  have hopened : Within (a + l.size) (b.sfncl + l.size) b.ram opened :=
    (within_copyDown _ _ _ (by omega) _).mono (by omega) (Nat.le_refl _)
  have hmark := within_poke32 a 0xFFFFFFFF opened
  have hnumber := within_poke32 (a + 4) l.number (poke32 a 0xFFFFFFFF opened)
  have htext := within_pokeBytes (a + 8) (lineBuffer l.text) headed
  have hline : Within a (a + l.size) opened (insertLine a l.number l.text b).ram := by
    rw [hram]
    exact ((hmark.mono (Nat.le_refl a) (by omega)).trans
      (hnumber.mono (by omega) (by omega))).trans (htext.mono (by omega) (by omega))
  have hwithin : Within a (b.sfncl + l.size) b.ram (insertLine a l.number l.text b).ram :=
    (hopened.mono (by omega) (Nat.le_refl _)).trans (hline.mono (Nat.le_refl a) (by omega))
  have hbyte : ∀ i < programSize suf + 4,
      (insertLine a l.number l.text b).ram.byte (a + l.size + i) = b.ram.byte (a + i) := by
    intro i hi
    rw [hline.frame _ (by omega), copyDown_byte _ _ _ (by omega) (by omega), if_pos (by omega)]
    congr 1
    omega
  refine ⟨⟨?_,⟨?_,?_,?_⟩,?_,?_⟩,hwithin,?_⟩
  · exact h.linked.congr fun x _ hx => hwithin.frame x (by omega)
  · change read32 (insertLine a l.number l.text b).ram.byte (b.smeml + programSize pre) ≠ 0
    rw [ha, hram, htext.read32 (by omega), hnumber.read32 (by omega),
      read32_poke32 a (by decide)]
    decide
  · change BytesAt (insertLine a l.number l.text b).ram.byte (b.smeml + programSize pre + 4) l.body
    rw [ha, hram]
    refine bytesAt_append.mpr ⟨htext.bytesAt (bytesAt_pokeBytes _ _ _) (by simp [bytes32]),?_⟩
    exact bytesAt_pokeBytes (a + 8) (lineBuffer l.text) headed
  · change Laid Marked (insertLine a l.number l.text b).ram.byte
      (b.smeml + programSize pre + l.size) suf
    rw [ha]
    exact hmarked.move (fun _ _ _ hp => hp) fun i hi => hbyte i (by omega)
  · change read32 (insertLine a l.number l.text b).ram.byte
      (b.smeml + programSize pre + programSize (l::suf)) = 0
    rw [ha, ← hmarker, programSize_cons, ← Nat.add_assoc]
    refine read32_congr fun i hi => ?_
    rw [Nat.add_assoc (a + l.size), hbyte _ (by omega), Nat.add_assoc a]
  · change b.sfncl + (lineBuffer l.text).length + 8 =
      b.smeml + programSize pre + programSize (l::suf) + 4
    rw [programSize_cons]
    omega
  · have hlast : b.sfncl + l.size - 1 ∈ opened.written :=
      mem_written_copyDown (by omega) _ (by omega) _
    exact hline.keep _ hlast

/-! ### Rechaining -/

theorem skipText_spec {text : List ℕ} {fuel : ℕ} (h : BytesAt byte a (text ++ [0]))
    (hnull : ∀ c ∈ text, c ≠ 0) (hfuel : text.length < fuel) :
    skipText byte fuel a = some (a + text.length + 1) := by
  induction text generalizing a fuel with
  | nil =>
    obtain ⟨fuel,rfl⟩ := Nat.exists_eq_succ_of_ne_zero (Nat.ne_of_gt hfuel)
    have hzero : byte a = 0 := h 0 (by simp)
    rw [skipText, if_pos hzero]
    rfl
  | cons c cs ih =>
    obtain ⟨fuel,rfl⟩ := Nat.exists_eq_succ_of_ne_zero (Nat.ne_of_gt (Nat.zero_lt_of_lt hfuel))
    have hc : byte a = c := h 0 (by simp)
    have hsplit : BytesAt byte a ([c] ++ (cs ++ [0])) := h
    have hcs : BytesAt byte (a + 1) (cs ++ [0]) := (bytesAt_append.mp hsplit).2
    rw [skipText, if_neg (by rw [hc]; exact hnull c List.mem_cons_self),
      ih hcs (fun d hd => hnull d (List.mem_cons_of_mem c hd))
        (by rw [List.length_cons] at hfuel; omega), List.length_cons]
    congr 1
    ring

/-- From an even address the text and its pad byte lead to the next line. -/
theorem skipText_line {l : Line} {fuel : ℕ} (h : Laid Next byte a (l::ls)) (heven : a % 2 = 0)
    (hfuel : l.text.length < fuel) :
    ∃ e, skipText byte fuel (a + 8) = some e ∧ e + e % 2 = a + l.size := by
  have htext : BytesAt byte (a + 8) (l.text ++ [0]) := (bytesAt_append.mp h.text).1
  refine ⟨_,skipText_spec htext l.noNull hfuel,?_⟩
  rw [l.size_eq]
  omega

theorem rechain_spec {fuel : ℕ} {r : Ram} (h : Laid Marked r.byte a ls)
    (hend : read32 r.byte (a + programSize ls) = 0) (heven : a % 2 = 0)
    (hlt : a + programSize ls < 4294967296) (hfuel : programSize ls < fuel) :
    ∃ r',rechain fuel a r = some r' ∧ Laid Linked r'.byte a ls ∧
      Within a (a + programSize ls) r r' := by
  induction ls generalizing a fuel r with
  | nil =>
    obtain ⟨fuel,rfl⟩ := Nat.exists_eq_succ_of_ne_zero (Nat.ne_of_gt hfuel)
    rw [programSize_nil, Nat.add_zero] at hend
    exact ⟨r,by rw [rechain, if_pos hend],trivial,Within.refl _ _ r⟩
  | cons l ls ih =>
    obtain ⟨fuel,rfl⟩ := Nat.exists_eq_succ_of_ne_zero (Nat.ne_of_gt (Nat.zero_lt_of_lt hfuel))
    have hsize := l.size_pos
    have hlen := l.size_eq
    have hbody := l.body_length
    have heven' := l.size_even
    rw [programSize_cons] at hend hlt hfuel ⊢
    have htext : l.text.length < fuel + 1 := by omega
    have hrest : programSize ls < fuel := by omega
    obtain ⟨e,hskip,hnext⟩ := skipText_line h heven htext
    have hstore := within_poke32 a (a + l.size) r
    have hmarked : Laid Marked (poke32 a (a + l.size) r).byte (a + l.size) ls :=
      h.2.2.congr fun x hx _ => hstore.frame x (by omega)
    obtain ⟨r',hr',hlinked,hwithin⟩ := ih hmarked
      (by rw [hstore.read32 (by omega), Nat.add_assoc]; exact hend) (by omega) (by omega) hrest
    refine ⟨r',?_,⟨?_,?_,hlinked⟩,?_⟩
    · rw [rechain, if_neg h.1, hskip]
      simp only [hnext]
      exact hr'
    · rw [hwithin.read32 (by omega), read32_poke32 a (by omega)]
      rfl
    · exact hwithin.bytesAt (hstore.bytesAt h.2.1 (by omega)) (by omega)
    · exact (hstore.mono (Nat.le_refl a) (by omega)).trans
        (hwithin.mono (by omega) (by omega))

/-! ### The program after an entry -/

/-- Sorted by the numbers as signed ones. -/
def Sorted (lines : List Line) : Prop :=
  lines.Pairwise fun k l => signed32 k.number < signed32 l.number

/-- The lines stand between `Smeml` and `Sfncl`, in order and chained. -/
structure Holds (b : Basic) (lines : List Line) : Prop where
  sorted : Sorted lines
  linked : Laid Linked b.ram.byte b.smeml lines
  marker : read32 b.ram.byte (b.smeml + programSize lines) = 0
  sfncl : b.sfncl = b.smeml + programSize lines + 4
  even : b.smeml % 2 = 0

def below (n : ℕ) (lines : List Line) : List Line :=
  lines.filter fun l => decide (signed32 l.number < signed32 n)

/-- The lines from a number on. -/
def upFrom (n : ℕ) (lines : List Line) : List Line :=
  lines.filter fun l => decide (signed32 n ≤ signed32 l.number)

/-- The line that an entry takes for the old one of its number. -/
def replaced (n : ℕ) (lines : List Line) : Option Line :=
  if found n (upFrom n lines) then (upFrom n lines).head? else none

/-- The lines behind an entry. -/
def after (n : ℕ) (lines : List Line) : List Line :=
  if found n (upFrom n lines) then (upFrom n lines).tail else upFrom n lines

/-- The program with a line of number `n` put in the place of the one taken for it. -/
def entered (n : ℕ) (new : Option Line) (lines : List Line) : List Line :=
  below n lines ++ new.toList ++ after n lines

/-- The text of an entry; an empty one deletes. -/
def entryText (new : Option Line) : List ℕ := new.elim [] Line.text

theorem signed32_inj {k n : ℕ} (hk : k < 4294967296) (hn : n < 4294967296)
    (h : signed32 k = signed32 n) : k = n := by
  unfold signed32 at h
  split_ifs at h <;> omega

theorem signed32_of_lt {n : ℕ} (hn : n < 2147483648) : signed32 n = n := if_pos hn

theorem signed32_neg {n : ℕ} (hn : 2147483648 ≤ n) (hlt : n < 4294967296) : signed32 n < 0 := by
  rw [signed32, if_neg (Nat.not_lt.mpr hn)]
  omega

theorem lt_of_mem_below {n : ℕ} {lines : List Line} {k : Line} (hk : k ∈ below n lines) :
    signed32 k.number < signed32 n :=
  of_decide_eq_true (List.mem_filter.mp hk).2

theorem le_of_mem_upFrom {n : ℕ} {lines : List Line} {k : Line} (hk : k ∈ upFrom n lines) :
    signed32 n ≤ signed32 k.number :=
  of_decide_eq_true (List.mem_filter.mp hk).2

/-- A sorted program comes in two parts. -/
theorem below_append_upFrom {lines : List Line} (h : Sorted lines) (n : ℕ) :
    below n lines ++ upFrom n lines = lines := by
  induction lines with
  | nil => rfl
  | cons l ls ih =>
    obtain ⟨hhead,htail⟩ := List.pairwise_cons.mp h
    by_cases hlt : signed32 l.number < signed32 n
    · have hbelow : below n (l::ls) = l::below n ls := List.filter_cons_of_pos (by simpa using hlt)
      have hup : upFrom n (l::ls) = upFrom n ls := List.filter_cons_of_neg (by simpa using hlt)
      rw [hbelow, hup, List.cons_append, ih htail]
    · have hall : ∀ k ∈ l::ls, signed32 n ≤ signed32 k.number := fun k hk => by
        rcases List.mem_cons.mp hk with rfl | hk
        · exact Int.not_lt.mp hlt
        · exact (Int.not_lt.mp hlt).trans (Int.le_of_lt (hhead k hk))
      have hbelow : below n (l::ls) = [] :=
        List.filter_eq_nil_iff.mpr fun k hk => by simpa using hall k hk
      have hup : upFrom n (l::ls) = l::ls :=
        List.filter_eq_self.mpr fun k hk => by simpa using hall k hk
      rw [hbelow, hup]
      rfl

theorem replaced_append_after (n : ℕ) (lines : List Line) :
    (replaced n lines).toList ++ after n lines = upFrom n lines := by
  unfold replaced after
  cases upFrom n lines with
  | nil => rfl
  | cons l ls =>
    by_cases hfound : found n (l::ls) = true
    · rw [if_pos hfound, if_pos hfound]
      rfl
    · rw [if_neg hfound, if_neg hfound]
      rfl

theorem isSome_replaced (n : ℕ) (lines : List Line) :
    (replaced n lines).isSome = found n (upFrom n lines) := by
  unfold replaced
  cases upFrom n lines with
  | nil => rfl
  | cons l ls => cases hfound : found n (l::ls) <;> rfl

theorem split_lines {lines : List Line} (h : Sorted lines) (n : ℕ) :
    entered n (replaced n lines) lines = lines := by
  rw [entered, List.append_assoc, replaced_append_after, below_append_upFrom h]

/-- The line taken for the old one is not above the number as an unsigned one. -/
theorem replaced_le {n : ℕ} {lines : List Line} {l : Line} (hl : l ∈ replaced n lines) :
    signed32 n ≤ signed32 l.number ∧ l.number ≤ n := by
  unfold replaced at hl
  split_ifs at hl with hfound
  · have hhead : (upFrom n lines).head? = some l := hl
    rw [found, hhead] at hfound
    exact ⟨le_of_mem_upFrom (List.mem_of_mem_head? hl),of_decide_eq_true hfound⟩
  · exact nomatch hl

/-- Below 2^31 the line taken for the old one has the number. -/
theorem replaced_number {n : ℕ} (hn : n < 2147483648) {lines : List Line} {l : Line}
    (hl : l ∈ replaced n lines) : l.number = n := by
  obtain ⟨hsigned,hle⟩ := replaced_le hl
  rw [signed32_of_lt hn, signed32_of_lt (hle.trans_lt hn)] at hsigned
  omega

/-- From 2^31 on it is the first line of a program whose numbers are all below: an entry
deletes a line of another number. -/
theorem replaced_first {n : ℕ} (hn : 2147483648 ≤ n) (hlt : n < 4294967296) {lines : List Line}
    (hlines : ∀ l ∈ lines, l.number < 2147483648) : replaced n lines = lines.head? := by
  have hup : upFrom n lines = lines := by
    refine List.filter_eq_self.mpr fun l hl => decide_eq_true ?_
    have := signed32_neg hn hlt
    rw [signed32_of_lt (hlines l hl)]
    omega
  rw [replaced, hup]
  cases lines with
  | nil => rfl
  | cons l ls =>
    have hle : l.number ≤ n := (Nat.le_of_lt (hlines l List.mem_cons_self)).trans hn
    exact if_pos (decide_eq_true hle)

theorem after_sublist (n : ℕ) (lines : List Line) : List.Sublist (after n lines) lines := by
  unfold after
  split_ifs
  · exact (List.tail_sublist _).trans List.filter_sublist
  · exact List.filter_sublist

/-- What stands behind an entry is above it. -/
theorem lt_of_mem_after {n : ℕ} (hn : n < 4294967296) {lines : List Line} (h : Sorted lines)
    {k : Line} (hk : k ∈ after n lines) : signed32 n < signed32 k.number := by
  have hup : Sorted (upFrom n lines) := List.Pairwise.filter _ h
  have hle (l : Line) (hl : l ∈ upFrom n lines) : signed32 n ≤ signed32 l.number :=
    le_of_mem_upFrom hl
  unfold after at hk
  generalize upFrom n lines = up at hk hup hle
  cases up with
  | nil =>
    rw [List.tail_nil, ite_self] at hk
    exact nomatch hk
  | cons l ls =>
    obtain ⟨hhead,-⟩ := List.pairwise_cons.mp hup
    have hfirst := hle l List.mem_cons_self
    split_ifs at hk with hfound
    · exact hfirst.trans_lt (hhead k hk)
    · -- the first line is not below the number, and not the number itself
      have hne : l.number ≠ n := fun heq => hfound (decide_eq_true (Nat.le_of_eq heq))
      have hlt : signed32 n < signed32 l.number :=
        lt_of_le_of_ne hfirst fun heq => hne (signed32_inj l.number_lt hn heq.symm)
      rcases List.mem_cons.mp hk with rfl | hk
      · exact hlt
      · exact hlt.trans (hhead k hk)

theorem le_of_mem_after {n : ℕ} {lines : List Line} {k : Line} (hk : k ∈ after n lines) :
    signed32 n ≤ signed32 k.number := by
  have hup : k ∈ upFrom n lines := by
    rw [← replaced_append_after]
    exact List.mem_append_right _ hk
  exact le_of_mem_upFrom hup

theorem entered_sorted {lines : List Line} (h : Sorted lines) {n : ℕ} {new : Option Line}
    (hnew : ∀ l ∈ new, l.number = n) : Sorted (entered n new lines) := by
  have hone : ∀ k ∈ new.toList, k.number = n := fun k hk => hnew k (Option.mem_toList.mp hk)
  refine List.pairwise_append.mpr ⟨List.pairwise_append.mpr ⟨List.Pairwise.filter _ h,?_,?_⟩,
    h.sublist (after_sublist n lines),?_⟩
  · cases new with
    | none => exact List.Pairwise.nil
    | some l => exact List.pairwise_singleton _ l
  · intro k hk l hl
    rw [hone l hl]
    exact lt_of_mem_below hk
  · intro k hk l hl
    rcases List.mem_append.mp hk with hk | hk
    · exact (lt_of_mem_below hk).trans_le (le_of_mem_after hl)
    · have hn : n < 4294967296 := hone k hk ▸ k.number_lt
      rw [hone k hk]
      exact lt_of_mem_after hn h hl

/-- The first part of an entry takes an existing line out. -/
theorem removeLine_spec {old : Option Line} (h : Edited b pre (old.toList ++ suf))
    (ha : a = b.smeml + programSize pre)
    (hlink : ∀ l ∈ old, read32 b.ram.byte a = a + l.size) {b' : Basic}
    (hb' : b' = if old.isSome then deleteLine a b else b) :
    Edited b' pre suf ∧ Within a b.sfncl b.ram b'.ram ∧ b'.smeml = b.smeml ∧
      b'.ememl = b.ememl := by
  subst ha hb'
  cases old with
  | none => exact ⟨h,Within.refl _ _ _,rfl,rfl⟩
  | some l =>
    change Edited b pre (l::suf) at h
    obtain ⟨hedited,hwithin⟩ := deleteLine_spec h (hlink l rfl)
    have hsfncl := h.sfncl
    rw [programSize_cons] at hsfncl
    exact ⟨hedited,hwithin.mono (Nat.le_refl _) (by omega),rfl,rfl⟩

/-- The second part puts the new line in. -/
theorem addLine_spec {n : ℕ} {new : Option Line} (h : Edited b pre suf)
    (ha : a = b.smeml + programSize pre) (hnew : ∀ l ∈ new, l.number = n) {b' : Basic}
    (hb' : b' = if entryText new = [] then b else insertLine a n (entryText new) b) :
    Edited b' pre (new.toList ++ suf) ∧ Within a b'.sfncl b.ram b'.ram ∧ b'.smeml = b.smeml ∧
      b'.ememl = b.ememl ∧ (new.isSome → b'.sfncl - 1 ∈ b'.ram.written) := by
  cases new with
  | none =>
    obtain rfl : b' = b := hb'
    exact ⟨h,Within.refl _ _ _,rfl,rfl,nofun⟩
  | some l =>
    obtain rfl : l.number = n := hnew l rfl
    obtain rfl : b' = insertLine a l.number l.text b := hb'.trans (if_neg l.text_ne)
    subst ha
    obtain ⟨hedited,hwithin,hlast⟩ := insertLine_spec l h
    have hsfncl : (insertLine (b.smeml + programSize pre) l.number l.text b).sfncl =
        b.sfncl + l.size := by
      rw [hedited.sfncl, h.sfncl, programSize_cons]
      change b.smeml + programSize pre + (l.size + programSize suf) + 4 = _
      omega
    rw [← hsfncl] at hwithin hlast
    exact ⟨hedited,hwithin,rfl,rfl,fun _ => hlast⟩

theorem replaceLine_spec {n : ℕ} {old new : Option Line} (h : Edited b pre (old.toList ++ suf))
    (ha : a = b.smeml + programSize pre)
    (hlink : ∀ l ∈ old, read32 b.ram.byte a = a + l.size) (hnew : ∀ l ∈ new, l.number = n)
    {b' : Basic} (hb' : b' = replaceLine old.isSome a n (entryText new) b) :
    Edited b' pre (new.toList ++ suf) ∧ Within a (max b.sfncl b'.sfncl) b.ram b'.ram ∧
      b'.smeml = b.smeml ∧ b'.ememl = b.ememl ∧
      (new.isSome → b'.sfncl - 1 ∈ b'.ram.written) := by
  obtain ⟨hremoved,hwithin₁,hsmeml₁,hememl₁⟩ := removeLine_spec h ha hlink rfl
  rw [← hsmeml₁] at ha
  obtain ⟨hadded,hwithin₂,hsmeml₂,hememl₂,hlast⟩ := addLine_spec hremoved ha hnew hb'
  exact ⟨hadded,(hwithin₁.mono (Nat.le_refl a) (Nat.le_max_left _ _)).trans
    (hwithin₂.mono (Nat.le_refl a) (Nat.le_max_right _ _)),hsmeml₂.trans hsmeml₁,
    hememl₂.trans hememl₁,hlast⟩

/-- The rest of an entry, from a program that is linked in front of the change only. -/
theorem rechain_edited (h : Edited b pre suf) (heven : b.smeml % 2 = 0)
    (hlt : b.smeml + programSize (pre ++ suf) < 4294967296) :
    ∃ r,rechain (b.sfncl - b.smeml) (b.smeml + programSize pre) b.ram = some r ∧
      Laid Linked r.byte b.smeml (pre ++ suf) ∧
      read32 r.byte (b.smeml + programSize (pre ++ suf)) = 0 ∧
      Within (b.smeml + programSize pre) b.sfncl b.ram r := by
  have hsfncl := h.sfncl
  have hpre := programSize_even pre
  rw [programSize_append, ← Nat.add_assoc] at hlt ⊢
  have hfuel : programSize suf < b.sfncl - b.smeml := by omega
  obtain ⟨r,hr,hlinked,hwithin⟩ := rechain_spec h.marked h.marker (by omega) (by omega) hfuel
  refine ⟨r,hr,laid_append.mpr ⟨h.linked.congr fun x _ hx => hwithin.frame x (by omega),hlinked⟩,
    ?_,hwithin.mono (Nat.le_refl _) (by omega)⟩
  rw [hwithin.read32 (Or.inr (Nat.le_refl _))]
  exact h.marker

/-- The search finds the line to replace, if any, and where the new one belongs. -/
theorem Holds.search {lines : List Line} (h : Holds b lines) (n : ℕ) :
    searchLine b.ram.byte n (b.sfncl - b.smeml) b.smeml =
        some (found n (upFrom n lines),b.smeml + programSize (below n lines)) := by
  have hlinked := h.linked
  have hmarker := h.marker
  have hsfncl := h.sfncl
  rw [← below_append_upFrom h.sorted n] at hlinked hmarker hsfncl
  refine searchLine_spec hlinked hmarker (fun l hl => lt_of_mem_below hl)
    (fun l hl => le_of_mem_upFrom (List.mem_of_mem_head? hl)) ?_
  have := length_le_programSize (below n lines)
  rw [programSize_append] at hsfncl
  omega

/-- The pointer of the line to replace. -/
theorem Holds.link {lines : List Line} (h : Holds b lines) {n : ℕ} {l : Line}
    (hl : l ∈ replaced n lines) :
    read32 b.ram.byte (b.smeml + programSize (below n lines)) =
      b.smeml + programSize (below n lines) + l.size := by
  have hlinked := h.linked
  rw [← below_append_upFrom h.sorted n, ← replaced_append_after,
    show replaced n lines = some l from hl] at hlinked
  exact (laid_append.mp hlinked).2.1

/-- An entered line is in the program, in order. -/
theorem enterLine_spec {lines : List Line} {n : ℕ} {new : Option Line} (h : Holds b lines)
    (hnew : ∀ l ∈ new, l.number = n)
    (hlt : b.smeml + programSize (entered n new lines) < 4294967296) :
    ∃ b',enterLine n (entryText new) b = some (clear b') ∧ Holds b' (entered n new lines) ∧
      b'.smeml = b.smeml ∧ b'.ememl = b.ememl ∧
      Within b.smeml (max b.sfncl b'.sfncl) b.ram b'.ram ∧
      (new.isSome → b'.sfncl - 1 ∈ b'.ram.written) := by
  have hentered := entered_sorted h.sorted hnew
  have hlines := split_lines h.sorted n
  have hsearch := h.search n
  have hlink : ∀ l ∈ replaced n lines, read32 b.ram.byte (b.smeml + programSize (below n lines)) =
      b.smeml + programSize (below n lines) + l.size := fun l hl => h.link hl
  rw [← isSome_replaced] at hsearch
  have hlinked := h.linked
  have hmarker := h.marker
  have hsfncl := h.sfncl
  simp only [entered, List.append_assoc] at hlines hlt hentered ⊢
  generalize below n lines = pre at *
  generalize after n lines = suf at *
  generalize replaced n lines = old at *
  rw [← hlines] at hlinked hmarker hsfncl
  have hedited : Edited b pre (old.toList ++ suf) := by
    rw [programSize_append, ← Nat.add_assoc] at hmarker hsfncl
    exact ⟨(laid_append.mp hlinked).1,(laid_append.mp hlinked).2.marked,hmarker,hsfncl⟩
  generalize ha : b.smeml + programSize pre = a at *
  obtain ⟨b₂,hb₂⟩ : ∃ b₂,b₂ = replaceLine old.isSome a n (entryText new) b := ⟨_,rfl⟩
  obtain ⟨hreplaced,hwithin,hsmeml,hememl,hlast⟩ :=
    replaceLine_spec hedited ha.symm hlink hnew hb₂
  obtain ⟨r,hr,hlinked',hmarker',hrechained⟩ := rechain_edited hreplaced
    (by rw [hsmeml]; exact h.even) (by rw [hsmeml]; exact hlt)
  rw [hsmeml] at hr hlinked' hmarker' hrechained
  rw [ha] at hr hrechained
  refine ⟨{ b₂ with ram := r },?_,⟨hentered,?_,?_,?_,?_⟩,hsmeml,hememl,?_,fun hnew => ?_⟩
  · rw [enterLine, hsearch]
    simp only [← hb₂, hsmeml, hr]
  · rw [← hsmeml] at hlinked'
    exact hlinked'
  · rw [← hsmeml] at hmarker'
    exact hmarker'
  · have := hreplaced.sfncl
    rw [programSize_append, ← Nat.add_assoc]
    exact this
  · exact hsmeml ▸ h.even
  · exact (hwithin.mono (by omega) (Nat.le_refl _)).trans
      (hrechained.mono (by omega) (Nat.le_max_right _ _))
  · exact hrechained.keep _ (hlast hnew)

end Betawise.BasicProgram
