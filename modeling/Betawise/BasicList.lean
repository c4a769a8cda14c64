import Betawise.BasicCrunch

/-!
# Listing a crunched line

LIST prints the bytes of a line, with the tokens spelled out unless the open quote
flag is set. It toggles this flag at every double quote, while the crunch routine
takes a quote that stands directly behind a hex value, or behind a string variable,
for an ordinary character. LIST therefore shows a line as it was typed exactly if
every keyword has an even number of quotes in front of it.
-/
namespace Betawise.BasicList
open LoggedRam WordTable BasicKeywords BasicCrunch

/-- `EOR.b #0xFF` of `Oquote` at a double quote. -/
def toggle (oquote : Bool) (c : ℕ) : Bool := if c = 0x22 then !oquote else oquote

/-- From `LAB_1519` on: what is printed for the rest of a line. -/
def listText : Bool → List ℕ → Option (List ℕ)
  | _,[] => some []
  | oquote,d0::s =>
    if d0 < 0x80 ∨ oquote then (listText (toggle oquote d0) s).map (d0::·)
    else
      match uncrunch d0 with
      | none => none
      | some cs => (listText oquote s).map (cs ++ ·)

/-- A piece as LIST spells it: a question mark that was crunched is a PRINT. -/
def spelled (p : Piece) : List ℕ :=
  if p.source = [0x3F] ∧ p.byte ≠ 0x3F then printSpelling else p.source

/-- The flag is clear in front of every token. -/
def Closed : Bool → List ℕ → Prop
  | _,[] => True
  | oquote,c::u => (0x80 ≤ c → oquote = false) ∧ Closed (toggle oquote c) u

/-- Every token has an even number of quotes in front of it. -/
def EvenQuotes (u : List ℕ) : Prop :=
  ∀ i (h : i < u.length), 0x80 ≤ u[i] → (u.take i).count 0x22 % 2 = 0

variable {phase : Phase} {oquote n : ℕ} {s u : List ℕ} {ps : List Piece} {cut : Cut} {q : Bool}

theorem closed_iff : Closed q u ↔
    ∀ i (h : i < u.length), 0x80 ≤ u[i] → ((u.take i).count 0x22 % 2 = 0 ↔ q = false) := by
  induction u generalizing q with
  | nil => exact ⟨fun _ i h => absurd h (Nat.not_lt_zero i),fun _ => trivial⟩
  | cons c u ih =>
    have hflag : ∀ k, (k % 2 = 0 ↔ toggle q c = false) ↔
        ((if c = 0x22 then k + 1 else k) % 2 = 0 ↔ q = false) := by
      intro k
      unfold toggle
      split
      · have hsucc : (k + 1) % 2 = 0 ↔ ¬ k % 2 = 0 := by omega
        cases q <;> simp [hsucc]
      · rfl
    have hcount : ∀ i, ((c::u).take (i + 1)).count 0x22 =
        if c = 0x22 then (u.take i).count 0x22 + 1 else (u.take i).count 0x22 := by
      intro i
      rw [List.take_succ_cons, List.count_cons]
      by_cases hc : c = 0x22 <;> simp [hc]
    rw [Closed, ih]
    constructor
    · rintro ⟨hhead,htail⟩ i hi hle
      cases i with
      | zero => simpa using hhead hle
      | succ i =>
        rw [hcount, ← hflag]
        exact htail i (Nat.lt_of_succ_lt_succ hi) hle
    · intro h
      refine ⟨fun hle => (h 0 (Nat.zero_lt_succ _) hle).mp rfl,fun i hi hle => ?_⟩
      have hi' := h (i + 1) (Nat.succ_lt_succ hi) hle
      rwa [hcount, ← hflag] at hi'

theorem closed_iff_evenQuotes : Closed false u ↔ EvenQuotes u := by
  simp only [closed_iff, EvenQuotes, iff_true]

theorem take_stands {t : Char × List Word} {w : Word} (hs : s ≠ [])
    (h : Stands (fun i => s.getD i 0) t w) :
    s.take (w.letters.length + 1) = t.1.toNat::w.letters := by
  obtain ⟨x,s,rfl⟩ := List.exists_cons_of_ne_nil hs
  have hlen := stands_length hs h
  have hx : x = t.1.toNat := h.first
  rw [List.take_succ_cons, hx]
  congr 1
  refine List.ext_getElem (by simp at hlen ⊢; omega) fun i hi hi' => ?_
  have hread : (x::s).getD (i + 1) 0 = w.letters[i] := h.rest i hi'
  rw [List.getElem_take, ← hread]
  simp at hlen
  simp [show i < s.length by omega]

/-- A pass cuts off one character, or a keyword. -/
theorem pass_piece (hs : s ≠ []) (h : Pass oquote (fun i => s.getD i 0) phase cut) :
    (∃ x s', s = x::s' ∧ cut.byte = x ∧ cut.taken = 1) ∨
      ∃ t w, Stands (fun i => s.getD i 0) t w ∧ cut.byte = w.code ∧
        s.take cut.taken = t.1.toNat::w.letters := by
  obtain ⟨x,s,rfl⟩ := List.exists_cons_of_ne_nil hs
  cases h with
  | keyword _ hw => exact Or.inr ⟨_,_,hw,rfl,take_stands hs hw⟩
  | inside _ => exact Or.inl ⟨x,s,rfl,rfl,rfl⟩
  | close _ => exact Or.inl ⟨x,s,rfl,rfl,rfl⟩
  | «open» _ => exact Or.inl ⟨x,s,rfl,rfl,rfl⟩
  | dollar _ => exact Or.inl ⟨x,s,rfl,rfl,rfl⟩
  | hex _ => exact Or.inl ⟨x,s,rfl,rfl,rfl⟩
  | plain _ => exact Or.inl ⟨x,s,rfl,rfl,rfl⟩

theorem spelled_keyword {t : Char × List Word} {w : Word} (ht : t ∈ keywordTables)
    (hw : w ∈ t.2) : spelled ⟨w.code,t.1.toNat::w.letters⟩ = spelling t.1 w := by
  have hcode := ((tables_wellFormed t ht).2.1 w hw).code
  unfold spelled spelling
  by_cases hmark : t.1 = '?'
  · have hletters := questionMark_letters t ht hmark w hw
    have hne : w.code ≠ 0x3F := by omega
    simp [hmark, hletters, hne]
  · have hne : t.1.toNat ≠ 0x3F := fun h => hmark (Char.toNat_inj.mp h)
    simp [hmark, hne]

theorem map_eq_some_append (cs : List ℕ) {o : Option (List ℕ)} {ds : List ℕ} :
    o.map (cs ++ ·) = some (cs ++ ds) ↔ o = some ds := by
  cases o with
  | none => simp
  | some es => simp

/-- LIST spells the pieces if it meets every token outside quotes, and shows a token
as it is otherwise. -/
theorem listText_pieces (h7 : ∀ c ∈ s, c < 128) (h : pieces n phase oquote s = some ps) :
    listText q (ps.map Piece.byte) = some (ps.flatMap spelled) ↔ Closed q (ps.map Piece.byte) := by
  induction n generalizing phase oquote s ps q with
  | zero =>
    cases s with
    | nil =>
      obtain rfl : [] = ps := by simpa [pieces] using h
      simp [listText, Closed]
    | cons x s => simp [pieces] at h
  | succ n ih =>
    cases s with
    | nil =>
      obtain rfl : [] = ps := by simpa [pieces] using h
      simp [listText, Closed]
    | cons x s =>
      obtain ⟨cut,rest,hpass,hrest,rfl⟩ := pieces_cons h
      have hlow : ∀ c ∈ (x::s).drop cut.taken, c < 128 := fun c hc =>
        h7 c (List.mem_of_mem_drop hc)
      rw [List.map_cons, List.flatMap_cons, Closed]
      obtain ⟨y,s',heq,hbyte,htaken⟩ | ⟨t,w,hw,hbyte,hsource⟩ :=
        pass_piece (List.cons_ne_nil x s) hpass
      · obtain ⟨rfl,rfl⟩ := List.cons.inj heq
        have hx : x < 0x80 := h7 x List.mem_cons_self
        have hnot : ¬ 0x80 ≤ x := by omega
        have hspelled : spelled ⟨x,[x]⟩ = [x] := by
          unfold spelled
          split
          next h => exact absurd (List.cons.inj h.1).1 h.2
          · rfl
        simp only [hbyte, htaken, List.take_succ_cons, List.take_zero, hspelled]
        rw [listText, if_pos (Or.inl hx), ← ih hlow hrest]
        simp only [hnot, false_implies, true_and]
        exact map_eq_some_append [x]
      · have hcode : 128 ≤ w.code := ((tables_wellFormed t hw.table).2.1 w hw.word).code
        have hnot : ¬ w.code < 0x80 := by omega
        have htoggle : toggle q w.code = q := if_neg (by omega)
        simp only [hbyte, hsource, spelled_keyword hw.table hw.word]
        rw [listText, htoggle]
        cases q with
        | true =>
          have hhead : ∃ a cs, spelling t.1 w = a::cs ∧ a < 128 := by
            unfold spelling
            split
            · exact ⟨_,_,rfl,by decide⟩
            · exact ⟨_,_,rfl,(keyword_ascii t hw.table).2⟩
          obtain ⟨a,cs,hspell,ha⟩ := hhead
          have hne : w.code ≠ a := by omega
          rw [hspell, if_pos (Or.inr rfl)]
          simp [hcode, hne]
        | false =>
          rw [if_neg (by simpa using hnot), uncrunch_code t hw.table w hw.word]
          simp only [map_eq_some_append, ih hlow hrest, implies_true, true_and]

/-- The line as LIST should show it. -/
def shown (s : List ℕ) : Option (List ℕ) := (cutLine s).map fun ps => ps.flatMap spelled

theorem listText_shown (h7 : ∀ c ∈ s, c < 128) (hu : crunch s = some u) :
    listText false u = shown s ↔ EvenQuotes u := by
  obtain ⟨ps,hps,rfl⟩ := Option.map_eq_some_iff.mp hu
  rw [← closed_iff_evenQuotes, shown, hps, Option.map_some]
  exact listText_pieces h7 hps

/-! ### Lines without trouble behind hex values -/

/-- Quotes and hex values by their characters alone. Directly behind the digits of a hex
value there is no quote, and no character past the end of `TAB_CHRT`. -/
def tidyNext : Phase → ℕ → Option Phase
  | .scan,c => some (if c = 0x22 then .quoted 0x22 else if c = 0x24 then .hexed else .scan)
  | .quoted asrch,c => some (if c = asrch then .scan else .quoted asrch)
  | .hexed,c =>
    if isHex c then some .hexed
    else if c ≠ 0x22 ∧ c < 0x5F then some .scan
    else none

def tidyRun : Phase → List ℕ → Option Phase
  | phase,[] => some phase
  | phase,c::s =>
    match tidyNext phase c with
    | none => none
    | some phase => tidyRun phase s

def Tidy (s : List ℕ) : Prop := tidyRun .scan s ≠ none

instance (s : List ℕ) : Decidable (Tidy s) := inferInstanceAs (Decidable (_ ≠ _))

theorem tidyRun_append {p p' : Phase} {s' : List ℕ} (h : tidyRun p s = some p') :
    tidyRun p (s ++ s') = tidyRun p' s' := by
  induction s generalizing p with
  | nil =>
    obtain rfl : p = p' := Option.some.inj h
    rfl
  | cons c s ih =>
    rw [tidyRun] at h
    rw [List.cons_append, tidyRun]
    cases hnext : tidyNext p c with
    | none => rw [hnext] at h; exact absurd h (by simp)
    | some p'' =>
      rw [hnext] at h
      exact ih h

/-- A keyword leaves no quote and no hex value open. -/
theorem tidyRun_keyword : ∀ t ∈ keywordTables, ∀ w ∈ t.2,
    tidyRun .scan (t.1.toNat::w.letters) = some .scan := by
  decide +kernel

/-- The crunch routine, the characters and LIST agree about quotes; behind a REM there
are no more tokens. -/
inductive Agree : Phase → Phase → Bool → Prop
  | scan : Agree .scan .scan false
  | hexed : Agree .hexed .hexed false
  | quoted : Agree (.quoted 0x22) (.quoted 0x22) true
  | remark {p : Phase} {q : Bool} : Agree (.quoted 0) p q

theorem save_phase {c k o : ℕ} (hc : c < 128) : (save c k o).phase = .scan :=
  if_neg (Nat.ne_of_lt (Nat.lt_of_lt_of_le hc (by decide)))

theorem Agree.code {c k o : ℕ} : Agree (save c k o).phase .scan false := by
  unfold save
  simp only
  split
  · exact .remark
  · exact .scan

theorem toggle_of_ne {c : ℕ} (hc : c ≠ 0x22) : toggle q c = q := if_neg hc

/-- What the characters say after a pass. -/
def Goes (q : Bool) (s : List ℕ) (cut : Cut) : Prop :=
  (0x80 ≤ cut.byte → q = false) ∧
    ∃ p', Agree cut.phase p' (toggle q cut.byte) ∧ tidyRun p' (s.drop cut.taken) ≠ none

/-- One character. -/
theorem goes_one {p r : Phase} {x : ℕ} {cut : Cut} (hbyte : cut.byte = x)
    (htaken : cut.taken = 1) (hx : x < 128) (hrun : tidyRun p (x::s) ≠ none)
    (hnext : tidyNext p x = some r) (h : Agree cut.phase r (toggle q x)) :
    Goes q (x::s) cut := by
  refine ⟨fun hle => absurd hle (by omega),r,by rwa [hbyte],?_⟩
  rw [tidyRun, hnext] at hrun
  rwa [htaken]

/-- A character that is saved. -/
theorem goes_save {p : Phase} {x o : ℕ} (hx : x < 128) (hrun : tidyRun p (x::s) ≠ none)
    (hnext : tidyNext p x = some .scan) (hq : toggle q x = false) :
    Goes q (x::s) (save x 1 o) :=
  goes_one rfl rfl hx hrun hnext (by rw [save_phase hx, hq]; exact .scan)

/-- A keyword, from outside quotes and hex values. -/
theorem goes_keyword {t : Char × List Word} {w : Word} {x o : ℕ}
    (hw : Stands (fun i => (x::s).getD i 0) t w) (hrun : tidyRun .scan (x::s) ≠ none) :
    Goes false (x::s) (save w.code (w.letters.length + 1) o) := by
  have hcode := ((tables_wellFormed t hw.table).2.1 w hw.word).code
  refine ⟨fun _ => rfl,.scan,?_,?_⟩
  · have hquote : toggle false w.code = false := toggle_of_ne (by omega)
    exact hquote.symm ▸ .code
  · rw [← List.take_append_drop (w.letters.length + 1) (x::s),
      take_stands (List.cons_ne_nil x s) hw,
      tidyRun_append (tidyRun_keyword t hw.table w hw.word)] at hrun
    exact hrun

theorem agree_step {p : Phase} {x : ℕ} (o : ℕ) (h : Agree phase p q) (hx : x < 128) (hnull : x ≠ 0)
    (hrun : tidyRun p (x::s) ≠ none) :
    ∃ cut, crunchByte phase o (fun i => (x::s).getD i 0) = some cut ∧ Goes q (x::s) cut := by
  have hnext : tidyNext p x ≠ none := by
    intro hnone
    rw [tidyRun, hnone] at hrun
    exact hrun rfl
  have hfollow : p = .hexed → isHex x = true ∨ x ≠ 0x22 ∧ x < 0x5F := by
    rintro rfl
    rw [tidyNext] at hnext
    split at hnext
    · exact Or.inl ‹_›
    · split at hnext
      · exact Or.inr ‹_›
      · exact absurd rfl hnext
  have htable : phase = .hexed → isHex x = true ∨ x < 0x5F := by
    intro hphase
    cases h with
    | hexed => exact (hfollow rfl).imp_right And.right
    | _ => exact absurd hphase (by simp)
  obtain ⟨cut,hcut⟩ : ∃ cut, crunchByte phase o (fun i => (x::s).getD i 0) = some cut :=
    crunchByte_defined o htable
  refine ⟨cut,hcut,?_⟩
  have hpass := crunchByte_pass hcut
  cases h with
  | scan =>
    cases hpass with
    | «open» hopen =>
      have hopen : x = 0x22 := hopen
      exact goes_one rfl rfl hx hrun (by rw [tidyNext, if_pos hopen])
        (by rw [hopen]; exact .quoted)
    | dollar hdollar =>
      have hdollar : x = 0x24 := hdollar
      exact goes_one rfl rfl hx hrun (by rw [hdollar]; rfl) (by rw [hdollar]; exact .hexed)
    | plain hplain =>
      obtain ⟨-,hquote,hdollar⟩ | ⟨hphase,-⟩ := hplain
      · have hquote : x ≠ 0x22 := hquote
        have hdollar : x ≠ 0x24 := hdollar
        exact goes_save hx hrun (by rw [tidyNext, if_neg hquote, if_neg hdollar])
          (toggle_of_ne hquote)
      · exact absurd hphase (by simp)
    | keyword _ hw => exact goes_keyword hw hrun
  | hexed =>
    cases hpass with
    | hex hhex =>
      have hhex : isHex x = true := hhex
      refine goes_one rfl rfl hx hrun (r := .hexed) (by rw [tidyNext, if_pos hhex]) ?_
      rw [toggle_of_ne (by rintro rfl; exact absurd hhex (by decide))]
      exact .hexed
    | plain hplain =>
      obtain ⟨hphase,-⟩ | ⟨-,hhex⟩ := hplain
      · exact absurd hphase (by simp)
      · have hhex : isHex x = false := hhex
        have hclean := (hfollow rfl).resolve_left (by simp [hhex])
        exact goes_save hx hrun (by simp [tidyNext, hhex, hclean]) (toggle_of_ne hclean.1)
    | @keyword _ t w hplain hw =>
      obtain ⟨hphase,-⟩ | ⟨-,hhex⟩ := hplain
      · exact absurd hphase (by simp)
      · have hhex : isHex x = false := hhex
        have hclean := (hfollow rfl).resolve_left (by simp [hhex])
        have hfirst : x = t.1.toNat := hw.first
        have hlow := (keyword_ascii t hw.table).1
        have hdollar : x ≠ 0x24 := by omega
        refine goes_keyword hw ?_
        rw [tidyRun, tidyNext, if_neg hclean.1, if_neg hdollar]
        rw [tidyRun, tidyNext, if_neg (by simp [hhex]), if_pos hclean] at hrun
        exact hrun
  | quoted =>
    cases hpass with
    | inside hne =>
      have hne : x ≠ 0x22 := hne
      refine goes_one rfl rfl hx hrun (r := .quoted 0x22) (by rw [tidyNext, if_neg hne]) ?_
      rw [toggle_of_ne hne]
      exact .quoted
    | close heq =>
      have heq : x = 0x22 := heq
      exact goes_save hx hrun (by rw [tidyNext, if_pos heq]) (by rw [heq]; rfl)
    | plain hplain => rcases hplain with ⟨h,-⟩ | ⟨h,-⟩ <;> exact absurd h (by simp)
    | keyword hplain _ => rcases hplain with ⟨h,-⟩ | ⟨h,-⟩ <;> exact absurd h (by simp)
  | remark =>
    obtain ⟨p',hp'⟩ := Option.ne_none_iff_exists'.mp hnext
    cases hpass with
    | inside _ => exact goes_one rfl rfl hx hrun hp' .remark
    | close heq => exact absurd heq hnull
    | plain hplain => rcases hplain with ⟨h,-⟩ | ⟨h,-⟩ <;> exact absurd h (by simp)
    | keyword hplain _ => rcases hplain with ⟨h,-⟩ | ⟨h,-⟩ <;> exact absurd h (by simp)

/-- Characters that agree about quotes are crunched, and all tokens are outside quotes. -/
theorem pieces_closed {p : Phase} (o : ℕ) (h : Agree phase p q) (hn : s.length ≤ n)
    (h7 : ∀ c ∈ s, c < 128) (hnull : ∀ c ∈ s, c ≠ 0) (hrun : tidyRun p s ≠ none) :
    ∃ ps, pieces n phase o s = some ps ∧ Closed q (ps.map Piece.byte) := by
  induction n generalizing phase p q o s with
  | zero =>
    obtain rfl : s = [] := List.length_eq_zero_iff.mp (Nat.le_zero.mp hn)
    exact ⟨[],rfl,trivial⟩
  | succ n ih =>
    cases s with
    | nil => exact ⟨[],rfl,trivial⟩
    | cons x s =>
      obtain ⟨cut,hcut,htoken,p',hagree,hrest⟩ :=
        agree_step o h (h7 x List.mem_cons_self) (hnull x List.mem_cons_self) hrun
      have hpos := (crunchByte_pass hcut).taken_pos
      have hlen : ((x::s).drop cut.taken).length ≤ n := by
        rw [List.length_drop]
        omega
      obtain ⟨ps,hps,hclosed⟩ := ih cut.oquote hagree hlen
        (fun c hc => h7 c (List.mem_of_mem_drop hc))
        (fun c hc => hnull c (List.mem_of_mem_drop hc)) hrest
      refine ⟨⟨cut.byte,(x::s).take cut.taken⟩::ps,?_,htoken,hclosed⟩
      simp only [pieces, hcut, hps, Option.map_some]

/-- The pieces make up the line. -/
theorem pieces_source (h : pieces n phase oquote s = some ps) :
    ps.flatMap Piece.source = s := by
  induction n generalizing phase oquote s ps with
  | zero =>
    cases s with
    | nil =>
      obtain rfl : [] = ps := by simpa [pieces] using h
      rfl
    | cons x s => simp [pieces] at h
  | succ n ih =>
    cases s with
    | nil =>
      obtain rfl : [] = ps := by simpa [pieces] using h
      rfl
    | cons x s =>
      obtain ⟨cut,rest,-,hrest,rfl⟩ := pieces_cons h
      rw [List.flatMap_cons, ih hrest]
      exact List.take_append_drop _ _

theorem shown_eq_self (h : cutLine s = some ps) (hmark : 0x3F ∉ s) : shown s = some s := by
  have hspelled : ps.flatMap spelled = ps.flatMap Piece.source := by
    refine List.flatMap_congr fun p hp => if_neg fun hq => hmark ?_
    rw [← pieces_source h]
    exact List.mem_flatMap.mpr ⟨p,hp,by rw [hq.1]; exact List.mem_singleton_self _⟩
  rw [shown, h, Option.map_some, hspelled, pieces_source h]

/-- A tidy line is crunched, with all its tokens outside quotes. -/
theorem crunch_tidy (h7 : ∀ c ∈ s, c < 128) (hnull : ∀ c ∈ s, c ≠ 0) (htidy : Tidy s) :
    ∃ u, crunch s = some u ∧ EvenQuotes u := by
  obtain ⟨ps,hps,hclosed⟩ := pieces_closed 0 .scan (Nat.le_refl _) h7 hnull htidy
  exact ⟨_,by rw [crunch, cutLine, hps]; rfl,closed_iff_evenQuotes.mp hclosed⟩

/-- LIST shows a crunched line as it was typed, with its question marks as PRINT,
exactly if every keyword has an even number of quotes in front of it; in a tidy line
every keyword has. -/
theorem list_round_trip (h7 : ∀ c ∈ s, c < 128) (hnull : ∀ c ∈ s, c ≠ 0) :
    (∀ u, crunch s = some u → (listText false u = shown s ↔ EvenQuotes u)) ∧
      (∀ u, crunch s = some u → 0x3F ∉ s → shown s = some s) ∧
      (Tidy s → ∃ u, crunch s = some u ∧ EvenQuotes u) := by
  refine ⟨fun u hu => listText_shown h7 hu,fun u hu hmark => ?_,crunch_tidy h7 hnull⟩
  obtain ⟨ps,hps,-⟩ := Option.map_eq_some_iff.mp hu
  exact shown_eq_self hps hmark

/-- `PRINT"TO"` is shown as it was typed. -/
theorem list_round_trip_print : ∃ u,
    crunch [0x50,0x52,0x49,0x4E,0x54,0x22,0x54,0x4F,0x22] = some u ∧
      listText false u = some [0x50,0x52,0x49,0x4E,0x54,0x22,0x54,0x4F,0x22] := by
  obtain ⟨hshown,hself,htidy⟩ := list_round_trip
    (s := [0x50,0x52,0x49,0x4E,0x54,0x22,0x54,0x4F,0x22]) (by decide) (by decide)
  obtain ⟨u,hu,heven⟩ := htidy (by decide)
  refine ⟨u,hu,?_⟩
  rw [(hshown u hu).mpr heven, hself u hu (by decide)]

/-- In `A$"TO` the quote is not seen, and LIST shows a token that was crunched in it. -/
example : crunch [0x41,0x24,0x22,0x54,0x4F] = some [0x41,0x24,0x22,Token.TO.code] ∧
    listText false [0x41,0x24,0x22,Token.TO.code] = some [0x41,0x24,0x22,Token.TO.code] := by
  decide +kernel

end Betawise.BasicList
