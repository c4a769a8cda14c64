import Betawise.BasicKeywords
import Betawise.BasicMemory

/-!
# Crunching a typed line

`LAB_13A6` replaces the keywords of a line by their tokens. It reads at `(a3)` and
writes at `(a0)`, which is the start of the same buffer. Every pass saves one byte
and takes one character or the characters of a keyword, so that the routine never
overtakes itself; the buffer ends up as if the line had been cut into pieces first.
-/
namespace Betawise.BasicCrunch
open LoggedRam WordTable BasicKeywords BasicMemory

/-- Where the next byte is taken: `LAB_13AC`, `LAB_1408` with its search character,
and the loop at `LAB_1392`. -/
inductive Phase where
  | scan
  | quoted (asrch : ℕ)
  | hexed
  deriving DecidableEq

/-- What one pass does: the byte it saves, the number of characters it takes, and
where it goes on. -/
structure Cut where
  byte : ℕ
  taken : ℕ
  phase : Phase
  oquote : ℕ

/-- `LAB_13EC` for a byte that is not the end mark. -/
def save (d0 taken oquote : ℕ) : Cut where
  byte := d0
  taken := taken
  phase := if d0 = Token.REM.code then .quoted 0 else .scan
  oquote := if d0 = 0x3A ∨ d0 = Token.DATA.code then d0 - 0x3A else oquote

/-- `LAB_13CC`. -/
def crunchRest (oquote : ℕ) (peek : ℕ → ℕ) : Option Cut :=
  if oquote.testBit 6 then some (save (peek 0) 1 oquote)
  else
    match lookup peek with
    | none => none
    | some none => some (save (peek 0) 1 oquote)
    | some (some (token,d4)) => some (save token (d4 + 1) oquote)

/-- `LAB_13C6`. -/
def crunchLow (oquote : ℕ) (peek : ℕ → ℕ) : Option Cut :=
  if peek 0 < 0x2A then some (save (peek 0) 1 oquote) else crunchRest oquote peek

/-- The bytes that `LAB_1392` copies: spaces, digits, and letters up to F. -/
def isHex (c : ℕ) : Bool :=
  c = 0x20 ∨ 0x30 ≤ c ∧ c ≤ 0x39 ∨ 0x41 ≤ c &&& 0xDF ∧ c &&& 0xDF ≤ 0x46

/-- One pass for a character that is not the end mark. -/
def crunchByte (phase : Phase) (oquote : ℕ) (peek : ℕ → ℕ) : Option Cut :=
  match phase with
  | .quoted asrch =>
    if peek 0 = asrch then some (save (peek 0) 1 oquote)
    else some ⟨peek 0,1,.quoted asrch,oquote⟩
  | .hexed =>
    if isHex (peek 0) then some ⟨peek 0,1,.hexed,oquote⟩
    else if peek 0 < 0x30 then crunchLow oquote peek
    else crunchRest oquote peek
  | .scan =>
    if 0x5F ≤ peek 0 then some (save (peek 0) 1 oquote)
    else if 0x3C ≤ peek 0 then crunchRest oquote peek
    else if 0x30 ≤ peek 0 then some (save (peek 0) 1 oquote)
    else if peek 0 = 0x22 then some ⟨peek 0,1,.quoted 0x22,oquote⟩
    else if peek 0 = 0x24 then some ⟨peek 0,1,.hexed,oquote⟩
    else crunchLow oquote peek

/-! ### In the buffer -/

/-- The registers of the loop: `d1` is the read index and `d2` the save index. -/
structure Cruncher where
  ram : Ram
  d1 : ℕ
  d2 : ℕ
  phase : Phase
  oquote : ℕ

/-- `LAB_13EC` for the end mark and `LAB_142A`. -/
def finish (a0 : ℕ) (c : Cruncher) : Ram × ℕ :=
  let ram := poke (a0 + c.d2) 0 c.ram
  let d2 := c.d2 + 1
  if d2 % 2 = 1 then (poke32 (a0 + d2 + 1) 0 (poke (a0 + d2) 0 ram),d2 + 1)
  else (poke32 (a0 + d2) 0 ram,d2)

/-- The memory and the length that the routine leaves; nothing is returned where it
indexes past its table. -/
def crunchLoop (a3 a0 : ℕ) : ℕ → Cruncher → Option (Ram × ℕ)
  | 0,_ => none
  | fuel + 1,c =>
    if c.ram.byte (a3 + c.d1) = 0 then some (finish a0 c)
    else
      match crunchByte c.phase c.oquote fun i => c.ram.byte (a3 + c.d1 + i) with
      | none => none
      | some cut =>
        crunchLoop a3 a0 fuel
          ⟨poke (a0 + c.d2) cut.byte c.ram,c.d1 + cut.taken,c.d2 + 1,cut.phase,cut.oquote⟩

/-- `LAB_13A6`. -/
def crunchBuffer (a3 a0 fuel : ℕ) (r : Ram) : Option (Ram × ℕ) :=
  crunchLoop a3 a0 fuel ⟨r,0,0,.scan,0⟩

/-! ### As pieces of the line -/

/-- A saved byte with the characters it stands for. -/
structure Piece where
  byte : ℕ
  source : List ℕ
  deriving DecidableEq

def pieces : ℕ → Phase → ℕ → List ℕ → Option (List Piece)
  | _,_,_,[] => some []
  | 0,_,_,_::_ => none
  | fuel + 1,phase,oquote,s =>
    match crunchByte phase oquote fun i => s.getD i 0 with
    | none => none
    | some cut =>
      (pieces fuel cut.phase cut.oquote (s.drop cut.taken)).map
        (⟨cut.byte,s.take cut.taken⟩::·)

/-- The pieces of a line. -/
def cutLine (s : List ℕ) : Option (List Piece) := pieces s.length .scan 0 s

/-- The crunched line. -/
def crunch (s : List ℕ) : Option (List ℕ) := (cutLine s).map fun ps => ps.map Piece.byte

variable {peek peek' : ℕ → ℕ} {phase : Phase} {oquote fuel : ℕ} {cut : Cut} {s : List ℕ}
  {ps : List Piece}

/-! ### What a pass does -/

/-- The keyword `w` of the table of `t` stands next. -/
structure Stands (peek : ℕ → ℕ) (t : Char × List Word) (w : Word) : Prop where
  table : t ∈ keywordTables
  word : w ∈ t.2
  first : peek 0 = t.1.toNat
  rest : Reads (fun i => peek (i + 1)) w.letters

/-- A character that is neither in quotes nor part of a hex value. -/
def Crunchable (phase : Phase) (c : ℕ) : Prop :=
  phase = .scan ∧ c ≠ 0x22 ∧ c ≠ 0x24 ∨ phase = .hexed ∧ isHex c = false

/-- The ways through one pass. -/
inductive Pass (oquote : ℕ) (peek : ℕ → ℕ) : Phase → Cut → Prop
  | inside {asrch : ℕ} : peek 0 ≠ asrch →
      Pass oquote peek (.quoted asrch) ⟨peek 0,1,.quoted asrch,oquote⟩
  | close {asrch : ℕ} : peek 0 = asrch →
      Pass oquote peek (.quoted asrch) (save (peek 0) 1 oquote)
  | open : peek 0 = 0x22 → Pass oquote peek .scan ⟨peek 0,1,.quoted 0x22,oquote⟩
  | dollar : peek 0 = 0x24 → Pass oquote peek .scan ⟨peek 0,1,.hexed,oquote⟩
  | hex : isHex (peek 0) = true → Pass oquote peek .hexed ⟨peek 0,1,.hexed,oquote⟩
  | plain {phase : Phase} : Crunchable phase (peek 0) →
      Pass oquote peek phase (save (peek 0) 1 oquote)
  | keyword {phase : Phase} {t : Char × List Word} {w : Word} :
      Crunchable phase (peek 0) → Stands peek t w →
      Pass oquote peek phase (save w.code (w.letters.length + 1) oquote)

theorem lookup_stands {token d4 : ℕ} (hle : 0x2A ≤ peek 0)
    (h : lookup peek = some (some (token,d4))) :
    ∃ t w, Stands peek t w ∧ token = w.code ∧ d4 = w.letters.length := by
  rw [lookup_eq] at h
  obtain ⟨l,hl,hbind⟩ := Option.map_eq_some_iff.mp h
  obtain ⟨c,rfl,hmap⟩ := Option.bind_eq_some_iff.mp hbind
  obtain ⟨w,hw,hpair⟩ := Option.map_eq_some_iff.mp hmap
  obtain ⟨hmem,hreads⟩ := firstMatch_mem hw
  obtain ⟨t,ht,rfl,hwt⟩ := tableOf_mem hmem
  have hlabel := (tabChrt_label hl).1
  rw [Prod.mk.injEq] at hpair
  exact ⟨t,w,⟨ht,hwt,by omega,hreads⟩,hpair.1.symm,hpair.2.symm⟩

theorem crunchRest_cases (hle : 0x2A ≤ peek 0) (h : crunchRest oquote peek = some cut) :
    cut = save (peek 0) 1 oquote ∨
      ∃ t w, Stands peek t w ∧ cut = save w.code (w.letters.length + 1) oquote := by
  unfold crunchRest at h
  split at h
  · exact Or.inl (Option.some.inj h).symm
  · split at h
    · exact absurd h (by simp)
    · exact Or.inl (Option.some.inj h).symm
    · next hlookup =>
      obtain ⟨t,w,hw,rfl,rfl⟩ := lookup_stands hle hlookup
      exact Or.inr ⟨t,w,hw,(Option.some.inj h).symm⟩

theorem crunchLow_cases (h : crunchLow oquote peek = some cut) :
    cut = save (peek 0) 1 oquote ∨
      ∃ t w, Stands peek t w ∧ cut = save w.code (w.letters.length + 1) oquote := by
  unfold crunchLow at h
  split at h
  · exact Or.inl (Option.some.inj h).symm
  · exact crunchRest_cases (by omega) h

/-- A pass that may crunch saves the character or a token. -/
theorem Pass.of_cases (hphase : Crunchable phase (peek 0))
    (h : cut = save (peek 0) 1 oquote ∨
      ∃ t w, Stands peek t w ∧ cut = save w.code (w.letters.length + 1) oquote) :
    Pass oquote peek phase cut := by
  obtain rfl | ⟨t,w,hw,rfl⟩ := h
  · exact .plain hphase
  · exact .keyword hphase hw

theorem crunchByte_pass (h : crunchByte phase oquote peek = some cut) :
    Pass oquote peek phase cut := by
  cases phase with
  | quoted asrch =>
    simp only [crunchByte] at h
    split at h
    · obtain rfl := Option.some.inj h
      exact .close ‹_›
    · obtain rfl := Option.some.inj h
      exact .inside ‹_›
  | hexed =>
    simp only [crunchByte] at h
    split_ifs at h with hhex hlow
    · obtain rfl := Option.some.inj h
      exact .hex hhex
    · exact .of_cases (Or.inr ⟨rfl,by simpa using hhex⟩) (crunchLow_cases h)
    · exact .of_cases (Or.inr ⟨rfl,by simpa using hhex⟩) (crunchRest_cases (by omega) h)
  | scan =>
    simp only [crunchByte] at h
    split_ifs at h with hhigh hletter hdigit hquote hdollar
    · obtain rfl := Option.some.inj h
      exact .plain (Or.inl ⟨rfl,by omega,by omega⟩)
    · exact .of_cases (Or.inl ⟨rfl,by omega,by omega⟩) (crunchRest_cases (by omega) h)
    · obtain rfl := Option.some.inj h
      exact .plain (Or.inl ⟨rfl,by omega,by omega⟩)
    · obtain rfl := Option.some.inj h
      exact .open hquote
    · obtain rfl := Option.some.inj h
      exact .dollar hdollar
    · exact .of_cases (Or.inl ⟨rfl,hquote,hdollar⟩) (crunchLow_cases h)

theorem crunchRest_defined (o : ℕ) (h : peek 0 < 0x5F) : crunchRest o peek ≠ none := by
  have hlt : peek 0 - 0x2A < tabChrt.length := by
    change _ < 53
    omega
  have hlookup : lookup peek ≠ none := by
    rw [lookup_eq, List.getElem?_eq_getElem hlt]
    simp
  unfold crunchRest
  split
  · simp
  · split <;> simp_all

/-- The table only ends in front of a character that follows a hex value. -/
theorem crunchByte_defined (o : ℕ) (h : phase = .hexed → isHex (peek 0) = true ∨ peek 0 < 0x5F) :
    ∃ cut, crunchByte phase o peek = some cut := by
  refine Option.ne_none_iff_exists'.mp ?_
  cases phase with
  | quoted asrch => simp only [crunchByte]; split <;> simp
  | hexed =>
    simp only [crunchByte, crunchLow]
    rcases h rfl with hhex | hlt
    · simp [hhex]
    · have := crunchRest_defined o hlt
      split_ifs <;> simp_all
  | scan =>
    simp only [crunchByte, crunchLow]
    split_ifs
    all_goals first | exact Option.some_ne_none _ | exact crunchRest_defined o (by omega)

/-! ### A pass reads no further than the end mark -/

theorem lookup_congr (h0 : peek 0 ≠ 0)
    (hsame : ∀ i, (∀ j < i, peek j ≠ 0) → peek i = peek' i) : lookup peek = lookup peek' := by
  have hfirst : peek 0 = peek' 0 := hsame 0 fun j hj => absurd hj (Nat.not_lt_zero j)
  rw [lookup_eq, lookup_eq, ← hfirst]
  congr 1
  funext l
  cases l with
  | none => rfl
  | some c =>
    simp only [Option.bind_some]
    rw [firstMatch_congr]
    · intro w hw x hx
      obtain ⟨t,ht,-,hwt⟩ := tableOf_mem hw
      exact (((tables_wellFormed t ht).2.1 w hwt).letters x hx).1
    · intro i hi
      refine hsame (i + 1) fun j hj => ?_
      cases j with
      | zero => exact h0
      | succ j => exact hi j (Nat.lt_of_succ_lt_succ hj)

theorem crunchByte_congr (h0 : peek 0 ≠ 0)
    (hsame : ∀ i, (∀ j < i, peek j ≠ 0) → peek i = peek' i) :
    crunchByte phase oquote peek = crunchByte phase oquote peek' := by
  have hfirst : peek 0 = peek' 0 := hsame 0 fun j hj => absurd hj (Nat.not_lt_zero j)
  simp only [crunchByte, crunchLow, crunchRest, lookup_congr h0 hsame, hfirst]

/-! ### The pieces of a line -/

/-- The first piece is what the pass has cut off. -/
theorem pieces_cons {n x : ℕ} (h : pieces (n + 1) phase oquote (x::s) = some ps) :
    ∃ cut rest, Pass oquote (fun i => (x::s).getD i 0) phase cut ∧
      pieces n cut.phase cut.oquote ((x::s).drop cut.taken) = some rest ∧
      ps = ⟨cut.byte,(x::s).take cut.taken⟩::rest := by
  simp only [pieces] at h
  split at h
  · exact absurd h (by simp)
  · next cut hcut =>
    obtain ⟨rest,hrest,rfl⟩ := Option.map_eq_some_iff.mp h
    exact ⟨cut,rest,crunchByte_pass hcut,hrest,rfl⟩

theorem Pass.taken_pos (h : Pass oquote peek phase cut) : 0 < cut.taken := by
  cases h <;> simp [save]

theorem stands_length {t : Char × List Word} {w : Word} (hs : s ≠ [])
    (h : Stands (fun i => s.getD i 0) t w) : w.letters.length + 1 ≤ s.length := by
  cases hlast : w.letters.length with
  | zero => exact List.length_pos_iff.mpr hs
  | succ n =>
    have hn : n < w.letters.length := by omega
    have hread : s.getD (n + 1) 0 = w.letters[n] := h.rest n hn
    have hpos := (((tables_wellFormed t h.table).2.1 w h.word).letters _
      (List.getElem_mem hn)).1
    refine Nat.lt_of_not_le fun hle => ?_
    rw [List.getD_eq_getElem?_getD, List.getElem?_eq_none (by omega)] at hread
    rw [← hread] at hpos
    exact Nat.lt_irrefl 0 hpos

theorem Pass.taken_le (hs : s ≠ []) (h : Pass oquote (fun i => s.getD i 0) phase cut) :
    cut.taken ≤ s.length := by
  have hone : 1 ≤ s.length := List.length_pos_iff.mpr hs
  cases h with
  | keyword _ hw => exact stands_length hs hw
  | inside _ => exact hone
  | close _ => exact hone
  | «open» _ => exact hone
  | dollar _ => exact hone
  | hex _ => exact hone
  | plain _ => exact hone

/-! ### The routine works in place -/

/-- A line in memory is read as the line itself up to its end mark. -/
theorem peek_agrees {byte : ℕ → ℕ} {a : ℕ} (hsrc : BytesAt byte a (s ++ [0])) :
    ∀ i, (∀ j < i, byte (a + j) ≠ 0) → byte (a + i) = s.getD i 0 := by
  intro i hi
  obtain hlt | heq | hgt := Nat.lt_trichotomy i s.length
  · rw [hsrc i (by simp; omega), List.getElem_append_left hlt,
      List.getD_eq_getElem?_getD, List.getElem?_eq_getElem hlt, Option.getD_some]
  · subst heq
    rw [hsrc s.length (by simp), List.getElem_append_right (Nat.le_refl _)]
    simp
  · refine absurd ?_ (hi s.length hgt)
    rw [hsrc s.length (by simp), List.getElem_append_right (Nat.le_refl _)]
    simp

theorem BytesAt.drop {byte : ℕ → ℕ} {a n : ℕ} (h : BytesAt byte a (s ++ [0])) (hn : n ≤ s.length) :
    BytesAt byte (a + n) (s.drop n ++ [0]) := by
  rw [← List.take_append_drop n s, List.append_assoc, bytesAt_append, List.length_take,
    Nat.min_eq_left hn] at h
  exact h.2

theorem finish_spec {a0 : ℕ} {c : Cruncher} {r : Ram} {done : List ℕ}
    (h : Stored a0 done r c.ram) (hd2 : c.d2 = done.length) :
    (finish a0 c).2 = (lineBuffer done).length ∧
      Stored a0 (lineBuffer done ++ bytes32 0) r (finish a0 c).1 := by
  have hmark := h.snoc 0
  unfold finish lineBuffer
  rw [hd2]
  by_cases heven : done.length % 2 = 0
  · have hodd : (done.length + 1) % 2 = 1 := by omega
    simp only [if_pos hodd, if_pos heven]
    refine ⟨by simp,?_⟩
    simpa [Nat.add_assoc, poke32] using (hmark.snoc 0).append (bytes32 0)
  · have hodd : ¬ (done.length + 1) % 2 = 1 := by omega
    simp only [if_neg hodd, if_neg heven]
    refine ⟨by simp,?_⟩
    simpa [Nat.add_assoc, poke32] using hmark.append (bytes32 0)

/-- The routine saves the pieces of what is still to be read, behind what it has saved. -/
theorem crunchLoop_spec {a3 a0 n : ℕ} {c : Cruncher} {r : Ram} {done : List ℕ}
    (hfuel : s.length < fuel) (hn : s.length ≤ n)
    (hsrc : BytesAt c.ram.byte (a3 + c.d1) (s ++ [0])) (hnull : ∀ x ∈ s, x ≠ 0)
    (hle : a0 + c.d2 ≤ a3 + c.d1) (h : Stored a0 done r c.ram) (hd2 : c.d2 = done.length) :
    match pieces n c.phase c.oquote s with
    | none => crunchLoop a3 a0 fuel c = none
    | some ps => ∃ ram, crunchLoop a3 a0 fuel c =
        some (ram,(lineBuffer (done ++ ps.map Piece.byte)).length) ∧
      Stored a0 (lineBuffer (done ++ ps.map Piece.byte) ++ bytes32 0) r ram := by
  induction fuel generalizing c s done n with
  | zero => exact absurd hfuel (Nat.not_lt_zero _)
  | succ fuel ih =>
    cases s with
    | nil =>
      have hend : c.ram.byte (a3 + c.d1) = 0 := by simpa using hsrc 0 (by simp)
      obtain ⟨hlen,hstored⟩ := finish_spec h hd2
      simp only [pieces, crunchLoop, if_pos hend, List.map_nil, List.append_nil]
      exact ⟨_,by rw [← hlen],hstored⟩
    | cons x xs =>
      obtain ⟨n,rfl⟩ : ∃ k, n = k + 1 := ⟨n - 1,by simp at hn; omega⟩
      have hx : c.ram.byte (a3 + c.d1) = x := by simpa using hsrc 0 (by simp)
      have hne : c.ram.byte (a3 + c.d1) ≠ 0 := hx ▸ hnull x List.mem_cons_self
      have hsame : crunchByte c.phase c.oquote (fun i => c.ram.byte (a3 + c.d1 + i)) =
          crunchByte c.phase c.oquote fun i => (x::xs).getD i 0 :=
        crunchByte_congr hne (peek_agrees hsrc)
      simp only [pieces, crunchLoop, if_neg hne, hsame]
      cases hcut : crunchByte c.phase c.oquote fun i => (x::xs).getD i 0 with
      | none => rfl
      | some cut =>
        have hpass := crunchByte_pass hcut
        have hpos := hpass.taken_pos
        have htaken := hpass.taken_le (List.cons_ne_nil x xs)
        have hstored := h.snoc cut.byte
        rw [← hd2] at hstored
        have hsrc' : BytesAt (poke (a0 + c.d2) cut.byte c.ram).byte (a3 + (c.d1 + cut.taken))
            ((x::xs).drop cut.taken ++ [0]) := by
          rw [← Nat.add_assoc]
          exact (within_poke _ _ _).bytesAt (BytesAt.drop hsrc htaken) (Or.inr (by omega))
        have hlength : ((x::xs).drop cut.taken).length + cut.taken = (x::xs).length := by
          rw [List.length_drop]; omega
        have hgo := ih
          (c := ⟨poke (a0 + c.d2) cut.byte c.ram,c.d1 + cut.taken,c.d2 + 1,cut.phase,cut.oquote⟩)
          (n := n) (by omega) (by omega) hsrc'
          (fun y hy => hnull y (List.mem_of_mem_drop hy)) (by simp only []; omega) hstored
          (by simp [hd2])
        cases hrest : pieces n cut.phase cut.oquote ((x::xs).drop cut.taken) with
        | none => simpa only [hrest, Option.map_none] using hgo
        | some ps =>
          simpa only [hrest, Option.map_some, List.map_cons, List.append_assoc,
            List.singleton_append] using hgo

/-- What the routine does with the line `s` at `a3` in the buffer at `a0`: it leaves the
crunched line with its end mark and padding, and a null long word behind it. -/
structure Crunches (a3 a0 fuel : ℕ) (s : List ℕ) (r : Ram) : Prop where
  lost : crunch s = none → crunchBuffer a3 a0 fuel r = none
  done : ∀ text, crunch s = some text →
    ∃ ram, crunchBuffer a3 a0 fuel r = some (ram,(lineBuffer text).length) ∧
      Stored a0 (lineBuffer text ++ bytes32 0) r ram

/-- Crunching in place gives the line as if it had been cut into pieces beforehand. -/
theorem crunch_inPlace {a3 a0 : ℕ} {r : Ram} (hsrc : BytesAt r.byte a3 (s ++ [0]))
    (hnull : ∀ x ∈ s, x ≠ 0) (hle : a0 ≤ a3) (hfuel : s.length < fuel) :
    Crunches a3 a0 fuel s r := by
  have h := crunchLoop_spec (c := ⟨r,0,0,.scan,0⟩) hfuel (Nat.le_refl _) hsrc hnull hle
    (Stored.nil a0 r) rfl
  simp only [List.nil_append] at h
  refine ⟨fun hnone => ?_,fun text htext => ?_⟩
  · have hps : pieces s.length .scan 0 s = none := Option.map_eq_none_iff.mp hnone
    rw [hps] at h
    exact h
  · obtain ⟨ps,hps,rfl⟩ := Option.map_eq_some_iff.mp htext
    have hps : pieces s.length .scan 0 s = some ps := hps
    rw [hps] at h
    exact h

/-- `PRINT A` behind a line number of two digits, moved down to the start of the buffer. -/
theorem crunch_inPlace_print : Crunches 2 0 8 [0x50,0x52,0x49,0x4E,0x54,0x20,0x41]
    (pokeBytes 2 ([0x50,0x52,0x49,0x4E,0x54,0x20,0x41] ++ [0]) ⟨fun _ => 0,[]⟩) :=
  crunch_inPlace (bytesAt_pokeBytes _ _ _) (by decide) (by decide) (by decide)

end Betawise.BasicCrunch
