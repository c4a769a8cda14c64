import Betawise.BasicProgram
import Betawise.EventRuns

/-!
# The block reserved for BASIC

`EhBASIC.inc` reserves `ram_size` bytes from `ram_base`, and the cold start puts the
end of memory `ram_size` bytes behind `prg_strt`. The 502 bytes between these two
ends are not reserved. They are where strings go first, and nothing keeps a new
line out of them.
-/
namespace Betawise.BasicReserve
open LoggedRam BasicMemory BasicProgram EventRuns

/-- All stores so far are in the block, and the regions are ordered. -/
structure Safe (ramBase : ℕ) (b : Basic) : Prop where
  inside : ∀ x ∈ b.ram.written, ramBase ≤ x ∧ x < ramBase + ramSize
  program : b.smeml ≤ b.sfncl
  arrays : b.sfncl ≤ b.earryl
  strings : b.earryl ≤ b.sstorl
  top : b.sstorl ≤ b.ememl

/-- The end of the program with the line entered: an old line of the number goes. -/
def entryEnd (number : ℕ) (text : List ℕ) (b : Basic) : ℕ :=
  match searchLine b.ram.byte number (b.sfncl - b.smeml) b.smeml with
  | some (true,a) => b.sfncl - (read32 b.ram.byte a - a) + lineSize text
  | _ => b.sfncl + lineSize text

/-- What is entered or allocated fits into the block. -/
def Fits (ramBase : ℕ) (b : Basic) : Event → Prop
  | .enter number text => text = [] ∨ entryEnd number text b ≤ ramBase + ramSize
  | .allocate content => content = [] ∨ b.earryl + evenLength content.length ≤ ramBase + ramSize
  | .pop => True

/-- The event ends in a safe state, and is refused if it does not fit. -/
def Held (ramBase : ℕ) (b : Basic) (e : Event) : Prop :=
  ∃ outcome b',step b e = some (outcome,b') ∧ Safe ramBase b' ∧
    (¬ Fits ramBase b e → outcome = .outOfMemory)

/-- Lines that fit, and strings that are empty or too long for the whole memory
from the arrays to `Ememl`; the subtraction must not wrap. -/
def Spared (ramBase : ℕ) (b : Basic) : Event → Prop
  | .enter number text => Fits ramBase b (.enter number text)
  | .allocate content =>
    content = [] ∨
      b.ememl - b.earryl < evenLength content.length ∧ evenLength content.length ≤ b.ememl
  | .pop => True

/-- Numbers of a long word, lines of the input buffer, and string lengths of a word. -/
def Legal : Event → Prop
  | .enter number text => number < 4294967296 ∧ (∀ c ∈ text, c ≠ 0) ∧ text.length ≤ 254
  | .allocate content => content.length < 65536
  | .pop => True

/-- While no string has been granted, all of the memory above the arrays is free. -/
structure Inv (ramBase : ℕ) (b : Basic) : Prop where
  program : ∃ lines,Holds b lines
  earryl : b.earryl = b.sfncl
  sstorl : b.sstorl = b.ememl
  stack : ∀ d ∈ b.stack, d.pointer = 0
  smeml : b.smeml = ramBase + prgStrt
  ememl : b.ememl = b.smeml + ramSize
  sfncl : b.sfncl ≤ ramBase + ramSize
  inside : ∀ x ∈ b.ram.written, ramBase ≤ x ∧ x < ramBase + ramSize

variable {ramBase : ℕ} {b : Basic}

theorem Inv.smeml_le (h : Inv ramBase b) : b.smeml ≤ b.sfncl := by
  obtain ⟨lines,hlines⟩ := h.program
  have := hlines.sfncl
  omega

theorem Inv.safe (h : Inv ramBase b) : Safe ramBase b where
  inside := h.inside
  program := h.smeml_le
  arrays := Nat.le_of_eq h.earryl.symm
  strings := by
    have := h.sfncl
    rw [h.earryl, h.sstorl, h.ememl, h.smeml]
    omega
  top := Nat.le_of_eq h.sstorl

/-- The descriptor stack may change as long as its strings are null. -/
theorem Inv.withStack (h : Inv ramBase b) {stack : List Descriptor}
    (hstack : ∀ d ∈ stack, d.pointer = 0) : Inv ramBase { b with stack := stack } := by
  obtain ⟨lines,hlines⟩ := h.program
  exact ⟨⟨lines,hlines.sorted,hlines.linked,hlines.marker,hlines.sfncl,hlines.even⟩,h.earryl,
    h.sstorl,hstack,h.smeml,h.ememl,h.sfncl,h.inside⟩

/-- A store outside the block. -/
theorem not_safe_of_mem {x : ℕ} (hx : x ∈ b.ram.written) (hout : ramBase + ramSize ≤ x) :
    ¬ Safe ramBase b :=
  fun h => Nat.not_lt.mpr hout (h.inside x hx).2

theorem coldStart_inv (byte : ℕ → ℕ) (heven : ramBase % 2 = 0) :
    Inv ramBase (coldStart ramBase byte) := by
  have hwithin₁ := within_pokeBytes (ramBase + prgStrt - 2) [0,0] ⟨byte,[]⟩
  have hwithin₂ := within_poke32 (ramBase + prgStrt) 0
    (pokeBytes (ramBase + prgStrt - 2) [0,0] ⟨byte,[]⟩)
  refine ⟨⟨[],List.Pairwise.nil,trivial,?_,rfl,?_⟩,rfl,rfl,nofun,rfl,rfl,?_,fun x hx => ?_⟩
  · exact read32_poke32 (ramBase + prgStrt) (by decide) _
  · change (ramBase + 502) % 2 = 0
    omega
  · change ramBase + 502 + 4 ≤ ramBase + 4096
    omega
  · rw [prgStrt_eq] at hwithin₁ hwithin₂
    change _ ∧ x < ramBase + 4096
    rcases hwithin₂.log x hx with hx | hx
    · rcases hwithin₁.log x hx with hx | hx
      · exact nomatch hx
      · simp only [List.length_cons, List.length_nil] at hx
        omega
    · omega

/-! ### Entries -/

/-- The program ends at `entryEnd` after a line has been entered. -/
theorem entryEnd_eq {lines : List Line} {n : ℕ} (h : Holds b lines) (l : Line) :
    b.smeml + programSize (entered n (some l) lines) + 4 = entryEnd n l.text b := by
  have hsfncl := h.sfncl
  have hnew : programSize (some l).toList = lineSize l.text := rfl
  rw [← split_lines h.sorted n] at hsfncl
  rw [entryEnd, h.search n, ← isSome_replaced]
  simp only [entered, programSize_append] at hsfncl ⊢
  cases hreplaced : replaced n lines with
  | none =>
    have hold : programSize (none : Option Line).toList = 0 := rfl
    rw [hreplaced] at hsfncl
    simp only [Option.isSome_none]
    omega
  | some k =>
    have hold : programSize (some k).toList = k.size := rfl
    have hread := h.link hreplaced
    rw [hreplaced] at hsfncl
    simp only [Option.isSome_some, hread]
    omega

theorem programSize_entered_le {lines : List Line} (h : Sorted lines) (n : ℕ)
    (new : Option Line) :
    programSize (entered n new lines) ≤ programSize lines + programSize new.toList := by
  conv_rhs => rw [← split_lines h n]
  simp only [entered, programSize_append]
  omega

/-- The entry of a legal line, from a state with the invariant. -/
theorem enter_spec (h : Inv ramBase b) (hroom : ramBase + 0x2000 ≤ 4294967296) {n : ℕ}
    {text : List ℕ} (hlegal : Legal (.enter n text)) :
    ∃ b',step b (.enter n text) = some (.done,clear b') ∧ (∃ lines,Holds b' lines) ∧
      b'.smeml = b.smeml ∧ b'.ememl = b.ememl ∧
      Within b.smeml (max b.sfncl b'.sfncl) b.ram b'.ram ∧
      (text = [] → b'.sfncl ≤ b.sfncl) ∧
      (text ≠ [] → b'.sfncl = entryEnd n text b ∧ b'.sfncl - 1 ∈ b'.ram.written) := by
  obtain ⟨hnumber,hnull,hlen⟩ := hlegal
  obtain ⟨lines,hlines⟩ := h.program
  have hsfncl := hlines.sfncl
  have hend : b.sfncl ≤ ramBase + 4096 := h.sfncl
  by_cases htext : text = []
  · have hsize := programSize_entered_le hlines.sorted n none
    have hnone : programSize (none : Option Line).toList = 0 := rfl
    obtain ⟨b',hb',hholds,hsmeml,hememl,hwithin,-⟩ :=
      enterLine_spec hlines (nofun : ∀ l ∈ (none : Option Line),l.number = n) (by omega)
    have hsfncl' := hholds.sfncl
    refine ⟨b',?_,⟨_,hholds⟩,hsmeml,hememl,hwithin,fun _ => by omega,fun hne => absurd htext hne⟩
    rw [htext, step]
    exact congrArg (Option.map fun b => (Outcome.done,b)) hb'
  · let l : Line := ⟨n,text,hnumber,htext,hnull⟩
    have hsize := programSize_entered_le hlines.sorted n (some l)
    have hone : programSize (some l).toList = 8 + (text.length + 1 + (text.length + 1) % 2) :=
      l.size_eq
    have hentered : ∀ k ∈ some l,k.number = n :=
      fun k hk => congrArg Line.number (Option.some.inj hk).symm
    obtain ⟨b',hb',hholds,hsmeml,hememl,hwithin,hlast⟩ :=
      enterLine_spec hlines hentered (by omega)
    refine ⟨b',?_,⟨_,hholds⟩,hsmeml,hememl,hwithin,fun hnil => absurd hnil htext,
      fun _ => ⟨?_,hlast rfl⟩⟩
    · rw [step]
      exact congrArg (Option.map fun b => (Outcome.done,b)) hb'
    · rw [hholds.sfncl, hsmeml]
      exact entryEnd_eq hlines l

theorem enter_keeps (h : Inv ramBase b) (hroom : ramBase + 0x2000 ≤ 4294967296) {n : ℕ}
    {text : List ℕ} (hlegal : Legal (.enter n text)) (hfits : Fits ramBase b (.enter n text)) :
    Held ramBase b (.enter n text) ∧ Inv ramBase (next b (.enter n text)) := by
  obtain ⟨b',hstep,hprogram,hsmeml,hememl,hwithin,hempty,hline⟩ := enter_spec h hroom hlegal
  have hsfncl := h.sfncl
  have hend : b'.sfncl ≤ ramBase + ramSize := by
    by_cases htext : text = []
    · exact (hempty htext).trans h.sfncl
    · rw [(hline htext).1]
      exact hfits.resolve_left htext
  have hinv : Inv ramBase (clear b') := by
    obtain ⟨lines,hlines⟩ := hprogram
    refine ⟨⟨lines,hlines.sorted,hlines.linked,hlines.marker,hlines.sfncl,hlines.even⟩,rfl,rfl,
      nofun,hsmeml.trans h.smeml,?_,hend,fun x hx => ?_⟩
    · exact hememl.trans (h.ememl.trans (by rw [← hsmeml]; rfl))
    · rcases hwithin.log x hx with hx | hx
      · exact h.inside x hx
      · have := h.smeml
        omega
  have hnext : next b (.enter n text) = clear b' := by rw [next, hstep]
  exact ⟨⟨.done,clear b',hstep,hinv.safe,fun hnot => absurd hfits hnot⟩,by rw [hnext]; exact hinv⟩

theorem enter_breaks (h : Inv ramBase b) (hroom : ramBase + 0x2000 ≤ 4294967296) {n : ℕ}
    {text : List ℕ} (hlegal : Legal (.enter n text)) (hheld : Held ramBase b (.enter n text)) :
    Fits ramBase b (.enter n text) := by
  obtain ⟨b',hstep,-,-,-,-,-,hline⟩ := enter_spec h hroom hlegal
  by_contra hfits
  obtain ⟨htext,hlong⟩ := not_or.mp hfits
  obtain ⟨hend,hlast⟩ := hline htext
  obtain ⟨outcome,b'',hstep',hsafe,-⟩ := hheld
  obtain ⟨-,rfl⟩ := Prod.mk.inj (Option.some.inj (hstep.symm.trans hstep'))
  have hout : ramBase + ramSize ≤ b'.sfncl - 1 := by omega
  exact not_safe_of_mem (b := clear b') hlast hout hsafe

/-! ### Allocations -/

theorem pushDescriptor_ram (d : Descriptor) (b : Basic) : (pushDescriptor d b).2.ram = b.ram := by
  unfold pushDescriptor
  split_ifs <;> rfl

/-- Null strings are not collected. -/
theorem scanStack_null {ds : List Descriptor} (h : ∀ d ∈ ds, d.pointer = 0) (i : ℕ) (c : Scan) :
    scanStack i ds c = c := by
  induction ds generalizing i with
  | nil => rfl
  | cons d ds ih =>
    have hd : d.pointer = 0 := h d List.mem_cons_self
    rw [scanStack, scanDescriptor, if_pos (Or.inl hd)]
    exact ih (fun k hk => h k (List.mem_cons_of_mem d hk)) _

theorem garbageCollect_null (h : Inv ramBase b) : garbageCollect b = some b := by
  have hsame : { b with sstorl := b.ememl } = b :=
    congrArg (fun s => { b with sstorl := s }) h.sstorl.symm
  rw [garbageCollect, collect, hsame, scanStack_null h.stack]

/-- A length that is refused stays refused after the garbage collection. -/
theorem makeSpace_eq (h : Inv ramBase b) (n : ℕ) :
    makeSpace n b =
      match tryReserve (evenLength n) b with
      | some (a,b') => some (some a,b')
      | none => some (none,b) := by
  unfold makeSpace
  rw [garbageCollect_null h]
  cases hr : tryReserve (evenLength n) b with
  | none => simp only [hr]
  | some r => rfl

theorem evenLength_bounds {n : ℕ} (hpos : 0 < n) (hlt : n < 65536) :
    n ≤ evenLength n ∧ evenLength n ≤ n + 1 ∧ 2 ≤ evenLength n ∧ evenLength n ≤ 65536 := by
  unfold evenLength
  omega

/-- Without a wrap, all lengths up to the free memory are granted. -/
theorem tryReserve_eq (h : Inv ramBase b) (hroom : ramBase + 0x2000 ≤ 4294967296) {n : ℕ}
    (hn : n ≤ 65536) :
    tryReserve n b =
      if b.ememl - b.earryl < n ∧ n ≤ b.ememl then none
      else some (sub32 b.ememl n,{ b with sstorl := sub32 b.ememl n }) := by
  have hsmeml : b.smeml = ramBase + 502 := h.smeml
  have hememl : b.ememl = b.smeml + 4096 := h.ememl
  have hsfncl : b.sfncl ≤ ramBase + 4096 := h.sfncl
  have hle := h.smeml_le
  have hearryl := h.earryl
  rw [tryReserve, h.sstorl]
  have hsub : sub32 b.ememl n = if n ≤ b.ememl then b.ememl - n else b.ememl + 4294967296 - n :=
    rfl
  by_cases hwrap : n ≤ b.ememl
  · rw [if_pos hwrap] at hsub
    by_cases hfree : b.ememl - b.earryl < n
    · rw [if_pos (by omega), if_pos ⟨hfree,hwrap⟩]
    · rw [if_neg (by omega), if_neg (fun hc => hfree hc.1)]
  · rw [if_neg hwrap] at hsub
    rw [if_neg (by omega), if_neg (fun hc => hwrap hc.2)]

theorem allocate_keeps (h : Inv ramBase b) (hroom : ramBase + 0x2000 ≤ 4294967296)
    {content : List ℕ} (hlegal : Legal (.allocate content))
    (hspared : Spared ramBase b (.allocate content)) :
    Held ramBase b (.allocate content) ∧ Inv ramBase (next b (.allocate content)) := by
  by_cases hnil : content = []
  · have hstep : step b (.allocate content) = some (pushDescriptor ⟨0,0⟩ b) := by
      rw [step, BasicMemory.allocate, if_pos hnil]
    have hinv : Inv ramBase (pushDescriptor ⟨0,0⟩ b).2 := by
      unfold pushDescriptor
      split_ifs
      · exact h.withStack nofun
      · refine h.withStack fun d hd => ?_
        rcases List.mem_cons.mp hd with rfl | hd
        · rfl
        · exact h.stack d hd
    have hnext : next b (.allocate content) = (pushDescriptor ⟨0,0⟩ b).2 := by rw [next, hstep]
    exact ⟨⟨_,_,hstep,hinv.safe,fun hnot => absurd (Or.inl hnil) hnot⟩,by rw [hnext]; exact hinv⟩
  · obtain ⟨-,-,-,hmax⟩ := evenLength_bounds (List.length_pos_of_ne_nil hnil) hlegal
    have hstep : step b (.allocate content) = some (warmStart .outOfMemory b) := by
      rw [step, BasicMemory.allocate, if_neg hnil, makeSpace_eq h, tryReserve_eq h hroom hmax,
        if_pos (hspared.resolve_left hnil)]
    have hinv : Inv ramBase (warmStart .outOfMemory b).2 := h.withStack nofun
    have hnext : next b (.allocate content) = (warmStart .outOfMemory b).2 := by rw [next, hstep]
    exact ⟨⟨_,_,hstep,hinv.safe,fun _ => rfl⟩,by rw [hnext]; exact hinv⟩

/-- A granted string is stored behind the block. -/
theorem allocate_breaks (h : Inv ramBase b) (hroom : ramBase + 0x2000 ≤ 4294967296)
    {content : List ℕ} (hlegal : Legal (.allocate content))
    (hheld : Held ramBase b (.allocate content)) : Spared ramBase b (.allocate content) := by
  by_contra hspared
  obtain ⟨hnil,hgranted⟩ := not_or.mp hspared
  have hpos := List.length_pos_of_ne_nil hnil
  obtain ⟨hmin,hodd,htwo,hmax⟩ := evenLength_bounds hpos hlegal
  have hsmeml : b.smeml = ramBase + 502 := h.smeml
  have hememl : b.ememl = b.smeml + 4096 := h.ememl
  obtain ⟨outcome,b',hstep,hsafe,-⟩ := hheld
  have hstored : ∀ a,tryReserve (evenLength content.length) b = some (a,{ b with sstorl := a }) →
      b'.ram = pokeBytes a content b.ram := fun a ha => by
    rw [step, BasicMemory.allocate, if_neg hnil, makeSpace_eq h, ha] at hstep
    rw [← (Prod.mk.inj (Option.some.inj hstep)).2]
    exact pushDescriptor_ram _ _
  have htry := tryReserve_eq h hroom hmax
  rw [if_neg hgranted] at htry
  have hsub : sub32 b.ememl (evenLength content.length) =
      if evenLength content.length ≤ b.ememl then b.ememl - evenLength content.length
      else b.ememl + 4294967296 - evenLength content.length :=
    rfl
  by_cases hwrap : evenLength content.length ≤ b.ememl
  · rw [if_pos hwrap] at hsub
    have hlast := mem_written_pokeBytes (sub32 b.ememl (evenLength content.length)) content b.ram
      (i := content.length - 1) (by omega)
    rw [← hstored _ htry] at hlast
    exact not_safe_of_mem hlast (show ramBase + 4096 ≤ _ by omega) hsafe
  · rw [if_neg hwrap] at hsub
    have hfirst := mem_written_pokeBytes (sub32 b.ememl (evenLength content.length)) content b.ram
      (i := 0) hpos
    rw [← hstored _ htry] at hfirst
    exact not_safe_of_mem hfirst (show ramBase + 4096 ≤ _ by omega) hsafe

/-! ### Runs -/

theorem pop_keeps (h : Inv ramBase b) : Inv ramBase (popDescriptor b) := by
  unfold popDescriptor
  split
  · exact h
  · rename_i d ds hstack
    have hnull : d.pointer = 0 := h.stack d (by rw [hstack]; exact List.mem_cons_self)
    have hle : 0 < b.sstorl := by
      have := h.ememl
      have := h.smeml
      rw [h.sstorl, h.ememl, h.smeml, prgStrt_eq]
      omega
    rw [if_neg (by omega)]
    exact h.withStack fun k hk => h.stack k (by rw [hstack]; exact List.mem_cons_of_mem d hk)

theorem event_keeps (hroom : ramBase + 0x2000 ≤ 4294967296) (b : Basic) (e : Event)
    (h : Inv ramBase b) (hlegal : Legal e) (hspared : Spared ramBase b e) :
    Held ramBase b e ∧ Inv ramBase (next b e) := by
  cases e with
  | enter n text => exact enter_keeps h hroom hlegal hspared
  | allocate content => exact allocate_keeps h hroom hlegal hspared
  | pop =>
    have hinv := pop_keeps h
    exact ⟨⟨.done,popDescriptor b,rfl,hinv.safe,fun hnot => absurd trivial hnot⟩,hinv⟩

theorem event_breaks (hroom : ramBase + 0x2000 ≤ 4294967296) (b : Basic) (e : Event)
    (h : Inv ramBase b) (hlegal : Legal e) (hheld : Held ramBase b e) : Spared ramBase b e := by
  cases e with
  | enter n text => exact enter_breaks h hroom hlegal hheld
  | allocate content => exact allocate_breaks h hroom hlegal hheld
  | pop => trivial

/-- The memory of BASIC stays in its block, and what does not fit is refused, exactly
in the runs that only enter lines that fit and only ask for strings that are empty or
longer than all of the free memory. -/
theorem held_iff_spared (byte : ℕ → ℕ) (heven : ramBase % 2 = 0)
    (hroom : ramBase + 0x2000 ≤ 4294967296) (es : List Event) (hlegal : ∀ e ∈ es, Legal e) :
    (Safe ramBase (coldStart ramBase byte) ∧
        Along next (Held ramBase) (coldStart ramBase byte) es) ↔
      Along next (Spared ramBase) (coldStart ramBase byte) es := by
  have hinv := coldStart_inv byte heven
  rw [and_iff_right hinv.safe]
  exact along_iff_along (event_keeps hroom) (event_breaks hroom) hinv hlegal

/-- A line entered, replaced and deleted in a block at 65536, a null string, and a line of
a number from 2^31 on. -/
theorem held_iff_spared_edits :
    Safe 65536 (coldStart 65536 fun _ => 0) ∧
      Along next (Held 65536) (coldStart 65536 fun _ => 0)
        [.enter 10 [0x9D,0x31],.allocate [],.pop,.enter 10 [0x80],.enter 3000000000 [0x80],
          .enter 10 []] := by
  refine (held_iff_spared (fun _ => 0) (by decide) (by decide) _ ?_).mpr ?_
  · simp [Legal]
  · refine ⟨Or.inr ?_,Or.inl rfl,trivial,Or.inr ?_,Or.inr ?_,Or.inl rfl,trivial⟩
    · decide +kernel
    · decide +kernel
    · decide +kernel

/-- The first string of a length from 1 is stored behind the block. -/
theorem firstString_leaves_block :
    ¬ ∀ es : List Event,(∀ e ∈ es, Legal e) →
      Safe 65536 (coldStart 65536 fun _ => 0) ∧
        Along next (Held 65536) (coldStart 65536 fun _ => 0) es := by
  intro hclaim
  have hwritten : (step (coldStart 65536 fun _ => 0) (.allocate [0x41])).map
      (fun r => r.2.ram.written.head?) = some (some 70132) := by
    decide +kernel
  obtain ⟨-,⟨outcome,b',hstep,hsafe,-⟩,-⟩ := hclaim [.allocate [0x41]] (by simp [Legal])
  rw [hstep] at hwritten
  have hmem : 70132 ∈ b'.ram.written := List.mem_of_mem_head? (Option.some.inj hwritten)
  exact not_safe_of_mem hmem (by decide) hsafe

end Betawise.BasicReserve
