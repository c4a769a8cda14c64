import Betawise.BasicArrays
import Betawise.BasicMemory
import Betawise.SlidingHeap

/-!
# Strings in memory

A string descriptor is a pointer and a length. Descriptors stand in the string variables,
in the string arrays and on the descriptor stack, and the strings between the arrays and
`Ememl`; strings of the program are pointed to where they are. `LAB_GARB` slides the
strings up until no gap is left between them.
-/
namespace Betawise.BasicStringHeap
open LoggedRam BasicVariables BasicArrays SlidingHeap
open BasicMemory (evenLength sub32)

/-! ### The descriptors -/

/-- `LAB_2161` and `LAB_2176`: descriptors 10 bytes apart while they are below `a2`, and
where the loop ends. -/
def stringDescriptors (a2 : ℕ) : ℕ → ℕ → Option (List ℕ × ℕ)
  | 0,_ => none
  | fuel + 1,a0 =>
    if a0 < a2 then
      (stringDescriptors a2 fuel (a0 + 10)).map fun (as,e) => (a0::as,e)
    else some ([],a0)

/-- `LAB_2183`, `LAB_21C2`: descriptors 6 bytes apart up to `e`. -/
def packedDescriptors (e : ℕ) : ℕ → ℕ → Option (List ℕ)
  | 0,_ => none
  | fuel + 1,a0 => if a0 = e then some [] else (packedDescriptors e fuel (a0 + 6)).map (a0::·)

/-- `LAB_217E` and `LAB_218F`: the elements of the string arrays. There is at least one in
each. -/
def arrayDescriptors (byte : ℕ → ℕ) (a2 : ℕ) : ℕ → ℕ → Option (List ℕ)
  | 0,_ => none
  | fuel + 1,a0 =>
    if a0 = a2 then some []
    else
      let d2 := a0 + read32 byte (a0 + 4)
      match arrayDescriptors byte a2 fuel d2 with
      | none => none
      | some rest =>
        if isString (read32 byte a0) then
          let first := a0 + 2 * read16 byte (a0 + 8) + 10
          (packedDescriptors d2 (d2 - first) (first + 6)).map (first::· ++ rest)
        else some rest

/-- The descriptors of the variables and of the array elements, as far as `LAB_218F`. -/
def slotDescriptors (b : Store) : Option (List ℕ) :=
  match stringDescriptors b.sarryl (b.sarryl - b.sstrl + 1) (b.sstrl + 4) with
  | none => none
  | some (strings,a0) =>
    (arrayDescriptors b.ram.byte b.earryl (b.earryl - b.sarryl + 1) (a0 - 4)).map (strings ++ ·)

/-- The descriptors in the order of the scan. -/
def descriptors (b : Store) : Option (List ℕ) :=
  match slotDescriptors b with
  | none => none
  | some slots => (packedDescriptors b.desSk (b.desSk - b.a4 + 1) b.a4).map (slots ++ ·)

/-! ### The collection -/

/-- `LAB_2206`. The negated word of a null length is 0, so that its sign extension counts
as 65536. -/
def testString (byte : ℕ → ℕ) (a0 : ℕ) (c : Scan ℕ) : Scan ℕ :=
  let d0 := read32 byte a0
  if d0 = 0 ∨ d0 ≤ c.highest ∨ c.bottom ≤ d0 then c
  else
    let length := read16 byte (a0 + 4)
    let packed := sub32 c.bottom (if length = 0 then 65536 else evenLength length)
    if packed = d0 then { c with bottom := packed } else { c with highest := d0, move := some a0 }

def testStrings (byte : ℕ → ℕ) : List ℕ → Scan ℕ → Scan ℕ
  | [],c => c
  | a::as,c => testStrings byte as (testString byte a c)

/-- From the end of the search to `LAB_2240`. -/
def moveString (a1 : ℕ) (b : Store) : Store :=
  let a0 := read32 b.ram.byte a1
  let d1 := evenLength (read16 b.ram.byte (a1 + 4))
  if a0 + d1 = b.sstorl then { b with sstorl := a0 }
  else
    -- the counter of a loop over no words wraps around
    let words := if d1 = 0 then 65536 else d1 / 2
    let ram := copyDown words (a0 + d1) b.sstorl b.ram
    { b with ram := poke32 a1 (b.sstorl - d1) ram, sstorl := b.sstorl - d1 }

/-- `LAB_214B`. -/
def collectStrings : ℕ → Store → Option Store
  | 0,_ => none
  | fuel + 1,b =>
    match descriptors b with
    | none => none
    | some as =>
      let c := testStrings b.ram.byte as ⟨b.earryl,none,b.sstorl⟩
      match c.move with
      | none => some { b with sstorl := c.bottom }
      | some a1 => collectStrings fuel (moveString a1 { b with sstorl := c.bottom })

/-- `LAB_GARB`. -/
def garb (b : Store) : Option Store :=
  match descriptors b with
  | none => none
  | some as => collectStrings (as.length + 1) { b with sstorl := b.ememl }

/-! ### The collector and the sliding heap -/

variable {b b' b₀ : Store} {as : List ℕ} {h : Heap ℕ}

/-- The space of the string of a descriptor, a whole number of words. -/
def space (byte : ℕ → ℕ) (a : ℕ) : ℕ := evenLength (read16 byte (a + 4))

/-- An address that is not in the pointer of a descriptor. -/
def Elsewhere (as : List ℕ) (x : ℕ) : Prop := ∀ a ∈ as, x < a ∨ a + 4 ≤ x

/-- An address that is in no descriptor. -/
def Outside (as : List ℕ) (x : ℕ) : Prop := ∀ a ∈ as, x < a ∨ a + 6 ≤ x

theorem Outside.elsewhere {as : List ℕ} {x : ℕ} (h : Outside as x) : Elsewhere as x :=
  fun a ha => by
    have := h a ha
    omega

/-- Descriptors do not overlap. -/
def Separate (as : List ℕ) : Prop :=
  ∀ a ∈ as, ∀ a' ∈ as, a ≠ a' → a + 6 ≤ a' ∨ a' + 6 ≤ a

/-- The descriptors are below the heap and do not overlap, and where they are does not
depend on their pointers. The strings do not overlap either. -/
structure Strings (b : Store) (as : List ℕ) : Prop where
  walk : ∀ byte, (∀ x, x < b.earryl → Elsewhere as x → byte x = b.ram.byte x) →
    descriptors { b with ram := { b.ram with byte := byte } } = some as
  below : ∀ a ∈ as, a + 6 ≤ b.earryl
  separate : Separate as
  laid : Laid b.earryl b.ememl (space b.ram.byte) as (read32 b.ram.byte)
  length_lt : ∀ a ∈ as, read16 b.ram.byte (a + 4) < 65536
  earryl_le : b.earryl ≤ b.ememl
  ememl_lt : b.ememl < 4294967296

/-- The state of the interpreter and that of the sliding heap, from the start `b₀`. -/
structure Refines (b₀ : Store) (as : List ℕ) (b : Store) (h : Heap ℕ) : Prop where
  pointer : ∀ a ∈ as, read32 b.ram.byte a = h.pointer a
  heap : ∀ x, b₀.earryl ≤ x → b.ram.byte x = h.byte x
  bottom : b.sstorl = h.bottom
  frame : ∀ x, x < b₀.earryl → Elsewhere as x → b.ram.byte x = b₀.ram.byte x
  same : { b with ram := b₀.ram, sstorl := b₀.sstorl } = b₀

/-- The lengths do not change. -/
theorem Refines.space (hs : Strings b₀ as) (hr : Refines b₀ as b h) {a : ℕ} (ha : a ∈ as) :
    read16 b.ram.byte (a + 4) = read16 b₀.ram.byte (a + 4) := by
  have hbelow := hs.below a ha
  have helse : ∀ i < 2, Elsewhere as (a + 4 + i) := by
    intro i hi a' ha'
    by_cases hne : a = a'
    · subst hne
      exact Or.inr (by omega)
    · have := hs.separate a ha a' ha' hne
      omega
  have h0 := hr.frame (a + 4 + 0) (by omega) (helse 0 (by omega))
  have h1 := hr.frame (a + 4 + 1) (by omega) (helse 1 (by omega))
  simp only [Nat.add_zero] at h0
  simp only [read16, h0, h1]

theorem testString_eq (hs : Strings b₀ as) (hr : Refines b₀ as b h) {a : ℕ} (ha : a ∈ as)
    {c : Scan ℕ} (hc : b₀.earryl ≤ c.highest)
    (hpos : b₀.earryl < h.pointer a → 0 < space b₀.ram.byte a) :
    testString b.ram.byte a c = visit (space b₀.ram.byte) h.pointer a c := by
  have hlt := hs.length_lt a ha
  have hspace : evenLength (read16 b₀.ram.byte (a + 4)) = space b₀.ram.byte a := rfl
  simp only [testString, visit, hr.pointer a ha, hr.space hs ha, hspace]
  by_cases hskip : h.pointer a ≤ c.highest ∨ c.bottom ≤ h.pointer a
  · rw [if_pos (Or.inr hskip), if_pos hskip]
  · have hsize := hpos (by omega)
    have hne : read16 b₀.ram.byte (a + 4) ≠ 0 := fun hzero => by
      rw [← hspace, hzero] at hsize
      exact absurd hsize (by decide)
    have hbound : space b₀.ram.byte a ≤ 65536 := by
      rw [← hspace, evenLength]
      omega
    rw [if_neg (by omega), if_neg hskip, if_neg hne]
    have hiff : sub32 c.bottom (space b₀.ram.byte a) = h.pointer a ↔
        h.pointer a + space b₀.ram.byte a = c.bottom := by
      unfold sub32
      split_ifs <;> omega
    by_cases hplace : h.pointer a + space b₀.ram.byte a = c.bottom
    · rw [if_pos (hiff.mpr hplace), if_pos hplace, hiff.mpr hplace]
    · rw [if_neg fun h => hplace (hiff.mp h), if_neg hplace]

theorem testStrings_eq (hs : Strings b₀ as) (hr : Refines b₀ as b h) {is : List ℕ}
    (his : ∀ a ∈ is, a ∈ as) {c : Scan ℕ} (hc : b₀.earryl ≤ c.highest)
    (hpos : ∀ a ∈ as, b₀.earryl < h.pointer a → 0 < space b₀.ram.byte a) :
    testStrings b.ram.byte is c = scan (space b₀.ram.byte) h.pointer is c := by
  induction is generalizing c with
  | nil => rfl
  | cons a is ih =>
    obtain ⟨ha,his⟩ := List.forall_mem_cons.mp his
    rw [testStrings, scan, testString_eq hs hr ha hc (hpos a ha)]
    refine ih his ?_
    unfold visit
    split_ifs
    · exact hc
    · exact hc
    · show b₀.earryl ≤ h.pointer a
      omega

/-- One string moved. -/
theorem moveString_refines (hs : Strings b₀ as) (hr : Refines b₀ as b h) {a : ℕ}
    (hnext : Next b₀.earryl as a h) (hpos : 0 < space b₀.ram.byte a)
    (hpacked : Packed b₀.earryl b₀.ememl (space b₀.ram.byte) as h.pointer h.bottom) :
    Refines b₀ as (moveString a b) (slide (space b₀.ram.byte) a h) := by
  have hlen := hr.space hs hnext.mem
  have hp := hr.pointer a hnext.mem
  have hbelow := hs.below a hnext.mem
  have hfit := hpacked.below a hnext.mem hnext.live hnext.below
  have hlive := hnext.live
  have htop := hpacked.le_top
  have hmem := hs.ememl_lt
  have hbottom := hr.bottom
  have heven : evenLength (read16 b.ram.byte (a + 4)) % 2 = 0 := by
    unfold evenLength
    omega
  have hspace : evenLength (read16 b.ram.byte (a + 4)) = space b₀.ram.byte a := by
    rw [hlen]
    rfl
  rw [hspace] at heven
  generalize hn : space b₀.ram.byte a = n at *
  have hslide : ∀ x, (slide (space b₀.ram.byte) a h).byte x =
      if h.bottom - n ≤ x ∧ x < h.bottom then h.byte (x - (h.bottom - n - h.pointer a))
      else h.byte x := by
    intro x
    rw [← hn]
    rfl
  have hself : (slide (space b₀.ram.byte) a h).pointer a = h.bottom - n := by
    rw [slide_pointer_self, hn]
  by_cases hplace : h.pointer a + n = h.bottom
  · have hmove : moveString a b = { b with sstorl := h.pointer a } := by
      simp only [moveString, hp, hspace, hbottom, if_pos hplace]
    rw [hmove]
    refine ⟨fun a' ha' => ?_,fun x hx => ?_,?_,hr.frame,?_⟩
    · by_cases hne : a' = a
      · subst hne
        rw [hself]
        show read32 b.ram.byte a' = _
        omega
      · rw [slide_pointer_of_ne hne]
        exact hr.pointer a' ha'
    · rw [hslide, hr.heap x hx]
      split_ifs
      · congr 1
        omega
      · rfl
    · show h.pointer a = h.bottom - space b₀.ram.byte a
      omega
    · exact hr.same
  · have hmove : moveString a b =
        { b with
          ram := poke32 a (h.bottom - n) (copyDown (n / 2) (h.pointer a + n) h.bottom b.ram)
          sstorl := h.bottom - n } := by
      simp only [moveString, hp, hspace, hbottom, if_neg hplace, if_neg (Nat.ne_of_gt hpos)]
    rw [hmove]
    have hcopy := within_copyDown (n / 2) (h.pointer a + n) h.bottom (by omega) b.ram
    have hpoke := within_poke32 a (h.bottom - n)
      (copyDown (n / 2) (h.pointer a + n) h.bottom b.ram)
    refine ⟨fun a' ha' => ?_,fun x hx => ?_,?_,fun x hx helse => ?_,?_⟩
    · by_cases hne : a' = a
      · subst hne
        rw [hself]
        exact read32_poke32 a' (by omega) _
      · rw [slide_pointer_of_ne hne, ← hr.pointer a' ha']
        have hapart := hs.separate a' ha' a hnext.mem hne
        have hbelow' := hs.below a' ha'
        exact (hpoke.read32 (by omega)).trans (hcopy.read32 (by omega))
    · show (poke32 a (h.bottom - n) _).byte x = _
      rw [hpoke.frame x (by omega), copyDown_byte _ _ _ (by omega) (by omega), hslide]
      by_cases hin : h.bottom - n ≤ x ∧ x < h.bottom
      · rw [if_pos (by omega), if_pos hin, ← hr.heap _ (by omega)]
        congr 1
        omega
      · rw [if_neg (by omega), if_neg hin, hr.heap x hx]
    · show h.bottom - n = h.bottom - space b₀.ram.byte a
      rw [hn]
    · show (poke32 a (h.bottom - n) _).byte x = _
      have := helse a hnext.mem
      rw [hpoke.frame x (by omega), hcopy.frame x (by omega)]
      exact hr.frame x hx helse
    · exact hr.same

/-- The bytes of the string of a descriptor. -/
def content (b : Store) (a : ℕ) : List ℕ :=
  bytesFrom b.ram.byte (read32 b.ram.byte a) (read16 b.ram.byte (a + 4))

/-- The string is between the arrays and `Ememl`. -/
def InHeap (b : Store) (a : ℕ) : Prop := b.earryl < read32 b.ram.byte a

/-- The strings of the heap may have moved, and all else is as it was. -/
structure Moved (b : Store) (as : List ℕ) (b' : Store) : Prop where
  strings : Strings b' as
  content : ∀ a ∈ as, InHeap b a → content b' a = content b a
  inHeap : ∀ a ∈ as, InHeap b' a ↔ InHeap b a
  length : ∀ a ∈ as, read16 b'.ram.byte (a + 4) = read16 b.ram.byte (a + 4)
  others : ∀ a ∈ as, ¬ InHeap b a → read32 b'.ram.byte a = read32 b.ram.byte a
  frame : ∀ x, x < b.earryl → Elsewhere as x → b'.ram.byte x = b.ram.byte x
  same : { b' with ram := b.ram, sstorl := b.sstorl } = b

/-- What a collection does: the strings stand in place, without a gap. -/
structure Collected (b : Store) (as : List ℕ) (b' : Store) : Prop extends Moved b as b' where
  place : ∀ a ∈ as, InHeap b' a → b'.sstorl ≤ read32 b'.ram.byte a
  full : Packed b.earryl b.ememl (space b'.ram.byte) as (read32 b'.ram.byte) b'.sstorl
  outside : ∀ x, b.earryl ≤ x → x < b'.sstorl ∨ b.ememl ≤ x → b'.ram.byte x = b.ram.byte x

theorem collectStrings_spec {fuel : ℕ} (hs : Strings b₀ as) (hr : Refines b₀ as b h)
    (hlaid : Laid b₀.earryl b₀.ememl (space b₀.ram.byte) as h.pointer)
    (hpacked : Packed b₀.earryl b₀.ememl (space b₀.ram.byte) as h.pointer h.bottom) {h' : Heap ℕ}
    (hcollect : collect b₀.earryl (space b₀.ram.byte) as fuel h = some h') :
    ∃ b', collectStrings fuel b = some b' ∧ Refines b₀ as b' h' := by
  induction fuel generalizing b h with
  | zero => exact absurd hcollect (by simp [collect])
  | succ fuel ih =>
    have hwalk : descriptors b = some as := by
      rw [← hs.walk b.ram.byte hr.frame]
      conv_rhs => rw [← hr.same]
      rfl
    have hearryl : b.earryl = b₀.earryl := (congrArg Store.earryl hr.same :)
    have hscan := scan_spec hlaid hpacked
    have hlive : ∀ a ∈ as, b₀.earryl < h.pointer a → 0 < space b₀.ram.byte a := hlaid.size_pos
    have htest : testStrings b.ram.byte as ⟨b.earryl,none,b.sstorl⟩ =
        scan (space b₀.ram.byte) h.pointer as ⟨b₀.earryl,none,h.bottom⟩ := by
      rw [hearryl, hr.bottom]
      exact testStrings_eq hs hr (fun a ha => ha) (Nat.le_refl _) hlive
    simp only [collect] at hcollect
    simp only [collectStrings, hwalk, htest]
    generalize scan (space b₀.ram.byte) h.pointer as ⟨b₀.earryl,none,h.bottom⟩ = c at hscan hcollect
    have hlower : Refines b₀ as { b with sstorl := c.bottom } { h with bottom := c.bottom } :=
      ⟨hr.pointer,hr.heap,rfl,hr.frame,hr.same⟩
    cases hmove : c.move with
    | none =>
      rw [hmove] at hcollect
      obtain rfl := Option.some.inj hcollect
      exact ⟨_,rfl,hlower⟩
    | some a =>
      rw [hmove] at hcollect
      obtain ⟨ha,hlow,heq,hlt⟩ := hscan.some a hmove
      have hnext : Next b₀.earryl as a { h with bottom := c.bottom } :=
        ⟨ha,hlow,by show h.pointer a < c.bottom; omega,
          fun j hj hjlow => by have := hscan.done j hj hjlow; simpa [heq] using this⟩
      exact ih (moveString_refines hs hlower hnext (hlive a ha hlow) hscan.packed)
        (slide_laid hnext hlaid hscan.packed) (slide_packed hnext hlaid hscan.packed) hcollect

theorem bytesFrom_congr {byte byte' : ℕ → ℕ} {a a' n : ℕ}
    (h : ∀ i < n, byte' (a' + i) = byte (a + i)) : bytesFrom byte' a' n = bytesFrom byte a n :=
  List.map_congr_left fun i hi => h i (List.mem_range.mp hi)

theorem length_le_space (byte : ℕ → ℕ) (a : ℕ) : read16 byte (a + 4) ≤ space byte a :=
  Nat.le_add_right _ _

/-- Before a collection no string is in place. -/
theorem packed_top (hs : Strings b as) :
    Packed b.earryl b.ememl (space b.ram.byte) as (read32 b.ram.byte) b.ememl where
  le_top := Nat.le_refl _
  below a ha hlive _ := hs.laid.bounded a ha hlive
  full _ hx hx' := absurd hx (Nat.not_le_of_lt hx')

/-- The garbage collection ends, keeps every string and leaves no gap. -/
theorem garb_spec (hs : Strings b as) : ∃ b', garb b = some b' ∧ Collected b as b' := by
  let h₀ : Heap ℕ := ⟨b.ram.byte,read32 b.ram.byte,b.ememl⟩
  have hwaiting : (waiting b.earryl as h₀).card < as.length + 1 :=
    Nat.lt_succ_of_le ((Finset.card_filter_le _ _).trans (List.toFinset_card_le as))
  obtain ⟨h',hcollect,hlaid,hpacked,hkept,hend⟩ :=
    collect_spec (h := h₀) hs.laid (packed_top hs) hwaiting
  have hr₀ : Refines b as { b with sstorl := b.ememl } h₀ :=
    ⟨fun _ _ => rfl,fun _ _ => rfl,rfl,fun _ _ _ => rfl,rfl⟩
  obtain ⟨b',hb',hr⟩ := collectStrings_spec hs hr₀ hs.laid (packed_top hs) hcollect
  have hwalk : descriptors b = some as := hs.walk b.ram.byte fun _ _ _ => rfl
  have hgarb : garb b = some b' := by
    rw [garb, hwalk]
    exact hb'
  have hearryl : b'.earryl = b.earryl := (congrArg Store.earryl hr.same :)
  have hememl : b'.ememl = b.ememl := (congrArg Store.ememl hr.same :)
  have hlen : ∀ a ∈ as, read16 b'.ram.byte (a + 4) = read16 b.ram.byte (a + 4) :=
    fun a ha => hr.space hs ha
  have hspace : ∀ a ∈ as, space b'.ram.byte a = space b.ram.byte a :=
    fun a ha => congrArg evenLength (hlen a ha)
  have hstrings : Strings b' as := by
    refine ⟨fun byte hbyte => ?_,?_,hs.separate,?_,fun a ha => ?_,?_,?_⟩
    · rw [hearryl] at hbyte
      rw [← hs.walk byte fun x hx helse => (hbyte x hx helse).trans (hr.frame x hx helse)]
      conv_rhs => rw [← hr.same]
      rfl
    · rw [hearryl]
      exact hs.below
    · rw [hearryl, hememl]
      exact hlaid.congr hspace hr.pointer
    · rw [hlen a ha]
      exact hs.length_lt a ha
    · rw [hearryl, hememl]
      exact hs.earryl_le
    · rw [hememl]
      exact hs.ememl_lt
  have hin : ∀ a ∈ as, InHeap b' a ↔ InHeap b a := by
    intro a ha
    rw [InHeap, hearryl, hr.pointer a ha]
    constructor
    · intro hlive
      by_contra hnot
      rw [hkept.none a ha (Nat.le_of_not_lt hnot)] at hlive
      exact hnot hlive
    · exact hkept.some a ha
  refine ⟨b',hgarb,⟨hstrings,fun a ha hlive => ?_,hin,hlen,fun a ha hnot => ?_,hr.frame,
    hr.same⟩,fun a ha hlive => ?_,?_,fun x hx hout => ?_⟩
  · have hlive' : b.earryl < h'.pointer a := hkept.some a ha hlive
    rw [content, content, hlen a ha, hr.pointer a ha]
    refine bytesFrom_congr fun i hi => ?_
    have hi' : i < space b.ram.byte a := Nat.lt_of_lt_of_le hi (length_le_space _ _)
    rw [hr.heap _ (by omega)]
    exact hkept.bytes a ha hlive i hi'
  · rw [hr.pointer a ha]
    exact hkept.none a ha (Nat.le_of_not_lt hnot)
  · rw [InHeap, hearryl, hr.pointer a ha] at hlive
    rw [hr.bottom, hr.pointer a ha]
    exact hend a ha hlive
  · rw [hr.bottom]
    exact hpacked.congr hspace hr.pointer
  · rw [hr.heap x hx]
    exact hkept.outside x (hr.bottom ▸ hout)

theorem content_congr {a : ℕ} (hp : read32 b'.ram.byte a = read32 b.ram.byte a)
    (hl : read16 b'.ram.byte (a + 4) = read16 b.ram.byte (a + 4))
    (hbytes : ∀ i < read16 b.ram.byte (a + 4),
      b'.ram.byte (read32 b.ram.byte a + i) = b.ram.byte (read32 b.ram.byte a + i)) :
    content b' a = content b a := by
  rw [content, content, hp, hl]
  exact bytesFrom_congr hbytes

/-- A store into free memory of the heap leaves the strings alone. -/
theorem Strings.write (hs : Strings b as) {lo hi : ℕ} {m : Ram}
    (hw : Within lo hi b.ram m) (hlo : b.earryl ≤ lo)
    (hfree : ∀ a ∈ as, InHeap b a →
      read32 b.ram.byte a + space b.ram.byte a ≤ lo ∨ hi ≤ read32 b.ram.byte a) :
    Moved b as { b with ram := m } := by
  have hframe : ∀ x, x < b.earryl → m.byte x = b.ram.byte x := fun x hx => hw.frame x (by omega)
  have hpointer : ∀ a ∈ as, read32 m.byte a = read32 b.ram.byte a := fun a ha =>
    read32_congr fun i hi => hframe _ (by have := hs.below a ha; omega)
  have hlength : ∀ a ∈ as, read16 m.byte (a + 4) = read16 b.ram.byte (a + 4) := fun a ha => by
    have := hs.below a ha
    rw [read16, read16, hframe _ (by omega), hframe _ (by omega)]
  refine
    { strings :=
        { walk := fun byte hsame => ?_
          below := hs.below
          separate := hs.separate
          laid := hs.laid.congr (fun a ha => congrArg evenLength (hlength a ha)) hpointer
          length_lt := fun a ha => ?_
          earryl_le := hs.earryl_le
          ememl_lt := hs.ememl_lt }
      content := fun a ha hlive => ?_
      inHeap := fun a ha => ?_
      length := hlength
      others := fun a ha _ => hpointer a ha
      frame := fun x hx _ => hframe x hx
      same := rfl }
  · exact hs.walk byte fun x hx helse => (hsame x hx helse).trans (hframe x hx)
  · change read16 m.byte (a + 4) < 65536
    rw [hlength a ha]
    exact hs.length_lt a ha
  · refine content_congr (hpointer a ha) (hlength a ha) fun i hi => hw.frame _ ?_
    have := hfree a ha hlive
    have := length_le_space b.ram.byte a
    omega
  · rw [InHeap, InHeap]
    change b.earryl < read32 m.byte a ↔ _
    rw [hpointer a ha]

/-! ### Space for a string -/

/-- `LAB_2117`, with an unsigned comparison. -/
def tryReserve (length : ℕ) (b : Store) : Option (ℕ × Store) :=
  let a0 := sub32 b.sstorl length
  if a0 < b.earryl then none else some (a0,{ b with sstorl := a0 })

/-- `LAB_2115`: the address of the new string, or nothing for an out of memory error; the
null string needs no space. -/
def makeSpace (length : ℕ) (b : Store) : Option (Option ℕ × Store) :=
  if length = 0 then some (some 0,b)
  else
    match tryReserve (evenLength length) b with
    | some (a0,b) => some (some a0,b)
    | none =>
      match garb b with
      | none => none
      | some b =>
        match tryReserve (evenLength length) b with
        | some (a0,b) => some (some a0,b)
        | none => some (none,b)

/-- All strings of the heap are above its bottom. -/
structure Above (b : Store) (as : List ℕ) : Prop where
  strings : Strings b as
  above : ∀ a ∈ as, InHeap b a → b.sstorl ≤ read32 b.ram.byte a
  bottom : b.earryl ≤ b.sstorl
  top : b.sstorl ≤ b.ememl

/-- The bytes that strings take up. -/
def usedSpace (b : Store) (as : List ℕ) : ℕ :=
  used b.earryl (space b.ram.byte) as (read32 b.ram.byte)

/-- `n` bytes from the bottom on belong to no string. -/
structure Granted (b : Store) (as : List ℕ) (n : ℕ) (b' : Store) : Prop extends
    Moved b as b' where
  free : ∀ a ∈ as, InHeap b' a → b'.sstorl + n ≤ read32 b'.ram.byte a
  bottom : b.earryl ≤ b'.sstorl
  top : b'.sstorl + n ≤ b.ememl
  outside : ∀ x, b.earryl ≤ x → x < b'.sstorl + n ∨ b.ememl ≤ x → b'.ram.byte x = b.ram.byte x

theorem Moved.earryl (hm : Moved b as b') : b'.earryl = b.earryl :=
  (congrArg Store.earryl hm.same :)

theorem Moved.ememl (hm : Moved b as b') : b'.ememl = b.ememl :=
  (congrArg Store.ememl hm.same :)

/-- The bottom is the start of a string or the end of the memory. -/
theorem Collected.bottom (hc : Collected b as b') :
    b.earryl < b'.sstorl ∨ b'.sstorl = b.ememl := by
  have hle := hc.full.le_top
  by_cases hlt : b'.sstorl < b.ememl
  · obtain ⟨a,-,hlow,-,ha,-⟩ := hc.full.full b'.sstorl (Nat.le_refl _) hlt
    omega
  · omega

theorem Collected.above (hc : Collected b as b') : Above b' as := by
  have hearryl := hc.earryl
  have hememl := hc.ememl
  have hle := hc.strings.earryl_le
  have hbottom := hc.bottom
  exact ⟨hc.strings,hc.place,by omega,by rw [hememl]; exact hc.full.le_top⟩

theorem Moved.usedSpace (hm : Moved b as b') : usedSpace b' as = usedSpace b as := by
  have hfilter : (as.toFinset.filter fun a => b'.earryl < read32 b'.ram.byte a) =
      as.toFinset.filter fun a => b.earryl < read32 b.ram.byte a :=
    Finset.filter_congr fun a ha => hm.inHeap a (List.mem_toFinset.mp ha)
  refine Finset.sum_congr hfilter fun a ha => ?_
  have ha := List.mem_toFinset.mp (Finset.mem_filter.mp ha).1
  exact congrArg evenLength (hm.length a ha)

theorem Collected.usedSpace (hc : Collected b as b') :
    usedSpace b as = b.ememl - b'.sstorl := by
  have hlaid : Laid b.earryl b.ememl (space b'.ram.byte) as (read32 b'.ram.byte) := by
    rw [← hc.earryl, ← hc.ememl]
    exact hc.strings.laid
  have hused := used_eq hlaid hc.full fun a ha hlive =>
    hc.place a ha (show b'.earryl < _ by rw [hc.earryl]; exact hlive)
  rw [← hused, ← hc.toMoved.usedSpace, BasicStringHeap.usedSpace, hc.earryl]

/-- A reservation leaves the strings alone. -/
theorem Above.granted (h : Above b as) {n : ℕ} (hfit : b.earryl + n ≤ b.sstorl) :
    Granted b as n { b with sstorl := b.sstorl - n } where
  strings := ⟨h.strings.walk,h.strings.below,h.strings.separate,h.strings.laid,
    h.strings.length_lt,h.strings.earryl_le,h.strings.ememl_lt⟩
  content _ _ _ := rfl
  inHeap _ _ := Iff.rfl
  length _ _ := rfl
  others _ _ _ := rfl
  free a ha hlive := by
    have := h.above a ha hlive
    show b.sstorl - n + n ≤ read32 b.ram.byte a
    omega
  bottom := by
    show b.earryl ≤ b.sstorl - n
    omega
  top := by
    have := h.top
    show b.sstorl - n + n ≤ b.ememl
    omega
  outside _ _ _ := rfl
  frame _ _ _ := rfl
  same := rfl

theorem Collected.granted (hc : Collected b as b') {n : ℕ} (hfit : b'.earryl + n ≤ b'.sstorl) :
    Granted b as n { b' with sstorl := b'.sstorl - n } where
  strings := (hc.above.granted hfit).strings
  content := hc.content
  inHeap := hc.inHeap
  length := hc.length
  others := hc.others
  free := (hc.above.granted hfit).free
  bottom := hc.earryl ▸ (hc.above.granted hfit).bottom
  top := hc.ememl ▸ (hc.above.granted hfit).top
  outside x hx hout := hc.outside x hx (hout.imp_left fun hlt => by
    change x < b'.sstorl - n + n at hlt
    omega)
  frame := hc.frame
  same := hc.same

theorem tryReserve_eq (h : Above b as) {n : ℕ} (hn : n ≤ b.earryl) :
    tryReserve n b =
      if b.earryl + n ≤ b.sstorl then some (b.sstorl - n,{ b with sstorl := b.sstorl - n })
      else none := by
  have hbottom := h.bottom
  have hsub : sub32 b.sstorl n = b.sstorl - n := by
    unfold sub32
    rw [if_pos (by omega)]
  simp only [tryReserve, hsub]
  by_cases hfit : b.earryl + n ≤ b.sstorl
  · rw [if_neg (by omega), if_pos hfit]
  · rw [if_pos (by omega), if_neg hfit]

/-- Space is granted exactly if the strings in use leave room for it, and no string is
lost either way. -/
theorem makeSpace_spec (h : Above b as) {n : ℕ} (hpos : 0 < n)
    (hsmall : evenLength n ≤ b.earryl) :
    (usedSpace b as + evenLength n ≤ b.ememl - b.earryl ∧
      ∃ b', makeSpace n b = some (some b'.sstorl,b') ∧ Granted b as (evenLength n) b') ∨
    (b.ememl - b.earryl < usedSpace b as + evenLength n ∧
      ∃ b', makeSpace n b = some (none,b') ∧ Collected b as b') := by
  have hle := h.strings.earryl_le
  have hmake : makeSpace n b = match tryReserve (evenLength n) b with
      | some (a0,b) => some (some a0,b)
      | none =>
        match garb b with
        | none => none
        | some b =>
          match tryReserve (evenLength n) b with
          | some (a0,b) => some (some a0,b)
          | none => some (none,b) := if_neg (by omega)
  rw [hmake, tryReserve_eq h hsmall]
  by_cases hfit : b.earryl + evenLength n ≤ b.sstorl
  · have hused : usedSpace b as ≤ b.ememl - b.sstorl := used_le h.strings.laid h.above
    have htop := h.top
    rw [if_pos hfit]
    exact Or.inl ⟨by omega,_,rfl,h.granted hfit⟩
  · obtain ⟨b',hgarb,hc⟩ := garb_spec h.strings
    have habove := hc.above
    have hearryl := hc.earryl
    have hbottom := habove.bottom
    have htop := habove.top
    have hused := hc.usedSpace
    have hememl := hc.ememl
    rw [if_neg hfit, hgarb]
    simp only []
    rw [tryReserve_eq habove (by omega)]
    by_cases hfit' : b'.earryl + evenLength n ≤ b'.sstorl
    · rw [if_pos hfit']
      exact Or.inl ⟨by omega,_,rfl,hc.granted hfit'⟩
    · rw [if_neg hfit']
      exact Or.inr ⟨by omega,_,rfl,hc⟩

end Betawise.BasicStringHeap
