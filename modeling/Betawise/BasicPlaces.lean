import Betawise.BasicDim
import Betawise.BasicStringValues

/-!
# Where values are

A number or a string descriptor stands in a variable or in an element of an array. The
place is found from the names in memory, the numbers of the variables and the shapes of
the arrays; different places do not overlap. When variables move, the places move with
them.
-/
namespace Betawise.BasicPlaces
open LoggedRam MixedRadix BasicVariables BasicArrays BasicStringHeap BasicRoots BasicStrings
open BasicStringMachine BasicStringValues BasicDim SlidingHeap FallibleState

variable {byte byte' : ℕ → ℕ} {name size a c n i : ℕ}

/-! ### The layout -/

/-- `ns` counts the variables of each kind. -/
structure Layout (b : Store) (ns : Kind → ℕ) (xs : List ArrayShape) : Prop
    extends Machine b (ns .string) xs 0 where
  stop : ∀ k, endAddress b k = startAddress b k + k.size * ns k

/-- Indices are words, and their number is a byte. -/
def Proper : Place → Prop
  | .scalar _ => True
  | .element _ indices => (∀ i ∈ indices, i < 65536) ∧ indices.length < 256

instance : (p : Place) → Decidable (Proper p)
  | .scalar _ => isTrue trivial
  | .element _ _ => inferInstanceAs (Decidable (_ ∧ _))

/-- The address of the value. -/
def location (b : Store) (ns : Kind → ℕ) (xs : List ArrayShape) : Place → Except StringError ℕ
  | .scalar name =>
    let k := kindOf name
    (position b.ram.byte name k.size (startAddress b k) (ns k)).elim (.error .undefinedVariable)
      fun i => .ok (startAddress b k + k.size * i + 4)
  | .element name indices => (select name indices b.sarryl xs).mapError .array

/-- The number or the string at an address. -/
def valueAt (b : Store) (name a : ℕ) : List ℕ :=
  if isString name then content b a else bytesFrom b.ram.byte a 4

/-- The value at a place, if there is one. -/
def readPlace (p : Place) (b : Store) : Option (List ℕ) :=
  match findPlace p b with
  | some (.ok a,_) => some (valueAt b p.name a)
  | _ => none

variable {b b' : Store} {ns ns' : Kind → ℕ} {xs xs' : List ArrayShape} {k : Kind} {p q : Place}

theorem isString_of_kindOf : kindOf name = .string ↔ isString name = true := by
  unfold kindOf
  split_ifs with h <;> simp [h]

namespace Layout

theorem order (h : Layout b ns xs) :
    b.sfncl ≤ b.svarl ∧ b.svarl ≤ b.sstrl ∧ b.sstrl ≤ b.sarryl ∧ b.sarryl ≤ b.earryl ∧
      b.earryl < b.sstorl := by
  have hv := h.stop .function
  have hs := h.stop .numeric
  have ha := h.toMachine.sarryl_le
  have hb := h.bottom
  simp only [endAddress, startAddress] at hv hs
  omega

theorem gvar_eq (h : Layout b ns xs) (k : Kind) (name : ℕ) :
    gvar k name b = some ((position b.ram.byte name k.size (startAddress b k) (ns k)).map
      fun i => startAddress b k + k.size * i + 4) := by
  have hsize := k.size_pos
  have hle := Nat.le_mul_of_pos_left (ns k) (show 0 < k.size by omega)
  rw [gvar, h.stop]
  exact search_eq (by omega) (by omega)

theorem findPlace_eq (h : Layout b ns xs) (hp : Proper p) :
    findPlace p b = some (location b ns xs p,b) := by
  cases p with
  | scalar name =>
    rw [findPlace, h.gvar_eq, location]
    cases position b.ram.byte name (kindOf name).size (startAddress b (kindOf name))
      (ns (kindOf name)) <;> rfl
  | element name is =>
    rw [findPlace, element_eq h.toArraysAt hp.1 hp.2, location]
    cases select name is b.sarryl xs <;> rfl

theorem readPlace_eq (h : Layout b ns xs) (hp : Proper p) :
    readPlace p b = (location b ns xs p).toOption.map (valueAt b p.name) := by
  rw [readPlace, h.findPlace_eq hp]
  cases location b ns xs p <;> rfl

end Layout

/-! ### Places do not overlap -/

theorem size_kindOf (name : ℕ) : (kindOf name).size = elementSize name + 4 := by
  rw [kindOf, elementSize]
  split_ifs <;> rfl

theorem locate_range {x : ArrayShape} (h : locate name a xs = some (x,c)) :
    x.name = name ∧ a ≤ c ∧ c + x.size ≤ a + sizes xs := by
  induction xs generalizing a with
  | nil => exact absurd h nofun
  | cons y xs ih =>
    rw [sizes_cons]
    rw [locate] at h
    split_ifs at h with hname
    · obtain ⟨rfl,rfl⟩ := Prod.mk.inj (Option.some.inj h)
      exact ⟨hname,Nat.le_refl _,by omega⟩
    · obtain ⟨hname,hlo,hhi⟩ := ih h
      exact ⟨hname,by omega,by omega⟩

/-- Arrays with different places do not overlap. -/
theorem locate_apart {x y : ArrayShape} {name' d : ℕ} (h : locate name a xs = some (x,c))
    (h' : locate name' a xs = some (y,d)) :
    x = y ∧ c = d ∨ c + x.size ≤ d ∨ d + y.size ≤ c := by
  induction xs generalizing a with
  | nil => exact absurd h nofun
  | cons z xs ih =>
    rw [locate] at h h'
    split_ifs at h h'
    · obtain ⟨rfl,rfl⟩ := Prod.mk.inj (Option.some.inj h)
      obtain ⟨rfl,rfl⟩ := Prod.mk.inj (Option.some.inj h')
      exact Or.inl ⟨rfl,rfl⟩
    · obtain ⟨rfl,rfl⟩ := Prod.mk.inj (Option.some.inj h)
      exact Or.inr (Or.inl (locate_range h').2.1)
    · obtain ⟨rfl,rfl⟩ := Prod.mk.inj (Option.some.inj h')
      exact Or.inr (Or.inr (locate_range h).2.1)
    · exact ih h h'

theorem address_range {x : ArrayShape} {is : List ℕ} (h : x.InBounds is) (c : ℕ) :
    x.first c ≤ x.address c is ∧ x.address c is + elementSize x.name ≤ c + x.size := by
  have hrank := rank_lt_count h
  have hmul := entry_le (elementSize x.name) hrank
  rw [ArrayShape.address, ArrayShape.first, ArrayShape.size]
  omega

theorem address_apart {x : ArrayShape} {is js : List ℕ} (h : x.InBounds is) (h' : x.InBounds js)
    (hne : is ≠ js) (c : ℕ) : x.address c is + elementSize x.name ≤ x.address c js ∨
      x.address c js + elementSize x.name ≤ x.address c is := by
  have hrank : rank 0 (x.bounds.map (· + 1)) is.reverse ≠
      rank 0 (x.bounds.map (· + 1)) js.reverse :=
    fun heq => hne (List.reverse_injective (rank_inj h h' heq).2)
  rw [ArrayShape.address, ArrayShape.address]
  rcases Nat.lt_or_gt_of_ne hrank with hlt | hlt
  · have := entry_le (elementSize x.name) hlt
    omega
  · have := entry_le (elementSize x.name) hlt
    omega

theorem location_scalar (h : location b ns xs (.scalar name) = .ok a) :
    ∃ i, position b.ram.byte name (kindOf name).size (startAddress b (kindOf name))
        (ns (kindOf name)) = some i ∧
      a = startAddress b (kindOf name) + (kindOf name).size * i + 4 := by
  rw [location] at h
  cases hi : position b.ram.byte name (kindOf name).size (startAddress b (kindOf name))
      (ns (kindOf name)) with
  | none => rw [hi] at h; cases h
  | some i =>
    rw [hi] at h
    exact ⟨i,rfl,(Except.ok.inj h).symm⟩

theorem location_element {is : List ℕ} (h : location b ns xs (.element name is) = .ok a) :
    ∃ x c, locate name b.sarryl xs = some (x,c) ∧ x.InBounds is ∧ a = x.address c is := by
  rw [location, select] at h
  cases hfind : locate name b.sarryl xs with
  | none => rw [hfind] at h; cases h
  | some found =>
    obtain ⟨x,c⟩ := found
    rw [hfind] at h
    simp only [] at h
    by_cases hdim : is.length ≠ x.bounds.length
    · rw [if_pos hdim] at h
      cases h
    · by_cases hin : x.InBounds is
      · rw [if_neg hdim, if_pos hin] at h
        exact ⟨x,c,rfl,hin,(Except.ok.inj h).symm⟩
      · rw [if_neg hdim, if_neg hin] at h
        cases h

namespace Layout

theorem scalar_range (h : Layout b ns xs) (hp : location b ns xs (.scalar name) = .ok a) :
    startAddress b (kindOf name) + 4 ≤ a ∧ a + elementSize name ≤ endAddress b (kindOf name) := by
  obtain ⟨i,hi,rfl⟩ := location_scalar hp
  have hlt := entry_le (kindOf name).size (position_spec hi).1
  have hsize := size_kindOf name
  rw [h.stop]
  omega

theorem element_range (h : Layout b ns xs) {is : List ℕ}
    (hp : location b ns xs (.element name is) = .ok a) :
    b.sarryl + 12 ≤ a ∧ a + elementSize name ≤ b.earryl := by
  obtain ⟨x,c,hfind,hin,rfl⟩ := location_element hp
  obtain ⟨rfl,hlo,hhi⟩ := locate_range hfind
  obtain ⟨hfirst,hend⟩ := address_range hin c
  have hhead := x.header_le
  have hlen := x.header_length
  have hearryl := h.earryl
  rw [ArrayShape.first] at hfirst
  omega

theorem range (h : Layout b ns xs) (hp : location b ns xs p = .ok a) :
    b.svarl + 4 ≤ a ∧ a + elementSize p.name ≤ b.earryl := by
  have horder := h.order
  cases p with
  | scalar name =>
    have hrange := h.scalar_range hp
    rw [kindOf] at hrange
    show _ ∧ a + elementSize name ≤ _
    split_ifs at hrange <;> simp only [startAddress, endAddress] at hrange <;> omega
  | element name is =>
    have hrange := h.element_range hp
    show _ ∧ a + elementSize name ≤ _
    omega

/-- The values at different places do not overlap. -/
theorem apart (h : Layout b ns xs) (hne : p ≠ q) (hp : location b ns xs p = .ok a)
    (hq : location b ns xs q = .ok c) :
    a + elementSize p.name ≤ c ∨ c + elementSize q.name ≤ a := by
  have horder := h.order
  have hcross : ∀ {m n a c : ℕ} {is : List ℕ}, location b ns xs (.scalar m) = .ok a →
      location b ns xs (.element n is) = .ok c → a + elementSize m ≤ c := by
    intro m n a c is hm hn
    have hrange := (h.scalar_range hm).2
    have := (h.element_range hn).1
    rw [kindOf] at hrange
    split_ifs at hrange <;> simp only [endAddress] at hrange <;> omega
  cases p with
  | scalar m =>
    cases q with
    | scalar n =>
      show a + elementSize m ≤ c ∨ c + elementSize n ≤ a
      have hm := size_kindOf m
      have hn := size_kindOf n
      by_cases hkind : kindOf m = kindOf n
      · obtain ⟨i,hi,rfl⟩ := location_scalar hp
        obtain ⟨j,hj,rfl⟩ := location_scalar hq
        have hname := (position_spec hi).2
        have hname' := (position_spec hj).2
        rw [hkind] at hname hm ⊢
        have hij : i ≠ j := fun heq =>
          hne (congrArg Place.scalar (hname.symm.trans (by rw [heq]; exact hname')))
        rcases Nat.lt_or_gt_of_ne hij with hlt | hlt
        · have := entry_le (kindOf n).size hlt
          omega
        · have := entry_le (kindOf n).size hlt
          omega
      · have hrange := h.scalar_range hp
        have hrange' := h.scalar_range hq
        unfold kindOf at hkind hrange hrange'
        split_ifs at hkind hrange hrange' <;>
          first | exact absurd rfl hkind |
            (simp only [startAddress, endAddress] at hrange hrange'; omega)
    | element n is => exact Or.inl (hcross hp hq)
  | element m is =>
    cases q with
    | scalar n => exact Or.inr (hcross hq hp)
    | element n js =>
      show a + elementSize m ≤ c ∨ c + elementSize n ≤ a
      obtain ⟨x,d,hfind,hin,rfl⟩ := location_element hp
      obtain ⟨y,e,hfind',hin',rfl⟩ := location_element hq
      obtain ⟨rfl,-,-⟩ := locate_range hfind
      obtain ⟨rfl,-,-⟩ := locate_range hfind'
      rcases locate_apart hfind hfind' with ⟨rfl,rfl⟩ | hapart
      · exact address_apart hin hin' (fun heq => hne (by rw [heq])) d
      · have hrange := address_range hin d
        have hrange' := address_range hin' e
        rw [ArrayShape.first] at hrange hrange'
        omega

end Layout

/-! ### Numbers and descriptors -/

theorem location_slot (hs : isString p.name = true)
    (hp : location b ns xs p = .ok a) : a ∈ slots b (ns .string) xs := by
  cases p with
  | scalar name =>
    have hkind : kindOf name = .string := isString_of_kindOf.mpr hs
    obtain ⟨i,hi,rfl⟩ := location_scalar hp
    have hlt := (position_spec hi).1
    rw [hkind] at hlt ⊢
    exact List.mem_append_left _ (mem_stringRoots.mpr ⟨i,hlt,rfl⟩)
  | element name is =>
    obtain ⟨x,c,hfind,hin,rfl⟩ := location_element hp
    obtain ⟨rfl,-,-⟩ := locate_range hfind
    exact List.mem_append_right _ (address_mem hfind hin hs)

namespace Layout

/-- Names are in no descriptor. -/
theorem name_outside (h : Layout b ns xs) (k : Kind) (hi : i < ns k) {j : ℕ} (hj : j < 4) :
    Outside (slots b (ns .string) xs) (startAddress b k + k.size * i + j) := by
  intro r hr
  have horder := h.order
  have hstop := h.stop k
  have hlt := entry_le k.size hi
  have hsize := k.size_pos
  rcases List.mem_append.mp hr with hr | hr
  · obtain ⟨i',hi',rfl⟩ := mem_stringRoots.mp hr
    cases k with
    | function => simp only [endAddress] at hstop; omega
    | numeric => simp only [endAddress] at hstop; omega
    | string =>
      show b.sstrl + 10 * i + j < _ ∨ _ ≤ b.sstrl + 10 * i + j
      omega
  · have := mem_elementRoots hr
    cases k <;> simp only [endAddress] at hstop <;> omega

end Layout

/-- The descriptors of other arrays are not in a numeric array. -/
theorem elementRoots_apart {x : ArrayShape} (h : locate name a xs = some (x,c))
    (hs : ¬ isString x.name = true) {r : ℕ} (hr : r ∈ elementRoots a xs) :
    r + 6 ≤ c ∨ c + x.size ≤ r := by
  induction xs generalizing a with
  | nil => exact absurd hr List.not_mem_nil
  | cons y xs ih =>
    rw [locate] at h
    rcases List.mem_append.mp hr with hr | hr
    · obtain ⟨hstring,-,hend⟩ := mem_roots_array hr
      split_ifs at h
      · obtain ⟨rfl,rfl⟩ := Prod.mk.inj (Option.some.inj h)
        exact absurd hstring hs
      · exact Or.inl (hend.trans (locate_range h).2.1)
    · split_ifs at h
      · obtain ⟨rfl,rfl⟩ := Prod.mk.inj (Option.some.inj h)
        exact Or.inr (by have := mem_elementRoots hr; omega)
      · exact ih h hr

/-- The elements of an array are in no header. -/
theorem headers_write {x : ArrayShape} (h : Headers byte a xs)
    (hfind : locate name a xs = some (x,c))
    (hsame : ∀ y, ¬ (x.first c ≤ y ∧ y < c + x.size) → byte' y = byte y) : Headers byte' a xs := by
  induction xs generalizing a with
  | nil => trivial
  | cons z xs ih =>
    have hhead := z.header_le
    have hlen := z.header_length
    rw [locate] at hfind
    split_ifs at hfind with hname
    · obtain ⟨rfl,rfl⟩ := Prod.mk.inj (Option.some.inj hfind)
      refine ⟨h.1.congr fun i hi => hsame _ (by rw [ArrayShape.first]; omega),?_⟩
      refine headers_congr h.2 fun y hy _ _ => hsame y (by omega)
    · have hlo := (locate_range hfind).2.1
      refine ⟨h.1.congr fun i hi => hsame _ ?_,ih h.2 hfind⟩
      rw [ArrayShape.first]
      omega

namespace Layout

/-- Numbers are in no descriptor. -/
theorem number_outside (h : Layout b ns xs) (hs : ¬ isString p.name = true)
    (hp : location b ns xs p = .ok a) {j : ℕ} (hj : j < 4) :
    Outside (slots b (ns .string) xs) (a + j) := by
  intro r hr
  have horder := h.order
  cases p with
  | scalar name =>
    have hkind : kindOf name = .numeric := if_neg hs
    have hrange := (h.scalar_range hp).2
    have hsize := size_kindOf name
    rw [hkind] at hrange hsize
    change 8 = _ at hsize
    change _ ≤ b.sstrl at hrange
    have := h.mem_slots hr
    omega
  | element name is =>
    obtain ⟨x,c,hfind,hin,rfl⟩ := location_element hp
    obtain ⟨rfl,hlo,-⟩ := locate_range hfind
    obtain ⟨hfirst,hend⟩ := address_range hin c
    have hwidth := elementSize_pos x.name
    rw [ArrayShape.first] at hfirst
    rcases List.mem_append.mp hr with hr | hr
    · obtain ⟨i,hi,rfl⟩ := mem_stringRoots.mp hr
      have := h.sarryl
      omega
    · have := elementRoots_apart hfind hs hr
      omega

/-- The value at a place is in no header. -/
theorem headers_outside (h : Layout b ns xs) (hp : location b ns xs p = .ok a)
    (hsame : ∀ y, ¬ (a ≤ y ∧ y < a + elementSize p.name) → byte' y = b.ram.byte y) :
    Headers byte' b.sarryl xs := by
  cases p with
  | scalar name =>
    have horder := h.order
    have hrange := (h.scalar_range hp).2
    refine headers_congr h.toMachine.headers fun y hy _ _ => hsame y ?_
    show ¬ (a ≤ y ∧ y < a + elementSize name)
    rw [kindOf] at hrange
    split_ifs at hrange <;> simp only [endAddress] at hrange <;> omega
  | element name is =>
    obtain ⟨x,c,hfind,hin,rfl⟩ := location_element hp
    obtain ⟨rfl,-,-⟩ := locate_range hfind
    obtain ⟨hfirst,hend⟩ := address_range hin c
    exact headers_write h.toMachine.headers hfind fun y hy =>
      hsame y (by change ¬ (_ ∧ y < _ + elementSize x.name); omega)

/-- The value at a place is in no name. -/
theorem name_apart (h : Layout b ns xs) (hp : location b ns xs p = .ok a) (hi : i < ns k) {j : ℕ}
    (hj : j < 4) : ¬ (a ≤ startAddress b k + k.size * i + j ∧
      startAddress b k + k.size * i + j < a + elementSize p.name) := by
  have horder := h.order
  have hlt := entry_le k.size hi
  have hsize := k.size_pos
  have hstop := h.stop k
  cases p with
  | scalar name =>
    have hrange := h.scalar_range hp
    have hwidth := size_kindOf name
    show ¬ (a ≤ _ ∧ _ < a + elementSize name)
    by_cases hkind : kindOf name = k
    · subst hkind
      obtain ⟨i',hi',rfl⟩ := location_scalar hp
      rcases Nat.lt_trichotomy i i' with hii | rfl | hii
      · have := entry_le (kindOf name).size hii
        omega
      · omega
      · have := entry_le (kindOf name).size hii
        omega
    · unfold kindOf at hkind hrange
      split_ifs at hkind hrange <;> cases k <;>
        first | exact absurd rfl hkind |
          (simp only [startAddress, endAddress] at hrange hstop ⊢; omega)
  | element name is =>
    have hrange := (h.element_range hp).1
    cases k <;> simp only [startAddress, endAddress] at hstop ⊢ <;> omega

end Layout

/-! ### Values that stay -/

/-- Nothing, or the value at a place. -/
def Cell (b : Store) (ns : Kind → ℕ) (xs : List ArrayShape) (lo hi : ℕ) : Prop :=
  hi = 0 ∨ ∃ p, location b ns xs p = .ok lo ∧ hi = lo + elementSize p.name

/-- The variables and arrays stay where they are, and only one value may have changed. -/
structure Rewritten (b : Store) (ns : Kind → ℕ) (xs : List ArrayShape) (lo hi : ℕ) (b' : Store) :
    Prop where
  machine : Machine b' (ns .string) xs 0
  cell : Cell b ns xs lo hi
  same : { b' with ram := b.ram, sstorl := b.sstorl, a4 := b.a4 } = b
  bytes : ∀ y, b.desSk ≤ y → y < b.earryl → Outside (slots b (ns .string) xs) y →
    ¬ (lo ≤ y ∧ y < hi) → b'.ram.byte y = b.ram.byte y
  content : ∀ r ∈ slots b (ns .string) xs, r + 6 ≤ lo ∨ hi ≤ r → content b' r = content b r

namespace Rewritten

variable {lo hi : ℕ}

theorem startAddress (hw : Rewritten b ns xs lo hi b') (k : Kind) :
    startAddress b' k = startAddress b k := by
  rw [← hw.same]
  cases k <;> rfl

theorem layout (hw : Rewritten b ns xs lo hi b') (h : Layout b ns xs) : Layout b' ns xs where
  toMachine := hw.machine
  stop k := by
    rw [hw.startAddress, ← h.stop, ← hw.same]
    cases k <;> rfl

theorem location (hw : Rewritten b ns xs lo hi b') (h : Layout b ns xs) (p : Place) :
    location b' ns xs p = location b ns xs p := by
  have horder := h.order
  have hle := h.stack_le
  cases p with
  | scalar name =>
    rw [BasicPlaces.location, BasicPlaces.location, hw.startAddress]
    rw [position_congr fun i hi => read32_congr fun j hj => ?_]
    have hlt := entry_le (kindOf name).size hi
    have hstop := h.stop (kindOf name)
    have hsize := (kindOf name).size_pos
    have hstart : b.sfncl ≤ BasicVariables.startAddress b (kindOf name) ∧
        endAddress b (kindOf name) ≤ b.earryl := by
      cases kindOf name <;> simp only [BasicVariables.startAddress, endAddress] <;> omega
    refine hw.bytes _ (by omega) (by omega) (h.name_outside _ hi hj) ?_
    rcases hw.cell with rfl | ⟨q,hq,rfl⟩
    · omega
    · exact h.name_apart hq hi hj
  | element name is =>
    have hsarryl : b'.sarryl = b.sarryl := by rw [← hw.same]
    rw [BasicPlaces.location, BasicPlaces.location, hsarryl]

/-- The value at another place. -/
theorem readPlace (hw : Rewritten b ns xs lo hi b') (h : Layout b ns xs) (hq : Proper q)
    (hout : ∀ a, BasicPlaces.location b ns xs q = .ok a → a + elementSize q.name ≤ lo ∨ hi ≤ a) :
    readPlace q b' = readPlace q b := by
  rw [(hw.layout h).readPlace_eq hq, h.readPlace_eq hq, hw.location h]
  cases hloc : BasicPlaces.location b ns xs q with
  | error e => rfl
  | ok a =>
    refine congrArg some ?_
    have horder := h.order
    have hle := h.stack_le
    have hrange := h.range hloc
    have hout := hout a hloc
    by_cases hs : isString q.name = true
    · rw [elementSize, if_pos hs] at hout
      rw [valueAt, valueAt, if_pos hs, if_pos hs]
      exact hw.content a (location_slot hs hloc) hout
    · rw [elementSize, if_neg hs] at hout hrange
      rw [valueAt, valueAt, if_neg hs, if_neg hs]
      exact bytesFrom_congr fun j hj => hw.bytes _ (by omega) (by omega)
        (h.number_outside hs hloc hj) (by omega)

end Rewritten

/-- A frame changes no value. -/
theorem rewritten_frame (h' : Machine b' (ns .string) xs 0) (hf : Frame b (ns .string) xs 0 b') :
    Rewritten b ns xs 0 0 b' :=
  ⟨h',Or.inl rfl,hf.same,fun y hlo hlt hout _ => hf.bytes y hlo hlt hout,
    fun r hr _ => hf.slot r hr⟩

theorem frame_readPlace (h : Layout b ns xs) (h' : Machine b' (ns .string) xs 0)
    (hf : Frame b (ns .string) xs 0 b') (hq : Proper q) : readPlace q b' = readPlace q b :=
  (rewritten_frame h' hf).readPlace h hq fun _ _ => Or.inr (Nat.zero_le _)

/-- A number in its place. -/
theorem rewritten_number (h : Layout b ns xs) (hs : ¬ isString p.name = true)
    (hp : location b ns xs p = .ok a) {number : List ℕ} (hlen : number.length = 4) :
    Rewritten b ns xs a (a + 4) { b with ram := pokeBytes a number b.ram } ∧
      valueAt { b with ram := pokeBytes a number b.ram } p.name a = number := by
  have hwithin := within_pokeBytes a number b.ram
  have hbytes := bytesAt_pokeBytes a number b.ram
  have horder := h.order
  have hrange := h.range hp
  have hwidth : elementSize p.name = 4 := if_neg hs
  rw [hwidth] at hrange
  rw [hlen] at hwithin
  generalize pokeBytes a number b.ram = m at hwithin hbytes ⊢
  have hslot : ∀ r ∈ slots b (ns .string) xs, ∀ i < 6, m.byte (r + i) = b.ram.byte (r + i) := by
    intro r hr i hi
    refine hwithin.frame _ fun hin => ?_
    have := h.number_outside hs hp (j := r + i - a) (by omega) r hr
    omega
  have hshifted : Shifted b (ns .string) xs id { b with ram := m } (ns .string) xs := by
    refine
      { slotsAt := { headers := ?_, earryl := h.earryl, sarryl := h.sarryl },
        sfncl_le := h.sfncl_le, same := rfl, earryl_le := Nat.le_refl _, fits := h.bottom,
        memory := fun y hy => hwithin.frame y (by change _ ∨ b.earryl ≤ y at hy; omega),
        slots := fun r hr => Or.inl ⟨hr,hslot r hr⟩, inj := fun r _ r' _ hne _ _ => hne }
    refine h.headers_outside hp fun y hy => hwithin.frame y ?_
    rwa [hwidth] at hy
  refine ⟨⟨hshifted.machine h.toMachine,Or.inr ⟨p,hp,by rw [hwidth]⟩,rfl,
    fun y _ _ _ hy => hwithin.frame y hy,fun r hr _ =>
      hshifted.content h.toMachine hr (hslot r hr)⟩,?_⟩
  rw [valueAt, if_neg hs, ← hlen]
  exact bytesFrom_eq hbytes

/-- A string in its place. -/
theorem rewritten_string (hs : isString p.name = true)
    (hp : location b ns xs p = .ok a) {v : List ℕ} (ha : Assigned b (ns .string) xs a v b') :
    Rewritten b ns xs a (a + 6) b' where
  machine := ha.machine
  cell := Or.inr ⟨p,hp,by rw [elementSize, if_pos hs]⟩
  same := ha.same
  bytes y hlo hlt hout _ := ha.bytes y hlo hlt hout
  content r hr hout := ha.others r hr (by omega)

/-! ### A new variable -/

theorem stringRoots_add (a d n : ℕ) : stringRoots (a + d) n = (stringRoots a n).map (· + d) := by
  rw [stringRoots, stringRoots, List.map_map]
  refine List.map_congr_left fun i _ => ?_
  show a + d + 10 * i + 4 = a + 10 * i + 4 + d
  omega

theorem elementRoots_add (a d : ℕ) (xs : List ArrayShape) :
    elementRoots (a + d) xs = (elementRoots a xs).map (· + d) := by
  induction xs generalizing a with
  | nil => rfl
  | cons x xs ih =>
    have hroots : ArrayShape.roots x (a + d) = (ArrayShape.roots x a).map (· + d) := by
      unfold ArrayShape.roots
      split_ifs
      · rw [packedRoots, packedRoots, List.map_map]
        refine List.map_congr_left fun i _ => ?_
        show x.first (a + d) + 6 * i = x.first a + 6 * i + d
        rw [ArrayShape.first, ArrayShape.first]
        omega
      · rfl
    rw [elementRoots, elementRoots, List.map_append, hroots, ← ih,
      show a + d + x.size = a + x.size + d by omega]

theorem headers_add {d : ℕ} (h : Headers byte a xs)
    (hsame : ∀ y, a ≤ y → y < a + sizes xs → byte' (y + d) = byte y) :
    Headers byte' (a + d) xs := by
  induction xs generalizing a with
  | nil => trivial
  | cons x xs ih =>
    have hhead := x.header_le
    rw [sizes_cons] at hsame
    refine ⟨h.1.congr fun i hi => ?_,?_⟩
    · rw [show a + d + i = a + i + d by omega]
      exact hsame _ (by omega) (by omega)
    · rw [show a + d + x.size = a + x.size + d by omega]
      exact ih h.2 fun y hlo hhi => hsame y (by omega) (by omega)

theorem locate_add (name a d : ℕ) (xs : List ArrayShape) :
    locate name (a + d) xs = (locate name a xs).map fun f => (f.1,f.2 + d) := by
  induction xs generalizing a with
  | nil => rfl
  | cons x xs ih =>
    rw [locate, locate, show a + d + x.size = a + x.size + d by omega, ih]
    split_ifs <;> rfl

theorem select_add (name : ℕ) (is : List ℕ) (a d : ℕ) (xs : List ArrayShape) :
    select name is (a + d) xs = (select name is a xs).map (· + d) := by
  rw [select, select, locate_add]
  cases locate name a xs with
  | none => rfl
  | some f =>
    obtain ⟨x,c⟩ := f
    simp only [Option.map_some]
    split_ifs
    · rfl
    · simp only [Except.map, ArrayShape.address, ArrayShape.first]
      congr 1
      omega
    · rfl

/-- The memory after a new entry at `e`. -/
structure Opened (b : Store) (e size name : ℕ) (m : Ram) : Prop where
  front : ∀ y < e, m.byte y = b.ram.byte y
  name : read32 m.byte e = name
  zero : ∀ y, e + 4 ≤ y → y < e + size → m.byte y = 0
  back : ∀ y, e ≤ y → y < b.earryl → m.byte (y + size) = b.ram.byte y
  beyond : ∀ y, b.earryl + size ≤ y → m.byte y = b.ram.byte y

theorem sizes_even (xs : List ArrayShape) : sizes xs % 2 = 0 := by
  induction xs with
  | nil => rfl
  | cons x xs ih =>
    have := x.size_even
    rw [sizes_cons]
    omega

theorem names_size (hname : Names k name) (hk : k ≠ .function) :
    k.size = 8 ∨ k.size = 10 ∧ isString name = true := by
  have hkind := hname.2.resolve_left hk
  unfold kindOf at hkind
  split_ifs at hkind with hs
  · exact Or.inr ⟨hkind ▸ rfl,hs⟩
  · exact Or.inl (hkind ▸ rfl)

theorem create_opened (h : Layout b ns xs) (hname : Names k name) (hk : k ≠ .function) :
    Opened b (endAddress b k) k.size name (create k name b).2.ram := by
  have horder := h.order
  have hsize := k.size_pos
  have hkeven := k.size_even
  have heven : (b.earryl - endAddress b k) % 2 = 0 ∧ endAddress b k ≤ b.earryl := by
    have hxs := sizes_even xs
    have hearryl := h.earryl
    have hsarryl := h.sarryl
    cases k with
    | function => exact absurd rfl hk
    | numeric => show (b.earryl - b.sstrl) % 2 = 0 ∧ b.sstrl ≤ b.earryl; omega
    | string => show (b.earryl - b.sarryl) % 2 = 0 ∧ b.sarryl ≤ b.earryl; omega
  generalize he : endAddress b k = e at *
  let opened := copyDown ((b.earryl - e) / 2) b.earryl (b.earryl + k.size) b.ram
  have hcopy := copyDown_byte ((b.earryl - e) / 2) b.earryl (b.earryl + k.size)
    (Nat.le_add_right _ _) (by omega) b.ram
  obtain ⟨hbytes,hzero,hstring,hheader⟩ := header_spec hname e opened
    (show (create k name b).2.ram = _ by simp only [create, he]; rfl)
  refine ⟨fun y hy => ?_,hbytes.read32 hname.1,fun y hlo hhi => ?_,fun y hlo hhi => ?_,
    fun y hy => ?_⟩
  · rw [hheader.frame y (by omega), hcopy, if_neg (by omega)]
  · have hfour : ∀ i < 4, (create k name b).2.ram.byte (e + 4 + i) = 0 := by
      intro i hi
      have hcase : i = 0 ∨ i = 1 ∨ i = 2 ∨ i = 3 := by omega
      rcases hcase with rfl | rfl | rfl | rfl <;> exact hzero _ (by decide)
    rcases names_size hname hk with hsize' | ⟨hsize',hs⟩
    · rw [show y = e + 4 + (y - (e + 4)) by omega]
      exact hfour _ (by omega)
    · by_cases hlt : y < e + 8
      · rw [show y = e + 4 + (y - (e + 4)) by omega]
        exact hfour _ (by omega)
      · have hcase : y = e + 8 + 0 ∨ y = e + 8 + 1 := by omega
        rcases hcase with rfl | rfl <;> exact hstring hs _ (by decide)
  · rw [hheader.frame _ (by omega), hcopy, if_pos (by omega)]
    congr 1
    omega
  · rw [hheader.frame y (by omega), hcopy, if_neg (by omega)]

/-- Where an address has come from, and where it goes. -/
def below (e size r : ℕ) : ℕ := if r < e + size then r else r - size

def moveUp (e size a : ℕ) : ℕ := if a < e then a else a + size

theorem below_moveUp (e size a : ℕ) : below e size (moveUp e size a) = a := by
  unfold below moveUp
  split_ifs <;> omega

theorem Opened.moved {e : ℕ} {m : Ram} (ho : Opened b e size name m) {w : ℕ}
    (hout : a + w ≤ e ∨ e ≤ a) (hend : a + w ≤ b.earryl) {j : ℕ} (hj : j < w) :
    m.byte (moveUp e size a + j) = b.ram.byte (a + j) := by
  unfold moveUp
  split_ifs
  · exact ho.front _ (by omega)
  · rw [show a + size + j = a + j + size by omega]
    exact ho.back _ (by omega) (by omega)

/-- The descriptors after a new entry are the old ones, moved, and a null string. -/
theorem mem_slots_create (h : Layout b ns xs) (hk : k ≠ .function) {m : Ram} {r : ℕ}
    (hr : r ∈ slots { shift k b with ram := m } (Function.update ns k (ns k + 1) .string) xs) :
    (∃ a ∈ slots b (ns .string) xs, (a + 6 ≤ endAddress b k ∨ endAddress b k ≤ a) ∧
      r = moveUp (endAddress b k) k.size a) ∨ k = .string ∧ r = endAddress b k + 4 := by
  have horder := h.order
  have hsarryl := h.sarryl
  cases k with
  | function => exact absurd rfl hk
  | numeric =>
    change r ∈ stringRoots (b.sstrl + 8) (ns .string) ++ elementRoots (b.sarryl + 8) xs at hr
    rw [stringRoots_add, elementRoots_add, ← List.map_append] at hr
    obtain ⟨a,ha,rfl⟩ := List.mem_map.mp hr
    have := h.mem_slots ha
    refine Or.inl ⟨a,ha,Or.inr ?_,?_⟩
    · show b.sstrl ≤ a
      omega
    · exact (if_neg (show ¬ a < b.sstrl by omega)).symm
  | string =>
    have hcount : Function.update ns .string (ns .string + 1) .string = ns .string + 1 :=
      Function.update_self _ _ _
    change r ∈ stringRoots b.sstrl _ ++ elementRoots (b.sarryl + 10) xs at hr
    rw [hcount, elementRoots_add] at hr
    show (∃ a ∈ slots b (ns .string) xs, (a + 6 ≤ b.sarryl ∨ b.sarryl ≤ a) ∧
      r = moveUp b.sarryl 10 a) ∨ _ ∧ r = b.sarryl + 4
    rcases List.mem_append.mp hr with hr | hr
    · obtain ⟨i,hi,rfl⟩ := mem_stringRoots.mp hr
      rcases Nat.lt_succ_iff_lt_or_eq.mp hi with hi | rfl
      · refine Or.inl ⟨_,List.mem_append_left _ (mem_stringRoots.mpr ⟨i,hi,rfl⟩),Or.inl ?_,?_⟩
        · omega
        · exact (if_pos (by omega)).symm
      · exact Or.inr ⟨rfl,by omega⟩
    · obtain ⟨a,ha,rfl⟩ := List.mem_map.mp hr
      have := mem_elementRoots ha
      refine Or.inl ⟨a,List.mem_append_right _ ha,Or.inr (by omega),?_⟩
      exact (if_neg (by omega)).symm

theorem create_shifted (h : Layout b ns xs) (hk : k ≠ .function) {m : Ram}
    (ho : Opened b (endAddress b k) k.size name m) (hfit : b.earryl + k.size < b.sstorl) :
    Shifted b (ns .string) xs (below (endAddress b k) k.size) { shift k b with ram := m }
      (Function.update ns k (ns k + 1) .string) xs := by
  have horder := h.order
  have hle := h.sfncl_le
  have hsarryl := h.sarryl
  have hearryl := h.earryl
  have hsize := k.size_pos
  have hend : endAddress b k ≤ b.sarryl ∧ b.sfncl ≤ endAddress b k := by
    cases k <;> simp only [endAddress] <;> omega
  have hshift : (shift k b).earryl = b.earryl + k.size ∧
      (shift k b).sarryl = b.sarryl + k.size := by
    cases k <;> exact ⟨rfl,rfl⟩
  have hlive : ∀ a ∈ slots b (ns .string) xs, (a + 6 ≤ endAddress b k ∨ endAddress b k ≤ a) →
      ∀ i < 6, m.byte (moveUp (endAddress b k) k.size a + i) = b.ram.byte (a + i) :=
    fun a ha hout i hi => ho.moved hout (h.mem_slots ha).2 hi
  refine
    { slotsAt := { headers := ?_, earryl := ?_, sarryl := ?_ }, sfncl_le := ?_, same := ?_,
      earryl_le := ?_, fits := ?_, memory := fun y hy => ?_, slots := fun r hr => ?_,
      inj := fun r hr r' hr' hne hold hold' => ?_ }
  · show Headers m.byte (shift k b).sarryl xs
    rw [hshift.2]
    exact headers_add h.headers fun y hlo hhi => ho.back y (by omega) (by omega)
  · show (shift k b).earryl = (shift k b).sarryl + sizes xs
    omega
  · show (shift k b).sarryl = (shift k b).sstrl + 10 * Function.update ns k (ns k + 1) .string
    cases k with
    | function => exact absurd rfl hk
    | numeric => show b.sarryl + 8 = b.sstrl + 8 + 10 * ns .string; omega
    | string =>
      rw [Function.update_self]
      show b.sarryl + 10 = b.sstrl + 10 * (ns .string + 1)
      omega
  · show (shift k b).sfncl ≤ (shift k b).sstrl
    cases k <;> simp only [shift] <;> omega
  · cases k <;> rfl
  · show b.earryl ≤ (shift k b).earryl
    omega
  · show (shift k b).earryl < b.sstorl
    omega
  · change y < b.sfncl ∨ (shift k b).earryl ≤ y at hy
    rcases hy with hy | hy
    · exact ho.front y (by omega)
    · exact ho.beyond y (by omega)
  · rcases mem_slots_create h hk hr with ⟨a,ha,hout,rfl⟩ | ⟨rfl,rfl⟩
    · exact Or.inl ⟨by rw [below_moveUp]; exact ha,by rw [below_moveUp]; exact hlive a ha hout⟩
    · exact Or.inr fun i hi => ho.zero _ (by omega) (by change _ < endAddress b .string + 10; omega)
  · -- a new descriptor does not come from an old one
    have hnew : ∀ r, below (endAddress b k) k.size r ∈ slots b (ns .string) xs →
        r ≠ endAddress b .string + 4 ∨ k ≠ .string := by
      rintro r hmem
      by_cases hks : k = .string
      · subst hks
        refine Or.inl fun hr => ?_
        rw [hr, below, if_pos (by change _ < endAddress b .string + 10; omega)] at hmem
        rcases List.mem_append.mp hmem with hmem | hmem
        · obtain ⟨i,hi,heq⟩ := mem_stringRoots.mp hmem
          change b.sarryl + 4 = _ at heq
          omega
        · have := mem_elementRoots hmem
          change b.sarryl + 12 ≤ b.sarryl + 4 ∧ _ at this
          omega
      · exact Or.inr hks
    rcases mem_slots_create h hk hr with ⟨a,ha,-,rfl⟩ | ⟨rfl,rfl⟩
    · rcases mem_slots_create h hk hr' with ⟨a',ha',-,rfl⟩ | ⟨rfl,rfl⟩
      · rw [below_moveUp, below_moveUp]
        exact fun heq => hne (by rw [heq])
      · exact absurd rfl ((hnew _ hold').resolve_right (not_not.mpr rfl))
    · exact absurd rfl ((hnew _ hold).resolve_right (not_not.mpr rfl))

/-- The value at a place is in front of a new entry or behind it. -/
theorem Layout.beside (h : Layout b ns xs) (hk : k ≠ .function) (hp : location b ns xs p = .ok a) :
    a + elementSize p.name ≤ endAddress b k ∨ endAddress b k ≤ a := by
  have horder := h.order
  cases p with
  | scalar name =>
    have hrange := h.scalar_range hp
    show a + elementSize name ≤ _ ∨ _
    unfold kindOf at hrange
    split_ifs at hrange <;> cases k <;> first | exact absurd rfl hk |
      (simp only [startAddress, endAddress] at hrange ⊢; omega)
  | element name is =>
    have hrange := h.element_range hp
    cases k <;> simp only [endAddress] <;> omega

theorem create_stop (h : Layout b ns xs) (hk : k ≠ .function) (m : Ram) (k' : Kind) :
    endAddress { shift k b with ram := m } k' =
      startAddress { shift k b with ram := m } k' +
        k'.size * Function.update ns k (ns k + 1) k' := by
  have hstop := h.stop k'
  cases k with
  | function => exact absurd rfl hk
  | numeric =>
    cases k' with
    | numeric =>
      rw [Function.update_self]
      change b.sstrl = b.svarl + 8 * ns .numeric at hstop
      show b.sstrl + 8 = b.svarl + 8 * (ns .numeric + 1)
      omega
    | function => exact hstop
    | string =>
      change b.sarryl = b.sstrl + 10 * ns .string at hstop
      show b.sarryl + 8 = b.sstrl + 8 + 10 * ns .string
      omega
  | string =>
    cases k' with
    | string =>
      rw [Function.update_self]
      change b.sarryl = b.sstrl + 10 * ns .string at hstop
      show b.sarryl + 10 = b.sstrl + 10 * (ns .string + 1)
      omega
    | function => exact hstop
    | numeric => exact hstop

/-- The entries of the same kind are where they were, and the new one is the last. -/
theorem position_create (h : Layout b ns xs) {m : Ram}
    (ho : Opened b (endAddress b k) k.size name m)
    (hnone : position b.ram.byte name k.size (startAddress b k) (ns k) = none) (n : ℕ) :
    position m.byte n k.size (startAddress b k) (ns k + 1) =
      if n = name then some (ns k)
      else position b.ram.byte n k.size (startAddress b k) (ns k) := by
  have hstop := h.stop k
  have hsize := k.size_pos
  have hold : position m.byte n k.size (startAddress b k) (ns k) =
      position b.ram.byte n k.size (startAddress b k) (ns k) := by
    refine position_congr fun i hi => read32_congr fun j hj => ho.front _ ?_
    have hlt := entry_le k.size hi
    omega
  rw [position_succ, hold, ← hstop, ho.name]
  by_cases hn : n = name
  · subst hn
    rw [hnone, if_pos rfl]
    rfl
  · rw [if_neg (Ne.symm hn), if_neg hn, Option.or_none]

/-- Entries of another kind have not moved, or all of them have. -/
theorem startAddress_create (h : Layout b ns xs) (hk : k ≠ .function) {k' : Kind}
    (hne : k' ≠ k) (hk' : k' ≠ .function) (m : Ram) (hi : i < ns k') :
    startAddress { shift k b with ram := m } k' + k'.size * i =
        moveUp (endAddress b k) k.size (startAddress b k' + k'.size * i) ∧
      (startAddress b k' + k'.size * i + k'.size ≤ endAddress b k ∨
        endAddress b k ≤ startAddress b k' + k'.size * i) := by
  have horder := h.order
  have hlt := entry_le k'.size hi
  have hstop := h.stop k'
  have hsize := k'.size_pos
  unfold moveUp
  cases k with
  | function => exact absurd rfl hk
  | numeric =>
    cases k' with
    | function => exact absurd rfl hk'
    | numeric => exact absurd rfl hne
    | string =>
      show b.sstrl + 8 + _ = (if b.sstrl + _ < b.sstrl then _ else _) ∧ (_ ∨ b.sstrl ≤ b.sstrl + _)
      rw [if_neg (by omega)]
      change b.sarryl = _ at hstop
      exact ⟨Nat.add_right_comm _ _ _,Or.inr (Nat.le_add_right _ _)⟩
  | string =>
    cases k' with
    | function => exact absurd rfl hk'
    | string => exact absurd rfl hne
    | numeric =>
      change b.sstrl = b.svarl + _ at hstop
      show b.svarl + _ = (if b.svarl + _ < b.sarryl then b.svarl + _ else _) ∧
        (b.svarl + _ + _ ≤ b.sarryl ∨ _)
      rw [if_pos (by omega)]
      exact ⟨rfl,Or.inl (by omega)⟩

/-- The new variable is found, and everything else is found where it is now. -/
theorem create_location (h : Layout b ns xs) (hname : Names k name) (hk : k ≠ .function) {m : Ram}
    (ho : Opened b (endAddress b k) k.size name m)
    (hnone : position b.ram.byte name k.size (startAddress b k) (ns k) = none) (q : Place) :
    location { shift k b with ram := m } (Function.update ns k (ns k + 1)) xs q =
      if q = .scalar name then .ok (endAddress b k + 4)
      else (location b ns xs q).map (moveUp (endAddress b k) k.size) := by
  have horder := h.order
  have hkind := hname.2.resolve_left hk
  cases q with
  | scalar n =>
    rw [location, location]
    by_cases hkn : kindOf n = k
    · have hstart : startAddress { shift k b with ram := m } k = startAddress b k := by
        cases k <;> rfl
      simp only [hkn, hstart, Function.update_self, position_create h ho hnone]
      have hstop := h.stop k
      by_cases hn : n = name
      · rw [if_pos hn, if_pos (congrArg Place.scalar hn), hstop]
        rfl
      · rw [if_neg hn, if_neg fun heq => hn (Place.scalar.inj heq)]
        cases hpos : position b.ram.byte n k.size (startAddress b k) (ns k) with
        | none => rfl
        | some i =>
          have hlt := entry_le k.size (position_spec hpos).1
          have hsize := k.size_pos
          refine congrArg Except.ok (if_pos ?_).symm
          omega
    · have hne : Place.scalar n ≠ .scalar name :=
        fun heq => hkn (by rw [Place.scalar.inj heq, hkind])
      have hk' : kindOf n ≠ .function := by
        unfold kindOf
        split_ifs <;> decide
      have hsize := (kindOf n).size_pos
      have hend : endAddress b (kindOf n) ≤ b.earryl := by
        cases kindOf n <;> simp only [endAddress] <;> omega
      have hstop := h.stop (kindOf n)
      have hold : position m.byte n (kindOf n).size
            (startAddress { shift k b with ram := m } (kindOf n)) (ns (kindOf n)) =
          position b.ram.byte n (kindOf n).size (startAddress b (kindOf n)) (ns (kindOf n)) := by
        refine position_congr fun i hi => read32_congr fun j hj => ?_
        obtain ⟨hmove,hout⟩ := startAddress_create h hk hkn hk' m hi
        have hlt := entry_le (kindOf n).size hi
        rw [hmove]
        exact ho.moved hout (by omega) (by omega)
      simp only [Function.update_of_ne hkn, hold, if_neg hne]
      cases hpos : position b.ram.byte n (kindOf n).size (startAddress b (kindOf n))
          (ns (kindOf n)) with
      | none => rfl
      | some i =>
        obtain ⟨hmove,hout⟩ := startAddress_create h hk hkn hk' m (position_spec hpos).1
        refine congrArg Except.ok ?_
        rw [hmove]
        unfold moveUp
        split_ifs <;> omega
  | element n is =>
    rw [if_neg (by simp), location, location]
    have hsarryl : ({ shift k b with ram := m } : Store).sarryl = b.sarryl + k.size := by
      cases k <;> rfl
    rw [hsarryl, select_add]
    cases hselect : select n is b.sarryl xs with
    | error e => rfl
    | ok a =>
      have hloc : location b ns xs (.element n is) = .ok a := by
        rw [location, hselect]
        rfl
      have hrange := h.element_range hloc
      refine congrArg Except.ok (if_neg ?_).symm
      cases k <;> simp only [endAddress] <;> omega

/-- The value of a new variable or element: a number is 0 and a string is empty. -/
def initial (name : ℕ) : List ℕ := if isString name then [] else [0,0,0,0]

theorem valueAt_zero (h : ∀ i < elementSize name, b.ram.byte (a + i) = 0) :
    valueAt b name a = initial name := by
  unfold elementSize at h
  unfold valueAt initial
  split_ifs at h ⊢
  · exact content_null (read_null h).2
  · have hzero : BytesAt b.ram.byte a [0,0,0,0] := fun i hi => by
      rw [h i hi]
      exact ((List.mem_replicate (n := 4)).mp (List.getElem_mem hi)).2.symm
    exact bytesFrom_eq hzero

/-- A variable more, with the others and the arrays moved. -/
theorem create_places (h : Layout b ns xs) (hname : Names k name) (hk : k ≠ .function)
    (hnone : gvar k name b = some none) (hfit : b.earryl + k.size < b.sstorl) :
    Layout (create k name b).2 (Function.update ns k (ns k + 1)) xs ∧
      location (create k name b).2 (Function.update ns k (ns k + 1)) xs (.scalar name) =
        .ok (create k name b).1 ∧
      ∀ q, Proper q → readPlace q (create k name b).2 =
        if q = .scalar name then some (initial name) else readPlace q b := by
  have ho := create_opened h hname hk
  have hkind := hname.2.resolve_left hk
  have hcreate : (create k name b).2 = { shift k b with ram := (create k name b).2.ram } := rfl
  have hfirst : (create k name b).1 = endAddress b k + 4 := rfl
  rw [h.gvar_eq, Option.some_inj, Option.map_eq_none_iff] at hnone
  rw [hfirst, hcreate]
  generalize (create k name b).2.ram = m at ho
  have hshifted := create_shifted h hk ho hfit
  have hlayout : Layout { shift k b with ram := m } (Function.update ns k (ns k + 1)) xs :=
    ⟨hshifted.machine h.toMachine,create_stop h hk m⟩
  have hlocation := create_location h hname hk ho hnone
  refine ⟨hlayout,by rw [hlocation, if_pos rfl],fun q hq => ?_⟩
  rw [hlayout.readPlace_eq hq, h.readPlace_eq hq, hlocation]
  split_ifs with hnew
  · subst hnew
    refine congrArg some (valueAt_zero fun i hi => ho.zero _ (by omega) ?_)
    change i < elementSize name at hi
    rw [← hkind, size_kindOf]
    omega
  · cases hloc : location b ns xs q with
    | error e => rfl
    | ok a =>
      have hout := h.beside hk hloc
      have hrange := h.range hloc
      refine congrArg some ?_
      by_cases hs : isString q.name = true
      · rw [elementSize, if_pos hs] at hout hrange
        rw [valueAt, valueAt, if_pos hs, if_pos hs]
        have hslot := location_slot hs hloc
        have hbelow := below_moveUp (endAddress b k) k.size a
        rw [hshifted.content h.toMachine (by rwa [hbelow]) fun i hi => by
          rw [hbelow]
          exact ho.moved hout hrange.2 hi, hbelow]
      · rw [elementSize, if_neg hs] at hout hrange
        rw [valueAt, valueAt, if_neg hs, if_neg hs]
        exact bytesFrom_congr fun i hi => ho.moved hout hrange.2 hi

/-! ### A new array -/

theorem locate_append (name a : ℕ) (xs : List ArrayShape) (x : ArrayShape) :
    locate name a (xs ++ [x]) =
      (locate name a xs).or (if x.name = name then some (x,a + sizes xs) else none) := by
  induction xs generalizing a with
  | nil => rfl
  | cons y xs ih =>
    rw [List.cons_append, locate, locate, ih, sizes_cons, Nat.add_assoc]
    split_ifs <;> rfl

theorem select_append {name a : ℕ} {is : List ℕ} {x : ArrayShape}
    (hnone : locate x.name a xs = none) :
    (select name is a (xs ++ [x])).toOption = if name = x.name ∧ x.InBounds is
      then some (x.address (a + sizes xs) is) else (select name is a xs).toOption := by
  rw [select, select, locate_append]
  by_cases hname : name = x.name
  · subst hname
    rw [hnone, if_pos rfl]
    simp only [Option.none_or, true_and]
    by_cases hin : x.InBounds is
    · rw [if_neg (not_not.mpr (inBounds_length hin)), if_pos hin, if_pos hin]
      rfl
    · rw [if_neg hin, if_neg hin]
      split_ifs <;> rfl
  · rw [if_neg (Ne.symm hname), Option.or_none, if_neg fun hboth => hname hboth.1]

/-- The elements of an array, from its bounds in reverse order. -/
def Dimensioned (name : ℕ) (bounds : List ℕ) : Place → Prop
  | .scalar _ => False
  | .element n indices => n = name ∧ Digits (bounds.map (· + 1)) indices.reverse

instance (name : ℕ) (bounds : List ℕ) : (q : Place) → Decidable (Dimensioned name bounds q)
  | .scalar _ => isFalse id
  | .element _ _ => inferInstanceAs (Decidable (_ ∧ _))

/-- An array more, and everything else as before. -/
theorem grown_places (h : Layout b ns xs) {x : ArrayShape} (hg : Grown b (ns .string) xs x b')
    (hnone : locate x.name b.sarryl xs = none) :
    Layout b' ns (xs ++ [x]) ∧ ∀ q, Proper q → readPlace q b' =
      if Dimensioned x.name x.bounds q then some (initial x.name) else readPlace q b := by
  have horder := h.order
  have hle := h.stack_le
  have hearryl := h.earryl
  have hsarryl : b'.sarryl = b.sarryl := (congrArg Store.sarryl hg.same :)
  have hstart : ∀ k, startAddress b' k = startAddress b k := by
    intro k
    rw [← hg.same]
    cases k <;> rfl
  have hlayout : Layout b' ns (xs ++ [x]) := by
    refine ⟨hg.machine,fun k => ?_⟩
    rw [hstart, ← h.stop, ← hg.same]
    cases k <;> rfl
  -- an old value
  have hold : ∀ {q a}, location b ns xs q = .ok a → valueAt b' q.name a = valueAt b q.name a := by
    intro q a hloc
    have hrange := h.range hloc
    by_cases hs : isString q.name = true
    · rw [valueAt, valueAt, if_pos hs, if_pos hs]
      exact hg.content a (location_slot hs hloc)
    · rw [elementSize, if_neg hs] at hrange
      rw [valueAt, valueAt, if_neg hs, if_neg hs]
      exact bytesFrom_congr fun j hj => hg.bytes _ (by omega) (by omega)
        (h.number_outside hs hloc hj)
  refine ⟨hlayout,fun q hq => ?_⟩
  rw [hlayout.readPlace_eq hq, h.readPlace_eq hq]
  cases q with
  | scalar n =>
    have hsame : location b' ns (xs ++ [x]) (.scalar n) = location b ns xs (.scalar n) := by
      rw [location, location, hstart]
      rw [position_congr fun i hi => read32_congr fun j hj => ?_]
      have hlt := entry_le (kindOf n).size hi
      have hstop := h.stop (kindOf n)
      have hsize := (kindOf n).size_pos
      have hends : b.sfncl ≤ startAddress b (kindOf n) ∧ endAddress b (kindOf n) ≤ b.earryl := by
        cases kindOf n <;> simp only [startAddress, endAddress] <;> omega
      exact hg.bytes _ (by omega) (by omega) (h.name_outside _ hi hj)
    rw [hsame, if_neg (show ¬ Dimensioned x.name x.bounds (.scalar n) from id)]
    cases hloc : location b ns xs (.scalar n) with
    | error e => rfl
    | ok a => exact congrArg some (hold hloc)
  | element n is =>
    have hoption : ∀ (b : Store) (ys : List ArrayShape),
        (location b ns ys (.element n is)).toOption = (select n is b.sarryl ys).toOption := by
      intro b ys
      rw [location]
      cases select n is b.sarryl ys <;> rfl
    rw [hoption, hoption, hsarryl, select_append hnone]
    by_cases hnew : n = x.name ∧ x.InBounds is
    · obtain ⟨rfl,hin⟩ := hnew
      obtain ⟨hfirst,hend⟩ := address_range hin b.earryl
      have hnew : Dimensioned x.name x.bounds (.element x.name is) := ⟨rfl,hin⟩
      rw [if_pos ⟨rfl,hin⟩, if_pos hnew, ← hearryl]
      exact congrArg some (valueAt_zero fun i hi =>
        hg.zero _ (by omega) (by change i < elementSize x.name at hi; omega))
    · have hold' : ¬ Dimensioned x.name x.bounds (.element n is) := hnew
      rw [if_neg hnew, if_neg hold', ← hoption b xs]
      cases hloc : location b ns xs (.element n is) with
      | error e => rfl
      | ok a => exact congrArg some (hold hloc)

end Betawise.BasicPlaces
