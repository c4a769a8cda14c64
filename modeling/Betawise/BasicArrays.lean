import Betawise.BasicVariables
import Betawise.MixedRadix

/-!
# Arrays

An array has a name, its whole size, the number of its dimensions, a bound for each and
its elements. The bounds come off the stack, so that the last one stands first; the
elements are in the order of that mixed radix.
-/
namespace Betawise.BasicArrays
open LoggedRam BasicVariables MixedRadix

/-! ### The search for an element -/

def read16 (byte : ℕ → ℕ) (a : ℕ) : ℕ := byte a * 256 + byte (a + 1)

def bytes16 (v : ℕ) : List ℕ := [v / 256 % 256,v % 256]

inductive ArrayError where
  | doubleDimension
  | wrongDimensions
  | undimensioned
  | bounds
  | outOfMemory
  deriving DecidableEq

/-- Bytes of an element. -/
def elementSize (name : ℕ) : ℕ := if isString name then 6 else 4

/-- `LAB_1F7C`: `asptl * (d1 + 1)` from products of 16 bits, or an out of memory error. -/
def multiply (d1 asptl : ℕ) : Option ℕ :=
  let d0 := asptl % 65536 * d1
  let d2 := asptl / 65536 * d1
  if d2 / 65536 ≠ 0 then none
  else
    let d0 := d0 + d2 % 65536 * 65536
    if 4294967296 ≤ d0 then none
    else
      let d0 := d0 + asptl
      if 4294967296 ≤ d0 then none else some d0

/-- `LAB_1E5C`: the start of an array. -/
def searchArray (byte : ℕ → ℕ) (name earryl : ℕ) : ℕ → ℕ → Option (Option ℕ)
  | 0,_ => none
  | fuel + 1,a0 =>
    if a0 = earryl then some none
    else if read32 byte a0 = name then some (some a0)
    else searchArray byte name earryl fuel (read32 byte (a0 + 4) + a0)

/-- `LAB_1F2C`: the number of an element and the start of the elements, from the indices as
they come off the stack. -/
def offset (byte : ℕ → ℕ) : List ℕ → ℕ → ℕ → Except ArrayError (ℕ × ℕ)
  | [],a0,d0 => .ok (d0,a0)
  | i::is,a0,d0 =>
    let d1 := read16 byte a0
    if d1 < i then .error .bounds
    else if d0 = 0 then offset byte is (a0 + 2) i
    else
      match multiply d1 d0 with
      | none => .error .outOfMemory
      | some d0 => offset byte is (a0 + 2) ((d0 + i) % 4294967296)

/-- `LAB_1E17` without `DIM`: the address of an element. -/
def element (name : ℕ) (indices : List ℕ) (b : Store) : Option (Except ArrayError ℕ) :=
  if indices.any fun i => decide (65536 ≤ i) then some (.error .bounds)
  else
    match searchArray b.ram.byte name b.earryl (b.earryl - b.sarryl + 1) b.sarryl with
    | none => none
    | some none => some (.error .undimensioned)
    | some (some a) =>
      if read16 b.ram.byte (a + 8) % 256 ≠ indices.length % 256 then
        some (.error .wrongDimensions)
      else
        match offset b.ram.byte indices.reverse (a + 10) 0 with
        | .error e => some (.error e)
        | .ok (asptl,a0) =>
          match multiply (elementSize name - 1) asptl with
          | none => some (.error .outOfMemory)
          | some d0 => some (.ok (a0 + d0))

/-! ### Arrays in memory -/

/-- The number of elements. -/
def count (bounds : List ℕ) : ℕ := (bounds.map (· + 1)).prod

structure ArrayShape where
  name : ℕ
  bounds : List ℕ
  name_lt : name < 4294967296
  bounds_ne : bounds ≠ []
  dimensions_lt : bounds.length < 256
  bounds_lt : ∀ n ∈ bounds, n < 65536
  size_lt : 10 + 2 * bounds.length + elementSize name * count bounds < 4294967296

namespace ArrayShape

def size (x : ArrayShape) : ℕ := 10 + 2 * x.bounds.length + elementSize x.name * count x.bounds

def header (x : ArrayShape) : List ℕ :=
  bytes32 x.name ++ bytes32 x.size ++ bytes16 x.bounds.length ++ x.bounds.flatMap bytes16

/-- The elements start behind the header. -/
def first (x : ArrayShape) (a : ℕ) : ℕ := a + 10 + 2 * x.bounds.length

/-- The indices, in their order in the program, are within the bounds. -/
def InBounds (x : ArrayShape) (indices : List ℕ) : Prop :=
  Digits (x.bounds.map (· + 1)) indices.reverse

instance (x : ArrayShape) (indices : List ℕ) : Decidable (x.InBounds indices) :=
  inferInstanceAs (Decidable (Digits _ _))

/-- The address of an element of an array at `a`. -/
def address (x : ArrayShape) (a : ℕ) (indices : List ℕ) : ℕ :=
  x.first a + elementSize x.name * rank 0 (x.bounds.map (· + 1)) indices.reverse

end ArrayShape

/-- The arrays from `a` on. -/
def Headers (byte : ℕ → ℕ) : ℕ → List ArrayShape → Prop
  | _,[] => True
  | a,x::xs => BytesAt byte a x.header ∧ Headers byte (a + x.size) xs

def sizes (xs : List ArrayShape) : ℕ := (xs.map ArrayShape.size).sum

/-- The first array with the name, and where it is. -/
def locate (name : ℕ) : ℕ → List ArrayShape → Option (ArrayShape × ℕ)
  | _,[] => none
  | a,x::xs => if x.name = name then some (x,a) else locate name (a + x.size) xs

/-- What the search for an element finds. -/
def select (name : ℕ) (indices : List ℕ) (a : ℕ) (xs : List ArrayShape) : Except ArrayError ℕ :=
  match locate name a xs with
  | none => .error .undimensioned
  | some (x,a) =>
    if indices.length ≠ x.bounds.length then .error .wrongDimensions
    else if x.InBounds indices then .ok (x.address a indices)
    else .error .bounds

structure ArraysAt (b : Store) (xs : List ArrayShape) : Prop where
  headers : Headers b.ram.byte b.sarryl xs
  earryl : b.earryl = b.sarryl + sizes xs

variable {b : Store} {xs : List ArrayShape} {x : ArrayShape} {name a : ℕ}
  {byte byte' : ℕ → ℕ} {is ns : List ℕ}

theorem multiply_eq {d1 p : ℕ} (hp : p < 4294967296) :
    multiply d1 p = if p * (d1 + 1) < 4294967296 then some (p * (d1 + 1)) else none := by
  have hsplit : p * (d1 + 1) = p % 65536 * d1 + p / 65536 * d1 * 65536 + p := by
    have hp := Nat.div_add_mod' p 65536
    calc p * (d1 + 1) = (p / 65536 * 65536 + p % 65536) * d1 + p := by rw [hp, Nat.mul_succ]
      _ = p % 65536 * d1 + p / 65536 * d1 * 65536 + p := by ring
  simp only [multiply]
  rw [hsplit]
  generalize p % 65536 * d1 = low
  generalize p / 65536 * d1 = high
  split_ifs <;> first | omega | exact congrArg some (by omega) | rfl

theorem elementSize_pos (name : ℕ) : 4 ≤ elementSize name := by
  unfold elementSize
  split_ifs <;> decide

theorem elementSize_le (name : ℕ) : elementSize name ≤ 6 := by
  unfold elementSize
  split_ifs <;> decide

theorem elementSize_even (name : ℕ) : elementSize name % 2 = 0 := by
  unfold elementSize
  split_ifs <;> rfl

theorem count_pos (ns : List ℕ) : 0 < count ns := by
  induction ns with
  | nil => exact Nat.zero_lt_one
  | cons n ns ih => exact Nat.mul_pos (Nat.succ_pos n) ih

theorem boundBytes_length (ns : List ℕ) : (ns.flatMap bytes16).length = 2 * ns.length := by
  induction ns with
  | nil => rfl
  | cons n ns ih =>
    rw [List.flatMap_cons, List.length_append, ih, List.length_cons]
    simp only [bytes16, List.length_cons, List.length_nil]
    omega

namespace ArrayShape

theorem header_length (x : ArrayShape) : x.header.length = 10 + 2 * x.bounds.length := by
  simp only [header, List.length_append, boundBytes_length]
  rfl

theorem size_even (x : ArrayShape) : x.size % 2 = 0 := by
  have := elementSize_even x.name
  rw [size, Nat.add_mod, Nat.mul_mod, this]
  omega

theorem header_le (x : ArrayShape) : 12 ≤ x.header.length ∧ x.header.length < x.size := by
  have := List.length_pos_of_ne_nil x.bounds_ne
  have := Nat.mul_pos (Nat.lt_of_lt_of_le (by decide) (elementSize_pos x.name)) (count_pos x.bounds)
  rw [x.header_length, size]
  omega

end ArrayShape

theorem read16_bytes16 {v : ℕ} (h : BytesAt byte a (bytes16 v)) (hv : v < 65536) :
    read16 byte a = v := by
  have h0 := h 0 (by simp [bytes16])
  have h1 := h 1 (by simp [bytes16])
  simp only [bytes16, Nat.add_zero, List.getElem_cons_zero, List.getElem_cons_succ] at h0 h1
  rw [read16, h0, h1]
  omega

theorem sizes_cons (x : ArrayShape) (xs : List ArrayShape) : sizes (x::xs) = x.size + sizes xs :=
  List.sum_cons

theorem length_le_sizes (xs : List ArrayShape) : 12 * xs.length ≤ sizes xs := by
  induction xs with
  | nil => exact Nat.le_refl _
  | cons x xs ih =>
    have := x.header_le
    rw [sizes_cons, List.length_cons]
    omega

/-- What the header of an array says. -/
structure Header (byte : ℕ → ℕ) (a : ℕ) (x : ArrayShape) : Prop where
  name : read32 byte a = x.name
  size : read32 byte (a + 4) = x.size
  dimensions : read16 byte (a + 8) = x.bounds.length
  bounds : BytesAt byte (a + 10) (x.bounds.flatMap bytes16)

theorem header_of_bytesAt (h : BytesAt byte a x.header) : Header byte a x := by
  obtain ⟨hhead,hbounds⟩ := bytesAt_append.mp h
  obtain ⟨hhead,hdimensions⟩ := bytesAt_append.mp hhead
  obtain ⟨hname,hsize⟩ := bytesAt_append.mp hhead
  have hlt := x.dimensions_lt
  exact ⟨hname.read32 x.name_lt,hsize.read32 x.size_lt,read16_bytes16 hdimensions (by omega),
    hbounds⟩

/-- The search ends at the first array with the name, or behind the last one. -/
theorem searchArray_eq {fuel : ℕ} (h : Headers byte a xs) (hfuel : xs.length < fuel) :
    searchArray byte name (a + sizes xs) fuel a = some ((locate name a xs).map Prod.snd) := by
  induction xs generalizing a fuel with
  | nil =>
    obtain ⟨fuel,rfl⟩ := Nat.exists_eq_succ_of_ne_zero (Nat.ne_of_gt hfuel)
    exact if_pos rfl
  | cons x xs ih =>
    obtain ⟨fuel,rfl⟩ := Nat.exists_eq_succ_of_ne_zero (Nat.ne_of_gt (Nat.zero_lt_of_lt hfuel))
    have hhead := header_of_bytesAt h.1
    have hpos := x.header_le
    have hrest := ih h.2 (Nat.lt_of_succ_lt_succ hfuel)
    rw [Nat.add_assoc] at hrest
    rw [sizes_cons, searchArray, if_neg (by omega), hhead.name, hhead.size, Nat.add_comm x.size a,
      hrest, locate]
    split_ifs <;> rfl

/-- The array that is found is in memory. -/
theorem locate_spec {stop : ℕ} (h : Headers byte a xs) (hend : a + sizes xs = stop) {y : ArrayShape}
    {c : ℕ} (hfind : locate name a xs = some (y,c)) :
    y ∈ xs ∧ y.name = name ∧ BytesAt byte c y.header ∧ a ≤ c ∧ c + y.size ≤ stop := by
  induction xs generalizing a with
  | nil => exact absurd hfind nofun
  | cons x xs ih =>
    rw [sizes_cons] at hend
    rw [locate] at hfind
    split_ifs at hfind with hname
    · obtain ⟨rfl,rfl⟩ := Prod.mk.inj (Option.some.inj hfind)
      exact ⟨List.mem_cons_self,hname,h.1,Nat.le_refl _,by omega⟩
    · obtain ⟨hmem,hname,hbytes,hlow,hhigh⟩ := ih h.2 (by omega) hfind
      exact ⟨List.mem_cons_of_mem _ hmem,hname,hbytes,by omega,hhigh⟩

/-! ### The address of an element -/

/-- Within the bounds the loop computes the rank, and an index beyond its bound is an
error. `4294967296` bounds what is left to be multiplied. -/
theorem offset_spec {acc n : ℕ} (h : BytesAt byte a (ns.flatMap bytes16))
    (hlt : ∀ n ∈ ns, n < 65536) (hlen : is.length = ns.length) (hacc : acc < n)
    (hn : n * count ns < 4294967296) :
    (Digits (ns.map (· + 1)) is ∧
      offset byte is a acc = .ok (rank acc (ns.map (· + 1)) is,a + 2 * ns.length)) ∨
    (¬ Digits (ns.map (· + 1)) is ∧ offset byte is a acc = .error .bounds) := by
  induction ns generalizing is a acc n with
  | nil =>
    obtain rfl := List.length_eq_zero_iff.mp hlen
    exact Or.inl ⟨.nil,rfl⟩
  | cons d ns ih =>
    obtain ⟨i,is,rfl⟩ := List.exists_cons_of_length_eq_add_one hlen
    obtain ⟨hd,hlt⟩ := List.forall_mem_cons.mp hlt
    obtain ⟨hbound,hbounds⟩ := bytesAt_append.mp h
    have hread := read16_bytes16 hbound hd
    have hcount : count (d::ns) = (d + 1) * count ns := rfl
    rw [hcount, ← Nat.mul_assoc] at hn
    by_cases hi : d < i
    · refine Or.inr ⟨fun hdigits => ?_,?_⟩
      · cases hdigits with
        | cons hhead _ => exact absurd (Nat.lt_succ_iff.mp hhead) (by omega)
      · simp only [offset, hread, if_pos hi]
    · have hstep : acc * (d + 1) + i < n * (d + 1) := mul_add_lt hacc (by omega)
      have hle : n * (d + 1) ≤ n * (d + 1) * count ns := Nat.le_mul_of_pos_right _ (count_pos ns)
      have hnext : offset byte (i::is) a acc = offset byte is (a + 2) (acc * (d + 1) + i) := by
        simp only [offset, hread, if_neg hi]
        by_cases hzero : acc = 0
        · rw [if_pos hzero, hzero, Nat.zero_mul, Nat.zero_add]
        · have hle' : acc ≤ acc * (d + 1) := Nat.le_mul_of_pos_right _ (Nat.succ_pos d)
          rw [if_neg hzero, multiply_eq (by omega), if_pos (by omega)]
          simp only []
          rw [Nat.mod_eq_of_lt (by omega)]
      have hrest : a + 2 * (d::ns).length = a + 2 + 2 * ns.length := by
        rw [List.length_cons]
        omega
      rw [hnext, hrest]
      refine (ih hbounds hlt (Nat.succ.inj hlen) hstep hn).imp ?_ ?_
      · rintro ⟨hdigits,hoffset⟩
        exact ⟨.cons (Nat.lt_succ_of_le (Nat.le_of_not_lt hi)) hdigits,hoffset⟩
      · rintro ⟨hdigits,hoffset⟩
        refine ⟨fun hall => ?_,hoffset⟩
        cases hall with
        | cons _ htail => exact hdigits htail

theorem rank_lt_count (h : Digits (ns.map (· + 1)) is) : rank 0 (ns.map (· + 1)) is < count ns := by
  have := rank_lt h (Nat.zero_lt_one)
  rwa [Nat.one_mul] at this

/-- What the search for an element returns, for every name and all indices. -/
theorem element_eq (h : ArraysAt b xs) (his : ∀ i ∈ is, i < 65536) (hlen : is.length < 256)
    (name : ℕ) : element name is b = some (select name is b.sarryl xs) := by
  have hany : ¬ (is.any fun i => decide (65536 ≤ i)) = true := by
    rw [List.any_eq_true]
    rintro ⟨i,hi,hle⟩
    have := his i hi
    have := of_decide_eq_true hle
    omega
  have hlength := length_le_sizes xs
  have hearryl := h.earryl
  have hsearch : searchArray b.ram.byte name (b.sarryl + sizes xs) (b.earryl - b.sarryl + 1)
      b.sarryl = some ((locate name b.sarryl xs).map Prod.snd) :=
    searchArray_eq h.headers (by omega)
  rw [← hearryl] at hsearch
  simp only [element, if_neg hany, hsearch, select]
  cases hfind : locate name b.sarryl xs with
  | none => rfl
  | some found =>
    obtain ⟨x,a⟩ := found
    obtain ⟨-,hname,hbytes,-,-⟩ := locate_spec h.headers hearryl.symm hfind
    have hhead := header_of_bytesAt hbytes
    simp only [Option.map_some, hhead.dimensions]
    rw [Nat.mod_eq_of_lt x.dimensions_lt, Nat.mod_eq_of_lt hlen]
    by_cases hwrong : is.length ≠ x.bounds.length
    · rw [if_pos hwrong.symm, if_pos hwrong]
    · have hsame : is.length = x.bounds.length := not_not.mp hwrong
      have hsize := x.size_lt
      have hpos := elementSize_pos x.name
      have hcount : count x.bounds ≤ elementSize x.name * count x.bounds :=
        Nat.le_mul_of_pos_left _ (by omega)
      have hreverse : is.reverse.length = x.bounds.length := by
        rw [List.length_reverse, hsame]
      have hoffset := offset_spec (n := 1) hhead.bounds x.bounds_lt hreverse Nat.zero_lt_one
        (by omega)
      rw [if_neg fun hne => hwrong (Ne.symm hne), if_neg hwrong]
      rcases hoffset with ⟨hin,hoffset⟩ | ⟨hout,hoffset⟩
      · have hrank := rank_lt_count hin
        have hmul := Nat.mul_lt_mul_of_pos_left hrank (show 0 < elementSize x.name by omega)
        have hstep : elementSize name - 1 + 1 = elementSize x.name := by
          rw [← hname]
          omega
        rw [hoffset, if_pos (show x.InBounds is from hin)]
        simp only []
        rw [multiply_eq (by omega), hstep, Nat.mul_comm (rank ..), if_pos (by omega)]
        rfl
      · rw [hoffset, if_neg (show ¬ x.InBounds is from hout)]

/-- The addresses of the elements of an array: one for each list of indices within the
bounds, next to each other, from the end of the header to the end of the array. -/
theorem address_bijOn (x : ArrayShape) (a : ℕ) :
    Set.BijOn (x.address a) { is | x.InBounds is }
      { y | ∃ i < count x.bounds, y = x.first a + elementSize x.name * i } := by
  have hpos := elementSize_pos x.name
  refine ⟨fun is his => ⟨_,rank_lt_count his,rfl⟩,fun is his js hjs heq => ?_,?_⟩
  · have hmul := Nat.add_left_cancel heq
    have hrank := Nat.eq_of_mul_eq_mul_left (show 0 < elementSize x.name by omega) hmul
    exact List.reverse_injective (rank_inj his hjs hrank).2
  · rintro y ⟨i,hi,rfl⟩
    have hprod : i < 1 * (x.bounds.map (· + 1)).prod := by
      rwa [Nat.one_mul]
    obtain ⟨acc,hacc,ds,hds,hrank⟩ := exists_rank hprod
    obtain rfl : acc = 0 := by omega
    refine ⟨ds.reverse,?_,?_⟩
    · show Digits _ ds.reverse.reverse
      rwa [List.reverse_reverse]
    · rw [ArrayShape.address, List.reverse_reverse, hrank]

theorem inBounds_length (h : x.InBounds is) : is.length = x.bounds.length := by
  have hlen := List.Forall₂.length_eq h
  rwa [List.length_map, List.length_reverse, eq_comm] at hlen

theorem inBounds_lt (h : x.InBounds is) : ∀ i ∈ is, i < 65536 := by
  intro i hi
  obtain ⟨r,hr,hlt⟩ := Digits.exists_radix h i (List.mem_reverse.mpr hi)
  obtain ⟨n,hn,rfl⟩ := List.mem_map.mp hr
  exact Nat.lt_of_lt_of_le hlt (x.bounds_lt n hn)

/-- Indices within the bounds find the elements one to one, each at a place of its own from
the end of the header to the end of the array, and all other indices are an error. -/
theorem element_bijOn (h : ArraysAt b xs) (hfind : locate name b.sarryl xs = some (x,a)) :
    Set.BijOn (fun is => element name is b) { is | x.InBounds is }
      { o | ∃ i < count x.bounds, o = some (.ok (x.first a + elementSize x.name * i)) } ∧
    ∀ is, is.length < 256 → ¬ x.InBounds is → ∃ e, element name is b = some (.error e) := by
  have hin : ∀ {is}, x.InBounds is → element name is b = some (.ok (x.address a is)) := by
    intro is his
    have hlen := inBounds_length his
    have hlt := x.dimensions_lt
    rw [element_eq h (inBounds_lt his) (by omega), select, hfind]
    simp only [if_neg (not_not.mpr hlen), if_pos his]
  obtain ⟨hmaps,hinj,hsurj⟩ := address_bijOn x a
  refine ⟨⟨fun is his => ?_,fun is his js hjs heq => ?_,?_⟩,fun is hlen hout => ?_⟩
  · obtain ⟨i,hi,haddress⟩ := hmaps his
    exact ⟨i,hi,(hin his).trans (by rw [haddress])⟩
  · refine hinj his hjs ?_
    have hboth := (hin his).symm.trans (heq.trans (hin hjs))
    exact Except.ok.inj (Option.some.inj hboth)
  · rintro o ⟨i,hi,rfl⟩
    obtain ⟨is,his,haddress⟩ := hsurj ⟨i,hi,rfl⟩
    exact ⟨is,his,(hin his).trans (by rw [haddress])⟩
  · by_cases hlt : ∀ i ∈ is, i < 65536
    swap
    · -- an index that is no word
      obtain ⟨i,hi,hle⟩ : ∃ i ∈ is, 65536 ≤ i := by simpa using hlt
      exact ⟨.bounds,if_pos (List.any_eq_true.mpr ⟨i,hi,decide_eq_true hle⟩)⟩
    rw [element_eq h hlt hlen, select, hfind]
    by_cases hdim : is.length ≠ x.bounds.length
    · exact ⟨.wrongDimensions,by simp only [if_pos hdim]⟩
    · exact ⟨.bounds,by simp only [if_neg hdim, if_neg hout]⟩

/-- `A(1,2)`. -/
def smallArray : ArrayShape where
  name := 0x41000000
  bounds := [2,1]
  name_lt := by decide
  bounds_ne := by decide
  dimensions_lt := by decide
  bounds_lt := by decide
  size_lt := by decide

def smallArrays : Store :=
  ⟨⟨fun y => smallArray.header.getD (y - 32) 0,[]⟩,32,32,32,32,32 + smallArray.size,100,100,24,24⟩

theorem element_bijOn_small :
    Set.BijOn (fun is => element 0x41000000 is smallArrays) { is | smallArray.InBounds is }
      { o | ∃ i < 6, o = some (.ok (46 + 4 * i)) } := by
  have harrays : ArraysAt smallArrays [smallArray] := by
    refine ⟨⟨fun i hi => ?_,trivial⟩,rfl⟩
    show smallArray.header.getD (32 + i - 32) 0 = _
    rw [Nat.add_sub_cancel_left, List.getD_eq_getElem?_getD, List.getElem?_eq_getElem hi]
    rfl
  exact (element_bijOn harrays rfl).1

end Betawise.BasicArrays
