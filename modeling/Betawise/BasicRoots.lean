import Betawise.BasicStringHeap

/-!
# The descriptors in memory

Where the garbage collection finds the descriptors: in the string variables, in the
elements of the string arrays and on the descriptor stack. The walk reads names, array
headers and pointers of the interpreter, never a descriptor, so that a collection does
not change its own way.
-/
namespace Betawise.BasicRoots
open LoggedRam BasicVariables BasicArrays BasicStringHeap SlidingHeap

/-! ### The roots -/

/-- Descriptors of `n` string variables from `a` on. -/
def stringRoots (a n : ℕ) : List ℕ := (List.range n).map fun i => a + 10 * i + 4

/-- Descriptors `6` bytes apart. -/
def packedRoots (a n : ℕ) : List ℕ := (List.range n).map fun i => a + 6 * i

def ArrayShape.roots (x : ArrayShape) (a : ℕ) : List ℕ :=
  if isString x.name then packedRoots (x.first a) (count x.bounds) else []

/-- Descriptors of the arrays from `a` on. -/
def elementRoots : ℕ → List ArrayShape → List ℕ
  | _,[] => []
  | a,x::xs => ArrayShape.roots x a ++ elementRoots (a + x.size) xs

/-- The descriptors of `n` string variables and of the arrays. -/
def slots (b : Store) (n : ℕ) (xs : List ArrayShape) : List ℕ :=
  stringRoots b.sstrl n ++ elementRoots b.sarryl xs

variable {b b' : Store} {xs : List ArrayShape} {x : ArrayShape} {a n : ℕ} {byte byte' : ℕ → ℕ}
  {as bs : List ℕ}

theorem mem_stringRoots : a ∈ stringRoots b.sstrl n ↔ ∃ i < n, a = b.sstrl + 10 * i + 4 := by
  simp [stringRoots, eq_comm]

theorem mem_packedRoots {c : ℕ} : c ∈ packedRoots a n ↔ ∃ i < n, c = a + 6 * i := by
  simp [packedRoots, eq_comm]

theorem packedRoots_succ (a n : ℕ) : packedRoots a (n + 1) = a::packedRoots (a + 6) n := by
  rw [packedRoots, List.range_succ_eq_map, List.map_cons, List.map_map]
  refine congrArg _ (List.map_congr_left fun i _ => ?_)
  show a + 6 * (i + 1) = a + 6 + 6 * i
  omega

theorem stringRoots_succ (a n : ℕ) :
    stringRoots a (n + 1) = (a + 4)::stringRoots (a + 10) n := by
  rw [stringRoots, List.range_succ_eq_map, List.map_cons, List.map_map]
  refine congrArg _ (List.map_congr_left fun i _ => ?_)
  show a + 10 * (i + 1) + 4 = a + 10 + 10 * i + 4
  omega

theorem size_string (hs : isString x.name = true) :
    x.size = 10 + 2 * x.bounds.length + 6 * count x.bounds := by
  rw [ArrayShape.size, elementSize, if_pos hs]

theorem mem_roots_array {c : ℕ} (h : c ∈ ArrayShape.roots x a) :
    isString x.name = true ∧ x.first a ≤ c ∧ c + 6 ≤ a + x.size := by
  unfold ArrayShape.roots at h
  split_ifs at h with hs
  · obtain ⟨i,hi,rfl⟩ := mem_packedRoots.mp h
    refine ⟨hs,Nat.le_add_right _ _,?_⟩
    rw [size_string hs, ArrayShape.first]
    omega
  · exact absurd h (List.not_mem_nil)

theorem mem_elementRoots {c : ℕ} (h : c ∈ elementRoots a xs) :
    a + 12 ≤ c ∧ c + 6 ≤ a + sizes xs := by
  induction xs generalizing a with
  | nil => exact absurd h (List.not_mem_nil)
  | cons x xs ih =>
    have hhead := x.header_le
    have hlen := x.header_length
    rw [sizes_cons]
    rcases List.mem_append.mp h with h | h
    · obtain ⟨-,hfirst,hend⟩ := mem_roots_array h
      rw [ArrayShape.first] at hfirst
      omega
    · have := ih h
      omega

/-! ### The walk -/

theorem stringDescriptors_eq (a n : ℕ) {fuel : ℕ} (hfuel : n < fuel) :
    stringDescriptors (a + 10 * n) fuel (a + 4) = some (stringRoots a n,a + 10 * n + 4) := by
  induction n generalizing a fuel with
  | zero =>
    obtain ⟨fuel,rfl⟩ := Nat.exists_eq_succ_of_ne_zero (Nat.ne_of_gt hfuel)
    exact if_neg (by omega)
  | succ n ih =>
    obtain ⟨fuel,rfl⟩ := Nat.exists_eq_succ_of_ne_zero (Nat.ne_of_gt (Nat.zero_lt_of_lt hfuel))
    have hnext := ih (a + 10) (Nat.lt_of_succ_lt_succ hfuel)
    have hend : a + 10 * (n + 1) = a + 10 + 10 * n := by omega
    rw [stringDescriptors, if_pos (by omega), hend, show a + 4 + 10 = a + 10 + 4 from rfl, hnext,
      stringRoots_succ]
    rfl

theorem packedDescriptors_eq (a n : ℕ) {fuel : ℕ} (hfuel : n < fuel) :
    packedDescriptors (a + 6 * n) fuel a = some (packedRoots a n) := by
  induction n generalizing a fuel with
  | zero =>
    obtain ⟨fuel,rfl⟩ := Nat.exists_eq_succ_of_ne_zero (Nat.ne_of_gt hfuel)
    exact if_pos rfl
  | succ n ih =>
    obtain ⟨fuel,rfl⟩ := Nat.exists_eq_succ_of_ne_zero (Nat.ne_of_gt (Nat.zero_lt_of_lt hfuel))
    have hnext := ih (a + 6) (Nat.lt_of_succ_lt_succ hfuel)
    have hend : a + 6 * (n + 1) = a + 6 + 6 * n := by omega
    rw [packedDescriptors, if_neg (by omega), hend, hnext, packedRoots_succ]
    rfl

/-- The first element, and the others up to the next array. -/
theorem elements_eq (hs : isString x.name = true) (a : ℕ) :
    (packedDescriptors (a + x.size) (a + x.size - x.first a) (x.first a + 6)).map (x.first a::·) =
      some (ArrayShape.roots x a) := by
  obtain ⟨c,hc⟩ := Nat.exists_eq_succ_of_ne_zero (Nat.ne_of_gt (count_pos x.bounds))
  have hend : a + x.size = x.first a + 6 + 6 * c := by
    rw [size_string hs, ArrayShape.first]
    omega
  rw [hend, packedDescriptors_eq _ c (by omega), ArrayShape.roots, if_pos hs, hc, packedRoots_succ]
  rfl

/-- The walk over the arrays reads their headers only. -/
theorem arrayDescriptors_eq {fuel : ℕ} (h : Headers byte a xs) (hfuel : xs.length < fuel) :
    arrayDescriptors byte (a + sizes xs) fuel a = some (elementRoots a xs) := by
  induction xs generalizing a fuel with
  | nil =>
    obtain ⟨fuel,rfl⟩ := Nat.exists_eq_succ_of_ne_zero (Nat.ne_of_gt hfuel)
    exact if_pos rfl
  | cons x xs ih =>
    obtain ⟨fuel,rfl⟩ := Nat.exists_eq_succ_of_ne_zero (Nat.ne_of_gt (Nat.zero_lt_of_lt hfuel))
    have hpos := x.header_le
    have hhead := header_of_bytesAt h.1
    have hrest := ih h.2 (Nat.lt_of_succ_lt_succ hfuel)
    have hfirst : a + 2 * x.bounds.length + 10 = x.first a := by
      rw [ArrayShape.first]
      omega
    rw [sizes_cons, arrayDescriptors, if_neg (by omega)]
    simp only [hhead.size, ← Nat.add_assoc, hrest, hhead.name, hhead.dimensions, hfirst]
    by_cases hs : isString x.name = true
    · have helements := elements_eq hs a
      cases hpacked : packedDescriptors (a + x.size) (a + x.size - x.first a) (x.first a + 6) with
      | none => rw [hpacked] at helements; exact absurd helements nofun
      | some rest =>
        rw [hpacked] at helements
        rw [if_pos hs, elementRoots, ← Option.some.inj helements]
        rfl
    · rw [if_neg hs, elementRoots, ArrayShape.roots, if_neg hs]
      rfl

/-- Headers contain no descriptor. -/
theorem headers_congr (h : Headers byte a xs)
    (hsame : ∀ y, a ≤ y → y < a + sizes xs → Outside (elementRoots a xs) y → byte' y = byte y) :
    Headers byte' a xs := by
  induction xs generalizing a with
  | nil => trivial
  | cons x xs ih =>
    have hle := x.header_le
    have hlen := x.header_length
    rw [sizes_cons] at hsame
    refine ⟨h.1.congr fun i hi => hsame (a + i) (Nat.le_add_right _ _) (by omega) fun r hr => ?_,
      ih h.2 fun y hy hlt helse => hsame y (by omega) (by omega) fun r hr => ?_⟩
    · rcases List.mem_append.mp hr with hr | hr
      · obtain ⟨-,hfirst,-⟩ := mem_roots_array hr
        rw [ArrayShape.first] at hfirst
        omega
      · have := mem_elementRoots hr
        omega
    · rcases List.mem_append.mp hr with hr | hr
      · obtain ⟨-,-,hend⟩ := mem_roots_array hr
        omega
      · exact helse r hr

/-- String variables and arrays at their places. -/
structure SlotsAt (b : Store) (n : ℕ) (xs : List ArrayShape) : Prop extends ArraysAt b xs where
  sarryl : b.sarryl = b.sstrl + 10 * n

theorem mem_slots (h : SlotsAt b n xs) {r : ℕ} (hr : r ∈ slots b n xs) :
    b.sstrl + 4 ≤ r ∧ r + 6 ≤ b.earryl := by
  have hsarryl := h.sarryl
  have hearryl := h.earryl
  rcases List.mem_append.mp hr with hr | hr
  · obtain ⟨i,hi,rfl⟩ := mem_stringRoots.mp hr
    omega
  · have := mem_elementRoots hr
    omega

/-- The search finds its way also when descriptors have changed. -/
theorem slotDescriptors_eq (h : SlotsAt b n xs)
    (hsame : ∀ y, b.sstrl ≤ y → y < b.earryl → Outside (slots b n xs) y →
      byte y = b.ram.byte y) :
    slotDescriptors { b with ram := { b.ram with byte := byte } } = some (slots b n xs) := by
  have hlength := length_le_sizes xs
  have hsarryl := h.sarryl
  have hearryl := h.earryl
  have hstrings : stringDescriptors b.sarryl (b.sarryl - b.sstrl + 1) (b.sstrl + 4) =
      some (stringRoots b.sstrl n,b.sarryl + 4) := by
    rw [hsarryl]
    exact stringDescriptors_eq _ _ (by omega)
  have hheaders : Headers byte b.sarryl xs :=
    headers_congr h.headers fun y hy hlt helse => hsame y (by omega) (by omega) fun r hr => by
      rcases List.mem_append.mp hr with hr | hr
      · obtain ⟨i,hi,rfl⟩ := mem_stringRoots.mp hr
        omega
      · exact helse r hr
  have harrays : arrayDescriptors byte b.earryl (b.earryl - b.sarryl + 1) b.sarryl =
      some (elementRoots b.sarryl xs) := by
    rw [hearryl]
    exact arrayDescriptors_eq hheaders (by omega)
  simp only [slotDescriptors, hstrings, Nat.add_sub_cancel, harrays]
  rfl

/-! ### Descriptors do not overlap -/

theorem separate_append (h : Separate as) (h' : Separate bs)
    (hcross : ∀ a ∈ as, ∀ c ∈ bs, a + 6 ≤ c ∨ c + 6 ≤ a) : Separate (as ++ bs) := by
  intro a ha c hc hne
  rcases List.mem_append.mp ha with ha | ha <;> rcases List.mem_append.mp hc with hc | hc
  · exact h a ha c hc hne
  · exact hcross a ha c hc
  · exact (hcross c hc a ha).symm
  · exact h' a ha c hc hne

theorem separate_strings (a n : ℕ) : Separate (stringRoots a n) := by
  intro c hc d hd hne
  obtain ⟨i,-,rfl⟩ := List.mem_map.mp hc
  obtain ⟨j,-,rfl⟩ := List.mem_map.mp hd
  omega

theorem separate_packed (a n : ℕ) : Separate (packedRoots a n) := by
  intro c hc d hd hne
  obtain ⟨i,-,rfl⟩ := mem_packedRoots.mp hc
  obtain ⟨j,-,rfl⟩ := mem_packedRoots.mp hd
  omega

theorem separate_elements (a : ℕ) (xs : List ArrayShape) : Separate (elementRoots a xs) := by
  induction xs generalizing a with
  | nil => exact nofun
  | cons x xs ih =>
    refine separate_append ?_ (ih _) fun c hc d hd => ?_
    · unfold ArrayShape.roots
      split_ifs
      · exact separate_packed _ _
      · exact nofun
    · have := mem_roots_array hc
      have := mem_elementRoots hd
      omega

theorem separate_slots (h : SlotsAt b n xs) : Separate (slots b n xs) := by
  have hsarryl := h.sarryl
  refine separate_append (separate_strings _ _) (separate_elements _ _) fun c hc d hd => ?_
  obtain ⟨i,hi,rfl⟩ := mem_stringRoots.mp hc
  have := mem_elementRoots hd
  omega

end Betawise.BasicRoots
