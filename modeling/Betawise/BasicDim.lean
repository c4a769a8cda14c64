import Betawise.BasicStringMachine

/-!
# DIM

The header of a new array is written behind the last array before it is known whether
there is room for the elements; garbage is collected if there is not. An overflow of the
end address is not noticed, as an addition to an address register leaves the flags alone.
-/
namespace Betawise.BasicDim
open LoggedRam BasicVariables BasicArrays BasicStringHeap BasicRoots BasicStrings
open BasicStringMachine SlidingHeap FallibleState

/-- `LAB_1EC0`: the bounds in the header, and the end of the header with the size of the
elements. Nothing is returned for an out of memory error. -/
def dimensions : List ℕ → ℕ → ℕ → Ram → Option (ℕ × ℕ) × Ram
  | [],a0,asptl,r => (some (a0,asptl),r)
  | d1::ds,a0,asptl,r =>
    match multiply d1 asptl with
    | none => (none,pokeBytes a0 (bytes16 d1) r)
    | some asptl => dimensions ds (a0 + 2) asptl (pokeBytes a0 (bytes16 d1) r)

/-- The words that `LAB_1ED8` clears: the low word of the counter is decremented before it
is tested, so that 0 counts as 65536. -/
def fillWords (size : ℕ) : ℕ :=
  let words := size / 2
  (if words % 65536 = 0 then 65536 else words % 65536) + words / 65536 * 65536

def clearDown : ℕ → ℕ → Ram → Ram
  | 0,_,r => r
  | n + 1,a0,r => clearDown n (a0 - 2) (pokeBytes (a0 - 2) [0,0] r)

/-- `LAB_1ED6` to the end: the elements are cleared, and the size of the array is known. -/
def finish (a a0 asptl : ℕ) (b : Store) : Store :=
  { b with
    earryl := a0
    ram := poke32 (a + 4) (a0 - a) (clearDown (fillWords asptl) a0 b.ram) }

/-- `LAB_1EA1` with `DIM`. -/
def build (name : ℕ) (bounds : List ℕ) (b : Store) : Outcome Store StringError Unit :=
  let a := b.earryl
  let ram := pokeBytes (a + 8) (bytes16 (bounds.length % 256)) (poke32 a name b.ram)
  match dimensions bounds.reverse (a + 10) (elementSize name) ram with
  | (none,ram) => some (.error .outOfMemory,{ b with ram := ram })
  | (some (a0,asptl),ram) =>
    let b := { b with ram := ram }
    let a0 := (a0 + asptl) % 4294967296
    if a0 < b.sstorl then some (.ok (),finish a a0 asptl b)
    else
      match garb b with
      | none => none
      | some b =>
        if a0 < b.sstorl then some (.ok (),finish a a0 asptl b)
        else some (.error .outOfMemory,b)

/-- `LAB_1E17` with `DIM`. -/
def dim (name : ℕ) (bounds : List ℕ) (b : Store) : Outcome Store StringError Unit :=
  if bounds.any fun n => decide (65536 ≤ n) then some (.error (.array .bounds),b)
  else
    match searchArray b.ram.byte name b.earryl (b.earryl - b.sarryl + 1) b.sarryl with
    | none => none
    | some (some _) => some (.error (.array .doubleDimension),b)
    | some none => build name bounds b

variable {b b' : Store} {k : ℕ} {xs : List ArrayShape} {x : ArrayShape} {name : ℕ} {ns : List ℕ}

/-! ### The header and the elements -/

theorem dimensions_spec {ns : List ℕ} {a p : ℕ} (r : Ram) (hp : p < 4294967296) :
    Within a (a + 2 * ns.length) r (dimensions ns a p r).2 ∧
      ((p * count ns < 4294967296 ∧
          (dimensions ns a p r).1 = some (a + 2 * ns.length,p * count ns) ∧
          BytesAt (dimensions ns a p r).2.byte a (ns.flatMap bytes16)) ∨
        (4294967296 ≤ p * count ns ∧ (dimensions ns a p r).1 = none)) := by
  induction ns generalizing a p r with
  | nil =>
    refine ⟨Within.refl _ _ r,Or.inl ⟨?_,?_,fun i hi => absurd hi (Nat.not_lt_zero i)⟩⟩
    · rwa [count, List.map_nil, List.prod_nil, Nat.mul_one]
    · rw [count, List.map_nil, List.prod_nil, Nat.mul_one]
      rfl
  | cons d ns ih =>
    have hcount : p * count (d::ns) = p * (d + 1) * count ns := by
      rw [Nat.mul_assoc]
      rfl
    have hpoke := within_pokeBytes a (bytes16 d) r
    have hmul : multiply d p = if p * (d + 1) < 4294967296 then some (p * (d + 1)) else none :=
      multiply_eq hp
    change Within a (a + 2) r (pokeBytes a (bytes16 d) r) at hpoke
    rw [hcount, List.length_cons]
    simp only [dimensions]
    by_cases hfit : p * (d + 1) < 4294967296
    · rw [if_pos hfit] at hmul
      obtain ⟨hwithin,hresult⟩ := ih (a := a + 2) (pokeBytes a (bytes16 d) r) hfit
      simp only [hmul]
      refine ⟨(hpoke.mono (Nat.le_refl _) (by omega)).trans (hwithin.mono (by omega) (by omega)),
        hresult.imp_left fun ⟨hlt,hsome,hbytes⟩ => ⟨hlt,?_,?_⟩⟩
      · rw [hsome]
        congr 2
        omega
      · rw [List.flatMap_cons]
        refine bytesAt_append.mpr ⟨?_,hbytes⟩
        exact hwithin.bytesAt (bytesAt_pokeBytes a (bytes16 d) r) (Or.inl (Nat.le_refl _))
    · rw [if_neg hfit] at hmul
      have hle : p * (d + 1) ≤ p * (d + 1) * count ns := Nat.le_mul_of_pos_right _ (count_pos ns)
      simp only [hmul]
      exact ⟨hpoke.mono (Nat.le_refl _) (by omega),Or.inr ⟨by omega,trivial⟩⟩

theorem clearDown_spec (n a : ℕ) (hle : 2 * n ≤ a) (r : Ram) :
    Within (a - 2 * n) a r (clearDown n a r) ∧
      ∀ y, a - 2 * n ≤ y → y < a → (clearDown n a r).byte y = 0 := by
  induction n generalizing a r with
  | zero => exact ⟨Within.refl _ _ r,fun y hlo hhi => absurd hhi (by omega)⟩
  | succ n ih =>
    obtain ⟨hwithin,hzero⟩ := ih (a - 2) (by omega) (pokeBytes (a - 2) [0,0] r)
    have hpoke := within_pokeBytes (a - 2) [0,0] r
    have hbytes := bytesAt_pokeBytes (a - 2) [0,0] r
    change Within (a - 2) (a - 2 + 2) _ _ at hpoke
    refine ⟨(hpoke.mono (by omega) (by omega)).trans (hwithin.mono (by omega) (by omega)),
      fun y hlo hhi => ?_⟩
    by_cases hlt : y < a - 2
    · exact hzero y (by omega) hlt
    · rw [clearDown, hwithin.frame y (by omega)]
      have hcase : y = a - 2 + 0 ∨ y = a - 2 + 1 := by omega
      rcases hcase with rfl | rfl
      · exact hbytes 0 (Nat.succ_pos _)
      · exact hbytes 1 (Nat.lt_succ_self _)

theorem fillWords_eq {size : ℕ} (heven : size % 2 = 0) (h : ¬ 131072 ∣ size) :
    2 * fillWords size = size := by
  have hne : ¬ size / 2 % 65536 = 0 := by omega
  rw [fillWords, if_neg hne]
  omega

/-- Of a multiple of 65536 words the low word of the counter is 0, and 128 KiB more are
cleared: the header of the array, and what stands in front of it. -/
theorem fillWords_overrun {size : ℕ} (h : 131072 ∣ size) :
    2 * fillWords size = size + 131072 := by
  have heq : size / 2 % 65536 = 0 := by omega
  rw [fillWords, if_pos heq]
  omega

/-! ### A new array -/

theorem elementRoots_append (a : ℕ) (xs ys : List ArrayShape) :
    elementRoots a (xs ++ ys) = elementRoots a xs ++ elementRoots (a + sizes xs) ys := by
  induction xs generalizing a with
  | nil => rfl
  | cons x xs ih =>
    rw [List.cons_append, elementRoots, ih, elementRoots, sizes_cons, List.append_assoc,
      Nat.add_assoc]

theorem headers_append {byte : ℕ → ℕ} {a : ℕ} {ys : List ArrayShape} (h : Headers byte a xs)
    (h' : Headers byte (a + sizes xs) ys) : Headers byte a (xs ++ ys) := by
  induction xs generalizing a with
  | nil => exact h'
  | cons x xs ih =>
    rw [sizes_cons, ← Nat.add_assoc] at h'
    exact ⟨h.1,ih h.2 h'⟩

theorem sizes_append (xs ys : List ArrayShape) : sizes (xs ++ ys) = sizes xs + sizes ys := by
  rw [sizes, List.map_append, List.sum_append]
  rfl

/-- An array more, with elements that are 0 or null strings. -/
structure Grown (b : Store) (k : ℕ) (xs : List ArrayShape) (x : ArrayShape) (b' : Store) :
    Prop where
  machine : Machine b' k (xs ++ [x]) 0
  earryl : b'.earryl = b.earryl + x.size
  same : { b' with ram := b.ram, earryl := b.earryl, sstorl := b.sstorl, a4 := b.a4 } = b
  bytes : ∀ y, b.desSk ≤ y → y < b.earryl → Outside (slots b k xs) y →
    b'.ram.byte y = b.ram.byte y
  content : ∀ r ∈ slots b k xs, content b' r = content b r
  zero : ∀ y, x.first b.earryl ≤ y → y < b.earryl + x.size → b'.ram.byte y = 0

theorem Grown.of_frame {b'' : Store} (h : Grown b' k xs x b'') (hf : Frame b k xs 0 b') :
    Grown b k xs x b'' where
  machine := h.machine
  earryl := by
    rw [h.earryl, hf.earryl]
  same := by
    rw [← hf.same, ← h.same]
  bytes y hlo hlt hout := by
    refine (h.bytes y ?_ ?_ ?_).trans (hf.bytes y hlo hlt hout)
    · rwa [hf.desSk]
    · rwa [hf.earryl]
    · rwa [hf.slots]
  content r hr := (h.content r (hf.slots ▸ hr)).trans (hf.slot r hr)
  zero y hlo hlt := by
    rw [← hf.earryl] at hlo hlt
    exact h.zero y hlo hlt

theorem grow (h : Machine b k xs 0) (hfit : b.earryl + x.size < b.sstorl) {m : Ram}
    (hw : Within b.earryl (b.earryl + x.size) b.ram m) (hheader : BytesAt m.byte b.earryl x.header)
    (hzero : ∀ y, x.first b.earryl ≤ y → y < b.earryl + x.size → m.byte y = 0) :
    Grown b k xs x { b with ram := m, earryl := b.earryl + x.size } := by
  have hle := h.sfncl_le
  have hle' := h.sarryl_le
  have hearryl := h.earryl
  have hold : ∀ r ∈ slots b k xs, ∀ i < 6, m.byte (r + i) = b.ram.byte (r + i) := by
    intro r hr i hi
    have := h.mem_slots hr
    exact hw.frame _ (by omega)
  have hslots : ∀ r ∈ slots { b with ram := m, earryl := b.earryl + x.size } k (xs ++ [x]),
      r ∈ slots b k xs ∨ r ∈ ArrayShape.roots x b.earryl := by
    intro r hr
    rcases List.mem_append.mp hr with hr | hr
    · exact Or.inl (List.mem_append_left _ hr)
    · rw [elementRoots_append] at hr
      rcases List.mem_append.mp hr with hr | hr
      · exact Or.inl (List.mem_append_right _ hr)
      · rw [hearryl]
        exact Or.inr ((List.mem_append.mp hr).resolve_right List.not_mem_nil)
  have hshifted : Shifted b k xs id { b with ram := m, earryl := b.earryl + x.size } k
      (xs ++ [x]) := by
    refine
      { slotsAt := { headers := ?_, earryl := ?_, sarryl := h.sarryl }, sfncl_le := hle,
        same := rfl, earryl_le := Nat.le_add_right _ _, fits := hfit,
        memory := fun y hy => hw.frame y (by change _ ∨ b.earryl + x.size ≤ y at hy; omega),
        slots := fun r hr => ?_, inj := fun r _ r' _ hne _ _ => hne }
    · refine headers_append (headers_congr h.headers fun y hlo hlt _ => hw.frame y ?_) ?_
      · change y < b.sarryl + sizes xs at hlt
        omega
      show BytesAt m.byte (b.sarryl + sizes xs) x.header ∧ True
      rw [← hearryl]
      exact ⟨hheader,trivial⟩
    · show b.earryl + x.size = b.sarryl + sizes (xs ++ [x])
      rw [sizes_append, hearryl, Nat.add_assoc]
      rfl
    · refine (hslots r hr).imp (fun hr => ⟨hr,hold r hr⟩) fun hr i hi => ?_
      obtain ⟨-,hlo,hhi⟩ := mem_roots_array hr
      exact hzero _ (by omega) (by omega)
  exact ⟨hshifted.machine h,rfl,rfl,fun y _ hlt _ => hw.frame y (by omega),
    fun r hr => hshifted.content h hr (hold r hr),hzero⟩

/-! ### The command -/

/-- The shape of an array from the numbers in the program. -/
structure Bounds (name : ℕ) (ns : List ℕ) : Prop where
  name_lt : name < 4294967296
  ne_nil : ns ≠ []
  length_lt : ns.length < 256
  lt : ∀ n ∈ ns, n < 65536

instance (name : ℕ) (ns : List ℕ) : Decidable (Bounds name ns) :=
  decidable_of_iff (name < 4294967296 ∧ ns ≠ [] ∧ ns.length < 256 ∧ ∀ n ∈ ns, n < 65536)
    ⟨fun ⟨h,h',h'',h₃⟩ => ⟨h,h',h'',h₃⟩,fun h => ⟨h.name_lt,h.ne_nil,h.length_lt,h.lt⟩⟩

/-- The bytes that an array needs. -/
def arraySize (name : ℕ) (ns : List ℕ) : ℕ :=
  10 + 2 * ns.length + elementSize name * count ns.reverse

/-- The bounds stand in the header in reverse order. -/
def shape (name : ℕ) (ns : List ℕ) (h : Bounds name ns) (hlt : arraySize name ns < 4294967296) :
    ArrayShape where
  name := name
  bounds := ns.reverse
  name_lt := h.name_lt
  bounds_ne := fun hnil => h.ne_nil (List.reverse_eq_nil_iff.mp hnil)
  dimensions_lt := by
    rw [List.length_reverse]
    exact h.length_lt
  bounds_lt n hn := h.lt n (List.mem_reverse.mp hn)
  size_lt := by
    rw [List.length_reverse]
    exact hlt

theorem finish_spec (h : Machine b k xs 0) {p : ℕ} (hp : p = elementSize x.name * count x.bounds)
    (hfit : b.earryl + x.size < b.sstorl) (hfill : ¬ 131072 ∣ p)
    (hname : BytesAt b.ram.byte b.earryl (bytes32 x.name))
    (hrest : BytesAt b.ram.byte (b.earryl + 8)
      (bytes16 x.bounds.length ++ x.bounds.flatMap bytes16)) :
    Grown b k xs x (finish b.earryl (b.earryl + x.size) p b) := by
  have hsize : x.size = 10 + 2 * x.bounds.length + p := by rw [hp, ArrayShape.size]
  have heven : p % 2 = 0 := by
    rw [hp, Nat.mul_mod, elementSize_even, Nat.zero_mul]
  have hwords := fillWords_eq heven hfill
  obtain ⟨hclear,hzero⟩ := clearDown_spec (fillWords p) (b.earryl + x.size) (by omega) b.ram
  have hlength : b.earryl + x.size - b.earryl = x.size := Nat.add_sub_cancel_left _ _
  have hbounds := x.bounds_ne
  unfold finish
  rw [hlength]
  generalize clearDown (fillWords p) (b.earryl + x.size) b.ram = m at hclear hzero ⊢
  have hpoke := within_poke32 (b.earryl + 4) x.size m
  refine grow h hfit ((hclear.mono (by omega) (Nat.le_refl _)).trans
    (hpoke.mono (by omega) (by omega))) ?_ fun y hlo hhi => ?_
  · have hhead : x.header = bytes32 x.name ++ (bytes32 x.size ++
        (bytes16 x.bounds.length ++ x.bounds.flatMap bytes16)) := by
      simp only [ArrayShape.header, List.append_assoc]
    have hlen : (bytes16 x.bounds.length ++ x.bounds.flatMap bytes16).length =
        2 + 2 * x.bounds.length := by
      rw [List.length_append, boundBytes_length]
      rfl
    rw [hhead]
    refine bytesAt_append.mpr ⟨?_,bytesAt_append.mpr ⟨bytesAt_pokeBytes _ _ _,?_⟩⟩
    · exact hpoke.bytesAt (hclear.bytesAt hname (Or.inl (by show b.earryl + 4 ≤ _; omega)))
        (Or.inl (Nat.le_refl _))
    · show BytesAt _ (b.earryl + 4 + 4) _
      exact hpoke.bytesAt (hclear.bytesAt hrest (Or.inl (by omega))) (Or.inr (by omega))
  · rw [ArrayShape.first] at hlo
    rw [hpoke.frame y (by omega)]
    exact hzero y (by omega) hhi

/-- The header as it is before the end of the array is known, all but the size. -/
structure HeaderAt (name : ℕ) (bounds : List ℕ) (a : ℕ) (m : Ram) : Prop where
  name : BytesAt m.byte a (bytes32 name)
  rest : BytesAt m.byte (a + 8) (bytes16 bounds.length ++ bounds.flatMap bytes16)

theorem HeaderAt.congr {bounds : List ℕ} {a : ℕ} {m m' : Ram} (h : HeaderAt name bounds a m)
    (hsame : ∀ y, a ≤ y → y < a + 10 + 2 * bounds.length → m'.byte y = m.byte y) :
    HeaderAt name bounds a m' where
  name := h.name.congr fun i hi => hsame _ (Nat.le_add_right _ _) (by
    change i < 4 at hi
    omega)
  rest := by
    refine h.rest.congr fun i hi => hsame _ (by omega) ?_
    rw [List.length_append, boundBytes_length] at hi
    change i < 2 + 2 * bounds.length at hi
    omega

/-- The header is written, and with it the bytes of the elements are counted. -/
def writeHeader (name : ℕ) (ns : List ℕ) (a : ℕ) (r : Ram) : Option (ℕ × ℕ) × Ram :=
  dimensions ns.reverse (a + 10) (elementSize name)
    (pokeBytes (a + 8) (bytes16 (ns.length % 256)) (poke32 a name r))

theorem writeHeader_spec (hns : ns.length < 256) (name a : ℕ) (r : Ram) :
    Within a (a + 10 + 2 * ns.length) r (writeHeader name ns a r).2 ∧
      ((elementSize name * count ns.reverse < 4294967296 ∧
          (writeHeader name ns a r).1 =
            some (a + 10 + 2 * ns.length,elementSize name * count ns.reverse) ∧
          HeaderAt name ns.reverse a (writeHeader name ns a r).2) ∨
        (4294967296 ≤ elementSize name * count ns.reverse ∧
          (writeHeader name ns a r).1 = none)) := by
  have hlen : ns.reverse.length = ns.length := List.length_reverse
  have hname := within_poke32 a name r
  have hnamed := bytesAt_pokeBytes a (bytes32 name) r
  have hcount := within_pokeBytes (a + 8) (bytes16 (ns.length % 256)) (poke32 a name r)
  have hcounted := bytesAt_pokeBytes (a + 8) (bytes16 (ns.length % 256)) (poke32 a name r)
  change Within (a + 8) (a + 8 + 2) _ _ at hcount
  change BytesAt (poke32 a name r).byte _ _ at hnamed
  obtain ⟨hdimensions,hresult⟩ := @dimensions_spec ns.reverse (a + 10) (elementSize name)
    (pokeBytes (a + 8) (bytes16 (ns.length % 256)) (poke32 a name r))
    (Nat.lt_of_le_of_lt (elementSize_le name) (by decide))
  rw [hlen] at hdimensions hresult
  refine ⟨((hname.mono (Nat.le_refl _) (by omega)).trans (hcount.mono (by omega) (by omega))).trans
    (hdimensions.mono (by omega) (Nat.le_refl _)),
    hresult.imp_left fun ⟨hlt,hsome,hbounds⟩ => ⟨hlt,hsome,?_,?_⟩⟩
  · exact hdimensions.bytesAt (hcount.bytesAt hnamed (Or.inl (by show _ + 4 ≤ _; omega)))
      (Or.inl (by show _ + 4 ≤ _; omega))
  · rw [hlen, ← Nat.mod_eq_of_lt hns]
    exact bytesAt_append.mpr ⟨hdimensions.bytesAt hcounted (Or.inl (Nat.le_refl _)),hbounds⟩

/-- What is written into the free bytes changes no string. -/
theorem free_written (h : Machine b k xs 0) {m : Ram} {hi : ℕ} (hw : Within b.earryl hi b.ram m)
    (hhi : hi ≤ b.sstorl) :
    Machine { b with ram := m } k xs 0 ∧ Frame b k xs 0 { b with ram := m } ∧
      usedSpace { b with ram := m } (slots b k xs) = usedSpace b (slots b k xs) := by
  have hmoved := h.strings.write hw (Nat.le_refl _) fun r hr hlive =>
    Or.inr (hhi.trans (h.above r hr hlive))
  have hempty : roots b k xs 0 = slots b k xs := List.append_nil _
  refine ⟨h.of_moved hmoved (fun r hr hlive => ?_) h.bottom h.top,h.frame_of_moved hmoved,
    hempty ▸ hmoved.usedSpace⟩
  have hbelow := h.strings.below r hr
  show b.sstorl ≤ read32 m.byte r
  rw [hw.read32 (Or.inl (by omega))]
  exact h.above r hr ((hmoved.inHeap r hr).mp hlive)

/-- Behind the header: the end is compared with `Sstorl`, once more after a collection. -/
def claim (a a0 asptl : ℕ) (b : Store) : Outcome Store StringError Unit :=
  if a0 < b.sstorl then some (.ok (),finish a a0 asptl b)
  else
    match garb b with
    | none => none
    | some b =>
      if a0 < b.sstorl then some (.ok (),finish a a0 asptl b)
      else some (.error .outOfMemory,b)

theorem build_eq (name : ℕ) (ns : List ℕ) (b : Store) :
    build name ns b = match writeHeader name ns b.earryl b.ram with
      | (none,m) => some (.error .outOfMemory,{ b with ram := m })
      | (some (a0,p),m) =>
        claim b.earryl ((a0 + p) % 4294967296) p { b with ram := m } := rfl

/-- Room for an array whose header stands: the bytes that FRE would report are enough. -/
theorem claim_spec (h : Machine b k xs 0)
    (hheader : b.earryl + 10 + 2 * x.bounds.length ≤ b.sstorl)
    (hat : HeaderAt x.name x.bounds b.earryl b.ram)
    (hfill : ¬ 131072 ∣ elementSize x.name * count x.bounds) :
    (usedSpace b (slots b k xs) + x.size < b.ememl - b.earryl ∧
      ∃ b', claim b.earryl (b.earryl + x.size) (elementSize x.name * count x.bounds) b =
        some (.ok (),b') ∧ Grown b k xs x b') ∨
    (b.ememl - b.earryl ≤ usedSpace b (slots b k xs) + x.size ∧
      ∃ b', claim b.earryl (b.earryl + x.size) (elementSize x.name * count x.bounds) b =
        some (.error .outOfMemory,b') ∧ Machine b' k xs 0 ∧ Frame b k xs 0 b') := by
  have hbottom := h.bottom
  have htop := h.top
  have hempty : roots b k xs 0 = slots b k xs := List.append_nil _
  have hused : usedSpace b (roots b k xs 0) ≤ b.ememl - b.sstorl := used_le h.laid h.above
  rw [hempty] at hused
  unfold claim
  by_cases hfit : b.earryl + x.size < b.sstorl
  · rw [if_pos hfit]
    exact Or.inl ⟨by omega,_,rfl,finish_spec h rfl hfit hfill hat.name hat.rest⟩
  · obtain ⟨b₂,hgarb,hc⟩ := garb_spec h.strings
    have hused₂ := hc.usedSpace
    have htop₂ := hc.full.le_top
    rw [hempty] at hused₂
    have hmachine₂ := h.of_moved hc.toMoved hc.place (by omega) htop₂
    have hframe₂ := h.frame_of_moved hc.toMoved
    have hearryl : b₂.earryl = b.earryl := hc.earryl
    rw [if_neg hfit, hgarb]
    simp only []
    by_cases hfit₂ : b.earryl + x.size < b₂.sstorl
    · rw [if_pos hfit₂]
      have hat₂ := hat.congr fun y hlo hhi => hc.outside y hlo (Or.inl (by omega))
      rw [← hearryl] at hat₂ hfit₂
      refine Or.inl ⟨by omega,_,rfl,?_⟩
      rw [← hearryl]
      exact (finish_spec hmachine₂ rfl hfit₂ hfill hat₂.name hat₂.rest).of_frame hframe₂
    · rw [if_neg hfit₂]
      exact Or.inr ⟨by omega,_,rfl,hmachine₂,hframe₂⟩

/-- What DIM does with a new name. -/
theorem build_spec (h : Machine b k xs 0) (hb : Bounds name ns)
    (hheader : b.earryl + 10 + 2 * ns.length ≤ b.sstorl)
    (hwrap : elementSize name * count ns.reverse < 4294967296 →
      b.earryl + arraySize name ns < 4294967296)
    (hfill : ¬ 131072 ∣ elementSize name * count ns.reverse) :
    (usedSpace b (slots b k xs) + arraySize name ns < b.ememl - b.earryl ∧
      ∃ x : ArrayShape, x.name = name ∧ x.bounds = ns.reverse ∧
        ∃ b', build name ns b = some (.ok (),b') ∧ Grown b k xs x b') ∨
    (b.ememl - b.earryl ≤ usedSpace b (slots b k xs) + arraySize name ns ∧
      ∃ b', build name ns b = some (.error .outOfMemory,b') ∧ Machine b' k xs 0 ∧
        Frame b k xs 0 b') := by
  obtain ⟨hwithin,hresult⟩ := writeHeader_spec hb.length_lt name b.earryl b.ram
  rw [build_eq]
  generalize writeHeader name ns b.earryl b.ram = result at hwithin hresult ⊢
  obtain ⟨found,m⟩ := result
  obtain ⟨hmachine,hframe,hspace⟩ := free_written h hwithin hheader
  rcases hresult with ⟨hlt,rfl,hat⟩ | ⟨hlarge,rfl⟩
  · have hfit := hwrap hlt
    let x : ArrayShape := shape name ns hb (by omega)
    have hsize : x.size = arraySize name ns := by
      rw [ArrayShape.size, arraySize]
      simp only [x, shape, List.length_reverse]
    have hend : (b.earryl + 10 + 2 * ns.length + elementSize name * count ns.reverse) %
        4294967296 = b.earryl + x.size := by
      rw [hsize, ← Nat.mod_eq_of_lt hfit, arraySize]
      congr 1
      omega
    have hlen : b.earryl + 10 + 2 * x.bounds.length ≤ b.sstorl := by
      show _ + 2 * ns.reverse.length ≤ _
      rwa [List.length_reverse]
    simp only [hend]
    rw [← hsize, ← hspace]
    rcases claim_spec (x := x) hmachine hlen hat hfill with
      ⟨hroom,b',heq,hgrown⟩ | ⟨hfull,b',heq,hmachine',hframe'⟩
    · exact Or.inl ⟨hroom,x,rfl,rfl,b',heq,hgrown.of_frame hframe⟩
    · exact Or.inr ⟨hfull,b',heq,hmachine',hframe.trans hframe'⟩
  · have hbottom := h.bottom
    have hmemory := h.ememl_lt
    exact Or.inr ⟨by rw [arraySize]; omega,_,rfl,hmachine,hframe⟩

/-- No overflow of the end is noticed: an array that reaches past the end of the address
space is granted when what is left of its end lies below the strings. -/
theorem build_wraps (hns : ns.length < 256)
    (hlt : elementSize name * count ns.reverse < 4294967296)
    (hend : (b.earryl + arraySize name ns) % 4294967296 < b.sstorl) :
    ∃ b', build name ns b = some (.ok (),b') ∧
      b'.earryl = (b.earryl + arraySize name ns) % 4294967296 := by
  obtain ⟨-,hresult⟩ := writeHeader_spec hns name b.earryl b.ram
  rw [build_eq]
  generalize writeHeader name ns b.earryl b.ram = result at hresult ⊢
  obtain ⟨found,m⟩ := result
  rcases hresult with ⟨-,rfl,-⟩ | ⟨hlarge,-⟩
  · have hsum : b.earryl + 10 + 2 * ns.length + elementSize name * count ns.reverse =
        b.earryl + arraySize name ns := by
      rw [arraySize]
      omega
    simp only [hsum, claim]
    rw [if_pos hend]
    exact ⟨_,rfl,rfl⟩
  · omega

-- DIM A(65535,16382) with `Earryl` at 0x40000
example : elementSize 0x41000000 * count [16382,65535] < 4294967296 ∧
    (0x40000 + arraySize 0x41000000 [65535,16382]) % 4294967296 = 14 := by decide

/-- An array is built if there is none of the name. -/
theorem dim_eq (h : ArraysAt b xs) (hlt : ∀ n ∈ ns, n < 65536) (name : ℕ) :
    dim name ns b = if locate name b.sarryl xs = none then build name ns b
      else some (.error (.array .doubleDimension),b) := by
  have hlength := length_le_sizes xs
  have hany : ¬ (ns.any fun n => decide (65536 ≤ n)) = true := by
    rw [List.any_eq_true]
    rintro ⟨n,hn,hle⟩
    have := hlt n hn
    have := of_decide_eq_true hle
    omega
  have hsearch : searchArray b.ram.byte name b.earryl (b.earryl - b.sarryl + 1) b.sarryl =
      some ((locate name b.sarryl xs).map Prod.snd) := by
    rw [h.earryl]
    exact searchArray_eq h.headers (by omega)
  rw [dim, if_neg hany, hsearch]
  cases locate name b.sarryl xs <;> rfl

end Betawise.BasicDim
