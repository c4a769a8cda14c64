import Betawise.BasicStrings

/-!
# What string operations keep

All descriptors point to strings of the program or of the string memory, where strings
do not overlap. Each operation keeps this and the value of every descriptor that is in
use, whether or not it collects garbage.
-/
namespace Betawise.BasicStringMachine
open LoggedRam BasicVariables BasicArrays BasicStringHeap BasicRoots BasicStrings SlidingHeap
open FallibleState
open BasicMemory (evenLength)

/-- The descriptors of `k` string variables, of the arrays, and `n` on the stack. -/
def roots (b : Store) (k : ℕ) (xs : List ArrayShape) (n : ℕ) : List ℕ :=
  slots b k xs ++ packedRoots b.a4 n

/-- A string in front of the functions: of the program or of the input buffer. -/
def InText (b : Store) (p n : ℕ) : Prop := b.desSk ≤ p ∧ p + n ≤ b.sfncl

instance (b : Store) (p n : ℕ) : Decidable (InText b p n) := inferInstanceAs (Decidable (_ ∧ _))

structure Valid (b : Store) (r : ℕ) : Prop where
  pointer_lt : read32 b.ram.byte r < 4294967296
  length_lt : read16 b.ram.byte (r + 4) < 65536
  string : read16 b.ram.byte (r + 4) = 0 ∨ InHeap b r ∨
    InText b (read32 b.ram.byte r) (read16 b.ram.byte (r + 4))

structure Machine (b : Store) (k : ℕ) (xs : List ArrayShape) (n : ℕ) : Prop
    extends SlotsAt b k xs where
  stack : b.desSk = b.a4 + 6 * n
  depth : n ≤ 4
  stack_ge : 24 ≤ b.desSk
  stack_le : b.desSk ≤ b.sfncl
  sfncl_le : b.sfncl ≤ b.sstrl
  laid : Laid b.earryl b.ememl (space b.ram.byte) (roots b k xs n) (read32 b.ram.byte)
  valid : ∀ r ∈ roots b k xs n, Valid b r
  above : ∀ r ∈ roots b k xs n, InHeap b r → b.sstorl ≤ read32 b.ram.byte r
  bottom : b.earryl < b.sstorl
  top : b.sstorl ≤ b.ememl
  ememl_lt : b.ememl < 4294967296

variable {b b' b'' : Store} {k n n' : ℕ} {xs : List ArrayShape} {r : ℕ}

namespace Machine

theorem sarryl_le (h : Machine b k xs n) : b.sstrl ≤ b.sarryl ∧ b.sarryl ≤ b.earryl := by
  have := h.sarryl
  have := h.earryl
  omega

theorem mem_slots (h : Machine b k xs n) (hr : r ∈ slots b k xs) :
    b.sstrl + 4 ≤ r ∧ r + 6 ≤ b.earryl :=
  BasicRoots.mem_slots h.toSlotsAt hr

theorem mem_stack (h : Machine b k xs n) (hr : r ∈ packedRoots b.a4 n) :
    b.a4 ≤ r ∧ r + 6 ≤ b.desSk := by
  have hstack := h.stack
  obtain ⟨i,hi,rfl⟩ := mem_packedRoots.mp hr
  omega

theorem mem_roots (h : Machine b k xs n) (hr : r ∈ roots b k xs n) :
    r + 6 ≤ b.desSk ∨ b.sstrl + 4 ≤ r ∧ r + 6 ≤ b.earryl := by
  rcases List.mem_append.mp hr with hr | hr
  · exact Or.inr (h.mem_slots hr)
  · exact Or.inl (h.mem_stack hr).2

theorem separate (h : Machine b k xs n) : Separate (roots b k xs n) := by
  have hle := h.stack_le
  have hle' := h.sfncl_le
  refine separate_append (separate_slots h.toSlotsAt) (separate_packed _ _) fun a ha c hc => ?_
  have := h.mem_slots ha
  have := h.mem_stack hc
  omega

theorem strings (h : Machine b k xs n) : Strings b (roots b k xs n) where
  walk byte hsame := by
    have hle := h.stack_le
    have hle' := h.sfncl_le
    have hslots : slotDescriptors { b with ram := { b.ram with byte := byte } } =
        some (slots b k xs) :=
      slotDescriptors_eq h.toSlotsAt fun y hy hlt helse => hsame y hlt fun r hr => by
        rcases List.mem_append.mp hr with hr | hr
        · exact helse.elsewhere r hr
        · have := h.mem_stack hr
          omega
    have hpacked : packedDescriptors b.desSk (b.desSk - b.a4 + 1) b.a4 =
        some (packedRoots b.a4 n) := by
      have hstack := h.stack
      rw [hstack]
      exact packedDescriptors_eq _ _ (by omega)
    simp only [descriptors, hslots, hpacked]
    rfl
  below r hr := by
    have hle := h.stack_le
    have hle' := h.sfncl_le
    have hle'' := h.sarryl_le
    rcases h.mem_roots hr with hr | hr <;> omega
  separate := h.separate
  laid := h.laid
  length_lt r hr := (h.valid r hr).length_lt
  earryl_le := (Nat.le_of_lt h.bottom).trans h.top
  ememl_lt := h.ememl_lt

theorem aboveAll (h : Machine b k xs n) : Above b (roots b k xs n) :=
  ⟨h.strings,h.above,Nat.le_of_lt h.bottom,h.top⟩

end Machine

/-! ### Memory that stays -/

/-- From one state to another the variables, the arrays, the text, and the first `n` strings
on the stack are kept. -/
structure Frame (b : Store) (k : ℕ) (xs : List ArrayShape) (n : ℕ) (b' : Store) : Prop where
  same : { b' with ram := b.ram, sstorl := b.sstorl, a4 := b.a4 } = b
  bytes : ∀ x, b.desSk ≤ x → x < b.earryl → Outside (slots b k xs) x →
    b'.ram.byte x = b.ram.byte x
  slot : ∀ r ∈ slots b k xs, content b' r = content b r
  stack : ∀ i < n, content b' (b.desSk - 6 * (i + 1)) = content b (b.desSk - 6 * (i + 1))

theorem Frame.slots (h : Frame b k xs n b') : slots b' k xs = slots b k xs := by
  rw [← h.same]
  rfl

theorem Frame.desSk (h : Frame b k xs n b') : b'.desSk = b.desSk :=
  (congrArg Store.desSk h.same :)

theorem Frame.earryl (h : Frame b k xs n b') : b'.earryl = b.earryl :=
  (congrArg Store.earryl h.same :)

theorem Frame.refl (b : Store) (k : ℕ) (xs : List ArrayShape) (n : ℕ) : Frame b k xs n b :=
  ⟨rfl,fun _ _ _ _ => rfl,fun _ _ => rfl,fun _ _ => rfl⟩

theorem Frame.trans (h : Frame b k xs n b') (h' : Frame b' k xs n b'') : Frame b k xs n b'' where
  same := by
    rw [← h.same, ← h'.same]
  bytes x hlo hhi helse := by
    rw [← h.desSk] at hlo
    rw [← h.slots] at helse
    exact (h'.bytes x hlo (h.earryl ▸ hhi) helse).trans
      (h.bytes x (h.desSk ▸ hlo) hhi (h.slots ▸ helse))
  slot r hr := (h'.slot r (h.slots ▸ hr)).trans (h.slot r hr)
  stack i hi := by
    have := h'.stack i hi
    rw [h.desSk] at this
    exact this.trans (h.stack i hi)

theorem Frame.mono (h : Frame b k xs n' b') (hle : n ≤ n') : Frame b k xs n b' :=
  ⟨h.same,h.bytes,h.slot,fun i hi => h.stack i (by omega)⟩

theorem bytesFrom_succ (byte : ℕ → ℕ) (a l : ℕ) :
    bytesFrom byte a (l + 1) = byte a::bytesFrom byte (a + 1) l := by
  rw [bytesFrom, List.range_succ_eq_map, List.map_cons, List.map_map]
  refine congrArg _ (List.map_congr_left fun i _ => ?_)
  show byte (a + (i + 1)) = byte (a + 1 + i)
  congr 1
  omega

theorem bytesFrom_last (byte : ℕ → ℕ) (a l : ℕ) :
    bytesFrom byte a (l + 1) = bytesFrom byte a l ++ [byte (a + l)] := by
  rw [bytesFrom, List.range_succ, List.map_append]
  rfl

theorem bytesFrom_add (byte : ℕ → ℕ) (a l l' : ℕ) :
    bytesFrom byte a (l + l') = bytesFrom byte a l ++ bytesFrom byte (a + l) l' := by
  rw [bytesFrom, List.range_add, List.map_append, List.map_map]
  refine congrArg _ (List.map_congr_left fun i _ => ?_)
  show byte (a + (l + i)) = byte (a + l + i)
  rw [Nat.add_assoc]

theorem bytesFrom_part {byte : ℕ → ℕ} {a o l len : ℕ} (h : o + l ≤ len) :
    bytesFrom byte (a + o) l = ((bytesFrom byte a len).drop o).take l := by
  obtain ⟨c,rfl⟩ := Nat.exists_eq_add_of_le h
  have hlength : (bytesFrom byte a o).length = o := by
    rw [bytesFrom, List.length_map, List.length_range]
  have hlength' : (bytesFrom byte (a + o) l).length = l := by
    rw [bytesFrom, List.length_map, List.length_range]
  rw [bytesFrom_add, bytesFrom_add, List.append_assoc, List.drop_left' hlength,
    List.take_left' hlength']

theorem content_null (h : read16 b.ram.byte (r + 4) = 0) : content b r = [] := by
  rw [content, h]
  rfl

namespace Machine

theorem elsewhere (h : Machine b k xs n) {x : ℕ} (hx : b.desSk ≤ x)
    (hout : Outside (slots b k xs) x) : Elsewhere (roots b k xs n) x := by
  intro r hr
  rcases List.mem_append.mp hr with hr | hr
  · exact hout.elsewhere r hr
  · have := h.mem_stack hr
    omega

theorem elsewhere_text (h : Machine b k xs n) {x : ℕ} (hx : b.desSk ≤ x) (hlt : x < b.sfncl) :
    Elsewhere (roots b k xs n) x :=
  h.elsewhere hx fun r hr => by
    have := h.mem_slots hr
    have := h.sfncl_le
    omega

theorem stack_mem (h : Machine b k xs n) {i : ℕ} (hi : i < n) :
    b.desSk - 6 * (i + 1) ∈ roots b k xs n := by
  have hstack := h.stack
  exact List.mem_append_right _ (mem_packedRoots.mpr ⟨n - 1 - i,by omega,by omega⟩)

theorem slot_mem (hr : r ∈ slots b k xs) : r ∈ roots b k xs n := List.mem_append_left _ hr

/-- Strings that have moved have their bytes, and all others are where they were. -/
theorem content_moved (h : Machine b k xs n) (hm : Moved b (roots b k xs n) b')
    (hr : r ∈ roots b k xs n) : content b' r = content b r := by
  have hlen := hm.length r hr
  by_cases hlive : InHeap b r
  · exact hm.content r hr hlive
  · rcases (h.valid r hr).string with hzero | hin | ⟨hlo,hhi⟩
    · rw [content_null hzero, content_null (hlen.trans hzero)]
    · exact absurd hin hlive
    · have hle := h.sarryl_le
      have hle' := h.sfncl_le
      refine content_congr (hm.others r hr hlive) hlen fun i hi => hm.frame _ (by omega) ?_
      exact h.elsewhere_text (by omega) (by omega)

theorem frame_of_moved (h : Machine b k xs n) (hm : Moved b (roots b k xs n) b') :
    Frame b k xs n b' where
  same := by
    conv_rhs => rw [← hm.same]
    rw [← hm.same]
  bytes x hlo hhi helse := hm.frame x hhi (h.elsewhere hlo helse)
  slot r hr := h.content_moved hm (slot_mem hr)
  stack i hi := h.content_moved hm (h.stack_mem hi)

theorem of_moved (h : Machine b k xs n) (hm : Moved b (roots b k xs n) b')
    (habove : ∀ r ∈ roots b k xs n, InHeap b' r → b'.sstorl ≤ read32 b'.ram.byte r)
    (hbottom : b.earryl < b'.sstorl) (htop : b'.sstorl ≤ b.ememl) : Machine b' k xs n := by
  have hframe := h.frame_of_moved hm
  have ha4 : b'.a4 = b.a4 := (congrArg Store.a4 hm.same :)
  have hroots : roots b' k xs n = roots b k xs n := by
    rw [roots, roots, hframe.slots, ha4]
  have hdesSk := hframe.desSk
  have hearryl := hframe.earryl
  have hsfncl : b'.sfncl = b.sfncl := (congrArg Store.sfncl hm.same :)
  have hsstrl : b'.sstrl = b.sstrl := (congrArg Store.sstrl hm.same :)
  have hsarryl : b'.sarryl = b.sarryl := (congrArg Store.sarryl hm.same :)
  have hememl := hm.ememl
  have hle := h.stack_le
  have hle' := h.sfncl_le
  have hstop := h.sarryl
  have hend := h.earryl
  refine
    { headers := ?_, earryl := ?_, sarryl := ?_, stack := ?_, depth := h.depth, stack_ge := ?_,
      stack_le := ?_, sfncl_le := ?_, laid := ?_, valid := fun r hr => ?_, above := ?_,
      bottom := ?_, top := ?_, ememl_lt := ?_ }
  · rw [hsarryl]
    refine headers_congr h.headers fun y hy hlt helse => hframe.bytes y (by omega) (by omega) ?_
    intro r hr
    rcases List.mem_append.mp hr with hr | hr
    · obtain ⟨i,hi,rfl⟩ := mem_stringRoots.mp hr
      omega
    · exact helse r hr
  · rw [hearryl, hsarryl, hend]
  · rw [hsarryl, hsstrl, hstop]
  · rw [hdesSk, ha4, h.stack]
  · rw [hdesSk]
    exact h.stack_ge
  · rw [hdesSk, hsfncl]
    exact hle
  · rw [hsfncl, hsstrl]
    exact hle'
  · rw [hroots]
    exact hm.strings.laid
  · rw [hroots] at hr
    have hlen := hm.length r hr
    have hvalid := h.valid r hr
    have hmemory := h.ememl_lt
    by_cases hlive : InHeap b r
    · have hlive' := (hm.inHeap r hr).mpr hlive
      have hbounded := hm.strings.laid.bounded r hr hlive'
      exact ⟨by omega,by rw [hlen]; exact hvalid.length_lt,Or.inr (Or.inl hlive')⟩
    · refine ⟨by rw [hm.others r hr hlive]; exact hvalid.pointer_lt,
        by rw [hlen]; exact hvalid.length_lt,?_⟩
      rw [hlen, InText, hdesSk, hsfncl, hm.others r hr hlive]
      exact hvalid.string.imp_right fun hor => Or.inr (hor.resolve_left hlive)
  · rw [hroots]
    exact habove
  · rwa [hearryl]
  · rwa [hememl]
  · rw [hememl]
    exact h.ememl_lt

end Machine

/-! ### Space -/

/-- `n` bytes from the bottom of the string memory on are free. -/
structure Fresh (b : Store) (as : List ℕ) (n : ℕ) : Prop where
  free : ∀ r ∈ as, InHeap b r → b.sstorl + n ≤ read32 b.ram.byte r
  top : b.sstorl + n ≤ b.ememl

/-- An allocation does not wrap around below address 0, and does not take the last byte of
the memory: a string at `Earryl` is not found by the next collection. -/
def Roomy (n : ℕ) (b : Store) : Prop :=
  evenLength n ≤ b.earryl ∧ Whenever (allocate n b) fun _ b' => b'.earryl < b'.sstorl

instance (n : ℕ) (b : Store) : Decidable (Roomy n b) := inferInstanceAs (Decidable (_ ∧ _))

theorem allocate_spec (h : Machine b k xs n) {l : ℕ} (hpos : 0 < l) (hroomy : Roomy l b) :
    Yields (allocate l b)
      (fun p b' => p = b'.sstorl ∧ Machine b' k xs n ∧ Frame b k xs n b' ∧
        Fresh b' (roots b' k xs n) (evenLength l))
      (fun b' => Machine b' k xs n ∧ Frame b k xs n b') := by
  obtain ⟨hsmall,hloose⟩ := hroomy
  rcases makeSpace_spec h.aboveAll hpos hsmall with ⟨-,b',hmake,hgranted⟩ | ⟨-,b',hmake,hcollected⟩
  · have hallocate : allocate l b = some (.ok b'.sstorl,b') := by rw [allocate, hmake]
    rw [hallocate] at hloose ⊢
    have hbottom : b.earryl < b'.sstorl := by
      rw [← hgranted.earryl]
      exact hloose
    have htop := hgranted.top
    have hframe := h.frame_of_moved hgranted.toMoved
    have ha4 : b'.a4 = b.a4 := (congrArg Store.a4 hgranted.same :)
    refine ⟨rfl,h.of_moved hgranted.toMoved (fun r hr hlive => ?_) hbottom (by omega),hframe,?_,?_⟩
    · have := hgranted.free r hr hlive
      omega
    · rw [roots, hframe.slots, ha4]
      exact hgranted.free
    · rw [hgranted.ememl]
      exact htop
  · have hallocate : allocate l b = some (.error .outOfMemory,b') := by rw [allocate, hmake]
    rw [hallocate]
    have hbottom := hcollected.bottom
    have := Nat.lt_of_lt_of_le h.bottom h.top
    exact ⟨h.of_moved hcollected.toMoved hcollected.place (by omega) hcollected.full.le_top,
      h.frame_of_moved hcollected.toMoved⟩

/-! ### The descriptor stack -/

/-- A string that a new descriptor may point to. -/
structure New (b : Store) (as : List ℕ) (p l : ℕ) : Prop where
  length_lt : l < 65536
  pointer_lt : p < 4294967296
  string : l = 0 ∧ p ≤ b.earryl ∨ InText b p l ∨
    0 < l ∧ b.earryl < p ∧ b.sstorl ≤ p ∧ p + evenLength l ≤ b.ememl ∧
      ∀ r ∈ as, InHeap b r →
        p + evenLength l ≤ read32 b.ram.byte r ∨ read32 b.ram.byte r + space b.ram.byte r ≤ p

theorem read16_pokeBytes (a : ℕ) {v : ℕ} (hv : v < 65536) (r : Ram) :
    read16 (pokeBytes a (bytes16 v) r).byte a = v :=
  read16_bytes16 (bytesAt_pokeBytes _ _ _) hv

theorem Machine.stack_le_mem (h : Machine b k xs n) (hr : r ∈ roots b k xs n) : b.a4 ≤ r := by
  have hstack := h.stack
  have hle := h.stack_le
  have hle' := h.sfncl_le
  rcases List.mem_append.mp hr with hr | hr
  · have := h.mem_slots hr
    omega
  · exact (h.mem_stack hr).1

/-- Stores below the stack leave the descriptors and their strings alone. -/
theorem Machine.content_below (h : Machine b k xs n) {m : Ram} (hr : r ∈ roots b k xs n)
    (hbyte : ∀ x, b.a4 ≤ x → m.byte x = b.ram.byte x) :
    read32 m.byte r = read32 b.ram.byte r ∧ read16 m.byte (r + 4) = read16 b.ram.byte (r + 4) ∧
      content { b with ram := m } r = content b r := by
  have hle := h.stack_le_mem hr
  have hstack := h.stack
  have hdesSk := h.stack_le
  have hle' := h.sfncl_le
  have hle'' := h.sarryl_le
  have hp : read32 m.byte r = read32 b.ram.byte r :=
    read32_congr fun i hi => hbyte _ (by omega)
  have hl : read16 m.byte (r + 4) = read16 b.ram.byte (r + 4) := by
    rw [read16, read16, hbyte _ (by omega), hbyte _ (by omega)]
  refine ⟨hp,hl,?_⟩
  rcases (h.valid r hr).string with hzero | hlive | ⟨hlo,-⟩
  · rw [content_null hzero, content_null (b := { b with ram := m }) (hl.trans hzero)]
  · rw [InHeap] at hlive
    exact content_congr hp hl fun i hi => hbyte _ (by omega)
  · exact content_congr hp hl fun i hi => hbyte _ (by omega)

/-- A string behind the arrays is one in the heap, and overlaps no other. -/
theorem New.live {as : List ℕ} {p l : ℕ} (hnew : New b as p l) (hle : b.sfncl ≤ b.earryl)
    (hlow : b.earryl < p) : 0 < l ∧ b.sstorl ≤ p ∧ p + evenLength l ≤ b.ememl ∧
      ∀ r ∈ as, InHeap b r → p + evenLength l ≤ read32 b.ram.byte r ∨
        read32 b.ram.byte r + space b.ram.byte r ≤ p := by
  rcases hnew.string with ⟨-,hlow⟩ | ⟨hlo,hhi⟩ | ⟨hpos,-,habove,hrest⟩
  · omega
  · omega
  · exact ⟨hpos,habove,hrest⟩

/-- A descriptor stands at `d`, and nothing behind it has changed. -/
structure Pushed (d p l : ℕ) (r m : Ram) : Prop where
  frame : ∀ x, d + 6 ≤ x → m.byte x = r.byte x
  pointer : read32 m.byte d = p
  length : read16 m.byte (d + 4) = l

theorem pushed_descriptor {p l : ℕ} (hp : p < 4294967296) (hl : l < 65536) (d : ℕ) (r : Ram) :
    Pushed d p l r (poke32 d p (pokeBytes (d + 4) (bytes16 l) r)) := by
  have hlength := within_pokeBytes (d + 4) (bytes16 l) r
  have hpointer := within_poke32 d p (pokeBytes (d + 4) (bytes16 l) r)
  change Within (d + 4) (d + 4 + 2) _ _ at hlength
  refine ⟨fun x hx => (hpointer.frame x (by omega)).trans (hlength.frame x (by omega)),
    read32_poke32 d hp _,?_⟩
  rw [read16, hpointer.frame _ (by omega), hpointer.frame _ (by omega)]
  exact read16_pokeBytes (d + 4) hl r

/-- With one more descriptor on the stack the memory is in order. -/
theorem Pushed.machine {d p l : ℕ} {m : Ram} (hpushed : Pushed d p l b.ram m)
    (h : Machine b k xs n) (hd : b.a4 = d + 6) (hdepth : n < 4)
    (hnew : New b (roots b k xs n) p l) : Machine { b with a4 := d, ram := m } k xs (n + 1) := by
  have hstack := h.stack
  have hle := h.stack_le
  have hle' := h.sfncl_le
  have hle'' := h.sarryl_le
  obtain ⟨hframe,hp,hl⟩ := hpushed
  rw [← hd] at hframe
  have hold : ∀ r ∈ roots b k xs n, _ := fun r hr => h.content_below hr hframe
  have hroots : ∀ r ∈ roots { b with a4 := d, ram := m } k xs (n + 1),
      r = d ∨ r ∈ roots b k xs n := by
    intro r hr
    rcases List.mem_append.mp hr with hr | hr
    · exact Or.inr (List.mem_append_left _ hr)
    · change r ∈ packedRoots d (n + 1) at hr
      rw [packedRoots_succ, ← hd] at hr
      exact (List.mem_cons.mp hr).imp_right (List.mem_append_right _)
  have hlive := hnew.live (by omega)
  have hspace : space m.byte d = evenLength l := congrArg evenLength hl
  refine
    { headers := ?_, earryl := h.earryl, sarryl := h.sarryl, stack := ?_, depth := hdepth,
      stack_ge := h.stack_ge, stack_le := hle, sfncl_le := hle', laid := ?_,
      valid := fun r hr => ?_, above := fun r hr hlow => ?_, bottom := h.bottom, top := h.top,
      ememl_lt := h.ememl_lt }
  · refine headers_congr h.headers fun y hy _ _ => hframe y ?_
    change b.sarryl ≤ y at hy
    omega
  · show b.desSk = d + 6 * (n + 1)
    omega
  · have hsame : Laid b.earryl b.ememl (space m.byte) (roots b k xs n) (read32 m.byte) :=
      h.laid.congr (fun r hr => congrArg evenLength (hold r hr).2.1) fun r hr => (hold r hr).1
    refine hsame.insert hroots ?_ ?_ ?_
    · rw [hp, hspace]
      intro hlow
      exact Nat.lt_of_lt_of_le (hlive hlow).1 (Nat.le_add_right _ _)
    · rw [hp, hspace]
      exact fun hlow => (hlive hlow).2.2.1
    · rw [hp, hspace]
      intro r hr hlow hlow'
      have hspace' : space m.byte r = space b.ram.byte r := congrArg evenLength (hold r hr).2.1
      rw [(hold r hr).1] at hlow' ⊢
      rw [hspace']
      exact (hlive hlow).2.2.2 r hr hlow'
  · show Valid { b with a4 := d, ram := m } r
    rcases hroots r hr with rfl | hr
    · have hstring : l = 0 ∨ b.earryl < p ∨ InText b p l := by
        rcases hnew.string with ⟨hzero,-⟩ | htext | ⟨-,hlow,-⟩
        · exact Or.inl hzero
        · exact Or.inr (Or.inr htext)
        · exact Or.inr (Or.inl hlow)
      rw [← hp, ← hl] at hstring
      exact ⟨by rw [hp]; exact hnew.pointer_lt,by rw [hl]; exact hnew.length_lt,hstring⟩
    · obtain ⟨hp',hl',-⟩ := hold r hr
      obtain ⟨hpointer,hlength,hstring⟩ := h.valid r hr
      rw [InHeap, ← hp', ← hl'] at hstring
      exact ⟨by rw [hp']; exact hpointer,by rw [hl']; exact hlength,hstring⟩
  · rcases hroots r hr with rfl | hr
    · change b.earryl < read32 m.byte r at hlow
      show b.sstorl ≤ read32 m.byte r
      rw [hp] at hlow ⊢
      exact (hlive hlow).2.1
    · change b.earryl < read32 m.byte r at hlow
      show b.sstorl ≤ read32 m.byte r
      rw [(hold r hr).1] at hlow ⊢
      exact h.above r hr hlow

/-- A new string on the stack, or an error if there are four already. -/
theorem pushString_spec (h : Machine b k xs n) {p l : ℕ} (hnew : New b (roots b k xs n) p l) :
    Yields (pushString p l b)
      (fun d b' => d = b.desSk - 6 * (n + 1) ∧ Machine b' k xs (n + 1) ∧ Frame b k xs n b' ∧
        content b' d = bytesFrom b.ram.byte p l)
      (fun b' => b' = b) := by
  have hstack := h.stack
  have hge := h.stack_ge
  have hdepth := h.depth
  have hle := h.stack_le
  have hle' := h.sfncl_le
  have hle'' := h.sarryl_le
  unfold pushString
  by_cases hfull : b.a4 = b.desSk - 24
  · rw [if_pos hfull]
    exact rfl
  rw [if_neg hfull]
  obtain ⟨d,hd⟩ : ∃ d, b.a4 = d + 6 := ⟨b.a4 - 6,by omega⟩
  have hroom : b.a4 - 6 = d := by omega
  simp only [hroom]
  have hpushed := pushed_descriptor hnew.pointer_lt hnew.length_lt d b.ram
  generalize poke32 d p (pokeBytes (d + 4) (bytes16 l) b.ram) = m at hpushed ⊢
  have hframe : ∀ x, b.a4 ≤ x → m.byte x = b.ram.byte x := hd ▸ hpushed.frame
  have hold : ∀ r ∈ roots b k xs n, _ := fun r hr => h.content_below hr hframe
  refine ⟨by omega,hpushed.machine h hd (by omega) hnew,⟨rfl,fun x hx _ _ => hframe x (by omega),
    fun r hr => (hold r (Machine.slot_mem hr)).2.2,fun i hi => (hold _ (h.stack_mem hi)).2.2⟩,?_⟩
  show bytesFrom m.byte (read32 m.byte d) (read16 m.byte (d + 4)) = _
  rw [hpushed.pointer, hpushed.length]
  refine bytesFrom_congr fun i hi => hframe _ ?_
  rcases hnew.string with ⟨hzero,-⟩ | ⟨hlo,-⟩ | ⟨-,hlow,-⟩ <;> omega

/-- A descriptor of a variable, or the last one on a stack that has grown from `n`. -/
def At (b : Store) (k : ℕ) (xs : List ArrayShape) (n d n' : ℕ) : Prop :=
  d ∈ slots b k xs ∧ n' = n ∨ d = b.desSk - 6 * (n + 1) ∧ n' = n + 1

theorem At.le {d : ℕ} (hd : At b k xs n d n') : n ≤ n' := by
  rcases hd with ⟨-,rfl⟩ | ⟨-,rfl⟩
  · exact Nat.le_refl _
  · exact Nat.le_succ _

theorem At.mem {d : ℕ} {n'' : ℕ} (hd : At b k xs n d n') (h : Machine b k xs n'')
    (hle : n' ≤ n'') : d ∈ roots b k xs n'' := by
  rcases hd with ⟨hd,-⟩ | ⟨rfl,rfl⟩
  · exact Machine.slot_mem hd
  · exact h.stack_mem (by omega)

theorem Frame.at_content (hf : Frame b k xs n' b') {d : ℕ} (hd : At b k xs n d n') :
    content b' d = content b d := by
  rcases hd with ⟨hd,-⟩ | ⟨rfl,rfl⟩
  · exact hf.slot d hd
  · exact hf.stack n (Nat.lt_succ_self n)

theorem Frame.at_ {n'' : ℕ} (hf : Frame b k xs n'' b') {d : ℕ} (hd : At b k xs n d n') :
    At b' k xs n d n' := by
  rwa [At, hf.slots, hf.desSk]

/-- Without a store the strings have the same bytes. -/
theorem frame_of_ram (hsame : { b' with sstorl := b.sstorl, a4 := b.a4 } = b) :
    Frame b k xs n b' := by
  have hram : b'.ram = b.ram := (congrArg Store.ram hsame :)
  refine ⟨?_,fun x _ _ _ => by rw [hram],fun r _ => ?_,fun i _ => ?_⟩
  · conv_rhs => rw [← hsame]
    rw [hram]
  · rw [content, content, hram]
  · rw [content, content, hram]

/-- What is popped leaves the stack. Its space may be free again. -/
theorem popString_spec (h : Machine b k xs n') {d : ℕ} (hd : At b k xs n d n') :
    ∃ b', popString d b = (read32 b.ram.byte d,read16 b.ram.byte (d + 4),b') ∧ b'.ram = b.ram ∧
      Machine b' k xs n ∧ Frame b k xs n b' ∧
      (b.sstorl < read32 b.ram.byte d ∨ read32 b.ram.byte d ≤ b.earryl → b'.sstorl = b.sstorl) := by
  have hstack := h.stack
  have hge := h.stack_ge
  have hdepth := h.depth
  have hle := h.stack_le
  have hle' := h.sfncl_le
  have hbottom := h.bottom
  rcases hd with ⟨hd,rfl⟩ | ⟨hd,rfl⟩
  · have hlow := h.mem_slots hd
    have hne : d ≠ b.a4 := by omega
    have hne' : ¬ (d + 6 = b.a4 ∧ read32 b.ram.byte d = b.sstorl) := by omega
    refine ⟨b,?_,rfl,h,Frame.refl _ _ _ _,fun _ => rfl⟩
    simp only [popString, if_neg hne, if_neg hne']
  · have hd' : d = b.a4 := by omega
    have hmem : d ∈ roots b k xs (n + 1) := by
      rw [hd]
      exact h.stack_mem (Nat.lt_succ_self n)
    have hsub : ∀ r ∈ slots b k xs ++ packedRoots (b.a4 + 6) n, r ∈ roots b k xs (n + 1) := by
      intro r hr
      rw [roots, packedRoots_succ]
      rcases List.mem_append.mp hr with hr | hr
      · exact List.mem_append_left _ hr
      · exact List.mem_append_right _ (List.mem_cons_of_mem _ hr)
    have hother : ∀ r ∈ slots b k xs ++ packedRoots (b.a4 + 6) n, r ≠ d := by
      intro r hr
      rcases List.mem_append.mp hr with hr | hr
      · have := h.mem_slots hr
        omega
      · obtain ⟨i,-,rfl⟩ := mem_packedRoots.mp hr
        omega
    generalize hs : (if d + 6 = b.a4 + 6 ∧ read32 b.ram.byte d = b.sstorl then
      b.sstorl + evenLength (read16 b.ram.byte (d + 4)) else b.sstorl) = s
    have hsize : read32 b.ram.byte d = b.sstorl →
        s = b.sstorl + space b.ram.byte d ∧ InHeap b d := fun heq => by
      rw [if_pos ⟨by omega,heq⟩] at hs
      exact ⟨hs.symm,by rw [InHeap]; omega⟩
    have hstay : read32 b.ram.byte d ≠ b.sstorl → s = b.sstorl := fun hne => by
      rw [if_neg fun hand => hne hand.2] at hs
      exact hs.symm
    have hlower : b.sstorl ≤ s := by
      by_cases heq : read32 b.ram.byte d = b.sstorl
      · have := (hsize heq).1
        omega
      · exact Nat.le_of_eq (hstay heq).symm
    refine ⟨{ b with a4 := b.a4 + 6, sstorl := s },?_,rfl,?_,frame_of_ram rfl,fun hor => ?_⟩
    · simp only [popString, if_pos hd', hs]
    · refine
        { headers := h.headers, earryl := h.earryl, sarryl := h.sarryl, stack := ?_,
          depth := by omega, stack_ge := hge, stack_le := hle, sfncl_le := hle',
          laid := h.laid.subset hsub, valid := fun r hr => ?_, above := fun r hr hlow => ?_,
          bottom := ?_, top := ?_, ememl_lt := h.ememl_lt }
      · show b.desSk = b.a4 + 6 + 6 * n
        omega
      · obtain ⟨hpointer,hlength,hstring⟩ := h.valid r (hsub r hr)
        exact ⟨hpointer,hlength,hstring⟩
      · have habove := h.above r (hsub r hr) hlow
        show s ≤ read32 b.ram.byte r
        by_cases heq : read32 b.ram.byte d = b.sstorl
        · obtain ⟨hs',hlive⟩ := hsize heq
          have hapart := h.laid.apart r (hsub r hr) d hmem (hother r hr) hlow hlive
          have hpos := h.laid.size_pos r (hsub r hr) hlow
          omega
        · rw [hstay heq]
          exact habove
      · show b.earryl < s
        omega
      · show s ≤ b.ememl
        by_cases heq : read32 b.ram.byte d = b.sstorl
        · obtain ⟨hs',hlive⟩ := hsize heq
          have := h.laid.bounded d hmem hlive
          omega
        · rw [hstay heq]
          exact h.top
    · show s = b.sstorl
      exact hstay (by omega)

/-! ### Copies -/

theorem copyBytes_spec (l src dst : ℕ) (m : Ram) (hapart : src + l ≤ dst ∨ dst + l ≤ src) :
    Within dst (dst + l) m (copyBytes l src dst m) ∧
      bytesFrom (copyBytes l src dst m).byte dst l = bytesFrom m.byte src l := by
  induction l generalizing src dst m with
  | zero => exact ⟨Within.refl _ _ m,rfl⟩
  | succ l ih =>
    have hpoke := within_poke dst (m.byte src) m
    obtain ⟨hwithin,hbytes⟩ := ih (src + 1) (dst + 1) (poke dst (m.byte src) m) (by omega)
    refine ⟨(hpoke.mono (Nat.le_refl _) (by omega)).trans (hwithin.mono (by omega) (by omega)),?_⟩
    have hfirst : (copyBytes (l + 1) src dst m).byte dst = m.byte src :=
      (hwithin.frame dst (by omega)).trans (Function.update_self ..)
    have hrest : bytesFrom (copyBytes (l + 1) src dst m).byte (dst + 1) l =
        bytesFrom m.byte (src + 1) l :=
      hbytes.trans (bytesFrom_congr fun i hi => hpoke.frame _ (by omega))
    rw [bytesFrom_succ, bytesFrom_succ, hfirst, hrest]

theorem copyBytesDown_spec (l src dst : ℕ) (m : Ram) (hapart : src + l ≤ dst ∨ dst + l ≤ src) :
    Within dst (dst + l) m (copyBytesDown l (src + l) (dst + l) m) ∧
      bytesFrom (copyBytesDown l (src + l) (dst + l) m).byte dst l = bytesFrom m.byte src l := by
  induction l generalizing m with
  | zero => exact ⟨Within.refl _ _ m,rfl⟩
  | succ l ih =>
    have hstep : copyBytesDown (l + 1) (src + (l + 1)) (dst + (l + 1)) m =
        copyBytesDown l (src + l) (dst + l) (poke (dst + l) (m.byte (src + l)) m) := rfl
    have hpoke := within_poke (dst + l) (m.byte (src + l)) m
    obtain ⟨hwithin,hbytes⟩ := ih (poke (dst + l) (m.byte (src + l)) m) (by omega)
    rw [hstep]
    refine ⟨(hpoke.mono (by omega) (by omega)).trans (hwithin.mono (Nat.le_refl _) (by omega)),?_⟩
    have hlast : (copyBytesDown l (src + l) (dst + l) (poke (dst + l) (m.byte (src + l)) m)).byte
        (dst + l) = m.byte (src + l) :=
      (hwithin.frame _ (by omega)).trans (Function.update_self ..)
    rw [bytesFrom_last, bytesFrom_last, hlast, hbytes]
    exact congrArg (· ++ _) (bytesFrom_congr fun i hi => hpoke.frame _ (by omega))

/-- A copy, also of no bytes at all. -/
theorem storeString_spec (l src dst : ℕ) (m : Ram)
    (hapart : l = 0 ∨ src + l ≤ dst ∨ dst + l ≤ src) :
    (storeString l src dst m).2.1 = dst + l ∧
      Within dst (dst + l) m (storeString l src dst m).2.2 ∧
      bytesFrom (storeString l src dst m).2.2.byte dst l = bytesFrom m.byte src l ∧
      (l ≠ 0 → (storeString l src dst m).1 = dst) := by
  unfold storeString
  by_cases hzero : l = 0
  · subst hzero
    exact ⟨rfl,Within.refl _ _ m,rfl,fun h => absurd rfl h⟩
  · obtain ⟨hwithin,hbytes⟩ := copyBytes_spec l src dst m (hapart.resolve_left hzero)
    rw [if_neg hzero]
    exact ⟨rfl,hwithin,hbytes,fun _ => rfl⟩

theorem Fresh.mono {as : List ℕ} {e e' : ℕ} (h : Fresh b as e) (hle : e' ≤ e) : Fresh b as e' where
  free r hr hlive := by
    have := h.free r hr hlive
    omega
  top := by
    have := h.top
    omega

/-- Stores into fresh memory. -/
theorem Machine.write (h : Machine b k xs n) {e : ℕ} (hfresh : Fresh b (roots b k xs n) e) {m : Ram}
    (hw : Within b.sstorl (b.sstorl + e) b.ram m) :
    Machine { b with ram := m } k xs n ∧ Frame b k xs n { b with ram := m } ∧
      Fresh { b with ram := m } (roots b k xs n) e ∧
      ∀ r ∈ roots b k xs n, read32 m.byte r = read32 b.ram.byte r ∧
        read16 m.byte (r + 4) = read16 b.ram.byte (r + 4) := by
  have hbottom := h.bottom
  have hmoved := h.strings.write hw (Nat.le_of_lt hbottom) fun a ha hlive =>
    Or.inr (hfresh.free a ha hlive)
  have hsame : ∀ r ∈ roots b k xs n, read32 m.byte r = read32 b.ram.byte r := fun r hr =>
    read32_congr fun i hi => hw.frame _ (by have := h.strings.below r hr; omega)
  have hfree : ∀ r ∈ roots b k xs n, InHeap { b with ram := m } r →
      b.sstorl + e ≤ read32 m.byte r := fun r hr hlive => by
    rw [hsame r hr]
    exact hfresh.free r hr ((hmoved.inHeap r hr).mp hlive)
  refine ⟨h.of_moved hmoved (fun r hr hlive => ?_) hbottom h.top,h.frame_of_moved hmoved,
    ⟨hfree,hfresh.top⟩,fun r hr => ⟨hsame r hr,hmoved.length r hr⟩⟩
  exact (Nat.le_add_right _ _).trans (hfree r hr hlive)

/-- The string of a descriptor does not overlap fresh memory. -/
theorem Fresh.source (hfresh : Fresh b (roots b k xs n) n') (h : Machine b k xs n)
    (hr : r ∈ roots b k xs n) :
    read16 b.ram.byte (r + 4) = 0 ∨
      read32 b.ram.byte r + read16 b.ram.byte (r + 4) ≤ b.sstorl ∨
      b.sstorl + n' ≤ read32 b.ram.byte r := by
  have hbottom := h.bottom
  have hle := h.sfncl_le
  have hle' := h.sarryl_le
  rcases (h.valid r hr).string with hzero | hlive | ⟨-,hhi⟩
  · exact Or.inl hzero
  · exact Or.inr (Or.inr (hfresh.free r hr hlive))
  · exact Or.inr (Or.inl (by omega))

/-- A descriptor that is popped from above fresh memory gives no space back. -/
theorem Fresh.pop (hfresh : Fresh b (roots b k xs n') n'') (hpos : 0 < n'') (h : Machine b k xs n')
    {d : ℕ} (hd : At b k xs n d n') :
    ∃ b', popString d b = (read32 b.ram.byte d,read16 b.ram.byte (d + 4),b') ∧ b'.ram = b.ram ∧
      Machine b' k xs n ∧ Frame b k xs n b' ∧ b'.sstorl = b.sstorl ∧
      Fresh b' (roots b' k xs n) n'' := by
  obtain ⟨b',hpop,hram,hmachine,hframe,hstay⟩ := popString_spec h hd
  have hmem := hd.mem h (Nat.le_refl _)
  have hsstorl : b'.sstorl = b.sstorl := by
    refine hstay ?_
    by_cases hlive : InHeap b d
    · have := hfresh.free d hmem hlive
      omega
    · exact Or.inr (Nat.le_of_not_lt hlive)
  have hearryl := hframe.earryl
  have hememl : b'.ememl = b.ememl := (congrArg Store.ememl hframe.same :)
  refine ⟨b',hpop,hram,hmachine,hframe,hsstorl,fun r hr hlive => ?_,?_⟩
  · rw [InHeap, hram, hearryl] at hlive
    rw [hram, hsstorl]
    refine hfresh.free r ?_ hlive
    have hstack := h.stack
    have hstack' := hmachine.stack
    rw [hframe.desSk] at hstack'
    have hle := hd.le
    rcases List.mem_append.mp hr with hr | hr
    · rw [hframe.slots] at hr
      exact Machine.slot_mem hr
    · obtain ⟨i,hi,rfl⟩ := mem_packedRoots.mp hr
      exact List.mem_append_right _ (mem_packedRoots.mpr ⟨i + (n' - n),by omega,by omega⟩)
  · rw [hsstorl, hememl]
    exact hfresh.top

/-! ### The operations -/

/-- A value in use, and all else as it was. -/
def Result (b : Store) (k : ℕ) (xs : List ArrayShape) (n : ℕ) (v : List ℕ) (d : ℕ) (b' : Store) :
    Prop :=
  ∃ n', Machine b' k xs n' ∧ Frame b k xs n b' ∧ At b k xs n d n' ∧ content b' d = v

/-- After an error the stack may hold anything. -/
def Failed (b : Store) (k : ℕ) (xs : List ArrayShape) (b' : Store) : Prop :=
  ∃ n', Machine b' k xs n' ∧ Frame b k xs 0 b'

theorem Machine.failed (h : Machine b' k xs n') (hf : Frame b k xs n b') : Failed b k xs b' :=
  ⟨n',h,hf.mono (Nat.zero_le n)⟩

/-- A string in fresh memory is put on the stack. -/
theorem push_fresh (h : Machine b k xs n) {e l : ℕ} (hfresh : Fresh b (roots b k xs n) e)
    (hpos : 0 < l) (hlt : l < 65536) (hle : evenLength l ≤ e) :
    Yields (pushString b.sstorl l b)
      (fun d b' => d = b.desSk - 6 * (n + 1) ∧ Machine b' k xs (n + 1) ∧ Frame b k xs n b' ∧
        content b' d = bytesFrom b.ram.byte b.sstorl l)
      (fun b' => b' = b) := by
  have htop := hfresh.top
  have hmem := h.ememl_lt
  refine pushString_spec h ⟨hlt,by omega,Or.inr (Or.inr ⟨hpos,h.bottom,Nat.le_refl _,by omega,?_⟩)⟩
  intro r hr hlive
  have := hfresh.free r hr hlive
  omega

/-- A copy of a string whose bytes an allocation leaves in place. -/
theorem copyString_spec (h : Machine b k xs n) {a l : ℕ} {v : List ℕ} (hlt : l < 65536)
    (hroomy : 0 < l → Roomy l b) (hnull : l = 0 → v = [])
    (hsource : Whenever (allocate l b) fun _ b' => bytesFrom b'.ram.byte a l = v ∧
      (a + l ≤ b'.sstorl ∨ b'.sstorl + evenLength l ≤ a)) :
    Yields (copyString a l b)
      (fun d b' => d = b.desSk - 6 * (n + 1) ∧ Machine b' k xs (n + 1) ∧ Frame b k xs n b' ∧
        content b' d = v)
      (Failed b k xs) := by
  unfold copyString
  by_cases hzero : l = 0
  · rw [if_pos hzero, hnull hzero]
    refine (pushString_spec h ⟨by decide,by decide,Or.inl ⟨rfl,Nat.zero_le _⟩⟩).mono
      (fun d b' hd => hd) fun b' hb => ?_
    rw [hb]
    exact h.failed (Frame.refl b k xs n)
  have hpos : 0 < l := Nat.pos_of_ne_zero hzero
  rw [if_neg hzero]
  refine (((allocate_spec h hpos (hroomy hpos)).mono (fun _ _ hp => hp)
    fun b' hb => hb.1.failed hb.2).and_whenever hsource).andThen ?_
  rintro p b₁ ⟨⟨rfl,hmachine,hframe,hfresh⟩,hv,hapart⟩
  have heven : l ≤ evenLength l := Nat.le_add_right _ _
  obtain ⟨hwithin,hbytes⟩ := copyBytesDown_spec l a b₁.sstorl b₁.ram (by omega)
  generalize copyBytesDown l (a + l) (b₁.sstorl + l) b₁.ram = m at hwithin hbytes ⊢
  obtain ⟨hmachine',hframe',hfresh',-⟩ := hmachine.write hfresh
    (hwithin.mono (Nat.le_refl _) (by omega))
  refine (push_fresh hmachine' hfresh' hpos hlt (Nat.le_refl _)).mono ?_ ?_
  · rintro d b₂ ⟨hd,hmachine₂,hframe₂,hcontent⟩
    refine ⟨by rw [← hframe.desSk]; exact hd,hmachine₂,(hframe.trans hframe').trans hframe₂,?_⟩
    rw [hcontent]
    exact hbytes.trans hv
  · rintro b₂ rfl
    exact hmachine'.failed (hframe.trans hframe')

theorem chrs_spec (h : Machine b k xs n) (c : ℕ) (hroomy : Roomy 1 b) :
    Yields (chrs c b)
      (fun d b' => d = b.desSk - 6 * (n + 1) ∧ Machine b' k xs (n + 1) ∧ Frame b k xs n b' ∧
        content b' d = [c])
      (Failed b k xs) := by
  refine ((allocate_spec h Nat.zero_lt_one hroomy).mono (fun _ _ hp => hp)
    fun b' hb => hb.1.failed hb.2).andThen ?_
  rintro p b₁ ⟨rfl,hmachine,hframe,hfresh⟩
  have hwithin := within_poke b₁.sstorl c b₁.ram
  obtain ⟨hmachine',hframe',hfresh',-⟩ := hmachine.write hfresh
    (hwithin.mono (Nat.le_refl _) (Nat.add_le_add_left (by decide) _))
  refine (push_fresh hmachine' hfresh' Nat.zero_lt_one (by decide) (Nat.le_refl _)).mono ?_ ?_
  · rintro d b₂ ⟨hd,hmachine₂,hframe₂,hcontent⟩
    refine ⟨by rw [← hframe.desSk]; exact hd,hmachine₂,(hframe.trans hframe').trans hframe₂,?_⟩
    rw [hcontent]
    exact congrArg (· :: []) (Function.update_self ..)
  · rintro b₂ rfl
    exact hmachine'.failed (hframe.trans hframe')

theorem length_content (b : Store) (d : ℕ) :
    (content b d).length = read16 b.ram.byte (d + 4) := by
  rw [content, bytesFrom, List.length_map, List.length_range]

/-- For two null strings no space is needed, and nothing is copied. -/
theorem concatenate_null (h : Machine b k xs n'') {d d' : ℕ} (hd : At b k xs n d n')
    (hd' : At b k xs n' d' n'') (hl : read16 b.ram.byte (d + 4) = 0)
    (hl' : read16 b.ram.byte (d' + 4) = 0) :
    Yields (concatenate d d' b) (Result b k xs n (content b d ++ content b d'))
      (Failed b k xs) := by
  obtain ⟨b₁,hpop,hram₁,hmachine₁,hframe₁,-⟩ := popString_spec h hd'
  obtain ⟨b₂,hpop₂,hram₂,hmachine₂,hframe₂,-⟩ := popString_spec hmachine₁
    (show At b₁ k xs n d n' from by rw [At, hframe₁.slots, hframe₁.desSk]; exact hd)
  have hallocate : allocate 0 b = some (.ok 0,b) := rfl
  have hfirst : storeString 0 (read32 b.ram.byte d) 0 b.ram = (read32 b.ram.byte d,0,b.ram) := rfl
  have hsecond : storeString 0 (read32 b.ram.byte d') 0 b₁.ram =
    (read32 b.ram.byte d',0,b₁.ram) := rfl
  have hshort : ¬ 65536 ≤ 0 + 0 := by decide
  simp only [concatenate, hl, hl', if_neg hshort]
  simp only [Nat.add_zero, hallocate, andThen, hl, hfirst, hpop, hl', hsecond, hpop₂, if_true]
  refine (pushString_spec hmachine₂ ⟨by decide,by decide,Or.inl ⟨rfl,Nat.zero_le _⟩⟩).mono ?_ ?_
  · rintro e b₃ ⟨he,hmachine₃,hframe₃,hcontent⟩
    refine ⟨n + 1,hmachine₃,((hframe₁.mono hd.le).trans hframe₂).trans hframe₃,
      Or.inr ⟨?_,rfl⟩,?_⟩
    · rw [he, hframe₂.desSk, hframe₁.desSk]
    · rw [hcontent, content_null hl, content_null hl']
      rfl
  · rintro b₃ rfl
    exact hmachine₂.failed ((hframe₁.mono hd.le).trans hframe₂)

/-- The result is put together from where the strings are after a collection. -/
theorem concatenate_spec (h : Machine b k xs n'') {d d' : ℕ} (hd : At b k xs n d n')
    (hd' : At b k xs n' d' n'')
    (hroomy : 0 < (content b d ++ content b d').length →
      Roomy (content b d ++ content b d').length b) :
    Yields (concatenate d d' b) (Result b k xs n (content b d ++ content b d'))
      (Failed b k xs) := by
  have hle := hd.le
  have hle' := hd'.le
  have hmem := hd.mem h hle'
  have hmem' := hd'.mem h (Nat.le_refl _)
  rw [List.length_append, length_content, length_content] at hroomy
  generalize hl : read16 b.ram.byte (d + 4) = l at hroomy
  generalize hl' : read16 b.ram.byte (d' + 4) = l' at hroomy
  by_cases hzero : l + l' = 0
  · obtain ⟨rfl,rfl⟩ := Nat.add_eq_zero_iff.mp hzero
    exact concatenate_null h hd hd' hl hl'
  simp only [concatenate, hl, hl']
  by_cases hlong : 65536 ≤ l + l'
  · rw [if_pos hlong]
    exact h.failed (Frame.refl b k xs 0)
  rw [if_neg hlong]
  have hpos : 0 < l + l' := Nat.pos_of_ne_zero hzero
  refine ((allocate_spec h hpos (hroomy hpos)).mono (fun _ _ hp => hp)
    fun b' hb => hb.1.failed hb.2).andThen ?_
  rintro p b₁ ⟨rfl,hmachine₁,hframe₁,hfresh₁⟩
  have heven : l + l' ≤ evenLength (l + l') := Nat.le_add_right _ _
  have hp : b₁.sstorl ≠ 0 := Nat.ne_of_gt (Nat.zero_lt_of_lt hmachine₁.bottom)
  have hd₁ : At b₁ k xs n d n' := (hframe₁.mono hle').at_ hd
  have hd₁' : At b₁ k xs n' d' n'' := hframe₁.at_ hd'
  have hc₁ : content b₁ d = content b d := (hframe₁.mono hle').at_content hd
  have hc₁' : content b₁ d' = content b d' := hframe₁.at_content hd'
  have hl₁ : read16 b₁.ram.byte (d + 4) = l := by
    rw [← length_content, hc₁, length_content, hl]
  have hl₁' : read16 b₁.ram.byte (d' + 4) = l' := by
    rw [← length_content, hc₁', length_content, hl']
  -- the first string
  have hsource := hfresh₁.source hmachine₁ (hd₁.mem hmachine₁ hle')
  rw [hl₁] at hsource
  obtain ⟨hs,hwithin,hbytes,-⟩ := storeString_spec l (read32 b₁.ram.byte d) b₁.sstorl b₁.ram
    (by omega)
  simp only [hl₁]
  generalize storeString l (read32 b₁.ram.byte d) b₁.sstorl b₁.ram = s at hs hwithin hbytes ⊢
  obtain ⟨hmachine₂,hframe₂,hfresh₂,hsame₂⟩ := hmachine₁.write hfresh₁
    (hwithin.mono (Nat.le_refl _) (by omega))
  have hd₂' : At { b₁ with ram := s.2.2 } k xs n' d' n'' := hd₁'
  have hmem₂' := hd₁'.mem hmachine₁ (Nat.le_refl _)
  obtain ⟨b₃,hpop,hram₃,hmachine₃,hframe₃,hsstorl₃,hfresh₃⟩ :=
    hfresh₂.pop (by omega) hmachine₂ hd₂'
  have hl₂' : read16 s.2.2.byte (d' + 4) = l' := by
    rw [(hsame₂ d' hmem₂').2, hl₁']
  rw [hpop]
  simp only [hl₂', hram₃]
  -- the second string
  have hsource' := hfresh₂.source hmachine₂ hmem₂'
  change read16 s.2.2.byte (d' + 4) = 0 ∨
    read32 s.2.2.byte d' + read16 s.2.2.byte (d' + 4) ≤ b₁.sstorl ∨
      b₁.sstorl + evenLength (l + l') ≤ read32 s.2.2.byte d' at hsource'
  rw [hl₂'] at hsource'
  obtain ⟨hu,hwithin',hbytes',-⟩ := storeString_spec l' (read32 s.2.2.byte d') s.2.1 s.2.2
    (by omega)
  generalize storeString l' (read32 s.2.2.byte d') s.2.1 s.2.2 = u at hu hwithin' hbytes' ⊢
  have hd₃ : At b₃ k xs n d n' := by
    rw [At, hframe₃.slots, hframe₃.desSk]
    exact hd₁
  obtain ⟨hmachine₄,hframe₄,hfresh₄,-⟩ := hmachine₃.write hfresh₃ (m := u.2.2) (by
    rw [hram₃, hsstorl₃]
    exact hwithin'.mono (by show b₁.sstorl ≤ _; omega) (by show _ ≤ b₁.sstorl + _; omega))
  obtain ⟨b₅,hpop₅,hram₅,hmachine₅,hframe₅,hsstorl₅,hfresh₅⟩ :=
    hfresh₄.pop (by omega) hmachine₄ hd₃
  have hbottom : b₅.sstorl = b₁.sstorl := hsstorl₅.trans hsstorl₃
  have hframe : Frame b k xs n b₅ := (((((hframe₁.mono hle').mono hle).trans
    (hframe₂.mono (hle.trans hle'))).trans (hframe₃.mono hle)).trans (hframe₄.mono hle)).trans
        hframe₅
  have hlength : u.2.1 - b₁.sstorl = l + l' := by omega
  rw [hpop₅]
  simp only [if_neg hp, hlength]
  rw [← hbottom]
  refine (push_fresh hmachine₅ hfresh₅ hpos (by omega) (Nat.le_refl _)).mono ?_ ?_
  · rintro e b₆ ⟨he,hmachine₆,hframe₆,hcontent⟩
    refine ⟨n + 1,hmachine₆,hframe.trans hframe₆,Or.inr ⟨by rw [he, hframe.desSk],rfl⟩,?_⟩
    rw [hcontent, hbottom, bytesFrom_add, hram₅]
    have hfirst : bytesFrom u.2.2.byte b₁.sstorl l = content b d := by
      rw [← hc₁, content, hl₁, ← hbytes]
      exact bytesFrom_congr fun i hi => hwithin'.frame _ (by omega)
    have hsecond : bytesFrom u.2.2.byte (b₁.sstorl + l) l' = content b d' := by
      have hc₂' : content { b₁ with ram := s.2.2 } d' = content b₁ d' := hframe₂.at_content hd₁'
      rw [← hs, hbytes', ← hc₁', ← hc₂', content]
      exact congrArg _ hl₂'.symm
    exact congrArg₂ _ hfirst hsecond
  · rintro b₆ rfl
    exact hmachine₅.failed hframe

theorem window_le {q : Part} {len o l : ℕ} (h : q.window len = some (o,l)) (hpos : 0 < l) :
    o + l ≤ len := by
  cases q with
  | left m c =>
    simp only [Part.window] at h
    split_ifs at h <;> obtain ⟨rfl,rfl⟩ := Prod.mk.inj (Option.some.inj h) <;> omega
  | right m c =>
    simp only [Part.window] at h
    split_ifs at h <;> obtain ⟨rfl,rfl⟩ := Prod.mk.inj (Option.some.inj h) <;> omega
  | mid start m =>
    simp only [Part.window] at h
    split_ifs at h <;> obtain ⟨rfl,rfl⟩ := Prod.mk.inj (Option.some.inj h) <;> omega

theorem window_length_le {q : Part} {len o l : ℕ} (h : q.window len = some (o,l)) : l ≤ len := by
  rcases Nat.eq_zero_or_pos l with rfl | hpos
  · exact Nat.zero_le _
  · have := window_le h hpos
    omega

/-- A part of a string, from where it is after a collection. -/
theorem part_spec (h : Machine b k xs n') {d : ℕ} (hd : At b k xs n d n') (q : Part)
    (hroomy : ∀ o l, q.window (content b d).length = some (o,l) → 0 < l → Roomy l b)
    (hnull : ∀ o, q.window (content b d).length = some (o,0) →
      read32 b.ram.byte d + o ≤ b.earryl) :
    Yields (part q d b)
      (fun e b' => ∃ o l, q.window (content b d).length = some (o,l) ∧
        Result b k xs n (((content b d).drop o).take l) e b')
      (Failed b k xs) := by
  have hmem := hd.mem h (Nat.le_refl _)
  have hlen := length_content b d
  have hlt := (h.valid d hmem).length_lt
  have hle := hd.le
  rw [hlen] at hroomy hnull
  simp only [part]
  cases hwindow : q.window (read16 b.ram.byte (d + 4)) with
  | none => exact h.failed (Frame.refl b k xs 0)
  | some window =>
  obtain ⟨o,l⟩ := window
  have hshort := window_length_le hwindow
  rcases Nat.eq_zero_or_pos l with rfl | hpos
  · -- the null string keeps the address of its source
    have hlow := hnull o hwindow
    have hearryl := Nat.lt_of_lt_of_le h.bottom h.top
    have hmemory := h.ememl_lt
    obtain ⟨b₁,hpop,hram₁,hmachine₁,hframe₁,-⟩ := popString_spec h hd
    have hallocate : allocate 0 b = some (.ok 0,b) := rfl
    simp only [hallocate, andThen, hpop]
    refine (pushString_spec hmachine₁ ⟨by decide,by show _ + o < _; omega,
      Or.inl ⟨rfl,by rw [hframe₁.earryl]; exact hlow⟩⟩).mono ?_ ?_
    · rintro e b₂ ⟨he,hmachine₂,hframe₂,hcontent⟩
      refine ⟨o,0,by rw [hlen, hwindow],n + 1,hmachine₂,hframe₁.trans hframe₂,
        Or.inr ⟨by rw [he, hframe₁.desSk],rfl⟩,?_⟩
      rw [hcontent, List.take_zero]
      rfl
    · rintro b₂ rfl
      exact hmachine₁.failed hframe₁
  refine ((allocate_spec h hpos (hroomy o l hwindow hpos)).mono (fun _ _ hp => hp)
    fun b' hb => hb.1.failed hb.2).andThen ?_
  rintro p b₁ ⟨rfl,hmachine₁,hframe₁,hfresh₁⟩
  have heven : l ≤ evenLength l := Nat.le_add_right _ _
  have hin := window_le hwindow hpos
  have hd₁ := hframe₁.at_ hd
  have hc₁ : content b₁ d = content b d := hframe₁.at_content hd
  have hl₁ : read16 b₁.ram.byte (d + 4) = read16 b.ram.byte (d + 4) := by
    rw [← length_content, hc₁, length_content]
  have hsource := hfresh₁.source hmachine₁ (hd₁.mem hmachine₁ (Nat.le_refl _))
  rw [hl₁] at hsource
  obtain ⟨b₂,hpop,hram₂,hmachine₂,hframe₂,hsstorl₂,hfresh₂⟩ := hfresh₁.pop (by omega) hmachine₁ hd₁
  obtain ⟨-,hwithin,hbytes,haddress⟩ := storeString_spec l (read32 b₁.ram.byte d + o) b₁.sstorl
    b₁.ram (by omega)
  rw [hpop]
  simp only [hram₂]
  generalize ht : storeString l (read32 b₁.ram.byte d + o) b₁.sstorl b₁.ram = t
  rw [ht] at hwithin hbytes haddress
  obtain ⟨hmachine₃,hframe₃,hfresh₃,-⟩ := hmachine₂.write hfresh₂ (m := t.2.2) (by
    rw [hram₂, hsstorl₂]
    exact hwithin.mono (Nat.le_refl _) (by omega))
  have hframe : Frame b k xs n { b₂ with ram := t.2.2 } :=
    ((hframe₁.mono hle).trans hframe₂).trans hframe₃
  rw [haddress (Nat.ne_of_gt hpos), ← hsstorl₂]
  refine (push_fresh hmachine₃ hfresh₃ hpos (by omega) (Nat.le_refl _)).mono ?_ ?_
  · rintro e b₄ ⟨he,hmachine₄,hframe₄,hcontent⟩
    refine ⟨o,l,by rw [hlen, hwindow],n + 1,hmachine₄,hframe.trans hframe₄,
      Or.inr ⟨by rw [he, hframe.desSk],rfl⟩,?_⟩
    rw [hcontent, ← hc₁, content, hl₁]
    refine (show bytesFrom t.2.2.byte b₂.sstorl l = _ from ?_)
    rw [hsstorl₂, hbytes, bytesFrom_part hin]
  · rintro b₄ rfl
    exact hmachine₃.failed hframe

/-! ### Places -/

theorem gvar_string (h : b.sarryl = b.sstrl + 10 * k) (name : ℕ) :
    gvar .string name b = some ((position b.ram.byte name 10 b.sstrl k).map
      fun i => b.sstrl + 10 * i + 4) := by
  show search _ _ 10 b.sarryl (b.sarryl - b.sstrl + 1) b.sstrl = _
  rw [h]
  exact search_eq (by decide) (by omega)

theorem address_mem {x : ArrayShape} {name a c : ℕ} {is : List ℕ}
    (hfind : locate name a xs = some (x,c)) (hin : x.InBounds is) (hs : isString x.name = true) :
    x.address c is ∈ elementRoots a xs := by
  induction xs generalizing a with
  | nil => exact absurd hfind nofun
  | cons y xs ih =>
    rw [locate] at hfind
    split_ifs at hfind
    · obtain ⟨rfl,rfl⟩ := Prod.mk.inj (Option.some.inj hfind)
      refine List.mem_append_left _ ?_
      rw [ArrayShape.roots, if_pos hs, ArrayShape.address, elementSize, if_pos hs]
      exact mem_packedRoots.mpr ⟨_,rank_lt_count hin,rfl⟩
    · exact List.mem_append_right _ (ih hfind)

/-- A variable or an element that holds strings. -/
def StringPlace : Place → Prop
  | .scalar name => kindOf name = .string
  | .element name indices =>
    isString name = true ∧ (∀ i ∈ indices, i < 65536) ∧ indices.length < 256

instance : (p : Place) → Decidable (StringPlace p)
  | .scalar name => inferInstanceAs (Decidable (kindOf name = .string))
  | .element _ _ => inferInstanceAs (Decidable (_ ∧ _))

/-- What is found at a place does not change as long as the variables are kept. -/
theorem findPlace_frame {p : Place} (hp : StringPlace p) (h : Machine b k xs n)
    (h' : Machine b' k xs n') (hf : Frame b k xs 0 b') :
    ∃ r, findPlace p b = some (r,b) ∧ findPlace p b' = some (r,b') ∧
      ∀ a, r = .ok a → a ∈ slots b k xs := by
  have hsstrl : b'.sstrl = b.sstrl := (congrArg Store.sstrl hf.same :)
  have hsarryl : b'.sarryl = b.sarryl := (congrArg Store.sarryl hf.same :)
  cases p with
  | scalar name =>
    change kindOf name = .string at hp
    have hstop := h.sarryl
    have hle := h.sfncl_le
    have hle' := h.stack_le
    have hle'' := h.sarryl_le
    have hgvar := gvar_string hstop name
    have hgvar' := gvar_string (b := b') (k := k) (by rw [hsarryl, hsstrl, hstop]) name
    have hsame : position b'.ram.byte name 10 b.sstrl k =
        position b.ram.byte name 10 b.sstrl k := by
      refine position_congr fun i hi => read32_congr fun j hj => ?_
      refine hf.bytes _ (by omega) (by omega) fun r hr => ?_
      rcases List.mem_append.mp hr with hr | hr
      · obtain ⟨i',hi',rfl⟩ := mem_stringRoots.mp hr
        omega
      · have := mem_elementRoots hr
        omega
    rw [hsstrl, hsame] at hgvar'
    cases hposition : position b.ram.byte name 10 b.sstrl k with
    | none =>
      rw [hposition] at hgvar hgvar'
      exact ⟨.error .undefinedVariable,by simp only [findPlace, hp, hgvar, Option.map_none],
        by simp only [findPlace, hp, hgvar', Option.map_none],nofun⟩
    | some i =>
      rw [hposition] at hgvar hgvar'
      refine ⟨.ok (b.sstrl + 10 * i + 4),by simp only [findPlace, hp, hgvar, Option.map_some],
        by simp only [findPlace, hp, hgvar', Option.map_some],fun a' ha' => ?_⟩
      obtain rfl := Except.ok.inj ha'
      exact List.mem_append_left _ (mem_stringRoots.mpr ⟨i,(position_spec hposition).1,rfl⟩)
  | element name is =>
    obtain ⟨hs,his,hlen⟩ := hp
    have helement := element_eq h.toArraysAt his hlen name
    have helement' := element_eq h'.toArraysAt his hlen name
    rw [hsarryl] at helement'
    cases hselect : select name is b.sarryl xs with
    | error e =>
      rw [hselect] at helement helement'
      exact ⟨.error (.array e),by simp only [findPlace, helement],
        by simp only [findPlace, helement'],nofun⟩
    | ok a =>
      rw [hselect] at helement helement'
      refine ⟨.ok a,by simp only [findPlace, helement],by simp only [findPlace, helement'],
        fun a' ha' => ?_⟩
      obtain rfl := Except.ok.inj ha'
      unfold select at hselect
      cases hfind : locate name b.sarryl xs with
      | none =>
        rw [hfind] at hselect
        exact absurd hselect nofun
      | some found =>
        obtain ⟨x,c⟩ := found
        rw [hfind] at hselect
        simp only [] at hselect
        split_ifs at hselect with hdim hin
        obtain rfl := Except.ok.inj hselect
        have hname := (locate_spec h.headers h.earryl.symm hfind).2.1
        exact List.mem_append_right _ (address_mem hfind hin (hname ▸ hs))

/-! ### Variables that move -/

/-- From one state to another strings stay where they are. A descriptor of the second state
is one of the first at `f`, or new and empty. -/
structure Shifted (b : Store) (k : ℕ) (xs : List ArrayShape) (f : ℕ → ℕ) (b' : Store) (k' : ℕ)
    (xs' : List ArrayShape) : Prop where
  slotsAt : SlotsAt b' k' xs'
  sfncl_le : b'.sfncl ≤ b'.sstrl
  same : { b' with
    ram := b.ram, svarl := b.svarl, sstrl := b.sstrl, sarryl := b.sarryl, earryl := b.earryl } = b
  earryl_le : b.earryl ≤ b'.earryl
  fits : b'.earryl < b.sstorl
  memory : ∀ y, y < b.sfncl ∨ b'.earryl ≤ y → b'.ram.byte y = b.ram.byte y
  slots : ∀ r ∈ slots b' k' xs', (f r ∈ slots b k xs ∧
      ∀ i < 6, b'.ram.byte (r + i) = b.ram.byte (f r + i)) ∨ ∀ i < 6, b'.ram.byte (r + i) = 0
  inj : ∀ r ∈ BasicRoots.slots b' k' xs', ∀ r' ∈ BasicRoots.slots b' k' xs', r ≠ r' →
    f r ∈ BasicRoots.slots b k xs → f r' ∈ BasicRoots.slots b k xs → f r ≠ f r'

theorem read_congr {byte byte' : ℕ → ℕ} {a a' : ℕ} (h : ∀ i < 6, byte' (a' + i) = byte (a + i)) :
    read32 byte' a' = read32 byte a ∧ read16 byte' (a' + 4) = read16 byte (a + 4) :=
  ⟨read32_congr fun i hi => h i (by omega),by
    rw [read16, read16, h 4 (by decide)]
    exact congrArg _ (h 5 (by decide))⟩

theorem read_null {byte : ℕ → ℕ} {a : ℕ} (h : ∀ i < 6, byte (a + i) = 0) :
    read32 byte a = 0 ∧ read16 byte (a + 4) = 0 :=
  @read_congr (fun _ => 0) byte 0 a h

/-- A descriptor that has moved has its string. -/
theorem Shifted.content {k' : ℕ} {xs' : List ArrayShape} {f : ℕ → ℕ}
    (hs : Shifted b k xs f b' k' xs') (h : Machine b k xs 0) (hr : f r ∈ BasicRoots.slots b k xs)
    (hbytes : ∀ i < 6, b'.ram.byte (r + i) = b.ram.byte (f r + i)) :
    content b' r = content b (f r) := by
  obtain ⟨hp,hl⟩ := read_congr hbytes
  have hfits := hs.fits
  rw [BasicStringHeap.content, BasicStringHeap.content, hp, hl]
  refine bytesFrom_congr fun i hi => hs.memory _ ?_
  rcases (h.valid _ (Machine.slot_mem hr)).string with hzero | hlive | ⟨-,hhi⟩
  · omega
  · have := h.above _ (Machine.slot_mem hr) hlive
    omega
  · omega

theorem Shifted.machine {k' : ℕ} {xs' : List ArrayShape} {f : ℕ → ℕ}
    (hs : Shifted b k xs f b' k' xs') (h : Machine b k xs 0) : Machine b' k' xs' 0 := by
  have hsame := hs.same
  have ha4 : b'.a4 = b.a4 := (congrArg Store.a4 hsame :)
  have hdesSk : b'.desSk = b.desSk := (congrArg Store.desSk hsame :)
  have hsfncl : b'.sfncl = b.sfncl := (congrArg Store.sfncl hsame :)
  have hsstorl : b'.sstorl = b.sstorl := (congrArg Store.sstorl hsame :)
  have hememl : b'.ememl = b.ememl := (congrArg Store.ememl hsame :)
  have hle := hs.earryl_le
  have hfits := hs.fits
  have hroots : ∀ r ∈ roots b' k' xs' 0, r ∈ BasicRoots.slots b' k' xs' := fun r hr =>
    (List.mem_append.mp hr).resolve_right List.not_mem_nil
  -- a live descriptor is an old one
  have hlive : ∀ r ∈ roots b' k' xs' 0, b'.earryl < read32 b'.ram.byte r →
      f r ∈ BasicRoots.slots b k xs ∧ read32 b'.ram.byte r = read32 b.ram.byte (f r) ∧
        read16 b'.ram.byte (r + 4) = read16 b.ram.byte (f r + 4) := by
    intro r hr hlow
    rcases hs.slots r (hroots r hr) with ⟨hmem,hbytes⟩ | hzero
    · exact ⟨hmem,read_congr hbytes⟩
    · rw [(read_null hzero).1] at hlow
      exact absurd hlow (Nat.not_lt_zero _)
  have hheap : ∀ r ∈ roots b' k' xs' 0, b'.earryl < read32 b'.ram.byte r → InHeap b (f r) := by
    intro r hr hlow
    rw [InHeap, ← (hlive r hr hlow).2.1]
    omega
  refine
    { hs.slotsAt with
      stack := by rw [hdesSk, ha4]; exact h.stack
      depth := h.depth
      stack_ge := by rw [hdesSk]; exact h.stack_ge
      stack_le := by rw [hdesSk, hsfncl]; exact h.stack_le
      sfncl_le := hs.sfncl_le
      laid := ?_
      valid := fun r hr => ?_
      above := fun r hr hlow => ?_
      bottom := by rw [hsstorl]; exact hfits
      top := by rw [hsstorl, hememl]; exact h.top
      ememl_lt := by rw [hememl]; exact h.ememl_lt }
  · rw [hememl]
    refine h.laid.rename f (fun r hr hlow => ?_) fun r hr r' hr' hne hlow hlow' => ?_
    · obtain ⟨hmem,hp,hl⟩ := hlive r hr hlow
      exact ⟨Machine.slot_mem hmem,hheap r hr hlow,hp,congrArg evenLength hl⟩
    · exact hs.inj r (hroots r hr) r' (hroots r' hr') hne (hlive r hr hlow).1 (hlive r' hr' hlow').1
  · rcases hs.slots r (hroots r hr) with ⟨hmem,hbytes⟩ | hzero
    · obtain ⟨hp,hl⟩ := read_congr hbytes
      obtain ⟨hpointer,hlength,hstring⟩ := h.valid _ (Machine.slot_mem hmem)
      refine ⟨by rw [hp]; exact hpointer,by rw [hl]; exact hlength,?_⟩
      rw [InHeap, InText, hp, hl, hdesSk, hsfncl]
      refine hstring.imp_right fun hor => hor.imp_left fun hold => ?_
      have := h.above _ (Machine.slot_mem hmem) hold
      omega
    · obtain ⟨hp,hl⟩ := read_null hzero
      exact ⟨by rw [hp]; decide,by rw [hl]; decide,Or.inl hl⟩
  · rw [hsstorl, (hlive r hr hlow).2.1]
    exact h.above _ (Machine.slot_mem (hlive r hr hlow).1) (hheap r hr hlow)

/-! ### Assignment -/

/-- One descriptor of a variable has a new value, and all others are as they were. -/
structure Assigned (b : Store) (k : ℕ) (xs : List ArrayShape) (a : ℕ) (v : List ℕ) (b' : Store) :
    Prop where
  machine : Machine b' k xs 0
  same : { b' with ram := b.ram, sstorl := b.sstorl, a4 := b.a4 } = b
  bytes : ∀ x, b.desSk ≤ x → x < b.earryl → Outside (slots b k xs) x →
    b'.ram.byte x = b.ram.byte x
  value : content b' a = v
  others : ∀ r ∈ slots b k xs, r ≠ a → content b' r = content b r

/-- A descriptor stands at a second place, and nothing else has changed. -/
structure Copied (a d : ℕ) (r m : Ram) : Prop where
  within : Within a (a + 6) r m
  pointer : read32 m.byte a = read32 r.byte d
  length : read16 m.byte (a + 4) = read16 r.byte (d + 4)

/-- The pointer is stored first, and the length is read behind that. -/
theorem copied_descriptor {a d : ℕ} {r m₁ : Ram} (hm₁ : m₁ = poke32 a (read32 r.byte d) r)
    (hpointer : read32 r.byte d < 4294967296) (hapart : d = a ∨ d + 6 ≤ a ∨ a + 6 ≤ d) :
    Copied a d r (pokeBytes (a + 4) [m₁.byte (d + 4),m₁.byte (d + 5)] m₁) := by
  have hfirst : Within a (a + 4) r m₁ := hm₁ ▸ within_poke32 a _ r
  have hsecond := within_pokeBytes (a + 4) [m₁.byte (d + 4),m₁.byte (d + 5)] m₁
  have hbytes := bytesAt_pokeBytes (a + 4) [m₁.byte (d + 4),m₁.byte (d + 5)] m₁
  generalize pokeBytes (a + 4) [m₁.byte (d + 4),m₁.byte (d + 5)] m₁ = m at hsecond hbytes ⊢
  change Within (a + 4) (a + 4 + 2) m₁ m at hsecond
  refine ⟨(hfirst.mono (Nat.le_refl _) (by omega)).trans
    (hsecond.mono (by omega) (Nat.le_refl _)),?_,?_⟩
  · rw [hsecond.read32 (Or.inl (Nat.le_refl _)), hm₁]
    exact read32_poke32 a hpointer r
  · have h0 := hbytes 0 (Nat.succ_pos _)
    have h1 := hbytes 1 (Nat.lt_succ_self _)
    simp only [Nat.add_zero, List.getElem_cons_zero, List.getElem_cons_succ] at h0 h1
    rw [read16, h0, h1, hfirst.frame _ (by omega), hfirst.frame _ (by omega)]
    rfl

section Copied

variable {a d : ℕ} {m : Ram}

/-- Another descriptor is as it was. -/
theorem Copied.other (hc : Copied a d b.ram m) (h : Machine b k xs n') (ha : a ∈ slots b k xs)
    {r : ℕ} (hr : r ∈ slots b k xs) (hne : r ≠ a) : read32 m.byte r = read32 b.ram.byte r ∧
      read16 m.byte (r + 4) = read16 b.ram.byte (r + 4) := by
  have := h.separate r (Machine.slot_mem hr) a (Machine.slot_mem ha) hne
  have hframe (x : ℕ) (hx : x < a ∨ a + 6 ≤ x) := hc.within.frame x (by omega)
  exact ⟨hc.within.read32 (by omega),by
    rw [read16, read16, hframe _ (by omega), hframe _ (by omega)]⟩

/-- No string stands in the variables. -/
theorem Copied.string (hc : Copied a d b.ram m) (h : Machine b k xs n') (ha : a ∈ slots b k xs)
    {r : ℕ} (hr : r ∈ roots b k xs n') : ∀ i < read16 b.ram.byte (r + 4),
      m.byte (read32 b.ram.byte r + i) = b.ram.byte (read32 b.ram.byte r + i) := by
  have hslot := h.mem_slots ha
  have hle' := h.sfncl_le
  intro i hi
  refine hc.within.frame _ ?_
  rcases (h.valid r hr).string with hzero | hlive | ⟨-,hhi⟩
  · omega
  · rw [InHeap] at hlive
    omega
  · omega

/-- The descriptor from which a variable has its string now. -/
def origin (a d r : ℕ) : ℕ := if r = a then d else r

theorem Copied.origin_mem (hc : Copied a d b.ram m) (h : Machine b k xs n') (ha : a ∈ slots b k xs)
    (hmem : d ∈ roots b k xs n') {r : ℕ} (hr : r ∈ slots b k xs) :
    origin a d r ∈ roots b k xs n' ∧
      read32 m.byte r = read32 b.ram.byte (origin a d r) ∧
      read16 m.byte (r + 4) = read16 b.ram.byte (origin a d r + 4) := by
  by_cases hra : r = a
  · rw [origin, if_pos hra, hra]
    exact ⟨hmem,hc.pointer,hc.length⟩
  · rw [origin, if_neg hra]
    exact ⟨Machine.slot_mem hr,hc.other h ha hr hra⟩

/-- No two variables have their strings from one descriptor. -/
theorem Copied.origin_ne (hc : Copied a d b.ram m) (hdirect : d ∈ slots b k xs → ¬ InHeap b d)
    {r r' : ℕ} (hr : r ∈ slots b k xs) (hr' : r' ∈ slots b k xs) (hne : r ≠ r')
    (hlow : b.earryl < read32 m.byte r) (hlow' : b.earryl < read32 m.byte r') :
    origin a d r ≠ origin a d r' := by
  have hstale : ∀ r ∈ slots b k xs, b.earryl < read32 m.byte a → r ≠ d := by
    rintro r hr hlow rfl
    rw [hc.pointer] at hlow
    exact hdirect hr hlow
  unfold origin
  by_cases hra : r = a
  · rw [if_pos hra, if_neg (show r' ≠ a from fun h => hne (hra.trans h.symm))]
    exact (hstale r' hr' (hra ▸ hlow)).symm
  · by_cases hra' : r' = a
    · rw [if_neg hra, if_pos hra']
      exact hstale r hr (hra' ▸ hlow')
    · rw [if_neg hra, if_neg hra']
      exact hne

/-- With the descriptor copied and the stack empty the memory is in order. -/
theorem Copied.machine (hc : Copied a d b.ram m) (h : Machine b k xs n') (ha : a ∈ slots b k xs)
    (hmem : d ∈ roots b k xs n') (hdirect : d ∈ slots b k xs → ¬ InHeap b d) :
    Machine { b with a4 := b.desSk, ram := m } k xs 0 := by
  have hslot := h.mem_slots ha
  have horigin {r : ℕ} (hr : r ∈ slots b k xs) := hc.origin_mem h ha hmem hr
  have hroots : ∀ r ∈ roots { b with a4 := b.desSk, ram := m } k xs 0, r ∈ slots b k xs := by
    intro r hr
    rcases List.mem_append.mp hr with hr | hr
    · exact hr
    · exact absurd hr (List.not_mem_nil)
  refine
    { headers := ?_, earryl := h.earryl, sarryl := h.sarryl, stack := (Nat.add_zero _).symm,
      depth := Nat.zero_le _, stack_ge := h.stack_ge, stack_le := h.stack_le,
      sfncl_le := h.sfncl_le, laid := ?_, valid := fun r hr => ?_,
      above := fun r hr hlow => ?_, bottom := h.bottom, top := h.top, ememl_lt := h.ememl_lt }
  · refine headers_congr h.headers fun y hy hlt hout => hc.within.frame y ?_
    change b.sarryl ≤ y at hy
    rcases List.mem_append.mp ha with ha | ha
    · have hsarryl := h.sarryl
      obtain ⟨i,hi,rfl⟩ := mem_stringRoots.mp ha
      omega
    · have := hout a ha
      omega
  · refine h.laid.rename (origin a d) (fun r hr hlow => ?_)
      fun r hr r' hr' hne hlow hlow' =>
        hc.origin_ne hdirect (hroots r hr) (hroots r' hr') hne hlow hlow'
    obtain ⟨hfr,hp,hl⟩ := horigin (hroots r hr)
    exact ⟨hfr,by rw [← hp]; exact hlow,hp,congrArg evenLength hl⟩
  · obtain ⟨hfr,hp,hl⟩ := horigin (hroots r hr)
    obtain ⟨hpointer,hlength,hstring⟩ := h.valid _ hfr
    rw [InHeap, ← hp, ← hl] at hstring
    exact ⟨by rw [← hp] at hpointer; exact hpointer,by rw [← hl] at hlength; exact hlength,
      hstring⟩
  · obtain ⟨hfr,hp,-⟩ := horigin (hroots r hr)
    show b.sstorl ≤ read32 m.byte r
    rw [hp]
    refine h.above _ hfr ?_
    rw [InHeap, ← hp]
    exact hlow

end Copied

/-- The descriptor leaves the stack if it is the newest there. -/
theorem At.popped {d : ℕ} (hd : At b k xs 0 d n') (h : Machine b k xs n') :
    (if d = b.a4 then b.a4 + 6 else b.a4) = b.desSk := by
  have hstack := h.stack
  have hle := h.stack_le
  have hle' := h.sfncl_le
  have hle'' := h.sarryl_le
  have hge := h.stack_ge
  rcases hd with ⟨hd,rfl⟩ | ⟨hd,rfl⟩
  · have := h.mem_slots hd
    rw [if_neg (by omega)]
    omega
  · rw [if_pos (by omega)]
    omega

theorem assignString_spec (h : Machine b k xs n') {a d : ℕ} (hd : At b k xs 0 d n')
    (ha : a ∈ slots b k xs) (hdirect : d ∈ slots b k xs → ¬ InHeap b d) :
    Assigned b k xs a (content b d) (assignString a d b) := by
  have hmem := hd.mem h (Nat.le_refl _)
  have hapart : d = a ∨ d + 6 ≤ a ∨ a + 6 ≤ d := by
    by_cases heq : d = a
    · exact Or.inl heq
    · exact Or.inr (h.separate d hmem a (Machine.slot_mem ha) heq)
  have hc := copied_descriptor (r := b.ram) rfl (h.valid d hmem).pointer_lt hapart
  unfold assignString
  simp only [hd.popped h]
  generalize pokeBytes (a + 4) _ (poke32 a (read32 b.ram.byte d) b.ram) = m at hc ⊢
  refine ⟨hc.machine h ha hmem hdirect,rfl,fun x hx hlt hout => hc.within.frame x ?_,?_,
    fun r hr hne => ?_⟩
  · have := hout a ha
    omega
  · show bytesFrom m.byte (read32 m.byte a) (read16 m.byte (a + 4)) = _
    rw [hc.pointer, hc.length]
    exact bytesFrom_congr (hc.string h ha hmem)
  · obtain ⟨hp,hl⟩ := hc.other h ha hr hne
    exact content_congr hp hl (hc.string h ha (Machine.slot_mem hr))

theorem Assigned.of_frame {a : ℕ} {v : List ℕ} (h : Assigned b' k xs a v b'')
    (hf : Frame b k xs 0 b') : Assigned b k xs a v b'' where
  machine := h.machine
  same := by
    rw [← hf.same, ← h.same]
  bytes x hlo hlt hout := by
    refine (h.bytes x ?_ ?_ ?_).trans (hf.bytes x hlo hlt hout)
    · rwa [hf.desSk]
    · rwa [hf.earryl]
    · rwa [hf.slots]
  value := h.value
  others r hr hne := (h.others r (hf.slots ▸ hr) hne).trans (hf.slot r hr)

/-- The copy of a variable's string is made without a collection. -/
def CopySpare (d : ℕ) (b : Store) : Prop :=
  ¬ (read32 b.ram.byte d < b.sstorl ∨ d < b.sfncl) →
    evenLength (read16 b.ram.byte (d + 4)) ≤ b.earryl ∧
      b.earryl + evenLength (read16 b.ram.byte (d + 4)) < b.sstorl

instance (d : ℕ) (b : Store) : Decidable (CopySpare d b) := inferInstanceAs (Decidable (_ → _))

theorem allocate_free (h : Machine b k xs n) {l : ℕ} (hpos : 0 < l)
    (hsmall : evenLength l ≤ b.earryl) (hfit : b.earryl + evenLength l ≤ b.sstorl) :
    allocate l b =
      some (.ok (b.sstorl - evenLength l),{ b with sstorl := b.sstorl - evenLength l }) := by
  have htry := tryReserve_eq h.aboveAll hsmall
  rw [if_pos hfit] at htry
  simp only [allocate, makeSpace, if_neg (Nat.ne_of_gt hpos), htry]

theorem letString_spec (h : Machine b k xs n') {a d : ℕ} (hd : At b k xs 0 d n')
    (ha : a ∈ slots b k xs) (hspare : CopySpare d b) :
    Yields (letString a d b) (fun _ b' => Assigned b k xs a (content b d) b') (Failed b k xs) := by
  have hle := h.stack_le
  have hstack := h.stack
  have hge := h.stack_ge
  have hbottom := h.bottom
  have hmem := hd.mem h (Nat.le_refl _)
  unfold letString
  by_cases hdirect : read32 b.ram.byte d < b.sstorl ∨ d < b.sfncl
  · simp only [if_pos hdirect, andThen]
    refine assignString_spec h hd ha fun hslot hlive => ?_
    have := h.mem_slots hslot
    have := h.sfncl_le
    have := h.above d hmem hlive
    omega
  · obtain ⟨hsmall,hfit⟩ := hspare hdirect
    obtain ⟨habove,hhigh⟩ := not_or.mp hdirect
    obtain ⟨hslot,rfl⟩ : d ∈ slots b k xs ∧ n' = 0 := hd.resolve_right fun hd => by omega
    have hlive : InHeap b d := by
      rw [InHeap]
      omega
    have hsize := h.laid.size_pos d hmem hlive
    have hlt := (h.valid d hmem).length_lt
    rw [space] at hsize
    generalize hl : read16 b.ram.byte (d + 4) = l at hsize hlt hsmall hfit ⊢
    have hpos : 0 < l := by
      rw [evenLength] at hsize
      omega
    have hallocate := allocate_free h hpos hsmall (Nat.le_of_lt hfit)
    simp only [if_neg hdirect]
    have hcopy := copyString_spec (a := read32 b.ram.byte d) (v := content b d) h hlt
      (fun _ => ⟨hsmall,by rw [hallocate]; show b.earryl < b.sstorl - evenLength l; omega⟩)
      (fun hzero => absurd hzero (Nat.ne_of_gt hpos)) (by
        rw [hallocate]
        refine ⟨by rw [content, hl],Or.inr ?_⟩
        show b.sstorl - evenLength l + evenLength l ≤ _
        omega)
    refine hcopy.andThen ?_
    rintro d' b₁ ⟨rfl,hmachine,hframe,hcontent⟩
    have hnew : At b₁ k xs 0 (b.desSk - 6 * (0 + 1)) (0 + 1) :=
      Or.inr ⟨by rw [hframe.desSk],rfl⟩
    have hassigned := assignString_spec (a := a) hmachine hnew (hframe.slots ▸ ha) fun hslot => by
      have := hmachine.mem_slots hslot
      have := hmachine.sfncl_le
      have := hmachine.stack_le
      rw [hframe.desSk] at this
      omega
    rw [hcontent] at hassigned
    exact hassigned.of_frame hframe

end Betawise.BasicStringMachine
