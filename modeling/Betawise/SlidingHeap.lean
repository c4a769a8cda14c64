import Mathlib.Algebra.Order.BigOperators.Group.Finset
import Mathlib.Data.Finset.Card
import Mathlib.Order.Interval.Finset.Nat

/-!
# A heap that is packed by sliding

Handles own blocks of bytes between `low` and `top`. A collection starts with no block
in place. Each scan of the handles lets the bottom of the packed blocks down over blocks
that are in place already, and finds the highest of the others; this one is moved up to
the bottom. A handle that points to `low` or below owns no block.
-/
namespace Betawise.SlidingHeap

structure Heap (ι : Type) where
  byte : ℕ → ℕ
  pointer : ι → ℕ
  bottom : ℕ

/-- The highest block that is not in place so far, its handle, and the bottom. -/
structure Scan (ι : Type) where
  highest : ℕ
  move : Option ι
  bottom : ℕ

variable {ι : Type} (low top : ℕ) (size : ι → ℕ) (roots : List ι)

def visit (pointer : ι → ℕ) (i : ι) (c : Scan ι) : Scan ι :=
  if pointer i ≤ c.highest ∨ c.bottom ≤ pointer i then c
  else if pointer i + size i = c.bottom then { c with bottom := pointer i }
  else { c with highest := pointer i, move := some i }

def scan (pointer : ι → ℕ) : List ι → Scan ι → Scan ι
  | [],c => c
  | i::is,c => scan pointer is (visit size pointer i c)

/-- The block slides up to the bottom, and is in place. -/
def slide [DecidableEq ι] (i : ι) (h : Heap ι) : Heap ι where
  byte x :=
    if h.bottom - size i ≤ x ∧ x < h.bottom then h.byte (x - (h.bottom - size i - h.pointer i))
    else h.byte x
  pointer := Function.update h.pointer i (h.bottom - size i)
  bottom := h.bottom - size i

def collect [DecidableEq ι] : ℕ → Heap ι → Option (Heap ι)
  | 0,_ => none
  | fuel + 1,h =>
    let c := scan size h.pointer roots ⟨low,none,h.bottom⟩
    match c.move with
    | none => some { h with bottom := c.bottom }
    | some i => collect fuel (slide size i { h with bottom := c.bottom })

/-- The blocks are not empty, end below the top and do not overlap. -/
structure Laid (pointer : ι → ℕ) : Prop where
  size_pos : ∀ i ∈ roots, low < pointer i → 0 < size i
  bounded : ∀ i ∈ roots, low < pointer i → pointer i + size i ≤ top
  apart : ∀ i ∈ roots, ∀ j ∈ roots, i ≠ j → low < pointer i → low < pointer j →
    pointer i + size i ≤ pointer j ∨ pointer j + size j ≤ pointer i

/-- The blocks from the bottom on leave no gap, and all others end below it. -/
structure Packed (pointer : ι → ℕ) (bottom : ℕ) : Prop where
  le_top : bottom ≤ top
  below : ∀ i ∈ roots, low < pointer i → pointer i < bottom → pointer i + size i ≤ bottom
  full : ∀ x, bottom ≤ x → x < top →
    ∃ i ∈ roots, low < pointer i ∧ bottom ≤ pointer i ∧ pointer i ≤ x ∧ x < pointer i + size i

/-- Every block has its bytes, wherever it is, and nothing below the bottom or above the top
has changed. -/
structure Kept (h h' : Heap ι) : Prop where
  none : ∀ i ∈ roots, h.pointer i ≤ low → h'.pointer i = h.pointer i
  some : ∀ i ∈ roots, low < h.pointer i → low < h'.pointer i
  bytes : ∀ i ∈ roots, low < h.pointer i → ∀ k < size i,
    h'.byte (h'.pointer i + k) = h.byte (h.pointer i + k)
  bottom_le : h'.bottom ≤ h.bottom
  outside : ∀ x, x < h'.bottom ∨ top ≤ x → h'.byte x = h.byte x
  others : ∀ i, i ∉ roots → h'.pointer i = h.pointer i

variable {low top size roots} {h h' h'' : Heap ι} {pointer : ι → ℕ} {bottom : ℕ} {c : Scan ι}
  {i : ι}

theorem Laid.congr {size' pointer' : ι → ℕ} (h : Laid low top size roots pointer)
    (hsize : ∀ i ∈ roots, size' i = size i) (hpointer : ∀ i ∈ roots, pointer' i = pointer i) :
    Laid low top size' roots pointer' where
  size_pos i hi hlow := by
    rw [hpointer i hi] at hlow
    rw [hsize i hi]
    exact h.size_pos i hi hlow
  bounded i hi hlow := by
    rw [hpointer i hi] at hlow ⊢
    rw [hsize i hi]
    exact h.bounded i hi hlow
  apart i hi j hj hne hlow hlow' := by
    rw [hpointer i hi] at hlow ⊢
    rw [hpointer j hj] at hlow' ⊢
    rw [hsize i hi, hsize j hj]
    exact h.apart i hi j hj hne hlow hlow'

theorem Laid.subset {roots' : List ι} (h : Laid low top size roots pointer)
    (hsub : ∀ i ∈ roots', i ∈ roots) : Laid low top size roots' pointer where
  size_pos i hi := h.size_pos i (hsub i hi)
  bounded i hi := h.bounded i (hsub i hi)
  apart i hi j hj := h.apart i (hsub i hi) j (hsub j hj)

/-- Other handles of the same blocks. -/
theorem Laid.rename {low' : ℕ} {roots' : List ι} {size' pointer' : ι → ℕ} (f : ι → ι)
    (h : Laid low top size roots pointer)
    (hf : ∀ i ∈ roots', low' < pointer' i → f i ∈ roots ∧ low < pointer (f i) ∧
      pointer' i = pointer (f i) ∧ size' i = size (f i))
    (hinj : ∀ i ∈ roots', ∀ j ∈ roots', i ≠ j → low' < pointer' i → low' < pointer' j → f i ≠ f j) :
    Laid low' top size' roots' pointer' where
  size_pos i hi hlow := by
    obtain ⟨hmem,hlow',-,hsize⟩ := hf i hi hlow
    rw [hsize]
    exact h.size_pos _ hmem hlow'
  bounded i hi hlow := by
    obtain ⟨hmem,hlow',hpointer,hsize⟩ := hf i hi hlow
    rw [hpointer, hsize]
    exact h.bounded _ hmem hlow'
  apart i hi j hj hne hlow hlow' := by
    obtain ⟨hmem,hlive,hpointer,hsize⟩ := hf i hi hlow
    obtain ⟨hmem',hlive',hpointer',hsize'⟩ := hf j hj hlow'
    rw [hpointer, hsize, hpointer', hsize']
    exact h.apart _ hmem _ hmem' (hinj i hi j hj hne hlow hlow') hlive hlive'

/-- A handle more, with a block of its own. -/
theorem Laid.insert {roots' : List ι} (h : Laid low top size roots pointer)
    (hroots : ∀ j ∈ roots', j = i ∨ j ∈ roots) (hpos : low < pointer i → 0 < size i)
    (hbounded : low < pointer i → pointer i + size i ≤ top)
    (hapart : ∀ j ∈ roots, low < pointer i → low < pointer j →
      pointer i + size i ≤ pointer j ∨ pointer j + size j ≤ pointer i) :
    Laid low top size roots' pointer where
  size_pos j hj hlow := by
    rcases hroots j hj with rfl | hj
    · exact hpos hlow
    · exact h.size_pos j hj hlow
  bounded j hj hlow := by
    rcases hroots j hj with rfl | hj
    · exact hbounded hlow
    · exact h.bounded j hj hlow
  apart j hj j' hj' hne hlow hlow' := by
    rcases hroots j hj with rfl | hj <;> rcases hroots j' hj' with rfl | hj'
    · exact absurd rfl hne
    · exact hapart j' hj' hlow hlow'
    · exact (hapart j hj hlow' hlow).symm
    · exact h.apart j hj j' hj' hne hlow hlow'

theorem Packed.congr {size' pointer' : ι → ℕ} (h : Packed low top size roots pointer bottom)
    (hsize : ∀ i ∈ roots, size' i = size i) (hpointer : ∀ i ∈ roots, pointer' i = pointer i) :
    Packed low top size' roots pointer' bottom where
  le_top := h.le_top
  below i hi hlow hlt := by
    rw [hpointer i hi] at hlow hlt ⊢
    rw [hsize i hi]
    exact h.below i hi hlow hlt
  full x hx htop := by
    obtain ⟨i,hi,hxi⟩ := h.full x hx htop
    refine ⟨i,hi,?_⟩
    rw [hpointer i hi, hsize i hi]
    exact hxi

theorem Kept.refl (h : Heap ι) : Kept low top size roots h h :=
  ⟨fun _ _ _ => rfl,fun _ _ hi => hi,fun _ _ _ _ _ => rfl,Nat.le_refl _,fun _ _ => rfl,
    fun _ _ => rfl⟩

theorem Kept.trans (h₁ : Kept low top size roots h h') (h₂ : Kept low top size roots h' h'') :
    Kept low top size roots h h'' where
  none i hi hp := (h₂.none i hi ((h₁.none i hi hp).trans_le hp)).trans (h₁.none i hi hp)
  some i hi hp := h₂.some i hi (h₁.some i hi hp)
  bytes i hi hp k hk :=
    (h₂.bytes i hi (h₁.some i hi hp) k hk).trans (h₁.bytes i hi hp k hk)
  bottom_le := h₂.bottom_le.trans h₁.bottom_le
  outside x hx := (h₂.outside x hx).trans
    (h₁.outside x (hx.imp_left fun hlt => Nat.lt_of_lt_of_le hlt h₂.bottom_le))
  others i hi := (h₂.others i hi).trans (h₁.others i hi)

/-! ### One scan -/

/-- The scan after the handles in `done`. -/
structure Scanned (low top : ℕ) (size : ι → ℕ) (roots : List ι) (pointer : ι → ℕ)
    (done : List ι) (c : Scan ι) : Prop where
  packed : Packed low top size roots pointer c.bottom
  low_le : low ≤ c.highest
  none : c.move = none → c.highest = low
  some : ∀ i ∈ c.move, i ∈ roots ∧ low < pointer i ∧ pointer i = c.highest ∧ c.highest < c.bottom
  done : ∀ j ∈ done, low < pointer j → c.bottom ≤ pointer j ∨ pointer j ≤ c.highest

theorem Packed.lower (hlaid : Laid low top size roots pointer)
    (h : Packed low top size roots pointer bottom) (hi : i ∈ roots) (hlive : low < pointer i)
    (hplace : pointer i + size i = bottom) : Packed low top size roots pointer (pointer i) where
  le_top := by
    have := hlaid.bounded i hi hlive
    omega
  below j hj hlow hlt := by
    have hne : j ≠ i := fun hji => Nat.lt_irrefl _ (hji ▸ hlt)
    rcases hlaid.apart j hj i hi hne hlow hlive with hle | hle
    · exact hle
    · omega
  full x hx htop := by
    by_cases hin : x < bottom
    · exact ⟨i,hi,hlive,Nat.le_refl _,hx,by omega⟩
    · obtain ⟨j,hj,hlow,hle,hxj⟩ := h.full x (Nat.le_of_not_lt hin) htop
      exact ⟨j,hj,hlow,by omega,hxj⟩

theorem Scanned.visit {done : List ι} (hlaid : Laid low top size roots pointer)
    (h : Scanned low top size roots pointer done c) (hi : i ∈ roots) :
    Scanned low top size roots pointer (done ++ [i]) (visit size pointer i c) := by
  have hlow := h.low_le
  have hlast : ∀ {c' : Scan ι}, (∀ j ∈ done, low < pointer j →
      c'.bottom ≤ pointer j ∨ pointer j ≤ c'.highest) →
      (low < pointer i → c'.bottom ≤ pointer i ∨ pointer i ≤ c'.highest) →
      ∀ j ∈ done ++ [i], low < pointer j → c'.bottom ≤ pointer j ∨ pointer j ≤ c'.highest := by
    intro c' hdone hi j hj
    rcases List.mem_append.mp hj with hj | hj
    · exact hdone j hj
    · obtain rfl := List.mem_singleton.mp hj
      exact hi
  unfold SlidingHeap.visit
  split_ifs with hskip hplace
  · exact ⟨h.packed,h.low_le,h.none,h.some,hlast h.done fun _ => hskip.symm⟩
  · obtain ⟨hhigh,hbelow⟩ := not_or.mp hskip
    have hlive : low < pointer i := by omega
    refine ⟨h.packed.lower hlaid hi hlive hplace,h.low_le,h.none,fun j hj => ?_,
      hlast (fun j hj hjlow => ?_) fun _ => Or.inl (Nat.le_refl _)⟩
    · obtain ⟨hjr,hjlow,hjp,-⟩ := h.some j hj
      exact ⟨hjr,hjlow,hjp,Nat.lt_of_not_le hhigh⟩
    · exact (h.done j hj hjlow).imp_left fun hle => by
        show pointer i ≤ pointer j
        omega
  · obtain ⟨hhigh,hbelow⟩ := not_or.mp hskip
    refine ⟨h.packed,by show low ≤ pointer i; omega,nofun,fun j hj => ?_,
      hlast (fun j hj hjlow => ?_) fun _ => Or.inr (Nat.le_refl _)⟩
    · obtain rfl := Option.some.inj hj
      exact ⟨hi,by omega,rfl,Nat.lt_of_not_le hbelow⟩
    · exact (h.done j hj hjlow).imp_right fun hle => by
        show pointer j ≤ pointer i
        omega

theorem Scanned.scan {done rest : List ι} (hlaid : Laid low top size roots pointer)
    (h : Scanned low top size roots pointer done c) (hrest : ∀ i ∈ rest, i ∈ roots) :
    Scanned low top size roots pointer (done ++ rest) (scan size pointer rest c) := by
  induction rest generalizing done c with
  | nil => rwa [List.append_nil]
  | cons i rest ih =>
    obtain ⟨hi,hrest⟩ := List.forall_mem_cons.mp hrest
    have := ih (h.visit hlaid hi) hrest
    rwa [List.append_assoc] at this

theorem scan_bottom_le (pointer : ι → ℕ) (is : List ι) (c : Scan ι) :
    (scan size pointer is c).bottom ≤ c.bottom := by
  induction is generalizing c with
  | nil => exact Nat.le_refl _
  | cons i is ih =>
    refine (ih _).trans ?_
    unfold visit
    split_ifs with hskip
    · exact Nat.le_refl _
    · exact Nat.le_of_lt (Nat.lt_of_not_le (not_or.mp hskip).2)
    · exact Nat.le_refl _

/-- A whole scan finds the highest block that is not in place, if there is one. -/
theorem scan_spec (hlaid : Laid low top size roots pointer)
    (hpacked : Packed low top size roots pointer bottom) :
    Scanned low top size roots pointer roots (scan size pointer roots ⟨low,none,bottom⟩) := by
  have hstart : Scanned low top size roots pointer [] ⟨low,none,bottom⟩ :=
    ⟨hpacked,Nat.le_refl _,fun _ => rfl,nofun,nofun⟩
  exact hstart.scan hlaid fun _ hi => hi

/-! ### One move -/

/-- The handle owns the highest block that is not in place. -/
structure Next (low : ℕ) (roots : List ι) (i : ι) (h : Heap ι) : Prop where
  mem : i ∈ roots
  live : low < h.pointer i
  below : h.pointer i < h.bottom
  highest : ∀ j ∈ roots, low < h.pointer j → h.bottom ≤ h.pointer j ∨ h.pointer j ≤ h.pointer i

/-- A block below the moved one ends below it. -/
theorem Next.apart (hnext : Next low roots i h) (hlaid : Laid low top size roots h.pointer)
    {j : ι} (hj : j ∈ roots) (hne : j ≠ i) (hlive : low < h.pointer j) :
    h.bottom ≤ h.pointer j ∨ h.pointer j + size j ≤ h.pointer i := by
  refine (hnext.highest j hj hlive).imp_right fun hle => ?_
  have hpos := hlaid.size_pos i hnext.mem hnext.live
  rcases hlaid.apart j hj i hnext.mem hne hlive hnext.live with happart | happart
  · exact happart
  · omega

variable [DecidableEq ι]

theorem slide_pointer_of_ne {j : ι} (hne : j ≠ i) :
    (slide size i h).pointer j = h.pointer j :=
  Function.update_of_ne hne _ _

theorem slide_pointer_self : (slide size i h).pointer i = h.bottom - size i :=
  Function.update_self ..

theorem slide_laid (hnext : Next low roots i h) (hlaid : Laid low top size roots h.pointer)
    (hpacked : Packed low top size roots h.pointer h.bottom) :
    Laid low top size roots (slide size i h).pointer := by
  have hfit := hpacked.below i hnext.mem hnext.live hnext.below
  have hlive := hnext.live
  have htop := hpacked.le_top
  have hother : ∀ j ∈ roots, j ≠ i → low < h.pointer j →
      h.bottom - size i + size i ≤ h.pointer j ∨ h.pointer j + size j ≤ h.bottom - size i := by
    intro j hj hne hlow
    have := hnext.apart hlaid hj hne hlow
    omega
  refine ⟨fun j hj hlow => ?_,fun j hj hlow => ?_,fun j hj k hk hne hlow hlow' => ?_⟩
  · by_cases hji : j = i
    · subst hji
      exact hlaid.size_pos j hj hnext.live
    · rw [slide_pointer_of_ne hji] at hlow
      exact hlaid.size_pos j hj hlow
  · by_cases hji : j = i
    · subst hji
      rw [slide_pointer_self]
      omega
    · rw [slide_pointer_of_ne hji] at hlow ⊢
      exact hlaid.bounded j hj hlow
  · by_cases hji : j = i
    · subst hji
      have hki : k ≠ j := fun h => hne h.symm
      rw [slide_pointer_of_ne hki] at hlow' ⊢
      rw [slide_pointer_self]
      exact hother k hk hki hlow'
    · rw [slide_pointer_of_ne hji] at hlow ⊢
      by_cases hki : k = i
      · subst hki
        rw [slide_pointer_self]
        exact (hother j hj hji hlow).symm
      · rw [slide_pointer_of_ne hki] at hlow' ⊢
        exact hlaid.apart j hj k hk hne hlow hlow'

theorem slide_packed (hnext : Next low roots i h) (hlaid : Laid low top size roots h.pointer)
    (hpacked : Packed low top size roots h.pointer h.bottom) :
    Packed low top size roots (slide size i h).pointer (slide size i h).bottom := by
  have hfit := hpacked.below i hnext.mem hnext.live hnext.below
  have hlive := hnext.live
  have htop := hpacked.le_top
  have hself : (slide size i h).pointer i = h.bottom - size i := slide_pointer_self
  change Packed low top size roots (slide size i h).pointer (h.bottom - size i)
  refine ⟨by omega,fun j hj hlow hlt => ?_,fun x hx htop => ?_⟩
  · by_cases hji : j = i
    · subst hji
      omega
    · rw [slide_pointer_of_ne hji] at hlow hlt ⊢
      have := hnext.apart hlaid hj hji hlow
      omega
  · by_cases hin : x < h.bottom
    · exact ⟨i,hnext.mem,by omega,by omega,by omega,by omega⟩
    · obtain ⟨j,hj,hlow,hle,hxj⟩ := hpacked.full x (Nat.le_of_not_lt hin) htop
      have hji : j ≠ i := fun h => by
        subst h
        have := hnext.below
        omega
      rw [← @slide_pointer_of_ne _ size h i _ j hji] at hlow hle hxj
      exact ⟨j,hj,hlow,by omega,hxj⟩

theorem slide_kept (hnext : Next low roots i h) (hlaid : Laid low top size roots h.pointer)
    (hpacked : Packed low top size roots h.pointer h.bottom) :
    Kept low top size roots h (slide size i h) := by
  have hfit := hpacked.below i hnext.mem hnext.live hnext.below
  have hlive := hnext.live
  have htop := hpacked.le_top
  refine ⟨fun j hj hlow => ?_,fun j hj hlow => ?_,fun j hj hlow k hk => ?_,Nat.sub_le _ _,
    fun x hx => ?_,fun j hj => ?_⟩
  · exact slide_pointer_of_ne fun hji => by
      subst hji
      omega
  · by_cases hji : j = i
    · subst hji
      rw [slide_pointer_self]
      omega
    · rwa [slide_pointer_of_ne hji]
  · by_cases hji : j = i
    · subst hji
      rw [slide_pointer_self]
      change (if h.bottom - size j ≤ h.bottom - size j + k ∧ h.bottom - size j + k < h.bottom
        then _ else _) = _
      rw [if_pos (by omega)]
      congr 1
      omega
    · rw [slide_pointer_of_ne hji]
      have := hnext.apart hlaid hj hji hlow
      exact if_neg (by omega)
  · change x < h.bottom - size i ∨ top ≤ x at hx
    exact if_neg (by omega)
  · exact slide_pointer_of_ne fun hji => hj (hji ▸ hnext.mem)

/-! ### A whole collection -/

/-- The handles of blocks that are not in place. -/
def waiting (low : ℕ) (roots : List ι) (h : Heap ι) : Finset ι :=
  roots.toFinset.filter fun i => low < h.pointer i ∧ h.pointer i < h.bottom

theorem mem_waiting : i ∈ waiting low roots h ↔
    i ∈ roots ∧ low < h.pointer i ∧ h.pointer i < h.bottom := by
  simp [waiting]

theorem waiting_slide (hnext : Next low roots i h) :
    (waiting low roots (slide size i h)).card < (waiting low roots h).card := by
  refine Finset.card_lt_card ⟨fun j hj => ?_,fun hsub => ?_⟩
  · obtain ⟨hj,hlow,hlt⟩ := mem_waiting.mp hj
    have hji : j ≠ i := fun hji => by
      subst hji
      rw [slide_pointer_self] at hlt
      exact Nat.lt_irrefl _ hlt
    rw [slide_pointer_of_ne hji] at hlow hlt
    change h.pointer j < h.bottom - size i at hlt
    exact mem_waiting.mpr ⟨hj,hlow,by omega⟩
  · obtain ⟨-,-,hlt⟩ :=
      mem_waiting.mp (hsub (mem_waiting.mpr ⟨hnext.mem,hnext.live,hnext.below⟩))
    rw [slide_pointer_self] at hlt
    exact Nat.lt_irrefl _ hlt

theorem waiting_lower {b : ℕ} (hb : b ≤ h.bottom) :
    (waiting low roots { h with bottom := b }).card ≤ (waiting low roots h).card := by
  refine Finset.card_le_card fun j hj => ?_
  obtain ⟨hj,hlow,hlt⟩ := mem_waiting.mp hj
  exact mem_waiting.mpr ⟨hj,hlow,Nat.lt_of_lt_of_le hlt hb⟩

/-- The collection ends, every block has its bytes, and no gap is left. -/
theorem collect_spec {fuel : ℕ} (hlaid : Laid low top size roots h.pointer)
    (hpacked : Packed low top size roots h.pointer h.bottom)
    (hfuel : (waiting low roots h).card < fuel) :
    ∃ h', collect low size roots fuel h = some h' ∧ Laid low top size roots h'.pointer ∧
      Packed low top size roots h'.pointer h'.bottom ∧ Kept low top size roots h h' ∧
      ∀ i ∈ roots, low < h'.pointer i → h'.bottom ≤ h'.pointer i := by
  induction fuel generalizing h with
  | zero => exact absurd hfuel (Nat.not_lt_zero _)
  | succ fuel ih =>
    have hscan := scan_spec hlaid hpacked
    have hbottom := @scan_bottom_le _ size h.pointer roots ⟨low,none,h.bottom⟩
    simp only [collect]
    generalize scan size h.pointer roots ⟨low,none,h.bottom⟩ = c at hscan hbottom
    have hwaiting := @waiting_lower _ low roots _ _ _ hbottom
    cases hmove : c.move with
    | none =>
      refine ⟨_,rfl,hlaid,hscan.packed,⟨fun _ _ _ => rfl,fun _ _ hi => hi,fun _ _ _ _ _ => rfl,
        hbottom,fun _ _ => rfl,fun _ _ => rfl⟩,fun i hi hlow => ?_⟩
      rcases hscan.done i hi hlow with hle | hle
      · exact hle
      · rw [hscan.none hmove] at hle
        exact absurd hlow (Nat.not_lt_of_le hle)
    | some i =>
      obtain ⟨hi,hlow,heq,hlt⟩ := hscan.some i hmove
      have hnext : Next low roots i { h with bottom := c.bottom } :=
        ⟨hi,hlow,by show h.pointer i < c.bottom; omega,
          fun j hj hjlow => by have := hscan.done j hj hjlow; simpa [heq] using this⟩
      have hless := @waiting_slide _ low size roots _ i _ hnext
      obtain ⟨h',hcollect,hlaid',hpacked',hkept,hend⟩ := ih (slide_laid hnext hlaid hscan.packed)
        (slide_packed hnext hlaid hscan.packed) (by omega)
      refine ⟨h',hcollect,hlaid',hpacked',?_,hend⟩
      have hslide := slide_kept hnext hlaid hscan.packed
      exact Kept.trans ⟨hslide.none,hslide.some,hslide.bytes,hslide.bottom_le.trans hbottom,
        hslide.outside,hslide.others⟩ hkept

/-! ### Space -/

/-- The bytes that blocks take up. -/
def used (low : ℕ) (size : ι → ℕ) (roots : List ι) (pointer : ι → ℕ) : ℕ :=
  ∑ i ∈ roots.toFinset.filter fun i => low < pointer i, size i

/-- The addresses of all blocks. -/
def taken (low : ℕ) (size : ι → ℕ) (roots : List ι) (pointer : ι → ℕ) : Finset ℕ :=
  (roots.toFinset.filter fun i => low < pointer i).biUnion
    fun i => Finset.Ico (pointer i) (pointer i + size i)

theorem mem_taken {x : ℕ} : x ∈ taken low size roots pointer ↔
    ∃ i ∈ roots, low < pointer i ∧ pointer i ≤ x ∧ x < pointer i + size i := by
  simp [taken, and_assoc]

theorem card_taken (hlaid : Laid low top size roots pointer) :
    (taken low size roots pointer).card = used low size roots pointer := by
  have hdisjoint : (↑(roots.toFinset.filter fun i => low < pointer i) : Set ι).PairwiseDisjoint
      fun i => Finset.Ico (pointer i) (pointer i + size i) := by
    intro i hi j hj hne
    obtain ⟨hi,hlow⟩ := Finset.mem_filter.mp (Finset.mem_coe.mp hi)
    obtain ⟨hj,hlow'⟩ := Finset.mem_filter.mp (Finset.mem_coe.mp hj)
    refine Finset.disjoint_left.mpr fun x hx hx' => ?_
    have := hlaid.apart i (List.mem_toFinset.mp hi) j (List.mem_toFinset.mp hj) hne hlow hlow'
    have := Finset.mem_Ico.mp hx
    have := Finset.mem_Ico.mp hx'
    omega
  have hcard := Finset.card_biUnion hdisjoint
  simpa only [taken, used, Nat.card_Ico, Nat.add_sub_cancel_left] using hcard

/-- Blocks above the bottom have room there. -/
theorem used_le (hlaid : Laid low top size roots pointer)
    (hall : ∀ i ∈ roots, low < pointer i → bottom ≤ pointer i) :
    used low size roots pointer ≤ top - bottom := by
  rw [← card_taken hlaid, ← Nat.card_Ico]
  refine Finset.card_le_card fun x hx => ?_
  obtain ⟨i,hi,hlow,hxi⟩ := mem_taken.mp hx
  have := hlaid.bounded i hi hlow
  have := hall i hi hlow
  exact Finset.mem_Ico.mpr (by omega)

/-- When all blocks are in place, they fill the memory from the bottom to the top. -/
theorem used_eq (hlaid : Laid low top size roots pointer)
    (hpacked : Packed low top size roots pointer bottom)
    (hall : ∀ i ∈ roots, low < pointer i → bottom ≤ pointer i) :
    used low size roots pointer = top - bottom := by
  refine Nat.le_antisymm (used_le hlaid hall) ?_
  rw [← card_taken hlaid, ← Nat.card_Ico]
  refine Finset.card_le_card fun x hx => ?_
  obtain ⟨hx,htop⟩ := Finset.mem_Ico.mp hx
  obtain ⟨i,hi,hlow,-,hxi⟩ := hpacked.full x hx htop
  exact mem_taken.mpr ⟨i,hi,hlow,hxi⟩

/-- Blocks take up the same space after they have been moved. -/
theorem Kept.used (h₁ : Kept low top size roots h h') :
    used low size roots h'.pointer = used low size roots h.pointer := by
  have hsame : (roots.toFinset.filter fun i => low < h'.pointer i) =
      roots.toFinset.filter fun i => low < h.pointer i := by
    refine Finset.filter_congr fun i hi => ?_
    have hi := List.mem_toFinset.mp hi
    constructor
    · intro hlow
      by_contra hle
      rw [h₁.none i hi (Nat.le_of_not_lt hle)] at hlow
      exact hle hlow
    · exact h₁.some i hi
  rw [SlidingHeap.used, SlidingHeap.used, hsame]

end Betawise.SlidingHeap
