import Betawise.Os3kTerminal
import Mathlib.Data.Nat.Bitwise
import Mathlib.Tactic.SplitIfs

/-!
# The glyph table of the Terminal font

`fontgen.py` packs each column of a glyph into one number, whatever the height,
and declares rows of `GLYPH_BYTES` bytes. The compiler reduces the numbers to
bytes and fills the rest of a row with zeros. `fputc` finds a glyph through an
offset in a `short`. A sheet survives all three steps exactly if its glyphs are
at most 8 lines high and at most 128 columns wide.
-/
namespace Betawise.GlyphTable
open Os3kState Os3kTerminal

/-! ### The encoder -/

/-- The image as PIL opens it: its size and its gray levels. -/
structure Sheet where
  width : ℕ
  height : ℕ
  getpixel : ℕ → ℕ → ℕ

def glyphCount : ℕ := 256

def glyphWidth (im : Sheet) : ℕ := im.width / glyphCount

def glyphBytes (im : Sheet) : ℕ := glyphWidth im * ((im.height + 7) / 8)

/-- The bits of a column, from the top. -/
def columnValue (im : Sheet) (x : ℕ) : ℕ :=
  (List.range im.height).foldl
    (fun val y => if im.getpixel x y < 128 then val ||| 1 <<< y else val) 0

def bitmap (im : Sheet) (i : ℕ) : List ℕ :=
  (List.range (glyphWidth im)).map fun j => columnValue im (i * glyphWidth im + j)

def glyphs (im : Sheet) : List (List ℕ) := (List.range glyphCount).map (bitmap im)

/-! ### The table in memory -/

/-- A row of `const uint8_t GLYPHS[256][n]`: the values are converted, and missing
ones are zero. -/
def initialised (n : ℕ) (row : List ℕ) : List ℕ :=
  (List.range n).map fun k => u8 (row.getD k 0 : ℕ)

/-- Memory with the table at address `table` and `rom` everywhere else. -/
def memory (rom : ℕ → ℕ) (table : ℕ) (im : Sheet) (a : ℕ) : ℕ :=
  if table ≤ a ∧ a < table + glyphCount * glyphBytes im then
    (initialised (glyphBytes im) ((glyphs im).getD ((a - table) / glyphBytes im) [])).getD
      ((a - table) % glyphBytes im) 0
  else rom a

/-- The header that `MSG_INIT` fills in. -/
def fontHeader (table : ℕ) (im : Sheet) : FontHeader where
  height := u8 im.height
  maxWidth := u8 (glyphWidth im)
  maxBytes := u8 (glyphBytes im)
  bitmapData := table
  height_lt := u8_lt _
  maxWidth_lt := u8_lt _
  maxBytes_lt := u8_lt _

/-- The bytes of glyph `c` from the address that `fputc` passes on. -/
def passedBytes (rom : ℕ → ℕ) (table : ℕ) (im : Sheet) (c : ℕ) : List ℕ :=
  (List.range (glyphBytes im)).map fun k =>
    memory rom table im (u32 (glyphAddress (fontHeader table im) c + k : ℕ))

/-! ### What is asked of a sheet size -/

structure OfSize (gw gh : ℕ) (im : Sheet) : Prop where
  glyphWidth : glyphWidth im = gw
  height : im.height = gh

/-- The rows fit the array they initialise. -/
def Emits (im : Sheet) : Prop :=
  ∀ row ∈ glyphs im, row.length = glyphBytes im ∧ ∀ v ∈ row, v < 256

/-- A pixel of glyph `c`, darker than 128 or not. -/
def dark (gw : ℕ) (im : Sheet) (c x y : ℕ) : Bool := decide (im.getpixel (c * gw + x) y < 128)

/-- Sheets that differ in glyph `c` pass different bytes for it, wherever the table
is placed and whatever lies around it. -/
def Determined (gw gh c : ℕ) : Prop :=
  ∀ (rom : ℕ → ℕ) (table : ℕ), table + glyphCount * (gw * ((gh + 7) / 8)) ≤ 4294967296 →
    ∀ im im', OfSize gw gh im → OfSize gw gh im' →
      (∃ x < gw, ∃ y < gh, dark gw im c x y ≠ dark gw im' c x y) →
        passedBytes rom table im c ≠ passedBytes rom table im' c

def KeepsPixels (gw gh : ℕ) : Prop :=
  (∀ im, OfSize gw gh im → Emits im) ∧ ∀ c < 256, Determined gw gh c

variable {gw gh c : ℕ} {rom : ℕ → ℕ} {table : ℕ} {im im' : Sheet}

/-! ### Columns -/

theorem testBit_foldl_range (p : ℕ → Prop) [DecidablePred p] (n i : ℕ) :
    ((List.range n).foldl (fun val y => if p y then val ||| 1 <<< y else val) 0).testBit i =
      decide (i < n ∧ p i) := by
  induction n with
  | zero => simp
  | succ n ih =>
    rw [List.range_succ, List.foldl_append, List.foldl_cons, List.foldl_nil]
    by_cases hp : p n
    · rw [if_pos hp, Nat.testBit_or, ih, Nat.one_shiftLeft, Nat.testBit_two_pow,
        ← Bool.decide_or, decide_eq_decide]
      constructor
      · rintro (⟨hi,hpi⟩ | rfl)
        · exact ⟨by omega,hpi⟩
        · exact ⟨Nat.lt_succ_self _,hp⟩
      · rintro ⟨hi,hpi⟩
        obtain hlt | rfl : i < n ∨ i = n := by omega
        · exact .inl ⟨hlt,hpi⟩
        · exact .inr rfl
    · rw [if_neg hp, ih, decide_eq_decide]
      constructor
      · exact fun h => ⟨by omega,h.2⟩
      · rintro ⟨hi,hpi⟩
        obtain hlt | rfl : i < n ∨ i = n := by omega
        · exact ⟨hlt,hpi⟩
        · exact absurd hpi hp

/-- Bit `y` of a column's number is the pixel on line `y`. -/
theorem testBit_columnValue (im : Sheet) (x y : ℕ) :
    (columnValue im x).testBit y = decide (y < im.height ∧ im.getpixel x y < 128) :=
  testBit_foldl_range (fun y => im.getpixel x y < 128) im.height y

theorem columnValue_lt (im : Sheet) (x : ℕ) : columnValue im x < 2 ^ im.height := by
  refine Nat.lt_pow_two_of_testBit _ fun y hy => ?_
  rw [testBit_columnValue, decide_eq_false_iff_not]
  omega

/-- Up to 8 lines a column fits a byte. -/
theorem columnValue_lt_byte (hheight : im.height ≤ 8) (x : ℕ) : columnValue im x < 256 :=
  (columnValue_lt im x).trans_le (Nat.pow_le_pow_right (by decide : 0 < 2) hheight)

theorem bitmap_length (im : Sheet) (i : ℕ) : (bitmap im i).length = glyphWidth im := by
  rw [bitmap, List.length_map, List.length_range]

theorem bitmap_getD {j : ℕ} (hj : j < glyphWidth im) (i : ℕ) :
    (bitmap im i).getD j 0 = columnValue im (i * glyphWidth im + j) := by
  simp [bitmap, hj]

theorem glyphs_getD (hc : c < 256) : (glyphs im).getD c [] = bitmap im c := by
  simp [glyphs, glyphCount, hc]

/-! ### Addresses -/

theorem OfSize.glyphBytes (h : OfSize gw gh im) : glyphBytes im = gw * ((gh + 7) / 8) := by
  rw [GlyphTable.glyphBytes, h.glyphWidth, h.height]

/-- The offset as the `short` holds it. -/
theorem offset_eq {n : ℕ} (hn : n ≤ 255) (hc : c < 256) :
    s16 ((u8 n : ℤ) * c) =
      if n * c ≤ 32767 then ((n * c : ℕ) : ℤ) else ((n * c : ℕ) : ℤ) - 65536 := by
  have hmul : n * c ≤ 255 * 255 := Nat.mul_le_mul hn (by omega)
  rw [u8_natCast (by omega), ← Int.natCast_mul]
  simp only [s16]
  split_ifs <;> omega

/-- While the offset fits the `short`, `fputc` passes the glyph's own row. -/
theorem passedBytes_eq_row (hc : c < 256) (hbytes : glyphBytes im ≤ 255)
    (hshort : glyphBytes im * c ≤ 32767)
    (hfits : table + glyphCount * glyphBytes im ≤ 4294967296) :
    passedBytes rom table im c = initialised (glyphBytes im) (bitmap im c) := by
  refine List.map_congr_left fun k hk => ?_
  have hk' : k < glyphBytes im := List.mem_range.mp hk
  have hrow : glyphBytes im * c + k < glyphCount * glyphBytes im := by
    calc glyphBytes im * c + k < glyphBytes im * (c + 1) := by
          rw [Nat.mul_succ]
          omega
      _ ≤ glyphBytes im * glyphCount := Nat.mul_le_mul_left _ hc
      _ = glyphCount * glyphBytes im := Nat.mul_comm ..
  have hoffset := offset_eq hbytes hc
  rw [if_pos hshort] at hoffset
  have haddr : u32 (glyphAddress (fontHeader table im) c + k : ℕ) =
      table + (glyphBytes im * c + k) := by
    simp only [glyphAddress, fontHeader, hoffset, u32]
    omega
  rw [haddr, memory, if_pos ⟨by omega,by omega⟩, Nat.add_sub_cancel_left,
    Nat.mul_add_div (by omega), Nat.div_eq_of_lt hk', Nat.add_zero, Nat.mul_add_mod,
    Nat.mod_eq_of_lt hk', glyphs_getD hc]
  simp [initialised, hk']

/-- Beyond it the offset is negative, and the bytes are those in front of the table. -/
theorem passedBytes_eq_rom (rom : ℕ → ℕ) (table : ℕ) (hc : c < 256) (hbytes : glyphBytes im ≤ 255)
    (hshort : 32767 < glyphBytes im * c)
    (hfits : table + glyphCount * glyphBytes im ≤ 4294967296) :
    passedBytes rom table im c = (List.range (glyphBytes im)).map fun k =>
      rom (u32 (u32 (table + s16 ((u8 (glyphBytes im) : ℤ) * c)) + k : ℕ)) := by
  refine List.map_congr_left fun k hk => ?_
  have hk' : k < glyphBytes im := List.mem_range.mp hk
  have hmul : glyphBytes im * c ≤ 255 * 255 := Nat.mul_le_mul hbytes (by omega)
  have hoffset := offset_eq hbytes hc
  rw [if_neg (by omega)] at hoffset
  have hcount : glyphCount * glyphBytes im ≤ 65280 := by
    simp only [glyphCount]
    omega
  rw [memory, if_neg]
  · rfl
  · simp only [glyphAddress, fontHeader, hoffset, u32]
    omega

/-! ### The condition -/

/-- Low glyphs with a small offset: the bytes are the columns. -/
theorem determined_of_fits (hh : gh ≤ 8) (hh1 : 1 ≤ gh) (hc : c < 256)
    (hbytes : gw * ((gh + 7) / 8) ≤ 255) (hshort : gw * ((gh + 7) / 8) * c ≤ 32767) :
    Determined gw gh c := by
  rintro rom table hfits im im' him him' ⟨x,hx,y,hy,hne⟩ heq
  have hone : (gh + 7) / 8 = 1 := by omega
  have hrow {jm : Sheet} (hjm : OfSize gw gh jm) :
      (passedBytes rom table jm c).getD x 0 = columnValue jm (c * gw + x) := by
    have hn := hjm.glyphBytes
    have hx' : x < glyphWidth jm := by rw [hjm.glyphWidth]; exact hx
    have hx'' : x < glyphBytes jm := by rw [hn, hone, Nat.mul_one]; exact hx
    rw [passedBytes_eq_row hc (by rw [hn]; exact hbytes) (by rw [hn]; exact hshort)
      (by rw [hn]; exact hfits)]
    have hlt := columnValue_lt_byte (by rw [hjm.height]; exact hh) (c * gw + x)
    have hu8 : u8 (columnValue jm (c * gw + x)) = columnValue jm (c * gw + x) := u8_natCast hlt
    rw [initialised, ← hu8, ← hjm.glyphWidth, ← bitmap_getD hx' c]
    simp [hx'']
  have hcol : columnValue im (c * gw + x) = columnValue im' (c * gw + x) := by
    rw [← hrow him, ← hrow him', heq]
  have hbit := congrArg (fun v => v.testBit y) hcol
  simp only [testBit_columnValue, him.height, him'.height, hy, true_and] at hbit
  exact hne hbit

/-- The blank sheet of a size, and the one whose only dark line is line 8. -/
def blankSheet (gw gh : ℕ) : Sheet := ⟨gw * 256,gh,fun _ _ => 255⟩

def ninthLine (gw gh : ℕ) : Sheet := ⟨gw * 256,gh,fun _ y => if y = 8 then 0 else 255⟩

/-- The sheet whose only dark line is line 0. -/
def firstLine (gw gh : ℕ) : Sheet := ⟨gw * 256,gh,fun _ y => if y = 0 then 0 else 255⟩

theorem ofSize_mk (gw gh : ℕ) (getpixel : ℕ → ℕ → ℕ) :
    OfSize gw gh ⟨gw * 256,gh,getpixel⟩ :=
  ⟨Nat.mul_div_cancel gw (by decide : 0 < 256),rfl⟩

/-- Line 8 leaves no trace in a byte. -/
theorem columnValue_ninthLine (x : ℕ) :
    u8 (columnValue (ninthLine gw gh) x) = u8 (columnValue (blankSheet gw gh) x) := by
  have hmod : columnValue (ninthLine gw gh) x % 2 ^ 8 =
      columnValue (blankSheet gw gh) x % 2 ^ 8 := by
    refine Nat.eq_of_testBit_eq fun y => ?_
    simp only [Nat.testBit_mod_two_pow, testBit_columnValue, ninthLine, blankSheet]
    by_cases hy : y < 8
    · simp [hy, hy.ne]
    · simp [hy]
  simp only [u8]
  omega

theorem passedBytes_ninthLine (c : ℕ) :
    passedBytes rom table (ninthLine gw gh) c = passedBytes rom table (blankSheet gw gh) c := by
  have hwidth : glyphWidth (ninthLine gw gh) = glyphWidth (blankSheet gw gh) := rfl
  have hbytes : glyphBytes (ninthLine gw gh) = glyphBytes (blankSheet gw gh) := rfl
  have hrow (n i : ℕ) : initialised n ((glyphs (ninthLine gw gh)).getD i []) =
      initialised n ((glyphs (blankSheet gw gh)).getD i []) := by
    by_cases hi : i < 256
    · rw [glyphs_getD hi, glyphs_getD hi]
      refine List.map_congr_left fun k _ => ?_
      by_cases hk : k < glyphWidth (blankSheet gw gh)
      · rw [bitmap_getD (hwidth ▸ hk), bitmap_getD hk]
        exact columnValue_ninthLine _
      · rw [List.getD_eq_default _ _ (by rw [bitmap_length, hwidth]; omega),
          List.getD_eq_default _ _ (by rw [bitmap_length]; omega)]
    · rw [List.getD_eq_default _ _ (by simp [glyphs, glyphCount]; omega),
        List.getD_eq_default _ _ (by simp [glyphs, glyphCount]; omega)]
  have hmemory : memory rom table (ninthLine gw gh) = memory rom table (blankSheet gw gh) := by
    funext a
    simp only [memory, hbytes, hrow]
  simp only [passedBytes, hmemory, hbytes]
  rfl

/-- The bytes passed for glyph `c` determine its pixels exactly if the glyphs have at
most 8 lines and the glyph's offset fits the `short`. -/
theorem determined_iff (hw : 1 ≤ gw) (hh : 1 ≤ gh) (hbytes : gw * ((gh + 7) / 8) ≤ 255)
    (hc : c < 256) :
    Determined gw gh c ↔ gh ≤ 8 ∧ gw * ((gh + 7) / 8) * c ≤ 32767 := by
  have hroom : 0 + glyphCount * (gw * ((gh + 7) / 8)) ≤ 4294967296 := by
    simp only [glyphCount]
    omega
  constructor
  · intro hdet
    refine ⟨?_,?_⟩
    · by_contra hhigh
      refine hdet (fun _ => 0) 0 hroom _ _ (ofSize_mk gw gh _) (ofSize_mk gw gh _)
        ⟨0,hw,8,by omega,?_⟩ (passedBytes_ninthLine c)
      simp [dark]
    · by_contra hfar
      have hrom {im : Sheet} (him : OfSize gw gh im) := passedBytes_eq_rom (fun _ => 0) 0 hc
        (by rw [him.glyphBytes]; exact hbytes)
        (by rw [him.glyphBytes]; omega) (by rw [him.glyphBytes]; exact hroom)
      have hsize : OfSize gw gh (firstLine gw gh) := ofSize_mk gw gh _
      have hsize' : OfSize gw gh (blankSheet gw gh) := ofSize_mk gw gh _
      refine hdet (fun _ => 0) 0 hroom _ _ hsize hsize' ⟨0,hw,0,hh,?_⟩ ?_
      · simp [dark, firstLine, blankSheet]
      · rw [hrom hsize, hrom hsize', hsize.glyphBytes, hsize'.glyphBytes]
  · rintro ⟨hlow,hshort⟩
    exact determined_of_fits hlow hh hc hbytes hshort

/-- The rows fit exactly if a column fits a byte. -/
theorem emits_iff (hw : 1 ≤ gw) (hh : 1 ≤ gh) :
    (∀ im, OfSize gw gh im → Emits im) ↔ gh ≤ 8 := by
  constructor
  · intro hall
    by_contra hhigh
    have hsize : OfSize gw gh (blankSheet gw gh) := ofSize_mk gw gh _
    have hrow := (hall _ hsize (bitmap (blankSheet gw gh) 0)
      (List.mem_map_of_mem (List.mem_range.mpr (by decide)))).1
    rw [bitmap_length, hsize.glyphBytes, hsize.glyphWidth] at hrow
    have htwo : 2 ≤ (gh + 7) / 8 := by omega
    have hmul : gw * 2 ≤ gw * ((gh + 7) / 8) := Nat.mul_le_mul_left gw htwo
    omega
  · intro hlow im him row hrow
    obtain ⟨i,-,rfl⟩ := List.mem_map.mp hrow
    have hone : (gh + 7) / 8 = 1 := by omega
    refine ⟨?_,fun v hv => ?_⟩
    · rw [bitmap_length, him.glyphBytes, him.glyphWidth, hone, Nat.mul_one]
    · obtain ⟨j,-,rfl⟩ := List.mem_map.mp hv
      exact columnValue_lt_byte (by rw [him.height]; exact hlow) _

/-- No pixel is lost for any sheet of a size exactly if the glyphs are at most 8
lines high and at most 128 columns wide. -/
theorem keepsPixels_iff (hw : 1 ≤ gw) (hh : 1 ≤ gh) (hbytes : gw * ((gh + 7) / 8) ≤ 255) :
    KeepsPixels gw gh ↔ gh ≤ 8 ∧ gw ≤ 128 := by
  rw [KeepsPixels, emits_iff hw hh]
  constructor
  · rintro ⟨hlow,hall⟩
    have hlast := ((determined_iff hw hh hbytes (by decide)).mp (hall 255 (by decide))).2
    rw [show (gh + 7) / 8 = 1 by omega] at hlast
    exact ⟨hlow,by omega⟩
  · rintro ⟨hlow,hnarrow⟩
    refine ⟨hlow,fun c hc => (determined_iff hw hh hbytes hc).mpr ⟨hlow,?_⟩⟩
    rw [show (gh + 7) / 8 = 1 by omega, Nat.mul_one]
    exact (Nat.mul_le_mul hnarrow (by omega : c ≤ 255)).trans (by decide)

/-- The shipped sheet's size. -/
theorem keepsPixels_iff_shipped : KeepsPixels 6 8 :=
  (keepsPixels_iff (by decide) (by decide) (by decide)).mpr ⟨by decide,by decide⟩

/-- A black sheet of glyphs six columns wide and 16 lines high. -/
def blackSheet : Sheet := ⟨1536,16,fun _ _ => 0⟩

/-- Six numbers of 16 bits initialise the twelve bytes of each glyph: the lower
eight lines are lost. -/
theorem tall_glyphs_lose_pixels :
    (bitmap blackSheet 0x41 = List.replicate 6 0xFFFF ∧ glyphBytes blackSheet = 12 ∧
      initialised 12 (bitmap blackSheet 0x41) = List.replicate 6 0xFF ++ List.replicate 6 0) ∧
    ¬ KeepsPixels 6 16 := by
  refine ⟨⟨by decide,by decide,by decide⟩,fun hkeeps => ?_⟩
  have hrow := (hkeeps.1 blackSheet ⟨by decide,rfl⟩ (bitmap blackSheet 0)
    (List.mem_map_of_mem (List.mem_range.mpr (by decide)))).1
  rw [bitmap_length] at hrow
  exact absurd hrow (by decide)

end Betawise.GlyphTable
