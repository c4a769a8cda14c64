import Mathlib.Data.Nat.Notation
import Mathlib.Logic.Function.Basic
import Mathlib.Tactic.SplitIfs

/-!
# A byte RAM that records its writes

Addresses and bytes are natural numbers, and `written` lists the addresses of all
stores so far. Block moves go word by word, upwards or downwards; each is given by
the bytes that stood in the source before the move, which is what the direction
of the loop is chosen for.
-/
namespace Betawise.LoggedRam

structure Ram where
  byte : ℕ → ℕ
  written : List ℕ

def poke (a b : ℕ) (r : Ram) : Ram := ⟨Function.update r.byte a b,a::r.written⟩

/-- A big-endian long word. -/
def read32 (byte : ℕ → ℕ) (a : ℕ) : ℕ :=
  ((byte a * 256 + byte (a + 1)) * 256 + byte (a + 2)) * 256 + byte (a + 3)

/-- The bytes of a long word. -/
def bytes32 (v : ℕ) : List ℕ := [v / 16777216 % 256,v / 65536 % 256,v / 256 % 256,v % 256]

/-- Bytes at consecutive addresses, the first stored last. -/
def pokeBytes : ℕ → List ℕ → Ram → Ram
  | _,[],r => r
  | a,b::bs,r => poke a b (pokeBytes (a + 1) bs r)

def poke32 (a v : ℕ) (r : Ram) : Ram := pokeBytes a (bytes32 v) r

/-- One word moved; both bytes are read before the first is stored. -/
def copyWord (src dst : ℕ) (r : Ram) : Ram :=
  poke (dst + 1) (r.byte (src + 1)) (poke dst (r.byte src) r)

/-- `n` words with post-increment. -/
def copyUp : ℕ → ℕ → ℕ → Ram → Ram
  | 0,_,_,r => r
  | n + 1,src,dst,r => copyUp n (src + 2) (dst + 2) (copyWord src dst r)

/-- `n` words with pre-decrement, from the ends of source and destination. -/
def copyDown : ℕ → ℕ → ℕ → Ram → Ram
  | 0,_,_,r => r
  | n + 1,src,dst,r => copyDown n (src - 2) (dst - 2) (copyWord (src - 2) (dst - 2) r)

/-- Everything stored between two states lies in `lo` up to `hi`. -/
structure Within (lo hi : ℕ) (r r' : Ram) : Prop where
  frame : ∀ x, ¬ (lo ≤ x ∧ x < hi) → r'.byte x = r.byte x
  keep : ∀ x ∈ r.written, x ∈ r'.written
  log : ∀ x ∈ r'.written, x ∈ r.written ∨ lo ≤ x ∧ x < hi

variable {r r' r'' : Ram} {lo hi lo' hi' : ℕ}

theorem Within.refl (lo hi : ℕ) (r : Ram) : Within lo hi r r :=
  ⟨fun _ _ => rfl,fun _ h => h,fun _ h => Or.inl h⟩

theorem Within.trans (h : Within lo hi r r') (h' : Within lo hi r' r'') : Within lo hi r r'' where
  frame := fun x hx => (h'.frame x hx).trans (h.frame x hx)
  keep := fun x hx => h'.keep x (h.keep x hx)
  log := fun x hx => by
    rcases h'.log x hx with hx | hx
    · exact h.log x hx
    · exact Or.inr hx

theorem Within.mono (h : Within lo hi r r') (hlo : lo' ≤ lo) (hhi : hi ≤ hi') :
    Within lo' hi' r r' where
  frame := fun x hx => h.frame x (fun hin => hx (by omega))
  keep := h.keep
  log := fun x hx => (h.log x hx).imp_right (by omega)

theorem within_poke (a b : ℕ) (r : Ram) : Within a (a + 1) r (poke a b r) where
  frame := fun x hx => Function.update_of_ne (by omega) _ _
  keep := fun x hx => List.mem_cons_of_mem a hx
  log := fun x hx => by
    rcases List.mem_cons.mp hx with rfl | hx
    · exact Or.inr (by omega)
    · exact Or.inl hx

/-! ### Lists of bytes in memory -/

/-- The bytes `bs` stand at `a` and on. -/
def BytesAt (byte : ℕ → ℕ) (a : ℕ) (bs : List ℕ) : Prop :=
  ∀ i (h : i < bs.length), byte (a + i) = bs[i]

theorem bytesAt_append {byte : ℕ → ℕ} {a : ℕ} {bs cs : List ℕ} :
    BytesAt byte a (bs ++ cs) ↔ BytesAt byte a bs ∧ BytesAt byte (a + bs.length) cs := by
  constructor
  · intro h
    refine ⟨fun i hi => ?_,fun i hi => ?_⟩
    · rw [h i (by rw [List.length_append]; omega), List.getElem_append_left hi]
    · have := h (bs.length + i) (by rw [List.length_append]; omega)
      rw [List.getElem_append_right (by omega)] at this
      simpa [Nat.add_assoc] using this
  · rintro ⟨hb,hc⟩ i hi
    by_cases hlt : i < bs.length
    · rw [hb i hlt, List.getElem_append_left hlt]
    · have := hc (i - bs.length) (by rw [List.length_append] at hi; omega)
      rw [List.getElem_append_right (by omega), ← this]
      congr 1
      omega

theorem BytesAt.congr {byte byte' : ℕ → ℕ} {a a' : ℕ} {bs : List ℕ} (h : BytesAt byte a bs)
    (hsame : ∀ i < bs.length, byte' (a' + i) = byte (a + i)) : BytesAt byte' a' bs :=
  fun i hi => (hsame i hi).trans (h i hi)

theorem read32_congr {byte byte' : ℕ → ℕ} {a a' : ℕ}
    (hsame : ∀ i < 4, byte' (a' + i) = byte (a + i)) : read32 byte' a' = read32 byte a := by
  have h0 := hsame 0 (by decide)
  simp only [Nat.add_zero] at h0
  simp only [read32, h0, hsame 1 (by decide), hsame 2 (by decide), hsame 3 (by decide)]

theorem BytesAt.read32 {byte : ℕ → ℕ} {a v : ℕ} (h : BytesAt byte a (bytes32 v))
    (hv : v < 4294967296) : read32 byte a = v := by
  have h0 := h 0 (by simp [bytes32])
  have h1 := h 1 (by simp [bytes32])
  have h2 := h 2 (by simp [bytes32])
  have h3 := h 3 (by simp [bytes32])
  simp only [bytes32, Nat.add_zero, List.getElem_cons_zero, List.getElem_cons_succ] at h0 h1 h2 h3
  simp only [LoggedRam.read32, h0, h1, h2, h3]
  omega

/-! ### What a block of stores leaves alone -/

theorem Within.read32 (h : Within lo hi r r') {a : ℕ} (hout : a + 4 ≤ lo ∨ hi ≤ a) :
    LoggedRam.read32 r'.byte a = LoggedRam.read32 r.byte a :=
  read32_congr fun i hi => h.frame (a + i) (by omega)

theorem Within.bytesAt (h : Within lo hi r r') {a : ℕ} {bs : List ℕ} (hb : BytesAt r.byte a bs)
    (hout : a + bs.length ≤ lo ∨ hi ≤ a) : BytesAt r'.byte a bs :=
  hb.congr fun i hi => h.frame (a + i) (by omega)

/-! ### Stores -/

theorem within_pokeBytes (a : ℕ) (bs : List ℕ) (r : Ram) :
    Within a (a + bs.length) r (pokeBytes a bs r) := by
  induction bs generalizing a r with
  | nil => exact Within.refl _ _ r
  | cons b bs ih =>
    have hrest : Within a (a + (b::bs).length) _ _ :=
      (ih (a + 1) r).mono (Nat.le_succ a) (by simp; omega)
    exact hrest.trans ((within_poke a b _).mono (Nat.le_refl a) (by simp))

theorem bytesAt_pokeBytes (a : ℕ) (bs : List ℕ) (r : Ram) :
    BytesAt (pokeBytes a bs r).byte a bs := by
  induction bs generalizing a r with
  | nil => exact fun i hi => absurd hi (Nat.not_lt_zero i)
  | cons b bs ih =>
    intro i hi
    cases i with
    | zero => exact Function.update_self ..
    | succ i =>
      have hi' : i < bs.length := Nat.lt_of_succ_lt_succ hi
      have hrest := ih (a + 1) r i hi'
      have hne : a + (i + 1) ≠ a := by omega
      change Function.update (pokeBytes (a + 1) bs r).byte a b (a + (i + 1)) = bs[i]
      rw [Function.update_of_ne hne, ← hrest]
      congr 1
      omega

/-- Every byte of the list is recorded. -/
theorem mem_written_pokeBytes (a : ℕ) (bs : List ℕ) (r : Ram) {i : ℕ} (hi : i < bs.length) :
    a + i ∈ (pokeBytes a bs r).written := by
  induction bs generalizing a r i with
  | nil => exact absurd hi (Nat.not_lt_zero i)
  | cons b bs ih =>
    cases i with
    | zero => exact List.mem_cons_self
    | succ i =>
      have hrest := ih (a + 1) r (i := i) (by simpa using hi)
      rw [show a + (i + 1) = a + 1 + i by omega]
      exact List.mem_cons_of_mem _ hrest

/-- Nothing but the bytes `bs` at `a` has been stored. -/
structure Stored (a : ℕ) (bs : List ℕ) (r r' : Ram) : Prop where
  bytes : BytesAt r'.byte a bs
  within : Within a (a + bs.length) r r'

theorem Stored.nil (a : ℕ) (r : Ram) : Stored a [] r r where
  bytes := fun _ h => absurd h (Nat.not_lt_zero _)
  within := Within.refl _ _ r

/-- Bytes stored right behind others extend them. -/
theorem Stored.append {a : ℕ} {bs : List ℕ} (h : Stored a bs r r') (cs : List ℕ) :
    Stored a (bs ++ cs) r (pokeBytes (a + bs.length) cs r') where
  bytes := bytesAt_append.mpr
    ⟨(within_pokeBytes _ cs r').bytesAt h.bytes (Or.inl (Nat.le_refl _)),
      bytesAt_pokeBytes _ cs r'⟩
  within := (h.within.mono (Nat.le_refl a) (by rw [List.length_append]; omega)).trans
    ((within_pokeBytes _ cs r').mono (Nat.le_add_right _ _)
      (by rw [List.length_append]; omega))

theorem Stored.snoc {a : ℕ} {bs : List ℕ} (h : Stored a bs r r') (b : ℕ) :
    Stored a (bs ++ [b]) r (poke (a + bs.length) b r') :=
  h.append [b]

theorem within_poke32 (a v : ℕ) (r : Ram) : Within a (a + 4) r (poke32 a v r) :=
  within_pokeBytes a (bytes32 v) r

theorem read32_poke32 (a : ℕ) {v : ℕ} (hv : v < 4294967296) (r : Ram) :
    read32 (poke32 a v r).byte a = v :=
  (bytesAt_pokeBytes a (bytes32 v) r).read32 hv

/-! ### Block moves -/

theorem copyWord_byte (src dst : ℕ) (r : Ram) (x : ℕ) :
    (copyWord src dst r).byte x =
      if x = dst + 1 then r.byte (src + 1) else if x = dst then r.byte src else r.byte x := by
  simp only [copyWord, poke, Function.update_apply]

theorem within_copyWord (src dst : ℕ) (r : Ram) :
    Within dst (dst + 2) r (copyWord src dst r) :=
  ((within_poke dst _ r).mono (Nat.le_refl dst) (Nat.le_succ _)).trans
    ((within_poke (dst + 1) _ _).mono (Nat.le_succ dst) (Nat.le_refl _))

/-- A move upwards through memory to a lower place. -/
theorem copyUp_byte (n src dst : ℕ) (hle : dst ≤ src) (r : Ram) (x : ℕ) :
    (copyUp n src dst r).byte x =
      if dst ≤ x ∧ x < dst + 2 * n then r.byte (src + (x - dst)) else r.byte x := by
  induction n generalizing src dst r with
  | zero => rw [copyUp, if_neg (by omega)]
  | succ n ih =>
    rw [copyUp, ih (src + 2) (dst + 2) (by omega)]
    simp only [copyWord_byte]
    by_cases hlow : x = dst
    · subst hlow
      rw [if_neg (by omega), if_neg (by omega), if_pos rfl, if_pos (by omega), Nat.sub_self,
        Nat.add_zero]
    · by_cases hhigh : x = dst + 1
      · subst hhigh
        rw [if_neg (by omega), if_pos rfl, if_pos (by omega), Nat.add_sub_cancel_left]
      · rw [if_neg hhigh, if_neg hlow]
        by_cases hin : dst + 2 ≤ x ∧ x < dst + 2 + 2 * n
        · rw [if_pos hin, if_neg (by omega), if_neg (by omega), if_pos (by omega)]
          congr 1
          omega
        · rw [if_neg hin, if_neg (by omega)]

theorem within_copyUp (n src dst : ℕ) (r : Ram) :
    Within dst (dst + 2 * n) r (copyUp n src dst r) := by
  induction n generalizing src dst r with
  | zero => exact Within.refl _ _ r
  | succ n ih =>
    exact ((within_copyWord src dst r).mono (Nat.le_refl dst) (by omega)).trans
      ((ih (src + 2) (dst + 2) _).mono (by omega) (by omega))

/-- A move downwards through memory to a higher place. -/
theorem copyDown_byte (n src dst : ℕ) (hle : src ≤ dst) (hn : 2 * n ≤ src) (r : Ram) (x : ℕ) :
    (copyDown n src dst r).byte x =
      if dst - 2 * n ≤ x ∧ x < dst then r.byte (x - (dst - src)) else r.byte x := by
  induction n generalizing src dst r with
  | zero => rw [copyDown, if_neg (by omega)]
  | succ n ih =>
    rw [copyDown, ih (src - 2) (dst - 2) (by omega) (by omega)]
    simp only [copyWord_byte]
    by_cases hlow : x = dst - 2
    · subst hlow
      rw [if_neg (by omega), if_neg (by omega), if_pos rfl, if_pos (by omega)]
      congr 1
      omega
    · by_cases hhigh : x = dst - 2 + 1
      · subst hhigh
        rw [if_neg (by omega), if_pos rfl, if_pos (by omega)]
        congr 1
        omega
      · rw [if_neg hhigh, if_neg hlow]
        by_cases hin : dst - 2 - 2 * n ≤ x ∧ x < dst - 2
        · rw [if_pos hin, if_neg (by omega), if_neg (by omega), if_pos (by omega)]
          congr 1
          omega
        · rw [if_neg hin, if_neg (by omega)]

/-- Bytes that are moved up in whole words. -/
theorem bytesAt_copyDown {a : ℕ} {bs : List ℕ} (h : BytesAt r.byte a bs)
    (heven : bs.length % 2 = 0) (d : ℕ) :
    BytesAt (copyDown (bs.length / 2) (a + bs.length) (a + bs.length + d) r).byte (a + d) bs := by
  refine h.congr fun i hi => ?_
  rw [copyDown_byte _ _ _ (Nat.le_add_right _ _) (by omega), if_pos (by omega)]
  congr 1
  omega

theorem within_copyDown (n src dst : ℕ) (hn : 2 * n ≤ dst) (r : Ram) :
    Within (dst - 2 * n) dst r (copyDown n src dst r) := by
  induction n generalizing src dst r with
  | zero => exact Within.refl _ _ r
  | succ n ih =>
    exact ((within_copyWord (src - 2) (dst - 2) r).mono (by omega) (by omega)).trans
      ((ih (src - 2) (dst - 2) (by omega) _).mono (by omega) (by omega))

/-- The last byte of the destination is recorded. -/
theorem mem_written_copyDown {n : ℕ} (hpos : 0 < n) (src : ℕ) {dst : ℕ} (hn : 2 * n ≤ dst)
    (r : Ram) : dst - 1 ∈ (copyDown n src dst r).written := by
  cases n with
  | zero => exact absurd hpos (Nat.lt_irrefl 0)
  | succ n =>
    have hfirst : dst - 1 ∈ (copyWord (src - 2) (dst - 2) r).written := by
      rw [show dst - 1 = dst - 2 + 1 by omega]
      exact List.mem_cons_self
    exact (within_copyDown n (src - 2) (dst - 2) (by omega) _).keep _ hfirst

end Betawise.LoggedRam
