import Mathlib.Data.Nat.Notation
import Mathlib.Data.List.Basic

/-!
# Words in byte tables

A table is a list of words, each with a code. In memory the letters of a word have
bit 7 clear, its code ends it and has bit 7 set, and a null ends the table. A lookup
takes the first word whose letters stand next in the input; with no word in front of
one that begins with it, this is the longest.
-/
namespace Betawise.WordTable

structure Word where
  letters : List ℕ
  code : ℕ

/-- The bytes `cs` stand next in the input. -/
def Reads (peek : ℕ → ℕ) (cs : List ℕ) : Prop := ∀ i (h : i < cs.length), peek i = cs[i]

instance (peek : ℕ → ℕ) (cs : List ℕ) : Decidable (Reads peek cs) :=
  inferInstanceAs (Decidable (∀ i (h : i < cs.length), peek i = cs[i]))

def firstMatch (peek : ℕ → ℕ) : List Word → Option Word
  | [] => none
  | w::ws => if Reads peek w.letters then some w else firstMatch peek ws

def encodeWord (w : Word) : List ℕ := w.letters ++ [w.code]

def encode (ws : List Word) : List ℕ := ws.flatMap encodeWord ++ [0]

/-- What lets a scan find the ends of words and of the table. -/
structure WellFormed (w : Word) : Prop where
  letters : ∀ c ∈ w.letters, 0 < c ∧ c < 128
  code : 128 ≤ w.code

/-- No word begins with one in front of it. -/
def LongestFirst (ws : List Word) : Prop := ws.Pairwise fun v w => ¬ v.letters <+: w.letters

instance (w : Word) : Decidable (WellFormed w) :=
  decidable_of_iff ((∀ c ∈ w.letters, 0 < c ∧ c < 128) ∧ 128 ≤ w.code)
    ⟨fun h => ⟨h.1,h.2⟩,fun h => ⟨h.letters,h.code⟩⟩

instance (ws : List Word) : Decidable (LongestFirst ws) :=
  inferInstanceAs (Decidable (ws.Pairwise _))

variable {peek peek' : ℕ → ℕ} {cs ds : List ℕ} {v w : Word} {ws : List Word}

theorem reads_nil : Reads peek [] := fun _ h => absurd h (Nat.not_lt_zero _)

theorem reads_cons {c : ℕ} :
    Reads peek (c::cs) ↔ peek 0 = c ∧ Reads (fun i => peek (i + 1)) cs := by
  constructor
  · intro h
    exact ⟨h 0 (Nat.zero_lt_succ _),fun i hi => h (i + 1) (Nat.succ_lt_succ hi)⟩
  · rintro ⟨h0,h⟩ i hi
    cases i with
    | zero => exact h0
    | succ i => exact h i (Nat.lt_of_succ_lt_succ hi)

/-- Of two strings of bytes that stand next in the same input, one begins with the other. -/
theorem Reads.prefix (h : Reads peek cs) (h' : Reads peek ds) (hle : cs.length ≤ ds.length) :
    cs <+: ds := by
  induction cs generalizing peek ds with
  | nil => exact List.nil_prefix
  | cons c cs ih =>
    cases ds with
    | nil => exact absurd hle (by simp)
    | cons d ds =>
      rw [reads_cons] at h h'
      obtain rfl : c = d := h.1.symm.trans h'.1
      exact List.cons_prefix_cons.mpr ⟨rfl,ih h.2 h'.2 (Nat.le_of_succ_le_succ hle)⟩

/-- A word without nulls is read alike up to the first null. -/
theorem Reads.congr (h : Reads peek cs) (hpos : ∀ c ∈ cs, 0 < c)
    (hsame : ∀ i, (∀ j < i, peek j ≠ 0) → peek i = peek' i) : Reads peek' cs := by
  intro i hi
  rw [← hsame i fun j hj => ?_]
  · exact h i hi
  · rw [h j (Nat.lt_trans hj hi)]
    exact Nat.ne_of_gt (hpos _ (List.getElem_mem _))

theorem firstMatch_mem (h : firstMatch peek ws = some w) : w ∈ ws ∧ Reads peek w.letters := by
  induction ws with
  | nil => exact absurd h (by simp [firstMatch])
  | cons v ws ih =>
    rw [firstMatch] at h
    split at h
    · obtain rfl := Option.some.inj h
      exact ⟨List.mem_cons_self,‹_›⟩
    · exact ⟨List.mem_cons_of_mem v (ih h).1,(ih h).2⟩

theorem firstMatch_eq_none : firstMatch peek ws = none ↔ ∀ w ∈ ws, ¬ Reads peek w.letters := by
  induction ws with
  | nil => simp [firstMatch]
  | cons v ws ih =>
    rw [firstMatch, List.forall_mem_cons]
    split
    · simp [*]
    · simp [*]

/-- The word found is the longest that stands next. -/
theorem firstMatch_longest (hlong : LongestFirst ws) (h : firstMatch peek ws = some w)
    (hv : v ∈ ws) (hreads : Reads peek v.letters) : v.letters.length ≤ w.letters.length := by
  induction ws with
  | nil => exact absurd h (by simp [firstMatch])
  | cons u ws ih =>
    rw [firstMatch] at h
    obtain ⟨hu,hws⟩ := List.pairwise_cons.mp hlong
    split at h
    next hreads' =>
      obtain rfl := Option.some.inj h
      rcases List.mem_cons.mp hv with rfl | hv
      · exact Nat.le_refl _
      · refine Nat.le_of_not_lt fun hlt => hu v hv ?_
        exact hreads'.prefix hreads (Nat.le_of_lt hlt)
    next hnot =>
      rcases List.mem_cons.mp hv with rfl | hv
      · exact absurd hreads hnot
      · exact ih hws h hv

theorem firstMatch_congr (hpos : ∀ w ∈ ws, ∀ c ∈ w.letters, 0 < c)
    (hsame : ∀ i, (∀ j < i, peek j ≠ 0) → peek i = peek' i) :
    firstMatch peek ws = firstMatch peek' ws := by
  -- The first null is at the same place in both inputs.
  have hback : ∀ i, (∀ j < i, peek' j ≠ 0) → peek' i = peek i := by
    intro i
    induction i using Nat.strongRecOn with
    | ind i ih =>
      intro hi
      refine (hsame i fun j hj => ?_).symm
      rw [← ih j hj fun k hk => hi k (Nat.lt_trans hk hj)]
      exact hi j hj
  induction ws with
  | nil => rfl
  | cons w ws ih =>
    obtain ⟨hw,hws⟩ := List.forall_mem_cons.mp hpos
    have hiff : Reads peek w.letters ↔ Reads peek' w.letters :=
      ⟨fun h => h.congr hw hsame,fun h => h.congr hw hback⟩
    simp only [firstMatch, hiff, ih hws]

theorem encode_cons (w : Word) (ws : List Word) :
    encode (w::ws) = w.letters ++ w.code::encode ws := by
  simp [encode, encodeWord]

/-! ### Tables one after another -/

variable {κ : Type}

/-- The tables of all keys in memory. -/
def image (ts : List (κ × List Word)) : List ℕ := ts.flatMap fun t => encode t.2

theorem image_cons (t : κ × List Word) (ts : List (κ × List Word)) :
    image (t::ts) = encode t.2 ++ image ts := rfl

variable [DecidableEq κ]

/-- Where the table of a key starts. -/
def offset (ts : List (κ × List Word)) (k : κ) : ℕ :=
  (image (ts.takeWhile fun t => decide (t.1 ≠ k))).length

def tableOf (ts : List (κ × List Word)) (k : κ) : List Word :=
  match ts with
  | [] => []
  | t::ts => if t.1 = k then t.2 else tableOf ts k

/-- Reading from the offset of a key starts with its table. -/
theorem drop_offset {ts : List (κ × List Word)} {k : κ} (h : ∃ t ∈ ts, t.1 = k) :
    ∃ more, (image ts).drop (offset ts k) = encode (tableOf ts k) ++ more := by
  induction ts with
  | nil => simp at h
  | cons t ts ih =>
    by_cases ht : t.1 = k
    · exact ⟨image ts,by simp [offset, ht, tableOf, image]⟩
    · obtain ⟨more,hmore⟩ := ih (by simpa [ht] using h)
      refine ⟨more,?_⟩
      have hoffset : offset (t::ts) k = (encode t.2).length + offset ts k := by
        simp [offset, ht, image]
      rw [image_cons, hoffset, ← List.drop_drop, List.drop_left, hmore, tableOf, if_neg ht]

theorem tableOf_mem {ts : List (κ × List Word)} {k : κ} (h : w ∈ tableOf ts k) :
    ∃ t ∈ ts, t.1 = k ∧ w ∈ t.2 := by
  induction ts with
  | nil => exact absurd h (by simp [tableOf])
  | cons t ts ih =>
    rw [tableOf] at h
    split at h
    · exact ⟨t,List.mem_cons_self,‹_›,h⟩
    · obtain ⟨t',ht',hk⟩ := ih h
      exact ⟨t',List.mem_cons_of_mem t ht',hk⟩

end Betawise.WordTable
