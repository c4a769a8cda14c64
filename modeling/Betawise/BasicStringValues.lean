import Betawise.BasicStringMachine

/-!
# The values of string expressions

An expression has a value that depends on the text of the program and on the strings of
the variables. The interpreter finds it, or reports an error, and changes no variable.
-/
namespace Betawise.BasicStringValues
open LoggedRam BasicVariables BasicArrays BasicStringHeap BasicRoots BasicStrings
open BasicStringMachine FallibleState

/-- The string at a place, if there is one. -/
def readString (p : Place) (b : Store) : Option (List ℕ) :=
  match findPlace p b with
  | some (.ok a,_) => some (content b a)
  | _ => none

/-- The value of an expression; there is none if a variable does not exist, if a part
starts at 0 or if a string would be too long. -/
def value (text : ℕ → ℕ) (strings : Place → Option (List ℕ)) : Expr → Option (List ℕ)
  | .literal a n => some (bytesFrom text a n)
  | .direct a n => some (bytesFrom text a n)
  | .chr c => some [c]
  | .place p => strings p
  | .part q e =>
    match value text strings e with
    | none => none
    | some v => (q.window v.length).map fun w => (v.drop w.1).take w.2
  | .concatenate e e' =>
    match value text strings e,value text strings e' with
    | some v,some v' => if 65536 ≤ v.length + v'.length then none else some (v ++ v')
    | _,_ => none

/-- Literals are in the program or the input buffer, and places hold strings. -/
def Legal (b : Store) : Expr → Prop
  | .literal a n => InText b a n ∧ n < 65536
  | .direct a n => InText b a n ∧ n < 65536
  | .chr _ => True
  | .place p => StringPlace p
  | .part _ e => Legal b e
  | .concatenate e e' => Legal b e ∧ Legal b e'

instance Legal.decidable (b : Store) : (e : Expr) → Decidable (Legal b e)
  | .literal _ _ => inferInstanceAs (Decidable (_ ∧ _))
  | .direct _ _ => inferInstanceAs (Decidable (_ ∧ _))
  | .chr _ => isTrue trivial
  | .place p => inferInstanceAs (Decidable (StringPlace p))
  | .part _ e => Legal.decidable b e
  | .concatenate e e' =>
    have := Legal.decidable b e
    have := Legal.decidable b e'
    inferInstanceAs (Decidable (Legal b e ∧ Legal b e'))

/-- There is room for the part. A part that is the null string points into its source. -/
def PartSpare (q : Part) (d : ℕ) (b : Store) : Prop :=
  (∀ o l, q.window (content b d).length = some (o,l) → 0 < l → Roomy l b) ∧
    ∀ o, q.window (content b d).length = some (o,0) → read32 b.ram.byte d + o ≤ b.earryl

instance (q : Part) (d : ℕ) (b : Store) : Decidable (PartSpare q d b) :=
  match hw : q.window (content b d).length with
  | none => isTrue ⟨fun o l h => by simp [hw] at h,fun o h => by simp [hw] at h⟩
  | some (o,l) =>
    decidable_of_iff ((0 < l → Roomy l b) ∧ (l = 0 → read32 b.ram.byte d + o ≤ b.earryl)) (by
      simp only [PartSpare, hw, Option.some.injEq, Prod.mk.injEq]
      constructor
      · rintro ⟨hpos,hzero⟩
        exact ⟨fun _ _ ⟨_,hl⟩ h => hl ▸ hpos (hl ▸ h),fun _ ⟨ho,hl⟩ => ho ▸ hzero hl⟩
      · rintro ⟨hpos,hzero⟩
        exact ⟨hpos o l ⟨rfl,rfl⟩,fun hl => hzero o ⟨rfl,hl⟩⟩)

def ConcatenateSpare (d d' : ℕ) (b : Store) : Prop :=
  0 < (content b d ++ content b d').length → Roomy (content b d ++ content b d').length b

instance (d d' : ℕ) (b : Store) : Decidable (ConcatenateSpare d d' b) :=
  inferInstanceAs (Decidable (_ → _))

/-- No step of the evaluation takes the last byte of the memory, or makes a null string out
of one in the heap. -/
def Spare : Expr → Store → Prop
  | .literal _ _,_ => True
  | .direct _ n,b => 0 < n → Roomy n b
  | .chr _,b => Roomy 1 b
  | .place _,_ => True
  | .part q e,b => Spare e b ∧ Whenever (eval e b) (PartSpare q)
  | .concatenate e e',b =>
    Spare e b ∧ Whenever (eval e b) fun d b₁ =>
      Spare e' b₁ ∧ Whenever (eval e' b₁) (ConcatenateSpare d)

instance Spare.decidable : (e : Expr) → (b : Store) → Decidable (Spare e b)
  | .literal _ _,_ => isTrue trivial
  | .direct _ _,_ => inferInstanceAs (Decidable (_ → _))
  | .chr _,_ => inferInstanceAs (Decidable (Roomy _ _))
  | .place _,_ => isTrue trivial
  | .part q e,b =>
    have := Spare.decidable e b
    inferInstanceAs (Decidable (Spare e b ∧ Whenever (eval e b) (PartSpare q)))
  | .concatenate e e',b =>
    have := Spare.decidable e b
    have := Spare.decidable e'
    inferInstanceAs (Decidable (Spare e b ∧ Whenever (eval e b) fun d b₁ =>
      Spare e' b₁ ∧ Whenever (eval e' b₁) (ConcatenateSpare d)))

variable {b b' b'' : Store} {k n n' : ℕ} {xs : List ArrayShape} {e : Expr}

theorem readString_frame {p : Place} (hp : StringPlace p) (h : Machine b k xs n)
    (h' : Machine b' k xs n') (hf : Frame b k xs 0 b') : readString p b' = readString p b := by
  obtain ⟨r,hfind,hfind',hslot⟩ := findPlace_frame hp h h' hf
  rw [readString, readString, hfind, hfind']
  cases r with
  | error e => rfl
  | ok a => exact congrArg some (hf.slot a (hslot a rfl))

/-- The text in front of the variables is the same. -/
structure SameText (b b' : Store) : Prop where
  desSk : b'.desSk = b.desSk
  sfncl : b'.sfncl = b.sfncl
  byte : ∀ x, b.desSk ≤ x → x < b.sfncl → b'.ram.byte x = b.ram.byte x

theorem SameText.trans {b'' : Store} (h : SameText b b') (h' : SameText b' b'') :
    SameText b b'' where
  desSk := h'.desSk.trans h.desSk
  sfncl := h'.sfncl.trans h.sfncl
  byte x hlo hhi := (h'.byte x (h.desSk ▸ hlo) (h.sfncl ▸ hhi)).trans (h.byte x hlo hhi)

theorem SameText.symm (h : SameText b b') : SameText b' b where
  desSk := h.desSk.symm
  sfncl := h.sfncl.symm
  byte x hlo hhi := (h.byte x (h.desSk ▸ hlo) (h.sfncl ▸ hhi)).symm

theorem SameText.string (ht : SameText b b') {a l : ℕ} (hin : InText b a l) :
    bytesFrom b'.ram.byte a l = bytesFrom b.ram.byte a l := by
  obtain ⟨hlo,hhi⟩ := hin
  exact bytesFrom_congr fun i hi => ht.byte _ (by omega) (by omega)

theorem sameText_frame (h : Machine b k xs n) (hf : Frame b k xs n' b') : SameText b b' where
  desSk := hf.desSk
  sfncl := (congrArg Store.sfncl hf.same :)
  byte x hlo hhi := by
    have hle := h.sfncl_le
    have hle' := h.sarryl_le
    refine hf.bytes x hlo (by omega) fun r hr => ?_
    have := h.mem_slots hr
    omega

theorem Legal.congr (hlegal : Legal b e) (ht : SameText b b') : Legal b' e := by
  induction e with
  | literal a l => exact ⟨by rw [InText, ht.desSk, ht.sfncl]; exact hlegal.1,hlegal.2⟩
  | direct a l => exact ⟨by rw [InText, ht.desSk, ht.sfncl]; exact hlegal.1,hlegal.2⟩
  | chr c => trivial
  | place p => exact hlegal
  | part q e ih => exact ih hlegal
  | concatenate e e' ih ih' => exact ⟨ih hlegal.1,ih' hlegal.2⟩

theorem value_congr {f g : Place → Option (List ℕ)} (ht : SameText b b') (hlegal : Legal b e)
    (hsame : ∀ q, StringPlace q → f q = g q) :
    value b'.ram.byte f e = value b.ram.byte g e := by
  induction e with
  | literal a l => exact congrArg some (ht.string hlegal.1)
  | direct a l => exact congrArg some (ht.string hlegal.1)
  | chr c => rfl
  | place p => exact hsame p hlegal
  | part q e ih => simp only [value, ih hlegal]
  | concatenate e e' ih ih' => simp only [value, ih hlegal.1, ih' hlegal.2]

theorem value_frame (hlegal : Legal b e) (h : Machine b k xs n) (h' : Machine b' k xs n')
    (hf : Frame b k xs 0 b') :
    value b'.ram.byte (fun p => readString p b') e =
      value b.ram.byte (fun p => readString p b) e :=
  value_congr (sameText_frame h hf) hlegal fun _ hp => readString_frame hp h h' hf

theorem At.frame {d : ℕ} {n'' : ℕ} (hd : At b' k xs n d n') (hf : Frame b k xs n'' b') :
    At b k xs n d n' := by
  rwa [At, ← hf.slots, ← hf.desSk]

theorem Failed.of_frame (h : Failed b' k xs b'') (hf : Frame b k xs n b') : Failed b k xs b'' := by
  obtain ⟨n',hmachine,hframe⟩ := h
  exact ⟨n',hmachine,(hf.mono (Nat.zero_le n)).trans hframe⟩

/-- Evaluation ends, whether or not garbage is collected on the way: with a descriptor of the
value, or with an error. -/
theorem eval_spec (e : Expr) (h : Machine b k xs n) (hlegal : Legal b e) (hspare : Spare e b) :
    Yields (eval e b)
      (fun d b' => ∃ v, value b.ram.byte (fun p => readString p b) e = some v ∧
        Result b k xs n v d b')
      (Failed b k xs) := by
  induction e generalizing b n with
  | literal a l =>
    obtain ⟨htext,hlt⟩ := hlegal
    have hlow : a < 4294967296 := by
      have := h.sfncl_le
      have := h.sarryl_le
      have := h.bottom
      have := h.top
      have := h.ememl_lt
      have := htext.2
      omega
    refine (pushString_spec h ⟨hlt,hlow,Or.inr (Or.inl htext)⟩).mono ?_ ?_
    · rintro d b' ⟨hd,hmachine,hframe,hcontent⟩
      exact ⟨_,rfl,n + 1,hmachine,hframe,Or.inr ⟨hd,rfl⟩,hcontent⟩
    · rintro b' rfl
      exact h.failed (Frame.refl b' k xs n)
  | direct a l =>
    obtain ⟨htext,hlt⟩ := hlegal
    have hnull : l = 0 → bytesFrom b.ram.byte a l = [] := fun hzero => by
      rw [hzero]
      rfl
    refine (copyString_spec (a := a) h hlt hspare hnull ?_).mono ?_ fun _ hb => hb
    · rcases Nat.eq_zero_or_pos l with rfl | hpos
      · exact ⟨rfl,Or.inl (by
          have := htext.2
          have := h.sfncl_le
          have := h.sarryl_le
          have := h.bottom
          omega)⟩
      · have hallocate := allocate_spec h hpos (hspare hpos)
        cases ho : allocate l b with
        | none => trivial
        | some o =>
          obtain ⟨r,b'⟩ := o
          cases r with
          | error e => trivial
          | ok p =>
            rw [ho] at hallocate
            obtain ⟨-,hmachine,hframe,-⟩ := hallocate
            refine ⟨(sameText_frame h hframe).string htext,Or.inl ?_⟩
            have := htext.2
            have := h.sfncl_le
            have := h.sarryl_le
            have := hmachine.bottom
            have := hframe.earryl
            omega
    · rintro d b' ⟨hd,hmachine,hframe,hcontent⟩
      exact ⟨_,rfl,n + 1,hmachine,hframe,Or.inr ⟨hd,rfl⟩,hcontent⟩
  | chr c =>
    refine (chrs_spec h c hspare).mono ?_ fun _ hb => hb
    rintro d b' ⟨hd,hmachine,hframe,hcontent⟩
    exact ⟨_,rfl,n + 1,hmachine,hframe,Or.inr ⟨hd,rfl⟩,hcontent⟩
  | place p =>
    obtain ⟨r,hfind,-,hslot⟩ := findPlace_frame hlegal h h (Frame.refl b k xs 0)
    show Yields (findPlace p b) _ _
    rw [hfind]
    cases r with
    | error e => exact h.failed (Frame.refl b k xs n)
    | ok a =>
      have hread : readString p b = some (content b a) := by rw [readString, hfind]
      exact ⟨content b a,hread,n,h,Frame.refl b k xs n,Or.inl ⟨hslot a rfl,rfl⟩,rfl⟩
  | part q e ih =>
    refine ((ih h hlegal hspare.1).and_whenever hspare.2).andThen ?_
    rintro d b₁ ⟨⟨v,hv,n₁,hmachine,hframe,hd,hcontent⟩,hroomy,hnull⟩
    refine (part_spec hmachine (hframe.at_ hd) q hroomy hnull).mono ?_
      fun b₂ hb => Failed.of_frame hb hframe
    rintro d' b₂ ⟨o,l,hwindow,n₂,hmachine₂,hframe₂,hd₂,hcontent₂⟩
    rw [hcontent] at hwindow hcontent₂
    exact ⟨_,by rw [value, hv]; simp only [hwindow, Option.map_some],n₂,hmachine₂,
      hframe.trans hframe₂,At.frame hd₂ hframe,hcontent₂⟩
  | concatenate e e' ih ih' =>
    refine ((ih h hlegal.1 hspare.1).and_whenever hspare.2).andThen ?_
    rintro d b₁ ⟨⟨v,hv,n₁,hmachine₁,hframe₁,hd,hcontent⟩,hspare₁⟩
    have hvalue := value_frame hlegal.2 h hmachine₁ (hframe₁.mono (Nat.zero_le n))
    refine (((ih' hmachine₁ (hlegal.2.congr (sameText_frame h hframe₁)) hspare₁.1).mono
      (fun _ _ hp => hp) fun b₂ hb => Failed.of_frame hb hframe₁).and_whenever
        hspare₁.2).andThen ?_
    rintro d' b₂ ⟨⟨v',hv',n₂,hmachine₂,hframe₂,hd',hcontent'⟩,hroomy⟩
    have hd₁ := hframe₁.at_ hd
    have hcontent₂ : content b₂ d = v := (hframe₂.at_content hd₁).trans hcontent
    have hframe := hframe₁.trans (hframe₂.mono hd.le)
    refine (concatenate_spec hmachine₂ (hframe₂.at_ hd₁) (hframe₂.at_ hd') hroomy).mono ?_
      fun b₃ hb => Failed.of_frame hb hframe
    rw [hcontent₂, hcontent']
    rintro d'' b₃ ⟨n₃,hmachine₃,hframe₃,hd₃,hcontent₃⟩
    have hshort : v.length + v'.length < 65536 := by
      rw [← List.length_append, ← hcontent₃, length_content]
      exact (hmachine₃.valid d'' ((hframe₃.at_ hd₃).mem hmachine₃ (Nat.le_refl _))).length_lt
    rw [hvalue] at hv'
    exact ⟨v ++ v',by simp only [value, hv, hv']; exact if_neg (by omega),n₃,hmachine₃,
      hframe.trans hframe₃,At.frame hd₃ hframe,hcontent₃⟩

end Betawise.BasicStringValues
