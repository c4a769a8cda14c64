import Betawise.Os3kState
import Mathlib.Tactic.SplitIfs

/-!
# The FileSetFolder probe

The firmware keeps one current folder. `FileSetFolder` selects another and
returns the previous one, or refuses and changes nothing. The probe selects the
folders of two stock applets, asks for two that must be refused, restores the
folder after each case and counts what went otherwise. Its verdict is exact: no
failure is counted precisely on the tables it is meant to accept, and then the
folder is the one it started from.
-/
namespace Betawise.FolderProbe
open Os3kState

/-! ### The firmware's side -/

/-- A runtime applet slot: its ID word, its header flags and its file group. -/
structure Slot where
  appletId : ℕ
  flags : BitVec 32
  fileCount : ℕ

abbrev AppletTable := ℕ → Slot

/-- The selected folder, and whether a file descriptor is active. -/
structure Folders where
  currentFolder : ℕ
  fileActive : Bool

structure FolderCall where
  result : ℤ
  appletFlagsOut : Option (BitVec 32)
  folders : Folders

/-- The mechanical contract. `out` is what the second argument points to, if it is
not NULL. -/
def fileSetFolder (table : AppletTable) (appletIndex : ℕ) (out : Option (BitVec 32))
    (s : Folders) : FolderCall :=
  let cleared := out.map fun _ => 0
  if appletIndex ≥ 32 then ⟨-64,cleared,s⟩
  else if (table appletIndex).appletId = 0xFFFF then ⟨-64,cleared,s⟩
  else if (table appletIndex).flags &&& 0x40 = 0 ∧ (table appletIndex).fileCount = 0 then
    ⟨-7,cleared,s⟩
  else ⟨s.currentFolder,out.map fun _ => (table appletIndex).flags,⟨appletIndex,false⟩⟩

/-! ### The probe -/

/-- What one case leaves in `g_results`. -/
structure CaseRecord where
  result : ℤ
  restoreResult : ℤ
  flags : BitVec 32

structure Tally where
  checks : ℕ
  failures : ℕ

structure ProbeResults where
  alphaWordIndex : ℕ
  alphaQuizIndex : ℕ
  calculatorIndex : ℕ
  missingMask : ℕ
  alphaWord : CaseRecord
  alphaQuiz : CaseRecord
  noFiles : CaseRecord
  invalid : CaseRecord
  tally : Tally

structure Probe where
  results : ProbeResults
  folders : Folders

def check (condition : Bool) (t : Tally) : Tally :=
  ⟨u16 (t.checks + 1),if condition then t.failures else u16 (t.failures + 1)⟩

def resetResults : ProbeResults :=
  let unset : CaseRecord := ⟨-999,-999,0⟩
  ⟨0,0,0,0,unset,unset,unset,unset,⟨0,0⟩⟩

/-- What a case hands on: its record, the counters and the folder. -/
structure CaseEnd where
  record : CaseRecord
  tally : Tally
  folders : Folders

/-- The cases that expect success: select, look at the flags, restore. -/
def selectCase (table : AppletTable) (index : ℕ) (flagsOk : BitVec 32 → Bool)
    (record : CaseRecord) (tally : Tally) (s : Folders) : CaseEnd :=
  let call := fileSetFolder table index (some 0xDEADBEEF) s
  let record := { record with
    flags := call.appletFlagsOut.getD 0xDEADBEEF
    result := call.result }
  let tally := check (flagsOk record.flags) (check (call.result ≥ 0) tally)
  if call.result ≥ 0 then
    let restore := fileSetFolder table (u32 call.result) none call.folders
    ⟨{ record with restoreResult := restore.result },check (restore.result = index) tally,
      restore.folders⟩
  else ⟨record,tally,call.folders⟩

/-- The cases that expect a refusal: select an anchor, try, restore. -/
def refusalCase (table : AppletTable) (anchor index : ℕ) (expected : ℤ) (record : CaseRecord)
    (tally : Tally) (s : Folders) : CaseEnd :=
  let original := fileSetFolder table anchor none s
  let tally := check (original.result ≥ 0) tally
  if original.result < 0 then ⟨record,tally,original.folders⟩
  else
    let call := fileSetFolder table index (some 0xDEADBEEF) original.folders
    let record := { record with
      flags := call.appletFlagsOut.getD 0xDEADBEEF
      result := call.result }
    let tally := check (record.flags = 0) (check (call.result = expected) tally)
    let restore := fileSetFolder table (u32 original.result) none call.folders
    ⟨{ record with restoreResult := restore.result },check (restore.result = anchor) tally,
      restore.folders⟩

def runAlphaWordCase (table : AppletTable) (p : Probe) : Probe :=
  let e := selectCase table p.results.alphaWordIndex (fun flags => flags &&& 0x40 ≠ 0)
    p.results.alphaWord p.results.tally p.folders
  ⟨{ p.results with alphaWord := e.record, tally := e.tally },e.folders⟩

def runAlphaQuizCase (table : AppletTable) (p : Probe) : Probe :=
  let e := selectCase table p.results.alphaQuizIndex (fun flags => flags &&& 0x40 = 0)
    p.results.alphaQuiz p.results.tally p.folders
  ⟨{ p.results with alphaQuiz := e.record, tally := e.tally },e.folders⟩

def runNoFileNamespaceCase (table : AppletTable) (p : Probe) : Probe :=
  let e := refusalCase table p.results.alphaQuizIndex p.results.calculatorIndex (-7)
    p.results.noFiles p.results.tally p.folders
  ⟨{ p.results with noFiles := e.record, tally := e.tally },e.folders⟩

def runInvalidIndexCase (table : AppletTable) (p : Probe) : Probe :=
  let e := refusalCase table p.results.alphaQuizIndex 32 (-64) p.results.invalid
    p.results.tally p.folders
  ⟨{ p.results with invalid := e.record, tally := e.tally },e.folders⟩

/-- `run_probe`; the indices are stored as bytes. -/
def runProbe (appletFindById : ℕ → ℕ) (table : AppletTable) (p : Probe) : Probe :=
  let r := { resetResults with
    alphaWordIndex := u8 (appletFindById 0xA000)
    alphaQuizIndex := u8 (appletFindById 0xA001)
    calculatorIndex := u8 (appletFindById 0xA002) }
  let missing (index mask : ℕ) : ℕ := if index = 0 then mask else 0
  let r := { r with
    missingMask := missing r.alphaWordIndex 1 ||| missing r.alphaQuizIndex 2 |||
      missing r.calculatorIndex 4 }
  if r.missingMask = 0 then
    runInvalidIndexCase table (runNoFileNamespaceCase table
      (runAlphaQuizCase table (runAlphaWordCase table ⟨r,p.folders⟩)))
  else ⟨r,p.folders⟩

/-! ### What the contract does -/

def InUse (table : AppletTable) (index : ℕ) : Prop :=
  index < 32 ∧ (table index).appletId ≠ 0xFFFF

/-- The slot has neither the flag nor files. -/
def NoFileNamespace (table : AppletTable) (index : ℕ) : Prop :=
  InUse table index ∧ (table index).flags &&& 0x40 = 0 ∧ (table index).fileCount = 0

def Selectable (table : AppletTable) (index : ℕ) : Prop :=
  InUse table index ∧ ¬ ((table index).flags &&& 0x40 = 0 ∧ (table index).fileCount = 0)

instance (table : AppletTable) (index : ℕ) : Decidable (InUse table index) :=
  inferInstanceAs (Decidable (_ ∧ _))

instance (table : AppletTable) (index : ℕ) : Decidable (NoFileNamespace table index) :=
  inferInstanceAs (Decidable (InUse table index ∧ _ ∧ _))

instance (table : AppletTable) (index : ℕ) : Decidable (Selectable table index) :=
  inferInstanceAs (Decidable (InUse table index ∧ ¬ (_ ∧ _)))

variable {table : AppletTable} {index : ℕ} {o : Option (BitVec 32)} {s : Folders}

theorem fileSetFolder_selectable (h : Selectable table index) :
    fileSetFolder table index o s =
      ⟨s.currentFolder,o.map fun _ => (table index).flags,⟨index,false⟩⟩ := by
  rw [fileSetFolder, if_neg (Nat.not_le.mpr h.1.1), if_neg h.1.2, if_neg h.2]

/-- A refusal clears the flags and changes nothing; it is -7 exactly for a slot in
use without a file namespace. -/
theorem fileSetFolder_refused (h : ¬ Selectable table index) :
    (fileSetFolder table index o s).result < 0 ∧
      (fileSetFolder table index o s).appletFlagsOut = o.map (fun _ => 0) ∧
      (fileSetFolder table index o s).folders = s ∧
      ((fileSetFolder table index o s).result = -7 ↔ NoFileNamespace table index) := by
  have hcode : (-64 : ℤ) < 0 ∧ (-64 : ℤ) ≠ -7 := by decide
  unfold fileSetFolder
  dsimp only
  split_ifs with hrange hused hnone
  · exact ⟨hcode.1,rfl,rfl,fun hres => absurd hres hcode.2,
      fun hno => absurd hno.1.1 (Nat.not_lt.mpr hrange)⟩
  · exact ⟨hcode.1,rfl,rfl,fun hres => absurd hres hcode.2,fun hno => absurd hused hno.1.2⟩
  · exact ⟨Int.negSucc_lt_zero 6,rfl,rfl,fun _ => ⟨⟨Nat.not_le.mp hrange,hused⟩,hnone⟩,fun _ => rfl⟩
  · exact absurd ⟨⟨Nat.not_le.mp hrange,hused⟩,hnone⟩ h

theorem noFileNamespace_not_selectable (h : NoFileNamespace table index) :
    ¬ Selectable table index := fun hsel => hsel.2 h.2

/-- The result is never negative for a selectable slot and always for others. -/
theorem result_nonneg_iff :
    0 ≤ (fileSetFolder table index o s).result ↔ Selectable table index := by
  by_cases hsel : Selectable table index
  · rw [fileSetFolder_selectable hsel]
    exact ⟨fun _ => hsel,fun _ => Int.natCast_nonneg _⟩
  · have hneg := (fileSetFolder_refused (o := o) (s := s) hsel).1
    exact ⟨fun hpos => absurd hneg (Int.not_lt.mpr hpos),fun h => absurd h hsel⟩

/-- A refusal depends on the table and the index alone. -/
theorem refused_result (h : ¬ Selectable table index) (o' : Option (BitVec 32)) (s' : Folders) :
    (fileSetFolder table index o s).result = (fileSetFolder table index o' s').result := by
  unfold fileSetFolder
  dsimp only
  split_ifs with hrange hused hnone
  · rfl
  · rfl
  · rfl
  · exact absurd ⟨⟨Nat.not_le.mp hrange,hused⟩,hnone⟩ h

/-! ### Counting -/

/-- A few more checks cannot carry the counter past 16 bits. -/
def Room (n : ℕ) (t : Tally) : Prop := t.failures + n < 65536

instance (n : ℕ) (t : Tally) : Decidable (Room n t) := inferInstanceAs (Decidable (_ < _))

theorem check_failures {t : Tally} (h : Room 1 t) (condition : Bool) :
    (check condition t).failures = t.failures + if condition then 0 else 1 := by
  cases condition
  · simp only [check, Room, u16, Bool.false_eq_true, if_false] at h ⊢
    omega
  · rfl

/-- Several checks in a row. -/
def checks (conditions : List Bool) (t : Tally) : Tally :=
  conditions.foldl (fun t condition => check condition t) t

theorem checks_failures (conditions : List Bool) {t : Tally} (h : Room conditions.length t) :
    t.failures ≤ (checks conditions t).failures ∧
      (checks conditions t).failures ≤ t.failures + conditions.length ∧
      ((checks conditions t).failures = t.failures ↔ ∀ c ∈ conditions, c = true) := by
  induction conditions generalizing t with
  | nil => exact ⟨Nat.le_refl _,Nat.le_refl _,fun _ _ h => absurd h List.not_mem_nil,fun _ => rfl⟩
  | cons c conditions ih =>
    rw [Room, List.length_cons] at h
    have hfirst := check_failures (t := t) (by rw [Room]; omega) c
    have hle : (check c t).failures ≤ t.failures + 1 := by
      rw [hfirst]
      split <;> omega
    obtain ⟨hlow,hhigh,hsame⟩ := ih (t := check c t) (by rw [Room]; omega)
    change t.failures ≤ (checks conditions (check c t)).failures ∧
      (checks conditions (check c t)).failures ≤ _ ∧
      ((checks conditions (check c t)).failures = t.failures ↔ _)
    rw [List.length_cons, List.forall_mem_cons]
    cases c with
    | false =>
      simp only [Bool.false_eq_true, if_false] at hfirst
      refine ⟨by omega,by omega,fun heq => ?_,fun hall => absurd hall.1 Bool.false_ne_true⟩
      omega
    | true =>
      simp only [if_true, Nat.add_zero] at hfirst
      rw [hfirst] at hlow hhigh hsame
      exact ⟨hlow,by omega,hsame.trans ⟨fun hall => ⟨rfl,hall⟩,fun hall => hall.2⟩⟩

/-- What a case does to the counter: at most `n` new failures, and none exactly if
`good` holds, which also brings the folder back. -/
structure Counts (n : ℕ) (good : Prop) (tally : Tally) (s : Folders) (e : CaseEnd) : Prop where
  le : tally.failures ≤ e.tally.failures
  le_add : e.tally.failures ≤ tally.failures + n
  same_iff : e.tally.failures = tally.failures ↔ good
  restored : good → e.folders.currentFolder = s.currentFolder
  inRange : e.folders.currentFolder < 32

theorem Counts.of_checks {n : ℕ} {good : Prop} {tally : Tally} {e : CaseEnd}
    (conditions : List Bool) (htally : e.tally = checks conditions tally)
    (hlength : conditions.length ≤ n) (hroom : Room n tally)
    (hgood : (∀ c ∈ conditions, c = true) ↔ good)
    (hback : good → e.folders.currentFolder = s.currentFolder)
    (hrange : e.folders.currentFolder < 32) : Counts n good tally s e := by
  obtain ⟨hlow,hhigh,hsame⟩ := checks_failures conditions (t := tally) (by
    rw [Room] at hroom ⊢
    omega)
  rw [← htally] at hlow hhigh hsame
  exact ⟨hlow,by omega,hsame.trans hgood,hback,hrange⟩

theorem u32_folder {folder : ℕ} (h : folder < 32) : u32 folder = folder := by
  simp only [u32]
  omega

theorem folder_inRange (hs : s.currentFolder < 32) :
    (fileSetFolder table index o s).folders.currentFolder < 32 := by
  by_cases hsel : Selectable table index
  · rw [fileSetFolder_selectable hsel]
    exact hsel.1.1
  · rw [(fileSetFolder_refused hsel).2.2.1]
    exact hs

/-- The restore at the end of a case: it returns the folder it leaves exactly if the
one it goes back to is selectable. -/
theorem restore_iff {previous : ℕ} {fileActive : Bool} :
    (fileSetFolder table previous none ⟨index,fileActive⟩).result = index ↔
      Selectable table previous := by
  constructor
  · intro hres
    have hpos : 0 ≤ (fileSetFolder table previous none ⟨index,fileActive⟩).result := by
      rw [hres]
      exact Int.natCast_nonneg _
    exact result_nonneg_iff.mp hpos
  · intro hsel
    rw [fileSetFolder_selectable hsel]

theorem restore_folder {previous : ℕ} (hsel : Selectable table previous) (s : Folders) :
    (fileSetFolder table previous none s).folders.currentFolder = previous := by
  rw [fileSetFolder_selectable hsel]

/-- A case that expects success. -/
theorem selectCase_counts {flagsOk : BitVec 32 → Bool} {record : CaseRecord} {tally : Tally}
    (hroom : Room 3 tally) (hs : s.currentFolder < 32) :
    Counts 3 (Selectable table index ∧ flagsOk (table index).flags = true ∧
      Selectable table s.currentFolder) tally s
      (selectCase table index flagsOk record tally s) := by
  unfold selectCase
  by_cases hsel : Selectable table index
  · have hpos : (s.currentFolder : ℤ) ≥ 0 := Int.natCast_nonneg _
    rw [fileSetFolder_selectable hsel]
    dsimp only [Option.map_some, Option.getD_some]
    rw [if_pos hpos, u32_folder hs]
    refine .of_checks [decide ((s.currentFolder : ℤ) ≥ 0),
      flagsOk (table index).flags,
      decide ((fileSetFolder table s.currentFolder none ⟨index,false⟩).result = index)]
      rfl (Nat.le_refl 3) hroom ?_ (fun hgood => restore_folder hgood.2.2 _)
      (folder_inRange hsel.1.1)
    simp [hsel, restore_iff]
  · obtain ⟨hneg,hflags,hfolders,-⟩ := fileSetFolder_refused (o := some 0xDEADBEEF) (s := s) hsel
    have hnot : ¬ (fileSetFolder table index (some 0xDEADBEEF) s).result ≥ 0 := Int.not_le.mpr hneg
    dsimp only
    rw [if_neg hnot]
    refine .of_checks [_,_] rfl (Nat.le_succ 2) hroom ?_ (fun hgood => absurd hgood.1 hsel)
      (folder_inRange hs)
    simp [hsel, result_nonneg_iff]

/-- The slot answers `expected`, whatever folder is selected. -/
def Refuses (table : AppletTable) (index : ℕ) (expected : ℤ) : Prop :=
  ∀ o s, (fileSetFolder table index o s).result = expected

/-- A negative answer is the slot's answer at any time. -/
theorem refuses_iff {expected : ℤ} (hexpected : expected < 0) :
    (fileSetFolder table index o s).result = expected ↔ Refuses table index expected := by
  constructor
  · intro hres o' s'
    have hsel : ¬ Selectable table index := by
      rw [← result_nonneg_iff (o := o) (s := s), hres]
      exact Int.not_le.mpr hexpected
    rw [← hres]
    exact refused_result hsel _ _
  · exact fun hrefuses => hrefuses o s

theorem Refuses.not_selectable {expected : ℤ} (hexpected : expected < 0)
    (h : Refuses table index expected) : ¬ Selectable table index := by
  rw [← result_nonneg_iff (o := none) (s := ⟨0,false⟩), h]
  exact Int.not_le.mpr hexpected

theorem refuses_noFiles_iff : Refuses table index (-7) ↔ NoFileNamespace table index := by
  constructor
  · intro h
    have hsel := h.not_selectable (Int.negSucc_lt_zero 6)
    exact (fileSetFolder_refused hsel).2.2.2.mp (h none ⟨0,false⟩)
  · intro h o s
    exact (fileSetFolder_refused (noFileNamespace_not_selectable h)).2.2.2.mpr h

theorem refuses_invalid : Refuses table 32 (-64) := fun _ _ => rfl

/-- A case that expects a refusal. -/
theorem refusalCase_counts {anchor : ℕ} {expected : ℤ} {record : CaseRecord} {tally : Tally}
    (hexpected : expected < 0) (hroom : Room 4 tally) (hs : s.currentFolder < 32) :
    Counts 4 (Selectable table anchor ∧ Refuses table index expected ∧
      Selectable table s.currentFolder) tally s
      (refusalCase table anchor index expected record tally s) := by
  unfold refusalCase
  by_cases hanchor : Selectable table anchor
  · have hpos : ¬ (s.currentFolder : ℤ) < 0 := Int.not_lt.mpr (Int.natCast_nonneg _)
    rw [fileSetFolder_selectable hanchor]
    dsimp only [Option.map_none]
    rw [if_neg hpos, u32_folder hs]
    by_cases hrefuses : Refuses table index expected
    · have hsel := hrefuses.not_selectable hexpected
      obtain ⟨-,hflags,hfolders,-⟩ :=
        fileSetFolder_refused (o := some 0xDEADBEEF) (s := ⟨anchor,false⟩) hsel
      rw [hrefuses, hflags, hfolders]
      refine .of_checks [decide ((s.currentFolder : ℤ) ≥ 0),decide (expected = expected),
        decide ((0 : BitVec 32) = 0),
        decide ((fileSetFolder table s.currentFolder none ⟨anchor,false⟩).result = anchor)]
        rfl (Nat.le_refl 4) hroom ?_ (fun hgood => restore_folder hgood.2.2 _)
        (folder_inRange hanchor.1.1)
      simp [hanchor, hrefuses, restore_iff]
    · refine .of_checks [_,_,_,_] rfl (Nat.le_refl 4) hroom ?_
        (fun hgood => absurd hgood.2.1 hrefuses) (folder_inRange (folder_inRange hanchor.1.1))
      simp [hrefuses, refuses_iff hexpected]
  · have hneg := (fileSetFolder_refused (o := none) (s := s) hanchor).1
    dsimp only
    rw [if_pos hneg]
    refine .of_checks [_] rfl (by simp) hroom ?_ (fun hgood => absurd hgood.1 hanchor)
      (folder_inRange hs)
    simp [hanchor, Int.not_le.mpr hneg]

/-! ### The verdict -/

/-- The tables the probe accepts from a folder. -/
structure Accepts (table : AppletTable) (alphaWord alphaQuiz calculator start : ℕ) : Prop where
  alphaWord : Selectable table alphaWord ∧ (table alphaWord).flags &&& 0x40 ≠ 0
  alphaQuiz : Selectable table alphaQuiz ∧ (table alphaQuiz).flags &&& 0x40 = 0
  calculator : NoFileNamespace table calculator
  start : Selectable table start

variable {n : ℕ} {good : Prop} {tally : Tally} {e : CaseEnd}

theorem Counts.room {k : ℕ} (h : Counts n good tally s e) (hroom : Room (n + k) tally) :
    Room k e.tally := by
  have hle := h.le_add
  rw [Room] at hroom ⊢
  omega

/-- A case after which no failure is counted started without one and went well. -/
theorem Counts.failures_zero_iff (h : Counts n good tally s e) :
    e.tally.failures = 0 ↔ tally.failures = 0 ∧ good := by
  have hle := h.le
  rw [← h.same_iff]
  omega

/-- The four cases of `run_probe`, each from the counters and the folder that the
previous one left. -/
theorem fourCases_verdict (alphaWord alphaQuiz calculator : ℕ) (r₁ r₂ r₃ r₄ : CaseRecord)
    (hs : s.currentFolder < 32) :
    let e₁ := selectCase table alphaWord (fun flags => flags &&& 0x40 ≠ 0) r₁ ⟨0,0⟩ s
    let e₂ := selectCase table alphaQuiz (fun flags => flags &&& 0x40 = 0) r₂ e₁.tally e₁.folders
    let e₃ := refusalCase table alphaQuiz calculator (-7) r₃ e₂.tally e₂.folders
    let e₄ := refusalCase table alphaQuiz 32 (-64) r₄ e₃.tally e₃.folders
    (e₄.tally.failures = 0 → e₄.folders.currentFolder = s.currentFolder) ∧
      (e₄.tally.failures = 0 ↔ Accepts table alphaWord alphaQuiz calculator s.currentFolder) := by
  intro e₁ e₂ e₃ e₄
  have hroom : Room 14 ⟨0,0⟩ := by decide
  have h₁ : Counts 3 _ ⟨0,0⟩ s e₁ := selectCase_counts (by decide) hs
  have hroom₁ : Room 11 e₁.tally := h₁.room hroom
  have h₂ : Counts 3 _ e₁.tally e₁.folders e₂ :=
    selectCase_counts (by rw [Room] at hroom₁ ⊢; omega) h₁.inRange
  have hroom₂ : Room 8 e₂.tally := h₂.room hroom₁
  have h₃ : Counts 4 _ e₂.tally e₂.folders e₃ :=
    refusalCase_counts (Int.negSucc_lt_zero 6) (by rw [Room] at hroom₂ ⊢; omega) h₂.inRange
  have hroom₃ : Room 4 e₃.tally := h₃.room hroom₂
  have h₄ : Counts 4 _ e₃.tally e₃.folders e₄ :=
    refusalCase_counts (Int.negSucc_lt_zero 63) hroom₃ h₃.inRange
  have hiff := h₄.failures_zero_iff
  rw [h₃.failures_zero_iff, h₂.failures_zero_iff, h₁.failures_zero_iff] at hiff
  rw [hiff]
  constructor
  · rintro ⟨⟨⟨⟨-,hgood₁⟩,hgood₂⟩,hgood₃⟩,hgood₄⟩
    rw [h₄.restored hgood₄, h₃.restored hgood₃, h₂.restored hgood₂, h₁.restored hgood₁]
  · constructor
    · rintro ⟨⟨⟨⟨-,hgood₁⟩,hgood₂⟩,hgood₃⟩,-⟩
      exact ⟨⟨hgood₁.1,by simpa using hgood₁.2.1⟩,⟨hgood₂.1,by simpa using hgood₂.2.1⟩,
        refuses_noFiles_iff.mp hgood₃.2.1,hgood₁.2.2⟩
    · intro h
      have hgood₁ := And.intro h.alphaWord.1 (And.intro (decide_eq_true h.alphaWord.2) h.start)
      have hback₁ := h₁.restored hgood₁
      have hgood₂ := And.intro h.alphaQuiz.1 (And.intro (decide_eq_true h.alphaQuiz.2)
        (hback₁ ▸ h.start))
      have hback₂ := h₂.restored hgood₂
      have hgood₃ := And.intro h.alphaQuiz.1 (And.intro (refuses_noFiles_iff.mpr h.calculator)
        (hback₂ ▸ hgood₂.2.2))
      have hback₃ := h₃.restored hgood₃
      exact ⟨⟨⟨⟨rfl,hgood₁⟩,hgood₂⟩,hgood₃⟩,h.alphaQuiz.1,refuses_invalid,hback₃ ▸ hgood₃.2.2⟩

/-- For every table and every starting folder: with no failure counted the folder is
the one the probe started from, and no failure is counted exactly on the tables
it is meant to accept. -/
theorem verdict_exact (appletFindById : ℕ → ℕ) (table : AppletTable) (p : Probe)
    (hstart : p.folders.currentFolder < 32) (halphaWord : u8 (appletFindById 0xA000) ≠ 0)
    (halphaQuiz : u8 (appletFindById 0xA001) ≠ 0) (hcalculator : u8 (appletFindById 0xA002) ≠ 0) :
    ((runProbe appletFindById table p).results.tally.failures = 0 →
      (runProbe appletFindById table p).folders.currentFolder = p.folders.currentFolder) ∧
    ((runProbe appletFindById table p).results.tally.failures = 0 ↔
      Accepts table (u8 (appletFindById 0xA000)) (u8 (appletFindById 0xA001))
        (u8 (appletFindById 0xA002)) p.folders.currentFolder) := by
  have hmask : ((if u8 (appletFindById 0xA000) = 0 then 1 else 0) |||
      (if u8 (appletFindById 0xA001) = 0 then 2 else 0) |||
      (if u8 (appletFindById 0xA002) = 0 then 4 else 0)) = 0 := by
    rw [if_neg halphaWord, if_neg halphaQuiz, if_neg hcalculator]
    rfl
  unfold runProbe
  dsimp only
  rw [if_pos hmask]
  exact fourCases_verdict _ _ _ _ _ _ _ hstart

/-- The stock applets in slots 1, 2 and 3; the folder of slot 1 is selected. -/
def stockTable : AppletTable
  | 1 => ⟨0xA000,0xFF0000CE,0⟩
  | 2 => ⟨0xA001,0xFF000090,15⟩
  | 3 => ⟨0xA002,0xFF000000,0⟩
  | _ => ⟨0xFFFF,0,0⟩

def findStock (id : ℕ) : ℕ := if 0xA000 ≤ id ∧ id ≤ 0xA002 then id - 0xA000 + 1 else 0

theorem verdict_exact_stock :
    (runProbe findStock stockTable ⟨resetResults,⟨1,true⟩⟩).results.tally.failures = 0 :=
  (verdict_exact findStock stockTable ⟨resetResults,⟨1,true⟩⟩ (by decide) (by decide) (by decide)
    (by decide)).2.mpr ⟨by decide,by decide,by decide,by decide⟩

end Betawise.FolderProbe
