import Betawise.M68k

/-!
# The relocating loader of `crt0.S`

The loader walks the global offset table at the data base up to its zero word and
the relocation table behind it up to the next one. Both loops call one fix-up
routine and leave on its flags. The run theorem says that from any code base and
data base it reaches `main` with every pointer fixed once. Words are taken at any
address here; a 68000 needs even ones, and traps on the others.
-/
namespace Betawise.RelocatingLoader
open ByteMemory M68k

/-! ### The program -/

def main : ℕ := 35

def gotLoop : ℕ := 8

def relaLoop : ℕ := 14

def doFixup : ℕ := 27

/-- The instructions of `crt0.S` in their order. `here` is the address that
`lea (%pc)` reads, and `codeStart` that of `__code_start__`. -/
def crt0 (here codeStart : Addr) : List Instr :=
  [ -- _start
   .lea here .a0,
   .move (.a .a0) (.d .d0),
   .andi 0x10000000 .d0,
   .lsl 1 .d0,
   .ori 0x80000000 .d0,
   .move (.d .d0) (.a .a5),
   -- Begin of Neo loader
   .lea codeStart .a6,
   .move (.a .a5) (.a .a0),
   -- .L_got_loop
   .move (.indirect .a0) (.d .d0),
   .beq 13,
   .bsr doFixup,
   .move (.d .d0) (.postInc .a0),
   .bne gotLoop,
   -- .L_got_done
   .addq 4 .a0,
   -- .L_rela_loop
   .move (.postInc .a0) (.d .d0),
   .bsr doFixup,
   .beq 22,
   .move (.d .d0) (.a .a1),
   .move (.indirect .a1) (.d .d0),
   .bsr doFixup,
   .move (.d .d0) (.indirect .a1),
   .bra relaLoop,
   -- .L_rela_done
   .jsr main,
   .move (.d .d0) (.d .d1),
   .moveq 1 .d0,
   .trap,
   .rts,
   -- .L_do_fixup
   .tst .d0,
   .beq 34,
   .bmi 32,
   .add .a6 .d0,
   .bra 34,
   -- .L_do_fixup_ram
   .bclr 31 .d0,
   .add .a5 .d0,
   -- .L_do_fixup_done
   .rts]

/-- The loader at some place in memory. -/
structure Placement where
  here : Addr
  codeStart : Addr
  layout : ℕ → Addr
  layout_inj : ∀ i < 35, ∀ j < 35, layout i = layout j → i = j

def Placement.code (p : Placement) : Code := ⟨crt0 p.here p.codeStart,p.layout,p.layout_inj⟩

/-- A link address is relative to the code if bit 31 is clear, else to the data. -/
def phi (code data : Addr) (v : BitVec 32) : BitVec 32 :=
  if v.msb then (v &&& ~~~(1#32 <<< 31)) + data else v + code

/-- What the fix-up routine returns: a zero word stays zero. -/
def fixed (code data : Addr) (v : BitVec 32) : BitVec 32 :=
  if v = 0 then 0 else phi code data v

variable {p : Placement} {s : State}

/-- Execute instruction `k` of the loader. -/
theorem Placement.exec (p : Placement) {s t u : State} {k : ℕ} (hpc : s.pc = k) {i : Instr}
    (hi : (crt0 p.here p.codeStart)[k]? = some i) (hs : M68k.exec p.code s i = some t)
    (h : Reaches p.code t u) : Reaches p.code s u :=
  Reaches.exec (i := i) (by rw [hpc]; exact hi) hs h

/-! ### The fix-up routine -/

/-- The state in which the fix-up routine returns to instruction `i`. -/
def fixedState (s : State) (i : ℕ) : State :=
  let v := fixed (s.a .a6) (s.a .a5) (s.d .d0)
  { s with
    d := Function.update s.d .d0 v
    a := Function.update s.a .sp (s.a .sp + 4)
    n := v.msb
    z := v == 0
    pc := i }

/-- On each of its three paths the routine leaves the fixed word in d0 and its
sign and zero in the flags. -/
theorem doFixup_returns (hpc : s.pc = doFixup) {i : ℕ} (hi : i < 35)
    (hret : load32 s.mem (s.a .sp) = p.layout i) : Reaches p.code s (fixedState s i) := by
  have hfind : p.code.find (p.layout i) = some i := p.code.find_layout hi
  -- every path ends at the `rts` with the fixed word and its flags
  have hrts {t : State} {v : BitVec 32} (hv : fixed (s.a .a6) (s.a .a5) (s.d .d0) = v)
      (hpc : t.pc = 34) (hd : t.d = Function.update s.d .d0 v) (ha : t.a = s.a)
      (hn : t.n = v.msb) (hz : t.z = (v == 0)) (hmem : t.mem = s.mem) :
      Reaches p.code t (fixedState s i) := by
    refine p.exec hpc (i := .rts) rfl ?_ (.refl _)
    rw [M68k.exec, hmem, ha, hret, hfind]
    simp only [Option.map_some, State.setA, State.jump, fixedState, hd, ha, hn, hz, hmem, hv]
  let s₁ := (s.test (s.d .d0)).next
  refine p.exec hpc (i := .tst .d0) (t := s₁) rfl rfl ?_
  have hpc₁ : s₁.pc = 28 := congrArg (· + 1) hpc
  by_cases hzero : s.d .d0 = 0
  · -- a zero word is returned at once
    have hz : s₁.z = true := by simp [s₁, State.test, State.next, hzero]
    refine p.exec hpc₁ (i := .beq 34) (t := s₁.jump 34) rfl (by rw [M68k.exec, hz]; rfl) ?_
    have hd : s.d = Function.update s.d .d0 0 := by
      rw [← hzero, Function.update_eq_self]
    refine hrts (v := 0) (if_pos hzero) rfl hd rfl ?_ ?_ rfl
    · simp [s₁, State.jump, State.next, State.test, hzero]
    · exact hz
  · have hz : s₁.z = false := by simpa [s₁, State.test, State.next] using hzero
    refine p.exec hpc₁ (i := .beq 34) (t := s₁.next) rfl (by rw [M68k.exec, hz]; rfl) ?_
    have hpc₂ : s₁.next.pc = 29 := congrArg (· + 1) hpc₁
    have hfixed : fixed (s.a .a6) (s.a .a5) (s.d .d0) = phi (s.a .a6) (s.a .a5) (s.d .d0) :=
      if_neg hzero
    cases hmsb : (s.d .d0).msb with
    | true =>
      let v := (s.d .d0 &&& ~~~(1#32 <<< 31)) + s.a .a5
      have hv : phi (s.a .a6) (s.a .a5) (s.d .d0) = v := if_pos hmsb
      have hn : s₁.next.n = true := hmsb
      refine p.exec hpc₂ (i := .bmi 32) (t := s₁.next.jump 32) rfl (by rw [M68k.exec, hn]; rfl) ?_
      refine p.exec rfl (i := .bclr 31 .d0) rfl rfl ?_
      refine p.exec (k := 33) rfl (i := .add .a5 .d0) rfl rfl ?_
      refine hrts (v := v) (hfixed.trans hv) rfl ?_ rfl ?_ ?_ rfl
      · simp [s₁, v, State.jump, State.next, State.test, State.setD]
      · simp [s₁, v, State.jump, State.next, State.test, State.setD]
      · simp [s₁, v, State.jump, State.next, State.test, State.setD]
    | false =>
      let v := s.d .d0 + s.a .a6
      have hv : phi (s.a .a6) (s.a .a5) (s.d .d0) = v := if_neg (by simp [hmsb])
      have hn : s₁.next.n = false := hmsb
      refine p.exec hpc₂ (i := .bmi 32) (t := s₁.next.next) rfl (by rw [M68k.exec, hn]; rfl) ?_
      have hpc₃ : s₁.next.next.pc = 30 := congrArg (· + 1) hpc₂
      refine p.exec hpc₃ (i := .add .a6 .d0) rfl rfl ?_
      refine p.exec (k := 31) (congrArg (· + 1) hpc₃) (i := .bra 34) rfl rfl ?_
      refine hrts (v := v) (hfixed.trans hv) rfl ?_ rfl ?_ ?_ rfl
      · simp [s₁, v, State.jump, State.next, State.test, State.setD]
      · simp [s₁, v, State.jump, State.next, State.test, State.setD]
      · simp [s₁, v, State.jump, State.next, State.test, State.setD]

/-- The state after a call of the fix-up routine: beside d0 and the flags only the
stack slot of the return address has changed. -/
def calledState (s : State) (ret : Addr) : State :=
  let v := fixed (s.a .a6) (s.a .a5) (s.d .d0)
  { s with
    d := Function.update s.d .d0 v
    n := v.msb
    z := v == 0
    pc := s.pc + 1
    mem := store32 s.mem (s.a .sp - 4) ret }

theorem bsr_doFixup {k : ℕ} (hpc : s.pc = k)
    (hk : (crt0 p.here p.codeStart)[k]? = some (.bsr doFixup)) (hlt : k + 1 < 35) :
    Reaches p.code s (calledState s (p.layout (k + 1))) := by
  let t := (s.push (p.layout (k + 1))).jump doFixup
  have hcall : M68k.exec p.code s (.bsr doFixup) = some t := by
    rw [M68k.exec, hpc]
    rfl
  have hsp : t.a .sp = s.a .sp - 4 := by simp [t, State.jump, State.push, State.setA]
  have hret : load32 t.mem (t.a .sp) = p.layout (k + 1) := by
    rw [hsp]
    exact load32_store32_same ..
  refine p.exec hpc hk hcall ?_
  have hdone := doFixup_returns (p := p) (s := t) rfl hlt hret
  have heq : fixedState t (k + 1) = calledState s (p.layout (k + 1)) := by
    have hcancel : s.a .sp - 4 + 4 = s.a .sp := BitVec.sub_add_cancel ..
    simp only [fixedState, calledState, hsp, hcancel]
    simp [t, State.jump, State.push, State.setA, hpc]
  rwa [heq] at hdone

/-! ### The image and what relocation makes of it -/

/-- The place that entry `j` of the relocation table points to. -/
def target (mem : Memory) (code data : Addr) (n j : ℕ) : Addr :=
  phi code data (load32 mem (wordAt data (n + 1 + j)))

/-- An image of `n` pointers and `m` relocations: at the data base the pointers and
a zero word, behind it the relocation table and a zero word. The words to be
relocated lie apart from one another, from both tables and from the stack slot
that the loader's calls use. -/
structure Image (mem : Memory) (code data stack : Addr) (n m : ℕ) : Prop where
  fits : 4 * (n + m + 2) ≤ 4294967296
  got : ∀ i < n, load32 mem (wordAt data i) ≠ 0
  gotEnd : load32 mem (wordAt data n) = 0
  table : ∀ j < m, load32 mem (wordAt data (n + 1 + j)) ≠ 0
  tableEnd : load32 mem (wordAt data (n + 1 + m)) = 0
  gotPhi : ∀ i < n, phi code data (load32 mem (wordAt data i)) ≠ 0
  tablePhi : ∀ j < m, target mem code data n j ≠ 0
  apartTargets : ∀ j < m, ∀ k < m, j ≠ k →
    Apart (target mem code data n j) (target mem code data n k)
  apartTables : ∀ j < m, ∀ i < n + m + 2, Apart (target mem code data n j) (wordAt data i)
  apartStack : ∀ j < m, Apart (target mem code data n j) (stack - 4)
  stackTables : ∀ i < n + m + 2, Apart (wordAt data i) (stack - 4)

/-- The first `i` pointers and the first `j` relocations are done, once each, and
nothing else has changed outside the stack slot. -/
structure Relocated (mem mem' : Memory) (code data stack : Addr) (n i j : ℕ) : Prop where
  got : ∀ k < i, load32 mem' (wordAt data k) = phi code data (load32 mem (wordAt data k))
  targets : ∀ k < j, load32 mem' (target mem code data n k) =
    fixed code data (load32 mem (target mem code data n k))
  frame : ∀ x, ¬ InWord (stack - 4) x → (∀ k < i, ¬ InWord (wordAt data k) x) →
    (∀ k < j, ¬ InWord (target mem code data n k) x) → mem' x = mem x

variable {mem mem' : Memory} {code data stack : Addr} {n m i j : ℕ}

theorem Image.apartWords (h : Image mem code data stack n m) {i k : ℕ} (hne : i ≠ k)
    (hi : i < n + m + 2) (hk : k < n + m + 2) : Apart (wordAt data i) (wordAt data k) := by
  have hfits := h.fits
  exact apart_wordAt data hne (by omega) (by omega)

theorem Relocated.start (mem : Memory) (code data stack : Addr) (n : ℕ) :
    Relocated mem mem code data stack n 0 0 :=
  ⟨fun _ hk => absurd hk (Nat.not_lt_zero _),fun _ hk => absurd hk (Nat.not_lt_zero _),
    fun _ _ _ _ => rfl⟩

/-- A word that no store so far has touched. -/
theorem Relocated.untouched (h : Relocated mem mem' code data stack n i j) {a : Addr}
    (hstack : Apart a (stack - 4)) (hgot : ∀ k < i, Apart a (wordAt data k))
    (htargets : ∀ k < j, Apart a (target mem code data n k)) :
    load32 mem' a = load32 mem a :=
  load32_congr fun x hx =>
    h.frame x (hstack x hx) (fun k hk => hgot k hk x hx) (fun k hk => htargets k hk x hx)

/-- A call uses the stack slot. -/
theorem Relocated.push (h : Relocated mem mem' code data stack n i j)
    (im : Image mem code data stack n m) (hi : i ≤ n) (hj : j ≤ m) (v : BitVec 32) :
    Relocated mem (store32 mem' (stack - 4) v) code data stack n i j where
  got := fun k hk => by
    rw [load32_store32_apart _ _ (im.stackTables k (by omega))]
    exact h.got k hk
  targets := fun k hk => by
    rw [load32_store32_apart _ _ (im.apartStack k (by omega))]
    exact h.targets k hk
  frame := fun x hs hg ht => by
    rw [store32_frame _ _ hs]
    exact h.frame x hs hg ht

/-- The next pointer is stored. -/
theorem Relocated.got_succ (h : Relocated mem mem' code data stack n i 0)
    (im : Image mem code data stack n m) (hi : i < n) :
    Relocated mem (store32 mem' (wordAt data i) (phi code data (load32 mem (wordAt data i))))
      code data stack n (i + 1) 0 where
  got := fun k hk => by
    by_cases hk' : k = i
    · rw [hk', load32_store32_same]
    · rw [load32_store32_apart _ _ (im.apartWords hk' (by omega) (by omega))]
      exact h.got k (by omega)
  targets := fun k hk => absurd hk (Nat.not_lt_zero k)
  frame := fun x hs hg ht => by
    rw [store32_frame _ _ (hg i (Nat.lt_succ_self i))]
    exact h.frame x hs (fun k hk => hg k (by omega)) ht

/-- The next relocated word is stored. -/
theorem Relocated.target_succ (h : Relocated mem mem' code data stack n n j)
    (im : Image mem code data stack n m) (hj : j < m) :
    Relocated mem (store32 mem' (target mem code data n j)
      (fixed code data (load32 mem (target mem code data n j)))) code data stack n n (j + 1) where
  got := fun k hk => by
    rw [load32_store32_apart _ _ (im.apartTables j hj k (by omega)).symm]
    exact h.got k hk
  targets := fun k hk => by
    by_cases hk' : k = j
    · rw [hk', load32_store32_same]
    · rw [load32_store32_apart _ _ (im.apartTargets k (by omega) j hj hk')]
      exact h.targets k (by omega)
  frame := fun x hs hg ht => by
    rw [store32_frame _ _ (ht j (Nat.lt_succ_self j))]
    exact h.frame x hs hg fun k hk => ht k (by omega)

/-! ### The loop over the global offset table -/

/-- The bases and the stack pointer, which no loop changes. -/
structure Based (code data stack : Addr) (s : State) : Prop where
  a5 : s.a .a5 = data
  a6 : s.a .a6 = code
  sp : s.a .sp = stack

/-- At the head of the first loop with `i` pointers done. -/
structure GotPass (mem : Memory) (code data stack : Addr) (n i : ℕ) (s : State) : Prop
    extends Based code data stack s where
  pc : s.pc = gotLoop
  a0 : s.a .a0 = wordAt data i
  mem : Relocated mem s.mem code data stack n i 0

/-- At the head of the second loop with `j` relocations done. -/
structure RelaPass (mem : Memory) (code data stack : Addr) (n j : ℕ) (s : State) : Prop
    extends Based code data stack s where
  pc : s.pc = relaLoop
  a0 : s.a .a0 = wordAt data (n + 1 + j)
  mem : Relocated mem s.mem code data stack n n j

theorem GotPass.word (h : GotPass mem code data stack n i s) (im : Image mem code data stack n m)
    (hi : i ≤ n) : load32 s.mem (s.a .a0) = load32 mem (wordAt data i) := by
  rw [h.a0]
  exact h.mem.untouched (im.stackTables i (by omega))
    (fun k hk => im.apartWords (by omega) (by omega) (by omega))
    (fun k hk => absurd hk (Nat.not_lt_zero k))

/-- One turn of the first loop. -/
theorem GotPass.next (h : GotPass mem code data stack n i s) (im : Image mem code data stack n m)
    (hi : i < n) : ∃ t, Reaches p.code s t ∧ GotPass mem code data stack n (i + 1) t := by
  let g := load32 mem (wordAt data i)
  have hg : g ≠ 0 := im.got i hi
  let s₁ := ((s.setD .d0 g).test g).next
  have hread : M68k.exec p.code s (.move (.indirect .a0) (.d .d0)) = some s₁ := by
    rw [M68k.exec, State.read, h.word im (Nat.le_of_lt hi)]
    rfl
  have hpc₁ : s₁.pc = 9 := congrArg (· + 1) h.pc
  have hz₁ : s₁.z = false := by simpa [s₁, State.test, State.next] using hg
  have hpc₂ : s₁.next.pc = 10 := congrArg (· + 1) hpc₁
  let s₃ := calledState s₁.next (p.layout 11)
  have hpc₃ : s₃.pc = 11 := congrArg (· + 1) hpc₂
  have hd₃ : s₃.d .d0 = phi code data g := by
    have hfixed : fixed code data g = phi code data g := if_neg hg
    simp [s₃, s₁, calledState, State.next, State.test, State.setD, h.a5, h.a6, hfixed]
  let s₄ := (s₃.write (s₃.d .d0) (.postInc .a0)).next
  have hpc₄ : s₄.pc = 12 := congrArg (· + 1) hpc₃
  have hz₄ : s₄.z = false := by
    have hphi := im.gotPhi i hi
    simpa [s₄, State.write, State.test, State.next, hd₃] using hphi
  have hmem : s₄.mem = store32 (store32 s.mem (stack - 4) (p.layout 11)) (wordAt data i)
      (phi code data g) := by
    have ha₀ : s₃.a .a0 = wordAt data i := h.a0
    have hmem₃ : s₃.mem = store32 s.mem (stack - 4) (p.layout 11) := by
      simp [s₃, s₁, calledState, State.next, State.test, State.setD, h.sp]
    simp [s₄, State.write, State.test, State.next, State.setA, hd₃, ha₀, hmem₃]
  refine ⟨s₄.jump gotLoop,?_,?_⟩
  · refine p.exec h.pc (i := .move (.indirect .a0) (.d .d0)) rfl hread ?_
    refine p.exec hpc₁ (i := .beq 13) rfl (t := s₁.next) (by rw [M68k.exec, hz₁]; rfl) ?_
    refine (bsr_doFixup hpc₂ rfl (by decide)).trans ?_
    refine p.exec hpc₃ (i := .move (.d .d0) (.postInc .a0)) rfl (t := s₄) rfl ?_
    exact p.exec hpc₄ (i := .bne gotLoop) rfl (by rw [M68k.exec, hz₄]; rfl) (.refl _)
  · refine ⟨⟨?_,?_,?_⟩,rfl,?_,?_⟩
    · exact h.a5
    · exact h.a6
    · exact h.sp
    · rw [← wordAt_succ, ← h.a0]
      simp [s₄, s₃, s₁, State.jump, State.next, State.write, State.test, State.setA, State.setD,
        calledState]
    · change Relocated mem s₄.mem code data stack n (i + 1) 0
      rw [hmem]
      exact (h.mem.push im (Nat.le_of_lt hi) (Nat.zero_le m) _).got_succ im hi

/-- The zero word ends the first loop, and the loader steps over it. -/
theorem GotPass.done (h : GotPass mem code data stack n n s) (im : Image mem code data stack n m) :
    ∃ t, Reaches p.code s t ∧ RelaPass mem code data stack n 0 t := by
  let s₁ := ((s.setD .d0 0).test 0).next
  have hread : M68k.exec p.code s (.move (.indirect .a0) (.d .d0)) = some s₁ := by
    rw [M68k.exec, State.read, h.word im (Nat.le_refl n), im.gotEnd]
    rfl
  have hpc₁ : s₁.pc = 9 := congrArg (· + 1) h.pc
  refine ⟨((s₁.jump 13).setA .a0 (s₁.a .a0 + 4)).next,?_,⟨h.a5,h.a6,h.sp⟩,rfl,?_,h.mem⟩
  · refine p.exec h.pc (i := .move (.indirect .a0) (.d .d0)) rfl hread ?_
    refine p.exec hpc₁ (i := .beq 13) rfl (t := s₁.jump 13) rfl ?_
    exact p.exec (k := 13) rfl (i := .addq 4 .a0) rfl rfl (.refl _)
  · rw [Nat.add_zero, ← wordAt_succ, ← h.a0]
    simp [s₁, State.jump, State.next, State.test, State.setA, State.setD]

/-! ### The loop over the relocation table -/

/-- The table word at the head of the second loop, the terminator included. -/
theorem RelaPass.word (h : RelaPass mem code data stack n j s)
    (im : Image mem code data stack n m) (hj : j ≤ m) :
    load32 s.mem (s.a .a0) = load32 mem (wordAt data (n + 1 + j)) := by
  rw [h.a0]
  exact h.mem.untouched (im.stackTables _ (by omega))
    (fun k hk => im.apartWords (by omega) (by omega) (by omega))
    (fun k hk => (im.apartTables k (by omega) _ (by omega)).symm)

/-- The first three instructions of a turn: the table word is read and fixed. -/
theorem RelaPass.fixEntry (h : RelaPass mem code data stack n j s)
    (im : Image mem code data stack n m) (hj : j ≤ m) :
    ∃ t, Reaches p.code s t ∧ Based code data stack t ∧ t.pc = 16 ∧
      t.a .a0 = wordAt data (n + 1 + (j + 1)) ∧
      t.d .d0 = fixed code data (load32 mem (wordAt data (n + 1 + j))) ∧
      t.z = (fixed code data (load32 mem (wordAt data (n + 1 + j))) == 0) ∧
      Relocated mem t.mem code data stack n n j := by
  let r := load32 mem (wordAt data (n + 1 + j))
  let s₁ := (((s.setA .a0 (s.a .a0 + 4)).setD .d0 r).test r).next
  have hread : M68k.exec p.code s (.move (.postInc .a0) (.d .d0)) = some s₁ := by
    rw [M68k.exec, State.read, h.word im hj]
    rfl
  have hpc₁ : s₁.pc = 15 := congrArg (· + 1) h.pc
  have hbased : Based code data stack s₁ := by
    constructor
    · simpa [s₁, State.next, State.test, State.setD, State.setA] using h.a5
    · simpa [s₁, State.next, State.test, State.setD, State.setA] using h.a6
    · simpa [s₁, State.next, State.test, State.setD, State.setA] using h.sp
  have hd₁ : s₁.d .d0 = r := by simp [s₁, State.next, State.test, State.setD]
  refine ⟨calledState s₁ (p.layout 16),?_,⟨hbased.a5,hbased.a6,hbased.sp⟩,
    congrArg (· + 1) hpc₁,?_,?_,?_,?_⟩
  · exact p.exec h.pc (i := .move (.postInc .a0) (.d .d0)) rfl hread
      (bsr_doFixup hpc₁ rfl (by decide))
  · rw [show n + 1 + (j + 1) = n + 1 + j + 1 from rfl, ← wordAt_succ, ← h.a0]
    simp [s₁, calledState, State.next, State.test, State.setA, State.setD]
  · simp [calledState, hbased.a5, hbased.a6, hd₁, r]
  · simp [calledState, hbased.a5, hbased.a6, hd₁, r]
  · change Relocated mem (store32 s.mem (s₁.a .sp - 4) (p.layout 16)) code data stack n n j
    rw [hbased.sp]
    exact h.mem.push im (Nat.le_refl n) hj _

/-- One turn of the second loop. -/
theorem RelaPass.next (h : RelaPass mem code data stack n j s)
    (im : Image mem code data stack n m) (hj : j < m) :
    ∃ t, Reaches p.code s t ∧ RelaPass mem code data stack n (j + 1) t := by
  obtain ⟨s₁,hreach,hb,hpc₁,ha₀,hd₁,hz₁,hmem₁⟩ := h.fixEntry (p := p) im (Nat.le_of_lt hj)
  let a := target mem code data n j
  have hfixed : fixed code data (load32 mem (wordAt data (n + 1 + j))) = a :=
    if_neg (im.table j hj)
  rw [hfixed] at hd₁ hz₁
  have hz₁ : s₁.z = false := by
    have hne := im.tablePhi j hj
    rw [hz₁]
    simpa using hne
  have hpc₂ : s₁.next.pc = 17 := congrArg (· + 1) hpc₁
  let s₃ := (s₁.next.setA .a1 a).next
  have hpc₃ : s₃.pc = 18 := congrArg (· + 1) hpc₂
  have hmove : M68k.exec p.code s₁.next (.move (.d .d0) (.a .a1)) = some s₃ := by
    rw [M68k.exec, State.read, show s₁.next.d .d0 = a from hd₁]
    rfl
  have ha₁ : s₃.a .a1 = a := by simp [s₃, State.next, State.setA]
  let v := load32 mem a
  have hv : load32 s₁.mem a = v := hmem₁.untouched (im.apartStack j hj)
    (fun k hk => im.apartTables j hj k (by omega))
    (fun k hk => im.apartTargets j hj k (by omega) (by omega))
  let s₄ := ((s₃.setD .d0 v).test v).next
  have hpc₄ : s₄.pc = 19 := congrArg (· + 1) hpc₃
  have hread : M68k.exec p.code s₃ (.move (.indirect .a1) (.d .d0)) = some s₄ := by
    rw [M68k.exec, State.read, ha₁, show s₃.mem = s₁.mem from rfl, hv]
    rfl
  have hb₄ : Based code data stack s₄ := by
    constructor
    · simpa [s₄, s₃, State.next, State.test, State.setD, State.setA] using hb.a5
    · simpa [s₄, s₃, State.next, State.test, State.setD, State.setA] using hb.a6
    · simpa [s₄, s₃, State.next, State.test, State.setD, State.setA] using hb.sp
  let s₅ := calledState s₄ (p.layout 20)
  have hpc₅ : s₅.pc = 20 := congrArg (· + 1) hpc₄
  have hd₅ : s₅.d .d0 = fixed code data v := by
    have hd₄ : s₄.d .d0 = v := by simp [s₄, State.next, State.test, State.setD]
    simp [s₅, calledState, hb₄.a5, hb₄.a6, hd₄]
  let s₆ := (s₅.write (s₅.d .d0) (.indirect .a1)).next
  have hpc₆ : s₆.pc = 21 := congrArg (· + 1) hpc₅
  refine ⟨s₆.jump relaLoop,hreach.trans ?_,⟨hb₄.a5,hb₄.a6,hb₄.sp⟩,rfl,?_,?_⟩
  · refine p.exec hpc₁ (i := .beq 22) rfl (t := s₁.next) (by rw [M68k.exec, hz₁]; rfl) ?_
    refine p.exec hpc₂ (i := .move (.d .d0) (.a .a1)) rfl hmove ?_
    refine p.exec hpc₃ (i := .move (.indirect .a1) (.d .d0)) rfl hread ?_
    refine (bsr_doFixup hpc₄ rfl (by decide)).trans ?_
    refine p.exec hpc₅ (i := .move (.d .d0) (.indirect .a1)) rfl (t := s₆) rfl ?_
    exact p.exec hpc₆ (i := .bra relaLoop) rfl rfl (.refl _)
  · rw [← ha₀]
    simp [s₆, s₅, s₄, s₃, calledState, State.jump, State.next, State.write, State.test,
      State.setA, State.setD]
  · change Relocated mem (store32 s₅.mem (s₅.a .a1) (s₅.d .d0)) code data stack n n (j + 1)
    have ha₅ : s₅.a .a1 = a := ha₁
    have hmem₅ : s₅.mem = store32 s₁.mem (stack - 4) (p.layout 20) := by
      change store32 s₄.mem (s₄.a .sp - 4) _ = _
      rw [hb₄.sp]
      rfl
    rw [ha₅, hd₅, hmem₅]
    exact (hmem₁.push im (Nat.le_refl n) (Nat.le_of_lt hj) _).target_succ im hj

/-- The zero word ends the second loop, and the loader calls `main`. -/
theorem RelaPass.done (h : RelaPass mem code data stack n m s)
    (im : Image mem code data stack n m) :
    ∃ t, Reaches p.code s t ∧ t.pc = main ∧ Based code data (stack - 4) t ∧
      Relocated mem t.mem code data stack n n m := by
  obtain ⟨s₁,hreach,hb,hpc₁,-,-,hz₁,hmem₁⟩ := h.fixEntry (p := p) im (Nat.le_refl m)
  rw [im.tableEnd] at hz₁
  let s₂ := s₁.jump 22
  let t := (s₂.push (p.layout 23)).jump main
  refine ⟨t,hreach.trans ?_,rfl,?_,?_⟩
  · refine p.exec hpc₁ (i := .beq 22) rfl (t := s₂) (by rw [M68k.exec, hz₁]; rfl) ?_
    exact p.exec (k := 22) rfl (i := .jsr main) rfl (t := t) rfl (.refl _)
  · constructor
    · simpa [t, s₂, State.jump, State.push, State.setA] using hb.a5
    · simpa [t, s₂, State.jump, State.push, State.setA] using hb.a6
    · simp [t, s₂, State.jump, State.push, State.setA, hb.sp]
  · change Relocated mem (store32 s₁.mem (s₁.a .sp - 4) _) code data stack n n m
    rw [hb.sp]
    exact hmem₁.push im (Nat.le_refl n) (Nat.le_refl m) _

/-! ### The whole run -/

/-- Both loops end: any number of turns from the head of the first. -/
theorem GotPass.finish (im : Image mem code data stack n m) (hi : i ≤ n)
    (h : GotPass mem code data stack n i s) :
    ∃ t, Reaches p.code s t ∧ RelaPass mem code data stack n 0 t := by
  induction hk : n - i generalizing i s with
  | zero =>
    obtain rfl : i = n := by omega
    exact h.done im
  | succ k ih =>
    obtain ⟨t,hst,ht⟩ := h.next (p := p) im (by omega)
    obtain ⟨u,htu,hu⟩ := ih (by omega) ht (by omega)
    exact ⟨u,hst.trans htu,hu⟩

theorem RelaPass.finish (im : Image mem code data stack n m) (hj : j ≤ m)
    (h : RelaPass mem code data stack n j s) :
    ∃ t, Reaches p.code s t ∧ t.pc = main ∧ Based code data (stack - 4) t ∧
      Relocated mem t.mem code data stack n n m := by
  induction hk : m - j generalizing j s with
  | zero =>
    obtain rfl : j = m := by omega
    exact h.done im
  | succ k ih =>
    obtain ⟨t,hst,ht⟩ := h.next (p := p) im (by omega)
    obtain ⟨u,htu,hu⟩ := ih (by omega) ht (by omega)
    exact ⟨u,hst.trans htu,hu⟩

/-- The zero words and the relocation table are left as they were. -/
theorem Relocated.tables (h : Relocated mem mem' code data stack n n m)
    (im : Image mem code data stack n m) {k : ℕ} (hk : k < m + 2) :
    load32 mem' (wordAt data (n + k)) = load32 mem (wordAt data (n + k)) :=
  h.untouched (im.stackTables _ (by omega))
    (fun i hi => im.apartWords (by omega) (by omega) (by omega))
    (fun j hj => (im.apartTables j hj _ (by omega)).symm)

/-- From the Neo loader on, for any bases: the loader reaches `main`, every pointer
and every relocated word is fixed once, and nothing else has changed. -/
theorem loader_reaches_main (hpc : s.pc = 6) (hdata : s.a .a5 = data)
    (im : Image s.mem p.codeStart data (s.a .sp) n m) :
    ∃ t, Reaches p.code s t ∧ t.pc = main ∧ Based p.codeStart data (s.a .sp - 4) t ∧
      Relocated s.mem t.mem p.codeStart data (s.a .sp) n n m ∧
      ∀ k < m + 2, load32 t.mem (wordAt data (n + k)) = load32 s.mem (wordAt data (n + k)) := by
  let s₁ := (s.setA .a6 p.codeStart).next
  have hpc₁ : s₁.pc = 7 := congrArg (· + 1) hpc
  let s₂ := (s₁.setA .a0 (s₁.a .a5)).next
  have ha₅ : s₁.a .a5 = data := by simpa [s₁, State.next, State.setA] using hdata
  have hgot : GotPass s.mem p.codeStart data (s.a .sp) n 0 s₂ := by
    refine ⟨⟨?_,?_,?_⟩,congrArg (· + 1) hpc₁,?_,Relocated.start ..⟩
    · simpa [s₂, State.next, State.setA] using ha₅
    · simp [s₂, s₁, State.next, State.setA]
    · simp [s₂, s₁, State.next, State.setA]
    · rw [wordAt_zero, ← ha₅]
      simp [s₂, State.next, State.setA]
  obtain ⟨t,hst,ht⟩ := hgot.finish (p := p) im (Nat.zero_le n)
  obtain ⟨u,htu,hpc',hbased,hmem⟩ := ht.finish (p := p) im (Nat.zero_le m)
  refine ⟨u,?_,hpc',hbased,hmem,fun k hk => hmem.tables im hk⟩
  refine p.exec hpc (i := .lea p.codeStart .a6) rfl (t := s₁) rfl ?_
  refine p.exec hpc₁ (i := .move (.a .a5) (.a .a0)) rfl (t := s₂) rfl ?_
  exact hst.trans htu

/-- An image moved to code base 0x10000000 and data base 0xA0000000, with one data
pointer and one relocated word that holds a code address. -/
def movedImage : Memory :=
  store32 (store32 (store32 (fun _ => 0) 0xA0000000 0x80000010) 0xA0000008 0x80000020)
    0xA0000020 0x00000100

def movedPlacement : Placement where
  here := 0x10000002
  codeStart := 0x10000000
  layout := fun i => 0x10000000 + BitVec.ofNat 32 (4 * i)
  layout_inj := by
    intro i hi j hj h
    bv_omega

def movedStart : State where
  d := fun _ => 0
  a := fun r => if r = .a5 then 0xA0000000 else if r = .sp then 0x20000000 else 0
  n := false
  z := false
  pc := 6
  mem := movedImage

theorem loader_reaches_main_moved :
    ∃ t, Reaches movedPlacement.code movedStart t ∧ t.pc = main ∧
      load32 t.mem 0xA0000000 = 0xA0000010 ∧ load32 t.mem 0xA0000020 = 0x10000100 := by
  have hdata : movedStart.a .a5 = 0xA0000000 := rfl
  obtain ⟨t,hreach,hpc,-,hmem,-⟩ := loader_reaches_main (p := movedPlacement) (n := 1) (m := 1) rfl
    hdata (by constructor <;> decide)
  have hgot := hmem.got 0 (by decide)
  have htarget := hmem.targets 0 (by decide)
  exact ⟨t,hreach,hpc,hgot.trans (by decide),htarget.trans (by decide)⟩

/-! ### The prologue -/

/-- The data base that `_start` computes from its own address: bit 28 tells a moved
image from one at its link address. -/
def dataBase (here : Addr) : Addr := (here &&& 0x10000000) <<< 1 ||| 0x80000000

theorem start_reaches_loader (hpc : s.pc = 0) :
    ∃ t, Reaches p.code s t ∧ t.pc = 6 ∧ t.a .a5 = dataBase p.here ∧ t.a .sp = s.a .sp ∧
      t.mem = s.mem := by
  let s₁ := (s.setA .a0 p.here).next
  have hpc₁ : s₁.pc = 1 := congrArg (· + 1) hpc
  let s₂ := (s₁.write (s₁.a .a0) (.d .d0)).next
  have hpc₂ : s₂.pc = 2 := congrArg (· + 1) hpc₁
  let s₃ := ((s₂.setD .d0 (s₂.d .d0 &&& 0x10000000)).test (s₂.d .d0 &&& 0x10000000)).next
  have hpc₃ : s₃.pc = 3 := congrArg (· + 1) hpc₂
  let s₄ := ((s₃.setD .d0 (s₃.d .d0 <<< 1)).test (s₃.d .d0 <<< 1)).next
  have hpc₄ : s₄.pc = 4 := congrArg (· + 1) hpc₃
  let s₅ := ((s₄.setD .d0 (s₄.d .d0 ||| 0x80000000)).test (s₄.d .d0 ||| 0x80000000)).next
  have hpc₅ : s₅.pc = 5 := congrArg (· + 1) hpc₄
  refine ⟨(s₅.setA .a5 (s₅.d .d0)).next,?_,congrArg (· + 1) hpc₅,?_,?_,rfl⟩
  · refine p.exec hpc (i := .lea p.here .a0) rfl (t := s₁) rfl ?_
    refine p.exec hpc₁ (i := .move (.a .a0) (.d .d0)) rfl (t := s₂) rfl ?_
    refine p.exec hpc₂ (i := .andi 0x10000000 .d0) rfl (t := s₃) rfl ?_
    refine p.exec hpc₃ (i := .lsl 1 .d0) rfl (t := s₄) rfl ?_
    refine p.exec hpc₄ (i := .ori 0x80000000 .d0) rfl (t := s₅) rfl ?_
    exact p.exec hpc₅ (i := .move (.d .d0) (.a .a5)) rfl rfl (.refl _)
  · simp [s₅, s₄, s₃, s₂, s₁, State.next, State.test, State.write, State.setA, State.setD,
      dataBase]
  · simp [s₅, s₄, s₃, s₂, s₁, State.next, State.test, State.write, State.setA, State.setD]

/-- From the first instruction on: the data base is that of the place where the image
stands, and the loader fixes the image for it. -/
theorem start_reaches_main (hpc : s.pc = 0)
    (im : Image s.mem p.codeStart (dataBase p.here) (s.a .sp) n m) :
    ∃ t, Reaches p.code s t ∧ t.pc = main ∧
      Based p.codeStart (dataBase p.here) (s.a .sp - 4) t ∧
      Relocated s.mem t.mem p.codeStart (dataBase p.here) (s.a .sp) n n m ∧
      ∀ k < m + 2, load32 t.mem (wordAt (dataBase p.here) (n + k)) =
        load32 s.mem (wordAt (dataBase p.here) (n + k)) := by
  obtain ⟨t,hst,hpc',hdata,hsp,hmem⟩ := start_reaches_loader (p := p) hpc
  rw [← hmem, ← hsp] at im
  obtain ⟨u,htu,hmain⟩ := loader_reaches_main hpc' hdata im
  rw [hmem, hsp] at hmain
  exact ⟨u,hst.trans htu,hmain⟩

/-- The moved image is fixed from `_start` on. -/
example : ∃ t, Reaches movedPlacement.code { movedStart with pc := 0 } t ∧ t.pc = main := by
  obtain ⟨t,hreach,hpc,-⟩ := start_reaches_main (p := movedPlacement)
    (s := { movedStart with pc := 0 }) (n := 1) (m := 1) rfl (by constructor <;> decide)
  exact ⟨t,hreach,hpc⟩

end Betawise.RelocatingLoader
