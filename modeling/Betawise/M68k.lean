import Mathlib.Logic.Function.Basic
import Mathlib.Logic.Relation
import Betawise.ByteMemory

/-!
# A small-step machine for a subset of the 68000

Long-word instructions over two data registers and five address registers, with
the flags N and Z, which are all that `beq`, `bne` and `bmi` read. The program is
a list of instructions apart from the memory; `layout` gives each instruction its
address, which `bsr` pushes and `rts` looks up.
-/
namespace Betawise.M68k
open ByteMemory

inductive DReg where
  | d0
  | d1
  deriving DecidableEq, Repr

inductive AReg where
  | a0
  | a1
  | a5
  | a6
  | sp
  deriving DecidableEq, Repr

inductive Operand where
  | d (r : DReg)
  | a (r : AReg)
  | indirect (r : AReg)
  | postInc (r : AReg)

/-- Branch targets are instruction numbers. `lea` holds the address its
PC-relative operand denotes. -/
inductive Instr where
  | lea (address : Addr) (r : AReg)
  | move (src dst : Operand)
  | moveq (imm : BitVec 32) (r : DReg)
  | andi (imm : BitVec 32) (r : DReg)
  | ori (imm : BitVec 32) (r : DReg)
  | lsl (count : ℕ) (r : DReg)
  | addq (imm : BitVec 32) (r : AReg)
  | add (src : AReg) (dst : DReg)
  | bclr (bit : ℕ) (r : DReg)
  | tst (r : DReg)
  | beq (target : ℕ)
  | bne (target : ℕ)
  | bmi (target : ℕ)
  | bra (target : ℕ)
  | bsr (target : ℕ)
  | jsr (target : ℕ)
  | trap
  | rts

structure State where
  d : DReg → BitVec 32
  a : AReg → Addr
  n : Bool
  z : Bool
  pc : ℕ
  mem : Memory

/-- A program with the address of each of its instructions. -/
structure Code where
  program : List Instr
  layout : ℕ → Addr
  layout_inj : ∀ i < program.length, ∀ j < program.length, layout i = layout j → i = j

def State.setD (s : State) (r : DReg) (v : BitVec 32) : State :=
  { s with d := Function.update s.d r v }

def State.setA (s : State) (r : AReg) (v : Addr) : State :=
  { s with a := Function.update s.a r v }

/-- N and Z from a result. -/
def State.test (s : State) (v : BitVec 32) : State := { s with n := v.msb, z := v == 0 }

def State.next (s : State) : State := { s with pc := s.pc + 1 }

def State.jump (s : State) (target : ℕ) : State := { s with pc := target }

/-- The value of a source operand, and the state after its post-increment. -/
def State.read (s : State) : Operand → BitVec 32 × State
  | .d r => (s.d r,s)
  | .a r => (s.a r,s)
  | .indirect r => (load32 s.mem (s.a r),s)
  | .postInc r => (load32 s.mem (s.a r),s.setA r (s.a r + 4))

/-- Only writes to address registers leave the flags alone. -/
def State.write (s : State) (v : BitVec 32) : Operand → State
  | .d r => (s.setD r v).test v
  | .a r => s.setA r v
  | .indirect r => { s with mem := store32 s.mem (s.a r) v }.test v
  | .postInc r => ({ s with mem := store32 s.mem (s.a r) v }.setA r (s.a r + 4)).test v

def State.push (s : State) (v : BitVec 32) : State :=
  { s.setA .sp (s.a .sp - 4) with mem := store32 s.mem (s.a .sp - 4) v }

/-- The instruction at an address. -/
def Code.find (c : Code) (address : Addr) : Option ℕ :=
  (List.range c.program.length).find? fun i => c.layout i == address

def exec (c : Code) (s : State) : Instr → Option State
  | .lea address r => some (s.setA r address).next
  | .move src dst => some ((s.read src).2.write (s.read src).1 dst).next
  | .moveq imm r => some ((s.setD r imm).test imm).next
  | .andi imm r => some ((s.setD r (s.d r &&& imm)).test (s.d r &&& imm)).next
  | .ori imm r => some ((s.setD r (s.d r ||| imm)).test (s.d r ||| imm)).next
  | .lsl count r => some ((s.setD r (s.d r <<< count)).test (s.d r <<< count)).next
  | .addq imm r => some (s.setA r (s.a r + imm)).next
  | .add src dst => some ((s.setD dst (s.d dst + s.a src)).test (s.d dst + s.a src)).next
  | .bclr bit r =>
    some { s.setD r (s.d r &&& ~~~(1#32 <<< bit)) with z := !(s.d r).getLsbD bit }.next
  | .tst r => some (s.test (s.d r)).next
  | .beq target => some (if s.z then s.jump target else s.next)
  | .bne target => some (if s.z then s.next else s.jump target)
  | .bmi target => some (if s.n then s.jump target else s.next)
  | .bra target => some (s.jump target)
  | .bsr target => some ((s.push (c.layout (s.pc + 1))).jump target)
  | .jsr target => some ((s.push (c.layout (s.pc + 1))).jump target)
  | .trap => none
  | .rts =>
    (c.find (load32 s.mem (s.a .sp))).map fun i => (s.setA .sp (s.a .sp + 4)).jump i

/-- One instruction; nothing happens outside the program. -/
def step (c : Code) (s : State) : Option State := (c.program[s.pc]?).bind (exec c s)

/-- Some number of instructions. -/
def Reaches (c : Code) : State → State → Prop :=
  Relation.ReflTransGen fun s t => step c s = some t

variable {c : Code} {s t u : State}

theorem Reaches.refl (s : State) : Reaches c s s := Relation.ReflTransGen.refl

theorem Reaches.trans (h : Reaches c s t) (h' : Reaches c t u) : Reaches c s u :=
  Relation.ReflTransGen.trans h h'

/-- Execute the instruction at `pc`, then go on. -/
theorem Reaches.exec {i : Instr} (hi : c.program[s.pc]? = some i) (hs : exec c s i = some t)
    (h : Reaches c t u) : Reaches c s u := by
  refine Relation.ReflTransGen.head ?_ h
  rw [step, hi]
  exact hs

theorem Code.find_layout (c : Code) {i : ℕ} (hi : i < c.program.length) :
    c.find (c.layout i) = some i := by
  rw [Code.find, List.find?_range_eq_some]
  refine ⟨by simp,List.mem_range.mpr hi,?_⟩
  intro j hj
  have hne : c.layout j ≠ c.layout i := fun he =>
    Nat.ne_of_lt hj (c.layout_inj j (Nat.lt_trans hj hi) i hi he)
  simpa using hne

end Betawise.M68k
