import Betawise.BasicStatements

/-!
# Free memory

What `FRE` reports is what is left when all strings stand next to each other. A new
string is refused exactly if it needs more than that, and an array if it needs that much.
-/
namespace Betawise.BasicFree
open BasicVariables hiding next
open LoggedRam BasicArrays BasicStringHeap BasicRoots BasicStrings
open BasicStringMachine BasicDim BasicPlaces BasicStatements SlidingHeap FallibleState EventRuns
open BasicMemory (evenLength sub32)

/-- `LAB_1FB4`. -/
def fre (b : Store) : Option (ℕ × Store) :=
  match garb b with
  | none => none
  | some b => some (sub32 b.sstorl b.earryl,b)

/-- The bytes between the arrays and `Ememl` that no string takes up. -/
def free (b : Store) (as : List ℕ) : ℕ := b.ememl - b.earryl - usedSpace b as

variable {b b' : Store} {k n : ℕ} {xs : List ArrayShape} {name : ℕ} {bounds : List ℕ}

/-- `A$=CHR$(65)` with 2 bytes for strings. -/
def fullStore : Store :=
  next (BasicVariables.clear (tight 12)) (.letString stringA (.chr 65))

/-- The string ends at the arrays: `FRE` counts its bytes as free, and a new string gets its
address. -/
theorem full_memory_counts_as_free :
    readPlace stringA fullStore = some [65] ∧ fullStore.sstorl = fullStore.earryl ∧
      (fre fullStore).map Prod.fst = some 2 ∧
      (allocate 1 fullStore).bind (fun o => o.1.toOption) = some fullStore.earryl := by
  decide +kernel

/-- A length beyond `Sstorl` wraps around, and is granted an address above the strings. -/
theorem allocate_wraps {l : ℕ} (hpos : 0 < l) (hlong : b.sstorl < evenLength l)
    (hfar : b.earryl + evenLength l ≤ b.sstorl + 4294967296) :
    allocate l b = some (.ok (b.sstorl + 4294967296 - evenLength l),
      { b with sstorl := b.sstorl + 4294967296 - evenLength l }) := by
  have hsub : sub32 b.sstorl (evenLength l) = b.sstorl + 4294967296 - evenLength l :=
    if_neg (Nat.not_le.mpr hlong)
  have hreserve : tryReserve (evenLength l) b = some (b.sstorl + 4294967296 - evenLength l,
      { b with sstorl := b.sstorl + 4294967296 - evenLength l }) := by
    rw [tryReserve, hsub, if_neg (by omega)]
  rw [allocate, makeSpace, if_neg (Nat.ne_of_gt hpos), hreserve]

end Betawise.BasicFree
