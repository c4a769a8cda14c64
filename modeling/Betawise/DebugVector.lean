import Betawise.DebugDump
import Betawise.DebugNavigation

/-!
# The bus-error vector under the tool's own handler

While the tool reads and writes memory its handler's address stands in bytes 8 to 11, and
afterwards the old bytes are put back. Elsewhere nobody notices. In these four bytes the
tool shows the handler's address in place of the vector, and an edit is undone. The bytes
of the library's cursor may hold anything afterwards.
-/
namespace Betawise.DebugVector
open Os3kState ByteMemory DebugTool DebugNavigation DebugDump

/-- The operations that go through the handler. -/
inductive Operation where
  | redraw
  | edit (value mask : BitVec 8)
  | follow

/-- The state that a followed pointer leaves to the redraw. -/
def followed (m : Machine) (s : Tool) : Tool :=
  let r := readLong m (current s.toNavigation)
    { installBusErrorHandler m s with busError := false }
  let s := uninstallBusErrorHandler r.2
  if s.busError then s else dumpSetAddress r.1 s

/-- The bytes that the rows of a redraw hand to the functions that draw them. -/
def rowsShown (m : Machine) : ℕ → ℕ → Addr → Tool → List (Addr × BitVec 8 × Bool)
  | 0,_,_,_ => []
  | n + 1,row,a,s =>
    ((List.range 8).map fun i => a + BitVec.ofNat 32 i).zip
        (readRow m 8 a (addressed m row a s)).1 ++
      rowsShown m n (row + 1) (a + 8) (dumpRedrawRow m row a s)

def screenShown (m : Machine) (s : Tool) : List (Addr × BitVec 8 × Bool) :=
  rowsShown m s.rowsPerScreen 1 s.pAddress (installBusErrorHandler m s)

/-- The bytes that an operation draws, with their addresses and bus-error flags. -/
def Operation.shown (m : Machine) (s : Tool) : Operation → List (Addr × BitVec 8 × Bool)
  | .redraw => screenShown m s
  | .edit value mask => [(current s.toNavigation,(readBack m value mask s).1)]
  | .follow => if intAnd s.cursor 1 ≠ 0 then [] else screenShown m (followed m s)

/-- The address whose byte an operation means to change. -/
def Operation.target (s : Tool) : Operation → Option Addr
  | .edit _ _ => some (current s.toNavigation)
  | _ => none

variable {m : Machine} {s : Tool} {rows : ℕ}

/-! ### What is shown -/

end Betawise.DebugVector
