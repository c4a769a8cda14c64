import Betawise.BasicArrays
import Betawise.BasicDim
import Betawise.BasicExpressionParse
import Betawise.BasicFree
import Betawise.BasicListing
import Betawise.BasicMemory
import Betawise.BasicOutput
import Betawise.BasicPlaces
import Betawise.BasicProgram
import Betawise.BasicReserve
import Betawise.BasicRoots
import Betawise.BasicStatements
import Betawise.BasicStringHeap
import Betawise.BasicStringMachine
import Betawise.BasicStringValues
import Betawise.BasicStrings
import Betawise.BasicVariables
import Betawise.ByteMemory
import Betawise.CircularLines
import Betawise.DebugDump
import Betawise.DebugHexEntry
import Betawise.DebugInvoke
import Betawise.DebugNavigation
import Betawise.DebugRepaint
import Betawise.DebugScreen
import Betawise.DebugVector
import Betawise.DisplayMode
import Betawise.FallibleState
import Betawise.FirmwareText
import Betawise.FocusRuns
import Betawise.FolderProbe
import Betawise.GlyphTable
import Betawise.KeyboardInput
import Betawise.M68k
import Betawise.MixedRadix
import Betawise.NumberSyntax
import Betawise.Os3kState
import Betawise.Os3kTerminal
import Betawise.RelocatingLoader
import Betawise.RubOut
import Betawise.SlidingHeap
import Betawise.TextTape
import Betawise.WordTable
