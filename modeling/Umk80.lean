import Umk80.I8080Code
import Umk80.I8080Trace
import Umk80.EiShadow
import Umk80.InterruptTransparency
import Umk80.Board
import Umk80.Lib.WhileLoop
import Umk80.Machine
import Umk80.DryRun
import Umk80.MachineCycle
import Umk80.CycleShape
import Umk80.ShownCycles
import Umk80.DisplayIntegrator
import Umk80.I8080Cost
import Umk80.DisplayRuns
import Umk80.Brightness
import Umk80.FadeOut
import Umk80.Asm.Expr
import Umk80.Asm.Statement
import Umk80.Asm.Assembler
import Umk80.Asm.Effects
import Umk80.Asm.Fixpoint
import Umk80.Disasm
import Umk80.Asm.Plain
import Umk80.Asm.Spelling
import Umk80.Asm.RoundTrip
import Umk80.I8080Step
import Umk80.InstructionLength
import Umk80.Interrupts
import Umk80.Lib.Overlay
import Umk80.MemoryLaw
import Umk80.Psw
import Umk80.RomLaw
import Umk80.DisplayIndependence
import Umk80.IndexSafety
import Umk80.Lib.WriteOnce
import Umk80.Listing.Umkrom
import Umk80.Listing.Verification
import Umk80.Asm.Encoding
import Umk80.Asm.Grammar
import Umk80.Asm.Accepted
import Umk80.Asm.SourceLine
import Umk80.Asm.Data
import Umk80.Asm.Literals
import Umk80.Listing.Union
import Umk80.Cli.IntelHex
import Umk80.Lib.Relaxation
import Umk80.Asm.Convergence
import Umk80.Cli.HexWriter
import Umk80.Cli.HexReader
import Umk80.Lib.Budget
import Umk80.RunCycles
import Umk80.HalfStepped
import Umk80.Cli.DoRun
import Umk80.Lib.Carries
import Umk80.MultiByte
import Umk80.DisplayClock
import Umk80.DisplayOverflow
import Umk80.FlagFrame
import Umk80.Ports
import Umk80.Lib.TimedRuns
import Umk80.Isa.BoardView
import Umk80.Isa.Refinement
import Umk80.Monitor.Arithmetic
import Umk80.Monitor.Buffer
import Umk80.Monitor.Params
import Umk80.Monitor.Prompt
import Umk80.Monitor.PowerOn
import Umk80.Monitor.Ranges
