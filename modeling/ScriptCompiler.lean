import ScriptCompiler.Text.Hex
import ScriptCompiler.Text.Visible
import ScriptCompiler.Text.Quoted
import ScriptCompiler.Text.Names
import ScriptCompiler.Text.Record
import ScriptCompiler.Number.Double
import ScriptCompiler.Number.Shortest
import ScriptCompiler.Json.Value
import ScriptCompiler.Json.Reader
import ScriptCompiler.Error
import ScriptCompiler.Source.Node
import ScriptCompiler.Source.Unit
import ScriptCompiler.Source.Exchange
import ScriptCompiler.Ir.Ty
import ScriptCompiler.Ir.Instr
import ScriptCompiler.Ir.Assembly
import ScriptCompiler.Ir.Builder
import ScriptCompiler.Ir.Listing
import ScriptCompiler.Ir.Check
import ScriptCompiler.Target
import ScriptCompiler.Catalog
import ScriptCompiler.Lowering.Kind
import ScriptCompiler.Lowering.Convert
import ScriptCompiler.Lowering.Word
import ScriptCompiler.Lowering.Storage
import ScriptCompiler.Lowering.Linkage
import ScriptCompiler.Lowering.State
import ScriptCompiler.Lowering.Operator
import ScriptCompiler.Lowering.Access
import ScriptCompiler.Lowering.Call
import ScriptCompiler.Lowering.Expr
import ScriptCompiler.Lowering.Assign
import ScriptCompiler.Lowering.Stmt
import ScriptCompiler.Lowering.Generate
import ScriptCompiler.Compile
import ScriptCompiler.Build.Path
import ScriptCompiler.Build.Disk
import ScriptCompiler.Build.Command
import ScriptCompiler.Build.CommandLine
import ScriptCompiler.Build.Run
import ScriptCompiler.Main
import ScriptCompiler.Proofs.Exchange.RoundTrip
import ScriptCompiler.Proofs.Exchange.Respelling
import ScriptCompiler.Proofs.Names
import ScriptCompiler.Proofs.Verdict
import ScriptCompiler.Proofs.Stage.Basic
import ScriptCompiler.Proofs.Stage.Sound
import ScriptCompiler.Proofs.Stage.Run
import ScriptCompiler.Proofs.Stage.Values
import ScriptCompiler.Proofs.Stage.Expr
import ScriptCompiler.Proofs.Stage.Blocks
import ScriptCompiler.Proofs.Stage.Assign
import ScriptCompiler.Proofs.Stage.Stmt
import ScriptCompiler.Proofs.Stage.Unit
import ScriptCompiler.Proofs.Stage.Code
import ScriptCompiler.Proofs.Stage.Bodies
import ScriptCompiler.Proofs.Stage.Emits
import ScriptCompiler.Proofs.ControlFlow
import ScriptCompiler.Proofs.Dominance
import ScriptCompiler.Proofs.Machine
import ScriptCompiler.Proofs.Numeric.Source
import ScriptCompiler.Proofs.Stage.Straight
import ScriptCompiler.Proofs.Numeric.Operators
import ScriptCompiler.Proofs.Numeric.Expr
import ScriptCompiler.Proofs.Numeric.Simulation
import ScriptCompiler.Proofs.Numeric.Assign
import ScriptCompiler.Proofs.Numeric.Lowering
import ScriptCompiler.Proofs.Numeric.Correct
import ScriptCompiler.Proofs.Symbols
import ScriptCompiler.Proofs.Cleanup
import ScriptCompiler.Proofs.Observed.Source
import ScriptCompiler.Proofs.Observed.Runtime
import ScriptCompiler.Proofs.Observed.Records
import ScriptCompiler.Proofs.Observed.Assign
import ScriptCompiler.Proofs.Observed.Correct
import ScriptCompiler.Proofs.Access.Run
import ScriptCompiler.Proofs.Access.Code
import ScriptCompiler.Proofs.Access.Steps
import ScriptCompiler.Proofs.Access.Expr
import ScriptCompiler.Proofs.Access.Variables
import ScriptCompiler.Proofs.Access.Assign
import ScriptCompiler.Proofs.Access.Stmt
import ScriptCompiler.Proofs.Access.Unit
import ScriptCompiler.Proofs.Access.Past
import ScriptCompiler.Proofs.Access.Watch
import ScriptCompiler.Proofs.Access.Recording
import ScriptCompiler.Proofs.Confinement
import ScriptCompiler.Proofs.Linkage
import ScriptCompiler.Proofs.Links
import ScriptCompiler.Proofs.Externals
import ScriptCompiler.Proofs.Calls
import ScriptCompiler.Proofs.Kinds
import ScriptCompiler.Proofs.Layout
import ScriptCompiler.Proofs.TypedMemory
import ScriptCompiler.Proofs.Clashes
import ScriptCompiler.Proofs.Accepted
import ScriptCompiler.Proofs.Initialization
import ScriptCompiler.Proofs.Provenance
import ScriptCompiler.Proofs.Ownership
import ScriptCompiler.Proofs.Leaks
import ScriptCompiler.Proofs.Paths.History
import ScriptCompiler.Proofs.Paths.Forward
import ScriptCompiler.Proofs.Paths.Lookup
import ScriptCompiler.Proofs.Paths.Reads
import ScriptCompiler.Proofs.ReadBack
import ScriptCompiler.Proofs.Conversion.Meaning
import ScriptCompiler.Proofs.Conversion.Folding
import ScriptCompiler.Proofs.Conversion.Transport
import ScriptCompiler.Proofs.Bookkeeping
import ScriptCompiler.Proofs.Reach
import ScriptCompiler.Proofs.Frugal.Text
import ScriptCompiler.Proofs.Frugal.Unit
import ScriptCompiler.Proofs.Visibility
import ScriptCompiler.Proofs.Stores
import ScriptCompiler.Proofs.Arguments
import ScriptCompiler.Proofs.Unambiguous
import ScriptCompiler.Proofs.Build.Outputs
import ScriptCompiler.Proofs.Build.Imports
