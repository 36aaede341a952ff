import ScriptEngine.CommandLine
import ScriptEngine.Main
import ScriptEngine.Proofs.Execution.Problems
import ScriptEngine.Proofs.Native.Callbacks
import ScriptEngine.Proofs.Execution.Reentry
import ScriptEngine.Proofs.Execution.StaticHeights
import ScriptEngine.Session
import ScriptEngine.Proofs.Machine.Work
import ScriptEngine.Proofs.Machine.Moves
import ScriptEngine.Proofs.Machine.Alignment
import ScriptEngine.Proofs.Machine.Coordination
import ScriptEngine.Proofs.Execution.ParallelStacks
import ScriptEngine.Proofs.Machine.Calls
import ScriptEngine.Proofs.Execution.ClosureBodies
import ScriptEngine.Proofs.Compiler.Counters
import ScriptEngine.Proofs.Execution.CountedLoops
import ScriptEngine.Proofs.Execution.IteratedLoops
import ScriptEngine.Proofs.Execution.FunctionIsolation
import ScriptEngine.Proofs.Store.Guises
import ScriptEngine.Proofs.Store.Unfolding
import ScriptEngine.Proofs.Store.Graphs
import ScriptEngine.Proofs.Store.Cloning
import ScriptEngine.Proofs.Machine.Guises
import ScriptEngine.Proofs.Machine.Twins
import ScriptEngine.Proofs.Execution.ClosureCalls
import ScriptEngine.Proofs.Execution.Unwinding
import ScriptEngine.Proofs.Store.Scope
import ScriptEngine.Proofs.Execution.Equality
import ScriptEngine.Proofs.Execution.Independence
import ScriptEngine.Proofs.Execution.Aliasing
import ScriptEngine.Proofs.Compiler.InTurn
import ScriptEngine.Proofs.Execution.SelectiveImports
import ScriptEngine.Proofs.Execution.Exports
import ScriptEngine.Proofs.Text.Bytes
import ScriptEngine.Proofs.Text.Pieces
import ScriptEngine.Proofs.Text.Quoting
import ScriptEngine.Proofs.Wire.Items
import ScriptEngine.Proofs.Wire.Reports
import ScriptEngine.Proofs.Plans.Plan
import ScriptEngine.Proofs.Plans.Building
import ScriptEngine.Proofs.Plans.Drafts
import ScriptEngine.Proofs.Compiler.WellFormed
import ScriptEngine.Proofs.Plans.Writing
import ScriptEngine.Proofs.Plans.Leaps
import ScriptEngine.Proofs.Plans.Sites
import ScriptEngine.Proofs.Plans.Exits
import ScriptEngine.Proofs.Plans.Nodes
import ScriptEngine.Proofs.Plans.NodeTables
import ScriptEngine.Proofs.Native.Iteration
import ScriptEngine.Proofs.Native.Sizes
import ScriptEngine.Proofs.Native.Standard
import ScriptEngine.Proofs.Machine.Waiting
import ScriptEngine.Proofs.Execution.NativeFailures
import ScriptEngine.Proofs.Execution.CallChains
import ScriptEngine.Proofs.Program.Listing
import ScriptEngine.Proofs.Report.Rendering
import ScriptEngine.Proofs.Store.Chains
import ScriptEngine.Proofs.Machine.Dicts
import ScriptEngine.Proofs.Compiler.Unplaced
import ScriptEngine.Proofs.Execution.Positions
import ScriptEngine.Proofs.Text.Keys
import ScriptEngine.Proofs.Config.Nearest
import ScriptEngine.Proofs.Native.Decompositions
import ScriptEngine.Proofs.Execution.FrameWalks
