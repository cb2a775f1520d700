import ScriptWasm.CommandLine.Memory
import ScriptWasm.Main
import ScriptWasm.Program.Equality
import ScriptWasm.Proofs.Outcome
import ScriptWasm.Proofs.Typing.Tables
import ScriptWasm.Proofs.Typing.Typed
import ScriptWasm.Proofs.Code.Emission
import ScriptWasm.Proofs.Code.Resolution
import ScriptWasm.Proofs.Program.Parts
import ScriptWasm.Proofs.Code.Acceptance
import ScriptWasm.Proofs.Machine.Simulation
import ScriptWasm.Proofs.Semantics.Evaluator
import ScriptWasm.Proofs.Semantics.Words
import ScriptWasm.Proofs.Semantics.Compiled
import ScriptWasm.Proofs.Semantics.Calls
import ScriptWasm.Proofs.Semantics.Preservation
import ScriptWasm.Proofs.Semantics.Alike
import ScriptWasm.Proofs.Semantics.Soundness
import ScriptWasm.Proofs.Semantics.TaggedRuns
import ScriptWasm.Proofs.Program.Erasure
import ScriptWasm.Proofs.Program.Readable
import ScriptWasm.Proofs.Text.Spans
import ScriptWasm.Proofs.Token.Spelling
import ScriptWasm.Proofs.Token.Indentation
import ScriptWasm.Proofs.Tree.Operators
import ScriptWasm.Proofs.Tree.Expressions
import ScriptWasm.Proofs.Tree.Levels
import ScriptWasm.Proofs.Tree.Statements
import ScriptWasm.Proofs.Tree.Blocks
import ScriptWasm.Proofs.Program.Shapes
import ScriptWasm.Proofs.Text.Decimals
import ScriptWasm.Proofs.Tree.Acceptance
import ScriptWasm.Proofs.Tree.Lists
import ScriptWasm.Proofs.Tree.Operands
import ScriptWasm.Proofs.Tree.Members
import ScriptWasm.Proofs.Tree.Nodes
import ScriptWasm.Proofs.Tree.Lines
import ScriptWasm.Proofs.Tree.Nesting
import ScriptWasm.Proofs.Tree.Scripts
import ScriptWasm.Proofs.Token.Pieces
import ScriptWasm.Proofs.Program.Texts
import ScriptWasm.Proofs.Token.Rows
import ScriptWasm.Proofs.Token.Depths
import ScriptWasm.Proofs.Program.RoundTrip
import ScriptWasm.Proofs.Typing.WellTyped
import ScriptWasm.Proofs.Machine.Safety
import ScriptWasm.Proofs.Machine.Refinement
import ScriptWasm.Proofs.Tree.Lossless
import ScriptWasm.Proofs.Tree.Descent
import ScriptWasm.Proofs.Code.Lowerings
import ScriptWasm.Proofs.Program.Annotations
import ScriptWasm.Proofs.Code.Rearrangement
import ScriptWasm.Proofs.Code.Discards
import ScriptWasm.Proofs.Code.Writing
import ScriptWasm.Proofs.Code.Reserved
import ScriptWasm.Proofs.Code.Execution
import ScriptWasm.Proofs.Machine.Labels
import ScriptWasm.Proofs.Machine.WebAssembly
import ScriptWasm.Proofs.Program.BlankLines
import ScriptWasm.Proofs.Tree.Columns
import ScriptWasm.Proofs.Code.Folded.RoundTrip
import ScriptWasm.Proofs.Machine.Returns
import ScriptWasm.Proofs.Machine.Limits
import ScriptWasm.Proofs.Machine.Bounds
import ScriptWasm.Proofs.Semantics.Arguments
import ScriptWasm.Proofs.Tree.Placement
import ScriptWasm.Proofs.Program.Correspondence
import ScriptWasm.Proofs.Program.NodeByNode
import ScriptWasm.Proofs.Token.Tiling
import ScriptWasm.Proofs.Program.LineEndings
import ScriptWasm.Proofs.Program.Declarations
import ScriptWasm.Proofs.Tree.Unindents
import ScriptWasm.Proofs.Diagnostics
