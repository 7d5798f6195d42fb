import FrontEnd.Lowering.Session
import FrontEnd.Main
import FrontEnd.Proofs.Lowering.Language
import FrontEnd.Proofs.Lowering.Module
import FrontEnd.Proofs.Tree.Simulation
import FrontEnd.Tree.Forest
import FrontEnd.Proofs.Tree.DepthFirst
import FrontEnd.Proofs.Tree.BreadthFirst
import FrontEnd.Proofs.Tree.Spot
import FrontEnd.Proofs.Tree.Copy
import FrontEnd.Proofs.Tree.Built
import FrontEnd.Proofs.Tree.Reached
import FrontEnd.Proofs.Lowering.Stop
import FrontEnd.Proofs.Lowering.Turn
import FrontEnd.Proofs.Lowering.Session
import FrontEnd.Proofs.Data.ValueTree
import FrontEnd.Proofs.Json.ReadsBack
import FrontEnd.Proofs.Syntax.Expression
import FrontEnd.Proofs.Syntax.SourceTree
import FrontEnd.Proofs.Syntax.Tolerance
import FrontEnd.Proofs.Lowering.Positions
import FrontEnd.Proofs.Lowering.Parts
import FrontEnd.Proofs.CommandLine.Documents
import FrontEnd.Proofs.CommandLine.Verdicts
import FrontEnd.Proofs.CommandLine.Agreement
import FrontEnd.Proofs.CommandLine.Constants
import FrontEnd.Proofs.Lowering.Occurrence
import FrontEnd.Proofs.Lowering.ReadBack
import FrontEnd.Proofs.Tree.Visits
import FrontEnd.Proofs.Tree.Lasting
import FrontEnd.Proofs.Diagnostic.Colors
import FrontEnd.Proofs.Tree.Full
import FrontEnd.Proofs.Diagnostic.Layout
import FrontEnd.Proofs.Lowering.Kinds
import FrontEnd.Proofs.Lowering.TypeText
import FrontEnd.Proofs.Lowering.Records
import FrontEnd.Proofs.Diagnostic.Pointing
