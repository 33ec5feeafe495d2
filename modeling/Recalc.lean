import Recalc.Text.Classes
import Recalc.Decimal.Basic
import Recalc.Decimal.Shortest
import Recalc.Json.Value
import Recalc.Json.Reader
import Recalc.Limits
import Recalc.Formula.Token
import Recalc.Error
import Recalc.Formula.Tree
import Recalc.Formula.Parse
import Recalc.Formula.Ast
import Recalc.Program.Basic
import Recalc.Registry.Basic
import Recalc.Registry.Graph
import Recalc.Registry.Update
import Recalc.Registry.Evaluate
import Recalc.Registry.Lookup
import Recalc.Registry.Store
import Recalc.Session
import Recalc.Proofs.Lowering
import Recalc.Proofs.Walk
import Recalc.Proofs.Meaning
import Recalc.Proofs.Coherence
import Recalc.Proofs.Representation
import Recalc.Proofs.Assignment
import Recalc.Proofs.Order
import Recalc.Proofs.Topological
import Recalc.Proofs.Snapshot
import Recalc.Proofs.Guards
import Recalc.Proofs.Registration
import Recalc.Proofs.Freshness
import Recalc.Proofs.Refinement
import Recalc.Proofs.Grammar
import Recalc.Proofs.ParseSteps
import Recalc.Proofs.Reading
import Recalc.Proofs.ShortestChain
import Recalc.Proofs.Removal
import Recalc.Proofs.NestingLimit
import Recalc.Proofs.DepthCounter
import Recalc.Proofs.StackDepth
import Recalc.Proofs.Lexemes
import Recalc.Proofs.Arena
import Recalc.Proofs.Binding
import Recalc.Proofs.FloatLiterals
import Recalc.Proofs.StackWalk
import Recalc.Proofs.Stored
import Recalc.Proofs.StoredCalls
import Recalc.Proofs.StoredReads
