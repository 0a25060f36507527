import ScopedMacros.Main
import ScopedMacros.Proofs.Aliases
import ScopedMacros.Proofs.Assembly
import ScopedMacros.Proofs.Balance
import ScopedMacros.Proofs.Bindings
import ScopedMacros.Proofs.CallSite
import ScopedMacros.Proofs.Condition
import ScopedMacros.Proofs.Contents
import ScopedMacros.Proofs.Coverage
import ScopedMacros.Proofs.Cycles
import ScopedMacros.Proofs.DefinedValue
import ScopedMacros.Proofs.DefinitionLine
import ScopedMacros.Proofs.Derivation
import ScopedMacros.Proofs.Descent
import ScopedMacros.Proofs.DescentCall
import ScopedMacros.Proofs.DescentExpr
import ScopedMacros.Proofs.DescentLine
import ScopedMacros.Proofs.DescentTree
import ScopedMacros.Proofs.DirectiveMarker
import ScopedMacros.Proofs.Evaluator
import ScopedMacros.Proofs.ExactArithmetic
import ScopedMacros.Proofs.Excerpt
import ScopedMacros.Proofs.Expander
import ScopedMacros.Proofs.Failure
import ScopedMacros.Proofs.Flattening
import ScopedMacros.Proofs.Inclusion
import ScopedMacros.Proofs.Joining
import ScopedMacros.Proofs.LogicalLine
import ScopedMacros.Proofs.MarkerErasure
import ScopedMacros.Proofs.MarkerFile
import ScopedMacros.Proofs.ParameterRenaming
import ScopedMacros.Proofs.Passthrough
import ScopedMacros.Proofs.PlainScopes
import ScopedMacros.Proofs.Positions
import ScopedMacros.Proofs.Predefinition
import ScopedMacros.Proofs.Quoting
import ScopedMacros.Proofs.Recognition
import ScopedMacros.Proofs.Row
import ScopedMacros.Proofs.Scanned
import ScopedMacros.Proofs.Scoping
import ScopedMacros.Proofs.Selection
import ScopedMacros.Proofs.ShownValue
import ScopedMacros.Proofs.Simulation
import ScopedMacros.Proofs.SoundTree
import ScopedMacros.Proofs.SourceMap
import ScopedMacros.Proofs.Substitution
import ScopedMacros.Proofs.Unplacing
import ScopedMacros.Proofs.Unused
import ScopedMacros.Proofs.WalkedText
import ScopedMacros.Proofs.Walker
import ScopedMacros.Proofs.Walking
import ScopedMacros.Proofs.WellFormed
