import ActorScript.Main
import ActorScript.Proofs.ArrayAddressing
import ActorScript.Proofs.Comparisons
import ActorScript.Proofs.CompoundAssignments
import ActorScript.Proofs.Dialect.Extension
import ActorScript.Proofs.Dispatch
import ActorScript.Proofs.Encoding
import ActorScript.Proofs.Exactness
import ActorScript.Proofs.Extrema
import ActorScript.Proofs.Grammar.Progress
import ActorScript.Proofs.Initialisation
import ActorScript.Proofs.IntegerFolding
import ActorScript.Proofs.NearestNames
import ActorScript.Proofs.OperandKinds
import ActorScript.Proofs.OperandOrder
import ActorScript.Proofs.Parameters
import ActorScript.Proofs.Printing.Shortest
import ActorScript.Proofs.ReturnTypes
import ActorScript.Proofs.SourceSpans
import ActorScript.Proofs.StateOwnership
import ActorScript.Proofs.StringLiterals
import ActorScript.Proofs.SyntaxErrors
import ActorScript.Proofs.Truncation
import ActorScript.Proofs.TypeNames
import ActorScript.Proofs.WellFormed
