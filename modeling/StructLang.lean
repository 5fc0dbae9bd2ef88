import StructLang.Main
import StructLang.Proofs.Builder.Collisions
import StructLang.Proofs.Builder.Finished
import StructLang.Proofs.Builder.Histories
import StructLang.Proofs.Builder.Sessions
import StructLang.Proofs.Checking.Mismatches
import StructLang.Proofs.Checking.Order
import StructLang.Proofs.Checking.Places
import StructLang.Proofs.Checking.Repetition
import StructLang.Proofs.Checking.Restoration
import StructLang.Proofs.Checking.Siblings
import StructLang.Proofs.Checking.Stricter
import StructLang.Proofs.Document.Calls
import StructLang.Proofs.Document.Interface
import StructLang.Proofs.Document.Scoping
import StructLang.Proofs.Document.Truth
import StructLang.Proofs.Document.TypeAgreement
import StructLang.Proofs.Document.Variables
import StructLang.Proofs.Extent.Arrangement
import StructLang.Proofs.Extent.Finite
import StructLang.Proofs.Loading.Failure
import StructLang.Proofs.Lowering.Returning
import StructLang.Proofs.Machine.Memory
import StructLang.Proofs.Meaning.Execution
import StructLang.Proofs.Meaning.Expressions
import StructLang.Proofs.Meaning.Functions
import StructLang.Proofs.Meaning.Modules
import StructLang.Proofs.Ir.Completeness
import StructLang.Proofs.Ir.Constants
import StructLang.Proofs.Ir.Paths
import StructLang.Proofs.Builder.Links
import StructLang.Proofs.Document.Compiled
import StructLang.Proofs.Machine.Checks
import StructLang.Proofs.Machine.Programs
import StructLang.Proofs.Machine.Simulation
import StructLang.Proofs.Machine.StructAssignment
import StructLang.Proofs.Meaning.Preservation
import StructLang.Proofs.Parse.Acceptance
import StructLang.Proofs.Parse.Levels
import StructLang.Proofs.Parse.Nodes
import StructLang.Proofs.Parse.Positions
import StructLang.Proofs.Parse.PrintedExprs
import StructLang.Proofs.Parse.RoundTrip
import StructLang.Proofs.Parse.Termination
import StructLang.Proofs.Scoping.Snapshots
import StructLang.Proofs.Text.Carets
import StructLang.Proofs.Token.Respacing
