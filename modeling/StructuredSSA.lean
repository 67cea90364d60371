import StructuredSSA.Program.Listing
import StructuredSSA.Proofs.Body.Candidates
import StructuredSSA.Proofs.Body.Incomplete
import StructuredSSA.Proofs.Body.LoopPhi
import StructuredSSA.Proofs.Body.Repeat
import StructuredSSA.Proofs.Body.Settlement
import StructuredSSA.Proofs.Exec.Whole
import StructuredSSA.Proofs.Program.Params
import StructuredSSA.Proofs.Source.Agreement
import StructuredSSA.Proofs.Source.Branches
import StructuredSSA.Proofs.Source.Defined
import StructuredSSA.Proofs.Source.Nesting
import StructuredSSA.Proofs.Source.Preserves
import StructuredSSA.Proofs.Source.Scope
