import Refactory.Main
import Refactory.Inquiry
import Refactory.Proofs.Tree.Precedence
import Refactory.Proofs.Interner
import Refactory.Proofs.Tree.Duplication
import Refactory.Proofs.Tree.Splicing
import Refactory.Proofs.Code.RunSearch
import Refactory.Proofs.Code.Mapping
import Refactory.Proofs.Refactoring.ElementNames
import Refactory.Proofs.Refactoring.LoopRoundTrip
import Refactory.Proofs.Refactoring.Totality
import Refactory.Proofs.Refactoring.Inversion
import Refactory.Proofs.Session
import Refactory.Proofs.Refactoring.ProjectionRoundTrip
import Refactory.Proofs.Refactoring.Involution
import Refactory.Proofs.Model.Lookup
import Refactory.Proofs.Refactoring.Placeholder
import Refactory.Proofs.Refactoring.ChainRoundTrip
import Refactory.Proofs.Grammar.Agreement
import Refactory.Proofs.Grammar.Descent
import Refactory.Proofs.Refactoring.Upheld
import Refactory.Proofs.Refactoring.Splitting
