import Residual.Config.File
import Residual.Memo.Equations
import Residual.Proofs.Arena.References
import Residual.Proofs.Grammar.Awaiting
import Residual.Proofs.Grammar.Confinement
import Residual.Proofs.Grammar.Congruence
import Residual.Proofs.Grammar.Delta.Agreement
import Residual.Proofs.Grammar.Delta.Collapse
import Residual.Proofs.Grammar.Failures
import Residual.Proofs.Grammar.Legibility
import Residual.Proofs.Grammar.NormalForm.Irreducible
import Residual.Proofs.Grammar.NormalForm.RoundLimits
import Residual.Proofs.Grammar.PassLimits
import Residual.Proofs.Grammar.Questions
import Residual.Proofs.Grammar.Schedules
import Residual.Proofs.Grammar.Staleness
import Residual.Proofs.Grammar.Strata
import Residual.Proofs.Grammar.Totality
import Residual.Proofs.Grammar.Transparency
import Residual.Proofs.Grammar.UndefinedReferences
import Residual.Proofs.Lexicon.Partition
import Residual.Proofs.Memo.AcyclicEvaluation
import Residual.Proofs.Memo.StoredValues
import Residual.Proofs.Pratt.Expression
import Residual.Proofs.Pratt.Progress
