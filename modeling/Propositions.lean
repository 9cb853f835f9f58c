import Propositions.Syntax
import Propositions.Proofs
import Propositions.AxiomaticSystems
import Propositions.ProofValidity
import Propositions.Loops
import Propositions.Deduction
import Propositions.Combination
import Propositions.DeductionTheorem
import Propositions.Semantics
import Propositions.AllModels
import Propositions.Decision
import Propositions.Synthesis
import Propositions.Soundness
