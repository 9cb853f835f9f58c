import Propositions.AxiomaticSystems

/-!
# Proof manipulation maneuvers

The functions of `deduction.py`. Each takes valid proofs and returns a new proof built from
their lines; none changes its input. Python's assertions are the guards, and a failed assertion
is `none`. Line references are absolute positions, so every index the source computes from
`len(new_lines)` is computed here from the length of the lines written so far, in the same order.
-/

namespace Propositions

/-- `prove_corollary`: append the specialized `conditional` axiom `antecedent -> consequent` and a
Modus Ponens line from the last line of the proof and that axiom. -/
def proveCorollary (antecedentProof : Proof) (consequent : Formula) (conditional : InferenceRule) :
    Option Proof :=
  if antecedentProof.isValid &&
      (InferenceRule.mk [] (.binary .implies antecedentProof.statement.conclusion consequent)).isSpecializationOf
        conditional then
    let antecedent := antecedentProof.statement.conclusion
    let newLines := antecedentProof.lines
    let newLines := newLines ++ [.derived (.binary .implies antecedent consequent) conditional []]
    let newLines := newLines ++ [.derived consequent MP [newLines.length - 2, newLines.length - 1]]
    some ⟨⟨antecedentProof.statement.assumptions, consequent⟩,
      antecedentProof.rules ∪ {MP, conditional}, newLines⟩
  else none

/-- The loop body of `combine_proofs` over a line of the second proof: an assumption line is
kept, and a derived line cites the same lines `shift` places further on. -/
def shiftLine (shift : Nat) : Line → Line
  | .assumption formula => .assumption formula
  | .derived formula rule assumptions => .derived formula rule (assumptions.map (· + shift))

/-- `combine_proofs`: the lines of the first proof, the re-indexed lines of the second, the
specialized `double_conditional` axiom `antecedent1 -> (antecedent2 -> consequent)`, and two
Modus Ponens lines. -/
def combineProofs (antecedent1Proof antecedent2Proof : Proof) (consequent : Formula)
    (doubleConditional : InferenceRule) : Option Proof :=
  if antecedent1Proof.isValid && antecedent2Proof.isValid &&
      antecedent1Proof.statement.assumptions = antecedent2Proof.statement.assumptions &&
      antecedent1Proof.rules = antecedent2Proof.rules &&
      (InferenceRule.mk [] (.binary .implies antecedent1Proof.statement.conclusion
        (.binary .implies antecedent2Proof.statement.conclusion consequent))).isSpecializationOf
          doubleConditional then
    let a1 := antecedent1Proof.statement.conclusion
    let a2 := antecedent2Proof.statement.conclusion
    let newLines := antecedent1Proof.lines
    let shift := newLines.length
    let newLines := newLines ++ antecedent2Proof.lines.map (shiftLine shift)
    let idxA1 := shift - 1
    let idxA2 := newLines.length - 1
    let axiomFormula := Formula.binary .implies a1 (.binary .implies a2 consequent)
    let newLines := newLines ++ [.derived axiomFormula doubleConditional []]
    let idxAxiom := newLines.length - 1
    let newLines := newLines ++ [.derived (.binary .implies a2 consequent) MP [idxA1, idxAxiom]]
    let idxIntermediate := newLines.length - 1
    let newLines := newLines ++ [.derived consequent MP [idxA2, idxIntermediate]]
    some ⟨⟨antecedent1Proof.statement.assumptions, consequent⟩,
      antecedent1Proof.rules ∪ {MP, doubleConditional}, newLines⟩
  else none

/-- The body of the second loop of `remove_assumption` on one original line, given the lines
written so far and `mapping`, whose `i`-th entry is the index of the written line proving
`psi -> φᵢ`. An assumption line of `psi` becomes `psi -> psi` by `I0`; another assumption line,
or a line of an assumptionless rule, is kept and weakened by `I1`; a Modus Ponens line from
lines `j` and `k` becomes the distribution gadget of `D` over the lines `mapping[k]` and
`mapping[j]`. -/
def removeAssumptionLine (proof : Proof) (psi : Formula) :
    List Line × List Nat → Line → Option (List Line × List Nat)
  | (newLines, mapping), line => do
    let phiI := line.formula
    let newLines ←
      if phiI = psi ∧ line.isAssumption then
        pure (newLines ++ [.derived (.binary .implies psi psi) I0 []])
      else if line.isAssumption ∨ line.rule.any (·.assumptions.length == 0) then
        let newLines := newLines ++ [line]
        let newLines := newLines ++
          [.derived (.binary .implies phiI (.binary .implies psi phiI)) I1 []]
        pure (newLines ++
          [.derived (.binary .implies psi phiI) MP [newLines.length - 2, newLines.length - 1]])
      else
        match line.assumptions with
        | some [j, k] => do
          let phiJ ← proof.lines[j]?.map Line.formula
          let newLines := newLines ++
            [.derived (.binary .implies (.binary .implies psi (.binary .implies phiJ phiI))
              (.binary .implies (.binary .implies psi phiJ) (.binary .implies psi phiI))) D []]
          let mappingK ← mapping[k]?
          let newLines := newLines ++
            [.derived (.binary .implies (.binary .implies psi phiJ) (.binary .implies psi phiI)) MP
              [mappingK, newLines.length - 1]]
          let mappingJ ← mapping[j]?
          pure (newLines ++ [.derived (.binary .implies psi phiI) MP [mappingJ, newLines.length - 1]])
        | _ => none
    pure (newLines, mapping ++ [newLines.length - 1])

/-- `remove_assumption`, the deduction theorem: from a proof of `conclusion` from `gamma` and
then `psi`, a proof of `psi -> conclusion` from `gamma`. The source first runs a loop whose lines
it discards before any use; that loop raises nothing, and only the second loop is modelled. -/
def removeAssumption (proof : Proof) : Option Proof :=
  match proof.statement.assumptions.getLast? with
  | none => none
  | some psi =>
    if proof.isValid && decide (∀ rule ∈ proof.rules, rule = MP ∨ rule.assumptions.length = 0) then do
      let gamma := proof.statement.assumptions.dropLast
      let (newLines, _) ← proof.lines.foldlM (removeAssumptionLine proof psi) ([], [])
      some ⟨⟨gamma, .binary .implies psi proof.statement.conclusion⟩,
        proof.rules ∪ {MP, I0, I1, D}, newLines⟩
    else none

/-- `prove_from_opposites`: `combine_proofs` of the proof of the negation and the proof of the
affirmation through the explosion axiom `I2`. -/
def proveFromOpposites (proofOfAffirmation proofOfNegation : Proof) (conclusion : Formula) :
    Option Proof :=
  if proofOfAffirmation.isValid && proofOfNegation.isValid &&
      proofOfAffirmation.statement.assumptions = proofOfNegation.statement.assumptions &&
      Formula.not proofOfAffirmation.statement.conclusion = proofOfNegation.statement.conclusion &&
      proofOfAffirmation.rules = proofOfNegation.rules then
    combineProofs proofOfNegation proofOfAffirmation conclusion I2
  else none

/-- `prove_by_way_of_contradiction`: remove the last assumption `~formula` from a proof of
`~(p->p)`, then derive `formula` through `N`, `I0` and two Modus Ponens lines. -/
def proveByWayOfContradiction (proof : Proof) : Option Proof :=
  match proof.statement.assumptions.getLast? with
  | some (.not phi) =>
    if proof.isValid &&
        proof.statement.conclusion = .not (.binary .implies (.var .p) (.var .p)) &&
        decide (∀ rule ∈ proof.rules, rule = MP ∨ rule.assumptions.length = 0) then do
      let proofWithRemoved ← removeAssumption proof
      let newLines := proofWithRemoved.lines
      let idxRemovedPhi := newLines.length - 1
      let fPP := Formula.binary .implies (.var .p) (.var .p)
      let nSpecialization := Formula.binary .implies (.binary .implies (.not phi) (.not fPP))
        (.binary .implies fPP phi)
      let newLines := newLines ++ [.derived nSpecialization N []]
      let idxNAxiom := newLines.length - 1
      let newLines := newLines ++ [.derived (.binary .implies fPP phi) MP [idxRemovedPhi, idxNAxiom]]
      let idxCondPhi := newLines.length - 1
      let newLines := newLines ++ [.derived fPP I0 []]
      let idxPP := newLines.length - 1
      let newLines := newLines ++ [.derived phi MP [idxPP, idxCondPhi]]
      some ⟨⟨proofWithRemoved.statement.assumptions, phi⟩,
        proofWithRemoved.rules ∪ {MP, I0, I1, D, N}, newLines⟩
    else none
  | _ => none

end Propositions
