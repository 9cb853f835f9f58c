import Propositions.Deduction
import Propositions.ProofValidity
import Propositions.Loops

/-!
# The deduction theorem

`remove_assumption` turns a proof of `C` from `gamma` and then `psi` into a proof of `psi -> C`
from `gamma`, one original line at a time. The invariant of its loop is `Converted`: after the
original lines `done`, the lines written are valid from `gamma` alone, and the mapping names, for
each original line `k`, a written line proving `psi -> φₖ`. One lemma per branch of the loop body
shows that the branch keeps the invariant; `foldlM_invariant` carries it through the whole loop.
The result passes the assertions of `remove_assumption` again, so the function can discharge every
assumption in turn, and it has one line for each assumption line of `psi` and three for every
other line. `prove_by_way_of_contradiction` then appends four lines to what `remove_assumption`
returns.
-/

namespace Propositions

section Conversion

variable {gamma : List Formula} {psi : Formula} {rules : Finset InferenceRule}
  {done newLines lines : List Line} {mapping : List Nat} {line : Line}

/-- What the loop of `remove_assumption` keeps true after the original lines `done`, of the lines
written so far and of `mapping`. -/
structure Converted (gamma : List Formula) (rules : Finset InferenceRule) (psi : Formula)
    (done : List Line) (state : List Line × List Nat) : Prop where
  /-- The lines written are valid from `gamma` alone. -/
  valid : LinesValid gamma rules state.1
  /-- The mapping has one entry per original line. -/
  length : state.2.length = done.length
  /-- The entry of an original line `φ` is a written line proving `psi -> φ`. -/
  proves : ∀ k formula, formulaAt done k = some formula →
    ∃ m, state.2[k]? = some m ∧ formulaAt state.1 m = some (.binary .implies psi formula)
  /-- The last written line proves `psi ->` the last original line. -/
  last : state.1.getLast?.map Line.formula =
    done.getLast?.map fun line => .binary .implies psi line.formula

/-- Before the first line, nothing is written and the mapping is empty. -/
theorem converted_nil : Converted gamma rules psi [] ([], []) :=
  ⟨linesValid_nil, rfl, fun k formula found => by simp [formulaAt] at found, rfl⟩

/-- Writing valid lines whose last proves `psi -> φ`, and recording its index for the original
line `φ`, keeps the invariant. -/
theorem Converted.extend (converted : Converted gamma rules psi done (newLines, mapping))
    (grows : newLines <+: lines) (valid : LinesValid gamma rules lines)
    (last : lines.getLast?.map Line.formula = some (.binary .implies psi line.formula)) :
    Converted gamma rules psi (done ++ [line]) (lines, mapping ++ [lines.length - 1]) := by
  obtain ⟨more, rfl⟩ := grows
  refine ⟨valid, by simp [converted.length], fun k formula found => ?_, by simpa using last⟩
  by_cases earlier : k < done.length
  · rw [formulaAt_append_left earlier] at found
    obtain ⟨m, entry, proved⟩ := converted.proves k formula found
    have bound : k < mapping.length := converted.length ▸ earlier
    exact ⟨m, by rw [List.getElem?_append_left bound, entry], formulaAt_append_of_some proved⟩
  · have here : k = done.length := by
      have := lt_length_of_formulaAt found
      simp at this
      omega
    subst here
    simp only [formulaAt_append_length, Option.some.injEq] at found
    subst found
    refine ⟨_, by rw [← converted.length, List.getElem?_concat_length], formulaAt_last last⟩

/-- An assumption line of `psi` becomes `psi -> psi` by `I0`. -/
theorem removeAssumptionLine_reflexive (proof : Proof)
    (converted : Converted gamma rules psi done (newLines, mapping)) (hasI0 : I0 ∈ rules) :
    ∃ state, removeAssumptionLine proof psi (newLines, mapping) (.assumption psi) = some state ∧
      Converted gamma rules psi (done ++ [.assumption psi]) state := by
  simp only [removeAssumptionLine, Line.formula, Line.isAssumption, and_self, if_true,
    Option.pure_def, Option.bind_eq_bind, Option.some_bind, Option.some.injEq, exists_eq_left']
  exact converted.extend (List.prefix_append _ _)
    (converted.valid.snoc (lineValid_instance hasI0 (i0_instance psi))) (by simp)

/-- Another assumption line, or a line of an assumptionless rule, that is valid from `gamma`
alone is kept and weakened to `psi -> φ` by `I1` and Modus Ponens. -/
theorem removeAssumptionLine_weakened (proof : Proof)
    (converted : Converted gamma rules psi done (newLines, mapping))
    (notPsi : ¬(line.formula = psi ∧ line.isAssumption = true))
    (weakens : line.isAssumption = true ∨ line.rule.any (·.assumptions.length == 0) = true)
    (lineOk : LineValid gamma rules newLines line) (hasI1 : I1 ∈ rules) (hasMP : MP ∈ rules) :
    ∃ state, removeAssumptionLine proof psi (newLines, mapping) line = some state ∧
      Converted gamma rules psi (done ++ [line]) state := by
  simp only [removeAssumptionLine, if_neg notPsi, if_pos weakens, Option.pure_def,
    Option.bind_eq_bind, Option.some_bind, Option.some.injEq, exists_eq_left']
  have kept := converted.valid.snoc lineOk
  have weakening := kept.snoc (lineValid_instance hasI1 (i1_instance line.formula psi))
  have weakened := weakening.snoc
    (lineValid_mp hasMP (formulaAt_written_second_last _ _) (formulaAt_written_last _))
  exact converted.extend (by simp only [List.append_assoc]; exact List.prefix_append _ _)
    weakened (by simp)

/-- A Modus Ponens line from lines `j` and `k` becomes `D` and two Modus Ponens lines from the
lines the mapping records for `k` and `j`. -/
theorem removeAssumptionLine_distributed (proof : Proof)
    (converted : Converted gamma rules psi done (newLines, mapping)) {phiI phiJ : Formula}
    {j k : Nat} (readJ : formulaAt proof.lines j = some phiJ)
    (provedJ : formulaAt done j = some phiJ)
    (provedK : formulaAt done k = some (.binary .implies phiJ phiI)) (hasD : D ∈ rules)
    (hasMP : MP ∈ rules) :
    ∃ state, removeAssumptionLine proof psi (newLines, mapping) (.derived phiI MP [j, k]) =
        some state ∧ Converted gamma rules psi (done ++ [.derived phiI MP [j, k]]) state := by
  obtain ⟨mappingK, entryK, provesK⟩ := converted.proves k _ provedK
  obtain ⟨mappingJ, entryJ, provesJ⟩ := converted.proves j _ provedJ
  have twoPremises : (MP.assumptions.length == 0) = false := rfl
  have lookedJ : proof.lines[j]?.map Line.formula = some phiJ := readJ
  simp only [removeAssumptionLine, Line.formula, Line.isAssumption, Line.rule, Line.assumptions,
    Bool.false_eq_true, and_false, if_false, false_or, Option.any_some, twoPremises, lookedJ,
    entryK, entryJ, Option.pure_def, Option.bind_eq_bind, Option.some_bind, Option.some.injEq,
    exists_eq_left']
  have distribution := converted.valid.snoc (lineValid_instance hasD (d_instance psi phiJ phiI))
  have distributed := distribution.snoc
    (lineValid_mp hasMP (formulaAt_append_of_some provesK) (formulaAt_written_last _))
  have concluded := distributed.snoc
    (lineValid_mp hasMP (formulaAt_append_of_some (formulaAt_append_of_some provesJ))
      (formulaAt_written_last _))
  exact converted.extend (by simp only [List.append_assoc]; exact List.prefix_append _ _)
    concluded (by simp)

/-- One pass of the loop keeps the invariant, for every original line valid after the lines
before it, when the proof uses only Modus Ponens and assumptionless rules. -/
theorem removeAssumptionLine_step {proof : Proof}
    (converted : Converted gamma rules psi done (newLines, mapping))
    (isPrefix : done ++ [line] <+: proof.lines)
    (lineValid : LineValid (gamma ++ [psi]) proof.rules done line)
    (rulesShape : ∀ rule ∈ proof.rules, rule = MP ∨ rule.assumptions = [])
    (included : proof.rules ⊆ rules) (hasMP : MP ∈ rules) (hasI0 : I0 ∈ rules)
    (hasI1 : I1 ∈ rules) (hasD : D ∈ rules) :
    ∃ state, removeAssumptionLine proof psi (newLines, mapping) line = some state ∧
      Converted gamma rules psi (done ++ [line]) state := by
  cases line with
  | assumption formula =>
    by_cases same : formula = psi
    · subst same
      exact removeAssumptionLine_reflexive proof converted hasI0
    · have inGamma : formula ∈ gamma := by simpa [LineValid, same] using lineValid
      exact removeAssumptionLine_weakened proof converted (by simp [Line.formula, same])
        (by simp [Line.isAssumption]) inGamma hasI1 hasMP
  | derived formula rule cited =>
    obtain ⟨member, premises, found, specializes⟩ := lineValid
    have citedLength := length_of_mapM found
    rcases rulesShape rule member with rfl | noPremises
    · obtain ⟨antecedent, rfl⟩ := eq_of_mp_instance specializes
      obtain ⟨j, k, rfl⟩ := List.length_eq_two.mp citedLength.symm
      obtain ⟨provedJ, provedK⟩ := mapM_formulaAt_pair.mp found
      obtain ⟨rest, whole⟩ := isPrefix
      have readJ : formulaAt proof.lines j = some antecedent := by
        rw [← whole]
        exact formulaAt_append_of_some (formulaAt_append_of_some provedJ)
      exact removeAssumptionLine_distributed proof converted readJ provedJ provedK hasD hasMP
    · have premisesEmpty : premises = [] := by
        simpa [noPremises] using InferenceRule.length_assumptions_of_isSpecializationOf specializes
      subst premisesEmpty
      obtain rfl : cited = [] := List.length_eq_zero.mp citedLength.symm
      exact removeAssumptionLine_weakened proof converted (by simp [Line.isAssumption])
        (by simp [Line.rule, noPremises]) ⟨included member, [], rfl, specializes⟩ hasI1 hasMP

/-- The loop of `remove_assumption` over every line of a valid proof from `gamma` and `psi` does
not raise, and ends with the invariant over the whole proof. -/
theorem removeAssumption_loop {proof : Proof}
    (valid : LinesValid (gamma ++ [psi]) proof.rules proof.lines)
    (rulesShape : ∀ rule ∈ proof.rules, rule = MP ∨ rule.assumptions = []) :
    ∃ state, proof.lines.foldlM (removeAssumptionLine proof psi) ([], []) = some state ∧
      Converted gamma (proof.rules ∪ {MP, I0, I1, D}) psi proof.lines state :=
  foldlM_invariant _ converted_nil fun _ _ _ isPrefix converted => by
    apply removeAssumptionLine_step converted isPrefix (valid.line_of_prefix isPrefix) rulesShape
      Finset.subset_union_left <;>
    simp only [Finset.mem_union, Finset.mem_insert, Finset.mem_singleton, true_or, or_true]

end Conversion

/-- The test of `remove_assumption` and `prove_by_way_of_contradiction` that every rule is Modus
Ponens or has no assumptions passes for such rules. -/
theorem decide_rulesShape {rules : Finset InferenceRule}
    (rulesShape : ∀ rule ∈ rules, rule = MP ∨ rule.assumptions = []) :
    decide (∀ rule ∈ rules, rule = MP ∨ rule.assumptions.length = 0) = true :=
  decide_eq_true fun rule member => (rulesShape rule member).imp_right List.length_eq_zero.mpr

/-- The rules `remove_assumption` adds are Modus Ponens or assumptionless, so its result passes
the same test. -/
theorem rulesShape_union {rules : Finset InferenceRule}
    (rulesShape : ∀ rule ∈ rules, rule = MP ∨ rule.assumptions = []) :
    ∀ rule ∈ rules ∪ {MP, I0, I1, D}, rule = MP ∨ rule.assumptions = [] := by
  intro rule member
  simp only [Finset.mem_union, Finset.mem_insert, Finset.mem_singleton] at member
  rcases member with member | rfl | rfl | rfl | rfl
  · exact rulesShape rule member
  · exact .inl rfl
  all_goals exact .inr rfl

/-- Under its assertions, `remove_assumption` returns a proof of `psi -> C` from `gamma` by the
rules of the proof and `MP`, `I0`, `I1` and `D`, whose lines are valid and end with
`psi -> C`. -/
theorem removeAssumption_eq {proof : Proof} {gamma : List Formula} {psi : Formula}
    (valid : proof.isValid = true)
    (assumptionsSplit : proof.statement.assumptions = gamma ++ [psi])
    (rulesShape : ∀ rule ∈ proof.rules, rule = MP ∨ rule.assumptions = []) :
    ∃ lines, removeAssumption proof =
        some ⟨⟨gamma, .binary .implies psi proof.statement.conclusion⟩,
          proof.rules ∪ {MP, I0, I1, D}, lines⟩ ∧
      LinesValid gamma (proof.rules ∪ {MP, I0, I1, D}) lines ∧
      lines.getLast?.map Line.formula = some (.binary .implies psi proof.statement.conclusion) := by
  obtain ⟨last, linesValid⟩ := (Proof.isValid_iff _).mp valid
  rw [assumptionsSplit] at linesValid
  obtain ⟨state, looped, converted⟩ := removeAssumption_loop linesValid rulesShape
  refine ⟨state.1, ?_, converted.valid, ?_⟩
  · simp only [removeAssumption, assumptionsSplit, List.getLast?_concat, valid,
      decide_rulesShape rulesShape, Bool.and_self, if_true, List.dropLast_concat, looped,
      Option.bind_eq_bind, Option.some_bind]
  · rw [converted.last]
    simpa using congrArg (Option.map (Formula.binary .implies psi)) last

/-- The deduction theorem. Take any valid proof of `C` from `gamma` and then `psi` whose rules are
all Modus Ponens or assumptionless: `remove_assumption` returns a valid proof of `psi -> C` from
`gamma`, by the proof's rules and `MP`, `I0`, `I1` and `D`, which again are all Modus Ponens or
assumptionless. -/
theorem removeAssumption_valid {proof : Proof} {gamma : List Formula} {psi : Formula}
    (valid : proof.isValid = true)
    (assumptionsSplit : proof.statement.assumptions = gamma ++ [psi])
    (rulesShape : ∀ rule ∈ proof.rules, rule = MP ∨ rule.assumptions = []) :
    ∃ result, removeAssumption proof = some result ∧ result.isValid = true ∧
      result.statement = ⟨gamma, .binary .implies psi proof.statement.conclusion⟩ ∧
      result.rules = proof.rules ∪ {MP, I0, I1, D} ∧
      ∀ rule ∈ result.rules, rule = MP ∨ rule.assumptions = [] := by
  obtain ⟨lines, computed, linesValid, last⟩ :=
    removeAssumption_eq valid assumptionsSplit rulesShape
  refine ⟨_, computed, (Proof.isValid_iff _).mpr ⟨last, linesValid⟩, rfl, rfl,
    fun rule member => ?_⟩
  simp only [Finset.mem_union, Finset.mem_insert, Finset.mem_singleton] at member
  rcases member with member | rfl | rfl | rfl | rfl
  · exact rulesShape rule member
  · exact .inl rfl
  all_goals exact .inr rfl

/-- Removing `p` from the Modus Ponens proof of `q` from `p -> q` and `p` gives a valid proof. -/
theorem removeAssumption_valid_modusPonens :
    Proof.isValid ⟨⟨[.binary .implies (.var .p) (.var .q), .var .p], .var .q⟩, {MP},
      [.assumption (.var .p), .assumption (.binary .implies (.var .p) (.var .q)),
        .derived (.var .q) MP [0, 1]]⟩ = true ∧
      ∃ result, removeAssumption ⟨⟨[.binary .implies (.var .p) (.var .q), .var .p], .var .q⟩, {MP},
        [.assumption (.var .p), .assumption (.binary .implies (.var .p) (.var .q)),
          .derived (.var .q) MP [0, 1]]⟩ = some result ∧ result.isValid = true :=
  ⟨by decide, (removeAssumption_valid (by decide)
    (show _ = [.binary .implies (.var .p) (.var .q)] ++ [.var .p] from rfl) (by decide)).imp
      fun _ result => ⟨result.1, result.2.1⟩⟩

/-- `remove_assumption` accepts what it returns: applied once for each assumption after `gamma`,
last first, it discharges them all and leaves a valid proof from `gamma` of the chain
`φ₁ -> (φ₂ -> ... -> C)`, by the proof's rules and `MP`, `I0`, `I1` and `D`. -/
theorem removeAssumption_iterate {gamma : List Formula} (removed : List Formula) :
    ∀ {proof : Proof}, proof.isValid = true →
      proof.statement.assumptions = gamma ++ removed →
      (∀ rule ∈ proof.rules, rule = MP ∨ rule.assumptions = []) →
      ∃ result, (fun p : Option Proof => p.bind removeAssumption)^[removed.length] (some proof) =
          some result ∧ result.isValid = true ∧
        result.statement = ⟨gamma, removed.foldr (.binary .implies) proof.statement.conclusion⟩ ∧
        result.rules ⊆ proof.rules ∪ {MP, I0, I1, D} := by
  induction removed using List.reverseRecOn with
  | nil =>
    intro proof valid assumptionsSplit _
    rw [List.append_nil] at assumptionsSplit
    exact ⟨proof, rfl, valid, by rw [← assumptionsSplit]; rfl, Finset.subset_union_left⟩
  | append_singleton removed psi discharged =>
    intro proof valid assumptionsSplit rulesShape
    obtain ⟨lines, computed, linesValid, last⟩ :=
      removeAssumption_eq valid (assumptionsSplit.trans (List.append_assoc _ _ _).symm) rulesShape
    let removedOnce : Proof := ⟨⟨gamma ++ removed, .binary .implies psi proof.statement.conclusion⟩,
      proof.rules ∪ {MP, I0, I1, D}, lines⟩
    obtain ⟨result, iterated, resultValid, statement, rules⟩ :=
      @discharged removedOnce ((Proof.isValid_iff _).mpr ⟨last, linesValid⟩) rfl
        (rulesShape_union rulesShape)
    refine ⟨result, ?_, resultValid, by rw [statement, List.foldr_append]; rfl, ?_⟩
    · rw [List.length_append, List.length_singleton, Function.iterate_succ_apply,
        Option.some_bind, computed, iterated]
    · rwa [Finset.union_assoc, Finset.union_self] at rules

/-- Removing both assumptions of the Modus Ponens proof of `q` gives a valid proof of
`(p -> q) -> (p -> q)` from no assumptions. -/
theorem removeAssumption_iterate_modusPonens :
    let proof : Proof := ⟨⟨[.binary .implies (.var .p) (.var .q), .var .p], .var .q⟩, {MP},
      [.assumption (.var .p), .assumption (.binary .implies (.var .p) (.var .q)),
        .derived (.var .q) MP [0, 1]]⟩
    proof.isValid = true ∧ ∃ result,
      (fun p : Option Proof => p.bind removeAssumption)^[2] (some proof) = some result ∧
        result.isValid = true ∧ result.statement = ⟨[], .binary .implies
          (.binary .implies (.var .p) (.var .q)) (.binary .implies (.var .p) (.var .q))⟩ :=
  ⟨by decide, (removeAssumption_iterate [.binary .implies (.var .p) (.var .q), .var .p]
    (by decide) rfl (by decide)).imp fun _ result => ⟨result.1, result.2.1, result.2.2.1⟩⟩

/-- Whether `remove_assumption` writes `psi -> psi` for the line: an assumption line of `psi`. -/
def isPsiAssumption (psi : Formula) (line : Line) : Bool :=
  decide (line.formula = psi ∧ line.isAssumption = true)

/-- One pass of the loop of `remove_assumption` writes one line for an assumption line of `psi`
and three for any other line. -/
theorem removeAssumptionLine_length {proof : Proof} {psi : Formula} {newLines : List Line}
    {mapping : List Nat} {line : Line} {state : List Line × List Nat}
    (stepped : removeAssumptionLine proof psi (newLines, mapping) line = some state) :
    state.1.length = newLines.length + if isPsiAssumption psi line then 1 else 3 := by
  unfold removeAssumptionLine at stepped
  dsimp only at stepped
  by_cases psiLine : line.formula = psi ∧ line.isAssumption = true
  · rw [if_pos psiLine] at stepped
    rw [show isPsiAssumption psi line = true from decide_eq_true psiLine, if_pos rfl,
      ← Option.some.inj stepped, List.length_append, List.length_singleton]
  · rw [if_neg psiLine] at stepped
    rw [show isPsiAssumption psi line = false from decide_eq_false psiLine,
      if_neg Bool.false_ne_true]
    by_cases weakens : line.isAssumption = true ∨ line.rule.any (·.assumptions.length == 0) = true
    · rw [if_pos weakens] at stepped
      simp only [Option.some_bind, ← Option.some.inj stepped, List.length_append,
        List.length_singleton]
    · rw [if_neg weakens] at stepped
      split at stepped
      · obtain ⟨_, _, stepped⟩ := Option.bind_eq_some.mp stepped
        obtain ⟨_, _, stepped⟩ := Option.bind_eq_some.mp stepped
        obtain ⟨_, _, stepped⟩ := Option.bind_eq_some.mp stepped
        simp only [Option.some_bind, ← Option.some.inj stepped, List.length_append,
          List.length_singleton]
      · exact Option.noConfusion stepped

/-- The loop of `remove_assumption` writes, after the lines it starts from, three lines for each
original line, less two for each assumption line of `psi`. -/
theorem foldlM_removeAssumptionLine_length {proof : Proof} {psi : Formula} :
    ∀ {lines : List Line} {start state : List Line × List Nat},
      lines.foldlM (removeAssumptionLine proof psi) start = some state →
        state.1.length + 2 * lines.countP (isPsiAssumption psi) =
          start.1.length + 3 * lines.length
  | [], _, _, looped => by cases Option.some.inj looped; rfl
  | line :: lines, _, _, looped => by
    obtain ⟨next, stepped, looped⟩ := Option.bind_eq_some.mp looped
    have written := removeAssumptionLine_length stepped
    have rest := foldlM_removeAssumptionLine_length looped
    rw [List.countP_cons, List.length_cons]
    split_ifs at written ⊢ <;> omega

/-- `remove_assumption` writes one line for each assumption line of its last assumption `psi`,
`psi -> psi` by `I0`, and three for every other line, so three per original line less two per
assumption line of `psi`: its proof grows at most threefold. -/
theorem removeAssumption_lines_length {proof result : Proof} {psi : Formula}
    (lastAssumption : proof.statement.assumptions.getLast? = some psi)
    (returned : removeAssumption proof = some result) :
    result.lines.length + 2 * proof.lines.countP (isPsiAssumption psi) =
      3 * proof.lines.length := by
  rw [removeAssumption, lastAssumption] at returned
  dsimp only at returned
  split at returned
  · obtain ⟨⟨newLines, mapping⟩, looped, returned⟩ := Option.bind_eq_some.mp returned
    rw [← Option.some.inj returned]
    exact (foldlM_removeAssumptionLine_length looped).trans (Nat.zero_add _)
  · exact Option.noConfusion returned

/-- Removing `p` from the three-line Modus Ponens proof writes seven lines. -/
theorem removeAssumption_lines_length_modusPonens :
    let proof : Proof := ⟨⟨[.binary .implies (.var .p) (.var .q), .var .p], .var .q⟩, {MP},
      [.assumption (.var .p), .assumption (.binary .implies (.var .p) (.var .q)),
        .derived (.var .q) MP [0, 1]]⟩
    proof.statement.assumptions.getLast? = some (.var .p) ∧
      ∃ result, removeAssumption proof = some result ∧ result.lines.length = 7 := by
  intro proof
  obtain ⟨result, returned⟩ :=
    Option.isSome_iff_exists.mp (by decide : (removeAssumption proof).isSome = true)
  have counted := @removeAssumption_lines_length proof result (.var .p) rfl returned
  have psiLines : proof.lines.countP (isPsiAssumption (.var .p)) = 1 := by decide
  exact ⟨rfl, result, returned, by rw [psiLines] at counted; exact Nat.add_right_cancel counted⟩

/-- Take any valid proof of `~(p->p)` whose last assumption is `~phi` and whose rules are all
Modus Ponens or assumptionless: `prove_by_way_of_contradiction` returns a valid proof of `phi`
from the other assumptions, by the proof's rules and `MP`, `I0`, `I1`, `D` and `N`. -/
theorem proveByWayOfContradiction_valid {proof : Proof} {gamma : List Formula} {phi : Formula}
    (valid : proof.isValid = true)
    (absurdity : proof.statement.conclusion = .not (.binary .implies (.var .p) (.var .p)))
    (assumptionsSplit : proof.statement.assumptions = gamma ++ [.not phi])
    (rulesShape : ∀ rule ∈ proof.rules, rule = MP ∨ rule.assumptions = []) :
    ∃ result, proveByWayOfContradiction proof = some result ∧ result.isValid = true ∧
      result.statement = ⟨gamma, phi⟩ ∧ result.rules = proof.rules ∪ {MP, I0, I1, D, N} := by
  obtain ⟨lines, computed, linesValid, last⟩ :=
    removeAssumption_eq valid assumptionsSplit rulesShape
  rw [absurdity] at computed last
  simp only [proveByWayOfContradiction, assumptionsSplit, List.getLast?_concat, valid, absurdity,
    decide_rulesShape rulesShape, decide_True, Bool.and_self, if_true, computed,
    Option.bind_eq_bind, Option.some_bind, Option.some.injEq, exists_eq_left']
  have hasMP : MP ∈ proof.rules ∪ {MP, I0, I1, D} ∪ {MP, I0, I1, D, N} :=
    Finset.mem_union_right _ (Finset.mem_insert_self _ _)
  have hasI0 : I0 ∈ proof.rules ∪ {MP, I0, I1, D} ∪ {MP, I0, I1, D, N} :=
    Finset.mem_union_right _ (Finset.mem_insert_of_mem (Finset.mem_insert_self _ _))
  have hasN : N ∈ proof.rules ∪ {MP, I0, I1, D} ∪ {MP, I0, I1, D, N} :=
    Finset.mem_union_right _ (by simp only [Finset.mem_insert, Finset.mem_singleton, or_true])
  have deduced : LinesValid gamma (proof.rules ∪ {MP, I0, I1, D} ∪ {MP, I0, I1, D, N}) lines :=
    linesValid.mono (List.Subset.refl _) Finset.subset_union_left
  have contraposition := deduced.snoc
    (lineValid_instance hasN (n_instance phi (.binary .implies (.var .p) (.var .p))))
  have contraposed := contraposition.snoc
    (lineValid_mp hasMP (formulaAt_append_of_some (formulaAt_last last)) (formulaAt_written_last _))
  have reflexive := contraposed.snoc
    (lineValid_instance hasI0 (i0_instance (.var .p)))
  have concluded := reflexive.snoc
    (lineValid_mp hasMP (formulaAt_written_last _)
      (formulaAt_append_of_some (formulaAt_written_last _)))
  refine ⟨(Proof.isValid_iff _).mpr ⟨getLast?_map_formula_append _, concluded⟩, trivial, ?_⟩
  have absorbed :
      ({MP, I0, I1, D} : Finset InferenceRule) ∪ {MP, I0, I1, D, N} = {MP, I0, I1, D, N} :=
    Finset.union_eq_right.mpr (by simp only [Finset.insert_subset_iff, Finset.mem_insert,
      Finset.mem_singleton, true_or, or_true, and_self, Finset.singleton_subset_iff])
  rw [Finset.union_assoc, absorbed]

/-- A proof of `~(p -> p)` from itself and `~q` becomes a valid proof of `q`. -/
theorem proveByWayOfContradiction_valid_absurd :
    Proof.isValid ⟨⟨[.not (.binary .implies (.var .p) (.var .p)), .not (.var .q)],
      .not (.binary .implies (.var .p) (.var .p))⟩, ∅,
      [.assumption (.not (.binary .implies (.var .p) (.var .p)))]⟩ = true ∧
      ∃ result, proveByWayOfContradiction ⟨⟨[.not (.binary .implies (.var .p) (.var .p)),
        .not (.var .q)], .not (.binary .implies (.var .p) (.var .p))⟩, ∅,
        [.assumption (.not (.binary .implies (.var .p) (.var .p)))]⟩ = some result ∧
        result.isValid = true :=
  ⟨by decide, (proveByWayOfContradiction_valid (by decide) rfl
    (show _ = [Formula.not (.binary .implies (.var .p) (.var .p))] ++ [Formula.not (.var .q)]
      from rfl)
      (by decide)).imp fun _ result => ⟨result.1, result.2.1⟩⟩

end Propositions
