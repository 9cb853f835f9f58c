import Propositions.AllModels
import Propositions.ProofValidity
import Propositions.Loops

/-!
# The soundness engine

The functions of `soundness.py`, a constructive proof of soundness: from a valid proof and a
model where its statement fails, find a rule the proof uses and a model where that rule fails.
The second function walks the lines in order until the first line false in the model, which is a
derived line whose cited lines are all true; the first function then carries the failure of
that line's specialization back to the general rule, through the substitution lemma
`Formula.eval_substituteVariables`. Both source functions also assert `not evaluate_inference`,
which is unwritten and returns `None`, so those assertions pass. Run on the model of a valuation
under which a valid proof's statement fails, the engine returns a rule of the proof that fails, so
a valid proof by sound rules proves a sound rule (`nonsoundRuleOfNonsoundProof_sound`).
-/

namespace Propositions

/-- The loop body of `rule_nonsoundness_from_specialization_nonsoundness` on one variable of the
general rule: its entry is the truth value in `model` of the formula the specialization map puts
in its place. A name missing from the map is Python's `KeyError`, written `none`. -/
def ruleNonsoundnessStep (specMap : SpecializationMap) (model newModel : Model) (var : Var) :
    Option Model := do
  let formulaToEval ← specMap.lookup var
  let value ← evaluate formulaToEval model
  pure (newModel.insert var value)

/-- `soundness.rule_nonsoundness_from_specialization_nonsoundness`: the model that gives each
variable of `general` the truth value, in `model`, of the formula the specialization map puts in
its place. -/
def ruleNonsoundnessFromSpecializationNonsoundness (general specialization : InferenceRule)
    (model : Model) : Option Model :=
  if specialization.isSpecializationOf general &&
      !((evaluateInference specialization model).getD false) then do
    let specMap ← general.specializationMap specialization
    general.variables.foldlM (ruleNonsoundnessStep specMap model) Model.empty
  else none

/-- The loop of `nonsound_rule_of_nonsound_proof` over the lines from `lines` on: an assumption
line must be true in the model, and the first derived line that is false returns its rule with
the model built from the line's specialization. `some none` is falling off the end of the loop,
where Python returns `None`. -/
def nonsoundLines (proof : Proof) (model : Model) :
    List Line → Option (Option (InferenceRule × Model))
  | [] => some none
  | line :: lines => do
    let isTrue ← evaluate line.formula model
    if line.isAssumption then
      if isTrue then nonsoundLines proof model lines else none
    else if !isTrue then
      let specialization ← proof.ruleForLine (proof.lines.indexOf line)
      let generalRule ← line.rule
      let badModel ←
        ruleNonsoundnessFromSpecializationNonsoundness generalRule specialization model
      some (some (generalRule, badModel))
    else nonsoundLines proof model lines

/-- `soundness.nonsound_rule_of_nonsound_proof`. The source asserts the proof is valid, and
`proof.lines.index(line)` finds the first line equal to `line`. -/
def nonsoundRuleOfNonsoundProof (proof : Proof) (model : Model) :
    Option (Option (InferenceRule × Model)) :=
  if proof.isValid && !((evaluateInference proof.statement model).getD false) then
    nonsoundLines proof model proof.lines
  else none

/-- What replaces a variable of a rule is over variables of the substituted rule. -/
theorem InferenceRule.variables_substitution_subset {rule : InferenceRule} {v : Var}
    (substitution : Var → Formula) (mem : v ∈ rule.variables) :
    (substitution v).variables ⊆ (rule.substituteVariables substitution).variables := by
  intro w inReplacement
  rcases InferenceRule.mem_variables.mp mem with
    ⟨assumption, isAssumption, inAssumption⟩ | inConclusion
  · exact InferenceRule.mem_variables.mpr (.inl ⟨_, List.mem_map_of_mem _ isAssumption,
      Formula.variables_substitution_subset substitution inAssumption inReplacement⟩)
  · exact InferenceRule.mem_variables.mpr
      (.inr (Formula.variables_substitution_subset substitution inConclusion inReplacement))

/-- One pass of the loop of `rule_nonsoundness_from_specialization_nonsoundness`, on a variable
the map names with a formula over the model's names: the variable gets that formula's truth
value in the model. -/
theorem ruleNonsoundnessStep_eq {specMap : SpecializationMap} {model newModel : Model}
    {var : Var} {formula : Formula} (looked : specMap.lookup var = some formula)
    (covers : formula.variables ⊆ model.variables) :
    ruleNonsoundnessStep specMap model newModel var =
      some (newModel.insert var (formula.eval model.valuation)) := by
  simp [ruleNonsoundnessStep, looked, evaluate_eq_some covers]

/-- For a specialization over the model's names,
`rule_nonsoundness_from_specialization_nonsoundness` returns a model over exactly the general
rule's variables, in which every formula over those variables has the truth value its
substitution instance has in `model`. -/
theorem ruleNonsoundness_spec {general specialization : InferenceRule} {model : Model}
    (specializes : specialization.isSpecializationOf general = true)
    (covers : specialization.variables ⊆ model.variables) :
    ∃ newModel, ruleNonsoundnessFromSpecializationNonsoundness general specialization model =
        some newModel ∧ newModel.variables = general.variables ∧
      ∃ substitution, general.substituteVariables substitution = specialization ∧
        ∀ formula : Formula, formula.variables ⊆ general.variables →
          evaluate formula newModel =
            some ((formula.substituteVariables substitution).eval model.valuation) := by
  obtain ⟨map, found⟩ := Option.isSome_iff_exists.mp specializes
  obtain ⟨substituted, named⟩ := InferenceRule.specializationMap_spec found
  let value (v : Var) : Bool := (map.substitution v).eval model.valuation
  have loop : ∃ newModel, general.variables.foldlM (ruleNonsoundnessStep map model) Model.empty =
      some newModel ∧ newModel.entries = general.variables.map fun v => (v, value v) :=
    foldlM_invariant
      (fun done (newModel : Model) => newModel.entries = done.map fun v => (v, value v)) rfl (by
      rintro done v newModel isPrefix built
      have fresh : v ∉ newModel.variables := by
        rw [Model.variables, built, List.map_map]
        exact fun mem => List.disjoint_of_nodup_append
          (isPrefix.sublist.nodup general.nodup_variables) (by simpa using mem)
          (List.mem_singleton_self _)
      have inGeneral : v ∈ general.variables :=
        isPrefix.subset (List.mem_append_right _ (List.mem_singleton_self _))
      have looked : map.lookup v = some (map.substitution v) := by
        obtain ⟨formula, hit⟩ := Option.isSome_iff_exists.mp (named v inGeneral)
        simp [SpecializationMap.substitution, hit]
      refine ⟨_, ruleNonsoundnessStep_eq looked
        ((substituted ▸ InferenceRule.variables_substitution_subset _ inGeneral).trans covers), ?_⟩
      show (newModel.insert v (value v)).entries = (done ++ [v]).map fun v => (v, value v)
      rw [Model.entries_insert_of_not_mem _ fresh, built, List.map_append, List.map_singleton])
  obtain ⟨newModel, folded, entries⟩ := loop
  have over : newModel.variables = general.variables := by
    simp [Model.variables, entries, Function.comp_def]
  have agree : ∀ entry ∈ newModel.entries, entry.2 = value entry.1 := fun entry inEntries => by
    obtain ⟨v, _, rfl⟩ := List.mem_map.mp (entries ▸ inEntries)
    rfl
  refine ⟨newModel, ?_, over, map.substitution, substituted, fun formula inGeneral => ?_⟩
  · rw [ruleNonsoundnessFromSpecializationNonsoundness,
      if_pos (by simp [specializes, evaluateInference]), found]
    exact folded
  · rw [evaluate_eq_some (over ▸ inGeneral), Formula.eval_substituteVariables]
    exact congrArg some (Formula.eval_congr fun v mem =>
      Model.valuation_of_agree agree (over ▸ inGeneral mem))

/-- When the substitution instance of `general` fails in `model`, `general` fails in a model where
each formula over its variables takes the value of its instance in `model`. -/
theorem fails_of_instance_fails {general : InferenceRule} {substitution : Var → Formula}
    {model newModel : Model}
    (transfers : ∀ formula : Formula, formula.variables ⊆ general.variables →
      evaluate formula newModel =
        some ((formula.substituteVariables substitution).eval model.valuation))
    (assumptionsHold : ∀ assumption ∈ (general.substituteVariables substitution).assumptions,
      evaluate assumption model = some true)
    (conclusionFails :
      evaluate (general.substituteVariables substitution).conclusion model = some false) :
    (∀ assumption ∈ general.assumptions, evaluate assumption newModel = some true) ∧
      evaluate general.conclusion newModel = some false := by
  refine ⟨fun assumption isAssumption => ?_, ?_⟩
  · rw [transfers assumption fun v mem =>
        InferenceRule.mem_variables.mpr (.inl ⟨_, isAssumption, mem⟩),
      eval_of_evaluate (assumptionsHold _ (List.mem_map_of_mem _ isAssumption))]
  · rw [transfers _ fun v mem => InferenceRule.mem_variables.mpr (.inr mem)]
    exact congrArg some (eval_of_evaluate conclusionFails)

/-- From a model where a specialization of `general` fails, its assumptions true and its conclusion
false, `rule_nonsoundness_from_specialization_nonsoundness` builds a model over exactly the
variables of `general` in which `general` fails. -/
theorem ruleNonsoundnessFromSpecializationNonsoundness_refutes
    {general specialization : InferenceRule} {model : Model}
    (specializes : specialization.isSpecializationOf general = true)
    (assumptionsHold : ∀ assumption ∈ specialization.assumptions,
      evaluate assumption model = some true)
    (conclusionFails : evaluate specialization.conclusion model = some false) :
    ∃ newModel, ruleNonsoundnessFromSpecializationNonsoundness general specialization model =
        some newModel ∧ (∀ v, v ∈ newModel.variables ↔ v ∈ general.variables) ∧
      (∀ assumption ∈ general.assumptions, evaluate assumption newModel = some true) ∧
      evaluate general.conclusion newModel = some false := by
  have covers : specialization.variables ⊆ model.variables := fun v mem => by
    rcases InferenceRule.mem_variables.mp mem with
      ⟨assumption, isAssumption, inAssumption⟩ | inConclusion
    · exact evaluate_isSome_iff.mp (by simp [assumptionsHold assumption isAssumption]) inAssumption
    · exact evaluate_isSome_iff.mp (by simp [conclusionFails]) inConclusion
  obtain ⟨newModel, found, over, substitution, rfl, transfers⟩ :=
    ruleNonsoundness_spec specializes covers
  exact ⟨newModel, found, fun v => by rw [over],
    fails_of_instance_fails transfers assumptionsHold conclusionFails⟩

/-- The rule `p / q` fails where its specialization `r / ~r` fails, at `r` true. -/
theorem ruleNonsoundnessFromSpecializationNonsoundness_refutes_negation :
    (InferenceRule.mk [.var .r] (.not (.var .r))).isSpecializationOf
        ⟨[.var .p], .var .q⟩ = true ∧
      (∀ assumption ∈ [Formula.var .r],
        evaluate assumption ⟨[(.r, true)], by decide⟩ = some true) ∧
      evaluate (.not (.var .r)) ⟨[(.r, true)], by decide⟩ = some false ∧
      ∃ newModel, ruleNonsoundnessFromSpecializationNonsoundness ⟨[.var .p], .var .q⟩
          ⟨[.var .r], .not (.var .r)⟩ ⟨[(.r, true)], by decide⟩ = some newModel ∧
        evaluate (.var .q) newModel = some false :=
  ⟨by decide, by decide, by decide,
    (ruleNonsoundnessFromSpecializationNonsoundness_refutes (by decide) (by decide) (by decide)).imp
      fun _ refutes => ⟨refutes.1, refutes.2.2.2⟩⟩

/-- `rule_nonsoundness_from_specialization_nonsoundness` carries any model of a specialization,
not only one where it fails, to a model over exactly the general rule's variables, in which each
assumption and the conclusion of the general rule have the truth value their instance has in the
given model. -/
theorem ruleNonsoundness_transfers {general specialization : InferenceRule} {model : Model}
    (specializes : specialization.isSpecializationOf general = true)
    (covers : specialization.variables ⊆ model.variables) :
    ∃ newModel, ruleNonsoundnessFromSpecializationNonsoundness general specialization model =
        some newModel ∧ newModel.variables = general.variables ∧
      general.assumptions.map (evaluate · newModel) =
        specialization.assumptions.map (evaluate · model) ∧
      evaluate general.conclusion newModel = evaluate specialization.conclusion model := by
  obtain ⟨newModel, found, over, substitution, rfl, transfers⟩ :=
    ruleNonsoundness_spec specializes covers
  refine ⟨newModel, found, over, ?_, ?_⟩
  · rw [InferenceRule.substituteVariables, List.map_map]
    refine List.map_congr_left fun assumption isAssumption => ?_
    rw [transfers assumption fun v mem =>
        InferenceRule.mem_variables.mpr (.inl ⟨_, isAssumption, mem⟩),
      Function.comp_apply, evaluate_eq_some fun v mem => covers
        (InferenceRule.mem_variables.mpr (.inl ⟨_, List.mem_map_of_mem _ isAssumption, mem⟩))]
  · rw [transfers _ fun v mem => InferenceRule.mem_variables.mpr (.inr mem),
      evaluate_eq_some fun v mem => covers (InferenceRule.mem_variables.mpr (.inr mem))]
    rfl

/-- The model making `r` false, where `r / ~r` holds, becomes one where `p / q` holds. -/
theorem ruleNonsoundness_transfers_holding :
    (InferenceRule.mk [.var .r] (.not (.var .r))).isSpecializationOf
        ⟨[.var .p], .var .q⟩ = true ∧
      (InferenceRule.mk [.var .r] (.not (.var .r))).variables ⊆
        (Model.mk [(.r, false)] (by decide)).variables ∧
      ∃ newModel, ruleNonsoundnessFromSpecializationNonsoundness ⟨[.var .p], .var .q⟩
          ⟨[.var .r], .not (.var .r)⟩ ⟨[(.r, false)], by decide⟩ = some newModel ∧
        evaluate (.var .q) newModel = some true :=
  ⟨by decide, by decide,
    (ruleNonsoundness_transfers (by decide) (by decide)).imp
      fun _ transferred => ⟨transferred.1, transferred.2.2.2.trans (by decide)⟩⟩

/-- The formulas a line cites are formulas of the lines it reads them from. -/
theorem exists_line_of_mapM_formulaAt {lines : List Line} :
    ∀ {cited : List Nat} {premises : List Formula},
      cited.mapM (formulaAt lines) = some premises →
      ∀ premise ∈ premises, ∃ line ∈ lines, line.formula = premise
  | [], _, found, _, mem => by
    obtain rfl : _ = [] := (Option.some.inj found).symm
    exact absurd mem (List.not_mem_nil _)
  | i :: cited, _, found, premise, mem => by
    simp only [List.mapM_cons, Option.bind_eq_bind, Option.bind_eq_some, Option.pure_def,
      Option.some.injEq] at found
    obtain ⟨first, atI, rest, restFound, rfl⟩ := found
    rcases List.mem_cons.mp mem with rfl | inRest
    · obtain ⟨line, atLine, rfl⟩ := Option.map_eq_some'.mp atI
      exact ⟨line, List.getElem?_mem atLine, rfl⟩
    · exact exists_line_of_mapM_formulaAt restFound premise inRest

/-- A line true in the model passes the loop of `nonsound_rule_of_nonsound_proof` on to the
next line, whether it is an assumption line or a derived one. -/
theorem nonsoundLines_cons_of_true {proof : Proof} {model : Model} {line : Line} {lines : List Line}
    (lineTrue : evaluate line.formula model = some true) :
    nonsoundLines proof model (line :: lines) = nonsoundLines proof model lines := by
  cases assumed : line.isAssumption <;> simp [nonsoundLines, lineTrue, assumed]

/-- At a valid derived line false in the model, after lines that are all true, the loop of
`nonsound_rule_of_nonsound_proof` stops: it returns the line's rule with a model over exactly that
rule's variables where the rule fails, carried back from the line's specialization. -/
theorem nonsoundLines_cons_of_false {proof : Proof} {model : Model} {done rest : List Line}
    {formula : Formula} {rule : InferenceRule} {cited : List Nat}
    (covers : ∀ line ∈ proof.lines, line.formula.variables ⊆ model.variables)
    (split : done ++ Line.derived formula rule cited :: rest = proof.lines)
    (lineValid : LineValid proof.statement.assumptions proof.rules done
      (.derived formula rule cited))
    (doneTrue : ∀ line ∈ done, evaluate line.formula model = some true)
    (lineFalse : evaluate formula model = some false) :
    ∃ newModel, nonsoundLines proof model (.derived formula rule cited :: rest) =
        some (some (rule, newModel)) ∧ (∀ v, v ∈ newModel.variables ↔ v ∈ rule.variables) ∧
      (∀ assumption ∈ rule.assumptions, evaluate assumption newModel = some true) ∧
      evaluate rule.conclusion newModel = some false := by
  obtain ⟨_, premises, read, specializes⟩ := lineValid
  have inLines : Line.derived formula rule cited ∈ proof.lines :=
    split ▸ List.mem_append_right _ (List.mem_cons_self _ _)
  have readAll : cited.mapM (formulaAt proof.lines) = some premises :=
    split ▸ mapM_formulaAt_append read
  have indexed : proof.lines[proof.lines.indexOf (Line.derived formula rule cited)]? =
      some (.derived formula rule cited) := by
    rw [List.getElem?_eq_getElem (List.indexOf_lt_length.mpr inLines), List.getElem_indexOf]
  have premiseLines := exists_line_of_mapM_formulaAt read
  have specializationCovered :
      (InferenceRule.mk premises formula).variables ⊆ model.variables := fun v mem => by
    rcases InferenceRule.mem_variables.mp mem with ⟨premise, isPremise, inPremise⟩ | inFormula
    · obtain ⟨cause, inDone, rfl⟩ := premiseLines premise isPremise
      exact covers cause (split ▸ List.mem_append_left _ inDone) inPremise
    · exact covers _ inLines inFormula
  obtain ⟨newModel, found, over, substitution, substituted, transfers⟩ :=
    ruleNonsoundness_spec specializes specializationCovered
  have fails := fails_of_instance_fails transfers
    (substituted ▸ fun premise isPremise => by
      obtain ⟨cause, inDone, rfl⟩ := premiseLines premise isPremise
      exact doneTrue cause inDone)
    (substituted ▸ lineFalse)
  refine ⟨newModel, ?_, fun v => by rw [over], fails⟩
  simp [-List.mapM, nonsoundLines, lineFalse, Line.isAssumption, Proof.ruleForLine_eq indexed,
    readAll, Line.rule, found]

/-- The loop of `nonsound_rule_of_nonsound_proof` over the lines after `done`, when every line of
`done` is true in the model and a later line is false: it returns a permitted rule and a model over
exactly that rule's variables where the rule fails. An assumption line is true, as every
assumption of the statement is, so the first false line is a derived one. -/
theorem nonsoundLines_refutes {proof : Proof} {model : Model}
    (valid : LinesValid proof.statement.assumptions proof.rules proof.lines)
    (covers : ∀ line ∈ proof.lines, line.formula.variables ⊆ model.variables)
    (assumptionsHold : ∀ assumption ∈ proof.statement.assumptions,
      evaluate assumption model = some true) :
    ∀ (rest done : List Line), done ++ rest = proof.lines →
      (∀ line ∈ done, evaluate line.formula model = some true) →
      (∃ line ∈ rest, evaluate line.formula model = some false) →
      ∃ rule newModel, nonsoundLines proof model rest = some (some (rule, newModel)) ∧
        rule ∈ proof.rules ∧ (∀ v, v ∈ newModel.variables ↔ v ∈ rule.variables) ∧
        (∀ assumption ∈ rule.assumptions, evaluate assumption newModel = some true) ∧
        evaluate rule.conclusion newModel = some false
  | [], _, _, _, ⟨_, mem, _⟩ => absurd mem (List.not_mem_nil _)
  | line :: rest, done, split, doneTrue, ⟨falseLine, isFalseLine, falseFound⟩ => by
    have lineValid : LineValid proof.statement.assumptions proof.rules done line :=
      valid.line_of_prefix ⟨rest, by rw [← split, List.append_assoc, List.singleton_append]⟩
    by_cases lineTrue : evaluate line.formula model = some true
    · rw [nonsoundLines_cons_of_true lineTrue]
      exact nonsoundLines_refutes valid covers assumptionsHold rest (done ++ [line])
        (by simpa using split)
        (List.forall_mem_append.mpr ⟨doneTrue, List.forall_mem_singleton.mpr lineTrue⟩)
        ⟨falseLine, (List.mem_cons.mp isFalseLine).resolve_left fun same => by
          rw [same, lineTrue] at falseFound; simp at falseFound, falseFound⟩
    cases line with
    | assumption formula => exact absurd (assumptionsHold formula lineValid) lineTrue
    | derived formula rule cited =>
      have evaluated := evaluate_eq_some
        (covers _ (split ▸ List.mem_append_right _ (List.mem_cons_self _ _)))
      simp only [Line.formula] at evaluated lineTrue
      obtain ⟨newModel, found, refutes⟩ := nonsoundLines_cons_of_false covers split lineValid
        doneTrue (by simpa [evaluated] using lineTrue)
      exact ⟨rule, newModel, found, lineValid.1, refutes⟩

/-- From a valid proof and a model over the variables of its lines in which the statement's
assumptions are true and its conclusion false, `nonsound_rule_of_nonsound_proof` passes its
assertions and returns a rule the proof permits, with a model over exactly that rule's variables
where the rule's assumptions are true and its conclusion false. -/
theorem nonsoundRuleOfNonsoundProof_refutes {proof : Proof} {model : Model}
    (valid : proof.isValid = true)
    (covers : ∀ line ∈ proof.lines, line.formula.variables ⊆ model.variables)
    (assumptionsHold : ∀ assumption ∈ proof.statement.assumptions,
      evaluate assumption model = some true)
    (conclusionFails : evaluate proof.statement.conclusion model = some false) :
    ∃ rule newModel, nonsoundRuleOfNonsoundProof proof model = some (some (rule, newModel)) ∧
      rule ∈ proof.rules ∧ (∀ v, v ∈ newModel.variables ↔ v ∈ rule.variables) ∧
      (∀ assumption ∈ rule.assumptions, evaluate assumption newModel = some true) ∧
      evaluate rule.conclusion newModel = some false := by
  obtain ⟨last, linesValid⟩ := (Proof.isValid_iff proof).mp valid
  obtain ⟨lastLine, isLast, proves⟩ := Option.map_eq_some'.mp last
  rw [nonsoundRuleOfNonsoundProof, if_pos (by simp [valid, evaluateInference])]
  exact nonsoundLines_refutes linesValid covers assumptionsHold proof.lines [] rfl (by simp)
    ⟨lastLine, List.mem_of_getLast?_eq_some isLast, proves ▸ conclusionFails⟩

/-- A proof of `q` from `p` by the unsound rule `p / q` fails at `p` true and `q` false, and the
engine returns that rule. -/
theorem nonsoundRuleOfNonsoundProof_refutes_unsoundRule :
    let rule : InferenceRule := ⟨[.var .p], .var .q⟩
    let proof : Proof := ⟨rule, {rule}, [.assumption (.var .p), .derived (.var .q) rule [0]]⟩
    let model : Model := ⟨[(.p, true), (.q, false)], by decide⟩
    proof.isValid = true ∧ (∀ line ∈ proof.lines, line.formula.variables ⊆ model.variables) ∧
      (∀ assumption ∈ proof.statement.assumptions, evaluate assumption model = some true) ∧
      evaluate proof.statement.conclusion model = some false ∧
      ∃ rule newModel, nonsoundRuleOfNonsoundProof proof model = some (some (rule, newModel)) ∧
        rule ∈ proof.rules :=
  ⟨by decide, by decide, by decide, by decide,
    (nonsoundRuleOfNonsoundProof_refutes (by decide) (by decide) (by decide) (by decide)).imp
      fun _ found => found.imp fun _ refutes => ⟨refutes.1, refutes.2.1⟩⟩

/-- Under its assertions, which a valid proof passes, `nonsound_rule_of_nonsound_proof` is its
loop over the lines. -/
theorem nonsoundRuleOfNonsoundProof_eq {proof : Proof} {model : Model}
    (valid : proof.isValid = true) :
    nonsoundRuleOfNonsoundProof proof model = nonsoundLines proof model proof.lines := by
  rw [nonsoundRuleOfNonsoundProof, if_pos (by simp [valid, evaluateInference])]

/-- Lines that are all true in the model pass the loop of `nonsound_rule_of_nonsound_proof` on
to the lines after them. -/
theorem nonsoundLines_append_of_true {proof : Proof} {model : Model} :
    ∀ {done : List Line} (rest : List Line),
      (∀ line ∈ done, evaluate line.formula model = some true) →
      nonsoundLines proof model (done ++ rest) = nonsoundLines proof model rest
  | [], _, _ => rfl
  | line :: done, rest, doneTrue => by
    rw [List.cons_append, nonsoundLines_cons_of_true (doneTrue line (List.mem_cons_self _ _))]
    exact nonsoundLines_append_of_true rest fun other mem =>
      doneTrue other (List.mem_cons_of_mem _ mem)

/-- What `nonsound_rule_of_nonsound_proof` does on a valid proof, in a model over its lines where
the statement's assumptions hold, whether or not the statement fails there. The call returns
`None`, falling off its loop, exactly when every line is true in the model. Otherwise it stops at
the first line that is false: that line is derived, and the call returns the line's rule with a
model over exactly the rule's variables where the rule fails. -/
theorem nonsoundRuleOfNonsoundProof_firstFalseLine {proof : Proof} {model : Model}
    (valid : proof.isValid = true)
    (covers : ∀ line ∈ proof.lines, line.formula.variables ⊆ model.variables)
    (assumptionsHold : ∀ assumption ∈ proof.statement.assumptions,
      evaluate assumption model = some true) :
    (nonsoundRuleOfNonsoundProof proof model = some none ↔
      ∀ line ∈ proof.lines, evaluate line.formula model = some true) ∧
    ∀ done line rest, proof.lines = done ++ line :: rest →
      (∀ earlier ∈ done, evaluate earlier.formula model = some true) →
      evaluate line.formula model = some false →
      ∃ formula rule cited newModel, line = .derived formula rule cited ∧
        nonsoundRuleOfNonsoundProof proof model = some (some (rule, newModel)) ∧
        rule ∈ proof.rules ∧ (∀ v, v ∈ newModel.variables ↔ v ∈ rule.variables) ∧
        (∀ assumption ∈ rule.assumptions, evaluate assumption newModel = some true) ∧
        evaluate rule.conclusion newModel = some false := by
  obtain ⟨-, linesValid⟩ := (Proof.isValid_iff proof).mp valid
  rw [nonsoundRuleOfNonsoundProof_eq valid]
  refine ⟨⟨fun ranOut line mem => ?_, fun allTrue => ?_⟩, fun done line rest split doneTrue
    lineFalse => ?_⟩
  · have evaluated := evaluate_eq_some (covers line mem)
    by_contra notTrue
    have lineFalse : evaluate line.formula model = some false := by
      simpa [evaluated] using notTrue
    obtain ⟨rule, newModel, found, -⟩ := nonsoundLines_refutes linesValid covers assumptionsHold
      proof.lines [] rfl (by simp) ⟨line, mem, lineFalse⟩
    rw [ranOut] at found
    exact absurd found (by simp)
  · rw [← List.append_nil proof.lines, nonsoundLines_append_of_true [] allTrue]
    rfl
  · have lineValid : LineValid proof.statement.assumptions proof.rules done line :=
      linesValid.line_of_prefix ⟨rest, by rw [split, List.append_assoc, List.singleton_append]⟩
    rw [split, nonsoundLines_append_of_true _ doneTrue]
    cases line with
    | assumption formula =>
      exact absurd ((assumptionsHold formula lineValid).symm.trans lineFalse) (by simp)
    | derived formula rule cited =>
      obtain ⟨newModel, found, refutes⟩ :=
        nonsoundLines_cons_of_false covers split.symm lineValid doneTrue lineFalse
      exact ⟨formula, rule, cited, newModel, rfl, found, lineValid.1, refutes⟩

/-- A proof of `q` from `p` by the rule `p / q` runs out of lines where both are true, and
stops at its second line where `q` is false. -/
theorem nonsoundRuleOfNonsoundProof_firstFalseLine_unsoundRule :
    let rule : InferenceRule := ⟨[.var .p], .var .q⟩
    let proof : Proof := ⟨rule, {rule}, [.assumption (.var .p), .derived (.var .q) rule [0]]⟩
    let model : Model := ⟨[(.p, true), (.q, true)], by decide⟩
    proof.isValid = true ∧ (∀ line ∈ proof.lines, line.formula.variables ⊆ model.variables) ∧
      (∀ assumption ∈ proof.statement.assumptions, evaluate assumption model = some true) ∧
      nonsoundRuleOfNonsoundProof proof model = some none :=
  ⟨by decide, by decide, by decide,
    (nonsoundRuleOfNonsoundProof_firstFalseLine (by decide) (by decide) (by decide)).1.mpr
      (by decide)⟩

/-- What `is_sound_inference` is to check: every valuation that makes the rule's assumptions true
makes its conclusion true. -/
def InferenceRule.Sound (rule : InferenceRule) : Prop :=
  ∀ valuation : Var → Bool, (∀ assumption ∈ rule.assumptions, assumption.eval valuation = true) →
    rule.conclusion.eval valuation = true

/-- The model over `names` that agrees with `valuation`. -/
def Model.ofValuation (names : List Var) (valuation : Var → Bool) : Model :=
  ⟨names.dedup.map fun v => (v, valuation v), by
    simpa [List.map_map, Function.comp_def] using List.nodup_dedup names⟩

/-- In the model built from a valuation, a formula over the names has its truth value under the
valuation. -/
theorem evaluate_ofValuation {names : List Var} {valuation : Var → Bool} {formula : Formula}
    (over : formula.variables ⊆ names) :
    evaluate formula (Model.ofValuation names valuation) = some (formula.eval valuation) := by
  have named : formula.variables ⊆ (Model.ofValuation names valuation).variables :=
    fun v mem => by
    simpa [Model.ofValuation, Model.variables, Function.comp_def] using over mem
  rw [evaluate_eq_some named]
  have agree : ∀ entry ∈ (Model.ofValuation names valuation).entries,
      entry.2 = valuation entry.1 := fun entry mem => by
    obtain ⟨v, _, rfl⟩ := List.mem_map.mp mem
    rfl
  exact congrArg some (Formula.eval_congr fun v mem => Model.valuation_of_agree agree (named mem))

/-- The variables of a proof's statement and of the formulas of its lines. -/
def Proof.allVariables (proof : Proof) : List Var :=
  proof.statement.variables ++ proof.lines.flatMap fun line => line.formula.variables

/-- The soundness of propositional logic, as `soundness.py` proves it. For a valid proof and any
valuation under which its statement fails, `nonsound_rule_of_nonsound_proof`, run on the model of
that valuation over the proof's variables, returns a rule of the proof and a model under whose
valuation the rule fails; so a valid proof whose rules are all sound proves a sound rule. -/
theorem nonsoundRuleOfNonsoundProof_sound {proof : Proof} (valid : proof.isValid = true) :
    (∀ valuation : Var → Bool,
      (∀ assumption ∈ proof.statement.assumptions, assumption.eval valuation = true) →
      proof.statement.conclusion.eval valuation = false →
      ∃ rule newModel,
        nonsoundRuleOfNonsoundProof proof (Model.ofValuation proof.allVariables valuation) =
          some (some (rule, newModel)) ∧ rule ∈ proof.rules ∧
        (∀ assumption ∈ rule.assumptions, assumption.eval newModel.valuation = true) ∧
        rule.conclusion.eval newModel.valuation = false) ∧
    ((∀ rule ∈ proof.rules, rule.Sound) → proof.statement.Sound) := by
  obtain ⟨last, linesValid⟩ := (Proof.isValid_iff proof).mp valid
  obtain ⟨lastLine, isLast, proves⟩ := Option.map_eq_some'.mp last
  have statementNamed : proof.statement.variables ⊆ proof.allVariables :=
    List.subset_append_left _ _
  refine (fun engine => ⟨engine, fun rulesSound valuation assumptionsTrue => ?_⟩) ?_
  · intro valuation assumptionsTrue conclusionFalse
    have covers : ∀ line ∈ proof.lines,
        line.formula.variables ⊆ (Model.ofValuation proof.allVariables valuation).variables :=
      fun line mem v named => by
      simpa [Model.ofValuation, Model.variables, Function.comp_def, Proof.allVariables] using
        Or.inr ⟨line, mem, named⟩
    have assumptionsHold : ∀ assumption ∈ proof.statement.assumptions,
        evaluate assumption (Model.ofValuation proof.allVariables valuation) = some true :=
      fun assumption isAssumption => by
      rw [evaluate_ofValuation fun v mem => statementNamed
        (InferenceRule.mem_variables.mpr (.inl ⟨_, isAssumption, mem⟩)),
        assumptionsTrue assumption isAssumption]
    have lastFalse : evaluate lastLine.formula (Model.ofValuation proof.allVariables valuation) =
        some false := by
      rw [proves, evaluate_ofValuation fun v mem => statementNamed
        (InferenceRule.mem_variables.mpr (.inr mem)), conclusionFalse]
    obtain ⟨rule, newModel, found, member, -, ruleAssumptions, ruleConclusion⟩ :=
      nonsoundLines_refutes linesValid covers assumptionsHold proof.lines [] rfl (by simp)
        ⟨lastLine, List.mem_of_getLast?_eq_some isLast, lastFalse⟩
    exact ⟨rule, newModel, (nonsoundRuleOfNonsoundProof_eq valid).trans found, member,
      fun assumption mem => eval_of_evaluate (ruleAssumptions assumption mem),
      eval_of_evaluate ruleConclusion⟩
  · by_contra conclusionFalse
    obtain ⟨rule, newModel, -, member, ruleAssumptions, ruleConclusion⟩ :=
      engine valuation assumptionsTrue (Bool.eq_false_iff.mpr conclusionFalse)
    exact Bool.false_ne_true
      (ruleConclusion.symm.trans (rulesSound rule member _ ruleAssumptions))

/-- The proof of `q` from `p` by the rule `p / q`, under the valuation making only `p` true: the
engine returns a rule of the proof that fails. -/
theorem nonsoundRuleOfNonsoundProof_sound_unsoundRule :
    let rule : InferenceRule := ⟨[.var .p], .var .q⟩
    let proof : Proof := ⟨rule, {rule}, [.assumption (.var .p), .derived (.var .q) rule [0]]⟩
    proof.isValid = true ∧ ∃ found newModel,
      nonsoundRuleOfNonsoundProof proof
          (Model.ofValuation proof.allVariables fun v => decide (v = .p)) =
        some (some (found, newModel)) ∧ found ∈ proof.rules := by
  intro rule proof
  obtain ⟨found, newModel, returned, member, -⟩ :=
    (@nonsoundRuleOfNonsoundProof_sound proof (by decide)).1 (fun v => decide (v = .p))
      (by decide) (by decide)
  exact ⟨by decide, found, newModel, returned, member⟩

end Propositions
