import Propositions.Syntax
import Mathlib.Data.Finset.Basic

/-!
# Inference rules and proofs

`proofs.py` is not among the sources either; the deduction and soundness engines read its
`InferenceRule`, `Proof` and `Proof.Line`, and call its specialization test and validity check.
This module models them from the specification. A rule specializes another when one
substitution, applied to every formula of the general rule, gives the formulas of the special
one in order. The map of such a substitution is read off the two rules and then checked by
substituting, so the test is decidable and accepts exactly the substitution instances
(`isSpecializationOf_iff`).
-/

namespace Propositions

/-- Modelled from the spec: `proofs.SpecializationMap`, a dictionary from variable names to
formulas, as a list of pairs looked up by the first pair of a name. -/
abbrev SpecializationMap := List (Var × Formula)

/-- Modelled from the spec: the substitution a specialization map stands for in
`Formula.substitute_variables`, where a variable the map does not name stays. -/
def SpecializationMap.substitution (map : SpecializationMap) (v : Var) : Formula :=
  (map.lookup v).getD (.var v)

/-- A list of pairs that all follow one function gives that function's value at every name it
has; specialization maps and models are such lists. -/
theorem lookup_of_agree {β : Type} {pairs : List (Var × β)} {value : Var → β}
    {v : Var} (agree : ∀ pair ∈ pairs, pair.2 = value pair.1) (named : v ∈ pairs.map Prod.fst) :
    pairs.lookup v = some (value v) := by
  induction pairs with
  | nil => simp at named
  | cons pair pairs ih =>
    obtain ⟨name, found⟩ := pair
    by_cases same : v = name
    · subst same
      simpa [List.lookup_cons] using agree _ (List.mem_cons_self _ _)
    · simp only [List.map_cons, List.mem_cons, same, false_or] at named
      simpa [List.lookup_cons, beq_eq_false_iff_ne.mpr same] using
        ih (fun pair mem => agree pair (List.mem_cons_of_mem _ mem)) named

/-- Modelled from the spec: `proofs.InferenceRule`, assumption formulas in order and one
conclusion formula. -/
structure InferenceRule where
  /-- The assumptions, in order. -/
  assumptions : List Formula
  /-- The conclusion. -/
  conclusion : Formula
deriving DecidableEq, Repr

namespace InferenceRule

/-- Modelled from the spec: `InferenceRule.variables`, the set of variables of the assumptions
and the conclusion. -/
def «variables» (rule : InferenceRule) : List Var :=
  (rule.assumptions.flatMap Formula.variables ++ rule.conclusion.variables).dedup

/-- A variable of a rule is a variable of an assumption or of the conclusion. -/
@[simp]
theorem mem_variables {rule : InferenceRule} {v : Var} :
    v ∈ rule.variables ↔
      (∃ assumption ∈ rule.assumptions, v ∈ assumption.variables) ∨
        v ∈ rule.conclusion.variables := by
  simp [InferenceRule.variables]

/-- A rule lists each of its variables once. -/
theorem nodup_variables (rule : InferenceRule) : rule.variables.Nodup := List.nodup_dedup _

/-- Every formula of the rule substituted by `substitution`. -/
def substituteVariables (rule : InferenceRule) (substitution : Var → Formula) : InferenceRule :=
  ⟨rule.assumptions.map (·.substituteVariables substitution),
    rule.conclusion.substituteVariables substitution⟩

/-- Modelled from the spec: the pairs of the formulas of `general` matched in order against those
of `specialization`; `none` when the counts or the shapes differ. -/
def formulasSpecializationPairs : List Formula → List Formula → Option SpecializationMap
  | [], [] => some []
  | general :: generals, specialization :: specializations => do
    let pairs ← general.specializationPairs specialization
    let rest ← formulasSpecializationPairs generals specializations
    pure (pairs ++ rest)
  | _, _ => none

/-- Every variable of the general formulas is read off. -/
theorem formulasSpecializationPairs_keys {generals specializations : List Formula}
    {pairs : SpecializationMap}
    (found : formulasSpecializationPairs generals specializations = some pairs) :
    ∀ general ∈ generals, ∀ v ∈ general.variables, v ∈ pairs.map Prod.fst := by
  induction generals generalizing specializations pairs with
  | nil => exact fun _ mem => absurd mem (List.not_mem_nil _)
  | cons general generals ih =>
    cases specializations with
    | nil => exact Option.noConfusion found
    | cons specialization specializations =>
      obtain ⟨head, headFound, restLoop⟩ := Option.bind_eq_some.mp found
      obtain ⟨rest, restFound, joined⟩ := Option.bind_eq_some.mp restLoop
      obtain rfl := Option.some.inj joined
      simp only [List.mem_cons, List.map_append, List.mem_append]
      rintro _ (rfl | mem) v inFormula
      · exact .inl (Formula.specializationPairs_keys headFound v inFormula)
      · exact .inr (ih restFound _ mem v inFormula)

/-- Matching formulas against their substitution instances succeeds, with pairs of that
substitution only. -/
theorem formulasSpecializationPairs_substituteVariables (generals : List Formula)
    (substitution : Var → Formula) :
    ∃ pairs, formulasSpecializationPairs generals
        (generals.map (·.substituteVariables substitution)) = some pairs ∧
      ∀ pair ∈ pairs, pair.2 = substitution pair.1 := by
  induction generals with
  | nil => exact ⟨[], rfl, by simp⟩
  | cons general generals ih =>
    obtain ⟨head, headFound, headAgree⟩ :=
      Formula.specializationPairs_substituteVariables general substitution
    obtain ⟨rest, restFound, restAgree⟩ := ih
    refine ⟨head ++ rest,
      Option.bind_eq_some.mpr ⟨head, headFound, Option.bind_eq_some.mpr ⟨rest, restFound, rfl⟩⟩,
      fun pair mem => ?_⟩
    exact (List.mem_append.mp mem).elim (headAgree pair) (restAgree pair)

/-- Modelled from the spec: `InferenceRule.specialization_map`, the map of a substitution taking
this rule to `specialization`, or `none` when there is none. -/
def specializationMap (general specialization : InferenceRule) : Option SpecializationMap := do
  let map ← formulasSpecializationPairs (general.conclusion :: general.assumptions)
    (specialization.conclusion :: specialization.assumptions)
  if general.substituteVariables map.substitution = specialization then some map else none

/-- Modelled from the spec: `InferenceRule.is_specialization_of`. -/
def isSpecializationOf (specialization general : InferenceRule) : Bool :=
  (general.specializationMap specialization).isSome

/-- A name of a list of pairs finds a pair. -/
theorem lookup_isSome_of_mem {β : Type} {pairs : List (Var × β)} {v : Var}
    (named : v ∈ pairs.map Prod.fst) : (pairs.lookup v).isSome := by
  obtain ⟨pair, mem, rfl⟩ := List.mem_map.mp named
  exact List.lookup_isSome_iff.mpr ⟨pair, mem, beq_self_eq_true _⟩

/-- A specialization map found takes the general rule to the special one, and names every
variable of the general rule. -/
theorem specializationMap_spec {general specialization : InferenceRule} {map : SpecializationMap}
    (found : general.specializationMap specialization = some map) :
    general.substituteVariables map.substitution = specialization ∧
      ∀ v ∈ general.variables, (map.lookup v).isSome := by
  simp only [specializationMap, Option.bind_eq_bind, Option.bind_eq_some] at found
  obtain ⟨pairs, pairsFound, checked⟩ := found
  split_ifs at checked with substituted
  cases checked
  refine ⟨substituted, fun v mem => ?_⟩
  have keys := formulasSpecializationPairs_keys pairsFound
  simp only [mem_variables] at mem
  rcases mem with ⟨assumption, inAssumptions, inFormula⟩ | inConclusion
  · exact lookup_isSome_of_mem (keys assumption (List.mem_cons_of_mem _ inAssumptions) v inFormula)
  · exact lookup_isSome_of_mem (keys _ (List.mem_cons_self _ _) v inConclusion)

/-- The specialization test accepts exactly the substitution instances of the general rule. -/
theorem isSpecializationOf_iff {general specialization : InferenceRule} :
    specialization.isSpecializationOf general = true ↔
      ∃ substitution, general.substituteVariables substitution = specialization := by
  constructor
  · intro accepted
    obtain ⟨map, found⟩ := Option.isSome_iff_exists.mp accepted
    exact ⟨_, (specializationMap_spec found).1⟩
  · rintro ⟨substitution, rfl⟩
    obtain ⟨pairs, found, agree⟩ := formulasSpecializationPairs_substituteVariables
      (general.conclusion :: general.assumptions) substitution
    have keys := formulasSpecializationPairs_keys found
    have same : ∀ formula ∈ general.conclusion :: general.assumptions,
        formula.substituteVariables (SpecializationMap.substitution pairs) =
          formula.substituteVariables substitution := fun formula mem =>
      Formula.substituteVariables_congr fun v inFormula => by
        simp [SpecializationMap.substitution,
          lookup_of_agree agree (keys formula mem v inFormula)]
    simp only [isSpecializationOf, specializationMap, Option.isSome_iff_exists,
      Option.bind_eq_bind, Option.bind_eq_some]
    refine ⟨pairs, pairs, by simpa [substituteVariables] using found, ?_⟩
    rw [if_pos]
    simp only [substituteVariables, mk.injEq]
    exact ⟨List.map_congr_left fun formula mem => same formula (List.mem_cons_of_mem _ mem),
      same _ (List.mem_cons_self _ _)⟩

/-- A rule and its specializations have equally many assumptions. -/
theorem length_assumptions_of_isSpecializationOf {general specialization : InferenceRule}
    (accepted : specialization.isSpecializationOf general = true) :
    specialization.assumptions.length = general.assumptions.length := by
  obtain ⟨substitution, rfl⟩ := isSpecializationOf_iff.mp accepted
  simp [substituteVariables]

end InferenceRule

/-- Modelled from the spec: `proofs.Proof.Line`, either an assumption line, or a formula derived
by a rule from the lines at the listed indices. The source asserts that a line has a rule exactly
when it has assumption indices; the two constructors make that so. -/
inductive Line
  | assumption (formula : Formula)
  | derived (formula : Formula) (rule : InferenceRule) (assumptions : List Nat)
deriving DecidableEq, Repr

namespace Line

/-- Modelled from the spec: `Proof.Line.formula`, the formula the line proves. -/
def formula : Line → Formula
  | assumption formula => formula
  | derived formula _ _ => formula

/-- Modelled from the spec: `Proof.Line.is_assumption`, whether the line is an assumption line. -/
def isAssumption : Line → Bool
  | assumption _ => true
  | derived _ _ _ => false

/-- Modelled from the spec: `Proof.Line.rule`, `None` on an assumption line. -/
def rule : Line → Option InferenceRule
  | assumption _ => none
  | derived _ rule _ => some rule

/-- Modelled from the spec: `Proof.Line.assumptions`, `None` on an assumption line. -/
def assumptions : Line → Option (List Nat)
  | assumption _ => none
  | derived _ _ assumptions => some assumptions

/-- The formula of an assumption line. -/
@[simp] theorem formula_assumption (formula : Formula) :
    (assumption formula).formula = formula := rfl

/-- The formula of a derived line. -/
@[simp] theorem formula_derived (formula : Formula) (rule : InferenceRule) (cited : List Nat) :
    (derived formula rule cited).formula = formula := rfl

end Line

/-- Modelled from the spec: `proofs.Proof`, a statement, a set of permitted rules and the lines. -/
structure Proof where
  /-- The inference rule proved. -/
  statement : InferenceRule
  /-- The permitted rules, a frozen set. -/
  rules : Finset InferenceRule
  /-- The lines, in order. -/
  lines : List Line

namespace Proof

/-- Modelled from the spec: `Proof.rule_for_line`, the rule line `lineNumber` claims to
specialize: the formulas of the lines it cites, then its own formula. It is `none` on an
assumption line, and where Python would raise on an index out of range. -/
def ruleForLine (proof : Proof) (lineNumber : Nat) : Option InferenceRule :=
  match proof.lines[lineNumber]? with
  | some (.derived formula _ assumptions) =>
    (assumptions.mapM fun i => proof.lines[i]?.map Line.formula).map fun premises =>
      ⟨premises, formula⟩
  | _ => none

/-- Modelled from the spec: `Proof.is_line_valid`. An assumption line holds an assumption of the
statement; a derived line names a permitted rule, cites only earlier lines, and its
`rule_for_line` specializes its rule. -/
def isLineValid (proof : Proof) (lineNumber : Nat) : Bool :=
  match proof.lines[lineNumber]? with
  | none => false
  | some (.assumption formula) => formula ∈ proof.statement.assumptions
  | some (.derived _ rule assumptions) =>
    rule ∈ proof.rules && assumptions.all (· < lineNumber) &&
      (proof.ruleForLine lineNumber).any (·.isSpecializationOf rule)

/-- Modelled from the spec: `Proof.is_valid`. There is a line, the last line's formula is the
statement's conclusion, and every line is valid. -/
def isValid (proof : Proof) : Bool :=
  match proof.lines.getLast? with
  | none => false
  | some last =>
    last.formula = proof.statement.conclusion &&
      (List.range proof.lines.length).all proof.isLineValid

end Proof

end Propositions
