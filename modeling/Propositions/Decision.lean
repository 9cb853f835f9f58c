import Propositions.AllModels
import Propositions.Loops

/-!
# The decision procedures

`is_tautology`, `is_contradiction` and `is_satisfiable` evaluate the formula in each model that
`all_models` lists over the formula's variables. Each returns the conjunction or disjunction of
those truth values (`isTautology_eq` and its two siblings), and two facts make that the semantic
notion over every model covering the formula: the truth value depends only on the formula's
variables (`Formula.eval_congr`), and every valuation agrees on them with a listed model
(`exists_mem_allModels_agree`). The same two facts give the procedures over every valuation, and
over `all_models` of the formula's variables listed in any order.
-/

namespace Propositions

section

variable {formula : Formula}

/-- A listed model covers the formula. -/
theorem covers_of_mem_allModels {model : Model} (mem : model ∈ allModels formula.variables) :
    formula.variables ⊆ model.variables :=
  fun _ named => (variables_of_mem_allModels formula.nodup_variables mem).symm ▸ named

/-- In a listed model `evaluate` gives the formula's truth value. -/
theorem evaluate_of_mem_allModels {model : Model} (mem : model ∈ allModels formula.variables) :
    evaluate formula model = some (formula.eval model.valuation) :=
  evaluate_eq_some (covers_of_mem_allModels mem)

/-- In a covering model `evaluate` gives the truth value of some listed model. -/
theorem exists_mem_allModels_evaluate {model : Model}
    (covers : formula.variables ⊆ model.variables) :
    ∃ listed ∈ allModels formula.variables,
      evaluate formula model = some (formula.eval listed.valuation) := by
  obtain ⟨listed, mem, agree⟩ :=
    exists_mem_allModels_agree formula.nodup_variables model.valuation
  refine ⟨listed, mem, ?_⟩
  rw [evaluate_eq_some covers, Formula.eval_congr fun v named => (agree v named).symm]

/-- `is_tautology` returns whether the formula is true in every listed model. -/
theorem isTautology_eq :
    isTautology formula =
      some ((allModels formula.variables).all fun model => formula.eval model.valuation) :=
  allM_eq_some fun _ mem => evaluate_of_mem_allModels mem

/-- `is_contradiction` returns whether the formula is false in every listed model. -/
theorem isContradiction_eq :
    isContradiction formula =
      some ((allModels formula.variables).all fun model => !formula.eval model.valuation) :=
  allM_eq_some fun _ mem => by simp [evaluate_of_mem_allModels mem]

/-- `is_satisfiable` returns whether the formula is true in some listed model. -/
theorem isSatisfiable_eq :
    isSatisfiable formula =
      some ((allModels formula.variables).any fun model => formula.eval model.valuation) :=
  anyM_eq_some fun _ mem => evaluate_of_mem_allModels mem

/-- A truth value holds in every listed model exactly when `evaluate` gives it in every covering
model. -/
theorem forall_allModels_iff (value : Bool) :
    (∀ model ∈ allModels formula.variables, formula.eval model.valuation = value) ↔
      ∀ model : Model, formula.variables ⊆ model.variables →
        evaluate formula model = some value := by
  constructor
  · intro listedHold model covers
    obtain ⟨listed, mem, found⟩ := exists_mem_allModels_evaluate covers
    rw [found, listedHold listed mem]
  · intro covered listed mem
    simpa [evaluate_of_mem_allModels mem] using covered listed (covers_of_mem_allModels mem)

/-- A truth value holds in some listed model exactly when `evaluate` gives it in some covering
model. -/
theorem exists_allModels_iff (value : Bool) :
    (∃ model ∈ allModels formula.variables, formula.eval model.valuation = value) ↔
      ∃ model : Model, formula.variables ⊆ model.variables ∧
        evaluate formula model = some value := by
  constructor
  · rintro ⟨listed, mem, holds⟩
    exact ⟨listed, covers_of_mem_allModels mem, by rw [evaluate_of_mem_allModels mem, holds]⟩
  · rintro ⟨model, covers, found⟩
    obtain ⟨listed, mem, same⟩ := exists_mem_allModels_evaluate covers
    exact ⟨listed, mem, Option.some.inj (same.symm.trans found)⟩

/-- Over any distinct names covering the formula, a truth value holds in every model of
`all_models` exactly when it holds under every valuation. -/
theorem forall_allModels_iff_valuation_of_subset {names : List Var} (distinct : names.Nodup)
    (covers : formula.variables ⊆ names) (value : Bool) :
    (∀ model ∈ allModels names, formula.eval model.valuation = value) ↔
      ∀ valuation, formula.eval valuation = value := by
  constructor
  · intro listedHold valuation
    obtain ⟨listed, mem, agree⟩ := exists_mem_allModels_agree distinct valuation
    rw [Formula.eval_congr fun v named => (agree v (covers named)).symm, listedHold listed mem]
  · exact fun holds model _ => holds model.valuation

/-- Over any distinct names covering the formula, a truth value holds in some model of
`all_models` exactly when it holds under some valuation. -/
theorem exists_allModels_iff_valuation_of_subset {names : List Var} (distinct : names.Nodup)
    (covers : formula.variables ⊆ names) (value : Bool) :
    (∃ model ∈ allModels names, formula.eval model.valuation = value) ↔
      ∃ valuation, formula.eval valuation = value := by
  constructor
  · exact fun ⟨model, _, holds⟩ => ⟨model.valuation, holds⟩
  · rintro ⟨valuation, holds⟩
    obtain ⟨listed, mem, agree⟩ := exists_mem_allModels_agree distinct valuation
    exact ⟨listed, mem, by rw [Formula.eval_congr fun v named => agree v (covers named), holds]⟩

/-- A truth value holds in every listed model exactly when it holds under every valuation. -/
theorem forall_allModels_iff_valuation (value : Bool) :
    (∀ model ∈ allModels formula.variables, formula.eval model.valuation = value) ↔
      ∀ valuation, formula.eval valuation = value :=
  forall_allModels_iff_valuation_of_subset formula.nodup_variables (List.Subset.refl _) value

/-- A truth value holds in some listed model exactly when it holds under some valuation. -/
theorem exists_allModels_iff_valuation (value : Bool) :
    (∃ model ∈ allModels formula.variables, formula.eval model.valuation = value) ↔
      ∃ valuation, formula.eval valuation = value :=
  exists_allModels_iff_valuation_of_subset formula.nodup_variables (List.Subset.refl _) value

end

/-- The three decision procedures decide the semantic notions over all models covering the
formula: a tautology is true in each, a satisfiable formula in some, a contradiction in none. -/
theorem decisionProcedures_match_semantics (formula : Formula) :
    (isTautology formula = some true ↔
      ∀ model : Model, formula.variables ⊆ model.variables →
        evaluate formula model = some true) ∧
    (isSatisfiable formula = some true ↔
      ∃ model : Model, formula.variables ⊆ model.variables ∧
        evaluate formula model = some true) ∧
    (isContradiction formula = some true ↔
      ∀ model : Model, formula.variables ⊆ model.variables →
        evaluate formula model = some false) := by
  refine ⟨?_, ?_, ?_⟩
  · rw [isTautology_eq, Option.some.injEq, List.all_eq_true, forall_allModels_iff]
  · rw [isSatisfiable_eq, Option.some.injEq, List.any_eq_true, exists_allModels_iff]
  · simp only [isContradiction_eq, Option.some.injEq, List.all_eq_true, Bool.not_eq_true']
    exact forall_allModels_iff false

/-- The decision procedures never fail an assertion of `evaluate`, and each answer is the notion
over every valuation: a tautology is true under every valuation, a satisfiable formula under
some, and a contradiction under none. -/
theorem decisionProcedures_decide_valuations (formula : Formula) :
    ∃ tautology satisfiable contradiction,
      isTautology formula = some tautology ∧ isSatisfiable formula = some satisfiable ∧
      isContradiction formula = some contradiction ∧
      (tautology = true ↔ ∀ valuation, formula.eval valuation = true) ∧
      (satisfiable = true ↔ ∃ valuation, formula.eval valuation = true) ∧
      (contradiction = true ↔ ∀ valuation, formula.eval valuation = false) := by
  refine ⟨_, _, _, isTautology_eq, isSatisfiable_eq, isContradiction_eq, ?_, ?_, ?_⟩
  · rw [List.all_eq_true, forall_allModels_iff_valuation]
  · rw [List.any_eq_true, exists_allModels_iff_valuation]
  · simp only [List.all_eq_true, Bool.not_eq_true']
    exact forall_allModels_iff_valuation false

/-- Whatever order Python's set gives the formula's variables, the decision procedures answer the
same: over `all_models` of any duplicate-free list of names that includes the formula's
variables, in any order, `all`, `all not` and `any` return what the modelled order returns. -/
theorem decisionProcedures_order_independent {formula : Formula} {names : List Var}
    (distinct : names.Nodup) (covers : formula.variables ⊆ names) :
    (allModels names).allM (evaluate formula) = isTautology formula ∧
      (allModels names).allM (fun model => (evaluate formula model).map (!·)) =
        isContradiction formula ∧
      (allModels names).anyM (evaluate formula) = isSatisfiable formula := by
  have listed : ∀ model ∈ allModels names,
      evaluate formula model = some (formula.eval model.valuation) := fun _ mem =>
    evaluate_eq_some fun _ named => (variables_of_mem_allModels distinct mem).symm ▸ covers named
  refine ⟨?_, ?_, ?_⟩
  · rw [allM_eq_some listed, isTautology_eq, Option.some.injEq, Bool.eq_iff_iff,
      List.all_eq_true, List.all_eq_true, forall_allModels_iff_valuation_of_subset distinct covers,
      forall_allModels_iff_valuation]
  · rw [allM_eq_some fun model mem => by rw [listed model mem]; rfl, isContradiction_eq,
      Option.some.injEq, Bool.eq_iff_iff, List.all_eq_true, List.all_eq_true]
    simp only [Bool.not_eq_true']
    rw [forall_allModels_iff_valuation_of_subset distinct covers, forall_allModels_iff_valuation]
  · rw [anyM_eq_some listed, isSatisfiable_eq, Option.some.injEq, Bool.eq_iff_iff,
      List.any_eq_true, List.any_eq_true, exists_allModels_iff_valuation_of_subset distinct covers,
      exists_allModels_iff_valuation]

/-- Listing the variables of `p -> q` as `q, p` gives the same answers. -/
theorem decisionProcedures_order_independent_swapped :
    [Var.q, Var.p].Nodup ∧ (Formula.binary .implies (.var .p) (.var .q)).variables ⊆ [.q, .p] ∧
      (allModels [.q, .p]).anyM (evaluate (.binary .implies (.var .p) (.var .q))) =
        isSatisfiable (.binary .implies (.var .p) (.var .q)) :=
  ⟨by decide, by decide, (decisionProcedures_order_independent (by decide) (by decide)).2.2⟩

end Propositions
