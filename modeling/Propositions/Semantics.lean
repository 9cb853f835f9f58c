import Propositions.Proofs

/-!
# Semantics of propositional formulas

The functions of `semantics.py`: models, the truth value of a formula in a model, the enumeration
of all models over a list of variable names, the three decision procedures built on it, and
truth-table synthesis. A model is a Python dictionary, kept as its entries in insertion order.
`evaluate` asserts that the model covers the formula, and a failed assertion is `none`. Beside it
stands `Formula.eval`, the truth value under a valuation of every variable: `evaluate` computes it
wherever the model covers the formula (`evaluate_eq_some`), and only there
(`evaluate_isSome_iff`).
-/

namespace Propositions

/-- `semantics.Model`, a dictionary from variable names to truth values, as its entries in
insertion order. Its keys are `Var`s, so `is_model` holds of every model. -/
structure Model where
  /-- The entries, in insertion order. -/
  entries : List (Var × Bool)
  /-- A dictionary holds each key once. -/
  nodup : (entries.map Prod.fst).Nodup

/-- In a list with distinct names, a name finds its own pair. -/
theorem lookup_of_mem {β : Type} : ∀ {pairs : List (Var × β)} {pair : Var × β},
    (pairs.map Prod.fst).Nodup → pair ∈ pairs → pairs.lookup pair.1 = some pair.2
  | [], _, _, mem => absurd mem (List.not_mem_nil _)
  | (name, found) :: pairs, pair, distinct, mem => by
    rcases List.mem_cons.mp mem with rfl | inRest
    · simp
    · have other : pair.1 ≠ name := fun same =>
        (List.nodup_cons.mp distinct).1 (List.mem_map.mpr ⟨pair, inRest, same⟩)
      simp [List.lookup_cons, beq_eq_false_iff_ne.mpr other,
        lookup_of_mem (List.nodup_cons.mp distinct).2 inRest]

namespace Model

/-- `semantics.variables`, the variable names the model is defined on. -/
def «variables» (model : Model) : List Var := model.entries.map Prod.fst

/-- The empty dictionary `{}`. -/
def empty : Model := ⟨[], List.nodup_nil⟩

/-- `model[name] = value`: a name the model has keeps its place and takes the new value, and a
new name goes last. -/
def insert (model : Model) (name : Var) (value : Bool) : Model :=
  if present : name ∈ model.variables then
    ⟨model.entries.map fun entry => if entry.1 = name then (name, value) else entry, by
      have sameKey : ∀ entry : Var × Bool,
          (if entry.1 = name then (name, value) else entry).1 = entry.1 := by
        intro entry
        split <;> simp_all
      simpa [Function.comp_def, sameKey] using model.nodup⟩
  else
    ⟨model.entries ++ [(name, value)], by
      rw [List.map_append]
      exact model.nodup.append (List.nodup_singleton _) (List.disjoint_singleton.mpr present)⟩

/-- The truth value the model gives `v`, and `false` where the model is not defined. -/
def valuation (model : Model) (v : Var) : Bool := (model.entries.lookup v).getD false

/-- The empty model has no names. -/
@[simp] theorem variables_empty : empty.variables = [] := rfl

/-- The empty model has no entries. -/
@[simp] theorem entries_empty : empty.entries = [] := rfl

/-- Writing a name the model does not have appends its entry. -/
theorem entries_insert_of_not_mem {model : Model} {name : Var} (value : Bool)
    (absent : name ∉ model.variables) :
    (model.insert name value).entries = model.entries ++ [(name, value)] := by
  simp [insert, absent]

/-- Writing a name the model does not have appends the name. -/
theorem variables_insert_of_not_mem {model : Model} {name : Var} (value : Bool)
    (absent : name ∉ model.variables) :
    (model.insert name value).variables = model.variables ++ [name] := by
  simp [Model.variables, entries_insert_of_not_mem value absent]

/-- The model gives a name it is defined on the value of its entry. -/
theorem lookup_eq_valuation {model : Model} {v : Var} (mem : v ∈ model.variables) :
    model.entries.lookup v = some (model.valuation v) := by
  cases found : model.entries.lookup v with
  | none =>
    obtain ⟨entry, inEntries, rfl⟩ := List.mem_map.mp mem
    simpa using List.lookup_eq_none_iff.mp found entry inEntries
  | some value => simp [valuation, found]

/-- A model whose entries all follow `value` gives `value v` for every name `v` it has. -/
theorem valuation_of_agree {model : Model} {value : Var → Bool}
    (agree : ∀ entry ∈ model.entries, entry.2 = value entry.1) {v : Var}
    (mem : v ∈ model.variables) : model.valuation v = value v := by
  simp [valuation, lookup_of_agree agree mem]

/-- In a model, a name finds its own entry. -/
theorem valuation_of_mem {model : Model} {entry : Var × Bool} (mem : entry ∈ model.entries) :
    model.valuation entry.1 = entry.2 := by
  simp [valuation, lookup_of_mem model.nodup mem]

end Model

/-- The truth tables of `evaluate` for the binary connectives. -/
@[simp]
def BinaryOp.apply : BinaryOp → Bool → Bool → Bool
  | .and, left, right => left && right
  | .or, left, right => left || right
  | .implies, left, right => !left || right
  | .xor, left, right => left != right
  | .iff, left, right => left == right
  | .nand, left, right => !(left && right)
  | .nor, left, right => !(left || right)

/-- `semantics.evaluate`. A variable the model lacks fails the source's assertion that the model
covers the formula, and every enclosing formula passes the failure on. -/
def evaluate (formula : Formula) (model : Model) : Option Bool :=
  match formula with
  | .T => some true
  | .F => some false
  | .var name => model.entries.lookup name
  | .not first => (evaluate first model).map (!·)
  | .binary root first second => do
    let left ← evaluate first model
    let right ← evaluate second model
    pure (root.apply left right)

/-- The truth value of a formula when every variable `v` has the value `valuation v`. -/
@[simp]
def Formula.eval (valuation : Var → Bool) : Formula → Bool
  | .var name => valuation name
  | .T => true
  | .F => false
  | .not first => !first.eval valuation
  | .binary root first second => root.apply (first.eval valuation) (second.eval valuation)

/-- A formula's truth value depends only on the values of its own variables. -/
theorem Formula.eval_congr {formula : Formula} {valuation other : Var → Bool}
    (agree : ∀ v ∈ formula.variables, valuation v = other v) :
    formula.eval valuation = formula.eval other := by
  induction formula with
  | var name => exact agree name (by simp)
  | T => rfl
  | F => rfl
  | not _ first => simp [first agree]
  | binary root _ _ first second =>
    simp only [Formula.eval]
    rw [first fun v mem => agree v (by simp [mem]), second fun v mem => agree v (by simp [mem])]

/-- The substitution lemma: a substituted formula has the truth value of the original under the
valuation that gives each variable the truth value of what replaces it. -/
theorem Formula.eval_substituteVariables (formula : Formula) (substitution : Var → Formula)
    (valuation : Var → Bool) :
    (formula.substituteVariables substitution).eval valuation =
      formula.eval fun v => (substitution v).eval valuation := by
  induction formula <;> simp [*]

/-- Where the model covers the formula, `evaluate` returns the formula's truth value under the
model's valuation. -/
theorem evaluate_eq_some {formula : Formula} {model : Model}
    (covers : formula.variables ⊆ model.variables) :
    evaluate formula model = some (formula.eval model.valuation) := by
  induction formula with
  | var name => exact Model.lookup_eq_valuation (covers (by simp))
  | T => rfl
  | F => rfl
  | not _ first => simp only [evaluate, first covers, Option.map_some', Formula.eval]
  | binary root _ _ first second =>
    simp only [evaluate, first fun _ mem => covers (List.mem_union_iff.mpr (.inl mem)),
      second fun _ mem => covers (List.mem_union_iff.mpr (.inr mem))]
    rfl

/-- `evaluate` returns a value exactly when the model covers the formula, as its assertion asks. -/
theorem evaluate_isSome_iff {formula : Formula} {model : Model} :
    (evaluate formula model).isSome ↔ formula.variables ⊆ model.variables := by
  refine ⟨fun found => ?_, fun covers => by simp [evaluate_eq_some covers]⟩
  induction formula with
  | var name =>
    obtain ⟨entry, inEntries, same⟩ := List.lookup_isSome_iff.mp found
    have named : name = entry.1 := beq_iff_eq.mp same
    exact List.cons_subset.mpr
      ⟨named ▸ List.mem_map_of_mem Prod.fst inEntries, List.nil_subset _⟩
  | T => exact List.nil_subset _
  | F => exact List.nil_subset _
  | not _ first => exact first (by simpa [evaluate] using found)
  | binary root first second firstCovered secondCovered =>
    simp only [evaluate, Option.bind_eq_bind, Option.isSome_iff_exists, Option.bind_eq_some]
      at found
    obtain ⟨_, left, leftFound, right, rightFound, -⟩ := found
    intro v mem
    rcases List.mem_union_iff.mp mem with inFirst | inSecond
    · exact firstCovered (by simp [leftFound]) inFirst
    · exact secondCovered (by simp [rightFound]) inSecond

/-- A value `evaluate` returns is the formula's truth value under the model's valuation. -/
theorem eval_of_evaluate {formula : Formula} {model : Model} {value : Bool}
    (found : evaluate formula model = some value) : formula.eval model.valuation = value := by
  rw [evaluate_eq_some (evaluate_isSome_iff.mp (by simp [found]))] at found
  exact Option.some.inj found

/-- `semantics.all_models`: row `i` of the `2 ^ n` rows gives `names[j]` bit `n - 1 - j` of `i`,
so the first name is the most significant bit. The source's parameter `variables` is `names` here,
as `variables` is a Lean keyword. Its inner loop over `j in range(n)` reads `names[j]`; here it
runs over the pairs `(j, names[j])`. -/
def allModels (names : List Var) : List Model :=
  let n := names.length
  (List.range (2 ^ n)).map fun i =>
    names.enum.foldl
      (fun model (j, name) => model.insert name ((i >>> (n - 1 - j)) &&& 1 != 0)) Model.empty

/-- `semantics.truth_values`: the truth value in each model, in order. -/
def truthValues (formula : Formula) (models : List Model) : Option (List Bool) :=
  models.mapM (evaluate formula)

/-- `semantics.is_tautology`: `all` over the models of the formula's variables. -/
def isTautology (formula : Formula) : Option Bool :=
  (allModels formula.variables).allM (evaluate formula)

/-- `semantics.is_contradiction`: `all` of the negated truth values. -/
def isContradiction (formula : Formula) : Option Bool :=
  (allModels formula.variables).allM fun model => (evaluate formula model).map (!·)

/-- `semantics.is_satisfiable`: `any` over the models of the formula's variables. -/
def isSatisfiable (formula : Formula) : Option Bool :=
  (allModels formula.variables).anyM (evaluate formula)

/-- The loop body of `_synthesize_for_model` on one entry: the literal `var` or `~var` as the
model makes `var` true or false, joined by `&` to the conjunction `res` so far. Python's `None`
for "no conjunction yet" is `none`. -/
def synthesizeForModelStep (res : Option Formula) : Var × Bool → Option Formula
  | (var, val) =>
    let atom := if val then Formula.var var else .not (.var var)
    match res with
    | none => some atom
    | some res => some (.binary .and res atom)

/-- `semantics._synthesize_for_model`: the left-nested conjunction of the literals of the entries,
in order; the source asserts the model is not empty. -/
def synthesizeForModel (model : Model) : Option Formula :=
  if model.entries.length > 0 then model.entries.foldl synthesizeForModelStep none else none

/-- The loop body of `synthesize` on a model and its value in the table: the model's clause is
appended where the value is true. -/
def synthesizeStep (clauses : List Formula) : Model × Bool → Option (List Formula)
  | (model, val) => if val then (synthesizeForModel model).map (clauses ++ [·]) else some clauses

/-- `semantics.synthesize`: the left-nested disjunction of the clauses of the models where the
table is true, or `names[0] & ~names[0]` where it is nowhere true. -/
def synthesize (names : List Var) (values : List Bool) : Option Formula :=
  match names with
  | [] => none
  | first :: _ => do
    let models := allModels names
    let clauses ← (models.zip values).foldlM synthesizeStep []
    match clauses with
    | [] => some (.binary .and (.var first) (.not (.var first)))
    | clause :: rest => some (rest.foldl (.binary .or) clause)

/-- `semantics.evaluate_inference`. Its body is unwritten: after `assert is_model(model)`, which
every model passes, it ends, and the call returns `None`, written `none`. -/
def evaluateInference (_rule : InferenceRule) (_model : Model) : Option Bool := none

/-- The second example of the source's docstring: over the variables of `p / q`, the model making
both false makes the assumption `p` false, so the rule holds there and the docstring expects
`True`, but the call returns `None`. -/
theorem evaluateInference_none_falseAssumption :
    let rule : InferenceRule := ⟨[.var .p], .var .q⟩
    let model : Model := ⟨[(.p, false), (.q, false)], by decide⟩
    model.variables = rule.variables ∧
      (∃ assumption ∈ rule.assumptions, evaluate assumption model = some false) ∧
      evaluateInference rule model = none :=
  ⟨by decide, by decide, rfl⟩

/-- `semantics.is_sound_inference`. Its body is unwritten, and the call returns `None`. -/
def isSoundInference (_rule : InferenceRule) : Option Bool := none

end Propositions
