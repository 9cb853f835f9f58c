import Propositions.AllModels
import Propositions.Loops

/-!
# Truth-table synthesis

`synthesize` writes, for each model where the table is true, the conjunction of the literals
that hold exactly in that model (`synthesizeForModel_spec`), and joins these clauses by `|`.
Over distinct names every model of `all_models` is listed once, so the disjunction is true in a
listed model exactly where the table says true, and the formula has the given truth table
(`synthesize_truthTable`). The shape of the result is checked by the executable predicates
`isLiteral`, `isConjunctiveClause` and `isDNF`.
-/

namespace Propositions

namespace Formula

/-- A literal: a variable or its negation. -/
def isLiteral : Formula → Bool
  | var _ => true
  | not (var _) => true
  | _ => false

/-- A conjunctive clause: a left-nested `&` of literals. -/
def isConjunctiveClause : Formula → Bool
  | binary .and first second => first.isConjunctiveClause && second.isLiteral
  | formula => formula.isLiteral

/-- Disjunctive normal form: a left-nested `|` of conjunctive clauses. -/
def isDNF : Formula → Bool
  | binary .or first second => first.isDNF && second.isConjunctiveClause
  | formula => formula.isConjunctiveClause

/-- A formula with a binary root is over some names exactly when both operands are. -/
theorem variables_binary_subset {root : BinaryOp} {first second : Formula} {names : List Var} :
    (binary root first second).variables ⊆ names ↔
      first.variables ⊆ names ∧ second.variables ⊆ names := by
  simp only [Formula.variables, List.subset_def, List.mem_union_iff, or_imp, forall_and]

/-- A conjunctive clause is in disjunctive normal form. -/
theorem isDNF_of_isConjunctiveClause {formula : Formula}
    (clause : formula.isConjunctiveClause = true) :
    formula.isDNF = true := by
  cases formula with
  | binary root first second =>
    cases root
    case or => exact absurd clause Bool.false_ne_true
    all_goals exact clause
  | _ => exact clause

end Formula

/-- The literal `_synthesize_for_model` writes for an entry. -/
def literal : Var × Bool → Formula
  | (var, val) => if val then .var var else .not (.var var)

/-- A literal is true exactly where the valuation agrees with its entry. -/
@[simp]
theorem eval_literal (entry : Var × Bool) (valuation : Var → Bool) :
    (literal entry).eval valuation = (valuation entry.1 == entry.2) := by
  obtain ⟨var, val⟩ := entry
  cases val <;> simp [literal]

/-- The literal of an entry is a literal. -/
theorem isLiteral_literal (entry : Var × Bool) : (literal entry).isLiteral = true := by
  obtain ⟨var, val⟩ := entry
  cases val <;> rfl

/-- The literal of an entry is a conjunctive clause. -/
theorem isConjunctiveClause_literal (entry : Var × Bool) :
    (literal entry).isConjunctiveClause = true := by
  obtain ⟨var, val⟩ := entry
  cases val <;> rfl

/-- The literal of an entry has the entry's name as its only variable. -/
@[simp]
theorem variables_literal (entry : Var × Bool) : (literal entry).variables = [entry.1] := by
  obtain ⟨var, val⟩ := entry
  cases val <;> rfl

/-- The conjunction of `clause` and the literals of `entries`, left-nested. -/
def conjoin (clause : Formula) (entries : List (Var × Bool)) : Formula :=
  entries.foldl (fun res entry => .binary .and res (literal entry)) clause

/-- Once there is a conjunction, the loop of `_synthesize_for_model` conjoins the literals. -/
theorem foldl_synthesizeForModelStep (clause : Formula) :
    ∀ entries : List (Var × Bool),
      entries.foldl synthesizeForModelStep (some clause) = some (conjoin clause entries)
  | [] => rfl
  | (_, _) :: entries => foldl_synthesizeForModelStep _ entries

/-- A conjunction is true exactly when its first clause and every literal after it are. -/
theorem eval_conjoin (valuation : Var → Bool) :
    ∀ (clause : Formula) (entries : List (Var × Bool)),
    (conjoin clause entries).eval valuation =
      (clause.eval valuation && entries.all fun entry => valuation entry.1 == entry.2)
  | clause, [] => by simp [conjoin]
  | clause, entry :: entries => by
    show (conjoin (.binary .and clause (literal entry)) entries).eval valuation = _
    simp [eval_conjoin valuation _ entries, Bool.and_assoc]

/-- Conjoining literals to a conjunctive clause keeps it one. -/
theorem isConjunctiveClause_conjoin : ∀ {clause : Formula} (entries : List (Var × Bool)),
    clause.isConjunctiveClause = true → (conjoin clause entries).isConjunctiveClause = true
  | _, [], clause => clause
  | _, entry :: entries, clause =>
    isConjunctiveClause_conjoin entries
      ((Bool.and_eq_true _ _).mpr ⟨clause, isLiteral_literal entry⟩)

/-- A conjunction over names of its first clause and of its entries is over those names. -/
theorem variables_conjoin_subset {names : List Var} :
    ∀ {clause : Formula} (entries : List (Var × Bool)), clause.variables ⊆ names →
      entries.map Prod.fst ⊆ names → (conjoin clause entries).variables ⊆ names
  | _, [], clause, _ => clause
  | _, entry :: entries, clause, named => by
    simp only [List.map_cons, List.cons_subset] at named
    exact variables_conjoin_subset entries
      (Formula.variables_binary_subset.mpr ⟨clause, by simpa using named.1⟩) named.2

/-- `_synthesize_for_model` of a model whose first entry is `entry` conjoins the literals of the
entries after it to the literal of `entry`. -/
theorem synthesizeForModel_eq {model : Model} {entry : Var × Bool} {entries : List (Var × Bool)}
    (found : model.entries = entry :: entries) :
    synthesizeForModel model = some (conjoin (literal entry) entries) := by
  rw [synthesizeForModel, if_pos (by rw [found]; exact Nat.succ_pos _), found, List.foldl_cons]
  obtain ⟨var, val⟩ := entry
  exact foldl_synthesizeForModelStep _ entries

/-- `_synthesize_for_model` of a model that is not empty is a conjunctive clause over the model's
names, which a valuation satisfies exactly when it agrees with every entry of the model. -/
theorem synthesizeForModel_spec {model : Model} (nonempty : model.entries ≠ []) :
    ∃ clause, synthesizeForModel model = some clause ∧ clause.isConjunctiveClause = true ∧
      clause.variables ⊆ model.variables ∧
      ∀ valuation, clause.eval valuation =
        model.entries.all fun entry => valuation entry.1 == entry.2 := by
  obtain ⟨entry, entries, found⟩ := List.exists_cons_of_ne_nil nonempty
  have named : model.variables = entry.1 :: entries.map Prod.fst := by
    simp [Model.variables, found]
  refine ⟨conjoin (literal entry) entries, synthesizeForModel_eq found,
    isConjunctiveClause_conjoin entries (isConjunctiveClause_literal _), ?_, fun valuation => ?_⟩
  · rw [named]
    exact variables_conjoin_subset entries
      (by rw [variables_literal]
          exact List.cons_subset.mpr ⟨List.mem_cons_self _ _, List.nil_subset _⟩)
      (List.subset_cons_self _ _)
  · simp [eval_conjoin, found]

/-- A model covering the names of `model` satisfies every entry of `model` exactly when it gives
each of those names the value `model` gives it. -/
theorem all_entries_eq_decide_agree {model other : Model}
    (covers : model.variables ⊆ other.variables) :
    (model.entries.all fun entry => other.valuation entry.1 == entry.2) =
      decide (∀ v ∈ model.variables, other.entries.lookup v = model.entries.lookup v) := by
  rw [Bool.eq_iff_iff, List.all_eq_true, decide_eq_true_iff, Model.variables, List.forall_mem_map]
  refine forall₂_congr fun entry mem => ?_
  rw [Model.lookup_eq_valuation (covers (List.mem_map_of_mem _ mem)),
    lookup_of_mem model.nodup mem]
  simp

/-- For a model over a nonempty list of names, `_synthesize_for_model` returns the left-nested
`&` of one literal per entry, `v` where the model makes `v` true and `~v` where it makes it false.
In every model defined on at least those names, that conjunction evaluates to whether the model
gives each of them the value the first model gives it. -/
theorem synthesizeForModel_agreement {model other : Model} (nonempty : model.variables ≠ [])
    (covers : model.variables ⊆ other.variables) :
    ∃ first rest, model.entries.map literal = first :: rest ∧
      synthesizeForModel model = some (rest.foldl (.binary .and) first) ∧
      evaluate (rest.foldl (.binary .and) first) other =
        some (decide (∀ v ∈ model.variables, other.entries.lookup v = model.entries.lookup v)) := by
  have entriesNonempty : model.entries ≠ [] := fun empty =>
    nonempty (by rw [Model.variables, empty, List.map_nil])
  obtain ⟨entry, entries, found⟩ := List.exists_cons_of_ne_nil entriesNonempty
  obtain ⟨clause, written, -, over, value⟩ := synthesizeForModel_spec entriesNonempty
  have shaped : (entries.map literal).foldl (.binary .and) (literal entry) = clause := by
    rw [List.foldl_map]
    exact Option.some.inj ((synthesizeForModel_eq found).symm.trans written)
  refine ⟨literal entry, entries.map literal, by rw [found, List.map_cons], shaped ▸ written, ?_⟩
  rw [shaped, evaluate_eq_some (over.trans covers), value, all_entries_eq_decide_agree covers]

/-- The clause of the model making `p` true and `q` false is `p & ~q`, true in a model with one
more name that agrees with it on `p` and `q`. -/
theorem synthesizeForModel_agreement_widerModel :
    let model : Model := ⟨[(.p, true), (.q, false)], by decide⟩
    let other : Model := ⟨[(.q, false), (.r, true), (.p, true)], by decide⟩
    model.variables ≠ [] ∧ model.variables ⊆ other.variables ∧
      synthesizeForModel model = some (.binary .and (.var .p) (.not (.var .q))) ∧
      ∃ clause, synthesizeForModel model = some clause ∧ evaluate clause other = some true :=
  ⟨by decide, by decide, rfl,
    (synthesizeForModel_agreement (by decide) (by decide)).elim fun _ found =>
      found.elim fun _ result => ⟨_, result.2.1, result.2.2.trans (by decide)⟩⟩

/-- A valuation that agrees with every entry of `others` satisfies every entry of a list with the
same names exactly when the two lists are equal. -/
theorem all_agree_eq : ∀ {entries others : List (Var × Bool)} {valuation : Var → Bool},
    entries.map Prod.fst = others.map Prod.fst →
    (∀ other ∈ others, valuation other.1 = other.2) →
      (entries.all fun entry => valuation entry.1 == entry.2) = decide (entries = others)
  | [], [], _, _, _ => rfl
  | [], _ :: _, _, keys, _ => by simp at keys
  | _ :: _, [], _, keys, _ => by simp at keys
  | (name, value) :: entries, (_, other) :: others, valuation, keys, agree => by
    simp only [List.map_cons, List.cons.injEq] at keys
    obtain ⟨rfl, keys⟩ := keys
    have head : valuation name = other := agree _ (List.mem_cons_self _ _)
    rw [List.all_cons, head,
      all_agree_eq keys fun entry mem => agree entry (List.mem_cons_of_mem _ mem)]
    cases value <;> cases other <;> simp

/-- A disjunction is true exactly when one of its clauses is. -/
theorem eval_foldl_or (valuation : Var → Bool) : ∀ (first : Formula) (rest : List Formula),
    (rest.foldl (.binary .or) first).eval valuation =
      (first.eval valuation || rest.any (·.eval valuation))
  | _, [] => by simp
  | first, clause :: rest => by
    rw [List.foldl_cons, eval_foldl_or]
    simp [Bool.or_assoc]

/-- Joining conjunctive clauses by `|` to a formula in disjunctive normal form keeps it so. -/
theorem isDNF_foldl_or : ∀ {first : Formula} (rest : List Formula), first.isDNF = true →
    (∀ clause ∈ rest, clause.isConjunctiveClause = true) →
      (rest.foldl (.binary .or) first).isDNF = true
  | _, [], first, _ => first
  | _, clause :: rest, first, clauses =>
    isDNF_foldl_or rest
      ((Bool.and_eq_true _ _).mpr ⟨first, clauses clause (List.mem_cons_self _ _)⟩)
      fun other mem => clauses other (List.mem_cons_of_mem _ mem)

/-- A disjunction of clauses over some names is over those names. -/
theorem variables_foldl_or_subset {names : List Var} : ∀ {first : Formula} (rest : List Formula),
    first.variables ⊆ names → (∀ clause ∈ rest, clause.variables ⊆ names) →
      (rest.foldl (.binary .or) first).variables ⊆ names
  | _, [], first, _ => first
  | _, clause :: rest, first, clauses =>
    variables_foldl_or_subset rest
      (Formula.variables_binary_subset.mpr ⟨first, clauses clause (List.mem_cons_self _ _)⟩)
      fun other mem => clauses other (List.mem_cons_of_mem _ mem)

/-- Over models of the same names, which are not empty, the loop of `synthesize` collects
conjunctive clauses over the names, and a valuation satisfies one of them exactly when it agrees
with a model where the table is true. -/
theorem foldlM_synthesizeStep {names : List Var} {pairs : List (Model × Bool)}
    (nonempty : names ≠ []) (over : ∀ pair ∈ pairs, pair.1.variables = names) :
    ∃ clauses, pairs.foldlM synthesizeStep [] = some clauses ∧
      (∀ clause ∈ clauses, clause.isConjunctiveClause = true ∧ clause.variables ⊆ names) ∧
      ∀ valuation, clauses.any (·.eval valuation) = pairs.any
        fun pair => pair.2 && pair.1.entries.all fun entry => valuation entry.1 == entry.2 := by
  refine foldlM_invariant (fun (done : List (Model × Bool)) (clauses : List Formula) =>
    (∀ clause ∈ clauses, clause.isConjunctiveClause = true ∧ clause.variables ⊆ names) ∧
      ∀ valuation, clauses.any (·.eval valuation) =
        done.any fun pair => pair.2 && pair.1.entries.all fun entry => valuation entry.1 == entry.2)
    ⟨by simp, by simp⟩ ?_
  rintro done ⟨model, val⟩ clauses isPrefix ⟨shaped, satisfied⟩
  have modelOver : model.variables = names :=
    over _ (isPrefix.subset (List.mem_append_right _ (List.mem_singleton_self _)))
  cases val with
  | false =>
    refine ⟨clauses, rfl, shaped, fun valuation => ?_⟩
    simp only [satisfied, List.any_append, List.any_cons, List.any_nil, Bool.false_and,
      Bool.or_false]
  | true =>
    obtain ⟨clause, found, conjunctive, clauseOver, clauseEval⟩ :=
      synthesizeForModel_spec fun (empty : model.entries = []) =>
        nonempty (by rw [← modelOver, Model.variables, empty, List.map_nil])
    refine ⟨clauses ++ [clause], by simp [synthesizeStep, found], ?_, fun valuation => ?_⟩
    · intro other mem
      rcases List.mem_append.mp mem with old | new
      · exact shaped other old
      · obtain rfl := List.mem_singleton.mp new
        exact ⟨conjunctive, modelOver ▸ clauseOver⟩
    · simp [satisfied, clauseEval]

/-- Two Boolean searches of one list agree when their tests agree on its members. -/
theorem any_congr_of_mem {α : Type} {test other : α → Bool} :
    ∀ {items : List α}, (∀ item ∈ items, test item = other item) →
      items.any test = items.any other
  | [], _ => rfl
  | item :: items, same => by
    simp [same item (List.mem_cons_self _ _),
      any_congr_of_mem fun next mem => same next (List.mem_cons_of_mem _ mem)]

/-- Searching a list of items with distinct keys, zipped with values, for the key of one of
them finds that item's value. -/
theorem map_any_zip_eq {α κ : Type} [DecidableEq κ] (key : α → κ) :
    ∀ {items : List α} {values : List Bool}, (items.map key).Nodup →
      items.length = values.length →
      items.map (fun item => (items.zip values).any
        fun pair => pair.2 && decide (key pair.1 = key item)) = values
  | [], [], _, _ => rfl
  | [], _ :: _, _, length => by simp at length
  | _ :: _, [], _, length => by simp at length
  | item :: items, value :: values, distinct, length => by
    obtain ⟨fresh, distinct⟩ := List.nodup_cons.mp distinct
    have absent : ((items.zip values).any
        fun pair => pair.2 && decide (key pair.1 = key item)) = false := by
      simp only [List.any_eq_false, Bool.and_eq_true, decide_eq_true_eq, not_and]
      rintro ⟨other, _⟩ mem _ same
      exact fresh (List.mem_map.mpr ⟨other, (List.of_mem_zip mem).1, same⟩)
    simp only [List.map_cons, List.zip_cons_cons, List.any_cons, decide_True, Bool.and_true, absent,
      Bool.or_false, List.cons.injEq, true_and]
    refine (List.map_congr_left fun other mem => ?_).trans
      (map_any_zip_eq key distinct (by simpa using length))
    have differ : key item ≠ key other := fun same =>
      fresh (same ▸ List.mem_map_of_mem key mem)
    simp [differ]

/-- Over distinct names, a formula over the names that a valuation satisfies exactly when it agrees
with a listed model where the table is true has the table as its truth values. -/
theorem truthValues_eq_of_eval {names : List Var} {values : List Bool} {formula : Formula}
    (distinct : names.Nodup) (length : values.length = 2 ^ names.length)
    (over : formula.variables ⊆ names)
    (satisfied : ∀ valuation, formula.eval valuation = ((allModels names).zip values).any
      fun pair => pair.2 && pair.1.entries.all fun entry => valuation entry.1 == entry.2) :
    truthValues formula (allModels names) = some values := by
  have listedOver {model : Model} (mem : model ∈ allModels names) : model.variables = names :=
    variables_of_mem_allModels distinct mem
  rw [truthValues, mapM_eq_some_map fun model mem =>
    evaluate_eq_some fun _ named => (listedOver mem).symm ▸ over named]
  congr 1
  calc (allModels names).map (fun model => formula.eval model.valuation)
      = (allModels names).map (fun model => ((allModels names).zip values).any
          fun pair => pair.2 && decide (pair.1.entries = model.entries)) := by
        refine List.map_congr_left fun model mem => ?_
        rw [satisfied]
        refine any_congr_of_mem fun pair inZip => ?_
        have paired := (List.of_mem_zip (show (pair.1, pair.2) ∈ _ from inZip)).1
        have sameNames : pair.1.entries.map Prod.fst = model.entries.map Prod.fst := by
          rw [← Model.variables, ← Model.variables, listedOver paired, listedOver mem]
        rw [all_agree_eq sameNames fun entry inEntries => Model.valuation_of_mem inEntries]
    _ = values := map_any_zip_eq Model.entries
        (by rw [map_entries_allModels distinct]; exact nodup_lexModels names)
        (by simp [length_allModels, length])

/-- Over distinct names, two formulas over the names with the same truth values in the models of
`all_models` agree under every valuation. -/
theorem eval_eq_of_truthValues_eq {names : List Var} {formula other : Formula}
    (distinct : names.Nodup) (over : formula.variables ⊆ names)
    (otherOver : other.variables ⊆ names)
    (same : truthValues formula (allModels names) = truthValues other (allModels names))
    (valuation : Var → Bool) :
    formula.eval valuation = other.eval valuation := by
  have listed {candidate : Formula} (candidateOver : candidate.variables ⊆ names) :
      truthValues candidate (allModels names) =
        some ((allModels names).map fun model => candidate.eval model.valuation) :=
    mapM_eq_some_map fun _ mem => evaluate_eq_some fun _ named =>
      (variables_of_mem_allModels distinct mem).symm ▸ candidateOver named
  rw [listed over, listed otherOver, Option.some.injEq, List.map_inj_left] at same
  obtain ⟨model, mem, agree⟩ := exists_mem_allModels_agree distinct valuation
  calc formula.eval valuation
      = formula.eval model.valuation :=
        Formula.eval_congr fun v named => (agree v (over named)).symm
    _ = other.eval model.valuation := same model mem
    _ = other.eval valuation := Formula.eval_congr fun v named => agree v (otherOver named)

/-- Over a nonempty list of distinct names, `synthesize` returns a formula in disjunctive normal
form over the names whose truth values in the models of `all_models` are the given table, the
table that is nowhere true included. -/
theorem synthesize_truthTable {names : List Var} {values : List Bool} (nonempty : names ≠ [])
    (distinct : names.Nodup) (length : values.length = 2 ^ names.length) :
    ∃ formula, synthesize names values = some formula ∧ formula.isDNF = true ∧
      formula.variables ⊆ names ∧ truthValues formula (allModels names) = some values := by
  obtain ⟨clauses, looped, shaped, satisfied⟩ := foldlM_synthesizeStep nonempty
    fun (pair : Model × Bool) (mem : pair ∈ (allModels names).zip values) =>
      variables_of_mem_allModels distinct (List.of_mem_zip mem).1
  obtain ⟨first, rest, rfl⟩ := List.exists_cons_of_ne_nil nonempty
  cases clauses with
  | nil =>
    refine ⟨.binary .and (.var first) (.not (.var first)), by simp [synthesize, looped], rfl,
      by simp, truthValues_eq_of_eval distinct length (by simp) fun valuation => ?_⟩
    simp [← satisfied valuation]
  | cons clause others =>
    have firstShaped := shaped clause (List.mem_cons_self _ _)
    have othersShaped (other : Formula) (mem : other ∈ others) :=
      shaped other (List.mem_cons_of_mem _ mem)
    have over : (others.foldl (.binary .or) clause).variables ⊆ first :: rest :=
      variables_foldl_or_subset others firstShaped.2 fun other mem => (othersShaped other mem).2
    refine ⟨others.foldl (.binary .or) clause, by simp [synthesize, looped],
      isDNF_foldl_or others (Formula.isDNF_of_isConjunctiveClause firstShaped.1)
        fun other mem => (othersShaped other mem).1, over,
      truthValues_eq_of_eval distinct length over fun valuation => ?_⟩
    rw [eval_foldl_or, ← satisfied valuation, List.any_cons]

/-- The table of `~(p & q)` over `p, q` is synthesized back. -/
theorem synthesize_truthTable_nand :
    [Var.p, Var.q] ≠ [] ∧ [Var.p, Var.q].Nodup ∧
      [true, true, true, false].length = 2 ^ [Var.p, Var.q].length ∧
      ∃ formula, synthesize [Var.p, Var.q] [true, true, true, false] = some formula ∧
        formula.isDNF = true ∧
          truthValues formula (allModels [Var.p, Var.q]) = some [true, true, true, false] :=
  ⟨by decide, by decide, rfl,
    (@synthesize_truthTable [Var.p, Var.q] [true, true, true, false]
      (by decide) (by decide) rfl).imp
      fun _ result => ⟨result.1, result.2.1, result.2.2.2⟩⟩

/-- Over a nonempty list of distinct names, `synthesize` returns a formula in disjunctive normal
form over the names that a valuation satisfies exactly when it agrees with a listed model whose
row of the table is true. As Python's zip does, rows past the last model are ignored, and models
past the end of a short table count as false. -/
theorem synthesize_eval {names : List Var} {values : List Bool} (nonempty : names ≠ [])
    (distinct : names.Nodup) :
    ∃ formula, synthesize names values = some formula ∧ formula.isDNF = true ∧
      formula.variables ⊆ names ∧ ∀ valuation, formula.eval valuation =
        ((allModels names).zip values).any
          fun pair => pair.2 && pair.1.entries.all fun entry => valuation entry.1 == entry.2 := by
  obtain ⟨clauses, looped, shaped, satisfied⟩ := foldlM_synthesizeStep nonempty
    fun (pair : Model × Bool) (mem : pair ∈ (allModels names).zip values) =>
      variables_of_mem_allModels distinct (List.of_mem_zip mem).1
  obtain ⟨first, rest, rfl⟩ := List.exists_cons_of_ne_nil nonempty
  cases clauses with
  | nil =>
    refine ⟨.binary .and (.var first) (.not (.var first)), by simp [synthesize, looped], rfl,
      by simp, fun valuation => ?_⟩
    simp [← satisfied valuation]
  | cons clause others =>
    have firstShaped := shaped clause (List.mem_cons_self _ _)
    have othersShaped (other : Formula) (mem : other ∈ others) :=
      shaped other (List.mem_cons_of_mem _ mem)
    refine ⟨others.foldl (.binary .or) clause, by simp [synthesize, looped],
      isDNF_foldl_or others (Formula.isDNF_of_isConjunctiveClause firstShaped.1)
        fun other mem => (othersShaped other mem).1,
      variables_foldl_or_subset others firstShaped.2 fun other mem => (othersShaped other mem).2,
      fun valuation => ?_⟩
    rw [eval_foldl_or, ← satisfied valuation, List.any_cons]

/-- Synthesis inverts the truth table: over a nonempty list of distinct names covering a formula,
`synthesize` of the formula's truth values in the models of `all_models` is a formula in
disjunctive normal form that agrees with it under every valuation. -/
theorem synthesize_truthValues_equivalent {formula : Formula} {names : List Var}
    (nonempty : names ≠ []) (distinct : names.Nodup) (covers : formula.variables ⊆ names) :
    ∃ values synthesized, truthValues formula (allModels names) = some values ∧
      synthesize names values = some synthesized ∧ synthesized.isDNF = true ∧
      ∀ valuation, synthesized.eval valuation = formula.eval valuation := by
  let values := (allModels names).map fun model => formula.eval model.valuation
  have tabled : truthValues formula (allModels names) = some values :=
    mapM_eq_some_map fun _ mem => evaluate_eq_some fun _ named =>
      (variables_of_mem_allModels distinct mem).symm ▸ covers named
  obtain ⟨synthesized, written, dnf, over, satisfied⟩ :=
    @synthesize_eval names values nonempty distinct
  have sameTable : truthValues synthesized (allModels names) = some values :=
    truthValues_eq_of_eval distinct (by simp only [values, List.length_map, length_allModels])
      over satisfied
  exact ⟨values, synthesized, tabled, written, dnf,
    eval_eq_of_truthValues_eq distinct over covers (sameTable.trans tabled.symm)⟩

/-- The table of `p -> q` over `p, q` is synthesized back to a formula equivalent to `p -> q`. -/
theorem synthesize_truthValues_equivalent_implication :
    [Var.p, Var.q] ≠ [] ∧ [Var.p, Var.q].Nodup ∧
      (Formula.binary .implies (.var .p) (.var .q)).variables ⊆ [.p, .q] ∧
      ∃ values synthesized,
        truthValues (.binary .implies (.var .p) (.var .q)) (allModels [.p, .q]) = some values ∧
        synthesize [.p, .q] values = some synthesized ∧ ∀ valuation,
          synthesized.eval valuation =
            (Formula.binary .implies (.var .p) (.var .q)).eval valuation :=
  ⟨by decide, by decide, by decide,
    (@synthesize_truthValues_equivalent (.binary .implies (.var .p) (.var .q)) [.p, .q]
      (by decide) (by decide) (by decide)).imp
      fun _ found => found.imp fun _ result => ⟨result.1, result.2.1, result.2.2.2⟩⟩

/-- Searching rows zipped with a table finds what searching them zipped with the table read row
by row does, a missing row counting as false. -/
theorem any_zip_eq_any_zip_getD {α : Type} (test : α → Bool) :
    ∀ (items : List α) (values : List Bool),
      (items.zip values).any (fun pair => pair.2 && test pair.1) =
        (items.zip ((List.range items.length).map fun i => values.getD i false)).any
          fun pair => pair.2 && test pair.1
  | [], _ => rfl
  | item :: items, values => by
    have shifted :
        ((fun i => values.getD i false) ∘ Nat.succ) = fun i => values.tail.getD i false := by
      funext i
      cases values <;> rfl
    rw [List.length_cons, List.range_succ_eq_map, List.map_cons, List.map_map, shifted,
      List.zip_cons_cons, List.any_cons, ← any_zip_eq_any_zip_getD test items values.tail]
    cases values with
    | nil => simp
    | cons value values => rfl

/-- Python's zip lets `synthesize` take a table of any length: the truth value of its formula in
the `i`-th model of `all_models` is row `i` of the table, false where the table is too short. -/
theorem synthesize_truthValues_getD {names : List Var} {values : List Bool}
    (nonempty : names ≠ []) (distinct : names.Nodup) :
    ∃ formula, synthesize names values = some formula ∧
      truthValues formula (allModels names) =
        some ((List.range (2 ^ names.length)).map fun i => values.getD i false) := by
  obtain ⟨formula, written, -, over, satisfied⟩ := @synthesize_eval names values nonempty distinct
  refine ⟨formula, written, truthValues_eq_of_eval distinct (by simp) over fun valuation => ?_⟩
  rw [satisfied, any_zip_eq_any_zip_getD fun model : Model =>
    model.entries.all fun entry => valuation entry.1 == entry.2, length_allModels]

/-- A one-row table over one name leaves the second model false. -/
theorem synthesize_truthValues_getD_shortTable :
    [Var.p] ≠ [] ∧ [Var.p].Nodup ∧ ∃ formula, synthesize [Var.p] [true] = some formula ∧
      truthValues formula (allModels [Var.p]) = some [true, false] :=
  ⟨by decide, by decide,
    (@synthesize_truthValues_getD [Var.p] [true] (by decide) (by decide)).imp
      fun _ result => ⟨result.1, result.2⟩⟩

end Propositions
