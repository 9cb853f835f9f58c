import Propositions.AxiomaticSystems

/-!
# Validity of a proof, line by line

`Proof.is_valid` checks each line by its index against the whole proof. Since a line may only
cite earlier lines, whether it is valid depends only on the lines before it; `LineValid` states
that, and `isValid_iff` shows that the index-based check is the same as every line being valid
after its prefix. The deduction engine builds proofs by appending lines, and the lemmas here are
what it needs: appending a valid line keeps a valid prefix valid, and more assumptions or more
rules never make a valid line invalid.
-/

namespace Propositions

/-- The formula of line `i` among `lines`, if there is such a line. -/
def formulaAt (lines : List Line) (i : Nat) : Option Formula :=
  lines[i]?.map Line.formula

/-- `line` is justified when it follows the lines `earlier`: an assumption line holds one of
`assumptions`; a derived line names one of `rules`, and the formulas of the earlier lines it
cites, with its own formula, specialize that rule. -/
def LineValid (assumptions : List Formula) (rules : Finset InferenceRule) (earlier : List Line) :
    Line → Prop
  | .assumption formula => formula ∈ assumptions
  | .derived formula rule cited =>
    rule ∈ rules ∧ ∃ premises, cited.mapM (formulaAt earlier) = some premises ∧
      (⟨premises, formula⟩ : InferenceRule).isSpecializationOf rule = true

/-- Every line is justified by the lines before it. -/
def LinesValid (assumptions : List Formula) (rules : Finset InferenceRule) (lines : List Line) :
    Prop :=
  ∀ n (bound : n < lines.length), LineValid assumptions rules (lines.take n) lines[n]

section Lookup

variable {lines later : List Line} {cited : List Nat} {premises : List Formula}

/-- Appending lines leaves the formula at an index before them. -/
theorem formulaAt_append_left {i : Nat} (bound : i < lines.length) :
    formulaAt (lines ++ later) i = formulaAt lines i := by
  simp [formulaAt, List.getElem?_append_left bound]

/-- The formula at an index past the first lines is read from the appended ones. -/
theorem formulaAt_append_right (i : Nat) :
    formulaAt (lines ++ later) (lines.length + i) = formulaAt later i := by
  simp only [formulaAt, List.getElem?_append_right (Nat.le_add_right _ _),
    Nat.add_sub_cancel_left]

/-- A prefix of `n` lines has the formulas of the lines before `n`. -/
theorem formulaAt_take (n i : Nat) :
    formulaAt (lines.take n) i = if i < n then formulaAt lines i else none := by
  simp only [formulaAt, List.getElem?_take]
  split_ifs <;> rfl

/-- The formula at the length of the first lines is that of the next line. -/
@[simp]
theorem formulaAt_append_length (line : Line) :
    formulaAt (lines ++ line :: later) lines.length = some line.formula := by
  simp only [formulaAt, List.getElem?_append_right (Nat.le_refl _), Nat.sub_self,
    List.getElem?_cons_zero, Option.map_some']

/-- The formula at an index equal to the first lines' length is that of the next line. -/
theorem formulaAt_of_length {i : Nat} (line : Line) (length : lines.length = i) :
    formulaAt (lines ++ line :: later) i = some line.formula := by
  subst length
  exact formulaAt_append_length line

/-- The source's `len(new_lines) - 1`: the line just written. -/
@[simp]
theorem formulaAt_written_last (line : Line) :
    formulaAt (lines ++ [line]) ((lines ++ [line]).length - 1) = some line.formula :=
  formulaAt_of_length line (by rw [List.length_append, List.length_singleton, Nat.add_sub_cancel])

/-- The source's `len(new_lines) - 2`: the line written before the last. -/
@[simp]
theorem formulaAt_written_second_last (line line' : Line) :
    formulaAt (lines ++ [line] ++ [line']) ((lines ++ [line] ++ [line']).length - 2) =
      some line.formula := by
  rw [List.append_assoc]
  exact formulaAt_of_length line (by simp only [List.length_append, List.length_singleton]; omega)

/-- Lines with `line` appended end with `line`. -/
theorem getLast?_map_formula_append (line : Line) :
    (lines ++ [line]).getLast?.map Line.formula = some line.formula := by
  rw [List.getLast?_concat]
  rfl

/-- The last index holds the last line's formula. -/
theorem formulaAt_last {formula : Formula} (last : lines.getLast?.map Line.formula = some formula) :
    formulaAt lines (lines.length - 1) = some formula := by
  rwa [formulaAt, ← List.getLast?_eq_getElem?]

/-- An index that holds a formula is inside the lines. -/
theorem lt_length_of_formulaAt {i : Nat} {formula : Formula}
    (found : formulaAt lines i = some formula) : i < lines.length := by
  by_contra outside
  simp [formulaAt, List.getElem?_eq_none (Nat.le_of_not_lt outside)] at found

/-- Appending lines leaves every formula found. -/
theorem formulaAt_append_of_some {i : Nat} {formula : Formula}
    (found : formulaAt lines i = some formula) : formulaAt (lines ++ later) i = some formula := by
  rw [formulaAt_append_left (lt_length_of_formulaAt found), found]

/-- A line citing two lines reads exactly their two formulas. -/
theorem mapM_formulaAt_pair {i j : Nat} {first second : Formula} :
    [i, j].mapM (formulaAt lines) = some [first, second] ↔
      formulaAt lines i = some first ∧ formulaAt lines j = some second := by
  simp only [List.mapM_cons, List.mapM_nil, Option.bind_eq_bind, Option.pure_def,
    Option.bind_eq_some, Option.some.injEq, List.cons.injEq, and_true, exists_eq_left,
    exists_and_left, exists_eq_right, exists_eq_right_right]

/-- The formulas a line cites stay where they are when lines are appended. -/
theorem mapM_formulaAt_append (found : cited.mapM (formulaAt lines) = some premises) :
    cited.mapM (formulaAt (lines ++ later)) = some premises := by
  induction cited generalizing premises with
  | nil => exact found
  | cons i cited ih =>
    simp only [List.mapM_cons, Option.bind_eq_bind, Option.bind_eq_some, Option.pure_def,
      Option.some.injEq] at found ⊢
    obtain ⟨formula, head, rest, restFound, rfl⟩ := found
    exact ⟨formula, formulaAt_append_of_some head, rest, ih restFound, rfl⟩

/-- Reading cited formulas from a prefix of `n` lines succeeds when every citation is below
`n`, and then reads what the whole list holds. -/
theorem mapM_formulaAt_take (n : Nat) :
    cited.mapM (formulaAt (lines.take n)) =
      if cited.all (· < n) then cited.mapM (formulaAt lines) else none := by
  induction cited with
  | nil => rfl
  | cons i cited ih =>
    rw [List.mapM_cons, List.mapM_cons, ih, formulaAt_take]
    by_cases below : i < n
    · by_cases rest : cited.all (· < n) = true <;> simp [-List.mapM, below, rest]
    · simp [below]

end Lookup

section Monotone

variable {assumptions assumptions' : List Formula} {rules rules' : Finset InferenceRule}
  {earlier lines : List Line} {line : Line}

/-- A valid line stays valid under more assumptions and more rules. -/
theorem LineValid.mono (valid : LineValid assumptions rules earlier line)
    (moreAssumptions : assumptions ⊆ assumptions') (moreRules : rules ⊆ rules') :
    LineValid assumptions' rules' earlier line := by
  cases line with
  | assumption formula => exact moreAssumptions valid
  | derived formula rule cited => exact ⟨moreRules valid.1, valid.2⟩

/-- Lines valid from some assumptions and rules stay valid from more. -/
theorem LinesValid.mono (valid : LinesValid assumptions rules lines)
    (moreAssumptions : assumptions ⊆ assumptions') (moreRules : rules ⊆ rules') :
    LinesValid assumptions' rules' lines :=
  fun n bound => (valid n bound).mono moreAssumptions moreRules

/-- No lines are valid. -/
@[simp]
theorem linesValid_nil : LinesValid assumptions rules [] := fun _ bound => absurd bound (by simp)

/-- Appending one line keeps the proof valid exactly when that line is valid after it. -/
theorem linesValid_append_singleton :
    LinesValid assumptions rules (lines ++ [line]) ↔
      LinesValid assumptions rules lines ∧ LineValid assumptions rules lines line := by
  have grown : (lines ++ [line]).length = lines.length + 1 := by
    rw [List.length_append, List.length_singleton]
  constructor
  · intro valid
    refine ⟨fun n bound => ?_, ?_⟩
    · have atN := valid n (grown ▸ Nat.lt_succ_of_lt bound)
      rwa [List.take_append_of_le_length bound.le, List.getElem_append_left bound] at atN
    · have atLast := valid lines.length (grown ▸ Nat.lt_succ_self _)
      rwa [List.take_left, List.getElem_concat_length _ _ _ rfl] at atLast
  · rintro ⟨valid, last⟩ n bound
    have below : n < lines.length + 1 := grown ▸ bound
    rcases Nat.lt_succ_iff_lt_or_eq.mp below with inside | rfl
    · rw [List.take_append_of_le_length inside.le, List.getElem_append_left inside]
      exact valid n inside
    · rw [List.take_left, List.getElem_concat_length _ _ _ rfl]
      exact last

/-- A line valid after valid lines extends them to valid lines, as a proof is written one line at
a time. -/
theorem LinesValid.snoc (valid : LinesValid assumptions rules lines)
    (lineValid : LineValid assumptions rules lines line) :
    LinesValid assumptions rules (lines ++ [line]) :=
  linesValid_append_singleton.mpr ⟨valid, lineValid⟩

/-- Appending lines keeps the proof valid exactly when each appended line is valid after all
the lines before it. -/
theorem linesValid_append {more : List Line} :
    LinesValid assumptions rules (lines ++ more) ↔
      LinesValid assumptions rules lines ∧
        ∀ n (bound : n < more.length),
          LineValid assumptions rules (lines ++ more.take n) more[n] := by
  induction more using List.reverseRecOn with
  | nil => simp
  | append_singleton more line ih =>
    have grown : (more ++ [line]).length = more.length + 1 := by
      rw [List.length_append, List.length_singleton]
    rw [← List.append_assoc, linesValid_append_singleton, ih]
    constructor
    · rintro ⟨⟨valid, inside⟩, last⟩
      refine ⟨valid, fun n bound => ?_⟩
      have below : n < more.length + 1 := grown ▸ bound
      rcases Nat.lt_succ_iff_lt_or_eq.mp below with earlier | rfl
      · rw [List.take_append_of_le_length earlier.le, List.getElem_append_left earlier]
        exact inside n earlier
      · rw [List.take_left, List.getElem_concat_length _ _ _ rfl]
        exact last
    · rintro ⟨valid, appended⟩
      have atLast := appended more.length (grown ▸ Nat.lt_succ_self _)
      rw [List.take_left, List.getElem_concat_length _ _ _ rfl] at atLast
      refine ⟨⟨valid, fun n bound => ?_⟩, atLast⟩
      have atN := appended n (grown ▸ Nat.lt_succ_of_lt bound)
      rwa [List.take_append_of_le_length bound.le, List.getElem_append_left bound] at atN

/-- A line valid in a proof is valid after the lines before it. -/
theorem LinesValid.line_of_prefix {done : List Line} (valid : LinesValid assumptions rules lines)
    (isPrefix : done ++ [line] <+: lines) : LineValid assumptions rules done line := by
  obtain ⟨rest, rfl⟩ := isPrefix
  exact (linesValid_append_singleton.mp (linesValid_append.mp valid).1).2

/-- An assumptionless line is valid when it names a permitted rule that its formula
specializes. -/
theorem lineValid_instance {formula : Formula} {rule : InferenceRule} (member : rule ∈ rules)
    (specializes : (InferenceRule.mk [] formula).isSpecializationOf rule = true) :
    LineValid assumptions rules earlier (.derived formula rule []) :=
  ⟨member, [], rfl, specializes⟩

/-- A Modus Ponens line is valid when its first citation proves `a` and its second `a -> b`. -/
theorem lineValid_mp {i j : Nat} {antecedent consequent : Formula} (member : MP ∈ rules)
    (first : formulaAt earlier i = some antecedent)
    (second : formulaAt earlier j = some (.binary .implies antecedent consequent)) :
    LineValid assumptions rules earlier (.derived consequent MP [i, j]) :=
  ⟨member, _, mapM_formulaAt_pair.mpr ⟨first, second⟩, mp_instance _ _⟩

end Monotone

namespace Proof

/-- The rule a derived line claims to specialize: the formulas of the lines it cites, then its
own formula. -/
theorem ruleForLine_eq {proof : Proof} {n : Nat} {formula : Formula} {rule : InferenceRule}
    {cited : List Nat} (found : proof.lines[n]? = some (.derived formula rule cited)) :
    proof.ruleForLine n =
      (cited.mapM (formulaAt proof.lines)).map fun premises => ⟨premises, formula⟩ := by
  simp only [ruleForLine, found]
  rfl

/-- Line `n` passes `is_line_valid` exactly when it exists and is valid after the lines before
it. -/
theorem isLineValid_iff (proof : Proof) (n : Nat) :
    proof.isLineValid n = true ↔ ∃ line, proof.lines[n]? = some line ∧
      LineValid proof.statement.assumptions proof.rules (proof.lines.take n) line := by
  cases found : proof.lines[n]? with
  | none => simp only [isLineValid, found, Bool.false_eq_true, reduceCtorEq, false_and,
    exists_false]
  | some line =>
    cases line with
    | assumption formula =>
      simp only [isLineValid, found, decide_eq_true_eq, Option.some.injEq, exists_eq_left',
        LineValid]
    | derived formula rule cited =>
      simp only [isLineValid, found, ruleForLine_eq found, Option.some.injEq, exists_eq_left',
        LineValid, Bool.and_eq_true, decide_eq_true_eq, mapM_formulaAt_take]
      by_cases below : cited.all (· < n) = true
      · cases reading : cited.mapM (formulaAt proof.lines) <;> simp [-List.mapM, below, reading]
      · simp [below]

/-- `is_valid` holds exactly when the last line proves the conclusion and every line is valid
after the lines before it. -/
theorem isValid_iff (proof : Proof) :
    proof.isValid = true ↔
      proof.lines.getLast?.map Line.formula = some proof.statement.conclusion ∧
        LinesValid proof.statement.assumptions proof.rules proof.lines := by
  unfold isValid
  cases last : proof.lines.getLast? with
  | none => simp
  | some line =>
    simp only [Bool.and_eq_true, decide_eq_true_eq, Option.map_some', Option.some.injEq,
      List.all_eq_true, List.mem_range, isLineValid_iff, LinesValid]
    refine and_congr_right fun _ => forall_congr' fun n => ?_
    constructor
    · intro valid bound
      obtain ⟨found, at_n, lineValid⟩ := valid bound
      rw [List.getElem?_eq_getElem bound, Option.some.injEq] at at_n
      rwa [at_n]
    · intro valid bound
      exact ⟨_, List.getElem?_eq_getElem bound, valid bound⟩

end Proof

end Propositions
