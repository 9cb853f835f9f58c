import Propositions.Deduction
import Propositions.ProofValidity

/-!
# Corollaries and combinations of proofs

`prove_corollary`, `combine_proofs` and `prove_from_opposites` append a fixed gadget to valid
proofs. Each returns a valid proof of its target. The lines of the inputs stay valid where they
land: the second proof of a combination after its citations are moved up by the length of the
first, which `LineValid.shift` shows reads the same formulas. The gadget's lines cite exactly the
last lines of the inputs and the axiom line before them.
-/

namespace Propositions

section Shift

variable {assumptions : List Formula} {rules : Finset InferenceRule} {before earlier : List Line}

/-- Shifting a line's references leaves its formula. -/
@[simp]
theorem formula_shiftLine (shift : Nat) (line : Line) :
    (shiftLine shift line).formula = line.formula := by
  cases line <;> rfl

/-- Shifting the references of lines leaves the formula at every index. -/
@[simp]
theorem formulaAt_map_shiftLine (shift i : Nat) :
    formulaAt (earlier.map (shiftLine shift)) i = formulaAt earlier i := by
  simp [formulaAt, Option.map_map, Function.comp_def]

/-- The formula at a shifted index of the appended shifted lines is that of the original line. -/
theorem formulaAt_shift (i : Nat) :
    formulaAt (before ++ earlier.map (shiftLine before.length)) (i + before.length) =
      formulaAt earlier i := by
  rw [Nat.add_comm, formulaAt_append_right, formulaAt_map_shiftLine]

/-- Reading shifted references from the appended shifted lines reads the original premises. -/
theorem mapM_formulaAt_shift (cited : List Nat) :
    (cited.map (· + before.length)).mapM
        (formulaAt (before ++ earlier.map (shiftLine before.length))) =
      cited.mapM (formulaAt earlier) := by
  induction cited with
  | nil => rfl
  | cons i cited ih => simp only [List.map_cons, List.mapM_cons, formulaAt_shift, ih]

/-- A line moved up by the length of `before`, its citations with it, stays valid after `before`
and the moved lines before it. -/
theorem LineValid.shift {line : Line} (valid : LineValid assumptions rules earlier line)
    (before : List Line) :
    LineValid assumptions rules (before ++ earlier.map (shiftLine before.length))
      (shiftLine before.length line) := by
  cases line with
  | assumption formula => exact valid
  | derived formula rule cited =>
    obtain ⟨member, premises, found, specializes⟩ := valid
    exact ⟨member, premises, (mapM_formulaAt_shift cited).trans found, specializes⟩

/-- Valid lines appended after valid lines, with their citations moved up, keep the whole
valid. -/
theorem linesValid_shift {lines : List Line} (first : LinesValid assumptions rules before)
    (second : LinesValid assumptions rules lines) :
    LinesValid assumptions rules (before ++ lines.map (shiftLine before.length)) :=
  linesValid_append.mpr ⟨first, fun n bound => by
    simpa [← List.map_take] using (second n (by simpa using bound)).shift before⟩

end Shift

/-- Modus Ponens is among the rules a gadget permits. -/
theorem mp_mem_union_pair (rules : Finset InferenceRule) (rule : InferenceRule) :
    MP ∈ rules ∪ {MP, rule} :=
  Finset.mem_union_right _ (Finset.mem_insert_self _ _)

/-- The rule a gadget adds is among the rules it permits. -/
theorem mem_union_pair (rules : Finset InferenceRule) (rule : InferenceRule) :
    rule ∈ rules ∪ {MP, rule} :=
  Finset.mem_union_right _ (Finset.mem_insert_of_mem (Finset.mem_singleton_self _))

/-- A proof whose last line has a formula has a line. -/
theorem length_pos_of_last {lines : List Line} {formula : Formula}
    (last : lines.getLast?.map Line.formula = some formula) : 0 < lines.length := by
  obtain ⟨line, isLast, _⟩ := Option.map_eq_some'.mp last
  exact List.length_pos_of_mem (List.mem_of_getLast?_eq_some isLast)

/-- Take any valid proof of `a`, any formula `c` and any rule of which `⊢ a -> c` is a
specialization: `prove_corollary` returns a valid proof of `c` from the same assumptions, with the
rule and Modus Ponens added, whose lines are the proof's followed by the axiom line and a Modus
Ponens line citing the proof's last line and that axiom line. -/
theorem proveCorollary_valid {antecedentProof : Proof} {consequent : Formula}
    {conditional : InferenceRule} (valid : antecedentProof.isValid = true)
    (specializes : (InferenceRule.mk []
      (.binary .implies antecedentProof.statement.conclusion consequent)).isSpecializationOf
        conditional = true) :
    ∃ proof, proveCorollary antecedentProof consequent conditional = some proof ∧
      proof.isValid = true ∧
      proof.statement = ⟨antecedentProof.statement.assumptions, consequent⟩ ∧
      proof.rules = antecedentProof.rules ∪ {MP, conditional} ∧
      proof.lines = antecedentProof.lines ++
        [.derived (.binary .implies antecedentProof.statement.conclusion consequent) conditional [],
          .derived consequent MP [antecedentProof.lines.length - 1, antecedentProof.lines.length]] := by
  obtain ⟨last, linesValid⟩ := (Proof.isValid_iff _).mp valid
  have nonempty := length_pos_of_last last
  rw [proveCorollary, if_pos (by simp [valid, specializes])]
  simp only [Option.some.injEq, exists_eq_left', List.length_append, List.length_singleton,
    Nat.add_sub_cancel, Nat.reduceSubDiff, true_and]
  have kept : LinesValid antecedentProof.statement.assumptions
      (antecedentProof.rules ∪ {MP, conditional}) antecedentProof.lines :=
    linesValid.mono (List.Subset.refl _) Finset.subset_union_left
  have withAxiom := kept.snoc (lineValid_instance (mem_union_pair _ _) specializes)
  have concluded := withAxiom.snoc (lineValid_mp (mp_mem_union_pair _ _)
    ((formulaAt_append_left (by omega)).trans (formulaAt_last last)) (formulaAt_of_length _ rfl))
  exact ⟨(Proof.isValid_iff _).mpr ⟨getLast?_map_formula_append _, concluded⟩,
    List.append_assoc _ _ _⟩

/-- From the proof of `p` from `p`, `I1` gives a valid proof of `q -> p`. -/
theorem proveCorollary_valid_weakening :
    Proof.isValid ⟨⟨[.var .p], .var .p⟩, ∅, [.assumption (.var .p)]⟩ = true ∧
      (InferenceRule.mk [] (.binary .implies (.var .p) (.binary .implies (.var .q) (.var .p)))).isSpecializationOf
        I1 = true ∧
      ∃ proof, proveCorollary ⟨⟨[.var .p], .var .p⟩, ∅, [.assumption (.var .p)]⟩
        (.binary .implies (.var .q) (.var .p)) I1 = some proof ∧ proof.isValid = true :=
  ⟨by decide, by decide,
    (proveCorollary_valid (by decide) (by decide)).imp fun _ result => ⟨result.1, result.2.1⟩⟩

section Gadget

variable {assumptions : List Formula} {rules rules' : Finset InferenceRule}
  {first second : List Line} {antecedent1 antecedent2 consequent : Formula} {rule : InferenceRule}

/-- The lines `combine_proofs` writes are valid: the first proof's lines, the second's moved up
after them, the axiom line, and the two Modus Ponens lines citing the last line of each proof. -/
theorem linesValid_combined (valid1 : LinesValid assumptions rules first)
    (valid2 : LinesValid assumptions rules second)
    (last1 : first.getLast?.map Line.formula = some antecedent1)
    (last2 : second.getLast?.map Line.formula = some antecedent2)
    (included : rules ⊆ rules') (hasMP : MP ∈ rules') (hasRule : rule ∈ rules')
    (specializes : (InferenceRule.mk [] (.binary .implies antecedent1
      (.binary .implies antecedent2 consequent))).isSpecializationOf rule = true) :
    LinesValid assumptions rules' (first ++ second.map (shiftLine first.length) ++
      [.derived (.binary .implies antecedent1 (.binary .implies antecedent2 consequent)) rule []] ++
      [.derived (.binary .implies antecedent2 consequent) MP
        [first.length - 1, first.length + second.length]] ++
      [.derived consequent MP
        [first.length + second.length - 1, first.length + second.length + 1]]) := by
  have nonempty1 := length_pos_of_last last1
  have nonempty2 := length_pos_of_last last2
  have proved1 : formulaAt (first ++ second.map (shiftLine first.length)) (first.length - 1) =
      some antecedent1 := (formulaAt_append_left (by omega)).trans (formulaAt_last last1)
  have proved2 : formulaAt (first ++ second.map (shiftLine first.length))
      (first.length + second.length - 1) = some antecedent2 := by
    rw [show first.length + second.length - 1 = first.length + (second.length - 1) by omega,
      formulaAt_append_right, formulaAt_map_shiftLine]
    exact formulaAt_last last2
  have shifted := linesValid_shift (valid1.mono (List.Subset.refl _) included)
    (valid2.mono (List.Subset.refl _) included)
  have withAxiom := shifted.snoc (lineValid_instance hasRule specializes)
  have firstMP : LinesValid assumptions rules'
      (_ ++ [.derived (.binary .implies antecedent2 consequent) MP
        [first.length - 1, first.length + second.length]]) :=
    withAxiom.snoc
      (lineValid_mp hasMP (formulaAt_append_of_some proved1) (formulaAt_of_length _ (by simp)))
  exact firstMP.snoc
    (lineValid_mp hasMP (formulaAt_append_of_some (formulaAt_append_of_some proved2))
      (formulaAt_of_length _ (by simp [Nat.add_assoc])))

end Gadget

/-- Take any valid proofs of `a1` and `a2` from equal assumptions by equal rules, any formula `c`
and any rule of which `⊢ a1 -> (a2 -> c)` is a specialization: `combine_proofs` returns a valid
proof of `c` from those assumptions, with the rule and Modus Ponens added. Its lines are the
first proof's, the second proof's with every citation moved up by the length of the first, the
axiom line, and Modus Ponens lines from the last line of the first proof and from the last line
of the second. -/
theorem combineProofs_valid {antecedent1Proof antecedent2Proof : Proof} {consequent : Formula}
    {doubleConditional : InferenceRule} (valid1 : antecedent1Proof.isValid = true)
    (valid2 : antecedent2Proof.isValid = true)
    (sameAssumptions :
      antecedent1Proof.statement.assumptions = antecedent2Proof.statement.assumptions)
    (sameRules : antecedent1Proof.rules = antecedent2Proof.rules)
    (specializes : (InferenceRule.mk [] (.binary .implies antecedent1Proof.statement.conclusion
      (.binary .implies antecedent2Proof.statement.conclusion consequent))).isSpecializationOf
        doubleConditional = true) :
    ∃ proof, combineProofs antecedent1Proof antecedent2Proof consequent doubleConditional =
        some proof ∧
      proof.isValid = true ∧
      proof.statement = ⟨antecedent1Proof.statement.assumptions, consequent⟩ ∧
      proof.rules = antecedent1Proof.rules ∪ {MP, doubleConditional} ∧
      proof.lines = antecedent1Proof.lines ++
        antecedent2Proof.lines.map (fun line => match line with
          | .assumption formula => .assumption formula
          | .derived formula rule cited =>
            .derived formula rule (cited.map (· + antecedent1Proof.lines.length))) ++
        [.derived (.binary .implies antecedent1Proof.statement.conclusion
            (.binary .implies antecedent2Proof.statement.conclusion consequent)) doubleConditional [],
          .derived (.binary .implies antecedent2Proof.statement.conclusion consequent) MP
            [antecedent1Proof.lines.length - 1,
              antecedent1Proof.lines.length + antecedent2Proof.lines.length],
          .derived consequent MP
            [antecedent1Proof.lines.length + antecedent2Proof.lines.length - 1,
              antecedent1Proof.lines.length + antecedent2Proof.lines.length + 1]] := by
  obtain ⟨last1, lines1⟩ := (Proof.isValid_iff _).mp valid1
  obtain ⟨last2, lines2⟩ := (Proof.isValid_iff _).mp valid2
  rw [← sameAssumptions, ← sameRules] at lines2
  rw [combineProofs, if_pos (by simp [valid1, valid2, sameAssumptions, sameRules, specializes])]
  simp only [Option.some.injEq, exists_eq_left', List.length_append, List.length_map,
    List.length_singleton, Nat.add_sub_cancel, true_and]
  exact ⟨(Proof.isValid_iff _).mpr ⟨getLast?_map_formula_append _, linesValid_combined lines1
      lines2 last1 last2 Finset.subset_union_left (mp_mem_union_pair _ _) (mem_union_pair _ _)
      specializes⟩,
    by simp only [List.append_assoc, List.singleton_append]; rfl⟩

/-- Two copies of the proof of `p` from `p`, combined by `I1`, give a valid proof of `p`. -/
theorem combineProofs_valid_twice :
    Proof.isValid ⟨⟨[.var .p], .var .p⟩, ∅, [.assumption (.var .p)]⟩ = true ∧
      (InferenceRule.mk [] (.binary .implies (.var .p)
        (.binary .implies (.var .p) (.var .p)))).isSpecializationOf I1 = true ∧
      ∃ proof, combineProofs ⟨⟨[.var .p], .var .p⟩, ∅, [.assumption (.var .p)]⟩
        ⟨⟨[.var .p], .var .p⟩, ∅, [.assumption (.var .p)]⟩ (.var .p) I1 = some proof ∧
        proof.isValid = true :=
  ⟨by decide, by decide, (combineProofs_valid (by decide) (by decide) rfl rfl (by decide)).imp
    fun _ result => ⟨result.1, result.2.1⟩⟩

/-- Take any valid proofs of `a` and of `~a` from equal assumptions by equal rules, and any
formula `c`: the assertion of `combine_proofs` that `⊢ ~a -> (a -> c)` specializes `I2` holds,
and `prove_from_opposites` returns a valid proof of `c` from those assumptions with Modus Ponens
and `I2` added. -/
theorem proveFromOpposites_valid {proofOfAffirmation proofOfNegation : Proof} {conclusion : Formula}
    (affirmationValid : proofOfAffirmation.isValid = true)
    (negationValid : proofOfNegation.isValid = true)
    (sameAssumptions :
      proofOfAffirmation.statement.assumptions = proofOfNegation.statement.assumptions)
    (negates : proofOfNegation.statement.conclusion = .not proofOfAffirmation.statement.conclusion)
    (sameRules : proofOfAffirmation.rules = proofOfNegation.rules) :
    (InferenceRule.mk [] (.binary .implies proofOfNegation.statement.conclusion
      (.binary .implies proofOfAffirmation.statement.conclusion conclusion))).isSpecializationOf
        I2 = true ∧
    ∃ proof, proveFromOpposites proofOfAffirmation proofOfNegation conclusion = some proof ∧
      proof.isValid = true ∧
      proof.statement = ⟨proofOfAffirmation.statement.assumptions, conclusion⟩ ∧
      proof.rules = proofOfAffirmation.rules ∪ {MP, I2} := by
  have explosion : (InferenceRule.mk [] (.binary .implies proofOfNegation.statement.conclusion
      (.binary .implies proofOfAffirmation.statement.conclusion conclusion))).isSpecializationOf
        I2 = true := by
    rw [negates]
    exact i2_instance _ _
  obtain ⟨lastAffirmation, linesAffirmation⟩ := (Proof.isValid_iff _).mp affirmationValid
  obtain ⟨lastNegation, linesNegation⟩ := (Proof.isValid_iff _).mp negationValid
  rw [sameAssumptions, sameRules] at linesAffirmation
  refine ⟨explosion, ?_⟩
  rw [proveFromOpposites, if_pos (by simp [affirmationValid, negationValid, sameAssumptions,
    negates, sameRules]), combineProofs, if_pos (by simp [affirmationValid, negationValid,
    sameAssumptions, sameRules, explosion])]
  simp only [Option.some.injEq, exists_eq_left', List.length_append, List.length_map,
    List.length_singleton, Nat.add_sub_cancel, sameAssumptions, sameRules, and_true]
  exact (Proof.isValid_iff _).mpr ⟨getLast?_map_formula_append _, linesValid_combined
    linesNegation linesAffirmation lastNegation lastAffirmation Finset.subset_union_left
    (mp_mem_union_pair _ _) (mem_union_pair _ _) explosion⟩

/-- From `p` and `~p`, `prove_from_opposites` gives a valid proof of `q`. -/
theorem proveFromOpposites_valid_explosion :
    Proof.isValid ⟨⟨[.var .p, .not (.var .p)], .var .p⟩, ∅, [.assumption (.var .p)]⟩ = true ∧
      Proof.isValid ⟨⟨[.var .p, .not (.var .p)], .not (.var .p)⟩, ∅,
        [.assumption (.not (.var .p))]⟩ = true ∧
      ∃ proof, proveFromOpposites ⟨⟨[.var .p, .not (.var .p)], .var .p⟩, ∅, [.assumption (.var .p)]⟩
        ⟨⟨[.var .p, .not (.var .p)], .not (.var .p)⟩, ∅, [.assumption (.not (.var .p))]⟩
          (.var .q) = some proof ∧ proof.isValid = true :=
  ⟨by decide, by decide,
    (@proveFromOpposites_valid ⟨⟨[.var .p, .not (.var .p)], .var .p⟩, ∅, [.assumption (.var .p)]⟩
      ⟨⟨[.var .p, .not (.var .p)], .not (.var .p)⟩, ∅, [.assumption (.not (.var .p))]⟩ (.var .q)
      (by decide) (by decide) rfl rfl rfl).2.imp fun _ result => ⟨result.1, result.2.1⟩⟩

end Propositions
