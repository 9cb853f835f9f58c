import Propositions.Proofs

/-!
# The axiom schemas of the deduction engine

`axiomatic_systems.py` is not among the sources; the deduction engine adds its rules to the
proofs it builds. The specification fixes them up to the names of their variables `p`, `q`
and `r`: Modus Ponens and five assumptionless schemas. Each instance lemma below names the
substitution that makes a formula the deduction engine writes a specialization of its schema;
for Modus Ponens the converse holds too, so every line it justifies has the shape `{a, a -> b} ⊢ b`.
-/

namespace Propositions

/-- Modelled from the spec: `axiomatic_systems.MP`, `{p, p -> q} ⊢ q`. -/
def MP : InferenceRule :=
  ⟨[.var .p, .binary .implies (.var .p) (.var .q)], .var .q⟩

/-- Modelled from the spec: `axiomatic_systems.I0`, reflexivity, `⊢ p -> p`. -/
def I0 : InferenceRule :=
  ⟨[], .binary .implies (.var .p) (.var .p)⟩

/-- Modelled from the spec: `axiomatic_systems.I1`, weakening, `⊢ p -> (q -> p)`. -/
def I1 : InferenceRule :=
  ⟨[], .binary .implies (.var .p) (.binary .implies (.var .q) (.var .p))⟩

/-- Modelled from the spec: `axiomatic_systems.D`, distribution,
`⊢ (p -> (q -> r)) -> ((p -> q) -> (p -> r))`. -/
def D : InferenceRule :=
  ⟨[], .binary .implies (.binary .implies (.var .p) (.binary .implies (.var .q) (.var .r)))
    (.binary .implies (.binary .implies (.var .p) (.var .q)) (.binary .implies (.var .p) (.var .r)))⟩

/-- Modelled from the spec: `axiomatic_systems.N`, `⊢ (~p -> ~q) -> (q -> p)`. -/
def N : InferenceRule :=
  ⟨[], .binary .implies (.binary .implies (.not (.var .p)) (.not (.var .q)))
    (.binary .implies (.var .q) (.var .p))⟩

/-- Modelled from the spec: `axiomatic_systems.I2`, explosion, `⊢ ~p -> (p -> q)`. -/
def I2 : InferenceRule :=
  ⟨[], .binary .implies (.not (.var .p)) (.binary .implies (.var .p) (.var .q))⟩

/-- The names `q` and `p` differ. -/
theorem Var.q_ne_p : Var.q ≠ Var.p := by decide

/-- The names `r` and `p` differ. -/
theorem Var.r_ne_p : Var.r ≠ Var.p := by decide

/-- The names `r` and `q` differ. -/
theorem Var.r_ne_q : Var.r ≠ Var.q := by decide

/-- The substitution sending `p`, `q` and `r` to three given formulas. -/
def axiomSubstitution (first second third : Formula) (v : Var) : Formula :=
  if v = .p then first else if v = .q then second else third

/-- The axiom substitution sends `p` to its first formula. -/
@[simp] theorem axiomSubstitution_p (first second third : Formula) :
    axiomSubstitution first second third .p = first := if_pos rfl

/-- The axiom substitution sends `q` to its second formula. -/
@[simp] theorem axiomSubstitution_q (first second third : Formula) :
    axiomSubstitution first second third .q = second := by
  simp [axiomSubstitution, Var.q_ne_p]

/-- The axiom substitution sends `r` to its third formula. -/
@[simp] theorem axiomSubstitution_r (first second third : Formula) :
    axiomSubstitution first second third .r = third := by
  simp [axiomSubstitution, Var.r_ne_p, Var.r_ne_q]

/-- `{a, a -> b} ⊢ b` is a specialization of Modus Ponens. -/
theorem mp_instance (antecedent consequent : Formula) :
    (⟨[antecedent, .binary .implies antecedent consequent], consequent⟩ : InferenceRule).isSpecializationOf
      MP = true :=
  InferenceRule.isSpecializationOf_iff.mpr ⟨axiomSubstitution antecedent consequent consequent,
    by simp [MP, InferenceRule.substituteVariables]⟩

/-- The specializations of Modus Ponens are exactly the rules `{a, a -> b} ⊢ b`. -/
theorem eq_of_mp_instance {premises : List Formula} {conclusion : Formula}
    (accepted : (⟨premises, conclusion⟩ : InferenceRule).isSpecializationOf MP = true) :
    ∃ antecedent, premises = [antecedent, .binary .implies antecedent conclusion] := by
  obtain ⟨substitution, substituted⟩ := InferenceRule.isSpecializationOf_iff.mp accepted
  simp only [MP, InferenceRule.substituteVariables, List.map_cons, List.map_nil,
    Formula.substituteVariables, InferenceRule.mk.injEq] at substituted
  obtain ⟨rfl, rfl⟩ := substituted
  exact ⟨_, rfl⟩

/-- `⊢ a -> a` is a specialization of `I0`. -/
theorem i0_instance (formula : Formula) :
    (⟨[], .binary .implies formula formula⟩ : InferenceRule).isSpecializationOf I0 = true :=
  InferenceRule.isSpecializationOf_iff.mpr ⟨axiomSubstitution formula formula formula,
    by simp [I0, InferenceRule.substituteVariables]⟩

/-- `⊢ a -> (b -> a)` is a specialization of `I1`. -/
theorem i1_instance (first second : Formula) :
    (⟨[], .binary .implies first (.binary .implies second first)⟩ : InferenceRule).isSpecializationOf
      I1 = true :=
  InferenceRule.isSpecializationOf_iff.mpr ⟨axiomSubstitution first second second,
    by simp [I1, InferenceRule.substituteVariables]⟩

/-- `⊢ (a -> (b -> c)) -> ((a -> b) -> (a -> c))` is a specialization of `D`. -/
theorem d_instance (first second third : Formula) :
    (⟨[], .binary .implies (.binary .implies first (.binary .implies second third))
      (.binary .implies (.binary .implies first second) (.binary .implies first third))⟩ :
        InferenceRule).isSpecializationOf D = true :=
  InferenceRule.isSpecializationOf_iff.mpr ⟨axiomSubstitution first second third,
    by simp [D, InferenceRule.substituteVariables]⟩

/-- `⊢ (~a -> ~b) -> (b -> a)` is a specialization of `N`. -/
theorem n_instance (first second : Formula) :
    (⟨[], .binary .implies (.binary .implies (.not first) (.not second))
      (.binary .implies second first)⟩ : InferenceRule).isSpecializationOf N = true :=
  InferenceRule.isSpecializationOf_iff.mpr ⟨axiomSubstitution first second second,
    by simp [N, InferenceRule.substituteVariables]⟩

/-- `⊢ ~a -> (a -> b)` is a specialization of `I2`. -/
theorem i2_instance (first second : Formula) :
    (⟨[], .binary .implies (.not first) (.binary .implies first second)⟩ :
      InferenceRule).isSpecializationOf I2 = true :=
  InferenceRule.isSpecializationOf_iff.mpr ⟨axiomSubstitution first second second,
    by simp [I2, InferenceRule.substituteVariables]⟩

end Propositions
