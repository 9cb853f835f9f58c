import Mathlib.Data.List.Nodup

/-!
# Formulas of propositional logic

The sources use `syntax.py` without containing it: `Formula`, its set of variables and the
variable names it admits. This module models them from the specification, as a tree whose root
is a variable, a constant, `~` or one of seven binary connectives. It adds what specialization of
inference rules needs: substitution of formulas for variables, and the walk that reads the pairs
of a substitution back off two formulas, which finds every substitution that exists.
-/

namespace Propositions

/-- Modelled from the spec: `syntax.is_variable`, a letter followed by digits. The letter is
lowercase, which keeps the constants `T` and `F` out. -/
def isVariable (string : String) : Bool :=
  match string.toList with
  | first :: rest => first.isLower && rest.all Char.isDigit
  | [] => false

/-- Modelled from the spec: a variable name, which `Formula` admits at a variable root only when
`is_variable` holds of it. -/
structure Var where
  /-- The name as written. -/
  name : String
  /-- The assertion `Formula` makes of a variable root. -/
  valid : isVariable name = true
deriving DecidableEq, Repr

namespace Var

/-- The variable `p` of the axiom schemas. -/
def p : Var := ⟨"p", by decide⟩

/-- The variable `q` of the axiom schemas. -/
def q : Var := ⟨"q", by decide⟩

/-- The variable `r` of the axiom schemas. -/
def r : Var := ⟨"r", by decide⟩

end Var

/-- Modelled from the spec: the binary connectives `&`, `|`, `->`, `+`, `<->`, `-&` and `-|`. -/
inductive BinaryOp
  | and
  | or
  | implies
  | xor
  | iff
  | nand
  | nor
deriving DecidableEq, Repr

/-- Modelled from the spec: `syntax.Formula`, an immutable tree whose root is a variable name,
one of the constants `T` and `F`, the unary `~`, or a binary connective. -/
inductive Formula
  | var (name : Var)
  | T
  | F
  | not (first : Formula)
  | binary (root : BinaryOp) (first second : Formula)
deriving DecidableEq, Repr

namespace Formula

/-- Modelled from the spec: `Formula.variables`, the set of variable names of the formula, as a
list without duplicates. -/
@[simp]
def «variables» : Formula → List Var
  | var name => [name]
  | T => []
  | F => []
  | not first => first.variables
  | binary _ first second => first.variables ∪ second.variables

/-- A formula lists each of its variables once. -/
theorem nodup_variables (formula : Formula) : formula.variables.Nodup := by
  induction formula with
  | var name => exact List.nodup_singleton name
  | T => exact List.nodup_nil
  | F => exact List.nodup_nil
  | not _ first => exact first
  | binary _ _ _ _ second => exact second.union _

/-- Modelled from the spec: `Formula.substitute_variables`, every variable `v` replaced by
`substitution v`. -/
@[simp]
def substituteVariables (formula : Formula) (substitution : Var → Formula) : Formula :=
  match formula with
  | var name => substitution name
  | T => T
  | F => F
  | not first => not (first.substituteVariables substitution)
  | binary root first second =>
    binary root (first.substituteVariables substitution) (second.substituteVariables substitution)

/-- A substitution acts on a formula only through the formula's own variables. -/
theorem substituteVariables_congr {formula : Formula} {substitution other : Var → Formula}
    (agree : ∀ v ∈ formula.variables, substitution v = other v) :
    formula.substituteVariables substitution = formula.substituteVariables other := by
  induction formula with
  | var name => exact agree name (by simp)
  | T => rfl
  | F => rfl
  | not _ first => simpa using first agree
  | binary _ _ _ first second =>
    simp only [substituteVariables, binary.injEq, true_and]
    exact ⟨first fun v mem => agree v (by simp [mem]),
      second fun v mem => agree v (by simp [mem])⟩

/-- The variables of what a variable is replaced by are variables of the substituted formula. -/
theorem variables_substitution_subset {formula : Formula} {v : Var} (substitution : Var → Formula)
    (mem : v ∈ formula.variables) :
    (substitution v).variables ⊆ (formula.substituteVariables substitution).variables := by
  induction formula with
  | var name =>
    obtain rfl : v = name := by simpa using mem
    exact List.Subset.refl _
  | T => simp at mem
  | F => simp at mem
  | not _ first => exact first mem
  | binary _ _ _ first second =>
    simp only [Formula.variables, List.mem_union_iff] at mem
    rcases mem with inFirst | inSecond
    · exact fun _ found => List.mem_union_iff.mpr (.inl (first inFirst found))
    · exact fun _ found => List.mem_union_iff.mpr (.inr (second inSecond found))

/-- Modelled from the spec: the pairs `(v, s)` where `s` is the subformula of `specialization`
that stands where `v` stands in `general`, read off by walking both formulas together; `none`
where their roots differ. -/
def specializationPairs : Formula → Formula → Option (List (Var × Formula))
  | var name, specialization => some [(name, specialization)]
  | T, T => some []
  | F, F => some []
  | not first, not first' => specializationPairs first first'
  | binary root first second, binary root' first' second' =>
    if root = root' then do
      let pairs ← specializationPairs first first'
      let pairs' ← specializationPairs second second'
      pure (pairs ++ pairs')
    else none
  | _, _ => none

/-- Every variable of `general` is read off, whatever it is matched against. -/
theorem specializationPairs_keys {general specialization : Formula} {pairs : List (Var × Formula)}
    (found : specializationPairs general specialization = some pairs) :
    ∀ v ∈ general.variables, v ∈ pairs.map Prod.fst := by
  induction general generalizing specialization pairs with
  | var name =>
    obtain rfl := Option.some.inj found
    exact fun _ mem => mem
  | T => exact fun _ mem => absurd mem (List.not_mem_nil _)
  | F => exact fun _ mem => absurd mem (List.not_mem_nil _)
  | not sub first =>
    cases specialization with
    | not sub' => exact first (show specializationPairs sub sub' = some pairs from found)
    | _ => exact Option.noConfusion found
  | binary root sub₁ sub₂ first second =>
    cases specialization with
    | binary root' sub₁' sub₂' =>
      replace found : (if root = root' then (specializationPairs sub₁ sub₁').bind fun pairs =>
          (specializationPairs sub₂ sub₂').bind fun pairs' => some (pairs ++ pairs')
        else none) = some pairs := found
      split_ifs at found
      obtain ⟨pairs₁, found₁, rest⟩ := Option.bind_eq_some.mp found
      obtain ⟨pairs₂, found₂, joined⟩ := Option.bind_eq_some.mp rest
      obtain rfl := Option.some.inj joined
      intro v mem
      rw [List.map_append, List.mem_append]
      rcases List.mem_union_iff.mp mem with inFirst | inSecond
      · exact .inl (first found₁ v inFirst)
      · exact .inr (second found₂ v inSecond)
    | _ => exact Option.noConfusion found

/-- Matching a formula against any substitution instance of it succeeds, and reads off only
pairs of that substitution. -/
theorem specializationPairs_substituteVariables (general : Formula)
    (substitution : Var → Formula) :
    ∃ pairs, specializationPairs general (general.substituteVariables substitution) = some pairs ∧
      ∀ pair ∈ pairs, pair.2 = substitution pair.1 := by
  induction general with
  | var name => exact ⟨_, rfl, by simp⟩
  | T => exact ⟨[], rfl, by simp⟩
  | F => exact ⟨[], rfl, by simp⟩
  | not _ first => exact first
  | binary root _ _ first second =>
    obtain ⟨pairs₁, found₁, agree₁⟩ := first
    obtain ⟨pairs₂, found₂, agree₂⟩ := second
    refine ⟨pairs₁ ++ pairs₂, ?_, fun pair mem => ?_⟩
    · show (if root = root then _ else none) = _
      rw [if_pos rfl, found₁, found₂]
      rfl
    · exact (List.mem_append.mp mem).elim (agree₁ pair) (agree₂ pair)

end Formula

end Propositions
