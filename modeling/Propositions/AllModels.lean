import Propositions.Semantics

/-!
# The enumeration of all models

`all_models` lists the rows of a truth table by counting in binary: row `i` gives the name at
place `j` bit `n - 1 - j` of `i`. Over distinct names this is the lexicographic enumeration
`lexModels` of the specification, where the first name is the most significant and `False`
comes before `True` (`map_entries_allModels`). The bridge is `bitRow`, the row `i` read name by
name, which splits the range `0 .. 2 ^ (n + 1)` into its lower half, where the bit of the first
name is clear, and its upper half, where it is set. Every assignment is then listed exactly once,
and every valuation agrees on the names with one of the models (`exists_mem_allModels_agree`).
-/

namespace Propositions

/-- The lexicographic enumeration of the assignments of `names`, as the specification gives it:
one empty model for no names, and for `v :: rest` every model of `rest` with `v` false, then
every model of `rest` with `v` true. -/
def lexModels : List Var → List (List (Var × Bool))
  | [] => [[]]
  | v :: rest => (lexModels rest).map ((v, false) :: ·) ++ (lexModels rest).map ((v, true) :: ·)

/-- Row `i` of the truth table over `names`, read name by name: the first of `n` names takes bit
`n - 1` of `i`. -/
def bitRow : List Var → Nat → List (Var × Bool)
  | [], _ => []
  | v :: rest, i => (v, i.testBit rest.length) :: bitRow rest i

/-- A loop that writes new names one by one appends their entries in order. -/
theorem entries_foldl_insert {α : Type} {step : Model → α → Model} (name : α → Var)
    (value : α → Bool)
    (writes : ∀ model item, step model item = model.insert (name item) (value item)) :
    ∀ (items : List α) (model : Model), (model.variables ++ items.map name).Nodup →
      (items.foldl step model).entries =
        model.entries ++ items.map fun item => (name item, value item)
  | [], model, _ => by simp
  | item :: items, model, fresh => by
    have absent : name item ∉ model.variables := fun mem =>
      List.disjoint_of_nodup_append fresh mem (List.mem_cons_self _ _)
    rw [List.foldl_cons, writes, entries_foldl_insert name value writes items _
      (by simpa [Model.variables_insert_of_not_mem _ absent] using fresh),
      Model.entries_insert_of_not_mem _ absent]
    simp

/-- The source's bit test `(i >> k) & 1` is `Nat.testBit`. -/
theorem shiftRight_and_one_ne_zero (i k : Nat) : ((i >>> k) &&& 1 != 0) = i.testBit k := by
  simp [Nat.testBit, Nat.and_comm]

/-- Bit `n - 1 - j` of `i` for the name at place `j` of `n` is row `i` of `bitRow`. -/
theorem enum_map_testBit (i : Nat) : ∀ names : List Var,
    names.enum.map (fun entry => (entry.2, i.testBit (names.length - 1 - entry.1))) =
      bitRow names i
  | [] => rfl
  | v :: rest => by
    rw [List.enum_cons, List.enumFrom_eq_map_enum, List.map_cons, List.map_map,
      bitRow, ← enum_map_testBit i rest]
    simp only [List.length_cons, Nat.add_sub_cancel, Nat.sub_zero, List.cons.injEq, true_and]
    refine List.map_congr_left fun entry _ => ?_
    simp only [Function.comp_apply, Prod.map_fst, Prod.map_snd, id_eq, Prod.mk.injEq, true_and]
    congr 1
    omega

/-- Over distinct names, `all_models` builds row `i` of `bitRow` for every `i` below `2 ^ n`. -/
theorem map_entries_allModels_eq_bitRow {names : List Var} (distinct : names.Nodup) :
    (allModels names).map Model.entries = (List.range (2 ^ names.length)).map (bitRow names) := by
  simp only [allModels, List.map_map]
  refine List.map_congr_left fun i _ => ?_
  rw [Function.comp_apply, entries_foldl_insert Prod.snd
    (fun entry => (i >>> (names.length - 1 - entry.1)) &&& 1 != 0) (fun _ _ => rfl) _ _
    (by simpa using distinct)]
  simp only [Model.entries_empty, List.nil_append, shiftRight_and_one_ne_zero]
  exact enum_map_testBit i names

/-- Setting a bit above every name leaves the row unchanged. -/
theorem bitRow_two_pow_add {k : Nat} (i : Nat) :
    ∀ names : List Var, names.length ≤ k → bitRow names (2 ^ k + i) = bitRow names i
  | [], _ => rfl
  | v :: rest, short => by
    have below : rest.length < k := by simp at short; omega
    simp [bitRow, Nat.testBit_two_pow_add_gt below, bitRow_two_pow_add i rest below.le]

/-- The rows of the numbers below `2 ^ n` are the lexicographic enumeration: the lower half has
the first name false and the upper half has it true. -/
theorem map_bitRow_range : ∀ names : List Var,
    (List.range (2 ^ names.length)).map (bitRow names) = lexModels names
  | [] => rfl
  | v :: rest => by
    have halves : 2 ^ (v :: rest).length = 2 ^ rest.length + 2 ^ rest.length := by
      simp [Nat.pow_succ, Nat.mul_two]
    rw [halves, List.range_add, List.map_append, List.map_map, lexModels,
      ← map_bitRow_range rest, List.map_map, List.map_map]
    congr 1
    · refine List.map_congr_left fun i mem => ?_
      simp [bitRow, Nat.testBit_lt_two_pow (List.mem_range.mp mem)]
    · refine List.map_congr_left fun i mem => ?_
      simp [bitRow, Nat.testBit_two_pow_add_eq, Nat.testBit_lt_two_pow (List.mem_range.mp mem),
        bitRow_two_pow_add i rest le_rfl]

/-- Over distinct names, `all_models` is the lexicographic enumeration. -/
theorem map_entries_allModels {names : List Var} (distinct : names.Nodup) :
    (allModels names).map Model.entries = lexModels names := by
  rw [map_entries_allModels_eq_bitRow distinct, map_bitRow_range]

/-- `all_models` lists `2 ^ n` models. -/
theorem length_allModels (names : List Var) : (allModels names).length = 2 ^ names.length := by
  simp [allModels]

/-- Every model of the lexicographic enumeration is over exactly the names, in order. -/
theorem keys_of_mem_lexModels : ∀ {names : List Var} {entries : List (Var × Bool)},
    entries ∈ lexModels names → entries.map Prod.fst = names
  | [], _, mem => by simp_all [lexModels]
  | v :: rest, _, mem => by
    simp only [lexModels, List.mem_append, List.mem_map] at mem
    rcases mem with ⟨entries, found, rfl⟩ | ⟨entries, found, rfl⟩ <;>
      simp [keys_of_mem_lexModels found]

/-- The lexicographic enumeration lists no assignment twice. -/
theorem nodup_lexModels : ∀ names : List Var, (lexModels names).Nodup
  | [] => List.nodup_singleton _
  | v :: rest => by
    have injective {b : Bool} : Function.Injective (List.cons (v, b)) := fun _ _ same =>
      List.cons_injective same
    refine List.Nodup.append ((nodup_lexModels rest).map injective)
      ((nodup_lexModels rest).map injective) ?_
    simp only [List.Disjoint, List.mem_map]
    rintro _ ⟨_, _, rfl⟩ ⟨_, _, same⟩
    simp at same

/-- Every assignment of truth values to the names is in the lexicographic enumeration. -/
theorem zip_mem_lexModels : ∀ {names : List Var} {values : List Bool},
    values.length = names.length → names.zip values ∈ lexModels names
  | [], [], _ => List.mem_singleton_self _
  | v :: rest, value :: values, length => by
    have found : rest.zip values ∈ lexModels rest := zip_mem_lexModels (by simpa using length)
    cases value <;> simp [lexModels, found]

/-- A model over distinct names is listed by `all_models` with exactly those names. -/
theorem variables_of_mem_allModels {names : List Var} (distinct : names.Nodup) {model : Model}
    (mem : model ∈ allModels names) : model.variables = names :=
  keys_of_mem_lexModels (map_entries_allModels distinct ▸ List.mem_map_of_mem _ mem)

/-- `all_models` over distinct names is the lexicographic enumeration of the specification: it
has `2 ^ n` models, each over exactly the names, and it lists every assignment of truth values to
the names exactly once. -/
theorem allModels_lexicographic {names : List Var} (distinct : names.Nodup) :
    (allModels names).map Model.entries = lexModels names ∧
    (allModels names).length = 2 ^ names.length ∧
    (∀ model ∈ allModels names, model.variables = names) ∧
    ∀ values : List Bool, values.length = names.length →
      ((allModels names).map Model.entries).count (names.zip values) = 1 := by
  refine ⟨map_entries_allModels distinct, length_allModels names,
    fun _ mem => variables_of_mem_allModels distinct mem, fun values length => ?_⟩
  rw [map_entries_allModels distinct, lawful_beq_subsingleton List.instBEq instBEqOfDecidableEq]
  exact List.count_eq_one_of_mem (nodup_lexModels names) (zip_mem_lexModels length)

/-- The enumeration over `p, q` is the four rows of its truth table in order. -/
theorem allModels_lexicographic_twoNames :
    [Var.p, Var.q].Nodup ∧ (allModels [Var.p, Var.q]).map Model.entries =
      [[(.p, false), (.q, false)], [(.p, false), (.q, true)], [(.p, true), (.q, false)],
        [(.p, true), (.q, true)]] :=
  ⟨by decide, (allModels_lexicographic (by decide)).1⟩

/-- Pairing each name with its value under `valuation` follows `valuation`. -/
theorem zip_map_agree (valuation : Var → Bool) :
    ∀ (names : List Var), ∀ entry ∈ names.zip (names.map valuation),
      entry.2 = valuation entry.1
  | [] => fun _ mem => absurd mem (List.not_mem_nil _)
  | v :: rest => fun entry mem => by
    rcases List.mem_cons.mp mem with rfl | inRest
    · rfl
    · exact zip_map_agree valuation rest entry inRest

/-- Every valuation agrees on distinct names with one of the models `all_models` lists. -/
theorem exists_mem_allModels_agree {names : List Var} (distinct : names.Nodup)
    (valuation : Var → Bool) :
    ∃ model ∈ allModels names, ∀ v ∈ names, model.valuation v = valuation v := by
  have listed : names.zip (names.map valuation) ∈ lexModels names := zip_mem_lexModels (by simp)
  rw [← map_entries_allModels distinct, List.mem_map] at listed
  obtain ⟨model, mem, entries⟩ := listed
  refine ⟨model, mem, fun v named => Model.valuation_of_agree ?_ ?_⟩
  · exact entries ▸ zip_map_agree valuation names
  · rwa [variables_of_mem_allModels distinct mem]

end Propositions
