import Mathlib.Data.List.Infix

/-!
# Invariants of loops

The sources write their loops as `for` statements that append to a list or fill a dictionary.
The model writes such a loop as `List.foldlM` in `Option`, where `none` is an exception raised
in some pass, or as `List.mapM`, and Python's `all` and `any` over a generator as `List.allM` and
`List.anyM`. The first lemma here carries an invariant of the prefix processed so far through a
whole loop, and concludes that the loop does not raise.
-/

namespace Propositions

/-- A loop over `items` succeeds and ends in a state satisfying `invariant items`, when the
invariant holds before the first pass and each pass over the next item of a prefix succeeds and
extends the invariant to the longer prefix. -/
theorem foldlM_invariant {α σ : Type} {step : σ → α → Option σ} {items : List α} {init : σ}
    (invariant : List α → σ → Prop) (start : invariant [] init)
    (extend : ∀ done item state, done ++ [item] <+: items → invariant done state →
      ∃ state', step state item = some state' ∧ invariant (done ++ [item]) state') :
    ∃ state, items.foldlM step init = some state ∧ invariant items state := by
  suffices run : ∀ done, done <+: items →
      ∃ state, done.foldlM step init = some state ∧ invariant done state from
    run items (List.prefix_refl _)
  intro done
  induction done using List.reverseRecOn with
  | nil => exact fun _ => ⟨init, rfl, start⟩
  | append_singleton done item ih =>
    intro isPrefix
    obtain ⟨state, folded, holds⟩ := ih ((List.prefix_append _ _).trans isPrefix)
    obtain ⟨state', stepped, holds'⟩ := extend done item state isPrefix holds
    exact ⟨state', by simp [List.foldlM_append, folded, stepped], holds'⟩

/-- A `mapM` that succeeds returns one result per item. -/
theorem length_of_mapM {α β : Type} {f : α → Option β} :
    ∀ {items : List α} {results : List β}, items.mapM f = some results →
      results.length = items.length
  | [], _, found => by simp_all [-List.mapM]
  | item :: items, results, found => by
    simp only [List.mapM_cons, Option.bind_eq_bind, Option.bind_eq_some, Option.pure_def,
      Option.some.injEq] at found
    obtain ⟨_, _, rest, restFound, rfl⟩ := found
    simp [length_of_mapM restFound]

/-- A list comprehension over items that all give a value returns those values in order. -/
theorem mapM_eq_some_map {α β : Type} {f : α → Option β} {g : α → β} :
    ∀ {items : List α}, (∀ item ∈ items, f item = some (g item)) →
      items.mapM f = some (items.map g)
  | [], _ => rfl
  | item :: items, total => by
    simp [-List.mapM, List.mapM_cons, total item (List.mem_cons_self _ _),
      mapM_eq_some_map fun other mem => total other (List.mem_cons_of_mem _ mem)]

/-- Python's `all` over a generator: when every item gives a value, `all` returns their
conjunction. -/
theorem allM_eq_some {α : Type} {test : α → Option Bool} {value : α → Bool} :
    ∀ {items : List α}, (∀ item ∈ items, test item = some (value item)) →
      items.allM test = some (items.all value)
  | [], _ => rfl
  | item :: items, total => by
    have rest := allM_eq_some fun other mem => total other (List.mem_cons_of_mem _ mem)
    cases found : value item <;> simp [List.allM, total item (List.mem_cons_self _ _), found, rest]

/-- Python's `any` over a generator: when every item gives a value, `any` returns their
disjunction. -/
theorem anyM_eq_some {α : Type} {test : α → Option Bool} {value : α → Bool} :
    ∀ {items : List α}, (∀ item ∈ items, test item = some (value item)) →
      items.anyM test = some (items.any value)
  | [], _ => rfl
  | item :: items, total => by
    have rest := anyM_eq_some fun other mem => total other (List.mem_cons_of_mem _ mem)
    cases found : value item <;> simp [List.anyM, total item (List.mem_cons_self _ _), found, rest]

end Propositions
