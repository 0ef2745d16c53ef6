import WjkIndexer.Library.Table

/-!
Two computations side by side: results that fail alike or are related, runs over items that are
related one by one, and tables with related entries.
-/

namespace Paired

open FiniteTable

variable {α β γ δ ι κ ε : Type}

/-- The same fault, or related values. -/
inductive Results (rel : α → β → Prop) : Except ε α → Except ε β → Prop where
  | fault (fault : ε) : Results rel (.error fault) (.error fault)
  | done {value : α} {twin : β} (related : rel value twin) : Results rel (.ok value) (.ok twin)

namespace Results

theorem bind {rel : α → β → Prop} {out : γ → δ → Prop} {first : Except ε α} {second : Except ε β}
    {next : α → Except ε γ} {twin : β → Except ε δ} (results : Results rel first second)
    (later : ∀ value image, rel value image → Results out (next value) (twin image)) :
    Results out (first >>= next) (second >>= twin) := by
  cases results with
  | fault fault => exact .fault fault
  | done related => exact later _ _ related

theorem map {rel : α → β → Prop} {out : γ → δ → Prop} {first : Except ε α} {second : Except ε β}
    {next : α → γ} {twin : β → δ} (results : Results rel first second)
    (later : ∀ value image, rel value image → out (next value) (twin image)) :
    Results out (first.map next) (second.map twin) := by
  cases results with
  | fault fault => exact .fault fault
  | done related => exact .done (later _ _ related)

theorem mono {rel weaker : α → β → Prop} {first : Except ε α} {second : Except ε β}
    (results : Results rel first second)
    (implied : ∀ value twin, rel value twin → weaker value twin) :
    Results weaker first second := by
  cases results with
  | fault fault => exact .fault fault
  | done related => exact .done (implied _ _ related)

theorem refl (result : Except ε α) : Results Eq result result := by
  cases result with
  | error fault => exact .fault fault
  | ok value => exact .done rfl

theorem ite {rel : α → β → Prop} {condition : Prop} [Decidable condition] {first other : Except ε α}
    {second another : Except ε β} (yes : condition → Results rel first second)
    (no : ¬condition → Results rel other another) :
    Results rel (if condition then first else other) (if condition then second else another) := by
  by_cases holds : condition
  · rw [if_pos holds, if_pos holds]
    exact yes holds
  · rw [if_neg holds, if_neg holds]
    exact no holds

theorem foldlM {rel : α → β → Prop} {alike : ι → κ → Prop} {step : α → ι → Except ε α}
    {other : β → κ → Except ε β} {items : List ι} {twins : List κ}
    (paired : List.Forall₂ alike items twins)
    (related : ∀ state image item twin, rel state image → alike item twin →
      Results rel (step state item) (other image twin))
    {start : α} {begun : β} (initial : rel start begun) :
    Results rel (items.foldlM step start) (twins.foldlM other begun) := by
  induction paired generalizing start begun with
  | nil => exact .done initial
  | cons same rest ih =>
      rw [List.foldlM_cons, List.foldlM_cons]
      exact (related _ _ _ _ initial same).bind fun _ _ next => ih next

end Results

/-- Tables with the same keys and related values. -/
def Tables {K V W : Type} [DecidableEq K] (rel : V → W → Prop) (table : Table K V)
    (twin : Table K W) : Prop :=
  ∀ key, Option.Rel rel (table.get key) (twin.get key)

namespace Tables

variable {K V W : Type} [DecidableEq K] {rel : V → W → Prop} {table : Table K V} {twin : Table K W}

theorem lookup (tables : Tables rel table twin) (key : K) :
    table.get key = none ∧ twin.get key = none ∨
      ∃ value image, table.get key = some value ∧ twin.get key = some image ∧ rel value image := by
  have related := tables key
  cases found : table.get key with
  | none =>
      rw [found] at related
      generalize twin.get key = other at related
      cases related
      exact Or.inl ⟨rfl, rfl⟩
  | some value =>
      rw [found] at related
      generalize twin.get key = other at related
      cases related with
      | some same => exact Or.inr ⟨_, _, rfl, rfl, same⟩

theorem refl {rel : V → V → Prop} (same : ∀ value, rel value value) (table : Table K V) :
    Tables rel table table := by
  intro key
  cases table.get key with
  | none => exact .none
  | some value => exact .some (same value)

theorem set (tables : Tables rel table twin) (key : K) {value : V} {image : W}
    (same : rel value image) : Tables rel (table.set key value) (twin.set key image) := by
  intro query
  rw [Table.get_set, Table.get_set]
  split
  · exact .some same
  · exact tables query

theorem remove (tables : Tables rel table twin) (key : K) :
    Tables rel (table.remove key) (twin.remove key) := by
  intro query
  rw [Table.get_remove, Table.get_remove]
  split
  · exact .none
  · exact tables query

end Tables

theorem biUnion_eq {A : Type} [DecidableEq ι] [DecidableEq κ] [DecidableEq A] {alike : ι → κ → Prop}
    {items : List ι} {twins : List κ} {first : ι → Finset A} {second : κ → Finset A}
    (paired : List.Forall₂ alike items twins)
    (same : ∀ item twin, alike item twin → second twin = first item) :
    twins.toFinset.biUnion second = items.toFinset.biUnion first := by
  induction paired with
  | nil => rfl
  | cons related rest ih =>
      rw [List.toFinset_cons, List.toFinset_cons, Finset.biUnion_insert, Finset.biUnion_insert,
        same _ _ related, ih]

end Paired
