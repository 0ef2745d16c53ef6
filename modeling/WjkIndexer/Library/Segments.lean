import Mathlib

/-!
Segments of given sizes laid out one after another: the segment that a position falls into,
and the position in it.
-/

namespace Segments

/-- The segment of a position, and how far into it the position lies. -/
def find : List Nat → Nat → Option (Nat × Nat)
  | [], _ => none
  | size :: rest, position =>
      if position < size then some (0, position)
      else (find rest (position - size)).map fun place => (place.1 + 1, place.2)

/-- The number of segments before an index that are not empty. -/
def rank (sizes : List Nat) (index : Nat) : Nat := (sizes.take index).countP (· ≠ 0)

theorem find_iff {sizes : List Nat} {position index inside : Nat} :
    find sizes position = some (index, inside) ↔
      (sizes.take index).sum + inside = position ∧
        ∃ size, sizes[index]? = some size ∧ inside < size := by
  induction sizes generalizing position index with
  | nil => simp [find]
  | cons size rest ih =>
      rw [find]
      by_cases here : position < size
      · rw [if_pos here]
        constructor
        · intro same
          cases same
          exact ⟨by simp, size, by simp, here⟩
        · rintro ⟨total, found, listed, bound⟩
          cases index with
          | zero => simp_all
          | succ index =>
              rw [List.take_succ_cons, List.sum_cons] at total
              omega
      · rw [if_neg here]
        simp only [Option.map_eq_some_iff, Prod.exists, Prod.mk.injEq]
        constructor
        · rintro ⟨before, offset, found, rfl, rfl⟩
          obtain ⟨total, listed⟩ := ih.mp found
          rw [List.take_succ_cons, List.sum_cons]
          exact ⟨by omega, by simpa using listed⟩
        · rintro ⟨total, found, listed, bound⟩
          cases index with
          | zero =>
              simp only [List.take_zero, List.sum_nil, List.getElem?_cons_zero,
                Option.some.injEq] at total listed
              omega
          | succ index =>
              rw [List.take_succ_cons, List.sum_cons] at total
              rw [List.getElem?_cons_succ] at listed
              exact ⟨index, inside, ih.mpr ⟨by omega, found, listed, bound⟩, rfl, rfl⟩

theorem find_isSome {sizes : List Nat} {position : Nat} :
    (find sizes position).isSome ↔ position < sizes.sum := by
  induction sizes generalizing position with
  | nil => simp [find]
  | cons size rest ih =>
      rw [find, List.sum_cons]
      by_cases here : position < size
      · simp only [here, ↓reduceIte, Option.isSome_some, true_iff]
        omega
      · simp only [here, ↓reduceIte, Option.isSome_map, ih]
        omega

theorem find_eq_none {sizes : List Nat} {position : Nat} :
    find sizes position = none ↔ sizes.sum ≤ position := by
  rw [← Option.not_isSome_iff_eq_none, find_isSome, not_lt]

theorem find_inj {sizes : List Nat} {first second : Nat} {place : Nat × Nat}
    (one : find sizes first = some place) (other : find sizes second = some place) :
    first = second := by
  rw [← (find_iff.mp one).1, ← (find_iff.mp other).1]

theorem sum_take_le (sizes : List Nat) (index : Nat) : (sizes.take index).sum ≤ sizes.sum := by
  have parts := congrArg List.sum (List.take_append_drop index sizes)
  rw [List.sum_append] at parts
  omega

theorem sum_take_succ (sizes : List Nat) (index : Nat) :
    (sizes.take (index + 1)).sum = (sizes.take index).sum + sizes.getD index 0 := by
  rw [List.take_add_one, List.sum_append, List.getD_eq_getElem?_getD]
  cases sizes[index]? <;> simp

theorem sum_take_add_le {sizes : List Nat} {index size : Nat} (listed : sizes[index]? = some size) :
    (sizes.take index).sum + size ≤ sizes.sum := by
  have next := sum_take_le sizes (index + 1)
  rw [List.take_add_one, listed, List.sum_append] at next
  simpa using next

theorem position_inj {sizes : List Nat} {index other inside beyond size also : Nat}
    (listed : sizes[index]? = some size) (within : inside < size)
    (second : sizes[other]? = some also) (bound : beyond < also)
    (same : (sizes.take index).sum + inside = (sizes.take other).sum + beyond) :
    index = other ∧ inside = beyond := by
  have one := find_iff.mpr ⟨same, size, listed, within⟩
  have two := find_iff.mpr ⟨rfl, also, second, bound⟩
  rw [one] at two
  simpa using two

/-! Empty segments do not matter. -/

theorem sum_filter (sizes : List Nat) : (sizes.filter (· ≠ 0)).sum = sizes.sum := by
  induction sizes with
  | nil => rfl
  | cons size rest ih =>
      by_cases empty : size = 0
      · simpa [empty] using ih
      · simpa [empty] using ih

theorem sum_take_filter (sizes : List Nat) (index : Nat) :
    ((sizes.filter (· ≠ 0)).take (rank sizes index)).sum = (sizes.take index).sum := by
  rw [rank, List.countP_eq_length_filter]
  have parts : sizes.filter (· ≠ 0) =
      (sizes.take index).filter (· ≠ 0) ++ (sizes.drop index).filter (· ≠ 0) := by
    rw [← List.filter_append, List.take_append_drop]
  rw [parts, List.take_left]
  exact sum_filter _

theorem find_filter (sizes : List Nat) (position : Nat) :
    find (sizes.filter (· ≠ 0)) position =
      (find sizes position).map fun place => (rank sizes place.1, place.2) := by
  induction sizes generalizing position with
  | nil => rfl
  | cons size rest ih =>
      have counted : ∀ index, rank (size :: rest) (index + 1) =
          rank rest index + if size ≠ 0 then 1 else 0 := by
        intro index
        simp [rank, List.countP_cons]
      by_cases empty : size = 0
      · subst empty
        rw [List.filter_cons_of_neg (by simp), ih, find, if_neg (Nat.not_lt_zero _),
          Option.map_map, Nat.sub_zero]
        simp [counted, Function.comp_def]
      · rw [List.filter_cons_of_pos (by simpa using empty), find, find]
        by_cases here : position < size
        · simp [here, rank]
        · rw [if_neg here, if_neg here, ih, Option.map_map, Option.map_map]
          simp [counted, empty, Function.comp_def]

end Segments
