import WjkIndexer.Library.Scan

/-!
A map as a list of entries in the order of their keys: writes and deletions keep the order, and
their effect on the entries.
-/

namespace SortedStore

variable {K V : Type} [LinearOrder K]

/-- The entries stand in the order of their keys, each key once. -/
def Sorted (store : List (K × V)) : Prop :=
  store.Pairwise fun earlier later => earlier.1 < later.1

def put (store : List (K × V)) (key : K) (value : V) : List (K × V) :=
  match store with
  | [] => [(key, value)]
  | entry :: rest =>
      if key < entry.1 then (key, value) :: entry :: rest
      else if key = entry.1 then (key, value) :: rest
      else entry :: put rest key value

def delete (store : List (K × V)) (key : K) : List (K × V) :=
  store.filter fun entry => entry.1 ≠ key

theorem mem_put {store : List (K × V)} (sorted : Sorted store) (key : K) (value : V)
    (entry : K × V) :
    entry ∈ put store key value ↔ entry = (key, value) ∨ entry ∈ store ∧ entry.1 ≠ key := by
  induction store with
  | nil => simp [put]
  | cons head rest ih =>
      obtain ⟨above, ordered⟩ := List.pairwise_cons.mp sorted
      rw [put]
      by_cases before : key < head.1
      · have others : ∀ other ∈ head :: rest, other.1 ≠ key := by
          intro other listed
          rcases List.mem_cons.mp listed with rfl | later
          · exact before.ne'
          · exact (before.trans (above other later)).ne'
        rw [if_pos before, List.mem_cons]
        constructor
        · exact Or.imp_right fun listed => ⟨listed, others entry listed⟩
        · exact Or.imp_right And.left
      · rw [if_neg before]
        by_cases same : key = head.1
        · subst same
          have others : ∀ other ∈ rest, other.1 ≠ head.1 := fun other later =>
            (above other later).ne'
          simp only [if_true, List.mem_cons]
          constructor
          · rintro (rfl | later)
            · exact Or.inl rfl
            · exact Or.inr ⟨Or.inr later, others entry later⟩
          · rintro (rfl | ⟨rfl | later, different⟩)
            · exact Or.inl rfl
            · exact absurd rfl different
            · exact Or.inr later
        · rw [if_neg same, List.mem_cons, ih ordered, List.mem_cons]
          constructor
          · rintro (rfl | written | ⟨later, different⟩)
            · exact Or.inr ⟨Or.inl rfl, Ne.symm same⟩
            · exact Or.inl written
            · exact Or.inr ⟨Or.inr later, different⟩
          · rintro (written | ⟨rfl | later, different⟩)
            · exact Or.inr (Or.inl written)
            · exact Or.inl rfl
            · exact Or.inr (Or.inr ⟨later, different⟩)

theorem sorted_put {store : List (K × V)} (sorted : Sorted store) (key : K) (value : V) :
    Sorted (put store key value) := by
  induction store with
  | nil => exact List.pairwise_singleton _ _
  | cons head rest ih =>
      obtain ⟨above, ordered⟩ := List.pairwise_cons.mp sorted
      rw [put]
      by_cases before : key < head.1
      · rw [if_pos before]
        refine List.pairwise_cons.mpr ⟨?_, sorted⟩
        intro other listed
        rcases List.mem_cons.mp listed with rfl | later
        · exact before
        · exact before.trans (above other later)
      · rw [if_neg before]
        by_cases same : key = head.1
        · rw [if_pos same]
          refine List.pairwise_cons.mpr ⟨?_, ordered⟩
          intro other later
          exact same ▸ above other later
        · rw [if_neg same]
          refine List.pairwise_cons.mpr ⟨?_, ih ordered⟩
          intro other listed
          rcases (mem_put ordered key value other).mp listed with rfl | ⟨later, _⟩
          · exact lt_of_le_of_ne (not_lt.mp before) (Ne.symm same)
          · exact above other later

theorem mem_delete {store : List (K × V)} {key : K} {entry : K × V} :
    entry ∈ delete store key ↔ entry ∈ store ∧ entry.1 ≠ key := by
  rw [delete, List.mem_filter, decide_eq_true_eq]

theorem sorted_delete {store : List (K × V)} (sorted : Sorted store) (key : K) :
    Sorted (delete store key) :=
  sorted.filter _

theorem mem_deleteAll (keys : List K) {store : List (K × V)} {entry : K × V} :
    entry ∈ keys.foldl delete store ↔ entry ∈ store ∧ entry.1 ∉ keys := by
  induction keys generalizing store with
  | nil => simp
  | cons key rest ih =>
      rw [List.foldl_cons, ih, mem_delete, List.mem_cons, not_or, and_assoc]

theorem sorted_deleteAll (keys : List K) {store : List (K × V)} (sorted : Sorted store) :
    Sorted (keys.foldl delete store) := by
  induction keys generalizing store with
  | nil => exact sorted
  | cons key rest ih => exact ih (sorted_delete sorted key)

end SortedStore
