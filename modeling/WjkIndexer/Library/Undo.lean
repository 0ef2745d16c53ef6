import WjkIndexer.Library.Table

/-!
Undoing of batches: what has to be saved before a write, and what has to be deleted and
written back, for a table to be again what it was.
-/

namespace FiniteTable.Table

variable {K V : Type} [DecidableEq K]

theorem undo_extend (table batch : Table K V) :
    ((table.extend batch).removeBatch
        (batch.keys \ (table.restrict batch.keys).keys)).extend (table.restrict batch.keys) =
      table := by
  apply ext
  intro key
  simp only [get_extend, get_removeBatch, get_restrict, keys_restrict, Finset.mem_sdiff,
    Finset.mem_inter]
  by_cases written : key ∈ batch.keys
  · by_cases stored : key ∈ table.keys
    · obtain ⟨value, found⟩ := mem_keys_iff.mp stored
      simp [written, stored, found]
    · simp [written, stored, get_eq_none_iff.mpr stored]
  · simp [written, get_eq_none_iff.mpr written]

theorem undo_extend_flipped (table batch : Table K V) :
    ((table.extend batch).extend (table.restrict batch.keys)).removeBatch
        (batch.keys \ (table.restrict batch.keys).keys) = table := by
  apply ext
  intro key
  simp only [get_extend, get_removeBatch, get_restrict, keys_restrict, Finset.mem_sdiff,
    Finset.mem_inter]
  by_cases written : key ∈ batch.keys
  · by_cases stored : key ∈ table.keys
    · obtain ⟨value, found⟩ := mem_keys_iff.mp stored
      simp [written, stored, found]
    · simp [written, stored, get_eq_none_iff.mpr stored]
  · simp [written, get_eq_none_iff.mpr written]

theorem undo_replace {table saved batch : Table K V} {removed : Finset K}
    (kept : ∀ key ∈ removed, saved.get key = table.get key)
    (only : ∀ key, key ∉ removed → saved.get key = none)
    (fresh : ∀ key ∈ batch.keys, key ∉ removed → table.get key = none) :
    (((table.removeBatch removed).extend batch).removeBatch batch.keys).extend saved = table := by
  apply ext
  intro key
  simp only [get_extend, get_removeBatch]
  by_cases gone : key ∈ removed
  · rw [kept key gone]
    by_cases written : key ∈ batch.keys
    · simp [written]
    · simp [written, get_eq_none_iff.mpr written, gone]
  · rw [only key gone]
    by_cases written : key ∈ batch.keys
    · simp [written, fresh key written gone]
    · simp [written, get_eq_none_iff.mpr written, gone]

theorem undo_removeBatch (table : Table K V) (removed : Finset K) :
    (table.removeBatch removed).extend (table.restrict removed) = table := by
  apply ext
  intro key
  rw [get_extend, get_restrict, get_removeBatch]
  by_cases gone : key ∈ removed
  · simp [gone]
  · simp [gone]

theorem undo_extendList {table : Table K V} {batch : List (K × V)}
    (fresh : ∀ key ∈ batch.map Prod.fst, table.get key = none) :
    (table.extendList batch).removeBatch (batch.map Prod.fst).toFinset = table := by
  apply ext
  intro key
  rw [get_removeBatch]
  split
  · rename_i listed
    exact (fresh key (List.mem_toFinset.mp listed)).symm
  · rename_i absent
    exact get_extendList_of_notMem (mt List.mem_toFinset.mpr absent) table

theorem undo_set {table : Table K V} {key : K} (value : V) (fresh : table.get key = none) :
    (table.set key value).remove key = table := by
  apply ext
  intro query
  rw [get_remove]
  split
  · rename_i same
    rw [same, fresh]
  · rename_i different
    exact get_set_ne _ _ different

end FiniteTable.Table
