import Mathlib

/-!
Finite tables: Mathlib's `Finmap` under the operations of a key-value store
(single writes, batches, restriction to a set of keys) and weighted totals.
A table has no order of iteration, so two tables with the same lookups are equal.
-/

namespace FiniteTable

abbrev Table (K V : Type) := Finmap fun _ : K => V

namespace Table

variable {K V : Type} [DecidableEq K]

def get (table : Table K V) (key : K) : Option V := table.lookup key

def set (table : Table K V) (key : K) (value : V) : Table K V := table.insert key value

def remove (table : Table K V) (key : K) : Table K V := table.erase key

theorem ext {left right : Table K V} (same : ∀ key, left.get key = right.get key) :
    left = right :=
  Finmap.ext_lookup same

@[simp] theorem get_empty (key : K) : (∅ : Table K V).get key = none := by
  simp [get]

theorem get_set (table : Table K V) (key query : K) (value : V) :
    (table.set key value).get query = if query = key then some value else table.get query := by
  by_cases same : query = key
  · subst query
    simp [get, set]
  · simp [get, set, same, Finmap.lookup_insert_of_ne _ same]

@[simp] theorem get_set_self (table : Table K V) (key : K) (value : V) :
    (table.set key value).get key = some value := by
  simp [get_set]

theorem get_set_ne (table : Table K V) {key query : K} (value : V) (different : query ≠ key) :
    (table.set key value).get query = table.get query := by
  simp [get_set, different]

theorem get_remove (table : Table K V) (key query : K) :
    (table.remove key).get query = if query = key then none else table.get query := by
  by_cases same : query = key
  · subst query
    simp [get, remove]
  · simp [get, remove, same, Finmap.lookup_erase_ne same]

@[simp] theorem get_remove_self (table : Table K V) (key : K) :
    (table.remove key).get key = none := by
  simp [get_remove]

theorem get_remove_ne (table : Table K V) {key query : K} (different : query ≠ key) :
    (table.remove key).get query = table.get query := by
  simp [get_remove, different]

theorem get_set_or {table : Table K V} {key query : K} {written value : V}
    (found : (table.set key written).get query = some value) :
    table.get query = some value ∨ query = key ∧ value = written := by
  rw [get_set] at found
  split at found
  · rename_i same
    cases found
    exact Or.inr ⟨same, rfl⟩
  · exact Or.inl found

theorem get_of_remove {table : Table K V} {key query : K} {value : V}
    (left : (table.remove key).get query = some value) : table.get query = some value := by
  rw [get_remove] at left
  split at left
  · cases left
  · exact left

theorem remove_of_get {table : Table K V} {key : K} (absent : table.get key = none) :
    table.remove key = table := by
  apply ext
  intro query
  rw [get_remove]
  split
  · rename_i same
    rw [same, absent]
  · rfl

theorem mem_keys_iff {table : Table K V} {key : K} :
    key ∈ table.keys ↔ ∃ value, table.get key = some value := by
  rw [Finmap.mem_keys, Finmap.mem_iff]
  rfl

theorem get_eq_none_iff {table : Table K V} {key : K} :
    table.get key = none ↔ key ∉ table.keys := by
  rw [mem_keys_iff, not_exists]
  exact Option.eq_none_iff_forall_ne_some

theorem keys_set (table : Table K V) (key : K) (value : V) :
    (table.set key value).keys = insert key table.keys := by
  ext query
  simp only [Finset.mem_insert, mem_keys_iff, get_set]
  by_cases same : query = key <;> simp [same]

/-! Tables collected from a set of keys. -/

/-- The table over `domain` whose value at a key is given by `value`, where there is one. -/
def collect (domain : Finset K) (value : K → Option V) : Table K V where
  entries := domain.val.filterMap fun key => (value key).map fun found => ⟨key, found⟩
  nodupKeys := by
    obtain ⟨keys, unique⟩ := domain
    induction keys using Quotient.inductionOn with
    | h keys =>
        change (keys.filterMap _).NodupKeys
        rw [List.nodupKeys_iff_pairwise, List.pairwise_filterMap]
        have distinct : keys.Pairwise (· ≠ ·) := List.nodup_iff_pairwise_ne.mp unique
        refine distinct.imp ?_
        intro first second different firstEntry firstFound secondEntry secondFound
        simp only [Option.map_eq_some_iff] at firstFound secondFound
        obtain ⟨_, _, rfl⟩ := firstFound
        obtain ⟨_, _, rfl⟩ := secondFound
        exact different

theorem get_collect (domain : Finset K) (value : K → Option V) (key : K) :
    (collect domain value).get key = if key ∈ domain then value key else none := by
  apply Option.ext
  intro found
  rw [get, Finmap.lookup_eq_some_iff]
  simp only [collect, Multiset.mem_filterMap, Finset.mem_val, Option.map_eq_some_iff,
    Sigma.mk.injEq, heq_eq_eq]
  constructor
  · rintro ⟨query, member, other, valueEq, rfl, rfl⟩
    simp [member, valueEq]
  · intro looked
    split at looked
    · rename_i member
      exact ⟨key, member, found, looked, rfl, rfl⟩
    · simp at looked

/-- The entries of a table at the keys of `domain`. -/
def restrict (table : Table K V) (domain : Finset K) : Table K V :=
  collect domain table.get

@[simp] theorem get_restrict (table : Table K V) (domain : Finset K) (key : K) :
    (table.restrict domain).get key = if key ∈ domain then table.get key else none :=
  get_collect _ _ _

theorem keys_restrict (table : Table K V) (domain : Finset K) :
    (table.restrict domain).keys = domain ∩ table.keys := by
  ext key
  rw [Finset.mem_inter, mem_keys_iff, mem_keys_iff, get_restrict]
  by_cases member : key ∈ domain <;> simp [member]

def mapValues {W : Type} (image : V → W) (table : Table K V) : Table K W :=
  collect table.keys fun key => (table.get key).map image

@[simp] theorem get_mapValues {W : Type} (image : V → W) (table : Table K V) (key : K) :
    (table.mapValues image).get key = (table.get key).map image := by
  rw [mapValues, get_collect]
  split
  · rfl
  · rename_i absent
    rw [get_eq_none_iff.mpr absent, Option.map_none]

theorem mapValues_set {W : Type} (image : V → W) (table : Table K V) (key : K) (value : V) :
    (table.set key value).mapValues image = (table.mapValues image).set key (image value) := by
  apply ext
  intro query
  simp only [get_mapValues, get_set]
  split <;> rfl

def modify (table : Table K V) (key : K) (change : V → V) : Table K V :=
  match table.get key with
  | some value => table.set key (change value)
  | none => table

theorem modify_of_get {table : Table K V} {key : K} {value : V}
    (found : table.get key = some value) (change : V → V) :
    table.modify key change = table.set key (change value) := by
  rw [modify, found]

/-! Batches. -/

/-- Write every entry of `batch`; where both tables have a key, the batch wins. -/
def extend (table batch : Table K V) : Table K V := batch ∪ table

theorem get_extend (table batch : Table K V) (key : K) :
    (table.extend batch).get key = (batch.get key).or (table.get key) := by
  by_cases member : key ∈ batch
  · obtain ⟨value, found⟩ := Finmap.mem_iff.mp member
    simp [get, extend, Finmap.lookup_union_left member, found]
  · have absent : batch.lookup key = none := Finmap.lookup_eq_none.mpr member
    simp only [get, extend, Finmap.lookup_union_right member, absent, Option.none_or]

theorem extend_set (table batch : Table K V) (key : K) (value : V) :
    table.extend (batch.set key value) = (table.extend batch).set key value := by
  apply ext
  intro query
  simp only [get_extend, get_set]
  split <;> rfl

theorem extend_remove {table : Table K V} {key : K} (absent : table.get key = none)
    (batch : Table K V) : table.extend (batch.remove key) = (table.extend batch).remove key := by
  apply ext
  intro query
  simp only [get_extend, get_remove]
  split
  · rename_i same
    rw [same, absent]
    rfl
  · rfl

theorem extend_extend (table batch : Table K V) :
    (table.extend batch).extend batch = table.extend batch := by
  apply ext
  intro key
  simp only [get_extend]
  cases batch.get key <;> rfl

theorem extend_restrict (table : Table K V) (domain : Finset K) :
    table.extend (table.restrict domain) = table := by
  apply ext
  intro key
  rw [get_extend, get_restrict]
  split
  · cases table.get key <;> rfl
  · rfl

def extendList (table : Table K V) (batch : List (K × V)) : Table K V :=
  batch.foldl (fun current entry => current.set entry.1 entry.2) table

@[simp] theorem extendList_nil (table : Table K V) : table.extendList [] = table := rfl

@[simp] theorem extendList_cons (table : Table K V) (entry : K × V) (batch : List (K × V)) :
    table.extendList (entry :: batch) = (table.set entry.1 entry.2).extendList batch := rfl

theorem get_extendList_of_notMem {batch : List (K × V)} {key : K}
    (absent : key ∉ batch.map Prod.fst) (table : Table K V) :
    (table.extendList batch).get key = table.get key := by
  induction batch generalizing table with
  | nil => rfl
  | cons entry rest ih =>
      simp only [List.map_cons, List.mem_cons, not_or] at absent
      rw [extendList_cons, ih absent.2, get_set_ne _ _ absent.1]

theorem mem_of_get_extendList {batch : List (K × V)} {key : K} {value : V} {table : Table K V}
    (listed : key ∈ batch.map Prod.fst)
    (found : (table.extendList batch).get key = some value) : (key, value) ∈ batch := by
  induction batch generalizing table with
  | nil => simp at listed
  | cons entry rest ih =>
      rw [extendList_cons] at found
      by_cases later : key ∈ rest.map Prod.fst
      · exact List.mem_cons_of_mem _ (ih later found)
      · simp only [List.map_cons, List.mem_cons, later, or_false] at listed
        rw [get_extendList_of_notMem later, listed, get_set_self, Option.some.injEq] at found
        rw [listed, ← found]
        exact List.mem_cons_self

theorem get_extendList_unique {batch : List (K × V)} {key : K} {value : V}
    (listed : (key, value) ∈ batch) (unique : ∀ other, (key, other) ∈ batch → other = value)
    (table : Table K V) : (table.extendList batch).get key = some value := by
  induction batch generalizing table with
  | nil => cases listed
  | cons entry rest ih =>
      rw [extendList_cons]
      by_cases later : key ∈ rest.map Prod.fst
      · obtain ⟨⟨_, other⟩, member, rfl⟩ := List.mem_map.mp later
        obtain rfl := unique other (List.mem_cons_of_mem _ member)
        exact ih member (fun next found => unique next (List.mem_cons_of_mem _ found)) _
      · have now : (key, value) = entry := by
          rcases List.mem_cons.mp listed with now | member
          · exact now
          · exact absurd (List.mem_map.mpr ⟨_, member, rfl⟩) later
        rw [get_extendList_of_notMem later, ← now, get_set_self]

theorem get_extendList_listed {batch : List (K × V)} (distinct : (batch.map Prod.fst).Nodup)
    {key : K} {value : V} (listed : (key, value) ∈ batch) (table : Table K V) :
    (table.extendList batch).get key = some value := by
  refine get_extendList_unique listed ?_ table
  intro other member
  have same := List.inj_on_of_nodup_map distinct member listed rfl
  rw [Prod.mk.injEq] at same
  exact same.2

theorem get_extendList_iff {batch : List (K × V)} (distinct : (batch.map Prod.fst).Nodup)
    (key : K) (value : V) :
    ((∅ : Table K V).extendList batch).get key = some value ↔ (key, value) ∈ batch := by
  constructor
  · intro present
    by_cases listed : key ∈ batch.map Prod.fst
    · exact mem_of_get_extendList listed present
    · rw [get_extendList_of_notMem listed, get_empty] at present
      cases present
  · intro listed
    exact get_extendList_listed distinct listed ∅

def removeBatch (table : Table K V) (removed : Finset K) : Table K V :=
  collect (table.keys \ removed) table.get

@[simp] theorem get_removeBatch (table : Table K V) (removed : Finset K) (key : K) :
    (table.removeBatch removed).get key = if key ∈ removed then none else table.get key := by
  rw [removeBatch, get_collect]
  by_cases gone : key ∈ removed
  · simp [gone]
  · simp only [Finset.mem_sdiff, gone, not_false_eq_true, and_true, if_false]
    split
    · rfl
    · rename_i absent
      exact (get_eq_none_iff.mpr absent).symm

theorem mem_keys_extend {table batch : Table K V} {key : K}
    (member : key ∈ (table.extend batch).keys) : key ∈ table.keys ∨ key ∈ batch.keys := by
  rw [mem_keys_iff] at member
  obtain ⟨value, found⟩ := member
  rw [get_extend] at found
  cases written : batch.get key with
  | none =>
      rw [written, Option.none_or] at found
      exact Or.inl (mem_keys_iff.mpr ⟨value, found⟩)
  | some new => exact Or.inr (mem_keys_iff.mpr ⟨new, written⟩)

theorem extend_removed_restrict (table : Table K V) (domain : Finset K) :
    (table.removeBatch (table.restrict domain).keys).extend (table.restrict domain) = table := by
  apply ext
  intro key
  simp only [get_extend, get_removeBatch, get_restrict, keys_restrict, Finset.mem_inter,
    mem_keys_iff]
  by_cases loaded : key ∈ domain
  · cases held : table.get key with
    | none => simp [loaded]
    | some value => simp [loaded]
  · simp [loaded]

theorem mem_keys_removeBatch {table : Table K V} {removed : Finset K}
    {key : K} (member : key ∈ (table.removeBatch removed).keys) : key ∈ table.keys := by
  rw [mem_keys_iff] at member ⊢
  obtain ⟨value, found⟩ := member
  rw [get_removeBatch] at found
  split at found
  · cases found
  · exact ⟨value, found⟩

theorem mem_keys_extendList {table : Table K V}
    {batch : List (K × V)} {key : K} (member : key ∈ (table.extendList batch).keys) :
    key ∈ table.keys ∨ key ∈ batch.map Prod.fst := by
  by_cases listed : key ∈ batch.map Prod.fst
  · exact Or.inr listed
  · rw [mem_keys_iff] at member ⊢
    rw [get_extendList_of_notMem listed] at member
    exact Or.inl member

theorem keys_extendList (table : Table K V) (batch : List (K × V)) :
    (table.extendList batch).keys = table.keys ∪ (batch.map Prod.fst).toFinset := by
  induction batch generalizing table with
  | nil => simp
  | cons entry rest ih =>
      rw [extendList_cons, ih, keys_set, List.map_cons, List.toFinset_cons, Finset.insert_union,
        Finset.union_insert]

@[simp] theorem removeBatch_empty (table : Table K V) : table.removeBatch ∅ = table := by
  apply ext
  intro key
  simp

/-! Weighted totals. -/

def total (weight : K → V → Nat) (table : Table K V) : Nat :=
  ∑ key ∈ table.keys, (table.get key).elim 0 (weight key)

@[simp] theorem total_empty (weight : K → V → Nat) : (∅ : Table K V).total weight = 0 := by
  simp [total]

theorem total_eq_sum (weight : K → V → Nat) (table : Table K V) (domain : Finset K)
    (covers : table.keys ⊆ domain) :
    table.total weight = ∑ key ∈ domain, (table.get key).elim 0 (weight key) := by
  refine Finset.sum_subset covers ?_
  intro key _ absent
  simp [get_eq_none_iff.mpr absent]

theorem total_set (weight : K → V → Nat) (table : Table K V) (key : K) (value : V) :
    (table.set key value).total weight + (table.get key).elim 0 (weight key) =
      table.total weight + weight key value := by
  have written := total_eq_sum weight (table.set key value) (insert key table.keys)
    (by rw [keys_set])
  have before := total_eq_sum weight table (insert key table.keys) (Finset.subset_insert _ _)
  rw [← Finset.add_sum_erase _ _ (Finset.mem_insert_self key table.keys)] at written before
  have elsewhere : ∀ query ∈ (insert key table.keys).erase key,
      ((table.set key value).get query).elim 0 (weight query) =
        (table.get query).elim 0 (weight query) := by
    intro query member
    rw [get_set_ne _ _ (Finset.ne_of_mem_erase member)]
  rw [Finset.sum_congr rfl elsewhere, get_set_self] at written
  simp only [Option.elim_some] at written
  omega

theorem total_remove (weight : K → V → Nat) (table : Table K V) (key : K) :
    (table.remove key).total weight + (table.get key).elim 0 (weight key) =
      table.total weight := by
  cases found : table.get key with
  | none =>
      have unchanged : table.remove key = table := by
        apply ext
        intro query
        rw [get_remove]
        split
        · rename_i same
          rw [same, found]
        · rfl
      simp [unchanged]
  | some value =>
      have restored : (table.remove key).set key value = table := by
        apply ext
        intro query
        rw [get_set, get_remove]
        split
        · rename_i same
          rw [same, found]
        · rfl
      have written := total_set weight (table.remove key) key value
      rw [restored, get_remove_self] at written
      simpa using written.symm

theorem total_extend (weight : K → V → Nat) (table batch : Table K V)
    (apart : ∀ key ∈ batch.keys, table.get key = none) :
    (table.extend batch).total weight = table.total weight + batch.total weight := by
  have covers : (table.extend batch).keys ⊆ table.keys ∪ batch.keys :=
    fun _ member => Finset.mem_union.mpr (mem_keys_extend member)
  rw [total_eq_sum weight _ _ covers, total_eq_sum weight table _ Finset.subset_union_left,
    total_eq_sum weight batch _ Finset.subset_union_right, ← Finset.sum_add_distrib]
  refine Finset.sum_congr rfl ?_
  intro key _
  rw [get_extend]
  cases new : batch.get key with
  | none => simp
  | some value => simp [apart key (mem_keys_iff.mpr ⟨value, new⟩)]

theorem total_extendList (weight : K → V → Nat) {table : Table K V} {batch : List (K × V)}
    (distinct : (batch.map Prod.fst).Nodup)
    (apart : ∀ entry ∈ batch, table.get entry.1 = none) :
    (table.extendList batch).total weight =
      table.total weight + (batch.map fun entry => weight entry.1 entry.2).sum := by
  induction batch generalizing table with
  | nil => simp
  | cons entry rest ih =>
      rw [List.map_cons, List.nodup_cons] at distinct
      have written := total_set weight table entry.1 entry.2
      rw [apart entry List.mem_cons_self] at written
      rw [extendList_cons, ih distinct.2, List.map_cons, List.sum_cons]
      · simp only [Option.elim_none] at written
        omega
      · intro other listed
        have different : other.1 ≠ entry.1 := by
          intro same
          exact distinct.1 (same ▸ List.mem_map_of_mem listed)
        rw [get_set_ne _ _ different]
        exact apart other (List.mem_cons_of_mem _ listed)

theorem total_removeBatch (weight : K → V → Nat) (table : Table K V) (removed : Finset K) :
    (table.removeBatch removed).total weight + (table.restrict removed).total weight =
      table.total weight := by
  have rest : (table.removeBatch removed).keys ⊆ table.keys :=
    fun _ member => mem_keys_removeBatch member
  have taken : (table.restrict removed).keys ⊆ table.keys := by
    rw [keys_restrict]
    exact Finset.inter_subset_right
  rw [total_eq_sum weight _ _ rest, total_eq_sum weight _ _ taken, ← Finset.sum_add_distrib, total]
  refine Finset.sum_congr rfl ?_
  intro key _
  rw [get_removeBatch, get_restrict]
  split <;> simp

theorem le_total (weight : K → V → Nat) (table : Table K V) (key : K) :
    (table.get key).elim 0 (weight key) ≤ table.total weight := by
  have removed := total_remove weight table key
  omega

theorem total_congr {weight : K → V → Nat} (other : K → V → Nat) {table : Table K V}
    (same : ∀ key value, table.get key = some value → weight key value = other key value) :
    table.total weight = table.total other := by
  refine Finset.sum_congr rfl ?_
  intro key _
  cases found : table.get key with
  | none => rfl
  | some value => simp [same key value found]

theorem total_eq_zero {weight : K → V → Nat} {table : Table K V}
    (zero : ∀ key value, table.get key = some value → weight key value = 0) :
    table.total weight = 0 := by
  rw [total_congr (fun _ _ => 0) zero]
  refine Finset.sum_eq_zero ?_
  intro key _
  cases table.get key <;> rfl

end Table

end FiniteTable
