import WjkIndexer.Library.Machine
import WjkIndexer.Library.SortedMap
import WjkIndexer.Rest.TxidEvents

/-!
The tables as they are written and read on the bytes of the store, against the tables of the
model.
-/

namespace WjkIndexer

open FiniteTable ByteString SortedStore

namespace RocksTable

variable {K V : Type}

/-- A value that cannot be decoded is a panic: `Rocks get`. -/
def get (key : Pebble K) (value : Pebble V) (store : List (Bytes × Bytes)) (query : K) :
    Except PebbleError (Option V) :=
  match store.lookup (key.getBytes query) with
  | none => .ok none
  | some bytes =>
      match value.fromBytes bytes with
      | .ok found => .ok (some found)
      | .error _ => .error .panic

def multiGet (key : Pebble K) (value : Pebble V) (store : List (Bytes × Bytes))
    (queries : List K) : Except PebbleError (List (Option V)) :=
  queries.mapM (get key value store)

def getOrPanic (key : Pebble K) (value : Pebble V) (store : List (Bytes × Bytes)) (query : K) :
    Except PebbleError (K × V) :=
  match get key value store query with
  | .ok (some found) => .ok (query, found)
  | .ok none => .error .panic
  | .error error => .error error

/-- `multi_get_kv` with a panic for missing keys. -/
def multiGetKvOrPanic (key : Pebble K) (value : Pebble V) (store : List (Bytes × Bytes))
    (queries : List K) : Except PebbleError (List (K × V)) :=
  queries.mapM (getOrPanic key value store)

def iter (key : Pebble K) (value : Pebble V) (store : List (Bytes × Bytes)) :
    Except PebbleError (List (K × V)) :=
  store.mapM (decodeEntry key value)

end RocksTable

inductive TableOp (K V : Type) where
  | set (query : K) (found : V)
  | remove (query : K)
  | extend (entries : List (K × V))
  | removeBatch (queries : List K)
  | retain (keep : K → V → Bool)

namespace TableOp

variable {K V : Type}

def dropped (key : Pebble K) (value : Pebble V) (keep : K → V → Bool)
    (store : List (Bytes × Bytes)) : List Bytes :=
  store.filterMap fun entry =>
    match key.fromBytes entry.1, value.fromBytes entry.2 with
    | .ok query, .ok found => if keep query found then none else some entry.1
    | _, _ => none

def write (key : Pebble K) (value : Pebble V) (store : List (Bytes × Bytes)) :
    TableOp K V → List (Bytes × Bytes)
  | set query found => put store (key.getBytes query) (value.getBytes found)
  | remove query => delete store (key.getBytes query)
  | extend entries => entries.foldl (fun store entry =>
      put store (key.getBytes entry.1) (value.getBytes entry.2)) store
  | removeBatch queries => (queries.map key.getBytes).foldl delete store
  | retain keep => (dropped key value keep store).foldl delete store

variable [DecidableEq K]

def apply (table : Table K V) : TableOp K V → Table K V
  | set query found => table.set query found
  | remove query => table.remove query
  | extend entries => table.extendList entries
  | removeBatch queries => table.removeBatch queries.toFinset
  | retain keep => table.restrict (table.keys.filter fun query => (table.get query).any (keep query))

def Within (keys : K → Prop) (values : V → Prop) : TableOp K V → Prop
  | set query found => keys query ∧ values found
  | remove query => keys query
  | extend entries => ∀ entry ∈ entries, keys entry.1 ∧ values entry.2
  | removeBatch queries => ∀ query ∈ queries, keys query
  | retain _ => True

end TableOp

structure Codes {K V : Type} (key : Pebble K) (value : Pebble V) (keys : K → Prop)
    (values : V → Prop) : Prop where
  key : ∀ query, keys query → key.fromBytes (key.getBytes query) = .ok query
  value : ∀ found, values found → value.fromBytes (value.getBytes found) = .ok found

namespace Codes

variable {K V : Type} {key : Pebble K} {value : Pebble V} {keys : K → Prop} {values : V → Prop}

theorem inj (codes : Codes key value keys values) {first second : K} (left : keys first)
    (right : keys second) : key.getBytes first = key.getBytes second ↔ first = second := by
  constructor
  · intro same
    have read := codes.key first left
    rw [same, codes.key second right] at read
    cases read
    rfl
  · intro same
    rw [same]

end Codes

structure Kept {K V : Type} [DecidableEq K] (key : Pebble K) (value : Pebble V) (keys : K → Prop)
    (values : V → Prop) (store : List (Bytes × Bytes)) (table : Table K V) : Prop
    extends Stored key value store table where
  within : ∀ query found, table.get query = some found → keys query ∧ values found

namespace Kept

variable {K V : Type} [DecidableEq K] {key : Pebble K} {value : Pebble V} {keys : K → Prop}
  {values : V → Prop} {store : List (Bytes × Bytes)} {table : Table K V}

theorem empty : Kept key value keys values [] ∅ where
  sorted := .nil
  entries entry := by simp
  within query found impossible := by simp at impossible

theorem readsBack (codes : Codes key value keys values)
    (kept : Kept key value keys values store table) : ReadsBack key value table where
  keys query member := by
    obtain ⟨found, present⟩ := Table.mem_keys_iff.mp member
    exact codes.key query (kept.within query found present).1
  values query found present := codes.value found (kept.within query found present).2

theorem set (codes : Codes key value keys values) (kept : Kept key value keys values store table)
    {query : K} {found : V} (inKeys : keys query) (inValues : values found) :
    Kept key value keys values (put store (key.getBytes query) (value.getBytes found))
      (table.set query found) where
  sorted := sorted_put kept.sorted _ _
  entries entry := by
    rw [mem_put kept.sorted, kept.entries]
    constructor
    · rintro (rfl | ⟨⟨other, old, present, rfl⟩, different⟩)
      · exact ⟨query, found, Table.get_set_self _ _ _, rfl⟩
      · refine ⟨other, old, ?_, rfl⟩
        rw [Table.get_set_ne _ _ fun same => different (by rw [same])]
        exact present
    · rintro ⟨other, new, present, rfl⟩
      rw [Table.get_set] at present
      by_cases same : other = query
      · rw [if_pos same] at present
        cases present
        exact Or.inl (by rw [same])
      · rw [if_neg same] at present
        refine Or.inr ⟨⟨other, new, present, rfl⟩, fun equal => same ?_⟩
        exact (codes.inj (kept.within other new present).1 inKeys).mp equal
  within other new present := by
    rw [Table.get_set] at present
    by_cases same : other = query
    · rw [if_pos same] at present
      cases present
      exact ⟨same ▸ inKeys, inValues⟩
    · rw [if_neg same] at present
      exact kept.within other new present

theorem deleteAll (kept : Kept key value keys values store table) {deleted : List Bytes}
    {after : Table K V} (gone : ∀ query found, table.get query = some found →
      after.get query = if key.getBytes query ∈ deleted then none else some found)
    (same : ∀ query, table.get query = none → after.get query = none) :
    Kept key value keys values (deleted.foldl delete store) after := by
  have present : ∀ query found, after.get query = some found ↔
      table.get query = some found ∧ key.getBytes query ∉ deleted := by
    intro query found
    cases stored : table.get query with
    | none => simp [same query stored]
    | some old =>
        rw [gone query old stored]
        by_cases member : key.getBytes query ∈ deleted <;> simp [member]
  refine { sorted := sorted_deleteAll deleted kept.sorted, entries := ?_, within := ?_ }
  · intro entry
    rw [mem_deleteAll, kept.entries]
    constructor
    · rintro ⟨⟨query, found, stored, rfl⟩, absent⟩
      exact ⟨query, found, (present query found).mpr ⟨stored, absent⟩, rfl⟩
    · rintro ⟨query, found, stays, rfl⟩
      obtain ⟨stored, absent⟩ := (present query found).mp stays
      exact ⟨⟨query, found, stored, rfl⟩, absent⟩
  · intro query found stays
    exact kept.within query found ((present query found).mp stays).1

theorem mem_dropped (codes : Codes key value keys values)
    (kept : Kept key value keys values store table) {keep : K → V → Bool} {query : K} {found : V}
    (stored : table.get query = some found) :
    key.getBytes query ∈ TableOp.dropped key value keep store ↔ keep query found = false := by
  obtain ⟨inKeys, inValues⟩ := kept.within query found stored
  rw [TableOp.dropped, List.mem_filterMap]
  constructor
  · rintro ⟨entry, listed, dropped⟩
    obtain ⟨other, otherValue, present, rfl⟩ := (kept.entries entry).mp listed
    obtain ⟨otherKeys, otherValues⟩ := kept.within other otherValue present
    simp only [codes.key other otherKeys, codes.value otherValue otherValues] at dropped
    split at dropped
    · cases dropped
    · rename_i gone
      have equal := (codes.inj otherKeys inKeys).mp (Option.some.inj dropped)
      subst equal
      rw [stored] at present
      cases present
      exact Bool.eq_false_iff.mpr gone
  · intro gone
    refine ⟨_, (kept.entries _).mpr ⟨query, found, stored, rfl⟩, ?_⟩
    simp only [codes.key query inKeys, codes.value found inValues, gone, Bool.false_eq_true, if_false]

theorem applied (codes : Codes key value keys values)
    (kept : Kept key value keys values store table) {op : TableOp K V}
    (within : op.Within keys values) :
    Kept key value keys values (op.write key value store) (op.apply table) := by
  cases op with
  | set query found => exact kept.set codes within.1 within.2
  | extend entries =>
      rw [TableOp.write, TableOp.apply]
      rw [TableOp.Within] at within
      induction entries generalizing store table with
      | nil => exact kept
      | cons entry rest ih =>
          obtain ⟨inKeys, inValues⟩ := within entry List.mem_cons_self
          exact ih (kept.set codes inKeys inValues) fun other listed =>
            within other (List.mem_cons_of_mem _ listed)
  | remove query =>
      have single : [key.getBytes query].foldl delete store = delete store (key.getBytes query) := rfl
      rw [TableOp.write, ← single]
      refine kept.deleteAll ?_ ?_
      · intro other found stored
        simp only [TableOp.apply, Table.get_remove, stored, List.mem_singleton,
          codes.inj (kept.within other found stored).1 within]
      · intro other absent
        rw [TableOp.apply, Table.get_remove, absent, ite_self]
  | removeBatch queries =>
      refine kept.deleteAll ?_ ?_
      · intro other found stored
        rw [TableOp.apply, Table.get_removeBatch, stored]
        have listed : other ∈ queries.toFinset ↔
            key.getBytes other ∈ queries.map key.getBytes := by
          rw [List.mem_toFinset, List.mem_map]
          constructor
          · intro member
            exact ⟨other, member, rfl⟩
          · rintro ⟨query, member, same⟩
            have inKeys := (kept.within other found stored).1
            exact (codes.inj (within query member) inKeys).mp same ▸ member
        simp only [listed]
      · intro other absent
        rw [TableOp.apply, Table.get_removeBatch, absent, ite_self]
  | retain keep =>
      refine kept.deleteAll ?_ ?_
      · intro other found stored
        have member := Table.mem_keys_iff.mpr ⟨found, stored⟩
        simp only [TableOp.apply, Table.get_restrict, Finset.mem_filter, stored, Option.any_some,
          kept.mem_dropped codes stored, member, true_and]
        cases keep other found <;> rfl
      · intro other absent
        rw [TableOp.apply, Table.get_restrict, absent, ite_self]

theorem get (codes : Codes key value keys values) (kept : Kept key value keys values store table)
    {query : K} (inKeys : keys query) :
    RocksTable.get key value store query = .ok (table.get query) := by
  rw [RocksTable.get, kept.toStored.lookup (kept.readsBack codes) (codes.key query inKeys)]
  cases stored : table.get query with
  | none => rfl
  | some found =>
      simp only [Option.map_some, codes.value found (kept.within query found stored).2]

theorem iter (codes : Codes key value keys values) (kept : Kept key value keys values store table) :
    RocksTable.iter key value store = .ok (storedEntries key value store) := by
  have read : ∀ part : List (Bytes × Bytes), (∀ entry ∈ part, entry ∈ store) →
      part.mapM (decodeEntry key value) = .ok (storedEntries key value part) := by
    intro part listed
    induction part with
    | nil => rfl
    | cons entry rest ih =>
        obtain ⟨query, found, _, _, decodes⟩ :=
          kept.toStored.decoded (kept.readsBack codes) (listed entry List.mem_cons_self)
        rw [List.mapM_cons, decodes, ih fun other member => listed other (.tail _ member),
          storedEntries, storedEntries, List.filterMap_cons, decodes]
        rfl
  exact read store fun _ listed => listed

end Kept

theorem kept_exists {K V : Type} [DecidableEq K] {key : Pebble K} {value : Pebble V}
    {keys : K → Prop} {values : V → Prop} (codes : Codes key value keys values) (table : Table K V)
    (within : ∀ query found, table.get query = some found → keys query ∧ values found) :
    ∃ store, Kept key value keys values store table := by
  generalize domain : table.keys = written
  induction written using Finset.induction_on generalizing table with
  | empty =>
      have none : table = ∅ := by
        apply Table.ext
        intro query
        rw [Table.get_empty, Table.get_eq_none_iff, domain]
        exact Finset.notMem_empty query
      exact ⟨[], none ▸ .empty⟩
  | insert query rest new ih =>
      obtain ⟨found, stored⟩ := Table.mem_keys_iff.mp (domain ▸ Finset.mem_insert_self query rest)
      have others : (table.remove query).keys = rest := by
        ext other
        have present : other ∈ table.keys ↔ other = query ∨ other ∈ rest := by
          rw [domain, Finset.mem_insert]
        rw [Table.mem_keys_iff] at present ⊢
        simp only [Table.get_remove]
        by_cases same : other = query
        · simp [same, new]
        · simp [same, present]
      obtain ⟨store, kept⟩ := ih (table.remove query) (fun other value present => by
        rw [Table.get_remove] at present
        split at present
        · cases present
        · exact within other value present) others
      obtain ⟨inKeys, inValues⟩ := within query found stored
      have whole : (table.remove query).set query found = table := by
        apply Table.ext
        intro other
        rw [Table.get_set, Table.get_remove]
        by_cases same : other = query
        · simp [same, stored]
        · simp [same]
      exact ⟨_, whole ▸ kept.set codes inKeys inValues⟩

structure Answers {K V : Type} [DecidableEq K] (key : Pebble K) (value : Pebble V)
    (keys : K → Prop) (store : List (Bytes × Bytes)) (table : Table K V) : Prop where
  get : ∀ query, keys query → RocksTable.get key value store query = .ok (table.get query)
  multiGet : ∀ queries, (∀ query ∈ queries, keys query) →
    RocksTable.multiGet key value store queries = .ok (queries.map table.get)
  multiGetKv : ∀ queries, (∀ query ∈ queries, keys query) →
    RocksTable.multiGetKv key value store queries =
      .ok (queries.filterMap fun query => (table.get query).map fun found => (query, found))
  multiGetKvOrPanic : ∀ queries entries, (∀ query ∈ queries, keys query) →
    (RocksTable.multiGetKvOrPanic key value store queries = .ok entries ↔
      entries.map Prod.fst = queries ∧ ∀ entry ∈ entries, table.get entry.1 = some entry.2)
  iter : ∃ entries, RocksTable.iter key value store = .ok entries ∧
    (∀ query found, (query, found) ∈ entries ↔ table.get query = some found) ∧
    entries.Pairwise fun earlier later => key.getBytes earlier.1 < key.getBytes later.1

section Answers

variable {K V : Type} [DecidableEq K] {key : Pebble K} {value : Pebble V} {keys : K → Prop}
  {values : V → Prop} {store : List (Bytes × Bytes)} {table : Table K V}

theorem Kept.getOrPanic (codes : Codes key value keys values)
    (kept : Kept key value keys values store table) {query : K} (inKeys : keys query)
    (entry : K × V) :
    RocksTable.getOrPanic key value store query = .ok entry ↔
      entry.1 = query ∧ table.get entry.1 = some entry.2 := by
  obtain ⟨other, found⟩ := entry
  rw [RocksTable.getOrPanic, kept.get codes inKeys]
  cases stored : table.get query with
  | none =>
      simp only [reduceCtorEq, false_iff]
      rintro ⟨rfl, present⟩
      rw [stored] at present
      cases present
  | some value =>
      simp only [Except.ok.injEq, Prod.mk.injEq]
      constructor
      · rintro ⟨rfl, rfl⟩
        exact ⟨rfl, stored⟩
      · rintro ⟨rfl, present⟩
        exact ⟨rfl, Option.some.inj (stored.symm.trans present)⟩

theorem Kept.multiGetKvOrPanic (codes : Codes key value keys values)
    (kept : Kept key value keys values store table) {queries : List K}
    (inKeys : ∀ query ∈ queries, keys query) (entries : List (K × V)) :
    RocksTable.multiGetKvOrPanic key value store queries = .ok entries ↔
      entries.map Prod.fst = queries ∧ ∀ entry ∈ entries, table.get entry.1 = some entry.2 := by
  rw [RocksTable.multiGetKvOrPanic]
  induction queries generalizing entries with
  | nil =>
      rw [List.mapM_nil, List.map_eq_nil_iff]
      constructor
      · rintro ⟨⟩
        exact ⟨rfl, fun _ impossible => nomatch impossible⟩
      · rintro ⟨rfl, _⟩
        rfl
  | cons query rest ih =>
      have first := kept.getOrPanic codes (inKeys query List.mem_cons_self)
      have later := ih fun other listed => inKeys other (.tail _ listed)
      simp only [List.mapM_cons, Machine.bind_ok]
      constructor
      · rintro ⟨entry, read, others, decoded, ⟨⟩⟩
        obtain ⟨rfl, present⟩ := (first entry).mp read
        obtain ⟨rfl, all⟩ := (later others).mp decoded
        exact ⟨rfl, List.forall_mem_cons.mpr ⟨present, all⟩⟩
      · rintro ⟨listed, all⟩
        obtain ⟨entry, others, rfl, rfl, tail⟩ := List.map_eq_cons_iff.mp listed
        obtain ⟨present, rest⟩ := List.forall_mem_cons.mp all
        exact ⟨entry, (first entry).mpr ⟨rfl, present⟩, others, (later others).mpr ⟨tail, rest⟩, rfl⟩

theorem Kept.answers (codes : Codes key value keys values)
    (kept : Kept key value keys values store table) : Answers key value keys store table where
  get query inKeys := kept.get codes inKeys
  multiGet queries inKeys := by
    rw [RocksTable.multiGet]
    exact mapM_reads fun query listed => kept.get codes (inKeys query listed)
  multiGetKv queries inKeys := multiGetKv_eq kept.toStored (kept.readsBack codes) fun query listed =>
    codes.key query (inKeys query listed)
  multiGetKvOrPanic queries entries inKeys := kept.multiGetKvOrPanic codes inKeys entries
  iter := ⟨_, kept.iter codes,
    fun _ _ => kept.toStored.mem_storedEntries (kept.readsBack codes),
    kept.toStored.storedEntries_sorted (kept.readsBack codes)⟩

/-- After any writes whose keys and values are in the ranges of the encodings, the store has the
table that the same writes make, in the order of its bytes, and every read of the store answers
as the table does. -/
theorem table_refined (codes : Codes key value keys values) {ops : List (TableOp K V)}
    (within : ∀ op ∈ ops, op.Within keys values) :
    Stored key value (ops.foldl (TableOp.write key value) []) (ops.foldl TableOp.apply ∅) ∧
      Answers key value keys (ops.foldl (TableOp.write key value) [])
        (ops.foldl TableOp.apply ∅) := by
  have kept : Kept key value keys values (ops.foldl (TableOp.write key value) [])
      (ops.foldl TableOp.apply ∅) := by
    induction ops using List.reverseRecOn with
    | nil => exact .empty
    | append_singleton before op ih =>
        rw [List.foldl_append, List.foldl_append]
        exact (ih fun other listed => within other (List.mem_append_left _ listed)).applied codes
          (within op (by simp))
  exact ⟨kept.toStored, kept.answers codes⟩

end Answers

namespace Pebble

def txPrevout : Pebble TxPrevout where
  getBytes value := beBytes 32 value.scriptHash.toNat ++ beBytes 8 value.value
  fromBytes bytes := do
    let scriptHash ← tryInto 32 (← slice bytes 0 32)
    let value ← tryInto 8 (← slice bytes 32 bytes.length)
    .ok {
      scriptHash := BitVec.ofNat 256 (ofBeBytes scriptHash.1)
      value := ofBeBytes value.1 }

theorem txPrevout_fromBytes {prevout : TxPrevout} (fits : prevout.value < 2 ^ 64) :
    txPrevout.fromBytes (txPrevout.getBytes prevout) = .ok prevout := by
  obtain ⟨scriptHash, value⟩ := prevout
  have length : (beBytes 32 scriptHash.toNat ++ beBytes 8 value).length = 40 := by simp
  have first : slice (beBytes 32 scriptHash.toNat ++ beBytes 8 value) 0 32 =
      .ok (beBytes 32 scriptHash.toNat) := by
    have cut := slice_append [] (beBytes 32 scriptHash.toNat) (beBytes 8 value)
    simpa using cut
  have second : slice (beBytes 32 scriptHash.toNat ++ beBytes 8 value) 32 40 =
      .ok (beBytes 8 value) := by
    have cut := slice_append (beBytes 32 scriptHash.toNat) (beBytes 8 value) []
    simpa using cut
  have hash : BitVec.ofNat 256 (ofBeBytes (beBytes 32 scriptHash.toNat)) = scriptHash := by
    rw [ofBeBytes_beBytes (lt_of_lt_of_eq scriptHash.isLt (by norm_num)), BitVec.ofNat_toNat,
      BitVec.setWidth_eq]
  have number : ofBeBytes (beBytes 8 value) = value :=
    ofBeBytes_beBytes (lt_of_lt_of_eq fits (by norm_num))
  simp only [txPrevout, length, first, second, tryInto_ok (length_beBytes _ _), bind, Except.bind,
    hash, number]

theorem prevouts_coded : Codes outPoint txPrevout (fun outpoint => outpoint.vout < 2 ^ 32)
    (fun prevout => prevout.value < 2 ^ 64) where
  key _ fits := OutPoint.deserialize_serialize fits
  value _ fits := txPrevout_fromBytes fits

end Pebble

namespace Sample

def prevoutOps : List (TableOp OutPoint TxPrevout) := [
  .extend [(⟨7, 1⟩, ⟨5, 50⟩), (⟨7, 0⟩, ⟨5, 20⟩), (⟨3, 2⟩, ⟨6, 30⟩)],
  .removeBatch [⟨7, 1⟩, ⟨4, 0⟩],
  .set ⟨2, 0⟩ ⟨6, 10⟩,
  .extend [(⟨7, 1⟩, ⟨5, 40⟩)],
  .remove ⟨3, 2⟩,
  .retain fun _ prevout => prevout.value ≠ 10]

instance (op : TableOp OutPoint TxPrevout) :
    Decidable (op.Within (fun outpoint => outpoint.vout < 2 ^ 32) fun prevout =>
      prevout.value < 2 ^ 64) :=
  match op with
  | .set query found => inferInstanceAs (Decidable (query.vout < 2 ^ 32 ∧ found.value < 2 ^ 64))
  | .remove query => inferInstanceAs (Decidable (query.vout < 2 ^ 32))
  | .extend entries => inferInstanceAs (Decidable
      (∀ entry ∈ entries, entry.1.vout < 2 ^ 32 ∧ entry.2.value < 2 ^ 64))
  | .removeBatch queries => inferInstanceAs (Decidable (∀ query ∈ queries, query.vout < 2 ^ 32))
  | .retain _ => isTrue trivial

end Sample

theorem prevouts_refined :
    (Sample.prevoutOps.foldl (TableOp.write Pebble.outPoint Pebble.txPrevout) []).length = 2 ∧
    Stored Pebble.outPoint Pebble.txPrevout
      (Sample.prevoutOps.foldl (TableOp.write Pebble.outPoint Pebble.txPrevout) [])
      (Sample.prevoutOps.foldl TableOp.apply ∅) ∧
    Answers Pebble.outPoint Pebble.txPrevout (fun outpoint => outpoint.vout < 2 ^ 32)
      (Sample.prevoutOps.foldl (TableOp.write Pebble.outPoint Pebble.txPrevout) [])
      (Sample.prevoutOps.foldl TableOp.apply ∅) :=
  ⟨by decide +kernel, table_refined Pebble.prevouts_coded (by decide +kernel)⟩

end WjkIndexer
