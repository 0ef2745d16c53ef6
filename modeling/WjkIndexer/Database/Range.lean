import WjkIndexer.Database.Pebble
import WjkIndexer.Library.Scan

/-!
The range scan of a table. One body serves both directions: it swaps the ends of the range and
keeps for each the side that it came from.
-/

namespace WjkIndexer

open FiniteTable ByteString SortedStore

structure Stored {K V : Type} [DecidableEq K] (key : Pebble K) (value : Pebble V)
    (store : List (Bytes × Bytes)) (table : Table K V) : Prop where
  sorted : store.Pairwise fun earlier later => earlier.1 < later.1
  entries : ∀ entry, entry ∈ store ↔
    ∃ query found, table.get query = some found ∧
      entry = (key.getBytes query, value.getBytes found)

/-- An entry of a scan. What cannot be decoded is a panic: `Rocks range key`. -/
def decodeEntry {K V : Type} (key : Pebble K) (value : Pebble V) (entry : Bytes × Bytes) :
    Except PebbleError (K × V) :=
  match key.fromBytes entry.1, value.fromBytes entry.2 with
  | .ok query, .ok found => .ok (query, found)
  | _, _ => .error .panic

inductive Direction where
  | forward
  | reverse
  deriving DecidableEq, Repr

inductive IteratorMode where
  | start
  | finish
  | fromKey (key : Bytes) (direction : Direction)
  deriving DecidableEq, Repr

/-- The iterators of the store. One that is placed at a key begins at the first key from there
on, and all of them walk in byte order or against it. -/
structure WalksInOrder
    (iteratorCf : List (Bytes × Bytes) → IteratorMode → List (Bytes × Bytes)) : Prop where
  start : ∀ store, iteratorCf store .start = store
  finish : ∀ store, iteratorCf store .finish = store.reverse
  forward : ∀ store key,
    iteratorCf store (.fromKey key .forward) = store.dropWhile fun entry => entry.1 < key
  reverse : ∀ store key,
    iteratorCf store (.fromKey key .reverse) = store.reverse.dropWhile fun entry => key < entry.1

namespace RocksTable

inductive Position where
  | start
  | finish
  deriving DecidableEq, Repr

inductive BoundType where
  | included
  | excluded
  | unbounded
  deriving DecidableEq, Repr

variable {K V : Type}

def endpoint (key : Pebble K) (position : Position) :
    Bound K → Position × BoundType × Option Bytes
  | .excluded query => (position, .excluded, some (key.getBytes query))
  | .included query => (position, .included, some (key.getBytes query))
  | .unbounded => (position, .unbounded, none)

def skipped (startBound : BoundType) (start : Option Bytes) (entry : Bytes × Bytes) : Bool :=
  match startBound with
  | .excluded => start.any fun start => entry.1 == start
  | _ => false

def cmpBytes (first second : Bytes) : Ordering :=
  if first < second then .lt else if second < first then .gt else .eq

def taken (position : Position) (endBound : BoundType) (stop : Option Bytes)
    (entry : Bytes × Bytes) : Bool :=
  let compared :=
    match endBound with
    | .unbounded => none
    | _ => stop.map (cmpBytes entry.1)
  match compared with
  | none => true
  | some order =>
      match position, endBound with
      | .finish, .included => order.isLE
      | .finish, _ => order.isLT
      | .start, .included => order.isGE
      | .start, _ => order.isGT

def range (iteratorCf : List (Bytes × Bytes) → IteratorMode → List (Bytes × Bytes))
    (key : Pebble K) (value : Pebble V) (store : List (Bytes × Bytes)) (first last : Bound K)
    (reversed : Bool) : List (Except PebbleError (K × V)) :=
  let start := endpoint key .start first
  let stop := endpoint key .finish last
  let (start, stop) := if reversed then (stop, start) else (start, stop)
  let (_, startBound, start) := start
  let (position, endBound, stop) := stop
  let (direction, mode) :=
    if reversed then (Direction.reverse, IteratorMode.finish)
    else (Direction.forward, IteratorMode.start)
  let mode :=
    match start with
    | some start => IteratorMode.fromKey start direction
    | none => mode
  (((iteratorCf store mode).dropWhile (skipped startBound start)).takeWhile
    (taken position endBound stop)).map (decodeEntry key value)

def encodeBound (key : Pebble K) : Bound K → Bound Bytes
  | .included query => .included (key.getBytes query)
  | .excluded query => .excluded (key.getBytes query)
  | .unbounded => .unbounded

def within (key : Pebble K) (first last : Bound K) (entry : Bytes × Bytes) : Bool :=
  (encodeBound key first).above entry.1 && (encodeBound key last).below entry.1

theorem skipped_eq (key : Pebble K) (position : Position) (bound : Bound K)
    (entry : Bytes × Bytes) :
    skipped (endpoint key position bound).2.1 (endpoint key position bound).2.2 entry =
      (encodeBound key bound).excludes entry.1 := by
  cases bound with
  | included query => rfl
  | excluded query =>
      simp only [skipped, endpoint, encodeBound, Bound.excludes, Option.any_some]
      rw [Bool.eq_iff_iff]
      simp only [beq_iff_eq]
  | unbounded => rfl

theorem cmpBytes_isLT (first second : Bytes) :
    (cmpBytes first second).isLT = true ↔ first < second := by
  rw [cmpBytes]
  split
  · simp [*]
  · split <;> simp [*]

theorem cmpBytes_isGT (first second : Bytes) :
    (cmpBytes first second).isGT = true ↔ second < first := by
  rw [cmpBytes]
  split
  · rename_i less
    simpa using less.le
  · split <;> simp_all

theorem cmpBytes_isLE (first second : Bytes) :
    (cmpBytes first second).isLE = true ↔ first ≤ second := by
  rw [← not_lt, ← cmpBytes_isGT]
  cases cmpBytes first second <;> decide

theorem cmpBytes_isGE (first second : Bytes) :
    (cmpBytes first second).isGE = true ↔ second ≤ first := by
  rw [← not_lt, ← cmpBytes_isLT]
  cases cmpBytes first second <;> decide

theorem taken_finish (key : Pebble K) (bound : Bound K) (entry : Bytes × Bytes) :
    taken (endpoint key .finish bound).1 (endpoint key .finish bound).2.1
        (endpoint key .finish bound).2.2 entry =
      (encodeBound key bound).below entry.1 := by
  cases bound with
  | included query =>
      simp only [taken, endpoint, encodeBound, Bound.below, Option.map_some]
      rw [Bool.eq_iff_iff, cmpBytes_isLE]
      simp only [decide_eq_true_eq]
  | excluded query =>
      simp only [taken, endpoint, encodeBound, Bound.below, Option.map_some]
      rw [Bool.eq_iff_iff, cmpBytes_isLT]
      simp only [decide_eq_true_eq]
  | unbounded => rfl

theorem taken_start (key : Pebble K) (bound : Bound K) (entry : Bytes × Bytes) :
    taken (endpoint key .start bound).1 (endpoint key .start bound).2.1
        (endpoint key .start bound).2.2 entry =
      (encodeBound key bound).above entry.1 := by
  cases bound with
  | included query =>
      simp only [taken, endpoint, encodeBound, Bound.above, Option.map_some]
      rw [Bool.eq_iff_iff, cmpBytes_isGE]
      simp only [decide_eq_true_eq]
  | excluded query =>
      simp only [taken, endpoint, encodeBound, Bound.above, Option.map_some]
      rw [Bool.eq_iff_iff, cmpBytes_isGT]
      simp only [decide_eq_true_eq]
  | unbounded => rfl

variable {iteratorCf : List (Bytes × Bytes) → IteratorMode → List (Bytes × Bytes)}
  {store : List (Bytes × Bytes)}

theorem forward_iterator (walks : WalksInOrder iteratorCf)
    (sorted : store.Pairwise fun earlier later => earlier.1 < later.1) (query : Bytes) :
    iteratorCf store (.fromKey query .forward) = store.filter fun entry => query ≤ entry.1 := by
  rw [walks.forward, dropWhile_eq_filter]
  · apply List.filter_congr
    intro entry _
    rw [← decide_not, Bool.eq_iff_iff, decide_eq_true_eq, decide_eq_true_eq, not_lt]
  · refine sorted.imp ?_
    intro earlier later order before
    rw [decide_eq_true_eq] at before ⊢
    exact order.trans before

theorem reverse_iterator (walks : WalksInOrder iteratorCf)
    (sorted : store.Pairwise fun earlier later => earlier.1 < later.1) (query : Bytes) :
    iteratorCf store (.fromKey query .reverse) =
      (store.filter fun entry => entry.1 ≤ query).reverse := by
  rw [walks.reverse, dropWhile_eq_filter, ← List.filter_reverse]
  · apply List.filter_congr
    intro entry _
    rw [← decide_not, Bool.eq_iff_iff, decide_eq_true_eq, decide_eq_true_eq, not_lt]
  · rw [List.pairwise_reverse]
    refine sorted.imp ?_
    intro later earlier order after
    rw [decide_eq_true_eq] at after ⊢
    exact after.trans order

theorem range_eq_scan (walks : WalksInOrder iteratorCf)
    (sorted : store.Pairwise fun earlier later => earlier.1 < later.1) (key : Pebble K)
    (value : Pebble V) (first last : Bound K) (reversed : Bool) :
    range iteratorCf key value store first last reversed =
      (SortedStore.range store (encodeBound key first) (encodeBound key last) reversed).map
        (decodeEntry key value) := by
  cases reversed with
  | false =>
      have skips := funext (skipped_eq key .start first)
      have takes := funext (taken_finish key last)
      simp only [range, Bool.false_eq_true, if_false, SortedStore.range, ascend]
      rw [skips, takes]
      cases first with
      | included query =>
          simp only [endpoint, encodeBound, Bound.key, forward_iterator walks sorted]
      | excluded query =>
          simp only [endpoint, encodeBound, Bound.key, forward_iterator walks sorted]
      | unbounded => simp only [endpoint, encodeBound, Bound.key, walks.start]
  | true =>
      have skips := funext (skipped_eq key .finish last)
      have takes := funext (taken_start key first)
      simp only [range, if_true, SortedStore.range, descend]
      rw [skips, takes]
      cases last with
      | included query =>
          simp only [endpoint, encodeBound, Bound.key, reverse_iterator walks sorted]
      | excluded query =>
          simp only [endpoint, encodeBound, Bound.key, reverse_iterator walks sorted]
      | unbounded => simp only [endpoint, encodeBound, Bound.key, walks.finish]

/-- A scan yields exactly the entries whose key bytes lie within its bounds, in byte order or
against it. -/
theorem range_exact (walks : WalksInOrder iteratorCf)
    (sorted : store.Pairwise fun earlier later => earlier.1 < later.1) (key : Pebble K)
    (value : Pebble V) (first last : Bound K) (reversed : Bool) :
    range iteratorCf key value store first last reversed =
      (if reversed then (store.filter (within key first last)).reverse
        else store.filter (within key first last)).map (decodeEntry key value) := by
  rw [range_eq_scan walks sorted, SortedStore.range_eq sorted]
  rfl

def placed (store : List (Bytes × Bytes)) : IteratorMode → List (Bytes × Bytes)
  | .start => store
  | .finish => store.reverse
  | .fromKey key .forward => store.dropWhile fun entry => entry.1 < key
  | .fromKey key .reverse => store.reverse.dropWhile fun entry => key < entry.1

theorem placed_walks : WalksInOrder placed where
  start _ := rfl
  finish _ := rfl
  forward _ _ := rfl
  reverse _ _ := rfl

theorem reversed_scan :
    range placed (Pebble.uint 1) (Pebble.uint 1) [([1], [10]), ([2], [20]), ([5], [50]), ([9], [90])]
        (.excluded 1) (.included 7) true = [.ok (5, 50), .ok (2, 20)] :=
  (range_exact placed_walks (by decide) (Pebble.uint 1) (Pebble.uint 1) (.excluded 1) (.included 7)
    true).trans (by decide +kernel)

end RocksTable

/-! Scans of a table that reads back. -/

def storedEntries {K V : Type} (key : Pebble K) (value : Pebble V) (store : List (Bytes × Bytes)) :
    List (K × V) :=
  store.filterMap fun entry => (decodeEntry key value entry).toOption

structure ReadsBack {K V : Type} [DecidableEq K] (key : Pebble K) (value : Pebble V)
    (table : Table K V) : Prop where
  keys : ∀ query ∈ table.keys, key.fromBytes (key.getBytes query) = .ok query
  values : ∀ query found, table.get query = some found →
    value.fromBytes (value.getBytes found) = .ok found

namespace Stored

variable {K V : Type} [DecidableEq K] {key : Pebble K} {value : Pebble V}
  {store : List (Bytes × Bytes)} {table : Table K V}

theorem decoded (stored : Stored key value store table) (survives : ReadsBack key value table)
    {entry : Bytes × Bytes} (listed : entry ∈ store) :
    ∃ query found, table.get query = some found ∧
      entry = (key.getBytes query, value.getBytes found) ∧
      decodeEntry key value entry = .ok (query, found) := by
  obtain ⟨query, found, present, rfl⟩ := (stored.entries entry).mp listed
  refine ⟨query, found, present, rfl, ?_⟩
  have readKey := survives.keys query (Table.mem_keys_iff.mpr ⟨found, present⟩)
  have readValue := survives.values query found present
  simp only [decodeEntry, readKey, readValue]

theorem mem_storedEntries (stored : Stored key value store table)
    (survives : ReadsBack key value table) {query : K} {found : V} :
    (query, found) ∈ storedEntries key value store ↔ table.get query = some found := by
  rw [storedEntries, List.mem_filterMap]
  constructor
  · rintro ⟨entry, listed, read⟩
    obtain ⟨other, value, present, _, readOther⟩ := stored.decoded survives listed
    rw [readOther] at read
    cases read
    exact present
  · intro present
    have listed := (stored.entries _).mpr ⟨query, found, present, rfl⟩
    refine ⟨_, listed, ?_⟩
    have readKey := survives.keys query (Table.mem_keys_iff.mpr ⟨found, present⟩)
    have readValue := survives.values query found present
    simp only [decodeEntry, readKey, readValue, Except.toOption]

theorem storedEntries_sorted (stored : Stored key value store table)
    (survives : ReadsBack key value table) :
    (storedEntries key value store).Pairwise fun earlier later =>
      key.getBytes earlier.1 < key.getBytes later.1 := by
  rw [storedEntries, List.pairwise_filterMap]
  refine stored.sorted.imp_of_mem ?_
  intro earlier later member other order first readFirst second readSecond
  obtain ⟨query, found, _, rfl, read⟩ := stored.decoded survives member
  obtain ⟨next, value, _, rfl, readNext⟩ := stored.decoded survives other
  rw [read] at readFirst
  rw [readNext] at readSecond
  cases readFirst
  cases readSecond
  exact order

theorem range_eq {iteratorCf : List (Bytes × Bytes) → IteratorMode → List (Bytes × Bytes)}
    (walks : WalksInOrder iteratorCf) (stored : Stored key value store table)
    (survives : ReadsBack key value table) (first last : Bound K) (reversed : Bool) :
    RocksTable.range iteratorCf key value store first last reversed =
      (if reversed then ((storedEntries key value store).filter fun entry =>
          (RocksTable.encodeBound key first).above (key.getBytes entry.1) &&
            (RocksTable.encodeBound key last).below (key.getBytes entry.1)).reverse
        else (storedEntries key value store).filter fun entry =>
          (RocksTable.encodeBound key first).above (key.getBytes entry.1) &&
            (RocksTable.encodeBound key last).below (key.getBytes entry.1)).map .ok := by
  have read : ∀ part : List (Bytes × Bytes), (∀ entry ∈ part, entry ∈ store) →
      (part.filter fun entry => (RocksTable.encodeBound key first).above entry.1 &&
          (RocksTable.encodeBound key last).below entry.1).map (decodeEntry key value) =
        ((storedEntries key value part).filter fun entry =>
          (RocksTable.encodeBound key first).above (key.getBytes entry.1) &&
            (RocksTable.encodeBound key last).below (key.getBytes entry.1)).map .ok := by
    intro part listed
    induction part with
    | nil => rfl
    | cons entry rest ih =>
        obtain ⟨query, found, _, shape, decodes⟩ :=
          stored.decoded survives (listed entry List.mem_cons_self)
        have later := ih fun other member => listed other (List.mem_cons_of_mem _ member)
        have head : storedEntries key value (entry :: rest) =
            (query, found) :: storedEntries key value rest := by
          rw [storedEntries, List.filterMap_cons, decodes]
          rfl
        have bytes : entry.1 = key.getBytes query := by rw [shape]
        rw [head, List.filter_cons, List.filter_cons, bytes]
        split
        · rw [List.map_cons, List.map_cons, decodes, later]
        · exact later
  rw [RocksTable.range_eq_scan walks stored.sorted, SortedStore.range_eq stored.sorted]
  cases reversed with
  | false => exact read store fun _ listed => listed
  | true =>
      rw [if_pos rfl, if_pos rfl, List.map_reverse, List.map_reverse]
      exact congrArg List.reverse (read store fun _ listed => listed)

variable {entries : List (K × V)}

omit [DecidableEq K] in
theorem keys_nodup (sorted : entries.Pairwise fun earlier later =>
    key.getBytes earlier.1 < key.getBytes later.1) : (entries.map Prod.fst).Nodup := by
  rw [List.Nodup, List.pairwise_map]
  refine sorted.imp ?_
  intro earlier later order same
  rw [same] at order
  exact lt_irrefl _ order

theorem listed (sorted : entries.Pairwise fun earlier later =>
    key.getBytes earlier.1 < key.getBytes later.1) :
    Stored key value (entries.map fun entry => (key.getBytes entry.1, value.getBytes entry.2))
      ((∅ : Table K V).extendList entries) where
  sorted := List.pairwise_map.mpr sorted
  entries entry := by
    simp only [List.mem_map, Prod.exists, Table.get_extendList_iff (keys_nodup sorted), eq_comm]

end Stored

end WjkIndexer
