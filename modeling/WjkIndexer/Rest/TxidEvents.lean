import WjkIndexer.Database.Locations

/-!
The events of a transaction: a scan of the outpoints of the transaction, whose slots lead to the
entries of the history.
-/

namespace WjkIndexer

open FiniteTable ByteString SortedStore

namespace Pebble

/-- `UsingConsensus<OutPoint>` -/
def outPoint : Pebble OutPoint where
  getBytes := OutPoint.serialize
  fromBytes := OutPoint.deserialize

end Pebble

namespace RocksTable

/-- `multi_get_kv` without a panic for missing keys. A value that cannot be decoded is one. -/
def multiGetKv {K V : Type} (key : Pebble K) (value : Pebble V) (store : List (Bytes × Bytes))
    (keys : List K) : Except PebbleError (List (K × V)) :=
  (keys.filterMap fun query =>
    (store.lookup (key.getBytes query)).map fun bytes => (query, bytes)).mapM fun item =>
      match value.fromBytes item.2 with
      | .ok found => .ok (item.1, found)
      | .error _ => .error .panic

end RocksTable

def sortByKeyId (events : List (AddressTokenIdDB × HistoryValue)) :
    List (AddressTokenIdDB × HistoryValue) :=
  events.insertionSort fun first second => first.1.id ≤ second.1.id

def txidEvents (iteratorCf : List (Bytes × Bytes) → IteratorMode → List (Bytes × Bytes))
    (value : Pebble HistoryValue) (outpointToEvent addressTokenToHistory : List (Bytes × Bytes))
    (txid : Txid) : Except PebbleError (List (AddressTokenIdDB × HistoryValue)) := do
  let slots ← (RocksTable.range iteratorCf Pebble.outPoint Pebble.addressTokenIdDB outpointToEvent
    (.included { txid, vout := 0 }) (.excluded { txid, vout := 0xFFFFFFFF }) false).mapM id
  let events ← RocksTable.multiGetKv Pebble.addressTokenIdDB value addressTokenToHistory
    (slots.map Prod.snd)
  .ok (sortByKeyId events)

theorem within_txid {outpoint : OutPoint} (fits : outpoint.vout < 2 ^ 32) (txid : Txid) :
    ((Bound.included (OutPoint.serialize { txid, vout := 0 })).above outpoint.serialize &&
      (Bound.excluded (OutPoint.serialize { txid, vout := 0xFFFFFFFF })).below
        outpoint.serialize) = true ↔ outpoint.txid = txid ∧ outpoint.vout < 0xFFFFFFFF := by
  have hashes : ∀ other : Txid, beBytes 32 other.toNat = beBytes 32 txid.toNat ↔ other = txid := by
    intro other
    constructor
    · intro same
      exact BitVec.toNat_inj.mp (beBytes_inj (lt_of_lt_of_eq other.isLt (by norm_num))
        (lt_of_lt_of_eq txid.isLt (by norm_num)) same)
    · rintro rfl
      rfl
  have least : leBytes 4 0 = List.replicate 4 0 := by decide
  have greatest : leBytes 4 0xFFFFFFFF = List.replicate 4 255 := by decide
  have above := replicate_zero_le (leBytes 4 outpoint.vout)
  have below := le_replicate_max (leBytes 4 outpoint.vout)
  rw [length_leBytes, ← least] at above
  rw [length_leBytes, ← greatest] at below
  have top : leBytes 4 outpoint.vout < leBytes 4 0xFFFFFFFF ↔ outpoint.vout < 0xFFFFFFFF := by
    constructor
    · intro less
      by_contra beyond
      have last : outpoint.vout = 0xFFFFFFFF := by omega
      rw [last] at less
      exact lt_irrefl _ less
    · intro less
      refine lt_of_le_of_ne below fun same => ?_
      have read := ofLeBytes_leBytes (lt_of_lt_of_eq fits (by norm_num) : outpoint.vout < 256 ^ 4)
      rw [same, ofLeBytes_leBytes (by norm_num)] at read
      omega
  simp only [Bound.above, Bound.below, Bool.and_eq_true, decide_eq_true_eq]
  simp only [OutPoint.serialize]
  rw [← not_lt, append_lt_append (by simp), append_lt_append (by simp), hashes, top]
  constructor
  · rintro ⟨notBelow, before | inside⟩
    · exact absurd (Or.inl before) notBelow
    · exact inside
  · rintro ⟨rfl, lower⟩
    refine ⟨?_, Or.inr ⟨rfl, lower⟩⟩
    rintro (impossible | ⟨_, less⟩)
    · exact lt_irrefl _ impossible
    · exact absurd less (not_lt.mpr above)

section Lookup

variable {K V : Type} [DecidableEq K] {key : Pebble K} {value : Pebble V}
  {store : List (Bytes × Bytes)} {table : Table K V}

theorem Stored.lookup (stored : Stored key value store table)
    (survives : ReadsBack key value table) {query : K}
    (read : key.fromBytes (key.getBytes query) = .ok query) :
    store.lookup (key.getBytes query) = (table.get query).map value.getBytes := by
  have own : ∀ bytes, (key.getBytes query, bytes) ∈ store →
      ∃ found, table.get query = some found ∧ bytes = value.getBytes found := by
    intro bytes listed
    obtain ⟨other, found, present, same⟩ := (stored.entries _).mp listed
    obtain ⟨sameKey, rfl⟩ := Prod.mk.inj same
    have readOther := survives.keys other (Table.mem_keys_iff.mpr ⟨found, present⟩)
    rw [← sameKey, read] at readOther
    cases readOther
    exact ⟨found, present, rfl⟩
  cases looked : store.lookup (key.getBytes query) with
  | none =>
      cases present : table.get query with
      | none => rfl
      | some found =>
          have listed := (stored.entries _).mpr ⟨query, found, present, rfl⟩
          have absent := List.lookup_eq_none_iff.mp looked _ listed
          simp at absent
  | some bytes =>
      obtain ⟨before, after, split, _⟩ := List.lookup_eq_some_iff.mp looked
      obtain ⟨found, present, rfl⟩ := own bytes (by rw [split]; simp)
      rw [present]
      rfl

theorem multiGetKv_eq (stored : Stored key value store table)
    (survives : ReadsBack key value table) {keys : List K}
    (read : ∀ query ∈ keys, key.fromBytes (key.getBytes query) = .ok query) :
    RocksTable.multiGetKv key value store keys =
      .ok (keys.filterMap fun query => (table.get query).map fun found => (query, found)) := by
  rw [RocksTable.multiGetKv]
  induction keys with
  | nil => rfl
  | cons query rest ih =>
      have later := ih fun other listed => read other (List.mem_cons_of_mem _ listed)
      rw [List.filterMap_cons, List.filterMap_cons,
        stored.lookup survives (read query List.mem_cons_self)]
      cases present : table.get query with
      | none => exact later
      | some found =>
          simp only [Option.map_some, List.mapM_cons, survives.values query found present, later]
          rfl

end Lookup

section Events

variable {iteratorCf : List (Bytes × Bytes) → IteratorMode → List (Bytes × Bytes)}
  {value : Pebble HistoryValue} {index history : List (Bytes × Bytes)}
  {slots : Table OutPoint AddressTokenIdDB} {table : Table AddressTokenIdDB HistoryValue}

/-- The tables of the index and of the history in their stores. -/
structure EventsStored (value : Pebble HistoryValue) (index history : List (Bytes × Bytes))
    (slots : Table OutPoint AddressTokenIdDB) (table : Table AddressTokenIdDB HistoryValue) :
    Prop where
  indexStored : Stored Pebble.outPoint Pebble.addressTokenIdDB index slots
  historyStored : Stored Pebble.addressTokenIdDB value history table
  vouts : ∀ outpoint ∈ slots.keys, outpoint.vout < 2 ^ 32
  slotIds : ∀ outpoint key, slots.get outpoint = some key → key.id < 2 ^ 64
  ids : ∀ key ∈ table.keys, key.id < 2 ^ 64
  values : ∀ key found, table.get key = some found →
    value.fromBytes (value.getBytes found) = .ok found

namespace EventsStored

theorem index_readBack (stored : EventsStored value index history slots table) :
    ReadsBack Pebble.outPoint Pebble.addressTokenIdDB slots where
  keys outpoint member := OutPoint.deserialize_serialize (stored.vouts outpoint member)
  values outpoint key found := Pebble.addressTokenIdDB_fromBytes (stored.slotIds outpoint key found)

theorem history_readBack (stored : EventsStored value index history slots table) :
    ReadsBack Pebble.addressTokenIdDB value table where
  keys key member := Pebble.addressTokenIdDB_fromBytes (stored.ids key member)
  values := stored.values

end EventsStored

def outputSlots (index : List (Bytes × Bytes)) (txid : Txid) : List (OutPoint × AddressTokenIdDB) :=
  (storedEntries Pebble.outPoint Pebble.addressTokenIdDB index).filter fun entry =>
    entry.1.txid = txid ∧ entry.1.vout < 0xFFFFFFFF

theorem mem_outputSlots (stored : EventsStored value index history slots table) {txid : Txid}
    {outpoint : OutPoint} {key : AddressTokenIdDB} : (outpoint, key) ∈ outputSlots index txid ↔
      slots.get outpoint = some key ∧ outpoint.txid = txid ∧ outpoint.vout < 0xFFFFFFFF := by
  rw [outputSlots, List.mem_filter, stored.indexStored.mem_storedEntries stored.index_readBack,
    decide_eq_true_eq]

def eventsAt (slots : List (OutPoint × AddressTokenIdDB))
    (table : Table AddressTokenIdDB HistoryValue) : List (AddressTokenIdDB × HistoryValue) :=
  (slots.map Prod.snd).filterMap fun key => (table.get key).map fun found => (key, found)

theorem txidEvents_eq (walks : WalksInOrder iteratorCf)
    (stored : EventsStored value index history slots table) (txid : Txid) :
    txidEvents iteratorCf value index history txid =
      .ok (sortByKeyId (eventsAt (outputSlots index txid) table)) := by
  have scanned : RocksTable.range iteratorCf Pebble.outPoint Pebble.addressTokenIdDB index
      (.included { txid, vout := 0 }) (.excluded { txid, vout := 0xFFFFFFFF }) false =
        (outputSlots index txid).map .ok := by
    rw [stored.indexStored.range_eq walks stored.index_readBack]
    refine congrArg _ (List.filter_congr ?_)
    rintro ⟨outpoint, key⟩ listed
    have present := (stored.indexStored.mem_storedEntries stored.index_readBack).mp listed
    have fits := stored.vouts outpoint (Table.mem_keys_iff.mpr ⟨key, present⟩)
    rw [Bool.eq_iff_iff, decide_eq_true_eq]
    exact within_txid fits txid
  have read : ∀ key ∈ (outputSlots index txid).map Prod.snd,
      Pebble.addressTokenIdDB.fromBytes (Pebble.addressTokenIdDB.getBytes key) = .ok key := by
    intro key listed
    obtain ⟨⟨outpoint, own⟩, member, rfl⟩ := List.mem_map.mp listed
    exact Pebble.addressTokenIdDB_fromBytes
      (stored.slotIds outpoint own ((mem_outputSlots stored).mp member).1)
  have found := multiGetKv_eq stored.historyStored stored.history_readBack read
  rw [txidEvents, scanned, collect_ok]
  change (RocksTable.multiGetKv Pebble.addressTokenIdDB value history
    ((outputSlots index txid).map Prod.snd) >>= fun events => .ok (sortByKeyId events)) = _
  rw [found]
  rfl

theorem mem_txidEvents (stored : EventsStored value index history slots table) {txid : Txid}
    {key : AddressTokenIdDB} {found : HistoryValue} :
    (key, found) ∈ sortByKeyId (eventsAt (outputSlots index txid) table) ↔
      table.get key = some found ∧ ∃ outpoint, slots.get outpoint = some key ∧
        outpoint.txid = txid ∧ outpoint.vout < 0xFFFFFFFF := by
  rw [sortByKeyId, List.mem_insertionSort, eventsAt, List.mem_filterMap]
  constructor
  · rintro ⟨own, listed, shown⟩
    obtain ⟨value, present, same⟩ := Option.map_eq_some_iff.mp shown
    cases same
    obtain ⟨⟨outpoint, own⟩, member, rfl⟩ := List.mem_map.mp listed
    exact ⟨present, outpoint, (mem_outputSlots stored).mp member⟩
  · rintro ⟨present, outpoint, slot⟩
    refine ⟨key, List.mem_map.mpr ⟨(outpoint, key), (mem_outputSlots stored).mpr slot, rfl⟩, ?_⟩
    rw [present]
    rfl

theorem txidEvents_ascending (stored : EventsStored value index history slots table)
    (distinct : ∀ first second key, slots.get first = some key → slots.get second = some key →
      first = second)
    (numbered : ∀ key ∈ table.keys, ∀ other ∈ table.keys, key.id = other.id → key = other)
    (txid : Txid) :
    (sortByKeyId (eventsAt (outputSlots index txid) table)).Pairwise fun earlier later =>
      earlier.1.id < later.1.id := by
  have places : (outputSlots index txid).Nodup :=
    (List.Nodup.of_map Prod.fst (Stored.keys_nodup
      (stored.indexStored.storedEntries_sorted stored.index_readBack))).filter _
  have keys : ((outputSlots index txid).map Prod.snd).Nodup := by
    refine places.map_on ?_
    rintro ⟨first, key⟩ listed ⟨second, other⟩ also same
    dsimp only at same
    subst same
    rw [distinct first second key ((mem_outputSlots stored).mp listed).1
      ((mem_outputSlots stored).mp also).1]
  have events : (eventsAt (outputSlots index txid) table).Nodup := by
    refine keys.filterMap ?_
    intro key other event shown again
    obtain ⟨_, _, rfl⟩ := Option.map_eq_some_iff.mp shown
    obtain ⟨_, _, same⟩ := Option.map_eq_some_iff.mp again
    exact (congrArg Prod.fst same).symm
  have ordered : (sortByKeyId (eventsAt (outputSlots index txid) table)).Pairwise
      fun first second => first.1.id ≤ second.1.id := List.pairwise_insertionSort _ _
  have once : (sortByKeyId (eventsAt (outputSlots index txid) table)).Nodup :=
    (List.perm_insertionSort _ _).nodup_iff.mpr events
  refine (ordered.and once).imp_of_mem ?_
  rintro ⟨key, value⟩ ⟨other, shown⟩ listed also ⟨lower, different⟩
  refine lt_of_le_of_ne lower fun sameId => different ?_
  have present := ((mem_txidEvents stored).mp listed).1
  have presentToo := ((mem_txidEvents stored).mp also).1
  have same := numbered key (Table.mem_keys_iff.mpr ⟨_, present⟩) other
    (Table.mem_keys_iff.mpr ⟨_, presentToo⟩) sameId
  subst same
  rw [present] at presentToo
  cases presentToo
  rfl

end Events

end WjkIndexer
