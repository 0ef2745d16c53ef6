import WjkIndexer.Database.Locations
import WjkIndexer.Library.Paging

/-!
The history of an address and a tick, page by page: a reversed scan below the id of the last event
of the page before.
-/

namespace WjkIndexer

open FiniteTable ByteString SortedStore Paging

/-- A page of the history, before the addresses of its events are looked up. -/
def addressTokenHistory
    (iteratorCf : List (Bytes × Bytes) → IteratorMode → List (Bytes × Bytes))
    (value : Pebble HistoryValue) (store : List (Bytes × Bytes)) (scripthash : FullHash)
    (token : OriginalTokenTick) (offset : Option Nat) (limit : Nat) :
    Except PebbleError (List (AddressTokenIdDB × HistoryValue)) :=
  let first : AddressTokenIdDB := { address := scripthash, token := token, id := 0 }
  let last : AddressTokenIdDB :=
    { address := scripthash, token := token, id := offset.getD (2 ^ 64 - 1) }
  ((RocksTable.range iteratorCf Pebble.addressTokenIdDB value store (.included first)
    (.excluded last) true).take limit).mapM id

namespace Pebble

theorem addressTokenIdDB_lt {first second : AddressTokenIdDB} (fits : first.id < 2 ^ 64)
    (bound : second.id < 2 ^ 64) :
    addressTokenIdDB.getBytes first < addressTokenIdDB.getBytes second ↔
      beBytes 32 first.address.toNat < beBytes 32 second.address.toNat ∨
        first.address = second.address ∧ (first.token.bytes < second.token.bytes ∨
          first.token.bytes = second.token.bytes ∧ first.id < second.id) := by
  have addresses : beBytes 32 first.address.toNat = beBytes 32 second.address.toNat ↔
      first.address = second.address := by
    constructor
    · intro same
      exact BitVec.toNat_inj.mp (beBytes_inj (lt_of_lt_of_eq first.address.isLt (by norm_num))
        (lt_of_lt_of_eq second.address.isLt (by norm_num)) same)
    · intro same
      rw [same]
  simp only [addressTokenIdDB, List.append_assoc]
  rw [append_lt_append (by simp), append_lt_append (by rw [first.token.size, second.token.size]),
    addresses, beBytes_lt (lt_of_lt_of_eq fits (by norm_num))
      (lt_of_lt_of_eq bound (by norm_num))]

end Pebble

theorem OriginalTokenTick.eq_of_bytes {first second : OriginalTokenTick}
    (same : first.bytes = second.bytes) : first = second := by
  cases first
  cases second
  dsimp only at same
  subst same
  rfl

theorem within_history {key : AddressTokenIdDB} (fits : key.id < 2 ^ 64) (scripthash : FullHash)
    (token : OriginalTokenTick) {bound : Nat} (small : bound < 2 ^ 64) :
    ((Bound.included (Pebble.addressTokenIdDB.getBytes
          { address := scripthash, token := token, id := 0 })).above
        (Pebble.addressTokenIdDB.getBytes key) &&
      (Bound.excluded (Pebble.addressTokenIdDB.getBytes
          { address := scripthash, token := token, id := bound })).below
        (Pebble.addressTokenIdDB.getBytes key)) = true ↔
      (key.address = scripthash ∧ key.token = token) ∧ key.id < bound := by
  simp only [Bound.above, Bound.below, Bool.and_eq_true, decide_eq_true_eq]
  rw [← not_lt, Pebble.addressTokenIdDB_lt fits (by norm_num),
      Pebble.addressTokenIdDB_lt fits small]
  constructor
  · rintro ⟨notBelow, before | ⟨sameAddress, before | ⟨sameToken, lower⟩⟩⟩
    · exact absurd (Or.inl before) notBelow
    · exact absurd (Or.inr ⟨sameAddress, Or.inl before⟩) notBelow
    · exact ⟨⟨sameAddress, OriginalTokenTick.eq_of_bytes sameToken⟩, lower⟩
  · rintro ⟨⟨rfl, rfl⟩, lower⟩
    simp [lower]

section Pages

variable {iteratorCf : List (Bytes × Bytes) → IteratorMode → List (Bytes × Bytes)}
  {value : Pebble HistoryValue} {store : List (Bytes × Bytes)}
  {table : Table AddressTokenIdDB HistoryValue}

/-- The events of an address and a tick, the latest first. -/
def eventsOf (value : Pebble HistoryValue) (store : List (Bytes × Bytes)) (scripthash : FullHash)
    (token : OriginalTokenTick) : List (AddressTokenIdDB × HistoryValue) :=
  ((storedEntries Pebble.addressTokenIdDB value store).filter fun entry =>
    entry.1.address = scripthash ∧ entry.1.token = token).reverse

theorem events_readBack (ranged : ∀ key ∈ table.keys, key.id < 2 ^ 64 - 1)
    (survives : ∀ key found, table.get key = some found →
      value.fromBytes (value.getBytes found) = .ok found) :
    ReadsBack Pebble.addressTokenIdDB value table where
  keys key member := Pebble.addressTokenIdDB_fromBytes (by
    have small := ranged key member
    omega)
  values := survives

theorem mem_eventsOf (stored : Stored Pebble.addressTokenIdDB value store table)
    (survives : ReadsBack Pebble.addressTokenIdDB value table) (scripthash : FullHash)
    (token : OriginalTokenTick) (key : AddressTokenIdDB) (found : HistoryValue) :
    (key, found) ∈ eventsOf value store scripthash token ↔
      table.get key = some found ∧ key.address = scripthash ∧ key.token = token := by
  rw [eventsOf, List.mem_reverse, List.mem_filter, stored.mem_storedEntries survives,
    decide_eq_true_eq]

theorem eventsOf_descending (stored : Stored Pebble.addressTokenIdDB value store table)
    (ranged : ∀ key ∈ table.keys, key.id < 2 ^ 64 - 1)
    (survives : ReadsBack Pebble.addressTokenIdDB value table) (scripthash : FullHash)
    (token : OriginalTokenTick) :
    (eventsOf value store scripthash token).Pairwise fun earlier later =>
      later.1.id < earlier.1.id := by
  rw [eventsOf, List.pairwise_reverse]
  refine List.Pairwise.imp_of_mem ?_ ((stored.storedEntries_sorted survives).filter _)
  rintro ⟨earlier, first⟩ ⟨later, second⟩ member other order
  simp only [List.mem_filter, stored.mem_storedEntries survives, decide_eq_true_eq] at member other
  have small := ranged earlier (Table.mem_keys_iff.mpr ⟨_, member.1⟩)
  have bound := ranged later (Table.mem_keys_iff.mpr ⟨_, other.1⟩)
  have fits : earlier.id < 2 ^ 64 := by omega
  have inside : later.id < 2 ^ 64 := by omega
  rw [Pebble.addressTokenIdDB_lt fits inside] at order
  rw [member.2.1, member.2.2, other.2.1, other.2.2] at order
  rcases order with impossible | ⟨_, impossible | ⟨_, lower⟩⟩
  · exact absurd impossible (lt_irrefl _)
  · exact absurd impossible (lt_irrefl _)
  · exact lower

theorem addressTokenHistory_eq (walks : WalksInOrder iteratorCf)
    (stored : Stored Pebble.addressTokenIdDB value store table)
    (ranged : ∀ key ∈ table.keys, key.id < 2 ^ 64 - 1)
    (survives : ReadsBack Pebble.addressTokenIdDB value table) (scripthash : FullHash)
    (token : OriginalTokenTick) {offset : Option Nat}
    (small : offset.getD (2 ^ 64 - 1) < 2 ^ 64) (limit : Nat) :
    addressTokenHistory iteratorCf value store scripthash token offset limit =
      .ok (((eventsOf value store scripthash token).filter fun entry =>
        entry.1.id < offset.getD (2 ^ 64 - 1)).take limit) := by
  simp only [addressTokenHistory]
  rw [stored.range_eq walks survives, if_pos rfl, ← List.map_take, collect_ok]
  congr 2
  rw [eventsOf, List.filter_reverse, List.filter_filter]
  congr 1
  apply List.filter_congr
  rintro ⟨key, found⟩ member
  have present := (stored.mem_storedEntries survives).mp member
  have below := ranged key (Table.mem_keys_iff.mpr ⟨_, present⟩)
  have fits : key.id < 2 ^ 64 := by omega
  rw [Bool.eq_iff_iff, RocksTable.encodeBound, RocksTable.encodeBound,
    within_history fits scripthash token small, Bool.and_eq_true, decide_eq_true_eq,
    decide_eq_true_eq, and_comm]

/-- A client that asks for page after page ends with every event of the address and the tick,
each once and the latest first. -/
theorem history_paged (walks : WalksInOrder iteratorCf)
    (stored : Stored Pebble.addressTokenIdDB value store table)
    (ranged : ∀ key ∈ table.keys, key.id < 2 ^ 64 - 1)
    (survives : ∀ key found, table.get key = some found →
      value.fromBytes (value.getBytes found) = .ok found)
    (scripthash : FullHash) (token : OriginalTokenTick) (limit : Nat) (positive : 0 < limit) :
    ∃ read,
      Reads (fun offset =>
        addressTokenHistory iteratorCf value store scripthash token offset limit)
        (fun entry => entry.1.id) none read ∧
      (∀ key found, (key, found) ∈ read ↔
        table.get key = some found ∧ key.address = scripthash ∧ key.token = token) ∧
      read.Pairwise (fun earlier later => later.1.id < earlier.1.id) := by
  have reads := events_readBack ranged survives
  have descending := eventsOf_descending stored ranged reads scripthash token
  have members := mem_eventsOf stored reads scripthash token
  have ids : ∀ entry ∈ eventsOf value store scripthash token, entry.1.id < 2 ^ 64 - 1 := by
    intro entry listed
    have present := (members entry.1 entry.2).mp listed
    exact ranged _ (Table.mem_keys_iff.mpr ⟨_, present.1⟩)
  refine ⟨eventsOf value store scripthash token, ?_, members, descending⟩
  refine reads_all positive ?_ ?_
  · rw [addressTokenHistory_eq walks stored ranged reads scripthash token (by simp),
      Option.getD_none]
    rw [List.filter_eq_self.mpr fun entry listed => decide_eq_true (ids entry listed)]
  · intro front last rest split _
    have small : last.1.id < 2 ^ 64 - 1 := ids last (by rw [split]; simp)
    rw [addressTokenHistory_eq walks stored ranged reads scripthash token (by
      rw [Option.getD_some]
      omega), Option.getD_some]
    rw [split, List.pairwise_append, List.pairwise_cons] at descending
    have later : (front ++ last :: rest).filter (fun entry => entry.1.id < last.1.id) = rest := by
      rw [List.filter_append, List.filter_cons_of_neg (by simp)]
      rw [List.filter_eq_nil_iff.mpr, List.nil_append, List.filter_eq_self.mpr]
      · intro entry listed
        exact decide_eq_true (descending.2.1.1 entry listed)
      · intro entry listed lower
        have above := descending.2.2 entry listed last List.mem_cons_self
        rw [decide_eq_true_eq] at lower
        omega
    rw [split, later]

end Pages

namespace Sample

def historyValue : Pebble HistoryValue where
  getBytes value :=
    match value.action with
    | .mint amt txid vout =>
        [UInt8.ofNat value.height, 1, UInt8.ofNat amt] ++ beBytes 32 txid.toNat ++
          [UInt8.ofNat vout]
    | _ => []
  fromBytes bytes :=
    match bytes with
    | height :: 1 :: amt :: rest =>
        match rest.drop 32 with
        | [vout] =>
            .ok {
              height := height.toNat
              action := .mint amt.toNat (BitVec.ofNat 256 (ofBeBytes (rest.take 32))) vout.toNat }
        | _ => .error .invalid
    | _ => .error .invalid

def mintedAt (address : FullHash) (tick id : Nat) : AddressTokenIdDB × HistoryValue :=
  ({ address := address
     token := { bytes := beBytes 8 tick, size := length_beBytes 8 tick }
     id := id },
    { height := 9, action := .mint 1 5 0 })

def mints : List (AddressTokenIdDB × HistoryValue) :=
  [mintedAt 6 99 9, mintedAt 7 98 4, mintedAt 7 99 2, mintedAt 7 99 5, mintedAt 7 100 0]

end Sample

theorem mints_paged :
    ∃ read,
      Reads (fun offset => addressTokenHistory RocksTable.placed Sample.historyValue
        (Sample.mints.map fun entry =>
          (Pebble.addressTokenIdDB.getBytes entry.1, Sample.historyValue.getBytes entry.2)) 7
        (Sample.mintedAt 7 99 0).1.token offset 1) (fun entry => entry.1.id) none read ∧
      (∀ key found, (key, found) ∈ read ↔
        ((∅ : Table AddressTokenIdDB HistoryValue).extendList Sample.mints).get key = some found ∧
          key.address = 7 ∧ key.token = (Sample.mintedAt 7 99 0).1.token) ∧
      read.Pairwise (fun earlier later => later.1.id < earlier.1.id) := by
  have sorted : Sample.mints.Pairwise fun earlier later =>
      Pebble.addressTokenIdDB.getBytes earlier.1 < Pebble.addressTokenIdDB.getBytes later.1 := by
    decide +kernel
  refine history_paged RocksTable.placed_walks (Stored.listed sorted) ?_ ?_ 7 _ 1 (by decide)
  · intro key member
    have each : ∀ entry ∈ Sample.mints, entry.1.id < 2 ^ 64 - 1 := by decide
    rw [Table.keys_extendList] at member
    rcases Finset.mem_union.mp member with impossible | listed
    · cases impossible
    · obtain ⟨entry, found, rfl⟩ := List.mem_map.mp (List.mem_toFinset.mp listed)
      exact each entry found
  · intro key found present
    have each : ∀ entry ∈ Sample.mints, Sample.historyValue.fromBytes
        (Sample.historyValue.getBytes entry.2) = .ok entry.2 := by
      decide +kernel
    exact each _ ((Table.get_extendList_iff (Stored.keys_nodup sorted) key found).mp present)

end WjkIndexer
