import WjkIndexer.Indexer.HistoryIds
import WjkIndexer.Rest.TxidEvents

/-!
The index of the events over whole runs: it has one slot for each outpoint, and every event has
its own as long as no two entries of the history share an outpoint.
-/

namespace WjkIndexer

open FiniteTable TokenCache

def entriesIn (env : Env) (process : Process) (height : Nat) (block : Block) :
    List (AddressTokenIdDB × HistoryValue) :=
  historyEntries height (process.db.lastHistoryId.getD 0)
    (historyOf env process.server height block)

/-- The entries of a block have different outpoints, none of which has a slot. -/
def EventsApart (env : Env) (process : Process) : Event → Prop
  | .block height block _ =>
      ((entriesIn env process height block).map fun entry => entry.2.action.outpoint).Nodup ∧
        ∀ entry ∈ entriesIn env process height block,
          process.db.outpointToEvent.get entry.2.action.outpoint = none
  | _ => True

instance (env : Env) (process : Process) (event : Event) :
    Decidable (EventsApart env process event) :=
  match event with
  | .block height block _ => inferInstanceAs (Decidable (
      ((entriesIn env process height block).map fun entry => entry.2.action.outpoint).Nodup ∧
        ∀ entry ∈ entriesIn env process height block,
          process.db.outpointToEvent.get entry.2.action.outpoint = none))
  | .restore _ => inferInstanceAs (Decidable True)
  | .restart => inferInstanceAs (Decidable True)

structure Indexed (db : DB) : Prop where
  reached : ∀ key value, db.addressTokenToHistory.get key = some value →
    db.outpointToEvent.get value.action.outpoint = some key
  stored : ∀ outpoint key, db.outpointToEvent.get outpoint = some key →
    ∃ value, db.addressTokenToHistory.get key = some value ∧ value.action.outpoint = outpoint

structure SameIndexed (left right : DB) : Prop extends SameLedger left right where
  outpointToEvent : left.outpointToEvent = right.outpointToEvent

theorem undo_index {left right : DB} (same : left.outpointToEvent = right.outpointToEvent)
    (block : ReorgHistoryBlock) (height : Nat) :
    (block.undo height left).outpointToEvent = (block.undo height right).outpointToEvent := by
  have tokens : ∀ (entries : List TokenHistoryEntry) {left right : DB},
      left.outpointToEvent = right.outpointToEvent →
      (entries.foldr (fun entry db => entry.proceed db) left).outpointToEvent =
        (entries.foldr (fun entry db => entry.proceed db) right).outpointToEvent := by
    intro entries left right same
    induction entries with
    | nil => exact same
    | cons entry rest ih =>
        cases entry with
        | removeHistory keys last outpoints height ids =>
            exact congrArg (Table.removeBatch · outpoints) ih
        | balancesBefore | balancesToRemove | deploysToRemove | deploysToRestore
        | restoreTransfers | removeTransfers => exact ih
  have ordinals : ∀ (entries : List OrdinalsEntry) {left right : DB},
      left.outpointToEvent = right.outpointToEvent →
      (entries.foldr (fun entry db => entry.proceed db) left).outpointToEvent =
        (entries.foldr (fun entry db => entry.proceed db) right).outpointToEvent := by
    intro entries left right same
    induction entries with
    | nil => exact same
    | cons entry rest ih => cases entry <;> exact ih
  exact ordinals _ (tokens _ same)

theorem indexed_restores : Restores SameIndexed fun db _ => Indexed db ∧ GapFree db where
  ledger same := same.toSameLedger
  undo same block height := {
    toSameLedger := same.toSameLedger.undo block height
    outpointToEvent := undo_index same.outpointToEvent block height }
  kept := by
    rintro left right chain same ⟨indexed, numbered⟩
    refine ⟨⟨?_, ?_⟩, gapFree_ofLedger left right chain same.toSameLedger numbered⟩
    · rw [← same.addressTokenToHistory, ← same.outpointToEvent]
      exact indexed.reached
    · rw [← same.addressTokenToHistory, ← same.outpointToEvent]
      exact indexed.stored

theorem indexed_empty : Indexed {} where
  reached _ _ found := nomatch found
  stored _ _ found := nomatch found

section Block

variable {env : Env} {process : Process} {height : Nat} {block : Block} {handled : Handled}

structure IndexHandled (env : Env) (process : Process) (height : Nat) (block : Block)
    (handled : Handled) : Prop where
  history : (applyAll handled.processed process.db).addressTokenToHistory =
    process.db.addressTokenToHistory.extendList (entriesIn env process height block)
  index : (applyAll handled.processed process.db).outpointToEvent =
    process.db.outpointToEvent.extendList
      (ProcessedData.outpointEvents (entriesIn env process height block))
  undone : ((entriesOf handled.processed process.db).undo height
      (applyAll handled.processed process.db)).outpointToEvent =
    (applyAll handled.processed process.db).outpointToEvent.removeBatch
      ((ProcessedData.outpointEvents (entriesIn env process height block)).map Prod.fst).toFinset

theorem index_handled (result : HandledBlock env process.server height block handled) :
    IndexHandled env process height block handled := by
  cases result with
  | early before =>
      have none : entriesIn env process height block = [] := by
        rw [entriesIn, historyOf, if_pos (Or.inl before)]
        rfl
      constructor <;> rw [none]
      · rfl
      · rfl
      · exact (Table.removeBatch_empty _).symm
  | empty begun alone =>
      have none : entriesIn env process height block = [] := by
        rw [entriesIn, historyOf, if_pos (Or.inr alone)]
        rfl
      constructor <;> rw [none]
      · rfl
      · rfl
      · exact (Table.removeBatch_empty _).symm
  | @full begun several parsed done parsing processing =>
      have events : historyOf env process.server height block = done.history := by
        rw [historyOf, if_neg (by omega), parsing]
        dsimp only
        rw [processing]
      constructor <;> rw [entriesIn, events]
      · rfl
      · rfl
      · rfl

theorem indexed_handled (indexed : Indexed process.db) (numbered : GapFree process.db)
    {handleReorgs : Bool} (apart : EventsApart env process (.block height block handleReorgs))
    (written : IndexHandled env process height block handled) :
    Indexed (applyAll handled.processed process.db) ∧
      process.db.outpointToEvent = ((entriesOf handled.processed process.db).undo height
        (applyAll handled.processed process.db)).outpointToEvent := by
  have listed : entriesIn env process height block = historyEntries height
      (process.db.lastHistoryId.getD 0) (historyOf env process.server height block) := rfl
  have older := entries_fresh numbered listed
  have ids := (entries_next listed).nodup_iff.mpr
    List.nodup_range'
  have keys := List.Nodup.of_map _ ids
  obtain ⟨places, vacant⟩ := apart
  have slots : ((ProcessedData.outpointEvents (entriesIn env process height block)).map
      Prod.fst).Nodup := by
    rw [ProcessedData.outpointEvents, List.map_map]
    exact places
  have free : ∀ outpoint ∈ (ProcessedData.outpointEvents (entriesIn env process height block)).map
      Prod.fst, process.db.outpointToEvent.get outpoint = none := by
    intro outpoint listed
    rw [ProcessedData.outpointEvents, List.map_map] at listed
    obtain ⟨entry, member, rfl⟩ := List.mem_map.mp listed
    exact vacant entry member
  refine ⟨⟨?_, ?_⟩, ?_⟩
  · intro key value found
    rw [written.history] at found
    rw [written.index]
    by_cases new : key ∈ (entriesIn env process height block).map Prod.fst
    · have listed := Table.mem_of_get_extendList new found
      exact Table.get_extendList_listed slots (List.mem_map_of_mem listed) _
    · rw [Table.get_extendList_of_notMem new] at found
      have slot := indexed.reached key value found
      rw [Table.get_extendList_of_notMem, slot]
      intro taken
      rw [free _ taken] at slot
      cases slot
  · intro outpoint key slot
    rw [written.index] at slot
    rw [written.history]
    by_cases new : outpoint ∈ (ProcessedData.outpointEvents
        (entriesIn env process height block)).map Prod.fst
    · obtain ⟨⟨own, value⟩, listed, same⟩ :=
        List.mem_map.mp (Table.mem_of_get_extendList new slot)
      cases same
      exact ⟨value, Table.get_extendList_listed keys listed _, rfl⟩
    · rw [Table.get_extendList_of_notMem new] at slot
      obtain ⟨value, found, place⟩ := indexed.stored outpoint key slot
      refine ⟨value, ?_, place⟩
      rw [Table.get_extendList_of_notMem (older key (Table.mem_keys_iff.mpr ⟨value, found⟩)), found]
  · rw [written.undone, written.index, Table.undo_extendList free]

end Block

theorem reachable_indexed {env : Env} {process : Process}
    (reached : Reachable env (EventsApart env) process) :
    Sound (fun db _ => Indexed db ∧ GapFree db) process := by
  refine reachable_restored indexed_restores ⟨indexed_empty, gapFree_empty⟩ ?_ reached
  intro process height new handleReorgs handled sound valid apart handling
  have result := handleBlock_handled handling
  obtain ⟨after, back⟩ := indexed_handled sound.holds.1 sound.holds.2 apart (index_handled result)
  refine ⟨⟨after, gapFree_handled result sound.holds.2⟩, ?_⟩
  have ledger := undo_handled result sound.placed valid.1 fun txid own => valid.2.txids_disjoint own
  exact ⟨ledger.symm, back⟩

/-- In every run whose entries are apart, the list of a transaction has each of its events once,
in the order of their ids. -/
theorem events_found {env : Env} {process : Process}
    (reached : Reachable env (EventsApart env) process)
    {iteratorCf : List (Bytes × Bytes) → IteratorMode → List (Bytes × Bytes)}
    (walks : WalksInOrder iteratorCf) {value : Pebble HistoryValue}
    {index history : List (Bytes × Bytes)}
    (stored : EventsStored value index history process.db.outpointToEvent
      process.db.addressTokenToHistory) (txid : Txid) :
    ∃ events, txidEvents iteratorCf value index history txid = .ok events ∧
      (∀ key found, (key, found) ∈ events ↔
        process.db.addressTokenToHistory.get key = some found ∧
          found.action.outpoint.txid = txid ∧ found.action.outpoint.vout < 0xFFFFFFFF) ∧
      events.Pairwise (fun earlier later => earlier.1.id < later.1.id) := by
  obtain ⟨indexed, numbered⟩ := (reachable_indexed reached).holds
  refine ⟨_, txidEvents_eq walks stored txid, ?_, txidEvents_ascending stored ?_ ?_ txid⟩
  · intro key found
    rw [mem_txidEvents stored]
    constructor
    · rintro ⟨present, outpoint, slot, own⟩
      obtain ⟨value, again, rfl⟩ := indexed.stored outpoint key slot
      rw [present] at again
      cases again
      exact ⟨present, own⟩
    · rintro ⟨present, own⟩
      exact ⟨present, _, indexed.reached key found present, own⟩
  · intro first second key slot other
    obtain ⟨value, present, rfl⟩ := indexed.stored first key slot
    obtain ⟨again, presentToo, rfl⟩ := indexed.stored second key other
    rw [present] at presentToo
    cases presentToo
    rfl
  · exact fun key listed other also same => numbered.history.injOn listed also same

namespace Sample

def mintApart : List Event := [
  .block 1 payWojak true,
  .block 2 (block 102 [coinbase 2 [pay sender 50], {
    hash := 3
    inputs := [spend 1 0 [deploy "wojak" "9"]]
    outputs := [pay sender 50] }]) true,
  .block 3 (block 103 [coinbase 4 [pay sender 50], {
    hash := 5
    inputs := [spend 3 0 [mint "wojak" "5"]]
    outputs := [pay sender 50] }]) true]

def apartKey (id : Nat) : AddressTokenIdDB where
  address := 0x4ae81572f06e1b88fd5ced7a1a000945432e83e1551e6f721ee9c00b8cc33260
  token := wojak
  id

def apartIndex : List (OutPoint × AddressTokenIdDB) := [(⟨3, 0⟩, apartKey 1), (⟨5, 0⟩, apartKey 2)]

def apartHistory : List (AddressTokenIdDB × HistoryValue) := [
  (apartKey 1, ⟨2, .deploy (9 * 10 ^ 18) (9 * 10 ^ 18) 18 3 0⟩),
  (apartKey 2, ⟨3, .mint (5 * 10 ^ 18) 5 0⟩)]

def positions (values : List HistoryValue) : Pebble HistoryValue where
  getBytes value := [UInt8.ofNat (values.idxOf value)]
  fromBytes bytes :=
    ((bytes.head?.bind fun place => values[place.toNat]?).map .ok).getD (.error .invalid)

def apartValue : Pebble HistoryValue := positions (apartHistory.map Prod.snd)

def encoded {K V : Type} (key : Pebble K) (value : Pebble V) (entries : List (K × V)) :
    List (Bytes × Bytes) :=
  entries.map fun entry => (key.getBytes entry.1, value.getBytes entry.2)

end Sample

theorem apart_stored :
    EventsStored Sample.apartValue
      (Sample.encoded Pebble.outPoint Pebble.addressTokenIdDB Sample.apartIndex)
      (Sample.encoded Pebble.addressTokenIdDB Sample.apartValue Sample.apartHistory)
      ((∅ : Table OutPoint AddressTokenIdDB).extendList Sample.apartIndex)
      ((∅ : Table AddressTokenIdDB HistoryValue).extendList Sample.apartHistory) where
  indexStored := by
    have sorted : Sample.apartIndex.Pairwise fun earlier later =>
        Pebble.outPoint.getBytes earlier.1 < Pebble.outPoint.getBytes later.1 := by
      decide +kernel
    exact Stored.listed sorted
  historyStored := by
    have sorted : Sample.apartHistory.Pairwise fun earlier later =>
        Pebble.addressTokenIdDB.getBytes earlier.1 < Pebble.addressTokenIdDB.getBytes later.1 := by
      decide +kernel
    exact Stored.listed sorted
  vouts := by decide +kernel
  slotIds outpoint key found := by
    have each : ∀ entry ∈ Sample.apartIndex, entry.2.id < 2 ^ 64 := by decide
    have distinct : (Sample.apartIndex.map Prod.fst).Nodup := by decide
    exact each (outpoint, key) ((Table.get_extendList_iff distinct outpoint key).mp found)
  ids := by decide +kernel
  values key found present := by
    have each : ∀ entry ∈ Sample.apartHistory,
        Sample.apartValue.fromBytes (Sample.apartValue.getBytes entry.2) = .ok entry.2 := by
      decide +kernel
    have distinct : (Sample.apartHistory.map Prod.fst).Nodup := by decide +kernel
    exact each (key, found) ((Table.get_extendList_iff distinct key found).mp present)

theorem mint_found :
    ∃ process, Reachable Sample.env (EventsApart Sample.env) process ∧
      process.db.addressTokenToHistory =
        (∅ : Table AddressTokenIdDB HistoryValue).extendList Sample.apartHistory ∧
      ∃ events, txidEvents RocksTable.placed Sample.apartValue
          (Sample.encoded Pebble.outPoint Pebble.addressTokenIdDB Sample.apartIndex)
          (Sample.encoded Pebble.addressTokenIdDB Sample.apartValue Sample.apartHistory) 5 =
            .ok events ∧
        (∀ key found, (key, found) ∈ events ↔
          process.db.addressTokenToHistory.get key = some found ∧
            found.action.outpoint.txid = 5 ∧ found.action.outpoint.vout < 0xFFFFFFFF) ∧
        events.Pairwise (fun earlier later => earlier.1.id < later.1.id) := by
  obtain ⟨process, reached, index, history⟩ : ∃ process,
      Reachable Sample.env (EventsApart Sample.env) process ∧
      process.db.outpointToEvent =
        (∅ : Table OutPoint AddressTokenIdDB).extendList Sample.apartIndex ∧
      process.db.addressTokenToHistory =
        (∅ : Table AddressTokenIdDB HistoryValue).extendList Sample.apartHistory :=
    replay_any Sample.mintApart (by decide +kernel)
  refine ⟨process, reached, history, events_found reached RocksTable.placed_walks ?_ 5⟩
  rw [index, history]
  exact apart_stored

/-- The entry of the sender of a transfer has no slot. -/
theorem send_unlisted :
    ∃ process key found, Reachable Sample.env (fun _ _ => True) process ∧
      process.db.addressTokenToHistory.get key = some found ∧
      found.action.outpoint = ⟨5, 0⟩ ∧
      ∀ iteratorCf value index history, WalksInOrder iteratorCf →
        EventsStored value index history process.db.outpointToEvent
          process.db.addressTokenToHistory →
        ∃ events, txidEvents iteratorCf value index history 5 = .ok events ∧
          (key, found) ∉ events := by
  obtain ⟨process, reached, key, listed, own, unslotted⟩ : ∃ process,
      Reachable Sample.env (fun _ _ => True) process ∧
      ∃ key ∈ process.db.addressTokenToHistory.keys,
        ((process.db.addressTokenToHistory.get key).any
          fun found => found.action.outpoint = ⟨5, 0⟩) = true ∧
        ∀ outpoint ∈ process.db.outpointToEvent.keys,
          process.db.outpointToEvent.get outpoint ≠ some key :=
    replay_any (Sample.lockWojak ++ [.block 3 Sample.moveWojak true]) (by decide +kernel)
  obtain ⟨found, present, place⟩ := (Option.any_eq_true _ _).mp own
  refine ⟨process, key, found, reached, present, of_decide_eq_true place, ?_⟩
  intro iteratorCf value index history walks stored
  refine ⟨_, txidEvents_eq walks stored 5, ?_⟩
  rw [mem_txidEvents stored]
  rintro ⟨_, outpoint, slot, _⟩
  exact unslotted outpoint (Table.mem_keys_iff.mpr ⟨key, slot⟩) slot

end WjkIndexer
