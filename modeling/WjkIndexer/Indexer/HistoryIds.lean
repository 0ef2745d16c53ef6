import WjkIndexer.Indexer.Replay
import WjkIndexer.Indexer.Ledger

/-!
The ids of the history: in every run they are the numbers from one to the last id, and the
entries of a block take the next ones.
-/

namespace WjkIndexer

open FiniteTable TokenCache

def HistoryTokenAction.slots : HistoryTokenAction → Nat
  | .send _ _ recipient sender _ _ => if sender = recipient then 1 else 2
  | _ => 1

def slotsOf (events : List HistoryTokenAction) : Nat := (events.map HistoryTokenAction.slots).sum

def historyOf (env : Env) (server : Server) (height : Nat) (block : Block) :
    List HistoryTokenAction :=
  if height < env.startHeight ∨ block.txs.length = 1 then []
  else
    match Parser.parseBlock env server.db height block (spentPrevouts env server.db block)
        (loadedCache env server.db block) with
    | .error _ => []
    | .ok parsed =>
        match processTokenActions env (parsed.cache.loadTokensData env server.db)
            server.holders with
        | .error _ => []
        | .ok done => done.history

theorem historyEntries_ids (height last : Nat) (events : List HistoryTokenAction) :
    ((historyEntries height last events).map fun entry => entry.1.id).Perm
      (List.range' (last + 1) (slotsOf events)) := by
  induction events generalizing last with
  | nil => exact .nil
  | cons event rest ih =>
      have single : ∀ value : HistoryValue,
          (((⟨event.recipient, event.tick, last + 1⟩, value) ::
            historyEntries height (last + 1) rest).map fun entry => entry.1.id).Perm
          (List.range' (last + 1) (1 + slotsOf rest)) := by
        intro value
        rw [Nat.add_comm 1, List.range'_succ]
        exact (ih (last + 1)).cons _
      cases event with
      | deploy | mint | deployTransfer => exact single _
      | send tick amt recipient sender txid vout =>
          by_cases same : sender = recipient
          · have slots : slotsOf (.send tick amt recipient sender txid vout :: rest) =
                1 + slotsOf rest := by
              simp [slotsOf, HistoryTokenAction.slots, same]
            rw [slots]
            simpa [historyEntries, TokenHistoryDB.fromTokenHistory, same] using
              single ⟨height, .sendReceive amt txid vout⟩
          · have slots : slotsOf (.send tick amt recipient sender txid vout :: rest) =
                slotsOf rest + 1 + 1 := by
              simp only [slotsOf, List.map_cons, HistoryTokenAction.slots, same, if_false,
                List.sum_cons]
              omega
            rw [slots, List.range'_succ, List.range'_succ]
            simp only [historyEntries, TokenHistoryDB.fromTokenHistory, same, if_false,
              List.map_cons]
            exact (List.Perm.swap _ _ _).trans (((ih (last + 2)).cons _).cons _)

theorem length_historyEntries (height last : Nat) (events : List HistoryTokenAction) :
    (historyEntries height last events).length = slotsOf events := by
  have same := (historyEntries_ids height last events).length_eq
  rwa [List.length_map, List.length_range'] at same

theorem historyEntries_height {height last : Nat} {actions : List HistoryTokenAction}
    {entry : AddressTokenIdDB × HistoryValue} (listed : entry ∈ historyEntries height last actions) :
    entry.2.height = height := by
  induction actions generalizing last with
  | nil => cases listed
  | cons action rest ih =>
      rw [historyEntries] at listed
      dsimp only at listed
      split at listed
      · rcases List.mem_cons.mp listed with rfl | listed
        · rfl
        · rcases List.mem_cons.mp listed with rfl | later
          · rfl
          · exact ih later
      · rcases List.mem_cons.mp listed with rfl | later
        · rfl
        · exact ih later

theorem numbered_append {K : Type} [DecidableEq K] {idOf : K → Nat} {keys : Finset K}
    {last count : Nat} {new : List K} (numbered : Set.BijOn idOf keys (Set.Icc 1 last))
    (next : (new.map idOf).Perm (List.range' (last + 1) count)) :
    Set.BijOn idOf ↑(keys ∪ new.toFinset) (Set.Icc 1 (last + count)) := by
  have member : ∀ id, id ∈ new.map idOf ↔ last + 1 ≤ id ∧ id < last + 1 + count := by
    intro id
    rw [next.mem_iff, List.mem_range'_1]
  have unique : (new.map idOf).Nodup := next.nodup_iff.mpr List.nodup_range'
  have newer : Set.BijOn idOf (new.toFinset : Set K) (Set.Icc (last + 1) (last + count)) := by
    refine ⟨?_, ?_, ?_⟩
    · intro key listed
      have bounds := (member (idOf key)).mp (List.mem_map_of_mem (List.mem_toFinset.mp listed))
      exact ⟨bounds.1, by omega⟩
    · intro key listed other also same
      exact List.inj_on_of_nodup_map unique (List.mem_toFinset.mp listed)
        (List.mem_toFinset.mp also) same
    · rintro id ⟨lower, upper⟩
      obtain ⟨key, listed, same⟩ := List.mem_map.mp ((member id).mpr ⟨lower, by omega⟩)
      exact ⟨key, List.mem_toFinset.mpr listed, same⟩
  have range : Set.Icc 1 last ∪ Set.Icc (last + 1) (last + count) =
      Set.Icc 1 (last + count) := by
    ext id
    simp only [Set.mem_union, Set.mem_Icc]
    omega
  rw [Finset.coe_union, ← range]
  refine numbered.union newer ?_
  rintro key (old | new) other (oldToo | newToo) same
  · exact numbered.injOn old oldToo same
  · have low := numbered.mapsTo old
    have high := newer.mapsTo newToo
    rw [Set.mem_Icc] at low high
    omega
  · have high := newer.mapsTo new
    have low := numbered.mapsTo oldToo
    rw [Set.mem_Icc] at low high
    omega
  · exact newer.injOn new newToo same

/-- The ids of the history are the numbers from one to the last id, in both tables, and a
number leads to its entry. -/
structure GapFree (db : DB) : Prop where
  history : Set.BijOn AddressTokenIdDB.id db.addressTokenToHistory.keys
    (Set.Icc 1 (db.lastHistoryId.getD 0))
  tokenIds : Set.BijOn TokenId.id db.tokenIdToEvent.keys (Set.Icc 1 (db.lastHistoryId.getD 0))
  indexed : ∀ place event, db.tokenIdToEvent.get place = some event →
    event ∈ db.addressTokenToHistory.keys ∧ place = ⟨event.token, event.id⟩

/-- The entries of `events` are numbered next, and nothing that was there is overwritten. -/
structure ContinuesIds (events : List HistoryTokenAction) (height : Nat) (before after : DB) :
    Prop where
  last : after.lastHistoryId.getD 0 = before.lastHistoryId.getD 0 + slotsOf events
  kept : ∀ key value, before.addressTokenToHistory.get key = some value →
    after.addressTokenToHistory.get key = some value
  keptIds : ∀ place event, before.tokenIdToEvent.get place = some event →
    after.tokenIdToEvent.get place = some event
  keptBlocks : ∀ other, other ≠ height → after.blockEvents.get other = before.blockEvents.get other
  ids : ((after.blockEvents.get height).getD []).map AddressTokenIdDB.id =
    List.range' (before.lastHistoryId.getD 0 + 1) (slotsOf events)
  listed : ∀ key, key ∈ (after.blockEvents.get height).getD [] ↔
    key ∈ after.addressTokenToHistory.keys ∧ key ∉ before.addressTokenToHistory.keys

variable {env : Env} {server : Server} {height : Nat} {block : Block} {handled : Handled}

inductive HistoryHandled (env : Env) (server : Server) (height : Nat) (block : Block)
    (after : DB) : Prop where
  | kept (events : historyOf env server height block = [])
      (history : after.addressTokenToHistory = server.db.addressTokenToHistory)
      (tokenIds : after.tokenIdToEvent = server.db.tokenIdToEvent)
      (blocks : after.blockEvents = server.db.blockEvents)
      (last : after.lastHistoryId = server.db.lastHistoryId)
  | written {entries : List (AddressTokenIdDB × HistoryValue)}
      (events : entries = historyEntries height (server.db.lastHistoryId.getD 0)
        (historyOf env server height block))
      (history : after.addressTokenToHistory =
        server.db.addressTokenToHistory.extendList entries)
      (tokenIds : after.tokenIdToEvent =
        server.db.tokenIdToEvent.extendList (ProcessedData.tokenIdEvents entries))
      (blocks : after.blockEvents =
        server.db.blockEvents.set height (ProcessedData.sortedById (entries.map Prod.fst)))
      (last : after.lastHistoryId =
        some (server.db.lastHistoryId.getD 0 + entries.length))

theorem history_handled (result : HandledBlock env server height block handled) :
    HistoryHandled env server height block (applyAll handled.processed server.db) := by
  cases result with
  | early before =>
      refine .kept ?_ rfl rfl rfl rfl
      rw [historyOf, if_pos (Or.inl before)]
  | empty begun alone =>
      refine .kept ?_ rfl rfl rfl rfl
      rw [historyOf, if_pos (Or.inr alone)]
  | @full begun several parsed done parsing processing =>
      have events : historyOf env server height block = done.history := by
        rw [historyOf, if_neg (by omega), parsing]
        dsimp only
        rw [processing]
      refine .written (by rw [events]) rfl rfl rfl rfl

theorem sortedById_ids {keys : List AddressTokenIdDB} {first count : Nat}
    (next : (keys.map AddressTokenIdDB.id).Perm (List.range' first count)) :
    (ProcessedData.sortedById keys).map AddressTokenIdDB.id = List.range' first count := by
  have perm := (List.perm_insertionSort
    (fun first second : AddressTokenIdDB => first.id ≤ second.id) keys).map AddressTokenIdDB.id
  refine List.Perm.eq_of_pairwise' ?_ (List.pairwise_le_range') (perm.trans next)
  rw [List.pairwise_map]
  exact List.pairwise_insertionSort _ _

theorem mem_sortedById {keys : List AddressTokenIdDB} {key : AddressTokenIdDB} :
    key ∈ ProcessedData.sortedById keys ↔ key ∈ keys :=
  (List.perm_insertionSort _ keys).mem_iff

theorem gapFree_ofLedger : OfLedger fun db _ => GapFree db := by
  intro left right chain same numbered
  refine ⟨?_, ?_, ?_⟩
  · rw [← same.addressTokenToHistory, ← same.lastHistoryId]
    exact numbered.history
  · rw [← same.tokenIdToEvent, ← same.lastHistoryId]
    exact numbered.tokenIds
  · rw [← same.addressTokenToHistory, ← same.tokenIdToEvent]
    exact numbered.indexed

theorem gapFree_empty : GapFree {} := by
  refine ⟨?_, ?_, ?_⟩
  · simp
  · simp
  · intro place event found
    cases found

theorem entries_next {last : Nat} {events : List HistoryTokenAction}
    {entries : List (AddressTokenIdDB × HistoryValue)}
    (listed : entries = historyEntries height last events) :
    ((entries.map Prod.fst).map AddressTokenIdDB.id).Perm
      (List.range' (last + 1) (slotsOf events)) := by
  rw [listed, List.map_map]
  exact historyEntries_ids height last events

theorem entries_newer {last : Nat} {events : List HistoryTokenAction}
    {entries : List (AddressTokenIdDB × HistoryValue)}
    (listed : entries = historyEntries height last events) :
    ∀ key ∈ entries.map Prod.fst, last < key.id := by
  intro key member
  have range := ((entries_next listed).mem_iff).mp (List.mem_map_of_mem member)
  rw [List.mem_range'_1] at range
  omega

theorem entries_fresh {db : DB} {events : List HistoryTokenAction}
    {entries : List (AddressTokenIdDB × HistoryValue)} (numbered : GapFree db)
    (listed : entries = historyEntries height (db.lastHistoryId.getD 0) events) :
    ∀ key ∈ db.addressTokenToHistory.keys, key ∉ entries.map Prod.fst := by
  intro key stored member
  have low := numbered.history.mapsTo stored
  have high := entries_newer listed key member
  rw [Set.mem_Icc] at low
  omega

theorem gapFree_handled (result : HandledBlock env server height block handled)
    (numbered : GapFree server.db) : GapFree (applyAll handled.processed server.db) := by
  cases history_handled result with
  | kept events history tokenIds blocks last =>
      refine ⟨?_, ?_, ?_⟩
      · rw [history, last]
        exact numbered.history
      · rw [tokenIds, last]
        exact numbered.tokenIds
      · rw [history, tokenIds]
        exact numbered.indexed
  | @written entries events history tokenIds blocks last =>
      have next := entries_next events
      have length : entries.length = slotsOf (historyOf env server height block) := by
        rw [events, length_historyEntries]
      refine ⟨?_, ?_, ?_⟩
      · rw [history, last, Option.getD_some, length, Table.keys_extendList]
        exact numbered_append numbered.history next
      · rw [tokenIds, last, Option.getD_some, length, Table.keys_extendList]
        refine numbered_append numbered.tokenIds ?_
        simpa only [ProcessedData.tokenIdEvents, List.map_map, Function.comp_def] using next
      · intro place event found
        rw [tokenIds] at found
        rw [history, Table.keys_extendList, Finset.mem_union]
        by_cases new : place ∈ (ProcessedData.tokenIdEvents entries).map Prod.fst
        · have written := Table.mem_of_get_extendList new found
          obtain ⟨entry, listed, same⟩ := List.mem_map.mp written
          cases same
          exact ⟨Or.inr (List.mem_toFinset.mpr (List.mem_map_of_mem listed)), rfl⟩
        · rw [Table.get_extendList_of_notMem new] at found
          obtain ⟨stored, same⟩ := numbered.indexed place event found
          exact ⟨Or.inl stored, same⟩

theorem continues_handled (result : HandledBlock env server height block handled)
    (numbered : GapFree server.db) (vacant : server.db.blockEvents.get height = none) :
    ContinuesIds (historyOf env server height block) height server.db
      (applyAll handled.processed server.db) := by
  cases history_handled result with
  | kept events history tokenIds blocks last =>
      refine {
        last := by rw [last, events]; rfl
        kept := fun _ _ found => history ▸ found
        keptIds := fun _ _ found => tokenIds ▸ found
        keptBlocks := fun _ _ => by rw [blocks]
        ids := ?_
        listed := ?_ }
      · rw [blocks, vacant, events]
        rfl
      · intro key
        rw [blocks, vacant, history]
        simp
  | @written entries events history tokenIds blocks last =>
      have next := entries_next events
      have newer := entries_newer events
      have older := entries_fresh numbered events
      refine {
        last := ?_
        kept := ?_
        keptIds := ?_
        keptBlocks := ?_
        ids := ?_
        listed := ?_ }
      · rw [last, Option.getD_some, events, length_historyEntries]
      · intro key value found
        rw [history, Table.get_extendList_of_notMem (older key (Table.mem_keys_iff.mpr ⟨_, found⟩))]
        exact found
      · intro place event found
        rw [tokenIds, Table.get_extendList_of_notMem]
        · exact found
        · intro listed
          simp only [ProcessedData.tokenIdEvents, List.map_map, List.mem_map] at listed
          obtain ⟨entry, member, rfl⟩ := listed
          have high := newer entry.1 (List.mem_map_of_mem member)
          have low := numbered.tokenIds.mapsTo (Table.mem_keys_iff.mpr ⟨_, found⟩)
          simp only [Function.comp_apply, Set.mem_Icc] at low
          omega
      · intro other different
        rw [blocks, Table.get_set_ne _ _ different]
      · rw [blocks, Table.get_set_self, Option.getD_some]
        exact sortedById_ids next
      · intro key
        rw [blocks, Table.get_set_self, Option.getD_some, mem_sortedById, history,
          Table.keys_extendList, Finset.mem_union, List.mem_toFinset]
        constructor
        · intro listed
          exact ⟨Or.inr listed, fun stored => older key stored listed⟩
        · rintro ⟨stored | listed, new⟩
          · exact absurd stored new
          · exact listed

theorem reachable_gapFree {allowed : Process → Event → Prop} {process : Process}
    (reached : Reachable env allowed process) : Sound (fun db _ => GapFree db) process := by
  refine reachable_sound gapFree_ofLedger gapFree_empty ?_ reached
  intro process height new handleReorgs handled sound _ _ handling
  exact gapFree_handled (handleBlock_handled handling) sound.holds

/-- In every run the ids of the history are gap-free, and a block continues them. -/
theorem history_ids {allowed : Process → Event → Prop} {process : Process}
    (reached : Reachable env allowed process) :
    GapFree process.db ∧
    ∀ height block handleReorgs next, (Event.block height block handleReorgs).Valid env process →
      process.step env (.block height block handleReorgs) = .ok next →
      ContinuesIds (historyOf env process.server height block) height process.db next.db := by
  have sound := reachable_gapFree reached
  refine ⟨sound.holds, ?_⟩
  intro height block handleReorgs next valid stepped
  obtain ⟨handled, handling, server, _⟩ := step_block stepped (sound.below valid.1)
  have vacant : process.db.blockEvents.get height = none := by
    rw [Table.get_eq_none_iff]
    intro member
    exact absurd (valid.1.lt (sound.placed.events height member)) (Nat.lt_irrefl _)
  have after : next.db = applyAll handled.processed process.server.db := by
    rw [Process.db, server, Process.db]
  rw [after]
  exact continues_handled (handleBlock_handled handling) sound.holds vacant

theorem wojak_ids :
    ∃ process, Reachable Sample.env (fun _ _ => True) process ∧
      process.db.lastHistoryId = some 3 ∧
      Set.BijOn AddressTokenIdDB.id process.db.addressTokenToHistory.keys (Set.Icc 1 3) := by
  obtain ⟨process, reached, last⟩ : ∃ process, Reachable Sample.env (fun _ _ => True) process ∧
      process.db.lastHistoryId = some 3 :=
    replay_any (Sample.lockWojak ++ [.restore 1, .block 2 Sample.inscribeWojak true])
      (by decide +kernel)
  have numbered := (history_ids reached).1.history
  rw [last, Option.getD_some] at numbered
  exact ⟨process, reached, last, numbered⟩

end WjkIndexer
