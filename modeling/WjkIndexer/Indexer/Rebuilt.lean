import WjkIndexer.Indexer.HistoryIds
import WjkIndexer.Indexer.Tokens

/-!
The stored history as the source of the ledger: its entries, read in the order of their ids, give
every account and the counters of every token.
-/

namespace WjkIndexer

open FiniteTable TokenCache

namespace LogLedger

def empty : LogLedger where
  metas := ∅
  accounts := ∅

def countToken (env : Env) (ledger : LogLedger) (tick : OriginalTokenTick)
    (change : Counters → Counters) : LogLedger :=
  { ledger with
    metas := ledger.metas.modify (env.lower tick) fun token => { change token with
      transactions := countUp 32 token.transactions } }

/-- What an entry of the history says about the ledger. A send between two addresses is counted
at the entry of its sender. -/
def recordEntry (env : Env) (ledger : LogLedger) (entry : AddressTokenIdDB × HistoryValue) :
    LogLedger :=
  let tick := entry.1.token
  let account : AddressToken := ⟨entry.1.address, tick⟩
  match entry.2.action with
  | .deploy .. =>
      { ledger with
        metas := ledger.metas.set (env.lower tick)
          { supply := 0, mintCount := 0, transferCount := 0, transactions := 1 } }
  | .mint amt .. =>
      (ledger.countToken env tick fun token => { token with
        supply := token.supply + amt
        mintCount := countUp 64 token.mintCount }).changeAccount account (TokenBalance.credit · amt)
  | .deployTransfer amt .. =>
      (ledger.countToken env tick fun token => { token with
        transferCount := countUp 64 token.transferCount }).changeAccount account
          (TokenBalance.lock · amt)
  | .send amt .. => (ledger.countToken env tick id).changeAccount account (TokenBalance.release · amt)
  | .receive amt .. =>
      if env.isOpReturnHash entry.1.address then ledger
      else ledger.changeAccount account (TokenBalance.credit · amt)
  | .sendReceive amt .. =>
      let released :=
        (ledger.countToken env tick id).changeAccount account (TokenBalance.release · amt)
      if env.isOpReturnHash entry.1.address then released
      else released.changeAccount account (TokenBalance.credit · amt)

def rebuild (env : Env) (entries : List (AddressTokenIdDB × HistoryValue)) : LogLedger :=
  entries.foldl (recordEntry env) empty

theorem changeAccount_comm (ledger : LogLedger) {first second : AddressToken}
    (different : first ≠ second) (change other : TokenBalance → TokenBalance) :
    (ledger.changeAccount first change).changeAccount second other =
      (ledger.changeAccount second other).changeAccount first change := by
  simp only [changeAccount, Table.get_set_ne _ _ different, Table.get_set_ne _ _ different.symm]
  congr 1
  apply Table.ext
  intro key
  simp only [Table.get_set]
  by_cases one : key = first
  · subst one
    simp [different]
  · simp [one]

end LogLedger

/-- The entries of the events of a block in the order of their ids: the receiver's entry of a send
comes before its sender's. -/
def orderedEntries (height : Nat) :
    Nat → List HistoryTokenAction → List (AddressTokenIdDB × HistoryValue)
  | _, [] => []
  | last, action :: rest =>
      let key : AddressTokenIdDB := ⟨action.recipient, action.tick, last + 1⟩
      match TokenHistoryDB.fromTokenHistory action with
      | .send amt recipient txid vout =>
          let sender := action.sender.getD 0
          (key, ⟨height, .receive amt sender txid vout⟩) ::
            (⟨sender, action.tick, last + 2⟩, ⟨height, .send amt recipient txid vout⟩) ::
            orderedEntries height (last + 2) rest
      | dbAction => (key, ⟨height, dbAction⟩) :: orderedEntries height (last + 1) rest

theorem orderedEntries_perm (height last : Nat) (events : List HistoryTokenAction) :
    (orderedEntries height last events).Perm (historyEntries height last events) := by
  induction events generalizing last with
  | nil => exact .nil
  | cons event rest ih =>
      cases event with
      | deploy | mint | deployTransfer => exact (ih (last + 1)).cons _
      | send tick amt recipient sender txid vout =>
          by_cases same : sender = recipient
          · simp only [orderedEntries, historyEntries, TokenHistoryDB.fromTokenHistory, same, if_true]
            exact (ih (last + 1)).cons _
          · simp only [orderedEntries, historyEntries, TokenHistoryDB.fromTokenHistory, same,
              if_false]
            exact (((ih (last + 2)).cons _).cons _).trans (List.Perm.swap _ _ _)

theorem orderedEntries_ids (height last : Nat) (events : List HistoryTokenAction) :
    (orderedEntries height last events).map (fun entry => entry.1.id) =
      List.range' (last + 1) (slotsOf events) := by
  induction events generalizing last with
  | nil => rfl
  | cons event rest ih =>
      have single : List.range' (last + 1) (1 + slotsOf rest) =
          (last + 1) :: List.range' (last + 1 + 1) (slotsOf rest) := by
        rw [Nat.add_comm 1, List.range'_succ]
      cases event with
      | deploy | mint | deployTransfer =>
          have tail := ih (last + 1)
          simp only [orderedEntries, TokenHistoryDB.fromTokenHistory, List.map_cons, tail]
          exact single.symm
      | send tick amt recipient sender txid vout =>
          by_cases same : sender = recipient
          · subst same
            have slots : slotsOf (.send tick amt sender sender txid vout :: rest) =
                1 + slotsOf rest := by
              simp [slotsOf, HistoryTokenAction.slots]
            have tail := ih (last + 1)
            simp only [orderedEntries, TokenHistoryDB.fromTokenHistory, if_true, List.map_cons,
              tail]
            rw [slots, single]
          · have slots : slotsOf (.send tick amt recipient sender txid vout :: rest) =
                slotsOf rest + 1 + 1 := by
              simp only [slotsOf, List.map_cons, HistoryTokenAction.slots, same, if_false,
                List.sum_cons]
              omega
            have tail := ih (last + 2)
            simp only [orderedEntries, TokenHistoryDB.fromTokenHistory, same, if_false,
              List.map_cons, tail]
            rw [slots, List.range'_succ, List.range'_succ]

theorem orderedEntries_recorded (env : Env) (height last : Nat)
    (events : List HistoryTokenAction) (ledger : LogLedger) :
    (orderedEntries height last events).foldl (LogLedger.recordEntry env) ledger =
      ledger.replay env events := by
  induction events generalizing last ledger with
  | nil => rfl
  | cons event rest ih =>
      cases event with
      | deploy | mint | deployTransfer => exact ih (last + 1) _
      | send tick amt recipient sender txid vout =>
          by_cases same : sender = recipient
          · subst same
            simp only [orderedEntries, TokenHistoryDB.fromTokenHistory, if_true, List.foldl_cons]
            exact ih (last + 1) _
          · simp only [orderedEntries, TokenHistoryDB.fromTokenHistory, same, if_false,
              List.foldl_cons, ih (last + 2)]
            rw [LogLedger.replay, LogLedger.replay, List.foldl_cons]
            congr 1
            have apart : (⟨recipient, tick⟩ : AddressToken) ≠ ⟨sender, tick⟩ := by
              intro equal
              exact same (congrArg AddressToken.address equal).symm
            by_cases burned : env.isOpReturnHash recipient = true
            · simp only [LogLedger.recordEntry, LogLedger.record, HistoryTokenAction.recipient,
                HistoryTokenAction.tick, HistoryTokenAction.sender, burned, if_true]
              rfl
            · have kept : env.isOpReturnHash recipient = false := Bool.eq_false_iff.mpr burned
              simp only [LogLedger.recordEntry, LogLedger.record, HistoryTokenAction.recipient,
                HistoryTokenAction.tick, HistoryTokenAction.sender, kept, Bool.false_eq_true,
                if_false]
              exact LogLedger.changeAccount_comm (ledger.countToken env tick id) apart
                (TokenBalance.credit · amt) (TokenBalance.release · amt)

def DB.ledger (db : DB) : LogLedger where
  metas := db.tokenToMeta.mapValues TokenMeta.counters
  accounts := db.addressTokenToBalance

structure Lists (table : Table AddressTokenIdDB HistoryValue)
    (listing : List (AddressTokenIdDB × HistoryValue)) : Prop where
  entries : ∀ key value, (key, value) ∈ listing ↔ table.get key = some value
  ascending : listing.Pairwise fun earlier later => earlier.1.id < later.1.id

theorem Lists.unique {table : Table AddressTokenIdDB HistoryValue}
    {first second : List (AddressTokenIdDB × HistoryValue)} (lists : Lists table first)
    (other : Lists table second) : first = second := by
  have distinct : ∀ {listing}, Lists table listing → listing.Nodup := by
    intro listing lists
    refine lists.ascending.imp ?_
    rintro earlier later lower rfl
    exact absurd lower (Nat.lt_irrefl _)
  have same : first.Perm second := by
    refine (List.perm_ext_iff_of_nodup (distinct lists) (distinct other)).mpr ?_
    rintro ⟨key, value⟩
    rw [lists.entries, other.entries]
  refine same.eq_of_pairwise ?_ lists.ascending other.ascending
  intro earlier later _ _ lower higher
  exact absurd (Nat.lt_trans lower higher) (Nat.lt_irrefl _)

theorem Lists.append {table : Table AddressTokenIdDB HistoryValue}
    {listing entries next : List (AddressTokenIdDB × HistoryValue)} {last count : Nat}
    (lists : Lists table listing) (perm : next.Perm entries)
    (ids : next.map (fun entry => entry.1.id) = List.range' (last + 1) count)
    (bounded : ∀ entry ∈ listing, entry.1.id ≤ last) :
    Lists (table.extendList entries) (listing ++ next) := by
  have newer : ∀ entry ∈ next, last < entry.1.id := by
    intro entry listed
    have member : entry.1.id ∈ next.map fun entry => entry.1.id := List.mem_map_of_mem listed
    rw [ids, List.mem_range'_1] at member
    omega
  have sorted : next.Pairwise fun earlier later => earlier.1.id < later.1.id := by
    rw [← List.pairwise_map (f := fun entry : AddressTokenIdDB × HistoryValue => entry.1.id), ids]
    exact List.pairwise_lt_range'
  have distinct : (entries.map Prod.fst).Nodup := by
    rw [← (perm.map Prod.fst).nodup_iff, List.Nodup, List.pairwise_map]
    refine sorted.imp ?_
    intro earlier later lower same
    rw [same] at lower
    exact absurd lower (Nat.lt_irrefl _)
  refine ⟨?_, List.pairwise_append.mpr ⟨lists.ascending, sorted, ?_⟩⟩
  · intro key value
    rw [List.mem_append, perm.mem_iff]
    by_cases new : key ∈ entries.map Prod.fst
    · have absent : (key, value) ∉ listing := by
        intro old
        obtain ⟨entry, listed, rfl⟩ := List.mem_map.mp new
        have low := bounded _ old
        have high := newer entry (perm.mem_iff.mpr listed)
        exact absurd high (Nat.not_lt.mpr low)
      constructor
      · intro either
        exact Table.get_extendList_listed distinct (either.resolve_left absent) _
      · intro found
        exact Or.inr (Table.mem_of_get_extendList new found)
    · rw [Table.get_extendList_of_notMem new, ← lists.entries]
      constructor
      · intro either
        refine either.resolve_right fun listed => new ?_
        exact List.mem_map_of_mem listed
      · exact Or.inl
  · intro earlier old later new
    exact Nat.lt_of_le_of_lt (bounded earlier old) (newer later new)

structure Rebuilds (env : Env) (db : DB) : Prop where
  filed : WellFiled env db.tokenToMeta db.addressTokenToBalance
  listed : ∃ listing, Lists db.addressTokenToHistory listing ∧
    (∀ entry ∈ listing, entry.1.id ≤ db.lastHistoryId.getD 0) ∧
    LogLedger.rebuild env listing = db.ledger

theorem rebuilds_ofLedger {env : Env} : OfLedger fun db _ => Rebuilds env db := by
  intro left right chain same rebuilds
  obtain ⟨listing, lists, bounded, told⟩ := rebuilds.listed
  refine ⟨?_, listing, ?_, ?_, ?_⟩
  · rw [← same.tokenToMeta, ← same.addressTokenToBalance]
    exact rebuilds.filed
  · rw [← same.addressTokenToHistory]
    exact lists
  · rw [← same.lastHistoryId]
    exact bounded
  · rw [told, DB.ledger, DB.ledger, same.tokenToMeta, same.addressTokenToBalance]

def CreditsKnown (env : Env) (server : Server) (height : Nat) (block : Block) : Prop :=
  ∀ parsed ∈ (Parser.parseBlock env server.db height block (spentPrevouts env server.db block)
    (loadedCache env server.db block)).toOption, CreditsLoaded id env server.db parsed.cache

instance (env : Env) (server : Server) (height : Nat) (block : Block) :
    Decidable (CreditsKnown env server height block) :=
  inferInstanceAs (Decidable (∀ parsed ∈ (Parser.parseBlock env server.db height block
    (spentPrevouts env server.db block) (loadedCache env server.db block)).toOption,
      CreditsLoaded id env server.db parsed.cache))

def CreditsSafe (env : Env) (process : Process) : Event → Prop
  | .block height block _ => CreditsKnown env process.server height block
  | _ => True

instance (env : Env) (process : Process) (event : Event) :
    Decidable (CreditsSafe env process event) :=
  match event with
  | .block height block _ => inferInstanceAs (Decidable (
      CreditsKnown env process.server height block))
  | .restore _ => inferInstanceAs (Decidable True)
  | .restart => inferInstanceAs (Decidable True)

section Block

variable {env : Env} {server : Server} {height : Nat} {block : Block} {chain : Chain}
  {handled : Handled}

theorem ledger_handled (result : HandledBlock env server height block handled)
    (filed : WellFiled env server.db.tokenToMeta server.db.addressTokenToBalance)
    (placed : Placed server.db chain) (fresh : ∀ txid ∈ block.txids, txid ∉ chain.txids)
    (credits : CreditsKnown env server height block) :
    server.db.ledger.replay env (historyOf env server height block) =
      (applyAll handled.processed server.db).ledger := by
  cases result with
  | early before =>
      rw [historyOf, if_pos (Or.inl before)]
      rfl
  | empty begun alone =>
      rw [historyOf, if_pos (Or.inr alone)]
      rfl
  | @full begun several parsed done parsing processing =>
      have events : historyOf env server height block = done.history := by
        rw [historyOf, if_neg (by omega), parsing]
        dsimp only
        rw [processing]
      have preloadable := preloadable_parsed parsing filed placed fresh
      have loaded := credits parsed (Machine.toOption_some.mpr parsing)
      rcases processTokenActions_agree preloadable loaded server.holders with
        ⟨fault, failed, _⟩ | ⟨part, whole, part_eq, whole_eq, tracks, _, _, history⟩
      · rw [processing] at failed
        cases failed
      · rw [processing] at part_eq
        cases part_eq
        have new := (parseBlock_spec parsing).feed.deploysNew rfl
        have keyed : Keyed env (parsed.cache.loadAll server.db).tokens := filed.keyed
        have recorded := (processTokenActions_recorded keyed new whole_eq).1
        rw [events, history]
        simp only [DB.ledger, applyAll, prevoutsData, tokensData, ProcessedData.apply,
          ProcessedData.writes, List.foldl_cons, List.foldl_nil, tracks.tokens.extend_part,
          tracks.accounts.extend_part]
        exact recorded

theorem rebuilds_handled (result : HandledBlock env server height block handled)
    (rebuilds : Rebuilds env server.db) (placed : Placed server.db chain)
    (fresh : ∀ txid ∈ block.txids, txid ∉ chain.txids)
    (credits : CreditsKnown env server height block) :
    Rebuilds env (applyAll handled.processed server.db) := by
  have ledger := ledger_handled result rebuilds.filed placed fresh credits
  refine ⟨filed_handled result rebuilds.filed placed fresh, ?_⟩
  obtain ⟨listing, lists, bounded, told⟩ := rebuilds.listed
  cases history_handled result with
  | kept events history tokenIds blocks last =>
      refine ⟨listing, ?_, ?_, ?_⟩
      · rw [history]
        exact lists
      · rw [last]
        exact bounded
      · rw [told, ← ledger, events]
        rfl
  | @written entries events history tokenIds blocks last =>
      have ids := orderedEntries_ids height (server.db.lastHistoryId.getD 0)
        (historyOf env server height block)
      have perm := orderedEntries_perm height (server.db.lastHistoryId.getD 0)
        (historyOf env server height block)
      rw [← events] at perm
      refine ⟨listing ++ orderedEntries height (server.db.lastHistoryId.getD 0)
        (historyOf env server height block), ?_, ?_, ?_⟩
      · rw [history]
        exact lists.append perm ids bounded
      · rw [last, Option.getD_some, perm.length_eq.symm]
        intro entry listed
        rcases List.mem_append.mp listed with old | new
        · have low := bounded entry old
          omega
        · have member := List.mem_map_of_mem (f := fun entry => entry.1.id) new
          rw [ids, List.mem_range'_1] at member
          have length := congrArg List.length ids
          rw [List.length_map, List.length_range'] at length
          omega
      · rw [LogLedger.rebuild, List.foldl_append, ← LogLedger.rebuild, told,
          orderedEntries_recorded, ledger]

end Block

theorem reachable_rebuilds {env : Env} {process : Process}
    (reached : Reachable env (CreditsSafe env) process) :
    Sound (fun db _ => Rebuilds env db) process := by
  have start : Rebuilds env {} := by
    refine ⟨@filed_empty env, [], ⟨fun key value => ?_, .nil⟩, ?_, ?_⟩
    · simp
    · intro entry impossible
      cases impossible
    · exact congrArg (LogLedger.mk · ∅) (Table.ext fun key => by simp [Table.get_mapValues])
  refine reachable_sound rebuilds_ofLedger start ?_ reached
  intro process height new handleReorgs handled sound valid credits handling
  exact rebuilds_handled (handleBlock_handled handling) sound.holds sound.placed
    (fun txid own => valid.2.txids_disjoint own) credits

/-- In every run that loads the accounts its moves credit, the stored history alone tells every
account and the counters of every token. -/
theorem history_rebuilds {env : Env} {process : Process}
    (reached : Reachable env (CreditsSafe env) process) :
    (∃ listing, Lists process.db.addressTokenToHistory listing) ∧
      ∀ listing, Lists process.db.addressTokenToHistory listing →
        LogLedger.rebuild env listing = process.db.ledger := by
  obtain ⟨listing, lists, _, told⟩ := (reachable_rebuilds reached).holds.listed
  refine ⟨⟨listing, lists⟩, ?_⟩
  intro other others
  rw [others.unique lists, told]

theorem move_rebuilt : ∃ process, Reachable Sample.env (CreditsSafe Sample.env) process ∧
    process.db.addressTokenToHistory.keys.card = 5 ∧
    (∃ listing, Lists process.db.addressTokenToHistory listing) ∧
    ∀ listing, Lists process.db.addressTokenToHistory listing →
      LogLedger.rebuild Sample.env listing = process.db.ledger := by
  obtain ⟨process, reached, stored⟩ : ∃ process,
      Reachable Sample.env (CreditsSafe Sample.env) process ∧
      process.db.addressTokenToHistory.keys.card = 5 :=
    replay_any (Sample.lockWojak ++ [.block 3 Sample.moveWojak true]) (by decide +kernel)
  obtain ⟨listed, told⟩ := history_rebuilds reached
  exact ⟨process, reached, stored, listed, told⟩

end WjkIndexer
