import WjkIndexer.Indexer.Handle
import WjkIndexer.Inscriptions.Parsed

/-!
What handling a block can leave: the three kinds of blocks, and the outputs they spend.
-/

namespace WjkIndexer

open FiniteTable Machine

theorem liftFault_ok {α : Type} {result : Except Fault α} {value : α} :
    liftFault result = .ok value ↔ result = .ok value := by
  cases result <;> simp [liftFault]

theorem liftFault_error {α : Type} {result : Except Fault α} {error : HandleError} :
    liftFault result = .error error ↔ ∃ fault, result = .error fault ∧ error = .panic fault := by
  cases result <;> simp [liftFault, eq_comm]

theorem processPrevouts_ok {env : Env} {db : DB} {block : Block}
    {result : Table OutPoint TxPrevout × ProcessedData} :
    processPrevouts env db block = .ok result ↔
      (∀ key ∈ spentOutpoints block, prevoutOf env db block key ≠ none) ∧
      result = (.collect (spentOutpoints block).toFinset (prevoutOf env db block),
        .prevouts (createdPrevouts env block) (spentOutpoints block).toFinset) := by
  unfold processPrevouts
  dsimp only
  split
  · rename_i key missing
    have absent := List.find?_some missing
    have listed := List.mem_of_find?_eq_some missing
    simp only [reduceCtorEq, false_iff, not_and]
    intro found
    exact absurd (Option.isNone_iff_eq_none.mp absent) (found key listed)
  · rename_i complete
    simp only [Except.ok.injEq, eq_comm, iff_and_self]
    intro _ key listed missing
    have present := List.find?_eq_none.mp complete key listed
    exact present (by rw [missing]; rfl)

/-- The spent outputs of a block that all were found. -/
def spentPrevouts (env : Env) (db : DB) (block : Block) : Table OutPoint TxPrevout :=
  .collect (spentOutpoints block).toFinset (prevoutOf env db block)

def prevoutsData (env : Env) (block : Block) : ProcessedData :=
  .prevouts (createdPrevouts env block) (spentOutpoints block).toFinset

def blockInfoOf (block : Block) : BlockInfo :=
  { hash := block.header.hash, created := block.header.timestamp }

/-- The token cache with the transfers that the block spends. -/
def loadedCache (env : Env) (db : DB) (block : Block) : TokenCache :=
  TokenCache.load (spentPrevouts env db block) db

def tokensData (env : Env) (db : DB) (block : Block) (cache : TokenCache) : ProcessedData :=
  .tokens cache.tokens cache.tokenAccounts (transfersToWrite cache.validTransfers)
    (transfersToWrite (loadedCache env db block).validTransfers).keys

def blockProof (env : Env) (db : DB) (height : Nat) (block : Block)
    (history : List (AddressTokenIdDB × HistoryValue)) : Hash256 :=
  generateHistoryHash env ((db.proofOfHistory.get (height - 1)).getD env.defaultHash) history
    fun hash => ((blockAddresses env block).get hash).or (db.fullhashToAddress.get hash)

/-- What a handled block leaves: only its outputs below the first token height, its header
when it has no transaction but the coinbase, and all of its data otherwise. -/
inductive HandledBlock (env : Env) (server : Server) (height : Nat) (block : Block) :
    Handled → Prop where
  | early (before : height < env.startHeight) : HandledBlock env server height block {
      processed := [prevoutsData env block, .fullHash (blockAddresses env block)]
      holders := server.holders }
  | empty (begun : env.startHeight ≤ height) (alone : block.txs.length = 1) :
      HandledBlock env server height block {
        processed := [prevoutsData env block, .fullHash (blockAddresses env block),
          .info height (blockInfoOf block) (blockProof env server.db height block [])]
        holders := server.holders }
  | full (begun : env.startHeight ≤ height) (several : block.txs.length ≠ 1)
      {parsed : Parser.Parsed} {done : TokenCache.Processing}
      (parsing : Parser.parseBlock env server.db height block (spentPrevouts env server.db block)
        (loadedCache env server.db block) = .ok parsed)
      (processing : (parsed.cache.loadTokensData env server.db).processTokenActions env
        server.holders = .ok done) :
      HandledBlock env server height block {
        processed := [prevoutsData env block, .fullHash (blockAddresses env block),
          .inscriptionPartials parsed.partialsToRemove parsed.partialsToWrite,
          .inscriptionOffset parsed.offsetsToRemove parsed.offsetsToWrite,
          .history height (server.db.lastHistoryId.getD 0 +
            (historyEntries height (server.db.lastHistoryId.getD 0) done.history).length)
            (historyEntries height (server.db.lastHistoryId.getD 0) done.history),
          tokensData env server.db block done.cache,
          .info height (blockInfoOf block) (blockProof env server.db height block
            (historyEntries height (server.db.lastHistoryId.getD 0) done.history))]
        holders := done.holders
        history := historyEntries height (server.db.lastHistoryId.getD 0) done.history }

theorem handleBlock_ok {env : Env} {server : Server} {height : Nat} {block : Block}
    {handled : Handled} :
    handleBlock env server height block = .ok handled ↔
      (∀ key ∈ spentOutpoints block, prevoutOf env server.db block key ≠ none) ∧
        HandledBlock env server height block handled := by
  constructor
  · intro result
    simp only [handleBlock, bind_ok, processPrevouts_ok] at result
    obtain ⟨_, ⟨found, rfl⟩, result⟩ := result
    refine ⟨found, ?_⟩
    dsimp only at result
    split at result
    · rename_i before
      cases result
      exact .early before
    rename_i begun
    split at result
    · rename_i alone
      cases result
      exact .empty (Nat.le_of_not_lt begun) alone
    · rename_i several
      simp only [bind_ok, liftFault_ok] at result
      obtain ⟨parsed, parsing, done, processing, result⟩ := result
      cases result
      exact .full (Nat.le_of_not_lt begun) several parsing processing
  · rintro ⟨found, result⟩
    simp only [handleBlock, bind_ok, processPrevouts_ok]
    refine ⟨_, ⟨found, rfl⟩, ?_⟩
    dsimp only
    cases result with
    | early before =>
        rw [if_pos before]
        rfl
    | empty begun alone =>
        rw [if_neg (Nat.not_lt.mpr begun), if_pos alone]
        rfl
    | full begun several parsing processing =>
        rw [if_neg (Nat.not_lt.mpr begun), if_neg several]
        simp only [bind_ok, liftFault_ok]
        exact ⟨_, parsing, _, processing, rfl⟩

theorem handleBlock_handled {env : Env} {server : Server} {height : Nat} {block : Block}
    {handled : Handled} (result : handleBlock env server height block = .ok handled) :
    HandledBlock env server height block handled :=
  (handleBlock_ok.mp result).2

theorem handleBlock_panic {env : Env} {server : Server} {height : Nat} {block : Block}
    {fault : Fault} (failed : handleBlock env server height block = .error (.panic fault)) :
    Parser.parseBlock env server.db height block (spentPrevouts env server.db block)
        (loadedCache env server.db block) = .error fault ∨
      ∃ parsed, Parser.parseBlock env server.db height block (spentPrevouts env server.db block)
          (loadedCache env server.db block) = .ok parsed ∧
        (parsed.cache.loadTokensData env server.db).processTokenActions env server.holders =
          .error fault := by
  simp only [handleBlock, bind_error, processPrevouts_ok] at failed
  rcases failed with missing | ⟨_, ⟨_, rfl⟩, failed⟩
  · unfold processPrevouts at missing
    dsimp only at missing
    split at missing
    · cases missing
    · cases missing
  dsimp only at failed
  split at failed
  · cases failed
  split at failed
  · cases failed
  simp only [bind_error, liftFault_ok, liftFault_error] at failed
  rcases failed with ⟨reason, parsing, same⟩ | ⟨parsed, parsing, failed⟩
  · cases same
    exact Or.inl parsing
  rcases failed with ⟨reason, processing, same⟩ | ⟨done, _, impossible⟩
  · cases same
    exact Or.inr ⟨parsed, parsing, processing⟩
  · cases impossible

theorem get_transfersToWrite (valid : Table Location (FullHash × TransferProtoDB))
    (key : AddressLocation) :
    (transfersToWrite valid).get key = (valid.get key.location).bind fun transfer =>
      if transfer.1 = key.address then some transfer.2 else none := by
  rw [transfersToWrite, Table.get_collect]
  split
  · rfl
  · rename_i absent
    cases found : valid.get key.location with
    | none => rfl
    | some transfer =>
        rw [Option.bind_some, if_neg]
        intro owned
        apply absent
        simp only [Finset.mem_biUnion, Table.mem_keys_iff, Option.mem_toFinset, Option.mem_def,
          Option.map_eq_some_iff]
        exact ⟨key.location, ⟨transfer, found⟩, transfer, found, by rw [owned]⟩

theorem mem_transfersToWrite {valid : Table Location (FullHash × TransferProtoDB)}
    {key : AddressLocation} :
    key ∈ (transfersToWrite valid).keys ↔
      ∃ proto, valid.get key.location = some (key.address, proto) := by
  rw [Table.mem_keys_iff]
  constructor
  · rintro ⟨proto, found⟩
    rw [get_transfersToWrite, Option.bind_eq_some_iff] at found
    obtain ⟨transfer, listed, owned⟩ := found
    split at owned
    · rename_i same
      exact ⟨transfer.2, by rw [listed, ← same]⟩
    · cases owned
  · rintro ⟨proto, found⟩
    exact ⟨proto, by rw [get_transfersToWrite, found]; simp⟩

theorem get_load_validTransfers (prevouts : Table OutPoint TxPrevout) (db : DB)
    (location : Location) :
    (TokenCache.load prevouts db).validTransfers.get location =
      (prevouts.get location.outpoint).bind fun prevout =>
        (db.addressLocationToTransfer.get ⟨prevout.scriptHash, location⟩).map fun proto =>
          (prevout.scriptHash, proto) := by
  simp only [TokenCache.load, Table.get_collect]
  cases spent : prevouts.get location.outpoint with
  | none => simp
  | some prevout =>
      have loaded : (db.loadTransfers (prevouts.keys.biUnion fun outpoint =>
          ((prevouts.get outpoint).map fun prevout =>
            (⟨prevout.scriptHash, outpoint⟩ : AddressOutPoint)).toFinset)).get
          ⟨prevout.scriptHash, location⟩ =
          db.addressLocationToTransfer.get ⟨prevout.scriptHash, location⟩ := by
        rw [DB.get_loadTransfers, if_pos]
        refine Finset.mem_biUnion.mpr ⟨location.outpoint, Table.mem_keys_iff.mpr ⟨_, spent⟩, ?_⟩
        simp [spent]
      rw [Option.bind_some, Option.bind_some, loaded]
      cases stored : db.addressLocationToTransfer.get ⟨prevout.scriptHash, location⟩ with
      | none => simp
      | some proto =>
          rw [stored] at loaded
          have member : (⟨prevout.scriptHash, location⟩ : AddressLocation) ∈ _ :=
            Table.mem_keys_iff.mpr ⟨proto, loaded⟩
          exact if_pos (Finset.mem_image_of_mem AddressLocation.location member)

theorem get_load_allTransfers (prevouts : Table OutPoint TxPrevout) (db : DB)
    (location : Location) :
    (TokenCache.load prevouts db).allTransfers.get location =
      ((TokenCache.load prevouts db).validTransfers.get location).map Prod.snd := by
  have all : (TokenCache.load prevouts db).allTransfers =
      .collect (TokenCache.load prevouts db).validTransfers.keys fun location =>
        ((TokenCache.load prevouts db).validTransfers.get location).map Prod.snd := rfl
  rw [all, Table.get_collect]
  split
  · rfl
  · rename_i absent
    rw [Table.get_eq_none_iff.mpr absent]
    rfl

theorem loaded_stored {env : Env} {db : DB} {block : Block} {location : Location}
    {sender : FullHash} {data : TransferProtoDB}
    (valid : (loadedCache env db block).validTransfers.get location = some (sender, data)) :
    db.addressLocationToTransfer.get ⟨sender, location⟩ = some data := by
  rw [loadedCache, get_load_validTransfers, Option.bind_eq_some_iff] at valid
  obtain ⟨prevout, _, stored⟩ := valid
  rw [Option.map_eq_some_iff] at stored
  obtain ⟨record, stored, same⟩ := stored
  rw [Prod.mk.injEq] at same
  rw [← same.1, ← same.2]
  exact stored

theorem historyEntries_id {height last : Nat} {actions : List HistoryTokenAction}
    {entry : AddressTokenIdDB × HistoryValue} (listed : entry ∈ historyEntries height last actions) :
    last < entry.1.id ∧ entry.1.id ≤ last + (historyEntries height last actions).length := by
  induction actions generalizing last with
  | nil => cases listed
  | cons action rest ih =>
      rw [historyEntries] at listed ⊢
      dsimp only at listed ⊢
      split at listed
      · simp only [List.mem_cons] at listed
        simp only [List.length_cons]
        rcases listed with rfl | rfl | later
        · exact ⟨by dsimp only; omega, by dsimp only; omega⟩
        · exact ⟨by dsimp only; omega, by dsimp only; omega⟩
        · have bounds := ih later
          omega
      · simp only [List.mem_cons] at listed
        simp only [List.length_cons]
        rcases listed with rfl | later
        · exact ⟨by dsimp only; omega, by dsimp only; omega⟩
        · have bounds := ih later
          omega

theorem createdPrevouts_txid {env : Env} {block : Block} {key : OutPoint} {prevout : TxPrevout}
    (created : (createdPrevouts env block).get key = some prevout) : key.txid ∈ block.txids := by
  rcases Table.mem_keys_extendList (Table.mem_keys_iff.mpr ⟨prevout, created⟩) with old | new
  · cases old
  · simp only [List.map_map, List.mem_map, List.mem_filter, List.mem_flatMap] at new
    obtain ⟨entry, ⟨⟨tx, listed, made⟩, _⟩, rfl⟩ := new
    rw [Function.comp_apply, created_txid (List.mem_map_of_mem made)]
    exact mem_txids listed

theorem several_spends {env : Env} {chain : Chain} {block : Block}
    (valid : ValidBlock env chain.utxo chain.txids block)
    (several : block.txs.length ≠ 1) :
    ∃ key ∈ spentOutpoints block, key.txid ∈ chain.txids := by
  obtain ⟨coinbase, rest, shape, _, spending⟩ := valid.shape
  cases rest with
  | nil => simp [shape] at several
  | cons tx others =>
      obtain ⟨first, _⟩ := spending
      obtain ⟨input, inputs⟩ := List.exists_mem_of_ne_nil _ first.spends
      obtain ⟨output, available, _⟩ := first.unspent input inputs
      refine ⟨input.outpoint, ?_, Chain.utxo_txid (Table.mem_keys_iff.mpr ⟨output, available⟩)⟩
      simp only [spentOutpoints, List.mem_flatMap, List.mem_filter, List.mem_map]
      exact ⟨tx, ⟨by simp [shape], by simp [first.ordinary]⟩, input, inputs, rfl⟩

theorem alone_spends {env : Env} {chain : Chain} {block : Block}
    (valid : ValidBlock env chain.utxo chain.txids block)
    (alone : block.txs.length = 1) : spentOutpoints block = [] := by
  obtain ⟨coinbase, rest, shape, generated, _⟩ := valid.shape
  rw [shape, List.length_cons, Nat.succ_inj, List.length_eq_zero_iff] at alone
  simp [spentOutpoints, shape, alone, generated]

end WjkIndexer
