import WjkIndexer.Indexer.Tokens
import WjkIndexer.Indexer.Unspent
import WjkIndexer.Tokens.Moves

/-!
Stored transfers and the outputs that they stand on: every one is anchored to an unspent
output, and is sent once when this output is spent.
-/

namespace WjkIndexer

open FiniteTable TokenCache

/-- A transfer is filed on an offset that is tracked, in an unspent output. If this output can
be spent, it belongs to the owner of the transfer and is large enough. -/
structure Anchored (env : Env) (db : DB) (chain : Chain) (key : AddressLocation) : Prop where
  offset : key.location.offset ∈
    (db.outpointToInscriptionOffsets.get key.location.outpoint).getD ∅
  output : ∃ output, chain.utxo.get key.location.outpoint = some output ∧
    (env.isProvablyUnspendable output.scriptPubkey = false →
      db.prevouts.get key.location.outpoint = some ⟨key.address, output.value⟩ ∧
        key.location.offset < output.value)

structure AnchoredLedger (env : Env) (db : DB) (chain : Chain) : Prop where
  anchored : ∀ key ∈ db.addressLocationToTransfer.keys, Anchored env db chain key
  begun : ∀ key ∈ db.addressLocationToTransfer.keys,
    ∃ last ∈ chain.head?, env.startHeight ≤ last.1

section Block

variable {env : Env} {server : Server} {height : Nat} {block : Block} {chain : Chain}
  {handled : Handled} {parsed : Parser.Parsed}

theorem Anchored.kept {db next : DB} {key : AddressLocation} (anchored : Anchored env db chain key)
    (valid : ValidBlock env chain.utxo chain.txids block)
    (older : key.location.outpoint.txid ∉ block.txids)
    (unspent : key.location.outpoint ∉ spentOutpoints block)
    (offsets : next.outpointToInscriptionOffsets.get key.location.outpoint =
      db.outpointToInscriptionOffsets.get key.location.outpoint)
    (prevouts : next.prevouts = (db.prevouts.extend (createdPrevouts env block)).removeBatch
      (spentOutpoints block).toFinset) :
    Anchored env next ((height, block) :: chain) key := by
  have foreign : (createdPrevouts env block).get key.location.outpoint = none := by
    apply Option.eq_none_iff_forall_ne_some.mpr
    intro prevout created
    exact older (createdPrevouts_txid created)
  obtain ⟨output, present, owned⟩ := anchored.output
  refine ⟨offsets ▸ anchored.offset, output, ?_, ?_⟩
  · rw [spentOutpoints_eq] at unspent
    rw [Chain.utxo_cons, valid.get_applyBlock older, if_neg unspent, present]
  · intro spendable
    rw [prevouts, Table.get_removeBatch, if_neg (by rwa [List.mem_toFinset]), Table.get_extend,
      foreign, Option.none_or]
    exact owned spendable

theorem stored_loaded (valid : ValidBlock env chain.utxo chain.txids block) {db : DB}
    {key : AddressLocation} (anchored : Anchored env db chain key)
    (known : key.location.outpoint.txid ∈ chain.txids)
    (spends : key.location.outpoint ∈ spentOutpoints block) :
    (loadedCache env db block).validTransfers.get key.location =
      (db.addressLocationToTransfer.get key).map (Prod.mk key.address) := by
  have fresh : key.location.outpoint.txid ∉ block.txids :=
    fun own => valid.txids_disjoint own known
  have spendable := spends
  rw [spentOutpoints_eq] at spendable
  obtain ⟨output, present, owned⟩ := anchored.output
  rcases valid.spent_origin (fun _ => Chain.utxo_txid) spendable with ⟨other, same, free⟩ | own
  · rw [present] at same
    cases same
    have held : (spentPrevouts env db block).get key.location.outpoint =
        some ⟨key.address, output.value⟩ := by
      rw [spentPrevouts, Table.get_collect, if_pos (List.mem_toFinset.mpr spends), prevoutOf,
        (owned free).1]
      rfl
    rw [loadedCache, get_load_validTransfers, held, Option.bind_some]
  · exact absurd own fresh

structure BlockParsed (env : Env) (db : DB) (chain : Chain) (block : Block)
    (parsed : Parser.Parsed) : Prop where
  preloadable : Preloadable env db parsed.cache
  fed : Fed env block.txids (loadedCache env db block) parsed.cache
  moving : Moving env block.txs (block.txs.flatMap Tx.spent) {
    offsets := parsed.offsetsToWrite
    partials := parsed.partialsToWrite
    cache := parsed.cache }

theorem blockParsed {db : DB} (valid : ValidBlock env chain.utxo chain.txids block)
    (placed : Placed db chain)
    (filed : WellFiled env db.tokenToMeta db.addressTokenToBalance)
    (ledger : AnchoredLedger env db chain)
    (parsing : Parser.parseBlock env db height block (spentPrevouts env db block)
      (loadedCache env db block) = .ok parsed) : BlockParsed env db chain block parsed where
  preloadable :=
    preloadable_parsed parsing filed placed (fun _ own => valid.txids_disjoint own)
  fed := (parseBlock_spec parsing).feed.fed rfl
  moving := by
    refine parseBlock_moved valid (fun _ => Chain.utxo_txid) parsing rfl ?_
    intro location known
    rw [loadedCache, get_load_allTransfers, Option.isSome_map, Option.isSome_iff_exists] at known
    obtain ⟨⟨owner, proto⟩, loaded⟩ := known
    have stored := loaded_stored loaded
    have offset := (ledger.anchored _ (Table.mem_keys_iff.mpr ⟨proto, stored⟩)).offset
    rw [get_load_validTransfers, Option.bind_eq_some_iff] at loaded
    obtain ⟨prevout, spent, _⟩ := loaded
    rw [Table.get_restrict, if_pos (Table.mem_keys_iff.mpr ⟨prevout, spent⟩)]
    exact offset

namespace BlockParsed

theorem moved {db : DB} (blockSpec : BlockParsed env db chain block parsed) {location : Location}
    (known : (parsed.cache.allTransfers.get location).isSome)
    (spends : location.outpoint ∈ spentOutpoints block) :
    location ∈ movedLocations parsed.cache.tokenActions :=
  blockSpec.moving.moved location known (spentOutpoints_eq block ▸ spends)

theorem unmoved {db : DB} (blockSpec : BlockParsed env db chain block parsed) {location : Location}
    (unspent : location.outpoint ∉ spentOutpoints block) :
    location ∉ movedLocations parsed.cache.tokenActions := by
  intro moved
  rw [spentOutpoints_eq] at unspent
  exact unspent (blockSpec.moving.gone location moved)

theorem inscribed_known {db : DB} (blockSpec : BlockParsed env db chain block parsed)
    {location : Location} (inscribed : transfersAt parsed.cache.tokenActions location ≠ []) :
    (parsed.cache.allTransfers.get location).isSome := by
  obtain ⟨height, known⟩ := blockSpec.fed.last location _ _
    (List.getLast?_eq_some_getLast inscribed)
  rw [known]
  rfl

theorem consumed {db : DB} (blockSpec : BlockParsed env db chain block parsed) {holders : Holders}
    {done : Processing}
    (processing : processTokenActions env (parsed.cache.loadTokensData env db) holders = .ok done)
    (location : Location) :
    Consumed parsed.cache parsed.cache.tokenActions done.cache
      (events env (parsed.cache.loadTokensData env db) holders) location :=
  events_consumed blockSpec.preloadable blockSpec.moving.ordered blockSpec.moving.once processing
    location

end BlockParsed

theorem valid_inscribed {db : DB} (blockSpec : BlockParsed env db chain block parsed)
    {holders : Holders} {done : Processing}
    (processing : processTokenActions env (parsed.cache.loadTokensData env db) holders = .ok done)
    {location : Location} {owner : FullHash} {proto : TransferProtoDB}
    (valid : done.cache.validTransfers.get location = some (owner, proto)) :
    location.outpoint ∉ spentOutpoints block ∧
      (parsed.cache.allTransfers.get location).isSome ∧
      StandsIn env block.txs location owner := by
  have unmoved : location ∉ movedLocations parsed.cache.tokenActions := by
    intro moved
    rw [((blockSpec.consumed processing location).settled moved).1] at valid
    cases valid
  have running := processing_running blockSpec.preloadable.filed processing
  rcases running.traced.origin location owner proto
    valid with loaded | ⟨inscribed, record, first, _⟩
  · have known : (parsed.cache.allTransfers.get location).isSome := by
      rw [blockSpec.preloadable.known location _ loaded]
      rfl
    rw [blockSpec.fed.validTransfers, loadedCache, get_load_validTransfers,
      Option.bind_eq_some_iff] at loaded
    obtain ⟨prevout, spent, _⟩ := loaded
    rw [spentPrevouts, Table.get_collect] at spent
    split at spent
    · rename_i spends
      exact absurd (blockSpec.moved known (List.mem_toFinset.mp spends)) unmoved
    · cases spent
  · have known := blockSpec.inscribed_known inscribed
    obtain ⟨txid, vout, listed⟩ := mem_transfersAt.mp (List.mem_of_head? first)
    exact ⟨fun spends => unmoved (blockSpec.moved known spends), known,
      blockSpec.moving.placed location owner record txid vout listed⟩

theorem anchored_inscribed {db next : DB} (valid : ValidBlock env chain.utxo chain.txids block)
    {key : AddressLocation} (unspent : key.location.outpoint ∉ spentOutpoints block)
    (stands : StandsIn env block.txs key.location key.address)
    (offset : key.location.offset ∈
      (next.outpointToInscriptionOffsets.get key.location.outpoint).getD ∅)
    (prevouts : next.prevouts = (db.prevouts.extend (createdPrevouts env block)).removeBatch
      (spentOutpoints block).toFinset) :
    Anchored env next ((height, block) :: chain) key := by
  obtain ⟨tx, listed, output, own, present, inside, owner⟩ := stands
  have outpoint : key.location.outpoint = ⟨tx.hash, key.location.outpoint.vout⟩ := by rw [← own]
  refine ⟨offset, output, ?_, ?_⟩
  · rw [spentOutpoints_eq, outpoint] at unspent
    rw [Chain.utxo_cons, outpoint]
    exact valid.get_created (fun _ => Chain.utxo_txid) listed present unspent
  · intro spendable
    refine ⟨?_, inside⟩
    have created := get_createdPrevouts valid.distinct listed present spendable
    rw [← outpoint] at created
    rw [prevouts, Table.get_removeBatch, if_neg (by rwa [List.mem_toFinset]), Table.get_extend,
      created, owner]
    rfl

theorem anchored_handled (result : HandledBlock env server height block handled)
    (follows : chain.Follows height) (valid : ValidBlock env chain.utxo chain.txids block)
    (placed : Placed server.db chain)
    (filed : WellFiled env server.db.tokenToMeta server.db.addressTokenToBalance)
    (ledger : AnchoredLedger env server.db chain) :
    AnchoredLedger env (applyAll handled.processed server.db) ((height, block) :: chain) := by
  have prevouts := prevouts_handled result
  have older : ∀ key ∈ server.db.addressLocationToTransfer.keys,
      key.location.outpoint.txid ∉ block.txids :=
    fun key stored own => valid.txids_disjoint own (placed.transfers key stored)
  have begun : ∀ key ∈ server.db.addressLocationToTransfer.keys, env.startHeight ≤ height := by
    intro key stored
    obtain ⟨last, head, started⟩ := ledger.begun key stored
    have next := follows last head
    omega
  have top : env.startHeight ≤ height →
      ∃ last ∈ List.head? ((height, block) :: chain), env.startHeight ≤ last.1 :=
    fun started => ⟨(height, block), rfl, started⟩
  cases result with
  | early before =>
      have none : ∀ key, key ∉ server.db.addressLocationToTransfer.keys := by
        intro key stored
        have started := begun key stored
        omega
      exact {
        anchored := fun key stored => absurd stored (none key)
        begun := fun key stored => absurd stored (none key) }
  | empty started alone =>
      refine {
        anchored := ?_
        begun := fun _ _ => top started }
      intro key stored
      refine (ledger.anchored key stored).kept valid (older key stored) ?_ rfl prevouts
      rw [alone_spends valid alone]
      exact List.not_mem_nil
  | @full started several parsed done parsing processing =>
      have blockSpec := blockParsed valid placed filed ledger parsing
      have spec := parseBlock_spec parsing
      refine {
        anchored := ?_
        begun := fun _ _ => top started }
      intro key stored
      simp only [applyAll, prevoutsData, tokensData, ProcessedData.apply, ProcessedData.writes,
        List.foldl_cons, List.foldl_nil] at stored ⊢
      by_cases new : key ∈ (transfersToWrite done.cache.validTransfers).keys
      · obtain ⟨proto, inscribed⟩ := mem_transfersToWrite.mp new
        obtain ⟨unspent, known, stands⟩ := valid_inscribed blockSpec processing inscribed
        refine anchored_inscribed valid unspent stands ?_ rfl
        have offset := blockSpec.moving.waiting key.location known
          (spentOutpoints_eq block ▸ unspent)
        rw [Table.get_extend]
        cases written : parsed.offsetsToWrite.get key.location.outpoint with
        | none =>
            simp only [written] at offset
            cases offset
        | some offsets =>
            simp only [written] at offset
            exact offset
      · rcases Table.mem_keys_extend stored with old | written
        · have kept := Table.mem_keys_removeBatch old
          have known := placed.transfers key kept
          have anchored := ledger.anchored key kept
          obtain ⟨proto, found⟩ := Table.mem_keys_iff.mp kept
          have unspent : key.location.outpoint ∉ spentOutpoints block := by
            intro spends
            have loaded := stored_loaded valid anchored known spends
            rw [found] at loaded
            obtain ⟨left, remains⟩ := Table.mem_keys_iff.mp old
            rw [Table.get_removeBatch, if_pos (mem_transfersToWrite.mpr ⟨proto, loaded⟩)]
              at remains
            cases remains
          have unloaded : key.location.outpoint ∉ parsed.offsetsToRemove.keys := by
            rw [spec.offsetsToRemove, Table.keys_restrict]
            intro member
            obtain ⟨prevout, spent⟩ :=
              Table.mem_keys_iff.mp (Finset.mem_of_mem_inter_left member)
            rw [spentPrevouts, Table.get_collect] at spent
            split at spent
            · rename_i spends
              exact unspent (List.mem_toFinset.mp spends)
            · cases spent
          refine anchored.kept valid (older key kept) unspent ?_ rfl
          have untouched : parsed.offsetsToWrite.get key.location.outpoint = none := by
            apply Table.get_eq_none_iff.mpr
            intro member
            rcases spec.offsetsToWrite _ member with own | saved
            · exact older key kept own
            · exact unloaded saved
          rw [Table.get_extend, untouched, Option.none_or, Table.get_removeBatch,
            if_neg unloaded]
        · exact absurd written new

end Block

def blockEvents (env : Env) (server : Server) (height : Nat) (block : Block) : List ActionEvent :=
  if height < env.startHeight ∨ block.txs.length = 1 then []
  else
    match Parser.parseBlock env server.db height block (spentPrevouts env server.db block)
        (loadedCache env server.db block) with
    | .error _ => []
    | .ok parsed => events env (parsed.cache.loadTokensData env server.db) server.holders

inductive Forward (env : Env) : Process → List ActionEvent → Prop where
  | start : Forward env {} []
  | block {process next : Process} {made : List ActionEvent} (run : Forward env process made)
      {height : Nat} {new : Block} {handleReorgs : Bool}
      (valid : (Event.block height new handleReorgs).Valid env process)
      (stepped : process.step env (.block height new handleReorgs) = .ok next) :
      Forward env next (made ++ blockEvents env process.server height new)

section Run

variable {env : Env} {process next : Process} {made : List ActionEvent} {height : Nat}
  {new : Block} {handleReorgs : Bool}

theorem Forward.reachable (run : Forward env process made) :
    Reachable env (fun _ _ => True) process := by
  induction run with
  | start => exact .start
  | block run valid stepped ih => exact .step ih valid trivial stepped

theorem forward_step (run : Forward env process made)
    (valid : (Event.block height new handleReorgs).Valid env process)
    (stepped : process.step env (.block height new handleReorgs) = .ok next) :
    ∃ handled, HandledBlock env process.server height new handled ∧
      next.db = applyAll handled.processed process.db ∧
      next.chain = (height, new) :: process.chain := by
  have sound := reachable_filed run.reachable
  obtain ⟨handled, handling, server, chain, _, _⟩ := step_block stepped (sound.below valid.1)
  exact ⟨handled, handleBlock_handled handling, by rw [Process.db, server], chain⟩

theorem forward_anchored (run : Forward env process made) :
    AnchoredLedger env process.db process.chain := by
  induction run with
  | start =>
      exact {
        anchored := fun _ stored => nomatch stored
        begun := fun _ stored => nomatch stored }
  | block run valid stepped ih =>
      have sound := reachable_filed run.reachable
      obtain ⟨handled, result, db, chain⟩ := forward_step run valid stepped
      rw [db, chain]
      exact anchored_handled result valid.1 valid.2 sound.placed sound.holds ih

theorem transfersAt_ne_nil {actions : List TokenAction} {action : TokenAction}
    {location : Location} (listed : action ∈ actions)
    (inscribes : action.inscribedAt = some location) : transfersAt actions location ≠ [] := by
  cases action with
  | transfer place owner proto txid vout =>
      cases inscribes
      exact List.ne_nil_of_mem (mem_transfersAt.mpr ⟨txid, vout, listed⟩)
  | deploy | mint | transferred => cases inscribes

theorem lockers_inscribed {cache : TokenCache} {holders : Holders} {done : Processing}
    (returned : processTokenActions env cache holders = .ok done) {location : Location}
    {owner : FullHash} (locked : owner ∈ lockersAt location (events env cache holders)) :
    transfersAt cache.tokenActions location ≠ [] := by
  have listed : ∀ entry ∈ events env cache holders, entry.1 ∈ cache.tokenActions := by
    refine events_induction returned
      (fun _ _ events => ∀ entry ∈ events, entry.1 ∈ cache.tokenActions) (by simp) ?_
    intro past action future state events processed split known _ entry member
    rcases List.mem_append.mp member with old | new
    · exact known entry old
    · obtain ⟨event, _, rfl⟩ := List.mem_map.mp new
      simp [← split]
  obtain ⟨entry, member, _⟩ := List.mem_map.mp locked
  obtain ⟨present, inscribes⟩ := List.mem_filter.mp member
  exact transfersAt_ne_nil (listed entry present) (of_decide_eq_true inscribes)

/-- What the sends of a block do: only spent outputs send, each location at most once, and
what was stored or accepted at a location of a spent output is sent by its owner. -/
structure BlockSends (env : Env) (process : Process) (height : Nat) (new : Block)
    (location : Location) : Prop where
  spent : sendsAt location (blockEvents env process.server height new) ≠ [] →
    location.outpoint ∈ spentOutpoints new
  once : (sendsAt location (blockEvents env process.server height new)).length ≤ 1
  consumed : location.outpoint ∈ spentOutpoints new → ∀ owner,
    ⟨owner, location⟩ ∈ process.db.addressLocationToTransfer.keys ∨
      owner ∈ lockersAt location (blockEvents env process.server height new) →
    ∃ event, sendsAt location (blockEvents env process.server height new) = [event] ∧
      event.sender = some owner

theorem single_send {sends : List HistoryTokenAction} {owners : List FullHash} {owner : FullHash}
    (same : sends.map HistoryTokenAction.sender = owners.map some) (single : owners.length ≤ 1)
    (owned : owner ∈ owners) : ∃ event, sends = [event] ∧ event.sender = some owner := by
  cases owners with
  | nil => cases owned
  | cons only rest =>
      rw [List.length_cons] at single
      obtain rfl := List.length_eq_zero_iff.mp (by omega : rest.length = 0)
      obtain rfl := List.mem_singleton.mp owned
      exact List.map_eq_singleton_iff.mp same

theorem block_sends (run : Forward env process made)
    (valid : (Event.block height new handleReorgs).Valid env process)
    (stepped : process.step env (.block height new handleReorgs) = .ok next)
    (location : Location) : BlockSends env process height new location := by
  have sound := reachable_filed run.reachable
  have ledger := forward_anchored run
  obtain ⟨handled, result, _, _⟩ := forward_step run valid stepped
  obtain ⟨follows, valid⟩ := valid
  have silent : height < env.startHeight ∨ new.txs.length = 1 →
      blockEvents env process.server height new = [] := by
    intro quiet
    exact if_pos quiet
  cases result with
  | early before =>
      have none := silent (Or.inl before)
      refine {
        spent := ?_
        once := ?_
        consumed := ?_ }
      · simp [none, sendsAt]
      · simp [none, sendsAt]
      · intro _ owner owned
        rw [none] at owned
        rcases owned with stored | locked
        · obtain ⟨last, head, started⟩ := ledger.begun _ stored
          have after := follows last head
          omega
        · cases locked
  | empty started alone =>
      have none := silent (Or.inr alone)
      refine {
        spent := ?_
        once := ?_
        consumed := ?_ }
      · simp [none, sendsAt]
      · simp [none, sendsAt]
      · intro spends
        rw [alone_spends valid alone] at spends
        cases spends
  | @full started several parsed done parsing processing =>
      have blockSpec := blockParsed valid sound.placed sound.holds ledger parsing
      have consumed := blockSpec.consumed processing location
      have all : blockEvents env process.server height new =
          events env (parsed.cache.loadTokensData env process.db) process.server.holders := by
        rw [blockEvents, if_neg (by omega), parsing]
        rfl
      rw [← all] at consumed
      refine {
        spent := ?_
        once := ?_
        consumed := ?_ }
      · intro sends
        by_contra unspent
        exact sends (consumed.pending (blockSpec.unmoved unspent)).1
      · by_cases moved : location ∈ movedLocations parsed.cache.tokenActions
        · have lengths := congrArg List.length (consumed.settled moved).2
          rw [List.length_map, List.length_map] at lengths
          rw [lengths]
          exact consumed.single
        · rw [(consumed.pending moved).1]
          exact Nat.zero_le _
      · intro spends owner owned
        have listed : owner ∈ ownersAt parsed.cache location
              (blockEvents env process.server height new) ∧
            (parsed.cache.allTransfers.get location).isSome := by
          rcases owned with stored | locked
          · have known := sound.placed.transfers _ stored
            have loaded := stored_loaded valid (ledger.anchored _ stored) known spends
            obtain ⟨proto, found⟩ := Table.mem_keys_iff.mp stored
            rw [found, Option.map_some] at loaded
            have present : parsed.cache.validTransfers.get location = some (owner, proto) := by
              rw [blockSpec.fed.validTransfers]
              exact loaded
            refine ⟨?_, ?_⟩
            · rw [ownersAt, present]
              exact List.mem_append_left _ (List.mem_singleton.mpr rfl)
            · rw [blockSpec.preloadable.known location _ present]
              rfl
          · refine ⟨List.mem_append_right _ locked, ?_⟩
            rw [all] at locked
            exact blockSpec.inscribed_known (lockers_inscribed processing locked)
        exact single_send (consumed.settled (blockSpec.moved listed.2 spends)).2 consumed.single
          listed.1

theorem forward_sent (run : Forward env process made) (location : Location) :
    (sendsAt location made).length ≤ 1 ∧ (sendsAt location made ≠ [] →
      location.outpoint.txid ∈ process.chain.txids ∧
        process.chain.utxo.get location.outpoint = none) := by
  induction run with
  | start => exact ⟨Nat.zero_le _, fun some => absurd rfl some⟩
  | @block process next made run height new handleReorgs valid stepped ih =>
      obtain ⟨_, _, _, chain⟩ := forward_step run valid stepped
      have sends := block_sends run valid stepped location
      obtain ⟨_, valid⟩ := valid
      have old : ∀ key ∈ process.chain.utxo.keys, key.txid ∈ process.chain.txids :=
        fun _ => Chain.utxo_txid
      rw [chain, Chain.txids_cons, Chain.utxo_cons, sendsAt_append]
      by_cases before : sendsAt location made = []
      · rw [before, List.nil_append]
        refine ⟨sends.once, ?_⟩
        intro now
        have spends := sends.spent now
        rw [spentOutpoints_eq] at spends
        refine ⟨?_, valid.spent_gone old spends⟩
        rcases valid.spent_origin old spends with ⟨output, present, _⟩ | own
        · exact Finset.mem_union_left _ (old _ (Table.mem_keys_iff.mpr ⟨output, present⟩))
        · exact Finset.mem_union_right _ own
      · obtain ⟨known, gone⟩ := ih.2 before
        have older : location.outpoint.txid ∉ new.txids :=
          fun own => valid.txids_disjoint own known
        have later : sendsAt location (blockEvents env process.server height new) = [] := by
          by_contra now
          have spends := sends.spent now
          rw [spentOutpoints_eq] at spends
          rcases valid.spent_origin old spends with ⟨output, present, _⟩ | own
          · rw [gone] at present
            cases present
          · exact older own
        rw [later, List.append_nil]
        refine ⟨ih.1, fun _ => ⟨Finset.mem_union_left _ known, ?_⟩⟩
        rw [valid.get_applyBlock older, gone, ite_self]

/-- Every stored transfer is anchored to a live inscription. When its output is spent, it is
sent once and not written back, and no transfer is ever sent twice. -/
theorem transfers_anchored (run : Forward env process made) :
    (∀ key ∈ process.db.addressLocationToTransfer.keys,
      Anchored env process.db process.chain key) ∧
    (∀ height new handleReorgs next,
      (Event.block height new handleReorgs).Valid env process →
      process.step env (.block height new handleReorgs) = .ok next →
      ∀ location, location.outpoint ∈ spentOutpoints new →
        (∀ owner, ⟨owner, location⟩ ∈ process.db.addressLocationToTransfer.keys ∨
            owner ∈ lockersAt location (blockEvents env process.server height new) →
          ∃ event, sendsAt location (blockEvents env process.server height new) = [event] ∧
            event.sender = some owner) ∧
        ∀ address, ⟨address, location⟩ ∉ next.db.addressLocationToTransfer.keys) ∧
    ∀ location, (sendsAt location made).length ≤ 1 := by
  refine ⟨(forward_anchored run).anchored, ?_, fun location => (forward_sent run location).1⟩
  intro height new handleReorgs next valid stepped location spends
  refine ⟨(block_sends run valid stepped location).consumed spends, ?_⟩
  intro address written
  have after := (forward_anchored (.block run valid stepped)).anchored _ written
  obtain ⟨_, _, _, chain⟩ := forward_step run valid stepped
  obtain ⟨output, present, _⟩ := after.output
  rw [spentOutpoints_eq] at spends
  rw [chain, Chain.utxo_cons, valid.2.spent_gone (fun _ => Chain.utxo_txid) spends] at present
  cases present

end Run

def replayForward (env : Env) (blocks : List (Nat × Block)) :
    Option (Process × List ActionEvent) :=
  blocks.foldlM (fun (process, made) (height, new) =>
    (process.checkedStep env (fun _ _ => True) (.block height new true)).map fun next =>
      (next, made ++ blockEvents env process.server height new)) ({}, [])

theorem replayForward_forward {env : Env} {blocks : List (Nat × Block)} {process : Process}
    {made : List ActionEvent} (ran : replayForward env blocks = some (process, made)) :
    Forward env process made := by
  suffices general : ∀ state : Process × List ActionEvent, Forward env state.1 state.2 →
      blocks.foldlM (fun (process, made) (height, new) =>
        (process.checkedStep env (fun _ _ => True) (.block height new true)).map fun next =>
          (next, made ++ blockEvents env process.server height new)) state =
        some (process, made) → Forward env process made from general ({}, []) .start ran
  clear ran
  induction blocks with
  | nil =>
      rintro state run same
      cases same
      exact run
  | cons entry rest ih =>
      rintro ⟨process, made⟩ run ran
      rw [List.foldlM_cons] at ran
      obtain ⟨state, stepped, later⟩ := Option.bind_eq_some_iff.mp ran
      obtain ⟨next, checked, rfl⟩ := Option.map_eq_some_iff.mp stepped
      obtain ⟨valid, _, result⟩ := checkedStep_some checked
      exact ih _ (.block run valid result) later

theorem wojak_anchored :
    let owner := Sample.env.computeScriptHash Sample.sender
    let location : Location := ⟨⟨3, 0⟩, 0⟩
    ∃ process made, Forward Sample.env process made ∧
      Anchored Sample.env process.db process.chain ⟨owner, location⟩ ∧
      ∃ event, sendsAt location (blockEvents Sample.env process.server 3 Sample.moveWojak) =
        [event] ∧ event.sender = some owner := by
  intro owner location
  have ran : (replayForward Sample.env [(1, Sample.payWojak), (2, Sample.inscribeWojak)]).any
      (fun state => decide
      (⟨owner, location⟩ ∈ state.1.db.addressLocationToTransfer.keys ∧
        (Event.block 3 Sample.moveWojak true).Valid Sample.env state.1 ∧
        (state.1.step Sample.env (.block 3 Sample.moveWojak true)).toOption.isSome)) = true := by
    decide +kernel
  obtain ⟨⟨process, made⟩, final, checked⟩ := (Option.any_eq_true _ _).mp ran
  obtain ⟨stored, valid, steps⟩ := of_decide_eq_true checked
  obtain ⟨next, stepped⟩ := Option.isSome_iff_exists.mp steps
  have run := replayForward_forward final
  obtain ⟨anchored, consumed, _⟩ := transfers_anchored run
  have spends : location.outpoint ∈ spentOutpoints Sample.moveWojak := by decide
  exact ⟨process, made, run, anchored _ stored,
    (consumed 3 _ true next valid (Machine.toOption_some.mp stepped) location spends).1 owner
      (Or.inl stored)⟩

end WjkIndexer
