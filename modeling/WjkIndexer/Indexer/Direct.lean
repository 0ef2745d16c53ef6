import WjkIndexer.Indexer.Reordered
import WjkIndexer.Indexer.Unspent

/-!
The ledger as a function of the chain: whatever reorgs and restarts a run has seen, its ledger is
the one that the applied blocks leave when they are handled in order, from the empty database, and
in any order of the offsets as long as no spent output carries two transfers.
-/

namespace WjkIndexer

open FiniteTable Machine TokenCache

/-- The database that the blocks of a chain leave. Nothing is undone, and nothing is restarted. -/
def indexChain (env : Env) : Chain → Except HandleError DB
  | [] => .ok {}
  | (height, block) :: lower => do
      let db ← indexChain env lower
      let handled ← handleBlock env { db } height block
      .ok (applyAll handled.processed db)

theorem indexChain_cons {env : Env} {height : Nat} {block : Block} {lower : Chain} {db : DB} :
    indexChain env ((height, block) :: lower) = .ok db ↔ ∃ base handled,
      indexChain env lower = .ok base ∧ handleBlock env { db := base } height block = .ok handled ∧
        db = applyAll handled.processed base := by
  simp only [indexChain, bind_ok, Except.ok.injEq]
  constructor
  · rintro ⟨base, below, handled, handling, same⟩
    exact ⟨base, handled, below, handling, same.symm⟩
  · rintro ⟨base, handled, below, handling, same⟩
    exact ⟨base, below, handled, handling, same.symm⟩

section Stored

variable {env : Env} {db other : DB} {height : Nat} {block : Block}

theorem spentPrevouts_congr
    (spent : ∀ key ∈ spentOutpoints block, prevoutOf env db block key = prevoutOf env other block key) :
    spentPrevouts env other block = spentPrevouts env db block := by
  apply Table.ext
  intro key
  simp only [spentPrevouts, Table.get_collect, List.mem_toFinset]
  split
  · exact (spent key ‹_›).symm
  · rfl

theorem loadedCache_congr (same : SameLedger db other)
    (spent : spentPrevouts env other block = spentPrevouts env db block) :
    loadedCache env other block = loadedCache env db block := by
  rw [loadedCache, loadedCache, spent]
  simp only [TokenCache.load, DB.loadTransfers, same.addressLocationToTransfer]

theorem LoneTransfers.congr (lone : LoneTransfers env db height block) (same : SameLedger db other)
    (spent : ∀ key ∈ spentOutpoints block, prevoutOf env db block key = prevoutOf env other block key) :
    LoneTransfers env other height block := by
  have sameSpent := spentPrevouts_congr spent
  unfold LoneTransfers
  rw [sameSpent, loadedCache_congr same sameSpent, ← same.outpointToInscriptionOffsets,
    ← same.outpointToPartials]
  exact lone

end Stored

section Block

variable {env : Env} {left right : Server} {height : Nat} {block : Block} {chain : Chain}
  {handled : Handled}

theorem handled_congr (result : HandledBlock env left height block handled)
    (same : SameLedger left.db right.db)
    (spent : ∀ key ∈ spentOutpoints block,
      prevoutOf env left.db block key = prevoutOf env right.db block key) :
    ∃ again, HandledBlock env right height block again ∧
      SameLedger (applyAll handled.processed left.db) (applyAll again.processed right.db) := by
  have sameSpent := spentPrevouts_congr spent
  have sameCache := loadedCache_congr same sameSpent
  cases result with
  | early before =>
      refine ⟨_, .early before, ?_⟩
      exact { same with }
  | empty begun alone =>
      refine ⟨_, .empty begun alone, ?_⟩
      exact {
        same with
        blockInfo := congrArg (Table.set · height (blockInfoOf block)) same.blockInfo }
  | @full begun several parsed done parsing processing =>
      have sameParse : Parser.parseBlock env right.db height block
          (spentPrevouts env right.db block) (loadedCache env right.db block) = .ok parsed := by
        rw [sameSpent, sameCache, ← parsing]
        simp only [Parser.parseBlock, same.outpointToPartials, same.outpointToInscriptionOffsets]
      have sameLoad : parsed.cache.loadTokensData env right.db =
          parsed.cache.loadTokensData env left.db := by
        simp only [TokenCache.loadTokensData, DB.loadTokenAccounts, same.tokenToMeta,
          same.addressTokenToBalance]
      obtain ⟨other, processed⟩ := processTokenActions_other right.holders processing
      rw [← sameLoad] at processed
      refine ⟨_, .full begun several sameParse processed, ?_⟩
      simp only [applyAll, prevoutsData, tokensData, ProcessedData.apply, ProcessedData.writes,
        List.foldl_cons, List.foldl_nil, sameCache, same.lastHistoryId]
      exact {
        tokenToMeta := by simp only [same.tokenToMeta]
        addressTokenToBalance := by simp only [same.addressTokenToBalance]
        addressLocationToTransfer := by simp only [same.addressLocationToTransfer]
        addressTokenToHistory := by simp only [same.addressTokenToHistory]
        tokenIdToEvent := by simp only [same.tokenIdToEvent]
        blockEvents := by simp only [same.blockEvents]
        lastHistoryId := rfl
        outpointToPartials := by simp only [same.outpointToPartials]
        outpointToInscriptionOffsets := by simp only [same.outpointToInscriptionOffsets]
        blockInfo := by simp only [same.blockInfo] }

theorem ValidBlock.spent_known (valid : ValidBlock env chain.utxo chain.txids block)
    {prevouts : Table OutPoint TxPrevout} (holds : HoldsUnspent env prevouts chain)
    {key : OutPoint} (listed : key ∈ spentOutpoints block) :
    prevouts.get key ≠ none ∨ (createdPrevouts env block).get key ≠ none := by
  obtain ⟨coinbase, rest, shape, first, others⟩ := valid.shape
  rw [spentOutpoints_eq, shape, List.flatMap_cons, Tx.spent, if_pos first, List.nil_append,
    List.mem_flatMap] at listed
  obtain ⟨tx, member, spends⟩ := listed
  obtain ⟨past, future, split, validTx⟩ := others.at_mem member
  obtain ⟨output, present, spendable⟩ := validTx.spent_present spends
  have stored : storedOutput env output ≠ none := by
    rw [storedOutput, spendable]
    exact Option.some_ne_none _
  rcases applyTxs_get present with old | ⟨other, earlier, made⟩
  · refine Or.inl ?_
    rw [holds key, old]
    exact stored
  · refine Or.inr ?_
    obtain ⟨own, place⟩ := created_iff.mp made
    have inBlock : other ∈ block.txs := by
      rw [shape, split]
      exact List.mem_cons_of_mem _ (List.mem_append_left _ earlier)
    obtain ⟨txid, vout⟩ := key
    dsimp only at own
    subst own
    rw [get_createdPrevouts valid.distinct inBlock place spendable]
    exact Option.some_ne_none _

end Block

/-- The transactions of the block are those that their ids name, and it spends no two transfers in
one output. -/
def DeterminedBlock (env : Env) (outputs : Txid → List EvaluatedTxOut) (db : DB) (height : Nat)
    (block : Block) : Prop :=
  (∀ tx ∈ block.txs, tx.outputs = outputs tx.hash) ∧ LoneTransfers env db height block

def Determined (env : Env) (outputs : Txid → List EvaluatedTxOut) (process : Process) :
    Event → Prop
  | .block height block _ => DeterminedBlock env outputs process.db height block
  | .restore _ | .restart => True

def namedOutput (env : Env) (outputs : Txid → List EvaluatedTxOut) (key : OutPoint) :
    Option TxPrevout :=
  ((outputs key.txid)[key.vout]?).bind (storedOutput env)

/-- A table with the outputs of another one; what else it has is what the outpoints name. -/
def LeftOver (env : Env) (outputs : Txid → List EvaluatedTxOut)
    (left right : Table OutPoint TxPrevout) : Prop :=
  ∀ key, right.get key = left.get key ∨
    left.get key = none ∧ right.get key = namedOutput env outputs key

structure Contains (env : Env) (outputs : Txid → List EvaluatedTxOut) (left right : DB) : Prop
    extends SameLedger left right where
  prevouts : LeftOver env outputs left.prevouts right.prevouts

section Outputs

variable {env : Env} {outputs : Txid → List EvaluatedTxOut} {server : Server} {height : Nat}
  {block : Block} {chain : Chain} {handled : Handled}

namespace LeftOver

variable {left right other : Table OutPoint TxPrevout}

theorem refl (table : Table OutPoint TxPrevout) : LeftOver env outputs table table :=
  fun _ => Or.inl rfl

theorem trans (first : LeftOver env outputs left right) (second : LeftOver env outputs right other) :
    LeftOver env outputs left other := by
  intro key
  rcases second key with same | ⟨absent, named⟩
  · rw [same]
    exact first key
  · rcases first key with same | ⟨none, _⟩
    · exact Or.inr ⟨same ▸ absent, named⟩
    · exact Or.inr ⟨none, named⟩

theorem kept (leftOver : LeftOver env outputs left right) {key : OutPoint} {prevout : TxPrevout}
    (found : left.get key = some prevout) : right.get key = some prevout := by
  rcases leftOver key with same | ⟨absent, _⟩
  · rw [same, found]
  · rw [found] at absent
    cases absent

theorem extend (leftOver : LeftOver env outputs left right) (batch : Table OutPoint TxPrevout) :
    LeftOver env outputs (left.extend batch) (right.extend batch) := by
  intro key
  rw [Table.get_extend, Table.get_extend]
  cases batch.get key with
  | none => simpa using leftOver key
  | some prevout => exact Or.inl rfl

theorem removeBatch (leftOver : LeftOver env outputs left right) (removed : Finset OutPoint) :
    LeftOver env outputs (left.removeBatch removed) (right.removeBatch removed) := by
  intro key
  rw [Table.get_removeBatch, Table.get_removeBatch]
  split
  · exact Or.inl rfl
  · exact leftOver key

theorem undone (leftOver : LeftOver env outputs left right) (block : ReorgHistoryBlock) :
    LeftOver env outputs (undonePrevouts block left) (undonePrevouts block right) := by
  unfold undonePrevouts
  induction block.ordinalsHistory with
  | nil => exact leftOver
  | cons entry rest ih =>
      cases entry with
      | restorePrevouts items => exact ih.extend items
      | restoreOffsets | removeOffsets | restorePartial | removePartials => exact ih

end LeftOver

theorem Contains.restores {inv : DB → Chain → Prop}
    (kept : ∀ {left right chain}, Contains env outputs left right → inv left chain →
      inv right chain) : Restores (Contains env outputs) inv where
  ledger contains := contains.toSameLedger
  undo contains block height := {
    toSameLedger := contains.toSameLedger.undo block height
    prevouts := by
      rw [undo_prevouts, undo_prevouts]
      exact contains.prevouts.undone block }
  kept := kept

theorem Contains.trans {left right other : DB} (first : Contains env outputs left right)
    (second : Contains env outputs right other) : Contains env outputs left other where
  toSameLedger := first.toSameLedger.trans second.toSameLedger
  prevouts := first.prevouts.trans second.prevouts

theorem created_named (named : ∀ tx ∈ block.txs, tx.outputs = outputs tx.hash) {key : OutPoint}
    {prevout : TxPrevout} (created : (createdPrevouts env block).get key = some prevout) :
    namedOutput env outputs key = some prevout := by
  obtain ⟨tx, listed, output, own, present, stored⟩ := createdPrevouts_origin created
  rw [namedOutput, own, ← named tx listed, present]
  exact stored

theorem LeftOver.created {base stored : Table OutPoint TxPrevout}
    (leftOver : LeftOver env outputs base stored)
    (holds : HoldsUnspent env base chain) (valid : ValidBlock env chain.utxo chain.txids block)
    (named : ∀ tx ∈ block.txs, tx.outputs = outputs tx.hash) {key : OutPoint} {prevout : TxPrevout}
    (created : (createdPrevouts env block).get key = some prevout) :
    base.get key = none ∧ (stored.get key = none ∨ stored.get key = some prevout) := by
  have absent : base.get key = none := by
    rw [holds key, Table.get_eq_none_iff.mpr]
    · rfl
    · exact fun member => valid.txids_disjoint (createdPrevouts_txid created)
        (Chain.utxo_txid member)
  refine ⟨absent, ?_⟩
  rcases leftOver key with same | ⟨_, old⟩
  · exact Or.inl (same.trans absent)
  · exact Or.inr (old.trans (created_named named created))

theorem undonePrevouts_saved (result : HandledBlock env server height block handled) :
    undonePrevouts (entriesOf handled.processed server.db)
      (applyAll handled.processed server.db).prevouts =
        (applyAll handled.processed server.db).prevouts.extend
          (.collect (spentOutpoints block).toFinset (prevoutOf env server.db block)) := by
  cases result with
  | early | empty | full => rfl

theorem undone_contains (result : HandledBlock env server height block handled)
    (ledger : SameLedger ((entriesOf handled.processed server.db).undo height
      (applyAll handled.processed server.db)) server.db)
    (stays : ∀ key prevout, (createdPrevouts env block).get key = some prevout →
      server.db.prevouts.get key = none ∨ server.db.prevouts.get key = some prevout)
    (named : ∀ tx ∈ block.txs, tx.outputs = outputs tx.hash) :
    Contains env outputs server.db ((entriesOf handled.processed server.db).undo height
      (applyAll handled.processed server.db)) := by
  refine { toSameLedger := ledger.symm, prevouts := ?_ }
  intro key
  rw [undo_prevouts, undonePrevouts_saved result, prevouts_handled result, Table.get_extend,
    Table.get_collect, Table.get_removeBatch, Table.get_extend, prevoutOf]
  cases created : (createdPrevouts env block).get key with
  | none => split <;> simp
  | some prevout =>
      have known := created_named named created
      rcases stays key prevout created with absent | present
      · split <;> simp [absent, known]
      · split <;> simp [present]

/-- The database contains what the blocks of the chain leave when an indexer with the environment
`other` handles them in order. -/
def Direct (env other : Env) (outputs : Txid → List EvaluatedTxOut) (db : DB) (chain : Chain) :
    Prop :=
  ∃ base, indexChain other chain = .ok base ∧ HoldsUnspent env base.prevouts chain ∧
    Contains env outputs base db

theorem direct_restores {other : Env} :
    Restores (Contains env outputs) (Direct env other outputs) :=
  Contains.restores fun contains ⟨base, indexed, holds, direct⟩ =>
    ⟨base, indexed, holds, direct.trans contains⟩

variable {iterate : OutPoint → Finset Nat → List Nat}
  (nodup : ∀ outpoint offsets, (iterate outpoint offsets).Nodup)
  (mem : ∀ outpoint offsets offset, offset ∈ iterate outpoint offsets ↔ offset ∈ offsets)

theorem direct_handled (handling : handleBlock env server height block = .ok handled)
    (direct : Direct env (env.reordered iterate nodup mem) outputs server.db chain)
    (valid : ValidBlock env chain.utxo chain.txids block)
    (named : ∀ tx ∈ block.txs, tx.outputs = outputs tx.hash)
    (lone : LoneTransfers env server.db height block) :
    Direct env (env.reordered iterate nodup mem) outputs (applyAll handled.processed server.db)
      ((height, block) :: chain) := by
  obtain ⟨base, indexed, holds, contains⟩ := direct
  obtain ⟨found, result⟩ := handleBlock_ok.mp handling
  have spent : ∀ key ∈ spentOutpoints block,
      prevoutOf env server.db block key = prevoutOf env base block key := by
    intro key listed
    rw [prevoutOf, prevoutOf]
    rcases contains.prevouts key with same | ⟨absent, _⟩
    · rw [same]
    · cases created : (createdPrevouts env block).get key with
      | none =>
          rcases valid.spent_known holds listed with stored | own
          · exact absurd absent stored
          · exact absurd created own
      | some prevout =>
          obtain ⟨_, none | again⟩ := contains.prevouts.created holds valid named created
          · rw [none, absent]
          · rw [again, absent]
            rfl
  let fresh : Server := { db := base }
  have same : SameLedger server.db fresh.db := contains.toSameLedger.symm
  obtain ⟨again, handledAgain, ledger⟩ := handled_congr result same spent
  refine ⟨applyAll again.processed base, ?_, ?_, ?_⟩
  · refine indexChain_cons.mpr ⟨base, again, indexed, ?_, rfl⟩
    rw [show handleBlock (env.reordered iterate nodup mem) { db := base } height block = _ from
      handleBlock_reordered nodup mem (lone.congr same spent)]
    refine handleBlock_ok.mpr ⟨?_, handledAgain⟩
    intro key listed
    rw [← spent key listed]
    exact found key listed
  · rw [show (applyAll again.processed base).prevouts = _ from prevouts_handled handledAgain]
    exact unspent_handled valid holds
  · refine { toSameLedger := ledger.symm, prevouts := ?_ }
    rw [prevouts_handled result,
      show (applyAll again.processed base).prevouts = _ from prevouts_handled handledAgain]
    exact (contains.prevouts.extend _).removeBatch _

theorem reachable_direct {process : Process}
    (reached : Reachable env (Determined env outputs) process) :
    Sound (Direct env (env.reordered iterate nodup mem) outputs) process := by
  have start : Direct env (env.reordered iterate nodup mem) outputs {} [] := by
    refine ⟨{}, rfl, fun _ => rfl, { toSameLedger := .refl _, prevouts := .refl _ }⟩
  refine reachable_restored direct_restores start ?_ reached
  intro process height new handleReorgs handled sound valid determined handling
  obtain ⟨named, lone⟩ := determined
  refine ⟨direct_handled nodup mem handling sound.holds valid.2 named lone, ?_⟩
  obtain ⟨base, _, holds, contains⟩ := sound.holds
  have result := handleBlock_handled handling
  have ledger := undo_handled result sound.placed valid.1 fun txid own =>
    valid.2.txids_disjoint own
  exact undone_contains result ledger
    (fun key prevout created => (contains.prevouts.created holds valid.2 named created).2) named

/-- In every run the ledger is a function of the applied chain: it is the one that the blocks of
the chain leave when they are handled in order, whichever order the offsets of an output are
iterated in then, and every unspent output is stored. -/
theorem ledger_direct {process : Process}
    (reached : Reachable env (Determined env outputs) process) :
    (∃ base, indexChain (env.reordered iterate nodup mem) process.chain = .ok base ∧
      SameLedger base process.db) ∧
      ∀ key prevout, (process.chain.utxo.get key).bind (storedOutput env) = some prevout →
        process.db.prevouts.get key = some prevout := by
  obtain ⟨base, indexed, holds, contains⟩ := (reachable_direct nodup mem reached).holds
  refine ⟨⟨base, indexed, contains.toSameLedger⟩, ?_⟩
  intro key prevout unspent
  rw [← holds] at unspent
  exact contains.prevouts.kept unspent

/-- What a run leaves in the table is enough to follow the offsets through the next block. -/
theorem reachable_knows {process : Process}
    (reached : Reachable env (Determined env outputs) process)
    (valid : ValidBlock env process.chain.utxo process.chain.txids block)
    (named : ∀ tx ∈ block.txs, tx.outputs = outputs tx.hash) :
    KnowsUnspent env process.db.prevouts process.chain block where
  unspent := (ledger_direct env.iterate_nodup env.mem_iterate reached).2
  created outpoint prevout created := by
    obtain ⟨base, _, holds, contains⟩ :=
      (reachable_direct env.iterate_nodup env.mem_iterate reached).holds
    exact (contains.prevouts.created holds valid named created).2

end Outputs

instance (env : Env) (outputs : Txid → List EvaluatedTxOut) (db : DB) (height : Nat)
    (block : Block) : Decidable (DeterminedBlock env outputs db height block) :=
  inferInstanceAs (Decidable
    ((∀ tx ∈ block.txs, tx.outputs = outputs tx.hash) ∧ LoneTransfers env db height block))

instance (env : Env) (outputs : Txid → List EvaluatedTxOut) (process : Process) (event : Event) :
    Decidable (Determined env outputs process event) :=
  match event with
  | .block height block _ =>
      inferInstanceAs (Decidable (DeterminedBlock env outputs process.db height block))
  | .restore _ => inferInstanceAs (Decidable True)
  | .restart => inferInstanceAs (Decidable True)

theorem wojak_direct : ∃ process,
    Reachable Sample.env (Determined Sample.env fun _ => [Sample.pay Sample.sender 50]) process ∧
      process.chain.length = 3 ∧
      (∃ base, indexChain Sample.env.backwards process.chain = .ok base ∧
        SameLedger base process.db) ∧
      ∀ key prevout, (process.chain.utxo.get key).bind (storedOutput Sample.env) = some prevout →
        process.db.prevouts.get key = some prevout := by
  obtain ⟨process, reached, chain⟩ : ∃ process,
      Reachable Sample.env (Determined Sample.env fun _ => [Sample.pay Sample.sender 50]) process ∧
      process.chain.length = 3 :=
    replay_any (Sample.lockWojak ++ [.restore 1,
      .block 2 { Sample.inscribeWojak with
        txs := Sample.inscribeWojak.txs.modify 0 fun coinbase => { coinbase with hash := 6 } } true,
      .restart,
      .block 3 (Sample.block 103 [Sample.coinbase 4 [Sample.pay Sample.sender 50], {
        hash := 5
        inputs := [Sample.spend 3 0 []]
        outputs := [Sample.pay Sample.sender 50] }]) true]) (by decide +kernel)
  exact ⟨process, reached, chain, ledger_direct _ _ reached⟩

end WjkIndexer
