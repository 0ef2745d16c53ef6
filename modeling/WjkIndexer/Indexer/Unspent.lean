import WjkIndexer.Chain.Spent
import WjkIndexer.Reorg.Exact

/-!
The table of outputs against the unspent outputs of the chain: blocks keep them equal, and
so do restores of blocks that create no output that can be spent.
-/

namespace WjkIndexer

open FiniteTable

theorem spentOutpoints_eq (block : Block) : spentOutpoints block = block.txs.flatMap Tx.spent := by
  unfold spentOutpoints
  induction block.txs with
  | nil => rfl
  | cons tx rest ih =>
      rw [List.filter_cons, List.flatMap_cons, Tx.spent, ← ih]
      cases tx.isCoinbase <;> rfl

def storedOutput (env : Env) (output : EvaluatedTxOut) : Option TxPrevout :=
  if env.isProvablyUnspendable output.scriptPubkey then none
  else some ⟨env.computeScriptHash output.scriptPubkey, output.value⟩

def HoldsUnspent (env : Env) (prevouts : Table OutPoint TxPrevout) (chain : Chain) : Prop :=
  ∀ outpoint, prevouts.get outpoint = (chain.utxo.get outpoint).bind (storedOutput env)

/-- Every spendable unspent output is stored, and nothing else under an output of the block. -/
structure KnowsUnspent (env : Env) (prevouts : Table OutPoint TxPrevout) (chain : Chain)
    (block : Block) : Prop where
  unspent : ∀ outpoint prevout, (chain.utxo.get outpoint).bind (storedOutput env) = some prevout →
    prevouts.get outpoint = some prevout
  created : ∀ outpoint prevout, (createdPrevouts env block).get outpoint = some prevout →
    prevouts.get outpoint = none ∨ prevouts.get outpoint = some prevout

theorem HoldsUnspent.knows {env : Env} {prevouts : Table OutPoint TxPrevout} {chain : Chain}
    {block : Block} (holds : HoldsUnspent env prevouts chain)
    (valid : ValidBlock env chain.utxo chain.txids block) :
    KnowsUnspent env prevouts chain block where
  unspent outpoint prevout stored := (holds outpoint).trans stored
  created outpoint prevout created := by
    refine Or.inl ?_
    rw [holds outpoint, Table.get_eq_none_iff.mpr]
    · rfl
    · exact fun member => valid.txids_disjoint (createdPrevouts_txid created)
        (Chain.utxo_txid member)

section Block

variable {env : Env} {server : Server} {height : Nat} {block : Block} {chain : Chain}
  {handled : Handled}

theorem prevouts_handled (result : HandledBlock env server height block handled) :
    (applyAll handled.processed server.db).prevouts =
      (server.db.prevouts.extend (createdPrevouts env block)).removeBatch
        (spentOutpoints block).toFinset := by
  cases result with
  | early | empty | full =>
      simp only [applyAll, prevoutsData, tokensData, ProcessedData.apply, ProcessedData.writes,
        List.foldl_cons, List.foldl_nil]

theorem get_createdPrevouts (distinct : (block.txs.map Tx.hash).Nodup) {tx : Tx}
    (listed : tx ∈ block.txs) {vout : Nat} {output : EvaluatedTxOut}
    (present : tx.outputs[vout]? = some output)
    (spendable : env.isProvablyUnspendable output.scriptPubkey = false) :
    (createdPrevouts env block).get ⟨tx.hash, vout⟩ =
      some ⟨env.computeScriptHash output.scriptPubkey, output.value⟩ := by
  refine Table.get_extendList_unique ?_ ?_ _
  · refine List.mem_map.mpr ⟨(⟨tx.hash, vout⟩, output), List.mem_filter.mpr ⟨?_, ?_⟩, rfl⟩
    · exact List.mem_flatMap.mpr ⟨tx, listed, mem_created.mpr present⟩
    · rw [spendable]
      rfl
  · intro other member
    obtain ⟨⟨key, found⟩, kept, same⟩ := List.mem_map.mp member
    obtain ⟨maker, makes, made⟩ := List.mem_flatMap.mp (List.mem_filter.mp kept).1
    rw [Prod.mk.injEq] at same
    obtain ⟨rfl, rfl⟩ := same
    obtain ⟨own, foundThere⟩ := created_iff.mp made
    -- transactions of a block have different hashes
    obtain rfl := List.inj_on_of_nodup_map distinct listed makes own
    rw [present] at foundThere
    cases foundThere
    rfl

theorem createdPrevouts_origin {outpoint : OutPoint} {prevout : TxPrevout}
    (created : (createdPrevouts env block).get outpoint = some prevout) :
    ∃ tx ∈ block.txs, ∃ output, outpoint.txid = tx.hash ∧
      tx.outputs[outpoint.vout]? = some output ∧ storedOutput env output = some prevout := by
  have listed := Table.mem_keys_extendList (Table.mem_keys_iff.mpr ⟨prevout, created⟩)
  rcases listed with none | listed
  · cases none
  obtain ⟨⟨key, output⟩, kept, same⟩ :=
    List.mem_map.mp (Table.mem_of_get_extendList listed created)
  rw [Prod.mk.injEq] at same
  obtain ⟨rfl, rfl⟩ := same
  obtain ⟨made, spendable⟩ := List.mem_filter.mp kept
  obtain ⟨tx, present, makes⟩ := List.mem_flatMap.mp made
  obtain ⟨own, found⟩ := created_iff.mp makes
  refine ⟨tx, present, output, own, found, ?_⟩
  rw [storedOutput, if_neg]
  rw [Bool.not_eq_true'] at spendable
  rw [spendable]
  decide

theorem get_created_unspent (valid : ValidBlock env chain.utxo chain.txids block)
    {outpoint : OutPoint} (own : outpoint.txid ∈ block.txids)
    (unspent : outpoint ∉ block.txs.flatMap Tx.spent) :
    (createdPrevouts env block).get outpoint =
      ((chain.utxo.applyBlock block).get outpoint).bind (storedOutput env) := by
  have old : ∀ key ∈ chain.utxo.keys, key.txid ∈ chain.txids := fun _ => Chain.utxo_txid
  apply Option.ext
  intro prevout
  rw [Option.bind_eq_some_iff]
  obtain ⟨txid, vout⟩ := outpoint
  constructor
  · intro created
    obtain ⟨tx, listed, output, rfl, present, stored⟩ := createdPrevouts_origin created
    exact ⟨output, valid.get_created old listed present unspent, stored⟩
  · rintro ⟨output, found, stored⟩
    rcases applyBlock_origin (Table.mem_keys_iff.mpr ⟨output, found⟩) with
      earlier | ⟨tx, listed, made, rfl, present⟩
    · exact absurd (old _ earlier) (valid.txids_disjoint own)
    · rw [valid.get_created old listed present unspent, Option.some.injEq] at found
      subst found
      unfold storedOutput at stored
      split at stored
      · cases stored
      · rename_i spendable
        rw [← stored]
        exact get_createdPrevouts valid.distinct listed present
          (Bool.eq_false_of_not_eq_true spendable)

theorem unspent_handled (valid : ValidBlock env chain.utxo chain.txids block)
    {prevouts : Table OutPoint TxPrevout} (holds : HoldsUnspent env prevouts chain) :
    HoldsUnspent env ((prevouts.extend (createdPrevouts env block)).removeBatch
      (spentOutpoints block).toFinset) ((height, block) :: chain) := by
  intro outpoint
  have old : ∀ key ∈ chain.utxo.keys, key.txid ∈ chain.txids := fun _ => Chain.utxo_txid
  have listed : outpoint ∈ (spentOutpoints block).toFinset ↔
      outpoint ∈ block.txs.flatMap Tx.spent := by
    rw [List.mem_toFinset, spentOutpoints_eq]
  rw [Table.get_removeBatch, Table.get_extend, Chain.utxo_cons]
  by_cases spends : outpoint ∈ block.txs.flatMap Tx.spent
  · rw [if_pos (listed.mpr spends), valid.spent_gone old spends]
    rfl
  rw [if_neg (mt listed.mp spends)]
  by_cases own : outpoint.txid ∈ block.txids
  · have vacant : chain.utxo.get outpoint = none := by
      apply Table.get_eq_none_iff.mpr
      exact fun member => valid.txids_disjoint own (old outpoint member)
    rw [holds outpoint, vacant, Option.bind_none, Option.or_none]
    exact get_created_unspent valid own spends
  · have foreign : (createdPrevouts env block).get outpoint = none := by
      apply Option.eq_none_iff_forall_ne_some.mpr
      exact fun prevout created => own (createdPrevouts_txid created)
    rw [valid.get_applyBlock own, if_neg spends, holds outpoint, foreign, Option.none_or]

end Block

/-! Restores. -/

def undonePrevouts (block : ReorgHistoryBlock) (prevouts : Table OutPoint TxPrevout) :
    Table OutPoint TxPrevout :=
  block.ordinalsHistory.foldr (fun entry prevouts =>
    match entry with
    | .restorePrevouts items => prevouts.extend items
    | _ => prevouts) prevouts

theorem undo_prevouts (block : ReorgHistoryBlock) (height : Nat) (db : DB) :
    (block.undo height db).prevouts = undonePrevouts block db.prevouts := by
  have tokens : ∀ (entries : List TokenHistoryEntry) (db : DB),
      (entries.foldr (fun entry db => entry.proceed db) db).prevouts = db.prevouts := by
    intro entries db
    induction entries with
    | nil => rfl
    | cons entry rest ih => cases entry <;> exact ih
  have ordinals : ∀ (entries : List OrdinalsEntry) (db : DB),
      (entries.foldr (fun entry db => entry.proceed db) db).prevouts =
        undonePrevouts { ordinalsHistory := entries } db.prevouts := by
    intro entries db
    induction entries with
    | nil => rfl
    | cons entry rest ih =>
        cases entry with
        | restorePrevouts items => exact congrArg (Table.extend · items) ih
        | restoreOffsets | removeOffsets | restorePartial | removePartials => exact ih
  rw [ReorgHistoryBlock.undo, ordinals, tokens]
  rfl

theorem undonePrevouts_handled {env : Env} {server : Server} {height : Nat} {block : Block}
    {handled : Handled} (result : HandledBlock env server height block handled)
    (none : createdPrevouts env block = ∅) :
    undonePrevouts (entriesOf handled.processed server.db)
      (applyAll handled.processed server.db).prevouts = server.db.prevouts := by
  have saved : undonePrevouts (entriesOf handled.processed server.db)
      (applyAll handled.processed server.db).prevouts =
        (applyAll handled.processed server.db).prevouts.extend
          (.collect (spentOutpoints block).toFinset (prevoutOf env server.db block)) := by
    cases result with
    | early | empty | full => rfl
  have restored : Table.collect (spentOutpoints block).toFinset (prevoutOf env server.db block) =
      server.db.prevouts.restrict (spentOutpoints block).toFinset := by
    apply Table.ext
    intro key
    rw [Table.get_collect, Table.get_restrict, prevoutOf, none, Table.get_empty, Option.or_none]
  have unchanged : server.db.prevouts.extend ∅ = server.db.prevouts := by
    apply Table.ext
    intro key
    rw [Table.get_extend, Table.get_empty, Option.none_or]
  rw [saved, restored, prevouts_handled result, none, unchanged, Table.undo_removeBatch]

/-- Undoing the cached blocks one by one keeps the table of outputs right for the rest of the
chain, as long as the undone blocks create no output that can be spent. -/
def Unspendable (env : Env) :
    List (Nat × ReorgHistoryBlock) → Table OutPoint TxPrevout → Chain → Prop
  | [], _, _ => True
  | (height, entries) :: lower, prevouts, chain =>
      ∃ block rest, chain = (height, block) :: rest ∧ (createdPrevouts env block = ∅ →
        HoldsUnspent env (undonePrevouts entries prevouts) rest ∧
          Unspendable env lower (undonePrevouts entries prevouts) rest)

theorem Unspendable.dropLast {env : Env} {blocks : List (Nat × ReorgHistoryBlock)}
    {prevouts : Table OutPoint TxPrevout} {chain : Chain}
    (unspendable : Unspendable env blocks prevouts chain) :
    Unspendable env blocks.dropLast prevouts chain := by
  induction blocks generalizing prevouts chain with
  | nil => trivial
  | cons entry lower ih =>
      cases lower with
      | nil => trivial
      | cons next deeper =>
          obtain ⟨block, rest, shape, undone⟩ := unspendable
          exact ⟨block, rest, shape, fun none => ⟨(undone none).1, ih (undone none).2⟩⟩

theorem Unspendable.restore {env : Env} {blocks : List (Nat × ReorgHistoryBlock)} {db : DB}
    {chain : Chain} {target : Nat} (unspendable : Unspendable env blocks db.prevouts chain)
    (holds : HoldsUnspent env db.prevouts chain)
    (none : ∀ entry ∈ chain, target < entry.1 → entry.1 ∈ blocks.map Prod.fst →
      createdPrevouts env entry.2 = ∅) :
    HoldsUnspent env (ReorgCache.restoreBlocks target blocks db).2.prevouts
        (chain.drop (blocks.length - (ReorgCache.restoreBlocks target blocks db).1.length)) ∧
      Unspendable env (ReorgCache.restoreBlocks target blocks db).1
        (ReorgCache.restoreBlocks target blocks db).2.prevouts
        (chain.drop (blocks.length - (ReorgCache.restoreBlocks target blocks db).1.length)) := by
  induction blocks generalizing db chain with
  | nil => exact ⟨by simpa [ReorgCache.restoreBlocks] using holds, trivial⟩
  | cons entry lower ih =>
      obtain ⟨height, entries⟩ := entry
      rw [ReorgCache.restoreBlocks]
      split
      · rename_i above
        obtain ⟨block, rest, rfl, undone⟩ := unspendable
        obtain ⟨unspent, deeper⟩ := undone (none _ List.mem_cons_self above (by simp))
        have shorter := ReorgCache.length_restoreBlocks target lower (entries.undo height db)
        rw [← undo_prevouts entries height] at unspent deeper
        rw [List.length_cons, Nat.succ_sub shorter, List.drop_succ_cons]
        exact ih deeper unspent fun entry listed high cached =>
          none entry (List.mem_cons_of_mem _ listed) high (List.mem_cons_of_mem _ cached)
      · simpa using ⟨holds, unspendable⟩

def ForgetsNothing (env : Env) (process : Process) : Event → Prop
  | .restore target => ∀ entry ∈ process.chain, target < entry.1 →
      entry.1 ∈ process.reorgCache.blocks.map Prod.fst → createdPrevouts env entry.2 = ∅
  | _ => True

theorem reachable_unspent {env : Env} {process : Process}
    (reached : Reachable env (ForgetsNothing env) process) :
    HoldsUnspent env process.db.prevouts process.chain ∧
      Unspendable env process.reorgCache.blocks process.db.prevouts process.chain := by
  induction reached with
  | start => exact ⟨fun _ => rfl, trivial⟩
  | @step process next event reached valid permitted stepped ih =>
      obtain ⟨holds, unspendable⟩ := ih
      cases event with
      | block height new handleReorgs =>
          have sound := reachable_sound always_ofLedger trivial
            (fun _ _ _ _ _ _ _ _ _ => trivial) reached
          obtain ⟨handled, handling, server, chain, _, cached⟩ :=
            step_block stepped (sound.below valid.1)
          have result := handleBlock_handled handling
          have db : next.db = applyAll handled.processed process.db := by rw [Process.db, server]
          have moved := prevouts_handled result
          refine ⟨?_, ?_⟩
          · rw [db, chain, show (applyAll handled.processed process.db).prevouts = _ from moved]
            exact unspent_handled valid.2 holds
          · rw [cached, chain, db]
            split
            · refine ⟨new, process.chain, rfl, ?_⟩
              intro none
              have undone : undonePrevouts (entriesOf handled.processed process.db)
                  (applyAll handled.processed process.db).prevouts = process.db.prevouts :=
                undonePrevouts_handled result none
              rw [undone]
              refine ⟨holds, ?_⟩
              unfold ReorgCache.kept
              split
              · exact unspendable.dropLast
              · exact unspendable
            · trivial
      | restore target =>
          cases stepped
          exact unspendable.restore holds permitted
      | restart =>
          cases stepped
          exact ⟨holds, trivial⟩

/-- In every run whose restores undo no block that creates an output that can be spent, the
table of outputs is the set of the chain's unspent outputs that can be spent. -/
theorem prevouts_unspent {env : Env} {process : Process}
    (reached : Reachable env (ForgetsNothing env) process) :
    HoldsUnspent env process.db.prevouts process.chain := by
  obtain ⟨holds, _⟩ := reachable_unspent reached
  exact holds

instance (env : Env) (process : Process) (event : Event) :
    Decidable (ForgetsNothing env process event) :=
  match event with
  | .restore target => inferInstanceAs (Decidable (∀ entry ∈ process.chain, target < entry.1 →
      entry.1 ∈ process.reorgCache.blocks.map Prod.fst → createdPrevouts env entry.2 = ∅))
  | .block .. => inferInstanceAs (Decidable True)
  | .restart => inferInstanceAs (Decidable True)

namespace Sample

def burnAll : Block :=
  block 102 [coinbase 2 [pay [0x6a] 50], {
    hash := 3
    inputs := [spend 1 0 []]
    outputs := [pay [0x6a] 50] }]

end Sample

theorem wojak_unspent :
    ∃ process, Reachable Sample.env (ForgetsNothing Sample.env) process ∧
      process.chain.length = 1 ∧ process.reorgCache.blocks.length = 1 ∧
      HoldsUnspent Sample.env process.db.prevouts process.chain := by
  obtain ⟨process, reached, chain, cached⟩ : ∃ process,
      Reachable Sample.env (ForgetsNothing Sample.env) process ∧
      process.chain.length = 1 ∧ process.reorgCache.blocks.length = 1 :=
    replay_any [.block 1 Sample.payWojak true, .block 2 Sample.burnAll true, .restore 1]
      (by decide +kernel)
  exact ⟨process, reached, chain, cached, prevouts_unspent reached⟩

/-- The outputs of an undone block stay. -/
theorem wojak_left_behind :
    ∃ process, Reachable Sample.env (fun _ _ => True) process ∧
      ¬ HoldsUnspent Sample.env process.db.prevouts process.chain := by
  obtain ⟨process, reached, stale, unknown⟩ : ∃ process,
      Reachable Sample.env (fun _ _ => True) process ∧
      process.db.prevouts.get ⟨3, 0⟩ ≠ none ∧ process.chain.utxo.get ⟨3, 0⟩ = none :=
    replay_any (Sample.lockWojak ++ [.restore 1]) (by decide +kernel)
  refine ⟨process, reached, fun holds => stale ?_⟩
  rw [holds, unknown, Option.bind_none]

end WjkIndexer
