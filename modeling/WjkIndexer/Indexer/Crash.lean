import WjkIndexer.Indexer.Direct
import WjkIndexer.Indexer.Handled
import WjkIndexer.Indexer.Replay
import WjkIndexer.Reorg.Undo

/-!
A process that stops in the middle of a block's writes and handles the block again. The
spent outputs are deleted by the second write, so that only blocks that spend nothing, and
stops before that write, can be made up for.
-/

namespace WjkIndexer

open FiniteTable TokenCache

def singleWrites (processed : List ProcessedData) : List (DB → DB) :=
  processed.flatMap ProcessedData.writes

def runWrites (writes : List (DB → DB)) (db : DB) : DB :=
  writes.foldl (fun db write => write db) db

/-- The stored state when the process stops after `count` single writes. -/
def stoppedAfter (count : Nat) (processed : List ProcessedData) (db : DB) : DB :=
  runWrites ((singleWrites processed).take count) db

def restarted (db : DB) : Server := { db, holders := Holders.init db.addressTokenToBalance }

structure SameContents (left right : DB) : Prop where
  prevouts : left.prevouts = right.prevouts
  offsets : left.outpointToInscriptionOffsets = right.outpointToInscriptionOffsets
  partials : left.outpointToPartials = right.outpointToPartials
  tokenToMeta : left.tokenToMeta = right.tokenToMeta
  addressTokenToBalance : left.addressTokenToBalance = right.addressTokenToBalance
  addressLocationToTransfer : left.addressLocationToTransfer = right.addressLocationToTransfer
  lastHistoryId : left.lastHistoryId = right.lastHistoryId
  proofOfHistory : left.proofOfHistory = right.proofOfHistory

theorem SameContents.refl (db : DB) : SameContents db db where
  prevouts := rfl
  offsets := rfl
  partials := rfl
  tokenToMeta := rfl
  addressTokenToBalance := rfl
  addressLocationToTransfer := rfl
  lastHistoryId := rfl
  proofOfHistory := rfl

theorem applyAll_eq (processed : List ProcessedData) (db : DB) :
    applyAll processed db = runWrites (singleWrites processed) db := by
  induction processed generalizing db with
  | nil => rfl
  | cons data rest ih =>
      rw [applyAll, List.foldl_cons, singleWrites, List.flatMap_cons, runWrites, List.foldl_append]
      exact ih (data.apply db)

theorem runWrites_induction (inv : DB → Prop) (writes : List (DB → DB)) {db : DB} (start : inv db)
    (kept : ∀ write ∈ writes, ∀ state, inv state → inv (write state)) :
    inv (runWrites writes db) := by
  induction writes generalizing db with
  | nil => exact start
  | cons write rest ih =>
      exact ih (kept write List.mem_cons_self db start)
        (fun other listed => kept other (List.mem_cons_of_mem _ listed))

variable {env : Env} {server : Server} {height : Nat} {block : Block} {chain : Chain}
  {handled : Handled}

theorem handle_of_handled (reorgCache : ReorgCache) (handleReorgs : Bool)
    (handling : handleBlock env server height block = .ok handled) :
    ∃ result, handle env server reorgCache height block handleReorgs = .ok result ∧
      result.1.db = applyAll handled.processed server.db := by
  simp only [handle, Machine.bind_ok]
  exact ⟨_, ⟨handled, handling, rfl⟩, writeAll_db _ _ _⟩

theorem writes_prevouts {data : ProcessedData} (other : ∀ toWrite toRemove,
    data ≠ .prevouts toWrite toRemove) {write : DB → DB} (listed : write ∈ data.writes) (db : DB) :
    (write db).prevouts = db.prevouts := by
  cases data with
  | prevouts toWrite toRemove => exact absurd rfl (other toWrite toRemove)
  | info | fullHash | history | tokens | inscriptionPartials | inscriptionOffset =>
      simp only [ProcessedData.writes, List.mem_cons, List.not_mem_nil, or_false] at listed
      rcases listed with rfl | rfl | rfl | rfl | rfl <;> rfl

def writeCreated (env : Env) (block : Block) (db : DB) : DB :=
  { db with prevouts := db.prevouts.extend (createdPrevouts env block) }

def removeSpent (block : Block) (db : DB) : DB :=
  { db with prevouts := db.prevouts.removeBatch (spentOutpoints block).toFinset }

theorem singleWrites_handled (result : HandledBlock env server height block handled) :
    ∃ rest, singleWrites handled.processed =
        writeCreated env block :: removeSpent block :: rest ∧
      ∀ write ∈ rest, ∀ db : DB, (write db).prevouts = db.prevouts := by
  obtain ⟨others, shape, plain⟩ : ∃ others, handled.processed = prevoutsData env block :: others ∧
      ∀ data ∈ others, ∀ toWrite toRemove, data ≠ .prevouts toWrite toRemove := by
    cases result with
    | early | empty | full =>
        refine ⟨_, rfl, ?_⟩
        intro data listed toWrite toRemove same
        subst same
        simp [tokensData] at listed
  refine ⟨others.flatMap ProcessedData.writes, ?_, ?_⟩
  · rw [singleWrites, shape]
    rfl
  · intro write listed
    obtain ⟨data, member, written⟩ := List.mem_flatMap.mp listed
    exact writes_prevouts (plain data member) written

theorem stopped_missing (result : HandledBlock env server height block handled) {count : Nat}
    (late : 2 ≤ count) {key : OutPoint} (spent : key ∈ spentOutpoints block)
    (foreign : (createdPrevouts env block).get key = none) :
    prevoutOf env (stoppedAfter count handled.processed server.db) block key = none := by
  obtain ⟨rest, shape, plain⟩ := singleWrites_handled result
  obtain ⟨more, rfl⟩ := Nat.exists_eq_add_of_le' late
  have gone : (stoppedAfter (more + 2) handled.processed server.db).prevouts.get key = none := by
    rw [stoppedAfter, shape, List.take_succ_cons, List.take_succ_cons]
    refine runWrites_induction (fun db => db.prevouts.get key = none) (rest.take more) ?_ ?_
    · exact (Table.get_removeBatch _ _ _).trans (if_pos (List.mem_toFinset.mpr spent))
    · intro write listed state absent
      rw [plain write (List.mem_of_mem_take listed)]
      exact absent
  rw [prevoutOf, gone, foreign]
  rfl

theorem refused_missing {db : DB} {key : OutPoint} (spent : key ∈ spentOutpoints block)
    (missing : prevoutOf env db block key = none) (reorgCache : ReorgCache) (handleReorgs : Bool) :
    ∃ lost ∈ spentOutpoints block, handle env (restarted db) reorgCache height block handleReorgs =
      .error (.missingPrevout lost block.header.hash) := by
  obtain ⟨lost, first⟩ : ∃ lost, (spentOutpoints block).find?
      (fun key => (prevoutOf env db block key).isNone) = some lost := by
    rw [← Option.isSome_iff_exists, List.find?_isSome]
    exact ⟨key, spent, by rw [missing]; rfl⟩
  refine ⟨lost, List.mem_of_find?_eq_some first, ?_⟩
  simp only [handle, handleBlock, processPrevouts, restarted, first]
  rfl

theorem handled_other (result : HandledBlock env server height block handled)
    {prevouts : Table OutPoint TxPrevout}
    (same : ∀ key, prevoutOf env { server.db with prevouts } block key =
      prevoutOf env server.db block key) (holders : Holders) :
    ∃ again, HandledBlock env { db := { server.db with prevouts }, holders } height block again ∧
      again.processed = handled.processed := by
  have sameSpent : spentPrevouts env { server.db with prevouts } block =
      spentPrevouts env server.db block := by
    rw [spentPrevouts, spentPrevouts, funext same]
  have sameCache : loadedCache env { server.db with prevouts } block =
      loadedCache env server.db block := by
    rw [loadedCache, sameSpent]
    rfl
  cases result with
  | early before => exact ⟨_, .early before, rfl⟩
  | empty begun alone => exact ⟨_, .empty begun alone, rfl⟩
  | @full begun several parsed done parsing processing =>
      obtain ⟨other, processingOther⟩ := processTokenActions_other holders processing
      have parsingOther : Parser.parseBlock env { server.db with prevouts } height block
          (spentPrevouts env { server.db with prevouts } block)
          (loadedCache env { server.db with prevouts } block) = .ok parsed := by
        rw [sameSpent, sameCache]
        exact parsing
      refine ⟨_, .full begun several parsingOther processingOther, ?_⟩
      simp only [tokensData, sameCache]
      rfl

theorem prevoutOf_created {db : DB}
    (faithful : ∀ key prevout, db.prevouts.get key = some prevout →
      ∀ new, (createdPrevouts env block).get key = some new → prevout = new) (key : OutPoint) :
    prevoutOf env (writeCreated env block db) block key = prevoutOf env db block key := by
  rw [prevoutOf, prevoutOf, writeCreated, Table.get_extend]
  cases stored : db.prevouts.get key with
  | none => cases (createdPrevouts env block).get key <;> rfl
  | some prevout =>
      cases created : (createdPrevouts env block).get key with
      | none => rfl
      | some new => rw [faithful key prevout stored new created]; rfl

theorem writeCreated_twice (db : DB) :
    writeCreated env block (writeCreated env block db) = writeCreated env block db := by
  simp only [writeCreated, Table.extend_extend]

theorem stopped_early (result : HandledBlock env server height block handled)
    (faithful : ∀ key prevout, server.db.prevouts.get key = some prevout →
      ∀ new, (createdPrevouts env block).get key = some new → prevout = new)
    {count : Nat} (early : count ≤ 1) :
    ∃ prevouts, stoppedAfter count handled.processed server.db = { server.db with prevouts } ∧
      (∀ key, prevoutOf env { server.db with prevouts } block key =
        prevoutOf env server.db block key) ∧
      writeCreated env block { server.db with prevouts } = writeCreated env block server.db := by
  obtain ⟨rest, shape, _⟩ := singleWrites_handled result
  rcases Nat.le_one_iff_eq_zero_or_eq_one.mp early with rfl | rfl
  · exact ⟨server.db.prevouts, rfl, fun _ => rfl, rfl⟩
  · refine ⟨server.db.prevouts.extend (createdPrevouts env block), ?_, ?_, ?_⟩
    · rw [stoppedAfter, shape]
      rfl
    · exact prevoutOf_created faithful
    · exact writeCreated_twice server.db

theorem resumed_early (handling : handleBlock env server height block = .ok handled)
    (faithful : ∀ key prevout, server.db.prevouts.get key = some prevout →
      ∀ new, (createdPrevouts env block).get key = some new → prevout = new)
    {count : Nat} (early : count ≤ 1) (holders : Holders) :
    ∃ again, handleBlock env { db := stoppedAfter count handled.processed server.db, holders }
        height block = .ok again ∧
      applyAll again.processed (stoppedAfter count handled.processed server.db) =
        applyAll handled.processed server.db := by
  obtain ⟨found, result⟩ := handleBlock_ok.mp handling
  obtain ⟨rest, shape, _⟩ := singleWrites_handled result
  obtain ⟨prevouts, stopped, same, rewritten⟩ := stopped_early result faithful early
  obtain ⟨again, resumed, sameItems⟩ := handled_other result same holders
  refine ⟨again, ?_, ?_⟩
  · rw [stopped]
    refine handleBlock_ok.mpr ⟨?_, resumed⟩
    intro key spent
    rw [same]
    exact found key spent
  · rw [sameItems, applyAll_eq, applyAll_eq, shape, stopped, runWrites, runWrites,
      List.foldl_cons, List.foldl_cons, rewritten]
    rfl

theorem LoneTransfers.stopped (lone : LoneTransfers env server.db height block)
    (result : HandledBlock env server height block handled)
    (faithful : ∀ key prevout, server.db.prevouts.get key = some prevout →
      ∀ new, (createdPrevouts env block).get key = some new → prevout = new)
    {count : Nat} (resumable : count ≤ 1 ∨ block.txs.length = 1) :
    LoneTransfers env (stoppedAfter count handled.processed server.db) height block := by
  rcases resumable with early | alone
  · obtain ⟨prevouts, stopped, same, _⟩ := stopped_early result faithful early
    rw [stopped]
    exact lone.congr { SameLedger.refl server.db with } fun key _ => (same key).symm
  · exact fun _ several => absurd alone several

structure Halfway (env : Env) (block : Block) (height : Nat) (db state : DB) : Prop where
  prevouts : state.prevouts.extend (createdPrevouts env block) =
    db.prevouts.extend (createdPrevouts env block)
  offsets : state.outpointToInscriptionOffsets = db.outpointToInscriptionOffsets
  partials : state.outpointToPartials = db.outpointToPartials
  tokenToMeta : state.tokenToMeta = db.tokenToMeta
  addressTokenToBalance : state.addressTokenToBalance = db.addressTokenToBalance
  addressLocationToTransfer : state.addressLocationToTransfer = db.addressLocationToTransfer
  lastHistoryId : state.lastHistoryId = db.lastHistoryId
  below : ∀ other, other ≠ height → state.proofOfHistory.get other = db.proofOfHistory.get other
  early : height < env.startHeight → state.proofOfHistory = db.proofOfHistory

namespace Halfway

variable {db state : DB}

theorem start : Halfway env block height db db where
  prevouts := rfl
  offsets := rfl
  partials := rfl
  tokenToMeta := rfl
  addressTokenToBalance := rfl
  addressLocationToTransfer := rfl
  lastHistoryId := rfl
  below _ _ := rfl
  early _ := rfl

theorem outputs (halfway : Halfway env block height db state) (nothing : spentOutpoints block = [])
    {write : DB → DB} (listed : write ∈ (prevoutsData env block).writes) :
    Halfway env block height db (write state) := by
  simp only [prevoutsData, ProcessedData.writes, List.mem_cons, List.not_mem_nil, or_false]
    at listed
  rcases listed with rfl | rfl
  · exact { halfway with prevouts := (Table.extend_extend _ _).trans halfway.prevouts }
  · refine { halfway with prevouts := ?_ }
    rw [nothing]
    dsimp only [List.toFinset_nil]
    rw [Table.removeBatch_empty]
    exact halfway.prevouts

theorem info (halfway : Halfway env block height db state) (begun : env.startHeight ≤ height)
    (blockInfo : BlockInfo) (proof : Hash256) {write : DB → DB}
    (listed : write ∈ (ProcessedData.info height blockInfo proof).writes) :
    Halfway env block height db (write state) := by
  simp only [ProcessedData.writes, List.mem_cons, List.not_mem_nil, or_false] at listed
  rcases listed with rfl | rfl | rfl
  · exact { halfway with }
  · exact { halfway with }
  · refine { halfway with below := ?_, early := fun before => absurd begun (Nat.not_le.mpr before) }
    intro other different
    rw [Table.get_set_ne _ _ different]
    exact halfway.below other different

theorem stopped (result : HandledBlock env server height block handled)
    (nothing : spentOutpoints block = []) (alone : block.txs.length = 1) (count : Nat) :
    Halfway env block height server.db (stoppedAfter count handled.processed server.db) := by
  refine runWrites_induction (Halfway env block height server.db) _ start ?_
  intro write listed state halfway
  obtain ⟨data, member, written⟩ := List.mem_flatMap.mp (List.mem_of_mem_take listed)
  have addresses : data = .fullHash (blockAddresses env block) →
      Halfway env block height server.db (write state) := by
    rintro rfl
    simp only [ProcessedData.writes, List.mem_singleton] at written
    subst written
    exact { halfway with }
  cases result with
  | early before =>
      simp only [List.mem_cons, List.not_mem_nil, or_false] at member
      rcases member with rfl | same
      · exact halfway.outputs nothing written
      · exact addresses same
  | empty begun =>
      simp only [List.mem_cons, List.not_mem_nil, or_false] at member
      rcases member with rfl | same | rfl
      · exact halfway.outputs nothing written
      · exact addresses same
      · exact halfway.info begun _ _ written
  | full begun several => exact absurd alone several

theorem proof (halfway : Halfway env block height db state) (positive : height ≠ 0) :
    blockProof env state height block [] = blockProof env db height block [] := by
  have before := halfway.below (height - 1) (by omega)
  simp only [blockProof, generateHistoryHash, before]
  rfl

end Halfway

theorem resumed_alone (valid : ValidBlock env chain.utxo chain.txids block)
    (alone : block.txs.length = 1) (positive : height ≠ 0)
    (handling : handleBlock env server height block = .ok handled) (count : Nat)
    (holders : Holders) :
    ∃ again, handleBlock env { db := stoppedAfter count handled.processed server.db, holders }
        height block = .ok again ∧
      SameContents (applyAll again.processed (stoppedAfter count handled.processed server.db))
        (applyAll handled.processed server.db) := by
  have nothing := alone_spends valid alone
  have result := handleBlock_handled handling
  have halfway := Halfway.stopped result nothing alone count
  have found : ∀ key ∈ spentOutpoints block, prevoutOf env
      (stoppedAfter count handled.processed server.db) block key ≠ none := by
    rw [nothing]
    exact fun _ impossible => nomatch impossible
  generalize stoppedAfter count handled.processed server.db = state at halfway found ⊢
  cases result with
  | early before =>
      refine ⟨_, handleBlock_ok.mpr ⟨found, .early before⟩, ?_⟩
      exact {
        prevouts := congrArg (Table.removeBatch · _) halfway.prevouts
        offsets := halfway.offsets
        partials := halfway.partials
        tokenToMeta := halfway.tokenToMeta
        addressTokenToBalance := halfway.addressTokenToBalance
        addressLocationToTransfer := halfway.addressLocationToTransfer
        lastHistoryId := halfway.lastHistoryId
        proofOfHistory := halfway.early before }
  | empty begun =>
      refine ⟨_, handleBlock_ok.mpr ⟨found, .empty begun alone⟩, ?_⟩
      refine {
        prevouts := congrArg (Table.removeBatch · _) halfway.prevouts
        offsets := halfway.offsets
        partials := halfway.partials
        tokenToMeta := halfway.tokenToMeta
        addressTokenToBalance := halfway.addressTokenToBalance
        addressLocationToTransfer := halfway.addressLocationToTransfer
        lastHistoryId := halfway.lastHistoryId
        proofOfHistory := ?_ }
      change state.proofOfHistory.set height (blockProof env state height block []) =
        server.db.proofOfHistory.set height (blockProof env server.db height block [])
      rw [halfway.proof positive]
      apply Table.ext
      intro other
      rw [Table.get_set, Table.get_set]
      split
      · rfl
      · rename_i different
        exact halfway.below other different
  | full begun several => exact absurd alone several

/-- A block that is handled again after the process has stopped in the middle of its writes
succeeds, with the contents it would have left and in any order of the offsets, exactly when at
most its outputs had been written or it has no transaction but its coinbase. It is refused
otherwise, since an output that it spends is gone. -/
theorem resumed_iff {last : Nat} (valid : ValidBlock env chain.utxo chain.txids block)
    (faithful : ∀ key prevout, server.db.prevouts.get key = some prevout →
      ∀ new, (createdPrevouts env block).get key = some new → prevout = new)
    (lone : LoneTransfers env server.db (last + 1) block)
    (handling : handleBlock env server (last + 1) block = .ok handled)
    {iterate : OutPoint → Finset Nat → List Nat}
    (nodup : ∀ outpoint offsets, (iterate outpoint offsets).Nodup)
    (mem : ∀ outpoint offsets offset, offset ∈ iterate outpoint offsets ↔ offset ∈ offsets)
    (count : Nat) (handleReorgs : Bool) :
    ((∃ again, handle (env.reordered iterate nodup mem)
          (restarted (stoppedAfter count handled.processed server.db)) {} (last + 1) block
          handleReorgs = .ok again ∧
        SameContents again.1.db (applyAll handled.processed server.db)) ↔
      count ≤ 1 ∨ block.txs.length = 1) ∧
    (¬(count ≤ 1 ∨ block.txs.length = 1) → ∃ key ∈ spentOutpoints block,
      handle (env.reordered iterate nodup mem)
        (restarted (stoppedAfter count handled.processed server.db)) {} (last + 1) block
        handleReorgs = .error (.missingPrevout key block.header.hash)) := by
  have result := handleBlock_handled handling
  have refused : ¬(count ≤ 1 ∨ block.txs.length = 1) → ∃ key ∈ spentOutpoints block,
      handle (env.reordered iterate nodup mem)
        (restarted (stoppedAfter count handled.processed server.db)) {} (last + 1) block
        handleReorgs = .error (.missingPrevout key block.header.hash) := by
    intro late
    rw [not_or, Nat.not_le] at late
    obtain ⟨key, spent, old⟩ := several_spends valid late.2
    have foreign : (createdPrevouts env block).get key = none := by
      apply Option.eq_none_iff_forall_ne_some.mpr
      intro prevout created
      exact valid.txids_disjoint (createdPrevouts_txid created) old
    have missing : prevoutOf (env.reordered iterate nodup mem)
        (stoppedAfter count handled.processed server.db) block key = none :=
      stopped_missing result late.1 spent foreign
    exact refused_missing spent missing {} handleReorgs
  refine ⟨⟨?_, ?_⟩, refused⟩
  · rintro ⟨again, resumed, _⟩
    by_contra late
    obtain ⟨key, _, missing⟩ := refused late
    rw [missing] at resumed
    cases resumed
  · intro resumable
    have contents : ∃ again, handleBlock env
          (restarted (stoppedAfter count handled.processed server.db)) (last + 1) block = .ok again ∧
        SameContents
          (applyAll again.processed (stoppedAfter count handled.processed server.db))
          (applyAll handled.processed server.db) := by
      rcases resumable with early | alone
      · obtain ⟨again, resumed, same⟩ := resumed_early handling faithful early _
        exact ⟨again, resumed, same ▸ .refl _⟩
      · exact resumed_alone valid alone (Nat.succ_ne_zero last) handling count _
    obtain ⟨again, resumed, same⟩ := contents
    have kept : LoneTransfers env (restarted (stoppedAfter count handled.processed server.db)).db
        (last + 1) block := lone.stopped result faithful resumable
    rw [← handleBlock_reordered nodup mem kept] at resumed
    obtain ⟨next, ran, written⟩ := handle_of_handled {} handleReorgs resumed
    exact ⟨next, ran, written ▸ same⟩

theorem wojak_resumed :
    ∃ process handled, Reachable Sample.env (fun _ _ => True) process ∧
      handleBlock Sample.env process.server 2 Sample.inscribeWojak = .ok handled ∧
      (∃ again, handle Sample.env.backwards
          (restarted (stoppedAfter 1 handled.processed process.server.db)) {} 2
          Sample.inscribeWojak true = .ok again ∧
        SameContents again.1.db (applyAll handled.processed process.server.db)) ∧
      ∃ key ∈ spentOutpoints Sample.inscribeWojak, handle Sample.env.backwards
          (restarted (stoppedAfter 2 handled.processed process.server.db)) {} 2
          Sample.inscribeWojak true =
        .error (.missingPrevout key Sample.inscribeWojak.header.hash) := by
  obtain ⟨process, reached, valid, fresh, lone, handles⟩ : ∃ process,
      Reachable Sample.env (fun _ _ => True) process ∧
      ValidBlock Sample.env process.chain.utxo process.chain.txids Sample.inscribeWojak ∧
      (∀ key ∈ process.db.prevouts.keys,
        (createdPrevouts Sample.env Sample.inscribeWojak).get key = none) ∧
      LoneTransfers Sample.env process.server.db 2 Sample.inscribeWojak ∧
      (handleBlock Sample.env process.server 2 Sample.inscribeWojak).toOption.isSome :=
    replay_any [.block 1 Sample.payWojak true] (by decide +kernel)
  obtain ⟨handled, handling⟩ := Option.isSome_iff_exists.mp handles
  have result := Machine.toOption_some.mp handling
  have faithful : ∀ key prevout, process.server.db.prevouts.get key = some prevout →
      ∀ new, (createdPrevouts Sample.env Sample.inscribeWojak).get key = some new →
        prevout = new := by
    intro key prevout stored new created
    rw [fresh key (Table.mem_keys_iff.mpr ⟨prevout, stored⟩)] at created
    cases created
  exact ⟨process, handled, reached, result,
    (resumed_iff valid faithful lone result _ _ 1 true).1.mpr (by decide),
    (resumed_iff valid faithful lone result _ _ 2 true).2 (by decide)⟩

/-- Once the spent outputs have been deleted, the block is refused when it is handled again. -/
theorem wojak_refused :
    ∃ process handled, Reachable Sample.env (fun _ _ => True) process ∧
      (Event.block 2 Sample.inscribeWojak true).Valid Sample.env process ∧
      process.db.lastBlock = some 1 ∧
      handleBlock Sample.env process.server 2 Sample.inscribeWojak = .ok handled ∧
      handle Sample.env (restarted (stoppedAfter 2 handled.processed process.server.db)) {} 2
          Sample.inscribeWojak true =
        .error (.missingPrevout ⟨1, 0⟩ Sample.inscribeWojak.header.hash) := by
  obtain ⟨process, reached, valid, last, handles⟩ : ∃ process,
      Reachable Sample.env (fun _ _ => True) process ∧
      (Event.block 2 Sample.inscribeWojak true).Valid Sample.env process ∧
      process.db.lastBlock = some 1 ∧
      (handleBlock Sample.env process.server 2 Sample.inscribeWojak).toOption.any (fun handled =>
        decide (Machine.failureOf
          (handle Sample.env (restarted (stoppedAfter 2 handled.processed process.server.db)) {} 2
            Sample.inscribeWojak true) =
          some (.missingPrevout ⟨1, 0⟩ Sample.inscribeWojak.header.hash))) = true :=
    replay_any [.block 1 Sample.payWojak true] (by decide +kernel)
  obtain ⟨handled, handling, refused⟩ := (Option.any_eq_true _ _).mp handles
  exact ⟨process, handled, reached, valid, last, Machine.toOption_some.mp handling,
    Machine.failureOf_some.mp (of_decide_eq_true refused)⟩

end WjkIndexer
