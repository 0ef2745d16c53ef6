import WjkIndexer.Indexer.Replay
import WjkIndexer.Indexer.Tokens
import WjkIndexer.Tokens.Backed

/-!
Locked balances over whole runs: every account's transferable balance is what its stored
transfers hold, as long as blocks keep the amounts and the accounts of transfers that are
inscribed and moved in them.
-/

namespace WjkIndexer

open FiniteTable TokenCache

def storedOf (weight : TransferProtoDB → Nat) (transfers : Table AddressLocation TransferProtoDB)
    (address : FullHash) (tick : OriginalTokenTick) : Nat :=
  transfers.total fun key proto =>
    if key.address = address ∧ proto.tick = tick then weight proto else 0

theorem storedOf_transfersToWrite (weight : TransferProtoDB → Nat)
    (valid : Table Location (FullHash × TransferProtoDB)) (address : FullHash)
    (tick : OriginalTokenTick) :
    storedOf weight (transfersToWrite valid) address tick =
      transfersOf weight valid address tick := by
  refine Finset.sum_nbij AddressLocation.location ?_ ?_ ?_ ?_
  · intro key member
    obtain ⟨proto, found⟩ := mem_transfersToWrite.mp member
    exact Table.mem_keys_iff.mpr ⟨_, found⟩
  · intro first member second other same
    obtain ⟨firstProto, firstFound⟩ := mem_transfersToWrite.mp (Finset.mem_coe.mp member)
    obtain ⟨secondProto, secondFound⟩ := mem_transfersToWrite.mp (Finset.mem_coe.mp other)
    rw [same, secondFound, Option.some.injEq, Prod.mk.injEq] at firstFound
    obtain ⟨firstAddress, firstLocation⟩ := first
    obtain ⟨secondAddress, secondLocation⟩ := second
    dsimp only at same firstFound
    rw [same, firstFound.1]
  · intro location member
    obtain ⟨⟨owner, proto⟩, found⟩ := Table.mem_keys_iff.mp (Finset.mem_coe.mp member)
    exact ⟨⟨owner, location⟩, Finset.mem_coe.mpr (mem_transfersToWrite.mpr ⟨proto, found⟩), rfl⟩
  · intro key member
    obtain ⟨proto, found⟩ := mem_transfersToWrite.mp member
    rw [get_transfersToWrite, found]
    simp

/-- Every transfer that is stored is one of a deployed token, and each account's
transferable balance and its count of transfers are those of its stored transfers. -/
structure LockedLedger (env : Env) (db : DB) : Prop where
  deployed : ∀ key proto, db.addressLocationToTransfer.get key = some proto →
    ∃ token, db.tokenToMeta.get (env.lower proto.tick) = some token ∧
      token.proto.tick = proto.tick
  locked : ∀ address tick,
    lockedPart ((db.addressTokenToBalance.get ⟨address, tick⟩).getD {}) =
      (storedOf TransferProtoDB.amt db.addressLocationToTransfer address tick,
        storedOf (fun _ => 1) db.addressLocationToTransfer address tick)

def unspentTransfers (env : Env) (db : DB) (block : Block) :
    Table AddressLocation TransferProtoDB :=
  db.addressLocationToTransfer.removeBatch
    (transfersToWrite (loadedCache env db block).validTransfers).keys

section Block

variable {env : Env} {db : DB} {height : Nat} {block : Block} {chain : Chain}
  {parsed : Parser.Parsed}

theorem restrict_loaded (env : Env) (db : DB) (block : Block) :
    db.addressLocationToTransfer.restrict
        (transfersToWrite (loadedCache env db block).validTransfers).keys =
      transfersToWrite (loadedCache env db block).validTransfers := by
  apply Table.ext
  intro key
  rw [Table.get_restrict]
  split
  · rename_i loaded
    obtain ⟨proto, valid⟩ := mem_transfersToWrite.mp loaded
    rw [get_transfersToWrite, valid, Option.bind_some, if_pos rfl]
    exact loaded_stored valid
  · rename_i absent
    exact (Table.get_eq_none_iff.mpr absent).symm

theorem backed_start (locked : LockedLedger env db)
    (parsing : Parser.parseBlock env db height block (spentPrevouts env db block)
      (loadedCache env db block) = .ok parsed) :
    Backed env (fun weight => storedOf weight (unspentTransfers env db block))
      (live db { parsed.cache.loadTokensData env db with tokenActions := [] }) := by
  have fed := (parseBlock_spec parsing).feed.fed rfl
  have tokens : (live db (parsed.cache.loadTokensData env db)).tokens = db.tokenToMeta :=
    Table.extend_restrict _ _
  have accounts : (live db (parsed.cache.loadTokensData env db)).tokenAccounts =
      db.addressTokenToBalance := Table.extend_restrict _ _
  have split : ∀ weight address tick,
      storedOf weight db.addressLocationToTransfer address tick =
        storedOf weight (unspentTransfers env db block) address tick +
          transfersOf weight parsed.cache.validTransfers address tick := by
    intro weight address tick
    have parts := Table.total_removeBatch (fun key (proto : TransferProtoDB) =>
      if AddressLocation.address key = address ∧ proto.tick = tick then weight proto else 0)
      db.addressLocationToTransfer (transfersToWrite (loadedCache env db block).validTransfers).keys
    rw [restrict_loaded] at parts
    rw [fed.validTransfers, ← storedOf_transfersToWrite]
    exact parts.symm
  constructor
  · intro location sender data valid
    change parsed.cache.validTransfers.get location = some (sender, data) at valid
    rw [fed.validTransfers] at valid
    obtain ⟨token, found, spelled⟩ := locked.deployed _ _ (loaded_stored valid)
    exact ⟨token, tokens ▸ found, spelled⟩
  · intro address tick
    have sums := locked.locked address tick
    rw [split, split] at sums
    exact accounts ▸ sums

theorem locked_written {next : DB} {done : Processing} (locked : LockedLedger env db)
    (preloadable : Preloadable env db parsed.cache)
    (returned : processTokenActions env (parsed.cache.loadTokensData env db) holders = .ok done)
    (backed : Backed env (fun weight => storedOf weight (unspentTransfers env db block))
      (live db done.cache))
    (tokens : next.tokenToMeta = (live db done.cache).tokens)
    (accounts : next.addressTokenToBalance = (live db done.cache).tokenAccounts)
    (transfers : next.addressLocationToTransfer =
      (unspentTransfers env db block).extend (transfersToWrite done.cache.validTransfers))
    (apart : ∀ key ∈ (transfersToWrite done.cache.validTransfers).keys,
      (unspentTransfers env db block).get key = none) :
    LockedLedger env next := by
  have running := processing_running preloadable.filed returned
  constructor
  · intro key proto stored
    rw [transfers, Table.get_extend, Option.or_eq_some_iff] at stored
    rw [tokens]
    rcases stored with new | ⟨_, old⟩
    · obtain ⟨record, valid⟩ := mem_transfersToWrite.mp (Table.mem_keys_iff.mpr ⟨proto, new⟩)
      rw [get_transfersToWrite, valid, Option.bind_some, if_pos rfl, Option.some.injEq] at new
      subst new
      exact backed.deployed _ _ _ valid
    · rw [unspentTransfers, Table.get_removeBatch] at old
      split at old
      · cases old
      obtain ⟨token, found, spelled⟩ := locked.deployed key proto old
      rw [running.tokens.shown]
      cases own : done.cache.tokens.get (env.lower proto.tick) with
      | none => exact ⟨token, found, spelled⟩
      | some now =>
          obtain ⟨again, foundAgain, respelled⟩ :=
            running.traced.kept _ _ ((running.settled _ _ own).trans found)
          rw [own] at foundAgain
          cases foundAgain
          exact ⟨now, rfl, respelled.trans spelled⟩
  · intro address tick
    have sums := backed.locked address tick
    have total : ∀ weight, storedOf weight next.addressLocationToTransfer address tick =
        storedOf weight (unspentTransfers env db block) address tick +
          transfersOf weight done.cache.validTransfers address tick := by
      intro weight
      rw [transfers, ← storedOf_transfersToWrite]
      exact Table.total_extend _ _ _ apart
    rw [accounts, total, total]
    exact sums

end Block

variable {env : Env} {process : Process} {height : Nat} {block : Block} {handled : Handled}

def LockingSafe (env : Env) (process : Process) : Event → Prop
  | .block height block _ => ∀ parsed,
      Parser.parseBlock env process.db height block (spentPrevouts env process.db block)
        (loadedCache env process.db block) = .ok parsed →
      AmountsAgree parsed.cache ∧ CreditsLoaded lockedPart env process.db parsed.cache ∧
        CountsFit process.db parsed.cache
  | _ => True

instance (env : Env) (process : Process) (event : Event) :
    Decidable (LockingSafe env process event) :=
  match event with
  | .block height block _ => inferInstanceAs (Decidable (∀ parsed,
      Parser.parseBlock env process.db height block (spentPrevouts env process.db block)
        (loadedCache env process.db block) = .ok parsed →
      AmountsAgree parsed.cache ∧ CreditsLoaded lockedPart env process.db parsed.cache ∧
        CountsFit process.db parsed.cache))
  | .restore _ => inferInstanceAs (Decidable True)
  | .restart => inferInstanceAs (Decidable True)

def LockedFiled (env : Env) (db : DB) (_ : Chain) : Prop :=
  LockedLedger env db ∧ WellFiled env db.tokenToMeta db.addressTokenToBalance

theorem LockedLedger.congr {left right : DB} (locked : LockedLedger env left)
    (tokens : right.tokenToMeta = left.tokenToMeta)
    (accounts : right.addressTokenToBalance = left.addressTokenToBalance)
    (transfers : right.addressLocationToTransfer = left.addressLocationToTransfer) :
    LockedLedger env right where
  deployed := by
    rw [tokens, transfers]
    exact locked.deployed
  locked := by
    rw [accounts, transfers]
    exact locked.locked

theorem locked_ofLedger : OfLedger (LockedFiled env) := by
  rintro left right chain same ⟨locked, filed⟩
  exact ⟨locked.congr same.tokenToMeta.symm same.addressTokenToBalance.symm
    same.addressLocationToTransfer.symm, filed_ofLedger left right chain same filed⟩

theorem locked_empty : LockedFiled env {} [] := by
  refine ⟨?_, filed_empty⟩
  exact {
    deployed := fun _ _ found => nomatch found
    locked := fun _ _ => rfl }

theorem locked_handled {handleReorgs : Bool} (sound : Sound (LockedFiled env) process)
    (valid : (Event.block height block handleReorgs).Valid env process)
    (safe : LockingSafe env process (.block height block handleReorgs))
    (result : HandledBlock env process.server height block handled) :
    LockedLedger env (applyAll handled.processed process.db) := by
  obtain ⟨locked, filed⟩ := sound.holds
  cases tokens_handled result with
  | kept tokens accounts transfers =>
      exact locked.congr tokens accounts transfers
  | processed parsing processing tokens accounts transfers =>
      have fresh : ∀ txid ∈ block.txids, txid ∉ process.chain.txids :=
        fun txid own => valid.2.txids_disjoint own
      have fed := (parseBlock_spec parsing).feed.fed rfl
      have preloadable := preloadable_parsed parsing filed sound.placed fresh
      obtain ⟨amounts, credits, fit⟩ := safe _ parsing
      have backed := (processing_backed preloadable fed amounts credits fit
        (backed_start locked parsing) (List.append_nil _) processing).2
      refine locked_written locked preloadable processing backed tokens accounts transfers ?_
      intro key written
      rw [unspentTransfers, Table.get_removeBatch]
      split
      · rfl
      · rename_i unloaded
        rw [Table.get_eq_none_iff]
        intro member
        exact fresh _ (transfers_fresh parsing processing written unloaded)
          (sound.placed.transfers key member)

/-- In every run whose blocks keep amounts and accounts, locked balances are backed by the
stored transfers, at every stage of the next block too, whose moves never abort it. -/
theorem locks_backed (reached : Reachable env (LockingSafe env) process) :
    LockedLedger env process.db ∧
    ∀ height block handleReorgs,
      (Event.block height block handleReorgs).Valid env process →
      LockingSafe env process (.block height block handleReorgs) →
      (∀ fault, handleBlock env process.server height block = .error (.panic fault) →
        fault ≠ .tickMustExist ∧ fault ≠ .senderAccount ∧ fault ≠ .invalidSenderBalance) ∧
      ∀ parsed, Parser.parseBlock env process.db height block
          (spentPrevouts env process.db block) (loadedCache env process.db block) = .ok parsed →
        ∀ past future holders state, past ++ future = parsed.cache.tokenActions →
        past.foldlM (Processing.step env) {
          cache := { parsed.cache.loadTokensData env process.db with tokenActions := [] }
          holders } = .ok state →
        Backed env (fun weight => storedOf weight (unspentTransfers env process.db block))
          (live process.db state.cache) := by
  have sound : Sound (LockedFiled env) process := by
    refine reachable_sound locked_ofLedger locked_empty ?_ reached
    intro process height new handleReorgs handled sound valid safe handling
    have result := (handleBlock_handled handling)
    exact ⟨locked_handled sound valid safe result,
      filed_handled result sound.holds.2 sound.placed fun txid own => valid.2.txids_disjoint own⟩
  refine ⟨sound.holds.1, ?_⟩
  intro height block handleReorgs valid safe
  have ready : ∀ parsed, Parser.parseBlock env process.db height block
        (spentPrevouts env process.db block) (loadedCache env process.db block) = .ok parsed →
      Preloadable env process.db parsed.cache ∧
      Backed env (fun weight => storedOf weight (unspentTransfers env process.db block))
        (live process.db { parsed.cache.loadTokensData env process.db with tokenActions := [] }) :=
    fun parsed parsing => ⟨preloadable_parsed parsing sound.holds.2 sound.placed
      (fun txid own => valid.2.txids_disjoint own), backed_start sound.holds.1 parsing⟩
  constructor
  · intro fault failed
    rcases handleBlock_panic failed with stopped | ⟨parsed, parsing, stopped⟩
    · rcases parseBlock_fault stopped with rfl | rfl <;> decide
    · obtain ⟨preloadable, backed⟩ := ready parsed parsing
      obtain ⟨amounts, credits, fit⟩ := safe parsed parsing
      rw [processTokenActions_pays preloadable ((parseBlock_spec parsing).feed.fed rfl) amounts
        credits fit backed fault stopped]
      decide
  · intro parsed parsing past future holders state split ran
    obtain ⟨preloadable, backed⟩ := ready parsed parsing
    obtain ⟨amounts, credits, fit⟩ := safe parsed parsing
    exact (processing_backed preloadable ((parseBlock_spec parsing).feed.fed rfl) amounts credits
      fit backed split ran).2

theorem wojak_backed :
    ∃ process, Reachable Sample.env (LockingSafe Sample.env) process ∧
      ((process.db.addressTokenToBalance.get
        ⟨Sample.env.computeScriptHash Sample.sender, Sample.wojak⟩).getD {}).transfersCount = 1 ∧
      LockedLedger Sample.env process.db ∧
      ∀ fault, handleBlock Sample.env process.server 3 Sample.moveWojak =
        .error (.panic fault) → fault ≠ .invalidSenderBalance := by
  obtain ⟨process, reached, locked, valid, safe⟩ : ∃ process,
      Reachable Sample.env (LockingSafe Sample.env) process ∧
      ((process.db.addressTokenToBalance.get
        ⟨Sample.env.computeScriptHash Sample.sender, Sample.wojak⟩).getD {}).transfersCount = 1 ∧
      (Event.block 3 Sample.moveWojak true).Valid Sample.env process ∧
      LockingSafe Sample.env process (.block 3 Sample.moveWojak true) :=
    replay_any Sample.lockWojak (by decide +kernel)
  obtain ⟨ledger, backed⟩ := locks_backed reached
  exact ⟨process, reached, locked, ledger,
    fun fault failed => ((backed 3 _ true valid safe).1 fault failed).2.2⟩

/-- Of two transfers on one satoshi the first is locked and the last is stored, and the move
aborts. -/
theorem wojak_unbacked :
    ∃ process, Reachable Sample.env (fun _ _ => True) process ∧
      ¬ LockedLedger Sample.env process.db ∧
      (Event.block 3 Sample.moveWojak true).Valid Sample.env process ∧
      handleBlock Sample.env process.server 3 Sample.moveWojak =
        .error (.panic .invalidSenderBalance) := by
  obtain ⟨process, reached, mismatch, valid, failed⟩ : ∃ process,
      Reachable Sample.env (fun _ _ => True) process ∧
      (lockedPart ((process.db.addressTokenToBalance.get
          ⟨Sample.env.computeScriptHash Sample.sender, Sample.wojak⟩).getD {})).1 ≠
        storedOf TransferProtoDB.amt process.db.addressLocationToTransfer
          (Sample.env.computeScriptHash Sample.sender) Sample.wojak ∧
      (Event.block 3 Sample.moveWojak true).Valid Sample.env process ∧
      Machine.failureOf (handleBlock Sample.env process.server 3 Sample.moveWojak) =
        some (.panic .invalidSenderBalance) :=
    replay_any Sample.lockTwice (by decide +kernel)
  refine ⟨process, reached, ?_, valid, Machine.failureOf_some.mp failed⟩
  intro ledger
  exact mismatch (congrArg Prod.fst (ledger.locked _ _))

end WjkIndexer
