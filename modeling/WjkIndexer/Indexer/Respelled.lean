import WjkIndexer.Indexer.Replay
import WjkIndexer.Indexer.Tokens
import WjkIndexer.Tokens.Respelled

/-!
The spelling of ticks over whole runs: what is stored of a token is spelled as it was deployed,
and the spelling of the actions of a block has no part in its outcome.
-/

namespace WjkIndexer

open FiniteTable TokenCache Paired

/-- A well-filed ledger whose transfers are spelled as their tokens were deployed. -/
structure SpelledLedger (env : Env) (db : DB) (chain : Chain) : Prop where
  filed : WellFiled env db.tokenToMeta db.addressTokenToBalance
  transfers : ∀ key proto, db.addressLocationToTransfer.get key = some proto →
    Spelled env db.tokenToMeta proto.tick

/-- The metas, the accounts, the valid transfers and the history that two blocks share. -/
structure SameOutcome (done twin : Processing) : Prop where
  tokens : twin.cache.tokens = done.cache.tokens
  accounts : twin.cache.tokenAccounts = done.cache.tokenAccounts
  transfers : twin.cache.validTransfers = done.cache.validTransfers
  history : twin.history = done.history

structure SpelledOutcome (env : Env) (db : DB) (done : Processing) : Prop where
  accounts : ∀ key account, done.cache.tokenAccounts.get key = some account →
    Spelled env done.cache.tokens key.token
  transfers : ∀ location sender data,
    done.cache.validTransfers.get location = some (sender, data) →
    Spelled env (live db done.cache).tokens data.tick
  events : ∀ event ∈ done.history, Spelled env (live db done.cache).tokens event.tick

section Block

variable {env : Env} {server : Server} {height : Nat} {block : Block} {chain : Chain}
  {handled : Handled}

theorem spelled_ofLedger : OfLedger (SpelledLedger env) := by
  rintro left right chain same ⟨filed, transfers⟩
  constructor
  · exact filed_ofLedger left right chain same filed
  · rw [← same.tokenToMeta, ← same.addressLocationToTransfer]
    exact transfers

theorem spelled_empty : SpelledLedger env {} [] where
  filed := filed_empty
  transfers _ _ found := nomatch found

theorem spelled_handled (result : HandledBlock env server height block handled)
    (ledger : SpelledLedger env server.db chain) (placed : Placed server.db chain)
    (fresh : ∀ txid ∈ block.txids, txid ∉ chain.txids) :
    SpelledLedger env (applyAll handled.processed server.db) ((height, block) :: chain) where
  filed := filed_handled result ledger.filed placed fresh
  transfers := by
    cases tokens_handled result with
    | kept tokens accounts transfers =>
        rw [tokens, transfers]
        exact ledger.transfers
    | processed parsing processing tokens accounts transfers =>
        have loaded := ((parseBlock_spec parsing).feed.fed rfl).validTransfers
        obtain ⟨_, spelled⟩ := processing_spelled ledger.filed
          (fun location sender data valid =>
            ledger.transfers _ _ (loaded_stored (loaded ▸ valid))) processing
        intro key proto found
        rw [transfers, Table.get_extend, Option.or_eq_some_iff] at found
        rw [tokens]
        rcases found with new | ⟨_, old⟩
        · obtain ⟨record, valid⟩ := mem_transfersToWrite.mp (Table.mem_keys_iff.mpr ⟨proto, new⟩)
          rw [get_transfersToWrite, valid, Option.bind_some, if_pos rfl, Option.some.injEq] at new
          exact new ▸ spelled.transfers _ _ _ valid
        · rw [Table.get_removeBatch] at old
          split at old
          · cases old
          · exact spelled.kept _ (ledger.transfers key proto old)

theorem reachable_spelled {allowed : Process → Event → Prop} {process : Process}
    (reached : Reachable env allowed process) : Sound (SpelledLedger env) process := by
  refine reachable_sound spelled_ofLedger spelled_empty ?_ reached
  intro process height new handleReorgs handled sound valid _ handling
  exact spelled_handled (handleBlock_handled handling) sound.holds sound.placed
    (fun txid own => valid.2.txids_disjoint own)

end Block

theorem WellFiled.account_misspelled {env : Env} {tokens : Table LowerCaseTokenTick TokenMeta}
    {accounts : Table AddressToken TokenBalance} (filed : WellFiled env tokens accounts)
    {key : AddressToken} {token : TokenMeta}
    (found : tokens.get (env.lower key.token) = some token)
    (other : token.proto.tick ≠ key.token) : accounts.get key = none := by
  apply Option.eq_none_iff_forall_ne_some.mpr
  intro account stored
  obtain ⟨deployed, again, spelled⟩ := filed.filed key account stored
  rw [found] at again
  cases again
  exact other spelled

theorem OutcomeAlike.same {env : Env} {done twin : Processing}
    (alike : OutcomeAlike env (fun _ => False) done twin) : SameOutcome done twin := by
  have respelled : ∀ tick twin, SameTick env (fun _ => False) tick twin → twin = tick :=
    fun _ _ same => same.fixed id
  have tokens : twin.cache.tokens = done.cache.tokens := by
    apply Table.ext
    intro key
    rcases alike.caches.ledger.paired.lookup key with
      ⟨vacant, vacantTwin⟩ | ⟨token, _, found, foundTwin, tick, same, rfl⟩
    · rw [vacant, vacantTwin]
    · rw [found, foundTwin, respelled _ _ same]
      rfl
  constructor
  · exact tokens
  · apply Table.ext
    intro key
    cases stored : done.cache.tokens.get (env.lower key.token) with
    | none =>
        have absent := alike.caches.ledger.left.account_vacant stored key.address
        have absentTwin := alike.caches.ledger.right.account_vacant (tokens ▸ stored) key.address
        exact absentTwin.trans absent.symm
    | some token =>
        have storedTwin : twin.cache.tokens.get (env.lower key.token) = some token :=
          tokens ▸ stored
        by_cases own : token.proto.tick = key.token
        · have agreed := alike.caches.ledger.agree _ token token stored storedTwin key.address
          rw [own] at agreed
          exact agreed
        · exact (alike.caches.ledger.right.account_misspelled storedTwin own).trans
            (alike.caches.ledger.left.account_misspelled stored own).symm
  · apply Table.ext
    intro location
    rcases alike.caches.valid.lookup location with
      ⟨absent, absentTwin⟩ | ⟨transfer, _, found, foundTwin, tick, same, rfl⟩
    · rw [absent, absentTwin]
    · rw [found, foundTwin, respelled _ _ same]
  · have history := alike.history
    generalize done.history = events at history ⊢
    generalize twin.history = images at history ⊢
    induction history with
    | nil => rfl
    | @cons event _ _ _ same rest ih =>
        obtain ⟨tick, same, rfl⟩ := same
        rw [respelled _ _ same, ih]
        cases event <;> rfl

/-- Over any stored ledger the respelling of mints and transfers has no part in the outcome, what
is left is spelled as it was deployed, and the respelling of a deployment shows in nothing but the
spelling of its token. -/
theorem spelling_immaterial {env : Env} {allowed : Process → Event → Prop} {process : Process}
    (reached : Reachable env allowed process) (cache : TokenCache) (holders : Holders) :
    (∀ twin, CacheAlike env (fun _ => False) cache twin →
      Results SameOutcome
        (processTokenActions env (cache.loadTokensData env process.db) holders)
        (processTokenActions env (twin.loadTokensData env process.db) holders)) ∧
    (∀ done, (∀ location sender data,
        cache.validTransfers.get location = some (sender, data) →
        process.db.addressLocationToTransfer.get ⟨sender, location⟩ = some data) →
      processTokenActions env (cache.loadTokensData env process.db) holders = .ok done →
      SpelledOutcome env process.db done) ∧
    ∀ key twin, CacheAlike env (fun free => free = key) cache twin →
      Results (OutcomeAlike env fun free => free = key)
        (processTokenActions env (cache.loadTokensData env process.db) holders)
        (processTokenActions env (twin.loadTokensData env process.db) holders) := by
  have ledger := (reachable_spelled reached).holds
  refine ⟨?_, ?_, ?_⟩
  · intro twin alike
    exact (processTokenActions_alike alike ledger.filed holders holders).mono
      fun _ _ => OutcomeAlike.same
  · intro done loaded returned
    obtain ⟨filed, spelled⟩ := processing_spelled ledger.filed
      (fun location sender data valid => ledger.transfers _ _ (loaded location sender data valid))
      returned
    exact {
      accounts := filed.filed
      transfers := spelled.transfers
      events := spelled.events }
  · intro key twin alike
    exact processTokenActions_alike alike ledger.filed holders holders

namespace Sample

def capitals : OriginalTokenTick where
  bytes := text "WOJAK" ++ [0, 0, 0]
  size := by decide +kernel

def mintAndLock (tick : OriginalTokenTick) : TokenCache where
  tokenActions := [
    .mint 7 ⟨tick, 3 * 10 ^ 18⟩ 8 0,
    .transfer ⟨⟨9, 0⟩, 0⟩ 7 ⟨tick, 2 * 10 ^ 18⟩ 9 0]
  allTransfers := (∅ : Table Location TransferProtoDB).set ⟨⟨9, 0⟩, 0⟩ ⟨tick, 2 * 10 ^ 18, 3⟩

end Sample

theorem capitals_immaterial :
    ∃ process, Reachable Sample.env (fun _ _ => True) process ∧
      ((processTokenActions Sample.env ((Sample.mintAndLock Sample.capitals).loadTokensData
        Sample.env process.db) {}).toOption.map fun done => done.history.length) = some 2 ∧
      Results SameOutcome
        (processTokenActions Sample.env
          ((Sample.mintAndLock Sample.wojak).loadTokensData Sample.env process.db) {})
        (processTokenActions Sample.env
          ((Sample.mintAndLock Sample.capitals).loadTokensData Sample.env process.db) {}) := by
  obtain ⟨process, reached, booked⟩ : ∃ process,
      Reachable Sample.env (fun _ _ => True) process ∧
      ((processTokenActions Sample.env ((Sample.mintAndLock Sample.capitals).loadTokensData
        Sample.env process.db) {}).toOption.map fun done => done.history.length) = some 2 :=
    replay_any Sample.lockWojak (by decide +kernel)
  have keys : Sample.env.lower Sample.capitals = Sample.env.lower Sample.wojak := by
    decide +kernel
  refine ⟨process, reached, booked,
    (spelling_immaterial reached (Sample.mintAndLock Sample.wojak) {}).1 _ ?_⟩
  exact {
    actions := .cons (.mint keys) (.cons (.transfer keys) .nil)
    all := .set (.refl (fun record => ⟨record.tick, rfl, rfl⟩) _) _ ⟨Sample.capitals, keys, rfl⟩
    valid := rfl }

end WjkIndexer
