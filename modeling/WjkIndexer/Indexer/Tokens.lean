import WjkIndexer.Indexer.Ledger
import WjkIndexer.Indexer.Replay
import WjkIndexer.Tokens.Live
import WjkIndexer.Tokens.Log

/-!
What a handled block does to the tokens, the accounts and the transfers that are stored, and
that loading a part of them for a block is as good as loading all.
-/

namespace WjkIndexer

open FiniteTable TokenCache

variable {env : Env} {server : Server} {height : Nat} {block : Block} {chain : Chain}
  {handled : Handled} {parsed : Parser.Parsed}

theorem preloadable_parsed {db : DB}
    (parsing : Parser.parseBlock env db height block (spentPrevouts env db block)
      (loadedCache env db block) = .ok parsed)
    (filed : WellFiled env db.tokenToMeta db.addressTokenToBalance)
    (placed : Placed db chain) (fresh : ∀ txid ∈ block.txids, txid ∉ chain.txids) :
    Preloadable env db parsed.cache := by
  have fed := (parseBlock_spec parsing).feed.fed rfl
  have vacant : ∀ location, transfersAt parsed.cache.tokenActions location ≠ [] →
      parsed.cache.validTransfers.get location = none := by
    intro location some
    obtain ⟨⟨owner, proto⟩, listed⟩ := List.exists_mem_of_ne_nil _ some
    obtain ⟨txid, vout, inscribed⟩ := mem_transfersAt.mp listed
    have own := (fed.own _ inscribed).1
    rw [fed.validTransfers]
    apply Option.eq_none_iff_forall_ne_some.mpr
    rintro ⟨sender, record⟩ valid
    exact fresh _ own (placed.transfers _ (Table.mem_keys_iff.mpr ⟨record, loaded_stored valid⟩))
  refine { filed, known := ?_, fresh := vacant }
  intro location transfer valid
  have none : transfersAt parsed.cache.tokenActions location = [] := by
    by_contra some
    rw [vacant location some] at valid
    cases valid
  rw [fed.validTransfers] at valid
  rw [fed.loaded location none]
  exact (get_load_allTransfers _ _ _).trans (by rw [loadedCache] at valid; rw [valid]; rfl)

/-- What a handled block leaves of the token tables: what was there, or the ledger at the end
of the processing of its actions. -/
inductive TokensHandled (env : Env) (server : Server) (height : Nat) (block : Block)
    (handled : Handled) : Prop where
  | kept (tokens : (applyAll handled.processed server.db).tokenToMeta = server.db.tokenToMeta)
      (accounts : (applyAll handled.processed server.db).addressTokenToBalance =
        server.db.addressTokenToBalance)
      (transfers : (applyAll handled.processed server.db).addressLocationToTransfer =
        server.db.addressLocationToTransfer)
      (holders : handled.holders = server.holders)
  | processed {parsed : Parser.Parsed} {done : Processing}
      (parsing : Parser.parseBlock env server.db height block (spentPrevouts env server.db block)
        (loadedCache env server.db block) = .ok parsed)
      (processing : processTokenActions env (parsed.cache.loadTokensData env server.db)
        server.holders = .ok done)
      (tokens : (applyAll handled.processed server.db).tokenToMeta =
        (live server.db done.cache).tokens)
      (accounts : (applyAll handled.processed server.db).addressTokenToBalance =
        (live server.db done.cache).tokenAccounts)
      (transfers : (applyAll handled.processed server.db).addressLocationToTransfer =
        (server.db.addressLocationToTransfer.removeBatch
          (transfersToWrite (loadedCache env server.db block).validTransfers).keys).extend
          (transfersToWrite done.cache.validTransfers))
      (holders : handled.holders = done.holders)

theorem tokens_handled (result : HandledBlock env server height block handled) :
    TokensHandled env server height block handled := by
  cases result with
  | early | empty =>
      refine .kept ?_ ?_ ?_ rfl <;>
        simp only [applyAll, prevoutsData, ProcessedData.apply, ProcessedData.writes,
          List.foldl_cons, List.foldl_nil]
  | full begun several parsing processing =>
      refine .processed parsing processing ?_ ?_ ?_ rfl <;>
        simp only [applyAll, prevoutsData, tokensData, ProcessedData.apply, ProcessedData.writes,
          List.foldl_cons, List.foldl_nil, live]

theorem filed_handled (result : HandledBlock env server height block handled)
    (filed : WellFiled env server.db.tokenToMeta server.db.addressTokenToBalance)
    (placed : Placed server.db chain) (fresh : ∀ txid ∈ block.txids, txid ∉ chain.txids) :
    WellFiled env (applyAll handled.processed server.db).tokenToMeta
      (applyAll handled.processed server.db).addressTokenToBalance := by
  cases tokens_handled result with
  | kept tokens accounts => rwa [tokens, accounts]
  | processed parsing processing tokens accounts =>
      have preloadable := preloadable_parsed parsing filed placed fresh
      rw [tokens, accounts]
      exact (processing_running preloadable.filed processing).filed preloadable

def FiledLedger (env : Env) (db : DB) (_ : Chain) : Prop :=
  WellFiled env db.tokenToMeta db.addressTokenToBalance

theorem filed_ofLedger : OfLedger (FiledLedger env) := by
  intro left right chain same filed
  rw [FiledLedger, ← same.tokenToMeta, ← same.addressTokenToBalance]
  exact filed

theorem filed_empty : FiledLedger env {} [] where
  keyed _ _ found := nomatch found
  filed _ _ found := nomatch found

theorem reachable_filed {allowed : Process → Event → Prop} {process : Process}
    (reached : Reachable env allowed process) : Sound (FiledLedger env) process := by
  refine reachable_sound filed_ofLedger filed_empty ?_ reached
  intro process height new handleReorgs handled sound valid _ handling
  exact filed_handled (handleBlock_handled handling) sound.holds sound.placed
    (fun txid own => valid.2.txids_disjoint own)

def tokensWritten (env : Env) (db : DB) (block : Block) (done : Processing) :
    DB × Holders × List HistoryTokenAction :=
  ((tokensData env db block done.cache).apply db, done.holders, done.history)

/-- Processing a block on what was loaded for it ends as processing it on all that is stored. -/
theorem processTokenActions_preloaded {allowed : Process → Event → Prop} {process : Process}
    (reached : Reachable env allowed process) {handleReorgs : Bool}
    (valid : (Event.block height block handleReorgs).Valid env process)
    (parsing : Parser.parseBlock env process.db height block (spentPrevouts env process.db block)
      (loadedCache env process.db block) = .ok parsed)
    (credits : CreditsNamed env process.db parsed.cache) (holders : Holders) :
    (processTokenActions env (parsed.cache.loadTokensData env process.db) holders).map
        (tokensWritten env process.db block) =
      (processTokenActions env (parsed.cache.loadAll process.db) holders).map
        (tokensWritten env process.db block) := by
  have sound := reachable_filed reached
  have preloadable := preloadable_parsed parsing sound.holds sound.placed
    (fun txid own => valid.2.txids_disjoint own)
  have loaded := credits.loaded preloadable ((parseBlock_spec parsing).feed.fed rfl)
  rcases processTokenActions_agree preloadable loaded holders with
    ⟨fault, part, whole⟩ | ⟨done, reference, part, whole, tracks, _, sameHolders, sameHistory⟩
  · rw [part, whole]
  · have sameTokens := tracks.tokens.write_back
    have sameAccounts := tracks.accounts.write_back
    rw [part, whole]
    simp only [Except.map, tokensWritten, tokensData, ProcessedData.apply, ProcessedData.writes,
      List.foldl_cons, List.foldl_nil]
    rw [sameTokens, sameAccounts, tracks.validTransfers, sameHolders, sameHistory]

theorem wojak_preloaded :
    ∃ process parsed, Reachable Sample.env (fun _ _ => True) process ∧
      Parser.parseBlock Sample.env process.db 3 Sample.moveWojak
        (spentPrevouts Sample.env process.db Sample.moveWojak)
        (loadedCache Sample.env process.db Sample.moveWojak) = .ok parsed ∧
      parsed.cache.tokenActions.length = 1 ∧
      (processTokenActions Sample.env (parsed.cache.loadTokensData Sample.env process.db)
          process.server.holders).map (tokensWritten Sample.env process.db Sample.moveWojak) =
        (processTokenActions Sample.env (parsed.cache.loadAll process.db)
          process.server.holders).map (tokensWritten Sample.env process.db Sample.moveWojak) := by
  obtain ⟨process, reached, valid, parses⟩ : ∃ process,
      Reachable Sample.env (fun _ _ => True) process ∧
      (Event.block 3 Sample.moveWojak true).Valid Sample.env process ∧
      (Parser.parseBlock Sample.env process.db 3 Sample.moveWojak
        (spentPrevouts Sample.env process.db Sample.moveWojak)
        (loadedCache Sample.env process.db Sample.moveWojak)).toOption.any (fun parsed => decide
          (parsed.cache.tokenActions.length = 1 ∧
            CreditsNamed Sample.env process.db parsed.cache)) = true :=
    replay_any Sample.lockWojak (by decide +kernel)
  obtain ⟨parsed, parsing, checked⟩ := (Option.any_eq_true _ _).mp parses
  have result := Machine.toOption_some.mp parsing
  obtain ⟨moved, credits⟩ := of_decide_eq_true checked
  exact ⟨process, parsed, reached, result, moved,
    processTokenActions_preloaded reached valid result credits _⟩

/-- The recipient's account of the first of two tokens is not loaded when both are moved
to it from one satoshi, and its balance is lost. -/
theorem cross_overwritten :
    ∃ process parsed, Reachable Sample.env (fun _ _ => True) process ∧
      (Event.block 3 Sample.crossTransfers true).Valid Sample.env process ∧
      Parser.parseBlock Sample.env process.db 3 Sample.crossTransfers
        (spentPrevouts Sample.env process.db Sample.crossTransfers)
        (loadedCache Sample.env process.db Sample.crossTransfers) = .ok parsed ∧
      (processTokenActions Sample.env (parsed.cache.loadTokensData Sample.env process.db)
          process.server.holders).map
            (tokensWritten Sample.env process.db Sample.crossTransfers) ≠
        (processTokenActions Sample.env (parsed.cache.loadAll process.db)
          process.server.holders).map
            (tokensWritten Sample.env process.db Sample.crossTransfers) := by
  let balance (result : Except Fault (DB × Holders × List HistoryTokenAction)) : Option Nat :=
    result.toOption.map fun written => ((written.1.addressTokenToBalance.get
      ⟨Sample.env.computeScriptHash Sample.recipient, Sample.wojak⟩).getD {}).balance
  obtain ⟨process, reached, valid, parses⟩ : ∃ process,
      Reachable Sample.env (fun _ _ => True) process ∧
      (Event.block 3 Sample.crossTransfers true).Valid Sample.env process ∧
      (Parser.parseBlock Sample.env process.db 3 Sample.crossTransfers
        (spentPrevouts Sample.env process.db Sample.crossTransfers)
        (loadedCache Sample.env process.db Sample.crossTransfers)).toOption.any (fun parsed => decide
          (balance ((processTokenActions Sample.env
              (parsed.cache.loadTokensData Sample.env process.db) process.server.holders).map
                (tokensWritten Sample.env process.db Sample.crossTransfers)) = some (10 ^ 18) ∧
            balance ((processTokenActions Sample.env (parsed.cache.loadAll process.db)
              process.server.holders).map
                (tokensWritten Sample.env process.db Sample.crossTransfers)) =
                  some (5 * 10 ^ 18))) = true :=
    replay_any Sample.mintBoth (by decide +kernel)
  obtain ⟨parsed, parsing, checked⟩ := (Option.any_eq_true _ _).mp parses
  obtain ⟨part, whole⟩ := of_decide_eq_true checked
  refine ⟨process, parsed, reached, valid, Machine.toOption_some.mp parsing, ?_⟩
  intro same
  rw [same, whole] at part
  cases part

end WjkIndexer
