import WjkIndexer.Tokens.Feed

/-!
The log of events against the ledger: the history of a list of actions, replayed over the
tokens and accounts before it, gives those after it.
-/

namespace WjkIndexer

open FiniteTable

structure Counters where
  supply : Nat
  mintCount : Nat
  transferCount : Nat
  transactions : Nat
  deriving DecidableEq, Repr

def TokenMeta.counters (token : TokenMeta) : Counters where
  supply := token.proto.supply
  mintCount := token.proto.mintCount
  transferCount := token.proto.transferCount
  transactions := token.proto.transactions

/-- The ledger as far as a reader of the log can know it. -/
structure LogLedger where
  metas : Table LowerCaseTokenTick Counters
  accounts : Table AddressToken TokenBalance

namespace LogLedger

def changeAccount (ledger : LogLedger) (key : AddressToken) (change : TokenBalance → TokenBalance) :
    LogLedger :=
  { ledger with
    accounts := ledger.accounts.set key (change ((ledger.accounts.get key).getD {})) }

def record (env : Env) (ledger : LogLedger) : HistoryTokenAction → LogLedger
  | .deploy tick .. =>
      { ledger with
        metas := ledger.metas.set (env.lower tick)
          { supply := 0, mintCount := 0, transferCount := 0, transactions := 1 } }
  | .mint tick amt recipient .. =>
      let counted : LogLedger := { ledger with
        metas := ledger.metas.modify (env.lower tick) fun token => { token with
          supply := token.supply + amt
          mintCount := countUp 64 token.mintCount
          transactions := countUp 32 token.transactions } }
      counted.changeAccount ⟨recipient, tick⟩ (TokenBalance.credit · amt)
  | .deployTransfer tick amt recipient .. =>
      let counted : LogLedger := { ledger with
        metas := ledger.metas.modify (env.lower tick) fun token => { token with
          transferCount := countUp 64 token.transferCount
          transactions := countUp 32 token.transactions } }
      counted.changeAccount ⟨recipient, tick⟩ (TokenBalance.lock · amt)
  | .send tick amt recipient sender .. =>
      let counted : LogLedger := { ledger with
        metas := ledger.metas.modify (env.lower tick) fun token => { token with
          transactions := countUp 32 token.transactions } }
      let released := counted.changeAccount ⟨sender, tick⟩ (TokenBalance.release · amt)
      if env.isOpReturnHash recipient then released
      else released.changeAccount ⟨recipient, tick⟩ (TokenBalance.credit · amt)

def replay (env : Env) (ledger : LogLedger) (history : List HistoryTokenAction) : LogLedger :=
  history.foldl (record env) ledger

end LogLedger

def TokenCache.ledger (cache : TokenCache) : LogLedger where
  metas := cache.tokens.mapValues TokenMeta.counters
  accounts := cache.tokenAccounts

/-- Tokens stand under the key of their tick. -/
def Keyed (env : Env) (tokens : Table LowerCaseTokenTick TokenMeta) : Prop :=
  ∀ key token, tokens.get key = some token → env.lower token.proto.tick = key

def TokenAction.DeploysNew : TokenAction → Prop
  | .deploy _ proto _ =>
      proto.supply = 0 ∧ proto.mintCount = 0 ∧ proto.transferCount = 0 ∧ proto.transactions = 1
  | _ => True

instance (action : TokenAction) : Decidable action.DeploysNew :=
  match action with
  | .deploy _ proto _ => inferInstanceAs (Decidable (proto.supply = 0 ∧ proto.mintCount = 0 ∧
      proto.transferCount = 0 ∧ proto.transactions = 1))
  | .mint .. => inferInstanceAs (Decidable True)
  | .transfer .. => inferInstanceAs (Decidable True)
  | .transferred .. => inferInstanceAs (Decidable True)

theorem Keyed.set {env : Env} {tokens : Table LowerCaseTokenTick TokenMeta} (keyed : Keyed env tokens)
    {key : LowerCaseTokenTick} {token : TokenMeta} (home : env.lower token.proto.tick = key) :
    Keyed env (tokens.set key token) := by
  intro query stored found
  rw [Table.get_set] at found
  split at found
  · rename_i same
    cases found
    rw [same, home]
  · exact keyed query stored found

namespace TokenCache

variable {env : Env} {cache : TokenCache} {holders : Holders}

theorem Turn.recorded {action : TokenAction} {done : Processed}
    (turn : Turn id env cache holders action done) (keyed : Keyed env cache.tokens)
    (new : action.DeploysNew) :
    cache.ledger.replay env done.event.toList = done.cache.ledger ∧
      Keyed env done.cache.tokens := by
  have counters : ∀ {key token}, cache.tokens.get key = some token →
      cache.ledger.metas.get key = some token.counters := by
    intro key token found
    rw [ledger, Table.get_mapValues, found, Option.map_some]
  cases turn with
  | redeployed | mintSkipped | transferStale | transferSkipped | transferredStale =>
      exact ⟨rfl, keyed⟩
  | @deployed genesis proto owner vacant =>
      obtain ⟨supply, mints, transfers, transactions⟩ := new
      refine ⟨?_, keyed.set rfl⟩
      simp [ledger, LogLedger.replay, LogLedger.record, Table.mapValues_set, TokenMeta.counters,
        supply, mints, transfers, transactions]
  | @minted owner proto txid vout token amt increased found unfinished clamped counted =>
      have home := keyed _ _ found
      refine ⟨?_, keyed.set home⟩
      simp only [Option.toList_some, LogLedger.replay, List.foldl_cons, List.foldl_nil,
        LogLedger.record, home, Table.modify_of_get (counters found)]
      simp [ledger, LogLedger.changeAccount, Table.mapValues_set, TokenMeta.counters,
        TokenMeta.recordMint]
  | @transferAccepted location owner proto txid vout data token account known found filed covered =>
      have home := keyed _ _ found
      refine ⟨?_, keyed.set home⟩
      simp only [Option.toList_some, LogLedger.replay, List.foldl_cons, List.foldl_nil,
        LogLedger.record, home, Table.modify_of_get (counters found)]
      simp [ledger, LogLedger.changeAccount, Table.mapValues_set, TokenMeta.counters,
        TokenMeta.recordTransfer, filed]
  | @burned location recipient txid vout sender data token old decreased valid found filed pending
      covered counted burn =>
      have home := keyed _ _ found
      refine ⟨?_, keyed.set home⟩
      simp only [Option.toList_some, LogLedger.replay, List.foldl_cons, List.foldl_nil,
        LogLedger.record, home, Table.modify_of_get (counters found), burn, if_true]
      simp [ledger, LogLedger.changeAccount, Table.mapValues_set, TokenMeta.counters,
        TokenMeta.recordSend, filed]
  | @sent location recipient txid vout sender data token old account decreased increased valid found
      filed pending covered counted kept credited recounted =>
      have home := keyed _ _ found
      have received : account = _ := credited
      refine ⟨?_, keyed.set home⟩
      simp only [Option.toList_some, LogLedger.replay, List.foldl_cons, List.foldl_nil,
        LogLedger.record, home, Table.modify_of_get (counters found), kept, Bool.false_eq_true,
        if_false]
      simp [ledger, LogLedger.changeAccount, Table.mapValues_set, TokenMeta.counters,
        TokenMeta.recordSend, filed, received]

theorem processTokenActions_recorded {done : Processing} (keyed : Keyed env cache.tokens)
    (new : ∀ action ∈ cache.tokenActions, action.DeploysNew)
    (returned : processTokenActions env cache holders = .ok done) :
    cache.ledger.replay env done.history = done.cache.ledger ∧ Keyed env done.cache.tokens := by
  refine Machine.run_induction (fun _ (state : Processing) =>
    cache.ledger.replay env state.history = state.cache.ledger ∧ Keyed env state.cache.tokens)
    returned ⟨rfl, keyed⟩ ?_
  rintro past action future state next split ⟨replayed, keyedNow⟩ stepped
  obtain ⟨processed, turn, rfl⟩ := step_turn stepped
  obtain ⟨recorded, keyedNext⟩ := turn.recorded keyedNow (new action (by simp [← split]))
  refine ⟨?_, keyedNext⟩
  rw [LogLedger.replay] at replayed recorded
  rw [LogLedger.replay, List.foldl_append, replayed, recorded]

/-- The history of a list of actions, replayed over the ledger before it, is the ledger after
it, when tokens stand under the keys of their ticks. Counters are added in their widths. -/
theorem history_replays {done : Processing} (keyed : Keyed env cache.tokens)
    (new : ∀ action ∈ cache.tokenActions, action.DeploysNew)
    (returned : processTokenActions env cache holders = .ok done) :
    cache.ledger.replay env done.history = done.cache.ledger := by
  obtain ⟨replayed, _⟩ := processTokenActions_recorded keyed new returned
  exact replayed

theorem Feed.deploysNew {txids : Finset Txid} {start : TokenCache}
    (feed : Feed env txids start cache) (none : start.tokenActions = []) :
    ∀ action ∈ cache.tokenActions, action.DeploysNew := by
  induction feed with
  | start => simp [none]
  | @inscribe cache fed template height created own ih =>
      unfold parseTokenAction
      split
      · exact ih
      split
      · split
        · rename_i brc4 _
          cases brc4 with
          | deploy proto =>
              simp only [pushAction]
              split
              · exact ih
              · intro action listed
                rcases List.mem_append.mp listed with old | now
                · exact ih action old
                · rw [List.mem_singleton.mp now]
                  exact ⟨rfl, rfl, rfl, rfl⟩
          | mint proto | transfer proto =>
              simp only [pushAction]
              split
              · exact ih
              · intro action listed
                rcases List.mem_append.mp listed with old | now
                · exact ih action old
                · rw [List.mem_singleton.mp now]
                  trivial
        · exact ih
      · exact ih
  | move fed location recipient txid vout known ih =>
      intro action listed
      rcases List.mem_append.mp listed with old | now
      · exact ih action old
      · rw [List.mem_singleton.mp now]
        trivial

end TokenCache

namespace Sample

theorem coin_size : ([0x63, 0, 0, 0, 0, 0, 0, 0] : Bytes).length = 8 := rfl

def coin : OriginalTokenTick where
  bytes := [0x63, 0, 0, 0, 0, 0, 0, 0]
  size := coin_size

def coinPlace : Location := ⟨⟨1, 0⟩, 0⟩

def coinActions : TokenCache where
  tokenActions := [
    .deploy ⟨1, 0⟩ {
      tick := coin
      max := 9
      lim := 9
      dec := 18
      supply := 0
      transferCount := 0
      mintCount := 0
      height := 1
      created := 0
      deployer := 7
      transactions := 1 } 7,
    .mint 7 { tick := coin, amt := 5 } 1 0,
    .transfer coinPlace 7 { tick := coin, amt := 2 } 1 0,
    .transferred coinPlace 8 2 0]
  allTransfers := (∅ : Table Location TransferProtoDB).set coinPlace
    { tick := coin, amt := 2, height := 1 }

end Sample

theorem coin_replays :
    ∃ done, TokenCache.processTokenActions (.ofRecords .wojakcoin .bellscoin [])
        Sample.coinActions {} = .ok done ∧
      done.history.length = 4 ∧
      Sample.coinActions.ledger.replay (.ofRecords .wojakcoin .bellscoin []) done.history =
        done.cache.ledger := by
  obtain ⟨done, returned, length⟩ : ∃ done, TokenCache.processTokenActions
      (.ofRecords .wojakcoin .bellscoin []) Sample.coinActions {} = .ok done ∧
      done.history.length = 4 := by
    have ran : (TokenCache.processTokenActions (.ofRecords .wojakcoin .bellscoin [])
        Sample.coinActions {}).toOption.any (fun done => decide (done.history.length = 4)) =
        true := by
      decide +kernel
    obtain ⟨done, returned, length⟩ := (Option.any_eq_true _ _).mp ran
    exact ⟨done, Machine.toOption_some.mp returned, of_decide_eq_true length⟩
  refine ⟨done, returned, length, TokenCache.history_replays ?_ (by decide) returned⟩
  intro key token found
  cases found

namespace Sample

/-- A token with as many transactions as its counter can count, under a key, and a mint of it. -/
def mintFull (key : LowerCaseTokenTick) (tick : OriginalTokenTick) : TokenCache where
  tokens := (∅ : Table LowerCaseTokenTick TokenMeta).set key {
    genesis := ⟨1, 0⟩
    proto := {
      tick := coin
      max := 9
      lim := 9
      dec := 18
      supply := 0
      transferCount := 0
      mintCount := 0
      height := 1
      created := 0
      deployer := 7
      transactions := 2 ^ 32 - 1 } }
  tokenActions := [.mint 7 { tick, amt := 5 } 1 0]

theorem other_size : ([0x64, 0, 0, 0, 0, 0, 0, 0] : Bytes).length = 8 := rfl

def other : OriginalTokenTick where
  bytes := [0x64, 0, 0, 0, 0, 0, 0, 0]
  size := other_size

end Sample

/-- The counter of transactions wraps around at an event, and the event of a mint whose token
stands under another key than that of its tick does not lead back to it. -/
theorem coin_miscounted :
    (∃ done, TokenCache.processTokenActions (.ofRecords .wojakcoin .bellscoin [])
        (Sample.mintFull [0x63] Sample.coin) {} = .ok done ∧
      done.history.length = 1 ∧
      ((done.cache.tokens.get [0x63]).map fun token => token.proto.transactions) = some 0) ∧
    ∃ done, TokenCache.processTokenActions (.ofRecords .wojakcoin .bellscoin [])
        (Sample.mintFull [0x64] Sample.other) {} = .ok done ∧
      (Sample.mintFull [0x64] Sample.other).ledger.replay (.ofRecords .wojakcoin .bellscoin [])
        done.history ≠ done.cache.ledger := by
  constructor
  · have ran : (TokenCache.processTokenActions (.ofRecords .wojakcoin .bellscoin [])
        (Sample.mintFull [0x63] Sample.coin) {}).toOption.any (fun done => decide
          (done.history.length = 1 ∧
            ((done.cache.tokens.get [0x63]).map fun token => token.proto.transactions) =
              some 0)) = true := by
      decide +kernel
    obtain ⟨done, returned, wrapped⟩ := (Option.any_eq_true _ _).mp ran
    exact ⟨done, Machine.toOption_some.mp returned, of_decide_eq_true wrapped⟩
  · have ran : (TokenCache.processTokenActions (.ofRecords .wojakcoin .bellscoin [])
        (Sample.mintFull [0x64] Sample.other) {}).toOption.any (fun done => decide
          (((Sample.mintFull [0x64] Sample.other).ledger.replay
              (.ofRecords .wojakcoin .bellscoin []) done.history).metas.get [0x64] ≠
            done.cache.ledger.metas.get [0x64])) = true := by
      decide +kernel
    obtain ⟨done, returned, lost⟩ := (Option.any_eq_true _ _).mp ran
    refine ⟨done, Machine.toOption_some.mp returned, ?_⟩
    intro same
    exact of_decide_eq_true lost (congrArg (fun ledger => ledger.metas.get [0x64]) same)

end WjkIndexer
