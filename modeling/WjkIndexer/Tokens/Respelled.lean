import WjkIndexer.Library.Paired
import WjkIndexer.Tokens.Live

/-!
Actions whose ticks are respelled: what is loaded for them and how they are processed depends on
the keys of the ticks alone, but for the spelling under which a token is deployed.
-/

namespace WjkIndexer

open FiniteTable Paired

/-- Two ticks of one token. Only tokens that are `free` may be spelled in two ways. -/
structure SameTick (env : Env) (free : LowerCaseTokenTick → Prop)
    (tick twin : OriginalTokenTick) : Prop where
  key : env.lower twin = env.lower tick
  fixed : ¬free (env.lower tick) → twin = tick

def TokenMeta.respell (token : TokenMeta) (tick : OriginalTokenTick) : TokenMeta :=
  { token with proto := { token.proto with tick } }

def HistoryTokenAction.respell (tick : OriginalTokenTick) : HistoryTokenAction → HistoryTokenAction
  | .deploy _ max lim dec recipient txid vout => .deploy tick max lim dec recipient txid vout
  | .mint _ amt recipient txid vout => .mint tick amt recipient txid vout
  | .deployTransfer _ amt recipient txid vout => .deployTransfer tick amt recipient txid vout
  | .send _ amt recipient sender txid vout => .send tick amt recipient sender txid vout

/-- An action and a respelled one. -/
inductive ActionAlike (env : Env) (free : LowerCaseTokenTick → Prop) :
    TokenAction → TokenAction → Prop where
  | deploy {genesis proto owner tick} (same : SameTick env free proto.tick tick) :
      ActionAlike env free (.deploy genesis proto owner) (.deploy genesis { proto with tick } owner)
  | mint {owner proto txid vout tick} (same : env.lower tick = env.lower proto.tick) :
      ActionAlike env free (.mint owner proto txid vout) (.mint owner { proto with tick } txid vout)
  | transfer {location owner proto txid vout tick} (same : env.lower tick = env.lower proto.tick) :
      ActionAlike env free (.transfer location owner proto txid vout)
        (.transfer location owner { proto with tick } txid vout)
  | transferred {location recipient txid vout} :
      ActionAlike env free (.transferred location recipient txid vout)
        (.transferred location recipient txid vout)

def RecordAlike (env : Env) (record twin : TransferProtoDB) : Prop :=
  ∃ tick, env.lower tick = env.lower record.tick ∧ twin = { record with tick }

def TokenAlike (env : Env) (free : LowerCaseTokenTick → Prop) (token twin : TokenMeta) : Prop :=
  ∃ tick, SameTick env free token.proto.tick tick ∧ twin = token.respell tick

def TransferAlike (env : Env) (free : LowerCaseTokenTick → Prop)
    (transfer twin : FullHash × TransferProtoDB) : Prop :=
  ∃ tick, SameTick env free transfer.2.tick tick ∧
    twin = (transfer.1, { transfer.2 with tick })

def EventAlike (env : Env) (free : LowerCaseTokenTick → Prop)
    (event twin : HistoryTokenAction) : Prop :=
  ∃ tick, SameTick env free event.tick tick ∧ twin = event.respell tick

/-- Two ledgers that differ in the spelling of their tokens. -/
structure LedgerAlike (env : Env) (free : LowerCaseTokenTick → Prop)
    (tokens : Table LowerCaseTokenTick TokenMeta) (accounts : Table AddressToken TokenBalance)
    (twins : Table LowerCaseTokenTick TokenMeta) (others : Table AddressToken TokenBalance) :
    Prop where
  left : WellFiled env tokens accounts
  right : WellFiled env twins others
  paired : Tables (TokenAlike env free) tokens twins
  agree : ∀ key token twin, tokens.get key = some token → twins.get key = some twin →
    ∀ address, others.get ⟨address, twin.proto.tick⟩ = accounts.get ⟨address, token.proto.tick⟩

theorem SameTick.refl (env : Env) (free : LowerCaseTokenTick → Prop) (tick : OriginalTokenTick) :
    SameTick env free tick tick := ⟨rfl, fun _ => rfl⟩

namespace LedgerAlike

variable {env : Env} {free : LowerCaseTokenTick → Prop}
  {tokens twins : Table LowerCaseTokenTick TokenMeta}
  {accounts others : Table AddressToken TokenBalance} {key : LowerCaseTokenTick}
  {token twin : TokenMeta}

theorem refl (free : LowerCaseTokenTick → Prop) (filed : WellFiled env tokens accounts) :
    LedgerAlike env free tokens accounts tokens accounts where
  left := filed
  right := filed
  paired := .refl (fun token => ⟨token.proto.tick, .refl _ _ _, rfl⟩) tokens
  agree key token twin found foundTwin address := by
    rw [found] at foundTwin
    cases foundTwin
    rfl

theorem set_token (alike : LedgerAlike env free tokens accounts twins others)
    (found : tokens.get key = some token) (foundTwin : twins.get key = some twin)
    {next image : TokenMeta} (related : TokenAlike env free next image)
    (kept : next.proto.tick = token.proto.tick) (keptTwin : image.proto.tick = twin.proto.tick) :
    LedgerAlike env free (tokens.set key next) accounts (twins.set key image) others where
  left := alike.left.set_token found kept
  right := alike.right.set_token foundTwin keptTwin
  paired := alike.paired.set key related
  agree query stored again looked lookedTwin address := by
    rw [Table.get_set] at looked lookedTwin
    split at looked
    · rename_i place
      rw [if_pos place] at lookedTwin
      cases looked
      cases lookedTwin
      rw [kept, keptTwin]
      exact alike.agree key token twin found foundTwin address
    · rename_i place
      rw [if_neg place] at lookedTwin
      exact alike.agree query stored again looked lookedTwin address

theorem set_account (alike : LedgerAlike env free tokens accounts twins others)
    (found : tokens.get key = some token) (foundTwin : twins.get key = some twin)
    (owner : FullHash) (account : TokenBalance) :
    LedgerAlike env free tokens (accounts.set ⟨owner, token.proto.tick⟩ account) twins
      (others.set ⟨owner, twin.proto.tick⟩ account) where
  left := alike.left.set_account found owner account
  right := alike.right.set_account foundTwin owner account
  paired := alike.paired
  agree query stored again looked lookedTwin address := by
    have before := alike.agree query stored again looked lookedTwin address
    by_cases own : query = key ∧ address = owner
    · obtain ⟨rfl, rfl⟩ := own
      rw [found] at looked
      rw [foundTwin] at lookedTwin
      cases looked
      cases lookedTwin
      rw [Table.get_set_self, Table.get_set_self]
    · have apart : (⟨address, stored.proto.tick⟩ : AddressToken) ≠ ⟨owner, token.proto.tick⟩ := by
        intro same
        obtain ⟨sameOwner, spelled⟩ := AddressToken.mk.inj same
        exact own ⟨alike.left.key_eq found looked spelled, sameOwner⟩
      have apartTwin :
          (⟨address, again.proto.tick⟩ : AddressToken) ≠ ⟨owner, twin.proto.tick⟩ := by
        intro same
        obtain ⟨sameOwner, spelled⟩ := AddressToken.mk.inj same
        exact own ⟨alike.right.key_eq foundTwin lookedTwin spelled, sameOwner⟩
      rw [Table.get_set_ne _ _ apart, Table.get_set_ne _ _ apartTwin, before]

theorem deploy (alike : LedgerAlike env free tokens accounts twins others)
    {genesis : InscriptionId} {proto : DeployProtoDB} {tick : OriginalTokenTick}
    (same : SameTick env free proto.tick tick) (vacant : tokens.get (env.lower proto.tick) = none)
    (vacantTwin : twins.get (env.lower proto.tick) = none) :
    LedgerAlike env free (tokens.set (env.lower proto.tick) { genesis, proto }) accounts
      (twins.set (env.lower proto.tick) { genesis, proto := { proto with tick } }) others where
  left := alike.left.deploy vacant
  right := by
    rw [← same.key] at vacantTwin ⊢
    exact alike.right.deploy
      (show twins.get (env.lower { proto with tick : DeployProtoDB }.tick) = none from vacantTwin)
  paired := alike.paired.set _ ⟨tick, same, rfl⟩
  agree query stored again looked lookedTwin address := by
    rw [Table.get_set] at looked lookedTwin
    split at looked
    · rename_i place
      rw [if_pos place] at lookedTwin
      cases looked
      cases lookedTwin
      rw [alike.left.account_vacant vacant, alike.right.account_vacant (same.key ▸ vacantTwin)]
    · rename_i place
      rw [if_neg place] at lookedTwin
      exact alike.agree query stored again looked lookedTwin address

end LedgerAlike

namespace Holders

theorem change_paired (holders others : Holders) (key twin : AddressToken) (account : TokenBalance)
    (amt : Nat) (action : HoldersAction) :
    Results (fun _ _ => True) (holders.change key account amt action)
      (others.change twin account amt action) := by
  cases action with
  | increase =>
      refine .bind (.refl _) fun old _ same => ?_
      subst same
      refine .bind (.refl _) fun new _ same => ?_
      exact .done trivial
  | decrease =>
      refine .bind (.refl _) fun old _ same => ?_
      subst same
      refine .bind (.refl _) fun rest _ same => ?_
      subst same
      split
      · exact .done trivial
      · exact .done trivial

end Holders

namespace TokenCache

variable {env : Env} {free : LowerCaseTokenTick → Prop} {cache twin : TokenCache}
  {holders others : Holders}

structure RunsAlike (env : Env) (free : LowerCaseTokenTick → Prop) (cache twin : TokenCache) :
    Prop where
  ledger : LedgerAlike env free cache.tokens cache.tokenAccounts twin.tokens twin.tokenAccounts
  all : Tables (RecordAlike env) cache.allTransfers twin.allTransfers
  valid : Tables (TransferAlike env free) cache.validTransfers twin.validTransfers

structure DoneAlike (env : Env) (free : LowerCaseTokenTick → Prop) (done twin : Processed) :
    Prop where
  caches : RunsAlike env free done.cache twin.cache
  events : Option.Rel (EventAlike env free) done.event twin.event

theorem processAction_alike (alike : RunsAlike env free cache twin) (holders others : Holders)
    {action image : TokenAction} (respelled : ActionAlike env free action image) :
    Results (DoneAlike env free) (processAction env cache holders action)
      (processAction env twin others image) := by
  cases respelled with
  | @deploy genesis proto owner tick same =>
      simp only [processAction, same.key]
      rcases alike.ledger.paired.lookup (env.lower proto.tick) with
        ⟨vacant, vacantTwin⟩ | ⟨token, image, taken, takenTwin, _⟩
      · rw [vacant, vacantTwin]
        refine .done ⟨?_, .some ⟨tick, same, rfl⟩⟩
        exact { alike with ledger := alike.ledger.deploy same vacant vacantTwin }
      · rw [taken, takenTwin]
        exact .done ⟨alike, .none⟩
  | @mint owner proto txid vout tick same =>
      simp only [processAction, same]
      rcases alike.ledger.paired.lookup (env.lower proto.tick) with
        ⟨vacant, vacantTwin⟩ | ⟨token, _, found, foundTwin, spelled, known, rfl⟩
      · rw [vacant, vacantTwin]
        exact .done ⟨alike, .none⟩
      have account := alike.ledger.agree _ _ _ found foundTwin owner
      rw [found, foundTwin]
      simp only [TokenMeta.respell] at account ⊢
      rw [account]
      refine .ite (fun _ => .done ⟨alike, .none⟩) fun _ =>
        .ite (fun _ => .done ⟨alike, .none⟩) fun _ =>
        .ite (fun _ => .done ⟨alike, .none⟩) fun _ => ?_
      refine .bind (.refl _) fun rest _ same => ?_
      subst same
      refine .bind (.refl _) fun supply _ same => ?_
      subst same
      refine .bind (Holders.change_paired _ _ _ _ _ _ _) fun increased again _ => ?_
      refine .bind (.refl _) fun balance _ same => ?_
      subst same
      refine .done ⟨?_, .some ⟨spelled, known, rfl⟩⟩
      have credited := alike.ledger.set_account found foundTwin owner
        { (cache.tokenAccounts.get ⟨owner, token.proto.tick⟩).getD {} with balance }
      exact { alike with
        ledger := credited.set_token found foundTwin ⟨spelled, known, rfl⟩ rfl rfl }
  | @transfer location owner proto txid vout tick same =>
      simp only [processAction, same]
      rcases alike.all.lookup location with
        ⟨spent, spentTwin⟩ | ⟨data, _, filed, filedTwin, written, _, rfl⟩
      · rw [spent, spentTwin]
        exact .done ⟨alike, .none⟩
      rw [filed, filedTwin]
      have skipped : RunsAlike env free
          { cache with allTransfers := cache.allTransfers.remove location }
          { twin with allTransfers := twin.allTransfers.remove location } :=
        { alike with all := alike.all.remove location }
      rcases alike.ledger.paired.lookup (env.lower proto.tick) with
        ⟨vacant, vacantTwin⟩ | ⟨token, _, found, foundTwin, spelled, known, rfl⟩
      · rw [vacant, vacantTwin]
        exact .done ⟨skipped, .none⟩
      have account := alike.ledger.agree _ _ _ found foundTwin owner
      rw [found, foundTwin]
      simp only [TokenMeta.respell] at account ⊢
      refine .ite (fun _ => .done ⟨skipped, .none⟩) fun _ => ?_
      rw [account]
      cases looked : cache.tokenAccounts.get ⟨owner, token.proto.tick⟩ with
      | none => exact .done ⟨skipped, .none⟩
      | some account =>
          refine .ite (fun _ => .done ⟨skipped, .none⟩) fun _ => ?_
          refine .bind (.refl _) fun balance _ same => ?_
          subst same
          refine .bind (.refl _) fun transferableBalance _ same => ?_
          subst same
          refine .done ⟨?_, .some ⟨spelled, known, rfl⟩⟩
          have locked := alike.ledger.set_account found foundTwin owner {
            balance
            transferableBalance
            transfersCount := countUp 64 account.transfersCount }
          exact {
            ledger := locked.set_token found foundTwin ⟨spelled, known, rfl⟩ rfl rfl
            all := skipped.all
            valid := alike.valid.set location ⟨spelled, known, rfl⟩ }
  | @transferred location recipient txid vout =>
      simp only [processAction]
      rcases alike.valid.lookup location with
        ⟨stale, staleTwin⟩ | ⟨⟨sender, data⟩, _, valid, validTwin, written, same, rfl⟩
      · rw [stale, staleTwin]
        exact .done ⟨alike, .none⟩
      rw [valid, validTwin]
      simp only [same.key]
      rcases alike.ledger.paired.lookup (env.lower data.tick) with
        ⟨vacant, vacantTwin⟩ | ⟨token, _, found, foundTwin, spelled, known, rfl⟩
      · rw [vacant, vacantTwin]
        exact .fault _
      have account := alike.ledger.agree _ _ _ found foundTwin sender
      rw [found, foundTwin]
      simp only [TokenMeta.respell] at account ⊢
      rw [account]
      cases looked : cache.tokenAccounts.get ⟨sender, token.proto.tick⟩ with
      | none => exact .fault _
      | some old =>
          refine .ite (fun _ => .fault _) fun _ => ?_
          refine .bind (Holders.change_paired _ _ _ _ _ _ _) fun decreased again _ => ?_
          refine .bind (.refl _) fun transferableBalance _ same => ?_
          subst same
          have released := alike.ledger.set_account found foundTwin sender {
            old with
            transferableBalance
            transfersCount := old.transfersCount - 1 }
          have removed := alike.valid.remove location
          refine .ite (fun _ => .done ⟨?_, .some ⟨spelled, known, rfl⟩⟩) fun _ => ?_
          · exact {
              ledger := released.set_token found foundTwin ⟨spelled, known, rfl⟩ rfl rfl
              all := alike.all
              valid := removed }
          have credit := released.agree _ _ _ found foundTwin recipient
          simp only [TokenMeta.respell] at credit
          rw [credit]
          refine .bind (Holders.change_paired _ _ _ _ _ _ _) fun increased more _ => ?_
          refine .bind (.refl _) fun balance _ same => ?_
          subst same
          refine .done ⟨?_, .some ⟨spelled, known, rfl⟩⟩
          have credited := released.set_account found foundTwin recipient
            { ((cache.tokenAccounts.set ⟨sender, token.proto.tick⟩ { old with
                transferableBalance
                transfersCount := old.transfersCount - 1 }).get
              ⟨recipient, token.proto.tick⟩).getD {} with balance }
          exact {
            ledger := credited.set_token found foundTwin ⟨spelled, known, rfl⟩ rfl rfl
            all := alike.all
            valid := removed }

structure CacheAlike (env : Env) (free : LowerCaseTokenTick → Prop) (cache twin : TokenCache) :
    Prop where
  actions : List.Forall₂ (ActionAlike env free) cache.tokenActions twin.tokenActions
  all : Tables (RecordAlike env) cache.allTransfers twin.allTransfers
  valid : twin.validTransfers = cache.validTransfers

namespace CacheAlike

theorem moved (alike : CacheAlike env free cache twin) (location : Location) :
    Option.Rel (RecordAlike env) (cache.movedProto location) (twin.movedProto location) := by
  rw [movedProto, movedProto, alike.valid]
  rcases alike.all.lookup location with ⟨absent, absentTwin⟩ | ⟨data, image, found, foundTwin, same⟩
  · rw [absent, absentTwin, Option.none_or]
    cases cache.validTransfers.get location with
    | none => exact .none
    | some transfer => exact .some ⟨transfer.2.tick, rfl, rfl⟩
  · rw [found, foundTwin, Option.some_or, Option.some_or]
    exact .some same

theorem tickersOf_eq (alike : CacheAlike env free cache twin) {action image : TokenAction}
    (respelled : ActionAlike env free action image) :
    twin.tickersOf env image = cache.tickersOf env action := by
  cases respelled with
  | deploy same => rw [tickersOf, tickersOf, same.key]
  | mint same => rw [tickersOf, tickersOf, same]
  | transfer same => rw [tickersOf, tickersOf, same]
  | @transferred location recipient txid vout =>
      rw [tickersOf, tickersOf]
      have moved := alike.moved location
      generalize cache.movedProto location = proto at moved ⊢
      generalize twin.movedProto location = other at moved ⊢
      cases moved with
      | none => rfl
      | some written =>
          obtain ⟨tick, same, rfl⟩ := written
          rw [Option.map_some, Option.map_some, same]

def accountsOf (env : Env) (tokens : Table LowerCaseTokenTick TokenMeta)
    (user : FullHash × OriginalTokenTick) : Finset AddressToken :=
  ((tokens.get (env.lower user.2)).map fun token =>
    (⟨user.1, token.proto.tick⟩ : AddressToken)).toFinset

theorem accountsOf_eq (alike : CacheAlike env free cache twin)
    (tokens : Table LowerCaseTokenTick TokenMeta) {action image : TokenAction}
    (respelled : ActionAlike env free action image) :
    (twin.usersOf env image).biUnion (accountsOf env tokens) =
      (cache.usersOf env action).biUnion (accountsOf env tokens) := by
  have spelled : ∀ address (tick written : OriginalTokenTick), env.lower tick = env.lower written →
      accountsOf env tokens (address, tick) = accountsOf env tokens (address, written) := by
    intro address tick written same
    rw [accountsOf, accountsOf, same]
  cases respelled with
  | deploy => rfl
  | mint same =>
      simp only [usersOf, Finset.singleton_biUnion]
      exact spelled _ _ _ same
  | transfer same =>
      simp only [usersOf, Finset.singleton_biUnion]
      exact spelled _ _ _ same
  | @transferred location recipient txid vout =>
      have moved := alike.moved location
      simp only [usersOf, alike.valid]
      generalize cache.movedProto location = proto at moved ⊢
      generalize twin.movedProto location = other at moved ⊢
      cases moved with
      | none => rfl
      | some written =>
          obtain ⟨tick, same, rfl⟩ := written
          have recipients := spelled recipient _ _ same
          dsimp only
          cases cache.validTransfers.get location with
          | none => split <;> simp [recipients]
          | some transfer => split <;> simp [recipients, spelled transfer.1 _ _ same]

theorem loaded_eq (alike : CacheAlike env free cache twin) (db : DB) :
    (twin.loadTokensData env db).tokens = (cache.loadTokensData env db).tokens ∧
      (twin.loadTokensData env db).tokenAccounts =
        (cache.loadTokensData env db).tokenAccounts := by
  have tickers : (twin.fillTickersAndUsers env).1 = (cache.fillTickersAndUsers env).1 :=
    biUnion_eq alike.actions fun _ _ same => alike.tickersOf_eq same
  have accounts : ∀ tokens, (twin.fillTickersAndUsers env).2.biUnion (accountsOf env tokens) =
      (cache.fillTickersAndUsers env).2.biUnion (accountsOf env tokens) := by
    intro tokens
    simp only [fillTickersAndUsers, Finset.biUnion_biUnion]
    exact biUnion_eq alike.actions fun _ _ same => alike.accountsOf_eq tokens same
  simp only [loadTokensData, tickers]
  exact ⟨trivial, congrArg db.loadTokenAccounts (accounts _)⟩

theorem start (alike : CacheAlike env free cache twin) {db : DB}
    (stored : WellFiled env db.tokenToMeta db.addressTokenToBalance) :
    RunsAlike env free { cache.loadTokensData env db with tokenActions := [] }
      { twin.loadTokensData env db with tokenActions := [] } where
  ledger := by
    obtain ⟨tokens, accounts⟩ := alike.loaded_eq db
    simp only [tokens, accounts]
    exact .refl free (loaded_filed stored)
  all := alike.all
  valid := by
    simp only [loadTokensData, alike.valid]
    exact .refl (fun transfer => ⟨transfer.2.tick, .refl _ _ _, rfl⟩) _

end CacheAlike

structure OutcomeAlike (env : Env) (free : LowerCaseTokenTick → Prop) (done twin : Processing) :
    Prop where
  caches : RunsAlike env free done.cache twin.cache
  history : List.Forall₂ (EventAlike env free) done.history twin.history

theorem step_alike {state image : Processing} (alike : OutcomeAlike env free state image)
    {action other : TokenAction} (respelled : ActionAlike env free action other) :
    Results (OutcomeAlike env free) (state.step env action) (image.step env other) := by
  refine (processAction_alike alike.caches state.holders image.holders respelled).map ?_
  rintro done again ⟨caches, events⟩
  refine ⟨caches, List.rel_append alike.history ?_⟩
  generalize done.event = event at events ⊢
  generalize again.event = shown at events ⊢
  cases events with
  | none => exact .nil
  | some same => exact .cons same .nil

theorem processTokenActions_alike (alike : CacheAlike env free cache twin) {db : DB}
    (stored : WellFiled env db.tokenToMeta db.addressTokenToBalance) (holders others : Holders) :
    Results (OutcomeAlike env free)
      (processTokenActions env (cache.loadTokensData env db) holders)
      (processTokenActions env (twin.loadTokensData env db) others) :=
  .foldlM alike.actions (fun _ _ _ _ states respelled => step_alike states respelled)
    ⟨alike.start stored, .nil⟩

def Spelled (env : Env) (tokens : Table LowerCaseTokenTick TokenMeta) (tick : OriginalTokenTick) :
    Prop :=
  ∃ token, tokens.get (env.lower tick) = some token ∧ token.proto.tick = tick

namespace Spelled

variable {tokens : Table LowerCaseTokenTick TokenMeta} {tick : OriginalTokenTick}
  {key : LowerCaseTokenTick} {token next : TokenMeta}

theorem set (spelled : Spelled env tokens tick) (found : tokens.get key = some token)
    (kept : next.proto.tick = token.proto.tick) : Spelled env (tokens.set key next) tick := by
  obtain ⟨stored, looked, own⟩ := spelled
  by_cases place : env.lower tick = key
  · rw [place, found] at looked
    cases looked
    exact ⟨next, by rw [place, Table.get_set_self], kept.trans own⟩
  · exact ⟨stored, by rw [Table.get_set_ne _ _ place, looked], own⟩

theorem deploy (spelled : Spelled env tokens tick) (vacant : tokens.get key = none)
    (next : TokenMeta) : Spelled env (tokens.set key next) tick := by
  obtain ⟨stored, looked, own⟩ := spelled
  refine ⟨stored, ?_, own⟩
  rw [Table.get_set_ne, looked]
  rintro rfl
  rw [vacant] at looked
  cases looked

theorem written (home : env.lower tick = key) (own : next.proto.tick = tick) :
    Spelled env (tokens.set key next) tick :=
  ⟨next, by rw [home, Table.get_set_self], own⟩

end Spelled

structure SpelledRunning (env : Env) (db : DB) (state : TokenCache)
    (events : List HistoryTokenAction) : Prop where
  kept : ∀ tick, Spelled env db.tokenToMeta tick → Spelled env (live db state).tokens tick
  transfers : ∀ location sender data, state.validTransfers.get location = some (sender, data) →
    Spelled env (live db state).tokens data.tick
  events : ∀ event ∈ events, Spelled env (live db state).tokens event.tick

theorem SpelledRunning.write {db : DB} {before : TokenCache} {done : Processed}
    {events : List HistoryTokenAction} (spelled : SpelledRunning env db before events)
    (kept : ∀ tick, Spelled env (live db before).tokens tick →
      Spelled env (live db done.cache).tokens tick)
    (transfers : ∀ location sender data,
      done.cache.validTransfers.get location = some (sender, data) →
      before.validTransfers.get location = some (sender, data) ∨
        Spelled env (live db done.cache).tokens data.tick)
    (added : ∀ event, done.event = some event →
      Spelled env (live db done.cache).tokens event.tick) :
    SpelledRunning env db done.cache (events ++ done.event.toList) where
  kept tick stored := kept tick (spelled.kept tick stored)
  transfers location sender data valid :=
    (transfers location sender data valid).elim
      (fun old => kept _ (spelled.transfers location sender data old)) id
  events shown listed := by
    rcases List.mem_append.mp listed with earlier | last
    · exact kept _ (spelled.events shown earlier)
    · exact added shown (Option.mem_toList.mp last)

theorem SpelledRunning.turn {db : DB} {past future : List TokenAction} {action : TokenAction}
    {done : Processed} {events : List HistoryTokenAction}
    (spelled : SpelledRunning env db twin events) (running : Running env db cache past twin)
    (split : past ++ action :: future = cache.tokenActions)
    (turn : Turn id env twin holders action done) :
    SpelledRunning env db done.cache (events ++ done.event.toList) := by
  have listed : action ∈ cache.tokenActions := by simp [← split]
  have home := running.traced.filed.keyed
  cases turn with
  | redeployed | mintSkipped | transferStale | transferSkipped | transferredStale =>
      exact spelled.write (fun _ => id) (fun _ _ _ => Or.inl) (fun _ none => nomatch none)
  | @deployed genesis proto owner vacant =>
      have absent : (live db twin).tokens.get (env.lower proto.tick) = none := by
        rw [← running.tokens.get_eq (ticker_loaded db listed (by simp [tickersOf])), vacant]
      refine spelled.write ?_ (fun _ _ _ => Or.inl) ?_
      · intro tick stored
        simp only [live, Table.extend_set]
        exact stored.deploy absent _
      · intro event shown
        cases shown
        simp only [live, Table.extend_set]
        exact .written rfl rfl
  | @minted owner proto txid vout token amt increased found =>
      refine spelled.write ?_ (fun _ _ _ => Or.inl) ?_
      · intro tick stored
        simp only [live, Table.extend_set]
        exact stored.set (running.token_live found) rfl
      · intro event shown
        cases shown
        simp only [live, Table.extend_set]
        exact .written (home _ _ found) rfl
  | @transferAccepted location owner proto txid vout data token account known found =>
      have own : Spelled env ((live db twin).tokens.set (env.lower proto.tick)
          token.recordTransfer) token.proto.tick := .written (home _ _ found) rfl
      refine spelled.write ?_ ?_ ?_
      · intro tick stored
        simp only [live, Table.extend_set]
        exact stored.set (running.token_live found) rfl
      · intro place sender record valid
        simp only [live, Table.extend_set]
        rcases Table.get_set_or valid with old | ⟨_, same⟩
        · exact Or.inl old
        · cases same
          exact Or.inr own
      · intro event shown
        cases shown
        simp only [live, Table.extend_set]
        exact own
  | @burned location recipient txid vout sender data token old decreased valid found =>
      refine spelled.write ?_ (fun _ _ _ left => Or.inl (Table.get_of_remove left)) ?_
      · intro tick stored
        simp only [live, Table.extend_set]
        exact stored.set (running.token_live found) rfl
      · intro event shown
        cases shown
        simp only [live, Table.extend_set]
        exact .written (home _ _ found) rfl
  | @sent location recipient txid vout sender data token old account decreased increased valid
      found =>
      refine spelled.write ?_ (fun _ _ _ left => Or.inl (Table.get_of_remove left)) ?_
      · intro tick stored
        simp only [live, Table.extend_set]
        exact stored.set (running.token_live found) rfl
      · intro event shown
        cases shown
        simp only [live, Table.extend_set]
        exact .written (home _ _ found) rfl

theorem processing_spelled {db : DB} {done : Processing}
    (stored : WellFiled env db.tokenToMeta db.addressTokenToBalance)
    (transfers : ∀ location sender data,
      cache.validTransfers.get location = some (sender, data) →
      Spelled env db.tokenToMeta data.tick)
    (returned : processTokenActions env (cache.loadTokensData env db) holders = .ok done) :
    WellFiled env done.cache.tokens done.cache.tokenAccounts ∧
      SpelledRunning env db done.cache done.history := by
  have start : SpelledRunning env db { cache.loadTokensData env db with tokenActions := [] } [] := by
    have tokens : (live db { cache.loadTokensData env db with tokenActions := [] }).tokens =
      db.tokenToMeta := Table.extend_restrict _ _
    constructor
    · rw [tokens]
      exact fun _ => id
    · rw [tokens]
      exact transfers
    · exact fun _ impossible => (List.not_mem_nil impossible).elim
  have run := Machine.run_induction (fun past (state : Processing) =>
    Running env db cache past state.cache ∧ SpelledRunning env db state.cache state.history)
    returned ⟨Running.start stored, start⟩ ?_
  · exact ⟨run.1.traced.filed, run.2⟩
  · rintro past action future state next split ⟨running, spelled⟩ stepped
    obtain ⟨processed, turn, rfl⟩ := step_turn stepped
    exact ⟨running.step split turn, spelled.turn running split turn⟩

end TokenCache

end WjkIndexer
