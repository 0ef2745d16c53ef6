import WjkIndexer.Library.Overlay
import WjkIndexer.Tokens.Feed

/-!
The preloaded cache: processing a block on the tokens and the accounts that were loaded
for it, against processing it on all that is stored.
-/

namespace WjkIndexer.TokenCache

open FiniteTable

def loadAll (cache : TokenCache) (db : DB) : TokenCache :=
  { cache with tokens := db.tokenToMeta, tokenAccounts := db.addressTokenToBalance }

def firstTransfer (actions : List TokenAction) (location : Location) :
    Option (FullHash × MintProtoWrapper) :=
  (transfersAt actions location).head?

/-- Whoever is sent a transfer inscribed in the same block has the account in the loaded
cache that is stored for the transfer's token, as far as `view` shows it; a missing account
reads as an empty one. -/
def CreditsLoaded {A : Type} (view : TokenBalance → A) (env : Env) (db : DB)
    (cache : TokenCache) : Prop :=
  ∀ location recipient txid vout,
    .transferred location recipient txid vout ∈ cache.tokenActions →
    env.isOpReturnHash recipient = false →
    ∀ owner proto, firstTransfer cache.tokenActions location = some (owner, proto) →
    ∀ token, db.tokenToMeta.get (env.lower proto.tick) = some token →
    view (((cache.loadTokensData env db).tokenAccounts.get
        ⟨recipient, token.proto.tick⟩).getD {}) =
      view ((db.addressTokenToBalance.get ⟨recipient, token.proto.tick⟩).getD {})

instance {A : Type} [DecidableEq A] (view : TokenBalance → A) (env : Env) (db : DB)
    (cache : TokenCache) : Decidable (CreditsLoaded view env db cache) :=
  decidable_of_iff
    (∀ action ∈ cache.tokenActions, (match action with
      | .transferred location recipient _ _ => env.isOpReturnHash recipient ||
          (firstTransfer cache.tokenActions location).all (fun first =>
            (db.tokenToMeta.get (env.lower first.2.tick)).all fun token => decide
              (view (((cache.loadTokensData env db).tokenAccounts.get
                  ⟨recipient, token.proto.tick⟩).getD {}) =
                view ((db.addressTokenToBalance.get
                  ⟨recipient, token.proto.tick⟩).getD {})))
      | _ => true) = true)
    (by
      constructor
      · intro checked location recipient txid vout listed kept owner proto first token stored
        have loaded := checked _ listed
        simp only [kept, first, Option.all_some, stored, Bool.false_or, decide_eq_true_eq] at loaded
        exact loaded
      · intro credits action listed
        cases action with
        | transferred location recipient txid vout =>
            simp only [Bool.or_eq_true, Option.all_eq_true, decide_eq_true_eq,
              or_iff_not_imp_left, Bool.not_eq_true]
            intro kept first found token stored
            exact credits location recipient txid vout listed kept first.1 first.2 found token
              stored
        | deploy | mint | transfer => rfl)

/-- The token of the record that a move has: the last transfer inscribed at the location, or else
the stored one. -/
def lastKey (env : Env) (cache : TokenCache) (location : Location) : Option LowerCaseTokenTick :=
  match (transfersAt cache.tokenActions location).getLast? with
  | some (_, proto) => some (env.lower proto.tick)
  | none => (cache.validTransfers.get location).map fun transfer => env.lower transfer.2.tick

/-- An action names an address for a token: it mints, it inscribes a transfer, it is sent the last
transfer of a location, or it had stored the transfer that is moved. -/
def Names (env : Env) (cache : TokenCache) (address : FullHash) (key : LowerCaseTokenTick) :
    TokenAction → Prop
  | .deploy _ _ _ => False
  | .mint owner proto _ _ => owner = address ∧ env.lower proto.tick = key
  | .transfer _ owner proto _ _ => owner = address ∧ env.lower proto.tick = key
  | .transferred location recipient _ _ => cache.lastKey env location = some key ∧
      (recipient = address ∧ env.isOpReturnHash recipient = false ∨
        (cache.validTransfers.get location).map Prod.fst = some address)

instance (env : Env) (cache : TokenCache) (address : FullHash) (key : LowerCaseTokenTick)
    (action : TokenAction) : Decidable (Names env cache address key action) :=
  match action with
  | .deploy _ _ _ => inferInstanceAs (Decidable False)
  | .mint owner proto _ _ =>
      inferInstanceAs (Decidable (owner = address ∧ env.lower proto.tick = key))
  | .transfer _ owner proto _ _ =>
      inferInstanceAs (Decidable (owner = address ∧ env.lower proto.tick = key))
  | .transferred location recipient _ _ =>
      inferInstanceAs (Decidable (cache.lastKey env location = some key ∧
        (recipient = address ∧ env.isOpReturnHash recipient = false ∨
          (cache.validTransfers.get location).map Prod.fst = some address)))

/-- Whoever is sent a transfer inscribed in the same block has nothing stored for the token of the
first transfer at its location, or is named for this token by an action of the block. -/
def CreditsNamed (env : Env) (db : DB) (cache : TokenCache) : Prop :=
  ∀ location recipient txid vout,
    .transferred location recipient txid vout ∈ cache.tokenActions →
    env.isOpReturnHash recipient = false →
    ∀ owner proto, firstTransfer cache.tokenActions location = some (owner, proto) →
    ∀ token, db.tokenToMeta.get (env.lower proto.tick) = some token →
    (db.addressTokenToBalance.get ⟨recipient, token.proto.tick⟩).getD {} = {} ∨
      ∃ action ∈ cache.tokenActions, Names env cache recipient (env.lower proto.tick) action

instance (env : Env) (db : DB) (cache : TokenCache) : Decidable (CreditsNamed env db cache) :=
  decidable_of_iff
    (∀ action ∈ cache.tokenActions, (match action with
      | .transferred location recipient _ _ => env.isOpReturnHash recipient ||
          (firstTransfer cache.tokenActions location).all (fun first =>
            (db.tokenToMeta.get (env.lower first.2.tick)).all fun token => decide
              ((db.addressTokenToBalance.get ⟨recipient, token.proto.tick⟩).getD {} = {} ∨
                ∃ action ∈ cache.tokenActions,
                  Names env cache recipient (env.lower first.2.tick) action))
      | _ => true) = true)
    (by
      constructor
      · intro checked location recipient txid vout listed kept owner proto first token stored
        have named := checked _ listed
        simp only [kept, first, Option.all_some, stored, Bool.false_or, decide_eq_true_eq] at named
        exact named
      · intro credits action listed
        cases action with
        | transferred location recipient txid vout =>
            simp only [Bool.or_eq_true, Option.all_eq_true, decide_eq_true_eq,
              or_iff_not_imp_left, Bool.not_eq_true]
            intro kept first found token stored
            have named := credits location recipient txid vout listed kept first.1 first.2 found
              token stored
            exact or_iff_not_imp_left.mp named
        | deploy | mint | transfer => rfl)

variable {env : Env} {db : DB} {cache : TokenCache}

theorem get_loaded_tokens (env : Env) (db : DB) (cache : TokenCache) (key : LowerCaseTokenTick) :
    (cache.loadTokensData env db).tokens.get key =
      if key ∈ (cache.fillTickersAndUsers env).1 then db.tokenToMeta.get key else none := by
  simp [loadTokensData]

theorem loaded_tokens_sub (key : LowerCaseTokenTick) (token : TokenMeta)
    (found : (cache.loadTokensData env db).tokens.get key = some token) :
    db.tokenToMeta.get key = some token := by
  rw [get_loaded_tokens] at found
  split at found
  · exact found
  · cases found

theorem loaded_accounts_sub (key : AddressToken) (account : TokenBalance)
    (found : (cache.loadTokensData env db).tokenAccounts.get key = some account) :
    db.addressTokenToBalance.get key = some account := by
  simp only [loadTokensData, DB.loadTokenAccounts, Table.get_restrict] at found
  split at found
  · exact found
  · cases found

theorem ticker_loaded (db : DB) {action : TokenAction} (listed : action ∈ cache.tokenActions)
    {key : LowerCaseTokenTick} (mentioned : key ∈ cache.tickersOf env action) :
    (cache.loadTokensData env db).tokens.get key = db.tokenToMeta.get key := by
  rw [get_loaded_tokens, if_pos]
  simp only [fillTickersAndUsers, Finset.mem_biUnion, List.mem_toFinset]
  exact ⟨action, listed, mentioned⟩

theorem user_loaded {action : TokenAction} (listed : action ∈ cache.tokenActions)
    {address : FullHash} {tick : OriginalTokenTick}
    (mentioned : (address, tick) ∈ cache.usersOf env action)
    (ticker : env.lower tick ∈ cache.tickersOf env action) {token : TokenMeta}
    (stored : db.tokenToMeta.get (env.lower tick) = some token) :
    (cache.loadTokensData env db).tokenAccounts.get ⟨address, token.proto.tick⟩ =
      db.addressTokenToBalance.get ⟨address, token.proto.tick⟩ := by
  have loaded := ticker_loaded db listed ticker
  have user : (address, tick) ∈ (cache.fillTickersAndUsers env).2 := by
    simp only [fillTickersAndUsers, Finset.mem_biUnion, List.mem_toFinset]
    exact ⟨action, listed, mentioned⟩
  simp only [loadTokensData, Table.get_restrict] at loaded
  simp only [loadTokensData, DB.loadTokenAccounts, Table.get_restrict]
  refine if_pos (Finset.mem_biUnion.mpr ⟨(address, tick), user, ?_⟩)
  simp only [loaded.trans stored, Option.map_some, Option.toFinset_some, Finset.mem_singleton]

/-- What is known along the processing of a fed cache: no token of `tokens` loses its
spelling, a location is taken up once, and a valid transfer was loaded or stems from the
first transfer that was inscribed at its location. -/
structure Traced (env : Env) (tokens : Table LowerCaseTokenTick TokenMeta) (cache : TokenCache)
    (past : List TokenAction) (whole : TokenCache) : Prop where
  filed : WellFiled env whole.tokens whole.tokenAccounts
  kept : ∀ key token, tokens.get key = some token →
    ∃ now, whole.tokens.get key = some now ∧ now.proto.tick = token.proto.tick
  spent : ∀ location, transfersAt past location ≠ [] → whole.allTransfers.get location = none
  all : ∀ location data, whole.allTransfers.get location = some data →
    cache.allTransfers.get location = some data
  origin : ∀ location sender data, whole.validTransfers.get location = some (sender, data) →
    cache.validTransfers.get location = some (sender, data) ∨
    transfersAt past location ≠ [] ∧
      ∃ proto, firstTransfer cache.tokenActions location = some (sender, proto) ∧
        env.lower data.tick = env.lower proto.tick

section Traced

variable {tokens : Table LowerCaseTokenTick TokenMeta} {past future : List TokenAction}
  {whole : TokenCache} {holders : Holders}

theorem Traced.kept_set (traced : Traced env tokens cache past whole) {key : LowerCaseTokenTick}
    {token next : TokenMeta} (found : whole.tokens.get key = some token)
    (sameTick : next.proto.tick = token.proto.tick) (query : LowerCaseTokenTick)
    (stored : TokenMeta) (looked : tokens.get query = some stored) :
    ∃ now, (whole.tokens.set key next).get query = some now ∧
      now.proto.tick = stored.proto.tick := by
  obtain ⟨now, foundNow, spelled⟩ := traced.kept query stored looked
  by_cases same : query = key
  · rw [same, found] at foundNow
    cases foundNow
    exact ⟨next, by rw [same, Table.get_set_self], sameTick.trans spelled⟩
  · exact ⟨now, by rw [Table.get_set_ne _ _ same, foundNow], spelled⟩

theorem Traced.first (traced : Traced env tokens cache past whole) {location : Location}
    {owner : FullHash} {proto : MintProtoWrapper} {txid : Txid} {vout : Nat}
    (split : past ++ .transfer location owner proto txid vout :: future = cache.tokenActions)
    {data : TransferProtoDB} (known : whole.allTransfers.get location = some data) :
    firstTransfer cache.tokenActions location = some (owner, proto) := by
  have none : transfersAt past location = [] := by
    by_contra some
    rw [traced.spent location some] at known
    cases known
  rw [firstTransfer, ← split, transfersAt_append, none, List.nil_append]
  simp [transfersAt]

theorem spent_snoc {location : Location} {action : TokenAction}
    {transfers : Table Location TransferProtoDB}
    (spent : ∀ location, transfersAt past location ≠ [] → transfers.get location = none)
    (plain : transfersAt [action] location = [])
    (taken : transfersAt (past ++ [action]) location ≠ []) : transfers.get location = none := by
  rw [transfersAt_append, plain, List.append_nil] at taken
  exact spent location taken

theorem Traced.all_remove (traced : Traced env tokens cache past whole) (place location : Location)
    (data : TransferProtoDB) (left : (whole.allTransfers.remove place).get location = some data) :
    cache.allTransfers.get location = some data := by
  rw [Table.get_remove] at left
  split at left
  · cases left
  · exact traced.all location data left

theorem Traced.origin_snoc (traced : Traced env tokens cache past whole) (action : TokenAction)
    (location : Location) (sender : FullHash) (data : TransferProtoDB)
    (valid : whole.validTransfers.get location = some (sender, data)) :
    cache.validTransfers.get location = some (sender, data) ∨
    transfersAt (past ++ [action]) location ≠ [] ∧
      ∃ proto, firstTransfer cache.tokenActions location = some (sender, proto) ∧
        env.lower data.tick = env.lower proto.tick := by
  rcases traced.origin location sender data valid with loaded | ⟨inscribed, first⟩
  · exact Or.inl loaded
  · rw [transfersAt_append]
    exact Or.inr ⟨by simp [inscribed], first⟩

theorem Traced.origin_remove (traced : Traced env tokens cache past whole) (action : TokenAction)
    (place location : Location) (sender : FullHash) (data : TransferProtoDB)
    (left : (whole.validTransfers.remove place).get location = some (sender, data)) :
    cache.validTransfers.get location = some (sender, data) ∨
    transfersAt (past ++ [action]) location ≠ [] ∧
      ∃ proto, firstTransfer cache.tokenActions location = some (sender, proto) ∧
        env.lower data.tick = env.lower proto.tick := by
  rw [Table.get_remove] at left
  split at left
  · cases left
  · exact traced.origin_snoc action location sender data left

theorem Traced.step {A : Type} {view : TokenBalance → A}
    (traced : Traced env tokens cache past whole) {action : TokenAction}
    (split : past ++ action :: future = cache.tokenActions) {done : Processed}
    (turn : Turn view env whole holders action done) :
    Traced env tokens cache (past ++ [action]) done.cache := by
  cases turn with
  | redeployed | mintSkipped | transferredStale =>
      exact { traced with
        spent := fun location => spent_snoc traced.spent rfl
        origin := traced.origin_snoc _ }
  | @deployed genesis proto owner vacant =>
      refine {
        filed := traced.filed.deploy vacant
        kept := ?_
        spent := fun location => spent_snoc traced.spent rfl
        all := traced.all
        origin := traced.origin_snoc _ }
      intro key token looked
      obtain ⟨now, found, spelled⟩ := traced.kept key token looked
      refine ⟨now, ?_, spelled⟩
      rw [Table.get_set_ne, found]
      rintro rfl
      rw [vacant] at found
      cases found
  | @minted owner proto txid vout token amt increased found unfinished clamped counted =>
      exact {
        filed := (traced.filed.set_account found _ _).set_token found rfl
        kept := traced.kept_set found rfl
        spent := fun location => spent_snoc traced.spent rfl
        all := traced.all
        origin := traced.origin_snoc _ }
  | @transferStale place owner proto txid vout absent =>
      refine { traced with spent := ?_, origin := traced.origin_snoc _ }
      intro location taken
      by_cases same : place = location
      · rw [← same]
        exact absent
      · exact spent_snoc traced.spent (by simp [transfersAt, same]) taken
  | @transferSkipped place owner proto txid vout data known =>
      refine { traced with
        spent := ?_
        all := traced.all_remove place
        origin := traced.origin_snoc _ }
      intro location taken
      rw [Table.get_remove]
      by_cases same : place = location
      · rw [if_pos same.symm]
      · rw [if_neg (Ne.symm same)]
        exact spent_snoc traced.spent (by simp [transfersAt, same]) taken
  | @transferAccepted place owner proto txid vout data token account known found filed covered =>
      have first := traced.first split known
      refine {
        filed := (traced.filed.set_account found _ _).set_token found rfl
        kept := traced.kept_set found rfl
        spent := ?_
        all := traced.all_remove place
        origin := ?_ }
      · intro location taken
        rw [Table.get_remove]
        by_cases same : place = location
        · rw [if_pos same.symm]
        · rw [if_neg (Ne.symm same)]
          exact spent_snoc traced.spent (by simp [transfersAt, same]) taken
      · intro location sender record valid
        rw [Table.get_set] at valid
        split at valid
        · rename_i same
          simp only [Option.some.injEq, Prod.mk.injEq] at valid
          obtain ⟨rfl, rfl⟩ := valid
          rw [same, transfersAt_append]
          exact Or.inr ⟨by simp [transfersAt], proto, first, traced.filed.keyed _ _ found⟩
        · exact traced.origin_snoc _ location sender record valid
  | @burned place recipient txid vout sender data token old decreased valid found filed pending
      covered counted burn =>
      exact {
        filed := (traced.filed.set_account found _ _).set_token found rfl
        kept := traced.kept_set found rfl
        spent := fun location => spent_snoc traced.spent rfl
        all := traced.all
        origin := traced.origin_remove _ place }
  | @sent place recipient txid vout sender data token old account decreased increased valid found
      filed pending covered counted kept credited recounted =>
      exact {
        filed := ((traced.filed.set_account found _ _).set_account found _ _).set_token found rfl
        kept := traced.kept_set found rfl
        spent := fun location => spent_snoc traced.spent rfl
        all := traced.all
        origin := traced.origin_remove _ place }

end Traced

/-- What is known of a block whose cache was fed: a well-filed ledger, and loaded transfers
at whose locations nothing is inscribed in the block. -/
structure Preloadable (env : Env) (db : DB) (cache : TokenCache) : Prop where
  filed : WellFiled env db.tokenToMeta db.addressTokenToBalance
  known : ∀ location transfer, cache.validTransfers.get location = some transfer →
    cache.allTransfers.get location = some transfer.2
  fresh : ∀ location, transfersAt cache.tokenActions location ≠ [] →
    cache.validTransfers.get location = none

section Credits

variable {txids : Finset Txid} {begun : TokenCache}

theorem movedProto_of_lastKey (preloadable : Preloadable env db cache)
    (fed : Fed env txids begun cache) {location : Location} {key : LowerCaseTokenTick}
    (last : cache.lastKey env location = some key) :
    ∃ proto, cache.movedProto location = some proto ∧ env.lower proto.tick = key := by
  unfold lastKey at last
  split at last
  · rename_i owner proto ended
    obtain ⟨height, stands⟩ := fed.last location owner proto ended
    exact ⟨_, by rw [movedProto, stands]; rfl, Option.some.inj last⟩
  · obtain ⟨transfer, valid, same⟩ := Option.map_eq_some_iff.mp last
    exact ⟨transfer.2, by rw [movedProto, preloadable.known location transfer valid]; rfl, same⟩

theorem names_used (preloadable : Preloadable env db cache) (fed : Fed env txids begun cache)
    {address : FullHash} {key : LowerCaseTokenTick} {action : TokenAction}
    (named : Names env cache address key action) :
    ∃ tick, env.lower tick = key ∧ (address, tick) ∈ cache.usersOf env action ∧
      key ∈ cache.tickersOf env action := by
  cases action with
  | deploy => exact absurd named id
  | mint owner proto txid vout =>
      obtain ⟨rfl, rfl⟩ := named
      exact ⟨proto.tick, rfl, by simp [usersOf], by simp [tickersOf]⟩
  | transfer location owner proto txid vout =>
      obtain ⟨rfl, rfl⟩ := named
      exact ⟨proto.tick, rfl, by simp [usersOf], by simp [tickersOf]⟩
  | transferred location recipient txid vout =>
      obtain ⟨last, who⟩ := named
      obtain ⟨proto, moved, rfl⟩ := movedProto_of_lastKey preloadable fed last
      refine ⟨proto.tick, rfl, ?_, by simp [tickersOf, moved]⟩
      rcases who with ⟨rfl, kept⟩ | sender
      · simp [usersOf, moved, kept]
      · obtain ⟨transfer, valid, rfl⟩ := Option.map_eq_some_iff.mp sender
        simp [usersOf, moved, valid]

/-- Named accounts are loaded, and those that are not named have nothing to lose. -/
theorem CreditsNamed.loaded (credits : CreditsNamed env db cache)
    (preloadable : Preloadable env db cache) (fed : Fed env txids begun cache) :
    CreditsLoaded id env db cache := by
  intro location recipient txid vout listed kept owner proto first token stored
  rcases credits location recipient txid vout listed kept owner proto first token stored with
    empty | ⟨action, member, named⟩
  · rw [empty]
    cases loaded : (cache.loadTokensData env db).tokenAccounts.get
        ⟨recipient, token.proto.tick⟩ with
    | none => rfl
    | some account =>
        rw [loaded_accounts_sub _ _ loaded] at empty
        exact empty
  · obtain ⟨tick, same, user, ticker⟩ := names_used preloadable fed named
    rw [← same] at stored ticker
    rw [user_loaded member user ticker stored]

theorem CreditsLoaded.mono {A : Type} {view : TokenBalance → A}
    (credits : CreditsLoaded id env db cache) : CreditsLoaded view env db cache := by
  intro location recipient txid vout listed kept owner proto first token stored
  exact congrArg view
    (credits location recipient txid vout listed kept owner proto first token stored)

end Credits

section Settled

variable {tokens : Table LowerCaseTokenTick TokenMeta} {past future : List TokenAction}
  {state : TokenCache}

theorem account_vacant (preloadable : Preloadable env db cache)
    (traced : Traced env tokens cache past state) {key : LowerCaseTokenTick}
    {token : TokenMeta} (found : state.tokens.get key = some token)
    (stored : db.tokenToMeta.get key = none) (address : FullHash) :
    (cache.loadTokensData env db).tokenAccounts.get ⟨address, token.proto.tick⟩ =
      db.addressTokenToBalance.get ⟨address, token.proto.tick⟩ := by
  rw [← traced.filed.keyed _ _ found] at stored
  have vacant := preloadable.filed.account_vacant stored address
  rw [vacant]
  apply Option.eq_none_iff_forall_ne_some.mpr
  intro account loaded
  rw [loaded_accounts_sub _ _ loaded] at vacant
  cases vacant

theorem account_settled (preloadable : Preloadable env db cache)
    (traced : Traced env tokens cache past state)
    (sub : ∀ key token, (cache.loadTokensData env db).tokens.get key = some token →
      tokens.get key = some token)
    {action : TokenAction} (listed : action ∈ cache.tokenActions) (address : FullHash)
    {tick : OriginalTokenTick} (mentioned : (address, tick) ∈ cache.usersOf env action)
    (ticker : env.lower tick ∈ cache.tickersOf env action) {token : TokenMeta}
    (found : state.tokens.get (env.lower tick) = some token) :
    (cache.loadTokensData env db).tokenAccounts.get ⟨address, token.proto.tick⟩ =
      db.addressTokenToBalance.get ⟨address, token.proto.tick⟩ := by
  cases stored : db.tokenToMeta.get (env.lower tick) with
  | some deployed =>
      have loaded := (ticker_loaded db listed ticker).trans stored
      obtain ⟨now, foundNow, spelled⟩ := traced.kept _ _ (sub _ _ loaded)
      rw [found] at foundNow
      cases foundNow
      rw [spelled]
      exact user_loaded listed mentioned ticker stored
  | none =>
      exact account_vacant preloadable traced found stored address

theorem moved_settled {A : Type} {view : TokenBalance → A}
    (preloadable : Preloadable env db cache) (credits : CreditsLoaded view env db cache)
    (traced : Traced env tokens cache past state)
    (sub : ∀ key token, (cache.loadTokensData env db).tokens.get key = some token →
      tokens.get key = some token)
    {location : Location} {recipient sender : FullHash} {txid : Txid} {vout : Nat}
    {data : TransferProtoDB}
    (listed : .transferred location recipient txid vout ∈ cache.tokenActions)
    (valid : state.validTransfers.get location = some (sender, data)) :
    (cache.loadTokensData env db).tokens.get (env.lower data.tick) =
        db.tokenToMeta.get (env.lower data.tick) ∧
      ∀ token, state.tokens.get (env.lower data.tick) = some token →
        (cache.loadTokensData env db).tokenAccounts.get ⟨sender, token.proto.tick⟩ =
            db.addressTokenToBalance.get ⟨sender, token.proto.tick⟩ ∧
          (env.isOpReturnHash recipient = false →
            view (((cache.loadTokensData env db).tokenAccounts.get
                ⟨recipient, token.proto.tick⟩).getD {}) =
              view ((db.addressTokenToBalance.get ⟨recipient, token.proto.tick⟩).getD {})) := by
  rcases traced.origin location sender data valid with loaded | ⟨_, proto, first, sameKey⟩
  · -- the transfer was loaded, and its record is the one that was looked up
    have moved : cache.movedProto location = some data := by
      rw [movedProto, preloadable.known location _ loaded]
      rfl
    have ticker : env.lower data.tick ∈
        cache.tickersOf env (.transferred location recipient txid vout) := by
      simp [tickersOf, moved]
    refine ⟨ticker_loaded db listed ticker, ?_⟩
    intro token found
    constructor
    · refine account_settled preloadable traced sub listed _ ?_ ticker found
      simp [usersOf, moved, loaded]
    · intro kept
      rw [account_settled preloadable traced sub listed _ ?_ ticker found]
      simp [usersOf, moved, kept]
  · -- the transfer was inscribed in this block
    obtain ⟨place, slot, inscribed⟩ := mem_transfersAt.mp (List.mem_of_head? first)
    have ticker : env.lower proto.tick ∈
        cache.tickersOf env (.transfer location sender proto place slot) := by
      simp [tickersOf]
    rw [sameKey]
    refine ⟨ticker_loaded db inscribed ticker, ?_⟩
    intro token found
    constructor
    · exact account_settled preloadable traced sub inscribed _ (by simp [usersOf]) ticker found
    · intro kept
      cases stored : db.tokenToMeta.get (env.lower proto.tick) with
      | some deployed =>
          have loaded := (ticker_loaded db inscribed ticker).trans stored
          obtain ⟨now, foundNow, spelled⟩ := traced.kept _ _ (sub _ _ loaded)
          rw [found] at foundNow
          cases foundNow
          rw [spelled]
          exact credits location recipient txid vout listed kept sender proto first
            deployed stored
      | none =>
          rw [account_vacant preloadable traced found stored recipient]

end Settled

section Simulation

variable {past future : List TokenAction} {part whole : TokenCache} {holders : Holders}

structure Tracks (env : Env) (db : DB) (cache part whole : TokenCache) : Prop where
  allTransfers : part.allTransfers = whole.allTransfers
  validTransfers : part.validTransfers = whole.validTransfers
  tokens : Overlay db.tokenToMeta (cache.loadTokensData env db).tokens part.tokens whole.tokens
  accounts : Overlay db.addressTokenToBalance (cache.loadTokensData env db).tokenAccounts
    part.tokenAccounts whole.tokenAccounts

inductive Agree (env : Env) (db : DB) (cache : TokenCache) :
    Except Fault Processed → Except Fault Processed → Prop where
  | fault (fault : Fault) : Agree env db cache (.error fault) (.error fault)
  | done {part whole : TokenCache} (tracks : Tracks env db cache part whole) (holders : Holders)
      (event : Option HistoryTokenAction) :
      Agree env db cache (.ok { cache := part, holders, event })
        (.ok { cache := whole, holders, event })

theorem Agree.bind {α : Type} {first : Except Fault α} {next twin : α → Except Fault Processed}
    (agree : ∀ value, first = .ok value → Agree env db cache (next value) (twin value)) :
    Agree env db cache (first >>= next) (first >>= twin) := by
  cases first with
  | error fault => exact .fault fault
  | ok value => exact agree value rfl

theorem processAction_agree (preloadable : Preloadable env db cache)
    (credits : CreditsLoaded id env db cache)
    (traced : Traced env db.tokenToMeta cache past whole)
    (tracks : Tracks env db cache part whole) (holders : Holders) {action : TokenAction}
    (split : past ++ action :: future = cache.tokenActions) :
    Agree env db cache (processAction env part holders action)
      (processAction env whole holders action) := by
  have listed : action ∈ cache.tokenActions := by simp [← split]
  cases action with
  | deploy genesis proto owner =>
      have ticker : env.lower proto.tick ∈
          cache.tickersOf env (.deploy genesis proto owner) := by
        simp [tickersOf]
      have same := tracks.tokens.get_eq (ticker_loaded db listed ticker)
      simp only [processAction, same]
      split
      · exact .done tracks holders none
      · refine .done ?_ holders _
        exact { tracks with tokens := tracks.tokens.set _ _ }
  | mint owner proto txid vout =>
      have ticker : env.lower proto.tick ∈ cache.tickersOf env (.mint owner proto txid vout) := by
        simp [tickersOf]
      have same := tracks.tokens.get_eq (ticker_loaded db listed ticker)
      simp only [processAction, same]
      split
      · exact .done tracks holders none
      rename_i token found
      split
      · exact .done tracks holders none
      split
      · exact .done tracks holders none
      split
      · exact .done tracks holders none
      have account := tracks.accounts.get_eq (account_settled preloadable traced
        loaded_tokens_sub listed owner (by simp [usersOf]) ticker found)
      rw [account]
      refine .bind fun rest _ => .bind fun supply _ => .bind fun increased _ =>
        .bind fun balance _ => ?_
      refine .done ?_ increased _
      exact { tracks with
        tokens := tracks.tokens.set _ _
        accounts := tracks.accounts.set _ _ }
  | transfer location owner proto txid vout =>
      have ticker : env.lower proto.tick ∈
          cache.tickersOf env (.transfer location owner proto txid vout) := by
        simp [tickersOf]
      have same := tracks.tokens.get_eq (ticker_loaded db listed ticker)
      have skipped : Tracks env db cache
          { part with allTransfers := whole.allTransfers.remove location }
          { whole with allTransfers := whole.allTransfers.remove location } :=
        { tracks with allTransfers := rfl }
      simp only [processAction, same, tracks.allTransfers]
      split
      · exact .done tracks holders none
      split
      · exact .done skipped holders none
      rename_i token found
      split
      · exact .done skipped holders none
      have account := tracks.accounts.get_eq (account_settled preloadable traced
        loaded_tokens_sub listed owner (by simp [usersOf]) ticker found)
      rw [account]
      split
      · exact .done skipped holders none
      split
      · exact .done skipped holders none
      refine .bind fun balance _ => .bind fun locked _ => ?_
      refine .done ?_ holders _
      exact {
        allTransfers := rfl
        validTransfers := by rw [tracks.validTransfers]
        tokens := tracks.tokens.set _ _
        accounts := tracks.accounts.set _ _ }
  | transferred location recipient txid vout =>
      simp only [processAction, tracks.validTransfers]
      split
      · exact .done tracks holders none
      rename_i sender data valid
      obtain ⟨ticker, accounts⟩ :=
        moved_settled preloadable credits traced loaded_tokens_sub listed valid
      rw [tracks.tokens.get_eq ticker]
      split
      · exact .fault _
      rename_i token found
      obtain ⟨senderLoaded, recipientLoaded⟩ := accounts token found
      rw [tracks.accounts.get_eq senderLoaded]
      split
      · exact .fault _
      split
      · exact .fault _
      refine .bind fun decreased _ => .bind fun rest _ => ?_
      split
      · refine .done ?_ decreased _
        exact {
          allTransfers := tracks.allTransfers
          validTransfers := rfl
          tokens := tracks.tokens.set _ _
          accounts := tracks.accounts.set _ _ }
      · rename_i kept
        rw [Overlay.getD_same (tracks.accounts.set _ _) (recipientLoaded (by simpa using kept))]
        refine .bind fun increased _ => .bind fun balance _ => ?_
        refine .done ?_ increased _
        exact {
          allTransfers := tracks.allTransfers
          validTransfers := rfl
          tokens := tracks.tokens.set _ _
          accounts := (tracks.accounts.set _ _).set _ _ }

end Simulation

theorem processTokenActions_agree (preloadable : Preloadable env db cache)
    (credits : CreditsLoaded id env db cache) (holders : Holders) :
    (∃ fault, processTokenActions env (cache.loadTokensData env db) holders = .error fault ∧
      processTokenActions env (cache.loadAll db) holders = .error fault) ∨
    (∃ part whole : Processing,
      processTokenActions env (cache.loadTokensData env db) holders = .ok part ∧
      processTokenActions env (cache.loadAll db) holders = .ok whole ∧
      Tracks env db cache part.cache whole.cache ∧
      Traced env db.tokenToMeta cache cache.tokenActions whole.cache ∧
      part.holders = whole.holders ∧ part.history = whole.history) := by
  refine Machine.run_simulation
    (fun past (part whole : Processing) => Tracks env db cache part.cache whole.cache ∧
      Traced env db.tokenToMeta cache past whole.cache ∧ part.holders = whole.holders ∧
      part.history = whole.history) ?_ ?_
  · refine ⟨?_, ?_, rfl, rfl⟩
    · exact {
        allTransfers := rfl
        validTransfers := rfl
        tokens := .start loaded_tokens_sub
        accounts := .start loaded_accounts_sub }
    · exact {
        filed := preloadable.filed
        kept := fun key token found => ⟨token, found, rfl⟩
        spent := fun _ some => absurd rfl some
        all := fun _ _ found => found
        origin := fun _ _ _ valid => Or.inl valid }
  · rintro past action future part whole split ⟨tracks, traced, sameHolders, sameHistory⟩
    have agree := processAction_agree preloadable credits traced tracks whole.holders split
    unfold Processing.step
    rw [sameHolders]
    cases processed : processAction env whole.cache whole.holders action with
    | error fault =>
        rw [processed] at agree
        generalize processAction env part.cache whole.holders action = other at agree
        cases agree
        exact Or.inl ⟨fault, rfl, rfl⟩
    | ok done =>
        have next := traced.step split (processAction_turn processed)
        rw [processed] at agree
        generalize processAction env part.cache whole.holders action = other at agree
        cases agree with
        | done tracked holders event =>
            exact Or.inr ⟨_, _, rfl, rfl, tracked, next, rfl, by rw [sameHistory]⟩

end WjkIndexer.TokenCache
