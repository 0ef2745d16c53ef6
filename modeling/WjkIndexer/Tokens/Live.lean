import WjkIndexer.Tokens.Preload

/-!
The ledger as it stands while a block is processed: what is stored, under what the cache
holds. A turn on the loaded part is a turn on this ledger.
-/

namespace WjkIndexer.TokenCache

open FiniteTable

/-- The stored ledger with the changes of a cache. -/
def live (db : DB) (state : TokenCache) : TokenCache :=
  { state with
    tokens := db.tokenToMeta.extend state.tokens
    tokenAccounts := db.addressTokenToBalance.extend state.tokenAccounts }

variable {env : Env} {db : DB} {cache state : TokenCache} {past future : List TokenAction}
  {holders : Holders}

theorem loaded_filed (stored : WellFiled env db.tokenToMeta db.addressTokenToBalance) :
    WellFiled env (cache.loadTokensData env db).tokens
      (cache.loadTokensData env db).tokenAccounts where
  keyed key token found := stored.keyed key token (loaded_tokens_sub _ _ found)
  filed key account found := by
    simp only [loadTokensData, DB.loadTokenAccounts, Table.get_restrict] at found
    split at found
    · rename_i loaded
      simp only [Finset.mem_biUnion, Option.mem_toFinset, Option.mem_def,
        Option.map_eq_some_iff] at loaded
      obtain ⟨⟨address, tick⟩, _, token, deployed, rfl⟩ := loaded
      refine ⟨token, ?_, rfl⟩
      have loadedToken : (cache.loadTokensData env db).tokens.get (env.lower tick) = some token := by
        simp only [loadTokensData, Table.get_restrict]
        exact deployed
      have home := stored.keyed _ _ (loaded_tokens_sub _ _ loadedToken)
      rw [home]
      exact loadedToken
    · cases found

/-- What is known of the loaded part while the actions of its block are processed. -/
structure Running (env : Env) (db : DB) (cache : TokenCache) (past : List TokenAction)
    (state : TokenCache) : Prop where
  traced : Traced env (cache.loadTokensData env db).tokens cache past state
  tokens : Overlay db.tokenToMeta (cache.loadTokensData env db).tokens state.tokens
    (live db state).tokens
  accounts : Overlay db.addressTokenToBalance (cache.loadTokensData env db).tokenAccounts
    state.tokenAccounts (live db state).tokenAccounts
  settled : ∀ key token, state.tokens.get key = some token →
    (cache.loadTokensData env db).tokens.get key = db.tokenToMeta.get key

namespace Running

theorem start (stored : WellFiled env db.tokenToMeta db.addressTokenToBalance) :
    Running env db cache [] { cache.loadTokensData env db with tokenActions := [] } where
  traced := {
    filed := loaded_filed stored
    kept := fun key token found => ⟨token, found, rfl⟩
    spent := fun _ some => absurd rfl some
    all := fun _ _ found => found
    origin := fun _ _ _ valid => Or.inl valid }
  tokens := .written loaded_tokens_sub fun _ absent => absent
  accounts := .written loaded_accounts_sub fun _ absent => absent
  settled key token found := by rw [found, loaded_tokens_sub key token found]

theorem token_live (running : Running env db cache past state) {key : LowerCaseTokenTick}
    {token : TokenMeta} (found : state.tokens.get key = some token) :
    (live db state).tokens.get key = some token := by
  rw [running.tokens.shown, found]
  rfl

theorem account_live (running : Running env db cache past state) {key : AddressToken}
    {account : TokenBalance} (found : state.tokenAccounts.get key = some account) :
    (live db state).tokenAccounts.get key = some account := by
  rw [running.accounts.shown, found]
  rfl

theorem set_live (running : Running env db cache past state)
    {tokens : Table LowerCaseTokenTick TokenMeta} {accounts : Table AddressToken TokenBalance}
    (tokensGrown : ∀ key, tokens.get key = none → state.tokens.get key = none)
    (accountsGrown : ∀ key, accounts.get key = none → state.tokenAccounts.get key = none) :
    Overlay db.tokenToMeta (cache.loadTokensData env db).tokens tokens
        (db.tokenToMeta.extend tokens) ∧
      Overlay db.addressTokenToBalance (cache.loadTokensData env db).tokenAccounts accounts
        (db.addressTokenToBalance.extend accounts) :=
  ⟨.written running.tokens.sub fun key absent => running.tokens.grown key (tokensGrown key absent),
    .written running.accounts.sub fun key absent =>
      running.accounts.grown key (accountsGrown key absent)⟩

theorem set_grown {K V : Type} [DecidableEq K] (table : Table K V) (key : K) (value : V)
    (query : K) (absent : (table.set key value).get query = none) : table.get query = none := by
  rw [Table.get_set] at absent
  split at absent
  · cases absent
  · exact absent

theorem settled_set (running : Running env db cache past state) {key : LowerCaseTokenTick}
    (own : (cache.loadTokensData env db).tokens.get key = db.tokenToMeta.get key)
    (next : TokenMeta) (query : LowerCaseTokenTick) (token : TokenMeta)
    (found : (state.tokens.set key next).get query = some token) :
    (cache.loadTokensData env db).tokens.get query = db.tokenToMeta.get query := by
  rw [Table.get_set] at found
  split at found
  · rename_i same
    rw [same]
    exact own
  · exact running.settled query token found

theorem step {A : Type} {view : TokenBalance → A} (running : Running env db cache past state)
    {action : TokenAction} (split : past ++ action :: future = cache.tokenActions)
    {done : Processed} (turn : Turn view env state holders action done) :
    Running env db cache (past ++ [action]) done.cache := by
  have listed : action ∈ cache.tokenActions := by simp [← split]
  have traced := running.traced.step split turn
  cases turn with
  | redeployed | mintSkipped | transferStale | transferSkipped | transferredStale =>
      exact { running with traced := traced }
  | @deployed genesis proto owner vacant =>
      obtain ⟨tokens, accounts⟩ := running.set_live (set_grown state.tokens _ _)
        (fun _ absent => absent)
      exact {
        traced, tokens, accounts
        settled := running.settled_set (ticker_loaded db listed (by simp [tickersOf])) _ }
  | minted found | transferAccepted _ found =>
      obtain ⟨tokens, accounts⟩ := running.set_live (set_grown state.tokens _ _)
        (set_grown state.tokenAccounts _ _)
      exact {
        traced, tokens, accounts
        settled := running.settled_set (running.settled _ _ found) _ }
  | burned _ found =>
      obtain ⟨tokens, accounts⟩ := running.set_live (set_grown state.tokens _ _)
        (set_grown state.tokenAccounts _ _)
      exact {
        traced, tokens, accounts
        settled := running.settled_set (running.settled _ _ found) _ }
  | sent _ found =>
      obtain ⟨tokens, accounts⟩ := running.set_live (set_grown state.tokens _ _)
        (fun key absent => set_grown state.tokenAccounts _ _ key (set_grown _ _ _ key absent))
      exact {
        traced, tokens, accounts
        settled := running.settled_set (running.settled _ _ found) _ }

theorem filed (preloadable : Preloadable env db cache)
    (running : Running env db cache past state) :
    WellFiled env (live db state).tokens (live db state).tokenAccounts where
  keyed key token found := by
    rw [running.tokens.shown] at found
    cases part : state.tokens.get key with
    | some own =>
        rw [part, Option.some_or, Option.some.injEq] at found
        rw [← found]
        exact running.traced.filed.keyed key own part
    | none =>
        rw [part, Option.none_or] at found
        exact preloadable.filed.keyed key token found
  filed key account found := by
    rw [running.accounts.shown] at found
    cases part : state.tokenAccounts.get key with
    | some own =>
        obtain ⟨token, deployed, spelled⟩ := running.traced.filed.filed key own part
        exact ⟨token, running.token_live deployed, spelled⟩
    | none =>
        rw [part, Option.none_or] at found
        obtain ⟨token, deployed, spelled⟩ := preloadable.filed.filed key account found
        rw [running.tokens.shown]
        cases own : state.tokens.get (env.lower key.token) with
        | none => exact ⟨token, deployed, spelled⟩
        | some now =>
            have loaded := (running.settled _ _ own).trans deployed
            obtain ⟨again, foundAgain, respelled⟩ := running.traced.kept _ _ loaded
            rw [own] at foundAgain
            cases foundAgain
            exact ⟨now, rfl, respelled.trans spelled⟩

theorem live_turn {A : Type} {view : TokenBalance → A} (preloadable : Preloadable env db cache)
    (credits : CreditsLoaded view env db cache) (running : Running env db cache past state)
    {action : TokenAction} (split : past ++ action :: future = cache.tokenActions)
    {done : Processed} (turn : Turn id env state holders action done) :
    Turn view env (live db state) holders action { done with cache := live db done.cache } := by
  have listed : action ∈ cache.tokenActions := by simp [← split]
  cases turn with
  | redeployed taken => exact .redeployed (running.token_live taken)
  | @deployed genesis proto owner vacant =>
      have absent : (live db state).tokens.get (env.lower proto.tick) = none := by
        rw [← running.tokens.get_eq (ticker_loaded db listed (by simp [tickersOf])), vacant]
      have turn : Turn view env (live db state) holders (.deploy genesis proto owner) _ :=
        .deployed absent
      simpa only [live, Table.extend_set] using turn
  | mintSkipped => exact .mintSkipped
  | @minted owner proto txid vout token amt increased found unfinished clamped counted =>
      have account := running.accounts.get_eq (account_settled preloadable running.traced
        (fun _ _ loaded => loaded) listed owner (by simp [usersOf]) (by simp [tickersOf]) found)
      rw [account] at counted
      have turn : Turn view env (live db state) holders (.mint owner proto txid vout) _ :=
        .minted (running.token_live found) unfinished clamped counted
      simp only [account]
      simpa only [live, Table.extend_set] using turn
  | transferStale absent => exact .transferStale absent
  | transferSkipped known => exact .transferSkipped known
  | @transferAccepted location owner proto txid vout data token account known found filed covered =>
      have turn : Turn view env (live db state) holders
          (.transfer location owner proto txid vout) _ :=
        .transferAccepted known (running.token_live found)
        (running.account_live filed) covered
      simpa only [live, Table.extend_set] using turn
  | transferredStale absent => exact .transferredStale absent
  | @burned location recipient txid vout sender data token old decreased valid found filed pending
      covered counted burn =>
      have turn : Turn view env (live db state) holders
          (.transferred location recipient txid vout) _ :=
        .burned valid (running.token_live found) (running.account_live filed)
        pending covered counted burn
      simpa only [live, Table.extend_set] using turn
  | @sent location recipient txid vout sender data token old account decreased increased valid
      found filed pending covered counted kept credited recounted =>
      obtain ⟨_, accounts⟩ := moved_settled preloadable credits running.traced
        (fun _ _ loaded => loaded) listed valid
      have shown := Overlay.getD_eq (running.accounts.set ⟨sender, token.proto.tick⟩
        (old.release data.amt)) view ((accounts token found).2 kept)
      rw [id_eq, id_eq] at credited
      rw [← credited] at shown
      have turn : Turn view env (live db state) holders
          (.transferred location recipient txid vout) _ :=
        .sent valid (running.token_live found) (running.account_live filed)
        pending covered counted kept shown recounted
      simpa only [live, Table.extend_set] using turn

end Running

theorem processing_running (stored : WellFiled env db.tokenToMeta db.addressTokenToBalance)
    {done : Processing}
    (returned : processTokenActions env (cache.loadTokensData env db) holders = .ok done) :
    Running env db cache cache.tokenActions done.cache := by
  refine Machine.run_induction
    (fun past (state : Processing) => Running env db cache past state.cache) returned
    (Running.start stored) ?_
  intro past action future state next split running stepped
  obtain ⟨processed, turn, rfl⟩ := step_turn stepped
  exact running.step split turn

theorem live_induction {A : Type} {view : TokenBalance → A} (preloadable : Preloadable env db cache)
    (credits : CreditsLoaded view env db cache) {done : Processing}
    (returned : processTokenActions env (cache.loadTokensData env db) holders = .ok done)
    (inv : TokenCache → Holders → Prop)
    (initial : inv (live db { cache.loadTokensData env db with tokenActions := [] }) holders)
    (preserved : ∀ past action future state holders (processed : Processed),
      past ++ action :: future = cache.tokenActions → Running env db cache past state →
      inv (live db state) holders →
      Turn view env (live db state) holders action
        { processed with cache := live db processed.cache } →
      inv (live db processed.cache) processed.holders) :
    inv (live db done.cache) done.holders := by
  refine (Machine.run_induction (fun past (state : Processing) =>
    Running env db cache past state.cache ∧ inv (live db state.cache) state.holders) returned
    ⟨Running.start preloadable.filed, initial⟩ ?_).2
  rintro past action future state next split ⟨running, holds⟩ stepped
  obtain ⟨processed, turn, rfl⟩ := step_turn stepped
  have live := running.live_turn preloadable credits split turn
  exact ⟨running.step split turn, preserved past action future _ _ processed split running holds
    live⟩

end WjkIndexer.TokenCache
