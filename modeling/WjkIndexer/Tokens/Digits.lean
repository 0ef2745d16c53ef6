import WjkIndexer.Tokens.Live

/-!
The decimals of amounts: what is credited, locked and sent of a token has no more decimals than
the token, as long as a clamped mint and the record of a transfer have not.
-/

namespace WjkIndexer

open FiniteTable

/-- An amount with at most `dec` decimals. -/
def WithinDigits (dec amt : Nat) : Prop := 10 ^ (18 - dec) ∣ amt

instance (dec amt : Nat) : Decidable (WithinDigits dec amt) :=
  inferInstanceAs (Decidable (_ ∣ _))

theorem WithinDigits.zero (dec : Nat) : WithinDigits dec 0 := Nat.dvd_zero _

theorem WithinDigits.add {dec first second : Nat} (left : WithinDigits dec first)
    (right : WithinDigits dec second) : WithinDigits dec (first + second) := Nat.dvd_add left right

theorem WithinDigits.sub {dec first second : Nat} (left : WithinDigits dec first)
    (right : WithinDigits dec second) : WithinDigits dec (first - second) := Nat.dvd_sub left right

/-- `Fixed128::scale` counts the decimals without trailing zeros. -/
def Env.CountsDecimals (env : Env) : Prop :=
  ∀ amt dec, env.scale amt ≤ dec ↔ WithinDigits dec amt

def Representable (env : Env) (tokens : Table LowerCaseTokenTick TokenMeta)
    (tick : OriginalTokenTick) (amt : Nat) : Prop :=
  ∃ token, tokens.get (env.lower tick) = some token ∧ WithinDigits token.proto.dec amt

def DecimalsKept (before after : Table LowerCaseTokenTick TokenMeta) : Prop :=
  ∀ key token, before.get key = some token →
    ∃ now, after.get key = some now ∧ now.proto.dec = token.proto.dec

namespace DecimalsKept

variable {before after later : Table LowerCaseTokenTick TokenMeta}

theorem refl (tokens : Table LowerCaseTokenTick TokenMeta) : DecimalsKept tokens tokens :=
  fun _ token found => ⟨token, found, rfl⟩

theorem trans (first : DecimalsKept before after) (second : DecimalsKept after later) :
    DecimalsKept before later := by
  intro key token found
  obtain ⟨now, foundNow, same⟩ := first key token found
  obtain ⟨last, foundLast, again⟩ := second key now foundNow
  exact ⟨last, foundLast, again.trans same⟩

theorem set {key : LowerCaseTokenTick} {token next : TokenMeta}
    (found : before.get key = some token) (same : next.proto.dec = token.proto.dec) :
    DecimalsKept before (before.set key next) := by
  intro query stored looked
  by_cases place : query = key
  · rw [place, found] at looked
    cases looked
    exact ⟨next, by rw [place, Table.get_set_self], same⟩
  · exact ⟨stored, by rw [Table.get_set_ne _ _ place, looked], rfl⟩

theorem deploy {key : LowerCaseTokenTick} (vacant : before.get key = none) (next : TokenMeta) :
    DecimalsKept before (before.set key next) := by
  intro query stored looked
  have place : query ≠ key := by
    rintro rfl
    rw [vacant] at looked
    cases looked
  exact ⟨stored, by rw [Table.get_set_ne _ _ place, looked], rfl⟩

end DecimalsKept

theorem Representable.mono {env : Env} {before after : Table LowerCaseTokenTick TokenMeta}
    {tick : OriginalTokenTick} {amt : Nat} (fits : Representable env before tick amt)
    (kept : DecimalsKept before after) : Representable env after tick amt := by
  obtain ⟨token, found, digits⟩ := fits
  obtain ⟨now, foundNow, same⟩ := kept _ token found
  exact ⟨now, foundNow, by rw [same]; exact digits⟩

def AccountFits (env : Env) (tokens : Table LowerCaseTokenTick TokenMeta)
    (tick : OriginalTokenTick) (account : TokenBalance) : Prop :=
  Representable env tokens tick account.balance ∧
    Representable env tokens tick account.transferableBalance

def HistoryTokenAction.amount : HistoryTokenAction → Option Nat
  | .deploy .. => none
  | .mint _ amt _ _ _ => some amt
  | .deployTransfer _ amt _ _ _ => some amt
  | .send _ amt _ _ _ _ => some amt

namespace TokenCache

variable {env : Env} {db : DB} {cache : TokenCache} {holders : Holders}

def Scaled (env : Env) (cache : TokenCache) : TokenAction → Prop
  | .mint _ proto _ _ => ∀ token ∈ cache.tokens.get (env.lower proto.tick),
      env.scale proto.amt ≤ token.proto.dec ∧ proto.amt ≤ token.proto.lim
  | .transfer _ _ proto _ _ => ∀ token ∈ cache.tokens.get (env.lower proto.tick),
      env.scale proto.amt ≤ token.proto.dec
  | _ => True

theorem processAction_scaled {action : TokenAction} {done : Processed}
    (processed : processAction env cache holders action = .ok done)
    (some : done.event ≠ none) : Scaled env cache action := by
  cases action with
  | deploy | transferred => trivial
  | mint owner proto txid vout =>
      intro token found
      rw [Option.mem_def] at found
      simp only [processAction, found] at processed
      split at processed
      · cases processed
        exact absurd rfl some
      rename_i scaled
      split at processed
      · cases processed
        exact absurd rfl some
      rename_i limited
      exact ⟨Nat.le_of_not_lt scaled, Nat.le_of_not_lt limited⟩
  | transfer location owner proto txid vout =>
      intro token found
      rw [Option.mem_def] at found
      simp only [processAction, found] at processed
      split at processed
      · cases processed
        exact absurd rfl some
      split at processed
      · cases processed
        exact absurd rfl some
      rename_i scaled
      exact Nat.le_of_not_lt scaled

/-- Neither defect is met: a mint that is cut down to the rest of the supply is one of a token whose
maximum has no more decimals than the token, and the record of a transfer has no more either. -/
def DigitsSafe (env : Env) (state : Processing) : TokenAction → Prop
  | .mint _ proto _ _ => ∀ token ∈ state.cache.tokens.get (env.lower proto.tick),
      env.scale proto.amt ≤ token.proto.dec → proto.amt ≤ token.proto.lim →
      token.proto.supply ≠ token.proto.max →
      token.proto.max - token.proto.supply < proto.amt →
      WithinDigits token.proto.dec token.proto.max
  | .transfer location owner proto _ _ =>
      ∀ data ∈ state.cache.allTransfers.get location,
      ∀ token ∈ state.cache.tokens.get (env.lower proto.tick),
      env.scale proto.amt ≤ token.proto.dec →
      ∀ account ∈ state.cache.tokenAccounts.get ⟨owner, token.proto.tick⟩,
      proto.amt ≤ account.balance → WithinDigits token.proto.dec data.amt
  | _ => True

instance (env : Env) (state : Processing) (action : TokenAction) :
    Decidable (DigitsSafe env state action) :=
  match action with
  | .mint _ proto _ _ => inferInstanceAs (Decidable (
      ∀ token ∈ state.cache.tokens.get (env.lower proto.tick),
      env.scale proto.amt ≤ token.proto.dec → proto.amt ≤ token.proto.lim →
      token.proto.supply ≠ token.proto.max →
      token.proto.max - token.proto.supply < proto.amt →
      WithinDigits token.proto.dec token.proto.max))
  | .transfer location owner proto _ _ => inferInstanceAs (Decidable (
      ∀ data ∈ state.cache.allTransfers.get location,
      ∀ token ∈ state.cache.tokens.get (env.lower proto.tick),
      env.scale proto.amt ≤ token.proto.dec →
      ∀ account ∈ state.cache.tokenAccounts.get ⟨owner, token.proto.tick⟩,
      proto.amt ≤ account.balance → WithinDigits token.proto.dec data.amt))
  | .deploy _ _ _ => inferInstanceAs (Decidable True)
  | .transferred _ _ _ _ => inferInstanceAs (Decidable True)

structure DigitsRunning (env : Env) (db : DB) (state : TokenCache)
    (events : List HistoryTokenAction) : Prop where
  kept : DecimalsKept db.tokenToMeta (live db state).tokens
  supplies : ∀ key token, state.tokens.get key = some token →
    WithinDigits token.proto.dec token.proto.supply
  accounts : ∀ key account, state.tokenAccounts.get key = some account →
    AccountFits env (live db state).tokens key.token account
  transfers : ∀ location sender data, state.validTransfers.get location = some (sender, data) →
    Representable env (live db state).tokens data.tick data.amt
  events : ∀ event ∈ events, ∀ amt ∈ event.amount,
    Representable env (live db state).tokens event.tick amt

section Running

variable {past future : List TokenAction} {action : TokenAction} {state : Processing}
  {done : Processed} {events : List HistoryTokenAction}

theorem DigitsRunning.write {before : TokenCache} (digits : DigitsRunning env db before events)
    (kept : DecimalsKept (live db before).tokens (live db done.cache).tokens)
    (supplies : ∀ key token, done.cache.tokens.get key = some token →
      before.tokens.get key = some token ∨ WithinDigits token.proto.dec token.proto.supply)
    (accounts : ∀ key account, done.cache.tokenAccounts.get key = some account →
      before.tokenAccounts.get key = some account ∨
        AccountFits env (live db before).tokens key.token account)
    (transfers : ∀ location sender data,
      done.cache.validTransfers.get location = some (sender, data) →
      before.validTransfers.get location = some (sender, data) ∨
        Representable env (live db before).tokens data.tick data.amt)
    (added : ∀ event, done.event = some event → ∀ amt ∈ event.amount,
      Representable env (live db before).tokens event.tick amt) :
    DigitsRunning env db done.cache (events ++ done.event.toList) where
  kept := digits.kept.trans kept
  supplies key token found := (supplies key token found).elim (digits.supplies key token) id
  accounts key account found := by
    obtain ⟨free, locked⟩ := (accounts key account found).elim (digits.accounts key account) id
    exact ⟨free.mono kept, locked.mono kept⟩
  transfers location sender data valid :=
    ((transfers location sender data valid).elim (digits.transfers location sender data) id).mono
      kept
  events shown listed amt amount := by
    rcases List.mem_append.mp listed with earlier | last
    · exact (digits.events shown earlier amt amount).mono kept
    · exact (added shown (Option.mem_toList.mp last) amt amount).mono kept

theorem DigitsRunning.moved (digits : DigitsRunning env db state.cache events)
    {location : Location} {sender : FullHash} {data : TransferProtoDB} {token : TokenMeta}
    (valid : state.cache.validTransfers.get location = some (sender, data))
    (shown : (live db state.cache).tokens.get (env.lower data.tick) = some token) :
    WithinDigits token.proto.dec data.amt := by
  obtain ⟨same, found, fits⟩ := digits.transfers location sender data valid
  rw [shown] at found
  cases found
  exact fits

theorem DigitsRunning.account (digits : DigitsRunning env db state.cache events)
    {token : TokenMeta} (shown : (live db state.cache).tokens.get (env.lower token.proto.tick) =
      some token) (address : FullHash) :
    WithinDigits token.proto.dec
        ((state.cache.tokenAccounts.get ⟨address, token.proto.tick⟩).getD {}).balance ∧
      WithinDigits token.proto.dec
        ((state.cache.tokenAccounts.get
          ⟨address, token.proto.tick⟩).getD {}).transferableBalance := by
  cases stored : state.cache.tokenAccounts.get ⟨address, token.proto.tick⟩ with
  | none => exact ⟨.zero _, .zero _⟩
  | some account =>
      obtain ⟨⟨same, found, free⟩, ⟨again, foundAgain, locked⟩⟩ := digits.accounts _ _ stored
      rw [shown] at found foundAgain
      cases found
      cases foundAgain
      exact ⟨free, locked⟩

theorem Running.representable (running : Running env db cache past state.cache)
    {key : LowerCaseTokenTick} {token : TokenMeta}
    (found : state.cache.tokens.get key = some token) (amt : Nat)
    (digits : WithinDigits token.proto.dec amt) :
    Representable env (live db state.cache).tokens token.proto.tick amt := by
  refine ⟨token, ?_, digits⟩
  rw [running.traced.filed.keyed _ _ found]
  exact running.token_live found

theorem DigitsRunning.turn (counts : env.CountsDecimals)
    (running : Running env db cache past state.cache)
    (split : past ++ action :: future = cache.tokenActions)
    (digits : DigitsRunning env db state.cache events) (empty : action.DeploysEmpty)
    (safe : DigitsSafe env state action)
    (processed : processAction env state.cache state.holders action = .ok done) :
    DigitsRunning env db done.cache (events ++ done.event.toList) := by
  have listed : action ∈ cache.tokenActions := by simp [← split]
  have scaled := processAction_scaled processed
  cases processAction_turn processed with
  | redeployed | mintSkipped | transferStale | transferSkipped | transferredStale =>
      exact digits.write (.refl _) (fun _ _ => Or.inl) (fun _ _ => Or.inl) (fun _ _ _ => Or.inl)
        (fun _ none => nomatch none)
  | @deployed genesis proto owner vacant =>
      have absent : (live db state.cache).tokens.get (env.lower proto.tick) = none := by
        rw [← running.tokens.get_eq (ticker_loaded db listed (by simp [tickersOf])), vacant]
      refine digits.write ?_ ?_ (fun _ _ => Or.inl) (fun _ _ _ => Or.inl) ?_
      · simp only [live, Table.extend_set]
        exact .deploy absent _
      · intro key token found
        rcases Table.get_set_or found with old | ⟨_, rfl⟩
        · exact Or.inl old
        · right
          rw [empty.1]
          exact .zero _
      · intro event shown amt none
        cases shown
        cases none
  | @minted owner proto txid vout token amt increased found unfinished clamped counted =>
      have home := running.traced.filed.keyed _ _ found
      have shown := running.token_live found
      have written : WithinDigits token.proto.dec amt := by
        obtain ⟨decimals, limited⟩ := scaled (by simp) token found
        rw [clamped]
        by_cases cut : token.proto.max - token.proto.supply < proto.amt
        · rw [Nat.min_eq_right (Nat.le_of_lt cut)]
          exact (safe token found decimals limited (Nat.ne_of_lt unfinished) cut).sub
            (digits.supplies _ _ found)
        · rw [Nat.min_eq_left (Nat.le_of_not_lt cut)]
          exact (counts _ _).mp decimals
      have fits := running.representable found
      obtain ⟨free, locked⟩ := digits.account (home.symm ▸ shown) owner
      refine digits.write ?_ ?_ ?_ (fun _ _ _ => Or.inl) ?_
      · simp only [live, Table.extend_set]
        exact .set shown rfl
      · intro key next looked
        rcases Table.get_set_or looked with old | ⟨_, rfl⟩
        · exact Or.inl old
        · exact Or.inr ((digits.supplies _ _ found).add written)
      · intro key account looked
        rcases Table.get_set_or looked with old | ⟨rfl, rfl⟩
        · exact Or.inl old
        · exact Or.inr ⟨fits _ (free.add written), fits _ locked⟩
      · intro event same moved amount
        cases same
        cases amount
        exact fits _ written
  | @transferAccepted location owner proto txid vout data token account known found filed covered =>
      have home := running.traced.filed.keyed _ _ found
      have shown := running.token_live found
      have decimals := scaled (by simp) token found
      have moved := (counts _ _).mp decimals
      have recorded := safe data known token found decimals account filed covered
      have fits := running.representable found
      obtain ⟨free, locked⟩ := digits.account (home.symm ▸ shown) owner
      rw [filed, Option.getD_some] at free locked
      refine digits.write ?_ ?_ ?_ ?_ ?_
      · simp only [live, Table.extend_set]
        exact .set shown rfl
      · intro key next looked
        rcases Table.get_set_or looked with old | ⟨_, rfl⟩
        · exact Or.inl old
        · have supplied := digits.supplies _ _ found
          exact Or.inr supplied
      · intro key account looked
        rcases Table.get_set_or looked with old | ⟨rfl, rfl⟩
        · exact Or.inl old
        · exact Or.inr ⟨fits _ (free.sub moved), fits _ (locked.add moved)⟩
      · intro place sender record looked
        rcases Table.get_set_or looked with old | ⟨_, same⟩
        · exact Or.inl old
        · cases same
          exact Or.inr (fits _ recorded)
      · intro event same amt amount
        cases same
        cases amount
        exact fits _ moved
  | @burned location recipient txid vout sender data token old decreased valid found filed pending
      covered counted burn =>
      have home := running.traced.filed.keyed _ _ found
      have shown := running.token_live found
      have fits := running.representable found
      have moved := digits.moved valid shown
      obtain ⟨free, locked⟩ := digits.account (home.symm ▸ shown) sender
      rw [filed, Option.getD_some] at free locked
      refine digits.write ?_ ?_ ?_ ?_ ?_
      · simp only [live, Table.extend_set]
        exact .set shown rfl
      · intro key next looked
        rcases Table.get_set_or looked with old | ⟨_, rfl⟩
        · exact Or.inl old
        · have supplied := digits.supplies _ _ found
          exact Or.inr supplied
      · intro key account looked
        rcases Table.get_set_or looked with old | ⟨rfl, rfl⟩
        · exact Or.inl old
        · exact Or.inr ⟨fits _ free, fits _ (locked.sub moved)⟩
      · exact fun place holder record left => Or.inl (Table.get_of_remove left)
      · intro event same amt amount
        cases same
        cases amount
        exact fits _ moved
  | @sent location recipient txid vout sender data token old account decreased increased valid
      found filed pending covered counted kept credited recounted =>
      have home := running.traced.filed.keyed _ _ found
      have shown := running.token_live found
      have fits := running.representable found
      have moved := digits.moved valid shown
      obtain ⟨free, locked⟩ := digits.account (home.symm ▸ shown) sender
      rw [filed, Option.getD_some] at free locked
      have released : AccountFits env (live db state.cache).tokens token.proto.tick
          (old.release data.amt) := ⟨fits _ free, fits _ (locked.sub moved)⟩
      have paid : WithinDigits token.proto.dec account.balance ∧
          WithinDigits token.proto.dec account.transferableBalance := by
        rw [id_eq, id_eq] at credited
        rw [credited]
        cases stored : (state.cache.tokenAccounts.set ⟨sender, token.proto.tick⟩
            (old.release data.amt)).get ⟨recipient, token.proto.tick⟩ with
        | none => exact ⟨.zero _, .zero _⟩
        | some held =>
            rcases Table.get_set_or stored with same | ⟨_, rfl⟩
            · have other := digits.account (home.symm ▸ shown) recipient
              rw [same] at other
              exact other
            · exact ⟨free, locked.sub moved⟩
      refine digits.write ?_ ?_ ?_ ?_ ?_
      · simp only [live, Table.extend_set]
        exact .set shown rfl
      · intro key next looked
        rcases Table.get_set_or looked with old | ⟨_, rfl⟩
        · exact Or.inl old
        · have supplied := digits.supplies _ _ found
          exact Or.inr supplied
      · intro key account looked
        rcases Table.get_set_or looked with first | ⟨rfl, rfl⟩
        · rcases Table.get_set_or first with old | ⟨rfl, rfl⟩
          · exact Or.inl old
          · exact Or.inr released
        · exact Or.inr ⟨fits _ (paid.1.add moved), fits _ paid.2⟩
      · exact fun place holder record left => Or.inl (Table.get_of_remove left)
      · intro event same amt amount
        cases same
        cases amount
        exact fits _ moved

theorem processing_digits (counts : env.CountsDecimals) (preloadable : Preloadable env db cache)
    (start : DigitsRunning env db { cache.loadTokensData env db with tokenActions := [] } [])
    (empty : ∀ action ∈ cache.tokenActions, action.DeploysEmpty)
    (split : past ++ future = cache.tokenActions)
    (safe : Machine.Along (Processing.step env) (DigitsSafe env)
      { cache := { cache.loadTokensData env db with tokenActions := [] }, holders } past)
    (ran : past.foldlM (Processing.step env)
      { cache := { cache.loadTokensData env db with tokenActions := [] }, holders } = .ok state) :
    Running env db cache past state.cache ∧ DigitsRunning env db state.cache state.history := by
  refine Machine.run_along_past (fun past (state : Processing) =>
    Running env db cache past state.cache ∧ DigitsRunning env db state.cache state.history) ran safe
    ⟨Running.start preloadable.filed, start⟩ ?_
  rintro earlier action later state next within ⟨running, digits⟩ permitted stepped
  have place : earlier ++ action :: (later ++ future) = cache.tokenActions := by
    rw [← split, ← within, List.append_assoc, List.cons_append]
  unfold Processing.step at stepped
  cases processed : processAction env state.cache state.holders action with
  | error fault =>
      rw [processed] at stepped
      cases stepped
  | ok done =>
      rw [processed] at stepped
      cases stepped
      refine ⟨running.step place (processAction_turn processed), ?_⟩
      exact digits.turn counts running place (empty action (by simp [← place])) permitted processed

end Running

end TokenCache

end WjkIndexer
