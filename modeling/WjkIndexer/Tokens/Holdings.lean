import WjkIndexer.Tokens.Log
import WjkIndexer.Tokens.Matched

/-!
The index of holders within one block, for any cache that holds the accounts which the
actions change: it follows the accounts, and its counters do not run below zero.
-/

namespace WjkIndexer

open FiniteTable

def HistoryTokenAction.accounts (env : Env) : HistoryTokenAction → Finset AddressToken
  | .deploy .. => ∅
  | .mint tick _ recipient _ _ => {⟨recipient, tick⟩}
  | .deployTransfer tick _ recipient _ _ => {⟨recipient, tick⟩}
  | .send tick _ recipient sender _ _ =>
      if env.isOpReturnHash recipient then {⟨sender, tick⟩} else {⟨sender, tick⟩, ⟨recipient, tick⟩}

namespace TokenCache

/-- The amounts of a list of actions are positive: those that are minted, and those of the
transfers that are inscribed and moved. -/
structure PositiveAmounts (actions : List TokenAction) (cache : TokenCache) : Prop where
  minted : ∀ owner proto txid vout, .mint owner proto txid vout ∈ actions → proto.amt ≠ 0
  inscribed : ∀ location owner proto txid vout data,
    .transfer location owner proto txid vout ∈ actions →
    cache.allTransfers.get location = some data → data.amt ≠ 0
  moved : ∀ location recipient txid vout sender data,
    .transferred location recipient txid vout ∈ actions →
    cache.validTransfers.get location = some (sender, data) → data.amt ≠ 0

def merged (accounts : Table AddressToken TokenBalance) (cache : TokenCache) : TokenCache :=
  { cache with tokenAccounts := accounts.extend cache.tokenAccounts }

def Loads (env : Env) (accounts loaded : Table AddressToken TokenBalance)
    (events : List HistoryTokenAction) : Prop :=
  ∀ event ∈ events, ∀ key ∈ event.accounts env, loaded.get key = none → accounts.get key = none

variable {env : Env} {accounts loaded : Table AddressToken TokenBalance} {cache : TokenCache}
  {holders : Holders} {action : TokenAction} {actions : List TokenAction} {done : Processed}

theorem PositiveAmounts.turn {A : Type} {view : TokenBalance → A}
    (positive : PositiveAmounts actions cache) (listed : action ∈ actions)
    (turn : Turn view env cache holders action done) : PositiveAmounts actions done.cache := by
  have removed : ∀ {V : Type} {table : Table Location V} {place location : Location} {value : V},
      (table.remove place).get location = some value → table.get location = some value := by
    intro V table place location value left
    rw [Table.get_remove] at left
    split at left
    · cases left
    · exact left
  cases turn with
  | redeployed | deployed | mintSkipped | minted | transferStale | transferredStale =>
      exact ⟨positive.minted, positive.inscribed, positive.moved⟩
  | transferSkipped known =>
      refine ⟨positive.minted, ?_, positive.moved⟩
      intro location owner proto txid vout data inscribed left
      exact positive.inscribed _ _ _ _ _ _ inscribed (removed left)
  | @transferAccepted place owner proto txid vout data token account known =>
      refine ⟨positive.minted, ?_, ?_⟩
      · intro location owner proto txid vout data inscribed left
        exact positive.inscribed _ _ _ _ _ _ inscribed (removed left)
      · intro location recipient txid vout sender record moved valid
        rw [Table.get_set] at valid
        split at valid
        · cases valid
          exact positive.inscribed _ _ _ _ _ data listed known
        · exact positive.moved _ _ _ _ _ _ moved valid
  | burned | sent =>
      refine ⟨positive.minted, positive.inscribed, ?_⟩
      intro location recipient txid vout sender data moved left
      exact positive.moved _ _ _ _ _ _ moved (removed left)

theorem merged_turn {A : Type} (view : TokenBalance → A)
    (overlay : Overlay accounts loaded cache.tokenAccounts (accounts.extend cache.tokenAccounts))
    (loads : Loads env accounts loaded done.event.toList)
    (turn : Turn id env cache holders action done) :
    Turn view env (merged accounts cache) holders action
      { done with cache := merged accounts done.cache } := by
  have shown : ∀ {key : AddressToken} {account : TokenBalance},
      cache.tokenAccounts.get key = some account →
        (merged accounts cache).tokenAccounts.get key = some account := by
    intro key account filed
    rw [merged, Table.get_extend, filed]
    rfl
  have settled : ∀ {key : AddressToken}, (∃ event, done.event = some event ∧
      key ∈ event.accounts env) → loaded.get key = accounts.get key := by
    rintro key ⟨event, happened, changed⟩
    cases part : loaded.get key with
    | none =>
        have absent := loads event (by simp [happened]) key changed part
        exact absent.symm
    | some account => exact (overlay.sub key account part).symm
  cases turn with
  | redeployed taken => exact .redeployed taken
  | @deployed genesis proto owner vacant =>
      have turn : Turn view env (merged accounts cache) holders (.deploy genesis proto owner) _ :=
        .deployed vacant
      exact turn
  | mintSkipped => exact .mintSkipped
  | @minted owner proto txid vout token amt increased found unfinished clamped counted =>
      have account : cache.tokenAccounts.get ⟨owner, token.proto.tick⟩ =
          (merged accounts cache).tokenAccounts.get ⟨owner, token.proto.tick⟩ :=
        overlay.get_eq (settled ⟨_, rfl, by simp [HistoryTokenAction.accounts]⟩)
      rw [account] at counted
      have turn : Turn view env (merged accounts cache) holders (.mint owner proto txid vout) _ :=
        .minted found unfinished clamped counted
      simp only [account]
      simpa only [merged, Table.extend_set] using turn
  | transferStale absent => exact .transferStale absent
  | @transferSkipped location owner proto txid vout data known =>
      have turn : Turn view env (merged accounts cache) holders
          (.transfer location owner proto txid vout) _ :=
        .transferSkipped known
      exact turn
  | @transferAccepted location owner proto txid vout data token account known found filed covered =>
      have turn : Turn view env (merged accounts cache) holders
          (.transfer location owner proto txid vout) _ :=
        .transferAccepted known found (shown filed) covered
      simpa only [merged, Table.extend_set] using turn
  | transferredStale absent => exact .transferredStale absent
  | @burned location recipient txid vout sender data token old decreased valid found filed pending
      covered counted burn =>
      have turn : Turn view env (merged accounts cache) holders
          (.transferred location recipient txid vout) _ :=
        .burned valid found (shown filed) pending covered counted burn
      simpa only [merged, Table.extend_set] using turn
  | @sent location recipient txid vout sender data token old account decreased increased valid
      found filed pending covered counted kept credited recounted =>
      have recipientSettled : loaded.get ⟨recipient, token.proto.tick⟩ =
          accounts.get ⟨recipient, token.proto.tick⟩ :=
        settled ⟨_, rfl, by simp [HistoryTokenAction.accounts, kept]⟩
      have same := (overlay.set ⟨sender, token.proto.tick⟩ (old.release data.amt)).get_eq
        recipientSettled
      rw [same] at credited
      have received : account = _ := credited
      have turn : Turn view env (merged accounts cache) holders
          (.transferred location recipient txid vout) _ :=
        .sent valid found (shown filed) pending covered counted kept (congrArg view received)
          recounted
      simpa only [merged, Table.extend_set] using turn

theorem Turn.grown {A : Type} {view : TokenBalance → A}
    (turn : Turn view env cache holders action done)
    (key : AddressToken) (absent : done.cache.tokenAccounts.get key = none) :
    cache.tokenAccounts.get key = none := by
  cases turn with
  | redeployed | deployed | mintSkipped | transferStale | transferSkipped | transferredStale =>
      exact absent
  | minted | transferAccepted | burned => exact Running.set_grown _ _ _ key absent
  | sent => exact Running.set_grown _ _ _ key (Running.set_grown _ _ _ key absent)

theorem run_holdings {state : Processing}
    (stored : ∀ key account, cache.tokenAccounts.get key = some account →
      accounts.get key = some account)
    (matched : holders.Matched accounts) (positive : PositiveAmounts cache.tokenActions cache)
    {past : List TokenAction} (listed : ∀ action ∈ past, action ∈ cache.tokenActions)
    (ran : past.foldlM (Processing.step env)
      { cache := { cache with tokenActions := [] }, holders } = .ok state)
    (loads : Loads env accounts cache.tokenAccounts state.history) :
    PositiveAmounts cache.tokenActions state.cache ∧
      (∀ key, state.cache.tokenAccounts.get key = none → cache.tokenAccounts.get key = none) ∧
      state.holders.Matched (merged accounts state.cache).tokenAccounts := by
  refine Machine.run_induction (fun _ (state : Processing) =>
    Loads env accounts cache.tokenAccounts state.history →
      PositiveAmounts cache.tokenActions state.cache ∧
      (∀ key, state.cache.tokenAccounts.get key = none → cache.tokenAccounts.get key = none) ∧
      state.holders.Matched (merged accounts state.cache).tokenAccounts) ran ?_ ?_ loads
  · intro _
    refine ⟨⟨positive.minted, positive.inscribed, positive.moved⟩, fun _ absent => absent, ?_⟩
    refine matched.congr ?_
    intro key
    rw [merged, Table.get_extend]
    cases part : cache.tokenAccounts.get key with
    | none => rfl
    | some account => rw [stored key account part, Option.some_or]
  · intro past action future state next split ih stepped loads
    obtain ⟨done, turn, rfl⟩ := step_turn stepped
    have member : action ∈ cache.tokenActions := listed action (by simp [← split])
    obtain ⟨positive, grown, matched⟩ := ih fun event happened =>
      loads event (List.mem_append_left _ happened)
    have eventLoads : Loads env accounts cache.tokenAccounts done.event.toList :=
      fun event happened => loads event (List.mem_append_right _ happened)
    have whole := merged_turn TokenBalance.held (.written stored grown) eventLoads turn
    refine ⟨positive.turn member turn, fun key absent => grown key (turn.grown key absent), ?_⟩
    refine matched_turn whole matched ?_ ?_
    · rintro owner proto txid vout rfl
      exact positive.minted _ _ _ _ member
    · rintro location recipient txid vout sender data rfl valid
      exact positive.moved _ _ _ _ _ _ member valid

/-- The call of `holders.decrease` that an action makes, if it makes one. -/
def decreaseOf (env : Env) (cache : TokenCache) :
    TokenAction → Option (AddressToken × TokenBalance × Nat)
  | .transferred location _ _ _ =>
      match cache.validTransfers.get location with
      | none => none
      | some (sender, data) =>
          match cache.tokens.get (env.lower data.tick) with
          | none => none
          | some token =>
              match cache.tokenAccounts.get ⟨sender, token.proto.tick⟩ with
              | none => none
              | some old =>
                  if old.transfersCount = 0 ∨ old.transferableBalance < data.amt then none
                  else some (⟨sender, token.proto.tick⟩, old, data.amt)
  | _ => none

def CountersStand (env : Env) (cache : TokenCache) (holders : Holders) : Prop :=
  ∀ past action future state, past ++ action :: future = cache.tokenActions →
    past.foldlM (Processing.step env)
      { cache := { cache with tokenActions := [] }, holders } = .ok state →
    ∀ key old amt, decreaseOf env state.cache action = some (key, old, amt) → old.held = amt →
      state.holders.count key.token ≠ 0

theorem decreaseOf_some {key : AddressToken} {old : TokenBalance} {amt : Nat}
    (decreased : decreaseOf env cache action = some (key, old, amt)) :
    ∃ location recipient txid vout sender data,
      action = .transferred location recipient txid vout ∧
      cache.validTransfers.get location = some (sender, data) ∧ amt = data.amt ∧
      cache.tokenAccounts.get key = some old := by
  cases action with
  | deploy | mint | transfer => cases decreased
  | transferred location recipient txid vout =>
      simp only [decreaseOf] at decreased
      split at decreased
      · cases decreased
      rename_i sender data valid
      split at decreased
      · cases decreased
      split at decreased
      · cases decreased
      rename_i account filed
      split at decreased
      · cases decreased
      · cases decreased
        exact ⟨location, recipient, txid, vout, sender, data, rfl, valid, rfl, filed⟩

theorem history_grows {state done : Processing} {future : List TokenAction}
    (ran : future.foldlM (Processing.step env) state = .ok done)
    (event : HistoryTokenAction) (happened : event ∈ state.history) : event ∈ done.history := by
  refine Machine.run_induction (fun _ (later : Processing) => event ∈ later.history) ran happened ?_
  intro past action future later next _ member stepped
  obtain ⟨processed, _, rfl⟩ := step_turn stepped
  exact List.mem_append_left _ member

/-- Processing keeps the index of holders in step with the accounts that exist, when those
that are changed have been loaded and the amounts are positive; no counter runs below zero. -/
theorem holders_follow {done : Processing}
    (stored : ∀ key account, cache.tokenAccounts.get key = some account →
      accounts.get key = some account)
    (loads : Loads env accounts cache.tokenAccounts done.history)
    (matched : holders.Matched accounts) (positive : PositiveAmounts cache.tokenActions cache)
    (returned : processTokenActions env cache holders = .ok done) :
    done.holders.Matched (accounts.extend done.cache.tokenAccounts) ∧
      CountersStand env cache holders := by
  constructor
  · exact (run_holdings stored matched positive (fun _ member => member) returned loads).2.2
  · intro past action future state split ran key old amt decreased all
    rw [processTokenActions, ← split] at returned
    obtain ⟨middle, before, after⟩ := Machine.run_append_ok.mp returned
    have same : middle = state := Except.ok.inj (before.symm.trans ran)
    subst same
    obtain ⟨positiveNow, _, matchedNow⟩ := run_holdings stored matched positive
      (fun action member => by simp [← split, member]) ran
      fun event happened => loads event (history_grows after event happened)
    obtain ⟨location, recipient, txid, vout, sender, data, rfl, valid, rfl, filed⟩ :=
      decreaseOf_some decreased
    have some : data.amt ≠ 0 := positiveNow.moved location recipient txid vout sender data
      (by simp [← split]) valid
    obtain ⟨entries, counted⟩ := matchedNow key.token
    have entry : (⟨old.held, key.address⟩ : SortedByBalance) ∈
        middle.holders.entries key.token := by
      rw [entries, Holders.mem_entriesOf]
      refine ⟨?_, by dsimp only; omega⟩
      change (((accounts.extend middle.cache.tokenAccounts).get key).getD {}).held = old.held
      rw [Table.get_extend, filed]
      rfl
    rw [counted]
    exact Finset.card_ne_zero_of_mem entry

end TokenCache

namespace Sample

def otherAccount : Table AddressToken TokenBalance :=
  (∅ : Table AddressToken TokenBalance).set ⟨9, coin⟩ { balance := 3 }

end Sample

theorem coin_followed :
    ∃ done, TokenCache.processTokenActions (.ofRecords .wojakcoin .bellscoin [])
        Sample.coinActions (Holders.init Sample.otherAccount) = .ok done ∧
      done.holders.count Sample.coin = 3 ∧
      done.holders.Matched (Sample.otherAccount.extend done.cache.tokenAccounts) := by
  have ran : (TokenCache.processTokenActions (.ofRecords .wojakcoin .bellscoin [])
      Sample.coinActions (Holders.init Sample.otherAccount)).toOption.any (fun done => decide
        (done.holders.count Sample.coin = 3 ∧ ∀ event ∈ done.history,
          ∀ key ∈ event.accounts (.ofRecords .wojakcoin .bellscoin []),
            Sample.otherAccount.get key = none)) = true := by
    decide +kernel
  obtain ⟨done, found, checked⟩ := (Option.any_eq_true _ _).mp ran
  obtain ⟨count, absent⟩ := of_decide_eq_true checked
  have returned := Machine.toOption_some.mp found
  refine ⟨done, returned, count, (TokenCache.holders_follow ?_ ?_ (Holders.init_matched _)
    ?_ returned).1⟩
  · intro key account loaded
    cases loaded
  · exact fun event happened key changed _ => absent event happened key changed
  · refine ⟨?_, ?_, ?_⟩
    · intro owner proto txid vout minted
      simp only [Sample.coinActions, List.mem_cons, reduceCtorEq, TokenAction.mint.injEq,
        List.not_mem_nil, or_false, false_or] at minted
      simp [minted.2.1]
    · intro location owner proto txid vout data _ known
      simp only [Sample.coinActions, Table.get_set] at known
      split at known
      · cases known
        decide
      · cases known
    · intro location recipient txid vout sender data _ valid
      cases valid

end WjkIndexer
