import WjkIndexer.Library.Machine
import WjkIndexer.Tokens.Cache

/-!
What one turn of the token state machine can do: every way in which an action is
processed, with the guards it has passed and the state it leaves. A turn may be known only
up to `view` of the account that a transfer credits.
-/

namespace WjkIndexer.TokenCache

open FiniteTable Machine

variable {env : Env} {cache : TokenCache} {holders : Holders}

inductive Turn {A : Type} (view : TokenBalance → A) (env : Env) (cache : TokenCache)
    (holders : Holders) : TokenAction → Processed → Prop where
  | redeployed {genesis proto owner token}
      (taken : cache.tokens.get (env.lower proto.tick) = some token) :
      Turn view env cache holders (.deploy genesis proto owner) { cache, holders }
  | deployed {genesis proto owner}
      (vacant : cache.tokens.get (env.lower proto.tick) = none) :
      Turn view env cache holders (.deploy genesis proto owner) {
        cache := { cache with
          tokens := cache.tokens.set (env.lower proto.tick) { genesis, proto } }
        holders
        event := some (.deploy proto.tick proto.max proto.lim proto.dec owner genesis.txid
          genesis.index) }
  | mintSkipped {owner proto txid vout} :
      Turn view env cache holders (.mint owner proto txid vout) { cache, holders }
  | minted {owner proto txid vout token amt increased}
      (found : cache.tokens.get (env.lower proto.tick) = some token)
      (unfinished : token.proto.supply < token.proto.max)
      (clamped : amt = min proto.amt (token.proto.max - token.proto.supply))
      (counted : holders.increase ⟨owner, token.proto.tick⟩
        ((cache.tokenAccounts.get ⟨owner, token.proto.tick⟩).getD {}) amt = .ok increased) :
      Turn view env cache holders (.mint owner proto txid vout) {
        cache := { cache with
          tokens := cache.tokens.set (env.lower proto.tick)
            (token.recordMint (token.proto.supply + amt))
          tokenAccounts := cache.tokenAccounts.set ⟨owner, token.proto.tick⟩
            (((cache.tokenAccounts.get ⟨owner, token.proto.tick⟩).getD {}).credit amt) }
        holders := increased
        event := some (.mint token.proto.tick amt owner txid vout) }
  | transferStale {location owner proto txid vout}
      (absent : cache.allTransfers.get location = none) :
      Turn view env cache holders (.transfer location owner proto txid vout) { cache, holders }
  | transferSkipped {location owner proto txid vout data}
      (known : cache.allTransfers.get location = some data) :
      Turn view env cache holders (.transfer location owner proto txid vout) {
        cache := { cache with allTransfers := cache.allTransfers.remove location }
        holders }
  | transferAccepted {location owner proto txid vout data token account}
      (known : cache.allTransfers.get location = some data)
      (found : cache.tokens.get (env.lower proto.tick) = some token)
      (filed : cache.tokenAccounts.get ⟨owner, token.proto.tick⟩ = some account)
      (covered : proto.amt ≤ account.balance) :
      Turn view env cache holders (.transfer location owner proto txid vout) {
        cache := { cache with
          tokens := cache.tokens.set (env.lower proto.tick) token.recordTransfer
          tokenAccounts := cache.tokenAccounts.set ⟨owner, token.proto.tick⟩
            (account.lock proto.amt)
          allTransfers := cache.allTransfers.remove location
          validTransfers := cache.validTransfers.set location
            (owner, { data with tick := token.proto.tick }) }
        holders
        event := some (.deployTransfer token.proto.tick proto.amt owner txid vout) }
  | transferredStale {location recipient txid vout}
      (absent : cache.validTransfers.get location = none) :
      Turn view env cache holders (.transferred location recipient txid vout) { cache, holders }
  | burned {location recipient txid vout sender data token old decreased}
      (valid : cache.validTransfers.get location = some (sender, data))
      (found : cache.tokens.get (env.lower data.tick) = some token)
      (filed : cache.tokenAccounts.get ⟨sender, token.proto.tick⟩ = some old)
      (pending : old.transfersCount ≠ 0)
      (covered : data.amt ≤ old.transferableBalance)
      (counted : holders.decrease ⟨sender, token.proto.tick⟩ old data.amt = .ok decreased)
      (burn : env.isOpReturnHash recipient = true) :
      Turn view env cache holders (.transferred location recipient txid vout) {
        cache := { cache with
          tokens := cache.tokens.set (env.lower data.tick) token.recordSend
          tokenAccounts := cache.tokenAccounts.set ⟨sender, token.proto.tick⟩
            (old.release data.amt)
          validTransfers := cache.validTransfers.remove location }
        holders := decreased
        event := some (.send token.proto.tick data.amt recipient sender txid vout) }
  | sent {location recipient txid vout sender data token old account decreased increased}
      (valid : cache.validTransfers.get location = some (sender, data))
      (found : cache.tokens.get (env.lower data.tick) = some token)
      (filed : cache.tokenAccounts.get ⟨sender, token.proto.tick⟩ = some old)
      (pending : old.transfersCount ≠ 0)
      (covered : data.amt ≤ old.transferableBalance)
      (counted : holders.decrease ⟨sender, token.proto.tick⟩ old data.amt = .ok decreased)
      (kept : env.isOpReturnHash recipient = false)
      (credited : view account = view (((cache.tokenAccounts.set ⟨sender, token.proto.tick⟩
        (old.release data.amt)).get ⟨recipient, token.proto.tick⟩).getD {}))
      (recounted : decreased.increase ⟨recipient, token.proto.tick⟩ account data.amt =
        .ok increased) :
      Turn view env cache holders (.transferred location recipient txid vout) {
        cache := { cache with
          tokens := cache.tokens.set (env.lower data.tick) token.recordSend
          tokenAccounts := (cache.tokenAccounts.set ⟨sender, token.proto.tick⟩
            (old.release data.amt)).set ⟨recipient, token.proto.tick⟩ (account.credit data.amt)
          validTransfers := cache.validTransfers.remove location }
        holders := increased
        event := some (.send token.proto.tick data.amt recipient sender txid vout) }

theorem processAction_turn {action : TokenAction} {done : Processed}
    (processed : processAction env cache holders action = .ok done) :
    Turn id env cache holders action done := by
  cases action with
  | deploy genesis proto owner =>
      simp only [processAction] at processed
      split at processed
      · rename_i token taken
        cases processed
        exact .redeployed taken
      · rename_i vacant
        cases processed
        exact .deployed vacant
  | mint owner proto txid vout =>
      simp only [processAction] at processed
      split at processed
      · cases processed
        exact .mintSkipped
      rename_i token found
      split at processed
      · cases processed
        exact .mintSkipped
      split at processed
      · cases processed
        exact .mintSkipped
      split at processed
      · cases processed
        exact .mintSkipped
      rename_i unfinished
      simp only [bind_ok, subAmount_ok, addAmount_ok] at processed
      obtain ⟨rest, ⟨capped, rfl⟩, supply, ⟨_, rfl⟩, increased, counted, balance, ⟨_, rfl⟩,
        result⟩ := processed
      cases result
      exact .minted found (by omega) rfl counted
  | transfer location owner proto txid vout =>
      simp only [processAction] at processed
      split at processed
      · rename_i absent
        cases processed
        exact .transferStale absent
      rename_i data known
      split at processed
      · cases processed
        exact .transferSkipped known
      rename_i token found
      split at processed
      · cases processed
        exact .transferSkipped known
      split at processed
      · cases processed
        exact .transferSkipped known
      rename_i account filed
      split at processed
      · cases processed
        exact .transferSkipped known
      rename_i covered
      simp only [bind_ok, subAmount_ok, addAmount_ok] at processed
      obtain ⟨balance, ⟨_, rfl⟩, locked, ⟨_, rfl⟩, result⟩ := processed
      cases result
      exact .transferAccepted known found filed (by omega)
  | transferred location recipient txid vout =>
      simp only [processAction] at processed
      split at processed
      · rename_i absent
        cases processed
        exact .transferredStale absent
      rename_i sender data valid
      split at processed
      · cases processed
      rename_i token found
      split at processed
      · cases processed
      rename_i old filed
      split at processed
      · cases processed
      rename_i guarded
      simp only [not_or, Nat.not_lt] at guarded
      simp only [bind_ok, subAmount_ok] at processed
      obtain ⟨decreased, counted, rest, ⟨_, rfl⟩, processed⟩ := processed
      split at processed
      · rename_i burn
        cases processed
        exact .burned valid found filed guarded.1 guarded.2 counted burn
      · rename_i kept
        simp only [bind_ok, addAmount_ok] at processed
        obtain ⟨increased, recounted, balance, ⟨_, rfl⟩, result⟩ := processed
        cases result
        exact .sent valid found filed guarded.1 guarded.2 counted (by simpa using kept) rfl
          recounted

theorem step_turn {state next : Processing} {action : TokenAction}
    (stepped : state.step env action = .ok next) :
    ∃ done, Turn id env state.cache state.holders action done ∧
      next = {
        cache := done.cache
        holders := done.holders
        history := state.history ++ done.event.toList } := by
  unfold Processing.step at stepped
  cases processed : processAction env state.cache state.holders action with
  | error fault => simp [processed, Except.map] at stepped
  | ok done =>
      simp only [processed, Except.map, Except.ok.injEq] at stepped
      exact ⟨done, processAction_turn processed, stepped.symm⟩

theorem processAction_other {action : TokenAction} {done : Processed} (other : Holders)
    (processed : processAction env cache holders action = .ok done) :
    ∃ again, processAction env cache other action = .ok { done with holders := again } := by
  cases action with
  | deploy genesis proto owner =>
      simp only [processAction] at processed ⊢
      split at processed <;> cases processed <;> exact ⟨other, rfl⟩
  | mint owner proto txid vout =>
      simp only [processAction] at processed ⊢
      split at processed
      · cases processed
        exact ⟨other, rfl⟩
      rename_i token found
      split at processed
      · rename_i scaled
        cases processed
        exact ⟨other, if_pos scaled⟩
      rename_i scaled
      rw [if_neg scaled]
      split at processed
      · rename_i above
        cases processed
        exact ⟨other, if_pos above⟩
      rename_i above
      rw [if_neg above]
      split at processed
      · rename_i finished
        cases processed
        exact ⟨other, if_pos finished⟩
      rename_i finished
      rw [if_neg finished]
      simp only [bind_ok] at processed ⊢
      obtain ⟨rest, first, supply, second, increased, counted, balance, third, result⟩ := processed
      obtain ⟨again, recounted⟩ := Holders.change_other other counted
      cases result
      exact ⟨again, rest, first, supply, second, again, recounted, balance, third, rfl⟩
  | transfer location owner proto txid vout =>
      simp only [processAction] at processed ⊢
      split at processed
      · cases processed
        exact ⟨other, rfl⟩
      split at processed
      · cases processed
        exact ⟨other, rfl⟩
      split at processed
      · rename_i scaled
        cases processed
        exact ⟨other, if_pos scaled⟩
      rename_i scaled
      rw [if_neg scaled]
      split at processed
      · cases processed
        exact ⟨other, rfl⟩
      split at processed
      · rename_i short
        cases processed
        exact ⟨other, if_pos short⟩
      rename_i short
      rw [if_neg short]
      simp only [bind_ok] at processed ⊢
      obtain ⟨balance, first, locked, second, result⟩ := processed
      cases result
      exact ⟨other, balance, first, locked, second, rfl⟩
  | transferred location recipient txid vout =>
      simp only [processAction] at processed ⊢
      split at processed
      · cases processed
        exact ⟨other, rfl⟩
      split at processed
      · cases processed
      split at processed
      · cases processed
      split at processed
      · cases processed
      rename_i payable
      rw [if_neg payable]
      simp only [bind_ok] at processed ⊢
      obtain ⟨decreased, counted, rest, first, processed⟩ := processed
      obtain ⟨less, recounted⟩ := Holders.change_other other counted
      split at processed
      · rename_i burn
        cases processed
        exact ⟨less, less, recounted, rest, first, if_pos burn⟩
      · rename_i kept
        simp only [bind_ok] at processed
        obtain ⟨increased, credited, balance, second, result⟩ := processed
        obtain ⟨more, recredited⟩ := Holders.change_other less credited
        cases result
        refine ⟨more, less, recounted, rest, first, ?_⟩
        rw [if_neg kept]
        simp only [bind_ok]
        exact ⟨more, recredited, balance, second, rfl⟩

theorem processTokenActions_other {done : Processing} (other : Holders)
    (returned : processTokenActions env cache holders = .ok done) :
    ∃ again, processTokenActions env cache other = .ok { done with holders := again } := by
  refine Machine.run_induction (fun past (state : Processing) =>
    ∃ again, past.foldlM (Processing.step env)
      { cache := { cache with tokenActions := [] }, holders := other } =
        .ok { state with holders := again }) returned ⟨other, rfl⟩ ?_
  rintro past action future state next _ ⟨again, ran⟩ stepped
  unfold Processing.step at stepped
  cases processed : processAction env state.cache state.holders action with
  | error fault =>
      rw [processed] at stepped
      cases stepped
  | ok result =>
      rw [processed] at stepped
      cases stepped
      obtain ⟨after, reprocessed⟩ := processAction_other again processed
      refine ⟨after, run_append_ok.mpr ⟨_, ran, run_cons_ok.mpr ⟨_, ?_, rfl⟩⟩⟩
      unfold Processing.step
      rw [reprocessed]
      rfl

end WjkIndexer.TokenCache
