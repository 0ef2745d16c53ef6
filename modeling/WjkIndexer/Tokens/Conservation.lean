import WjkIndexer.Library.Machine
import WjkIndexer.Tokens.Turn

/-!
Conservation of supply: over a whole list of actions the holdings of a token and what
has been burned of it add up to its supply, and no amount leaves its range.
-/

namespace WjkIndexer

open FiniteTable

def heldOf (accounts : Table AddressToken TokenBalance) (tick : OriginalTokenTick) : Nat :=
  accounts.total fun key account => if key.token = tick then account.held else 0

theorem heldOf_set_self (accounts : Table AddressToken TokenBalance) (address : FullHash)
    (tick : OriginalTokenTick) (account : TokenBalance) :
    heldOf (accounts.set ⟨address, tick⟩ account) tick +
        ((accounts.get ⟨address, tick⟩).getD {}).held =
      heldOf accounts tick + account.held := by
  have written := Table.total_set
    (fun key account => if key.token = tick then TokenBalance.held account else 0)
    accounts ⟨address, tick⟩ account
  cases stored : accounts.get ⟨address, tick⟩ <;> simpa [heldOf, stored] using written

theorem heldOf_set_other (accounts : Table AddressToken TokenBalance) (account : TokenBalance)
    {key : AddressToken} {tick : OriginalTokenTick} (different : tick ≠ key.token) :
    heldOf (accounts.set key account) tick = heldOf accounts tick := by
  have written := Table.total_set
    (fun key account => if key.token = tick then TokenBalance.held account else 0)
    accounts key account
  cases stored : accounts.get key <;> simpa [heldOf, stored, different.symm] using written

theorem held_le_heldOf (accounts : Table AddressToken TokenBalance) (address : FullHash)
    (tick : OriginalTokenTick) :
    ((accounts.get ⟨address, tick⟩).getD {}).held ≤ heldOf accounts tick := by
  have bound := Table.le_total
    (fun key account => if key.token = tick then TokenBalance.held account else 0)
    accounts ⟨address, tick⟩
  cases stored : accounts.get ⟨address, tick⟩ with
  | none => simp
  | some account => simpa [heldOf, stored] using bound

/-- Tokens stand under the key of their tick, and accounts under the tick as the token
was deployed. -/
structure WellFiled (env : Env) (tokens : Table LowerCaseTokenTick TokenMeta)
    (accounts : Table AddressToken TokenBalance) : Prop where
  keyed : ∀ key token, tokens.get key = some token → env.lower token.proto.tick = key
  filed : ∀ key account, accounts.get key = some account →
    ∃ token, tokens.get (env.lower key.token) = some token ∧ token.proto.tick = key.token

/-- A ledger in balance, when `burned` has been burned of each tick so far. -/
structure Conserved (env : Env) (tokens : Table LowerCaseTokenTick TokenMeta)
    (accounts : Table AddressToken TokenBalance) (burned : OriginalTokenTick → Nat) : Prop
    extends WellFiled env tokens accounts where
  balanced : ∀ key token, tokens.get key = some token →
    heldOf accounts token.proto.tick + burned token.proto.tick = token.proto.supply
  capped : ∀ key token, tokens.get key = some token →
    token.proto.supply ≤ token.proto.max ∧ token.proto.max ≤ maxAmount
  unburned : ∀ tick, (∀ key token, tokens.get key = some token → token.proto.tick ≠ tick) →
    burned tick = 0

def burnedIn (env : Env) (tick : OriginalTokenTick) : HistoryTokenAction → Nat
  | .send sentTick amt recipient _ _ _ =>
      if sentTick = tick ∧ env.isOpReturnHash recipient then amt else 0
  | _ => 0

def mintedIn (tick : OriginalTokenTick) : HistoryTokenAction → Nat
  | .mint mintedTick amt _ _ _ => if mintedTick = tick then amt else 0
  | _ => 0

def burnedBy (env : Env) (history : List HistoryTokenAction) (tick : OriginalTokenTick) : Nat :=
  (history.map (burnedIn env tick)).sum

def mintedBy (history : List HistoryTokenAction) (tick : OriginalTokenTick) : Nat :=
  (history.map (mintedIn tick)).sum

def supplyOf (env : Env) (tokens : Table LowerCaseTokenTick TokenMeta)
    (tick : OriginalTokenTick) : Nat :=
  match tokens.get (env.lower tick) with
  | some token => if token.proto.tick = tick then token.proto.supply else 0
  | none => 0

def TokenAction.DeploysEmpty : TokenAction → Prop
  | .deploy _ proto _ => proto.supply = 0 ∧ proto.max ≤ maxAmount
  | _ => True

instance (action : TokenAction) : Decidable action.DeploysEmpty := by
  cases action <;> unfold TokenAction.DeploysEmpty <;> infer_instance

@[simp] theorem burnedBy_nil (env : Env) (tick : OriginalTokenTick) :
    burnedBy env [] tick = 0 := rfl

theorem burnedBy_append (env : Env) (past new : List HistoryTokenAction)
    (tick : OriginalTokenTick) :
    burnedBy env (past ++ new) tick = burnedBy env past tick + burnedBy env new tick := by
  simp [burnedBy]

@[simp] theorem mintedBy_nil (tick : OriginalTokenTick) : mintedBy [] tick = 0 := rfl

theorem mintedBy_append (past new : List HistoryTokenAction) (tick : OriginalTokenTick) :
    mintedBy (past ++ new) tick = mintedBy past tick + mintedBy new tick := by
  simp [mintedBy]

/-! How the tables of a ledger may change. -/

section Ledger

variable {env : Env} {tokens : Table LowerCaseTokenTick TokenMeta}
  {accounts : Table AddressToken TokenBalance} {burned : OriginalTokenTick → Nat}
  {key : LowerCaseTokenTick} {token : TokenMeta}

theorem WellFiled.key_eq (filed : WellFiled env tokens accounts)
    (found : tokens.get key = some token) {other : LowerCaseTokenTick} {twin : TokenMeta}
    (foundTwin : tokens.get other = some twin) (same : twin.proto.tick = token.proto.tick) :
    other = key := by
  rw [← filed.keyed _ _ found, ← filed.keyed _ _ foundTwin, same]

theorem WellFiled.set_token (filed : WellFiled env tokens accounts)
    (found : tokens.get key = some token) {next : TokenMeta}
    (sameTick : next.proto.tick = token.proto.tick) :
    WellFiled env (tokens.set key next) accounts where
  keyed query stored looked := by
    rw [Table.get_set] at looked
    split at looked
    · rename_i same
      cases looked
      rw [sameTick, same]
      exact filed.keyed _ _ found
    · exact filed.keyed _ _ looked
  filed query account looked := by
    obtain ⟨stored, foundStored, spelled⟩ := filed.filed query account looked
    by_cases same : env.lower query.token = key
    · rw [same, found] at foundStored
      cases foundStored
      exact ⟨next, by rw [same, Table.get_set_self], sameTick.trans spelled⟩
    · exact ⟨stored, by rw [Table.get_set_ne _ _ same, foundStored], spelled⟩

theorem WellFiled.set_account (filed : WellFiled env tokens accounts)
    (found : tokens.get key = some token) (address : FullHash) (account : TokenBalance) :
    WellFiled env tokens (accounts.set ⟨address, token.proto.tick⟩ account) where
  keyed := filed.keyed
  filed query stored looked := by
    rw [Table.get_set] at looked
    split at looked
    · rename_i same
      rw [same]
      exact ⟨token, by rw [filed.keyed _ _ found, found], rfl⟩
    · exact filed.filed _ _ looked

theorem WellFiled.deploy (filed : WellFiled env tokens accounts) {genesis : InscriptionId}
    {proto : DeployProtoDB} (vacant : tokens.get (env.lower proto.tick) = none) :
    WellFiled env (tokens.set (env.lower proto.tick) { genesis, proto }) accounts where
  keyed query stored looked := by
    rw [Table.get_set] at looked
    split at looked
    · rename_i same
      cases looked
      exact same.symm
    · exact filed.keyed _ _ looked
  filed query account looked := by
    obtain ⟨stored, foundStored, spelled⟩ := filed.filed query account looked
    refine ⟨stored, ?_, spelled⟩
    rw [Table.get_set_ne, foundStored]
    intro same
    rw [same, vacant] at foundStored
    cases foundStored

theorem WellFiled.account_vacant (filed : WellFiled env tokens accounts)
    {tick : OriginalTokenTick} (vacant : tokens.get (env.lower tick) = none) (address : FullHash) :
    accounts.get ⟨address, tick⟩ = none := by
  apply Option.eq_none_iff_forall_ne_some.mpr
  intro account stored
  obtain ⟨token, found, _⟩ := filed.filed _ account stored
  rw [vacant] at found
  cases found

theorem WellFiled.heldOf_vacant (filed : WellFiled env tokens accounts)
    {tick : OriginalTokenTick} (vacant : tokens.get (env.lower tick) = none) :
    heldOf accounts tick = 0 := by
  apply Table.total_eq_zero
  intro query account stored
  split
  · rename_i same
    subst same
    have absent := filed.account_vacant vacant query.address
    rw [stored] at absent
    cases absent
  · rfl

theorem Conserved.deploy (conserved : Conserved env tokens accounts burned)
    {genesis : InscriptionId} {proto : DeployProtoDB}
    (vacant : tokens.get (env.lower proto.tick) = none)
    (empty : proto.supply = 0 ∧ proto.max ≤ maxAmount) :
    Conserved env (tokens.set (env.lower proto.tick) { genesis, proto }) accounts burned where
  toWellFiled := conserved.toWellFiled.deploy vacant
  balanced query stored looked := by
    rw [Table.get_set] at looked
    split at looked
    · cases looked
      have unburned := conserved.unburned proto.tick fun key token found same => by
        rw [← same, conserved.keyed _ _ found, found] at vacant
        cases vacant
      have unheld := conserved.heldOf_vacant vacant
      simp only [unburned, unheld, empty.1]
    · exact conserved.balanced _ _ looked
  capped query stored looked := by
    rw [Table.get_set] at looked
    split at looked
    · cases looked
      exact ⟨by simp only [empty.1, Nat.zero_le], empty.2⟩
    · exact conserved.capped _ _ looked
  unburned tick absent := by
    refine conserved.unburned tick ?_
    intro key token found
    refine absent key token ?_
    rw [Table.get_set_ne, found]
    rintro rfl
    rw [vacant] at found
    cases found

theorem Conserved.update (conserved : Conserved env tokens accounts burned)
    (found : tokens.get key = some token) {next : TokenMeta}
    {changed : Table AddressToken TokenBalance} {nextBurned : OriginalTokenTick → Nat}
    (sameTick : next.proto.tick = token.proto.tick) (sameMax : next.proto.max = token.proto.max)
    (filed : WellFiled env (tokens.set key next) changed)
    (balanced : heldOf changed token.proto.tick + nextBurned token.proto.tick = next.proto.supply)
    (capped : next.proto.supply ≤ token.proto.max)
    (elsewhere : ∀ tick, tick ≠ token.proto.tick →
      heldOf changed tick = heldOf accounts tick ∧ nextBurned tick = burned tick) :
    Conserved env (tokens.set key next) changed nextBurned where
  toWellFiled := filed
  balanced query stored looked := by
    rw [Table.get_set] at looked
    split at looked
    · cases looked
      rw [sameTick]
      exact balanced
    · rename_i different
      have otherTick : stored.proto.tick ≠ token.proto.tick := fun same =>
        different (conserved.key_eq found looked same)
      obtain ⟨sameHeld, sameBurned⟩ := elsewhere _ otherTick
      rw [sameHeld, sameBurned]
      exact conserved.balanced _ _ looked
  capped query stored looked := by
    rw [Table.get_set] at looked
    split at looked
    · cases looked
      rw [sameMax]
      exact ⟨capped, (conserved.capped _ _ found).2⟩
    · exact conserved.capped _ _ looked
  unburned tick absent := by
    have otherTick : tick ≠ token.proto.tick := by
      rintro rfl
      exact absent key next (Table.get_set_self _ _ _) sameTick
    rw [(elsewhere tick otherTick).2]
    refine conserved.unburned tick ?_
    intro query stored looked
    by_cases same : query = key
    · rw [same, found] at looked
      cases looked
      exact otherTick.symm
    · exact absent query stored (by rw [Table.get_set_ne _ _ same, looked])

theorem Conserved.held_bound (conserved : Conserved env tokens accounts burned)
    (found : tokens.get key = some token) (address : FullHash) :
    ((accounts.get ⟨address, token.proto.tick⟩).getD {}).held ≤ token.proto.supply ∧
      token.proto.supply ≤ maxAmount := by
  have share := held_le_heldOf accounts address token.proto.tick
  have sum := conserved.balanced _ _ found
  have bound := conserved.capped _ _ found
  omega

theorem maxAmount_lt : 2 * maxAmount < amountBound := by decide

theorem supplyOf_set (filed : WellFiled env tokens accounts)
    (found : tokens.get key = some token) {next : TokenMeta}
    (sameTick : next.proto.tick = token.proto.tick) (tick : OriginalTokenTick) :
    supplyOf env (tokens.set key next) tick =
      if tick = token.proto.tick then next.proto.supply else supplyOf env tokens tick := by
  have home := filed.keyed _ _ found
  by_cases same : tick = token.proto.tick
  · subst same
    simp [supplyOf, home, sameTick]
  · by_cases sameKey : env.lower tick = key
    · simp [supplyOf, same, sameKey, found, sameTick, Ne.symm same]
    · simp [supplyOf, same, Table.get_set_ne _ _ sameKey]

theorem supplyOf_found (filed : WellFiled env tokens accounts)
    (found : tokens.get key = some token) :
    supplyOf env tokens token.proto.tick = token.proto.supply := by
  simp [supplyOf, filed.keyed _ _ found, found]

theorem supplyOf_keep (filed : WellFiled env tokens accounts)
    (found : tokens.get key = some token) {next : TokenMeta}
    (sameTick : next.proto.tick = token.proto.tick)
    (sameSupply : next.proto.supply = token.proto.supply) (tick : OriginalTokenTick) :
    supplyOf env (tokens.set key next) tick = supplyOf env tokens tick := by
  rw [supplyOf_set filed found sameTick]
  split
  · rename_i same
    rw [same, supplyOf_found filed found, sameSupply]
  · rfl

theorem burnedBy_singleton (event : HistoryTokenAction) (tick : OriginalTokenTick) :
    burnedBy env [event] tick = burnedIn env tick event := by
  simp [burnedBy]

theorem mintedBy_singleton (event : HistoryTokenAction) (tick : OriginalTokenTick) :
    mintedBy [event] tick = mintedIn tick event := by
  simp [mintedBy]

end Ledger

namespace TokenCache

variable {env : Env} {cache : TokenCache} {holders : Holders}

theorem turn_conserves {action : TokenAction} {done : Processed}
    {burned : OriginalTokenTick → Nat} (turn : Turn id env cache holders action done)
    (conserved : Conserved env cache.tokens cache.tokenAccounts burned)
    (empty : action.DeploysEmpty) :
    Conserved env done.cache.tokens done.cache.tokenAccounts
        (fun tick => burned tick + burnedBy env done.event.toList tick) ∧
      ∀ tick, supplyOf env done.cache.tokens tick =
        supplyOf env cache.tokens tick + mintedBy done.event.toList tick := by
  cases turn with
  | redeployed | mintSkipped | transferStale | transferSkipped | transferredStale =>
      exact ⟨by simpa using conserved, by simp⟩
  | @deployed genesis proto owner vacant =>
      refine ⟨by simpa [burnedBy, burnedIn] using conserved.deploy vacant empty, ?_⟩
      intro tick
      simp only [Option.toList_some, mintedBy_singleton, mintedIn, Nat.add_zero]
      by_cases sameKey : env.lower tick = env.lower proto.tick
      · have absent : supplyOf env cache.tokens tick = 0 := by simp [supplyOf, sameKey, vacant]
        simp only [absent]
        simp only [supplyOf, sameKey, Table.get_set_self, empty.1, ite_self]
      · simp only [supplyOf, Table.get_set_ne _ _ sameKey]
  | @minted owner proto txid vout token amt increased found unfinished clamped counted =>
      have sum := conserved.balanced _ _ found
      have written := heldOf_set_self cache.tokenAccounts owner token.proto.tick
        (((cache.tokenAccounts.get ⟨owner, token.proto.tick⟩).getD {}).credit amt)
      rw [TokenBalance.held_credit] at written
      constructor
      · simp only [Option.toList_some, burnedBy_singleton, burnedIn, Nat.add_zero]
        refine conserved.update found rfl rfl ?_ ?_ ?_ ?_
        · exact (conserved.set_account found _ _).set_token found rfl
        · rw [TokenMeta.recordMint_supply]
          omega
        · rw [TokenMeta.recordMint_supply]
          omega
        · intro tick different
          exact ⟨heldOf_set_other _ _ different, rfl⟩
      · intro tick
        simp only [Option.toList_some, mintedBy_singleton, mintedIn]
        rw [supplyOf_set conserved.toWellFiled found (TokenMeta.recordMint_tick _ _)]
        split
        · rename_i same
          rw [same, supplyOf_found conserved.toWellFiled found, if_pos rfl,
            TokenMeta.recordMint_supply]
        · rename_i different
          rw [if_neg (Ne.symm different), Nat.add_zero]
  | @transferAccepted location owner proto txid vout data token account known found filed covered =>
      have sum := conserved.balanced _ _ found
      have written := heldOf_set_self cache.tokenAccounts owner token.proto.tick
        (account.lock proto.amt)
      rw [TokenBalance.held_lock covered, filed, Option.getD_some] at written
      constructor
      · simp only [Option.toList_some, burnedBy_singleton, burnedIn, Nat.add_zero]
        refine conserved.update found rfl rfl ?_ ?_ (conserved.capped _ _ found).1 ?_
        · exact (conserved.set_account found _ _).set_token found rfl
        · rw [TokenMeta.recordTransfer_supply]
          omega
        · intro tick different
          exact ⟨heldOf_set_other _ _ different, rfl⟩
      · intro tick
        simp only [Option.toList_some, mintedBy_singleton, mintedIn, Nat.add_zero]
        exact supplyOf_keep conserved.toWellFiled found (TokenMeta.recordTransfer_tick _)
          (TokenMeta.recordTransfer_supply _) tick
  | @burned location recipient txid vout sender data token old decreased valid found filed pending
      covered counted burn =>
      have sum := conserved.balanced _ _ found
      have written := heldOf_set_self cache.tokenAccounts sender token.proto.tick
        (old.release data.amt)
      have released := TokenBalance.held_release covered
      rw [filed, Option.getD_some] at written
      constructor
      · simp only [Option.toList_some, burnedBy_singleton, burnedIn, burn, and_true]
        refine conserved.update found rfl rfl ?_ ?_ (conserved.capped _ _ found).1 ?_
        · exact (conserved.set_account found _ _).set_token found rfl
        · rw [TokenMeta.recordSend_supply, if_pos rfl]
          omega
        · intro tick different
          exact ⟨heldOf_set_other _ _ different, by simp [Ne.symm different]⟩
      · intro tick
        simp only [Option.toList_some, mintedBy_singleton, mintedIn, Nat.add_zero]
        exact supplyOf_keep conserved.toWellFiled found (TokenMeta.recordSend_tick _)
          (TokenMeta.recordSend_supply _) tick
  | @sent location recipient txid vout sender data token old account decreased increased valid
      found filed pending covered counted kept credited recounted =>
      have sum := conserved.balanced _ _ found
      have written := heldOf_set_self cache.tokenAccounts sender token.proto.tick
        (old.release data.amt)
      have released := TokenBalance.held_release covered
      rw [filed, Option.getD_some] at written
      have rewritten := heldOf_set_self (cache.tokenAccounts.set ⟨sender, token.proto.tick⟩
        (old.release data.amt)) recipient token.proto.tick (account.credit data.amt)
      rw [id_eq, id_eq] at credited
      rw [TokenBalance.held_credit, ← credited] at rewritten
      constructor
      · simp only [Option.toList_some, burnedBy_singleton, burnedIn, kept, Bool.false_eq_true,
          and_false, if_false, Nat.add_zero]
        refine conserved.update found rfl rfl ?_ ?_ (conserved.capped _ _ found).1 ?_
        · exact ((conserved.set_account found _ _).set_account found _ _).set_token found rfl
        · rw [TokenMeta.recordSend_supply]
          omega
        · intro tick different
          refine ⟨?_, rfl⟩
          rw [heldOf_set_other _ _ different, heldOf_set_other _ _ different]
      · intro tick
        simp only [Option.toList_some, mintedBy_singleton, mintedIn, Nat.add_zero]
        exact supplyOf_keep conserved.toWellFiled found (TokenMeta.recordSend_tick _)
          (TokenMeta.recordSend_supply _) tick

theorem processAction_in_range {action : TokenAction} {burned : OriginalTokenTick → Nat}
    (conserved : Conserved env cache.tokens cache.tokenAccounts burned) :
    processAction env cache holders action ≠ .error .amountOverflow := by
  have range := maxAmount_lt
  cases action with
  | deploy genesis proto owner =>
      simp only [processAction]
      split <;> exact Machine.ok_ne_error
  | mint owner proto txid vout =>
      simp only [processAction]
      split
      · exact Machine.ok_ne_error
      rename_i token found
      split
      · exact Machine.ok_ne_error
      split
      · exact Machine.ok_ne_error
      split
      · exact Machine.ok_ne_error
      have capped := conserved.capped _ _ found
      have bound := conserved.held_bound found owner
      have held : ((cache.tokenAccounts.get ⟨owner, token.proto.tick⟩).getD {}).balance ≤
          ((cache.tokenAccounts.get ⟨owner, token.proto.tick⟩).getD {}).held := by
        simp only [TokenBalance.held]
        omega
      have rest := subAmount_ok.mpr ⟨capped.1, rfl⟩
      have supply := addAmount_ok.mpr ⟨show token.proto.supply +
        min proto.amt (token.proto.max - token.proto.supply) < amountBound by omega, rfl⟩
      obtain ⟨increased, counted⟩ := holders.increase_returns ⟨owner, token.proto.tick⟩
        (show ((cache.tokenAccounts.get ⟨owner, token.proto.tick⟩).getD {}).held +
          min proto.amt (token.proto.max - token.proto.supply) < amountBound by omega)
      have balance := addAmount_ok.mpr ⟨show
        ((cache.tokenAccounts.get ⟨owner, token.proto.tick⟩).getD {}).balance +
          min proto.amt (token.proto.max - token.proto.supply) < amountBound by omega, rfl⟩
      simp only [rest, supply, counted, balance, bind, Except.bind]
      exact Machine.ok_ne_error
  | transfer location owner proto txid vout =>
      simp only [processAction]
      split
      · exact Machine.ok_ne_error
      split
      · exact Machine.ok_ne_error
      rename_i token found
      split
      · exact Machine.ok_ne_error
      split
      · exact Machine.ok_ne_error
      rename_i account filed
      split
      · exact Machine.ok_ne_error
      rename_i covered
      have bound := conserved.held_bound found owner
      simp only [filed, Option.getD_some, TokenBalance.held] at bound
      have balance := subAmount_ok.mpr ⟨Nat.le_of_not_lt covered, rfl⟩
      have locked := addAmount_ok.mpr ⟨show account.transferableBalance + proto.amt < amountBound
        by omega, rfl⟩
      simp only [balance, locked, bind, Except.bind]
      exact Machine.ok_ne_error
  | transferred location recipient txid vout =>
      simp only [processAction]
      split
      · exact Machine.ok_ne_error
      rename_i sender data valid
      split
      · simp
      rename_i token found
      split
      · simp
      rename_i old filed
      split
      · simp
      rename_i guarded
      have covered : data.amt ≤ old.transferableBalance := by omega
      have bound := conserved.held_bound found sender
      have sum := conserved.balanced _ _ found
      simp only [filed, Option.getD_some] at bound
      have released := TokenBalance.held_release covered
      have written := heldOf_set_self cache.tokenAccounts sender token.proto.tick
        (old.release data.amt)
      rw [filed, Option.getD_some] at written
      have share := held_le_heldOf (cache.tokenAccounts.set ⟨sender, token.proto.tick⟩
        (old.release data.amt)) recipient token.proto.tick
      obtain ⟨decreased, counted⟩ := holders.decrease_returns ⟨sender, token.proto.tick⟩
        (show old.held < amountBound by omega) (show data.amt ≤ old.held by omega)
      have rest := subAmount_ok.mpr ⟨covered, rfl⟩
      simp only [counted, rest, bind, Except.bind]
      split
      · exact Machine.ok_ne_error
      rw [show ({ old with
          transferableBalance := old.transferableBalance - data.amt
          transfersCount := old.transfersCount - 1 } : TokenBalance) = old.release data.amt from rfl]
      generalize ((cache.tokenAccounts.set ⟨sender, token.proto.tick⟩
        (old.release data.amt)).get ⟨recipient, token.proto.tick⟩).getD {} = account at share
      obtain ⟨increased, recounted⟩ := decreased.increase_returns ⟨recipient, token.proto.tick⟩
        (show account.held + data.amt < amountBound by omega)
      have balance := addAmount_ok.mpr ⟨show account.balance + data.amt < amountBound by
        simp only [TokenBalance.held] at share
        omega, rfl⟩
      simp only [recounted, balance]
      exact Machine.ok_ne_error

def ConservedSince (env : Env) (cache : TokenCache) (burned : OriginalTokenTick → Nat)
    (state : Processing) : Prop :=
  Conserved env state.cache.tokens state.cache.tokenAccounts
      (fun tick => burned tick + burnedBy env state.history tick) ∧
    ∀ tick, supplyOf env state.cache.tokens tick =
      supplyOf env cache.tokens tick + mintedBy state.history tick

theorem step_conserves {burned : OriginalTokenTick → Nat} {state next : Processing}
    {action : TokenAction} (conserved : ConservedSince env cache burned state)
    (empty : action.DeploysEmpty) (stepped : state.step env action = .ok next) :
    ConservedSince env cache burned next := by
  obtain ⟨done, turn, rfl⟩ := step_turn stepped
  obtain ⟨balanced, supplied⟩ := turn_conserves turn conserved.1 empty
  refine ⟨?_, ?_⟩
  · simpa only [burnedBy_append, Nat.add_assoc] using balanced
  · intro tick
    simp only [supplied tick, conserved.2 tick, mintedBy_append, Nat.add_assoc]

theorem processTokenActions_conserves (burned : OriginalTokenTick → Nat)
    (conserved : Conserved env cache.tokens cache.tokenAccounts burned)
    (empty : ∀ action ∈ cache.tokenActions, action.DeploysEmpty) :
    processTokenActions env cache holders ≠ .error .amountOverflow ∧
      ∀ done, processTokenActions env cache holders = .ok done →
        Conserved env done.cache.tokens done.cache.tokenAccounts
            (fun tick => burned tick + burnedBy env done.history tick) ∧
          ∀ tick, supplyOf env done.cache.tokens tick =
            supplyOf env cache.tokens tick + mintedBy done.history tick := by
  have initial : ConservedSince env cache burned
      { cache := { cache with tokenActions := [] }, holders } :=
    ⟨by simpa using conserved, by simp⟩
  have preserved : ∀ past action future state next, past ++ action :: future = cache.tokenActions →
      ConservedSince env cache burned state → Processing.step env state action = .ok next →
      ConservedSince env cache burned next := by
    intro past action future state next split holds stepped
    exact step_conserves holds (empty action (by simp [← split])) stepped
  constructor
  · intro failed
    obtain ⟨_, action, _, state, _, holds, stopped⟩ :=
      Machine.run_error (fun _ => ConservedSince env cache burned) failed initial preserved
    unfold Processing.step at stopped
    cases processed : processAction env state.cache state.holders action with
    | error fault =>
        simp only [processed, Except.map, Except.error.injEq] at stopped
        exact processAction_in_range holds.1 (stopped ▸ processed)
    | ok done => simp [processed, Except.map] at stopped
  · intro done returned
    exact Machine.run_induction (fun _ => ConservedSince env cache burned) returned initial
      preserved

/-- A deployment of `wojak` and what follows: a mint cut down to the maximum, a transfer to
another address, and a transfer that is burned. -/
def wojakRun : TokenCache :=
  let tick : OriginalTokenTick := { bytes := [119, 111, 106, 97, 107, 0, 0, 0], size := rfl }
  let first : Location := ⟨⟨1, 0⟩, 0⟩
  let second : Location := ⟨⟨2, 0⟩, 0⟩
  { allTransfers := ((∅ : Table Location TransferProtoDB).set first ⟨tick, 30, 7⟩).set second
      ⟨tick, 10, 7⟩
    tokenActions := [
      .deploy ⟨5, 0⟩ ⟨tick, 100, 100, 18, 0, 0, 0, 7, 0, 8, 1⟩ 8,
      .mint 8 ⟨tick, 60⟩ 6 0,
      .mint 8 ⟨tick, 60⟩ 7 0,
      .transfer first 8 ⟨tick, 30⟩ 1 0,
      .transferred first 9 3 0,
      .transfer second 9 ⟨tick, 10⟩ 2 0,
      .transferred second
        0x5d892a24c4b8584eed0c8b7f583fead3f4482c23549a33fda638b0201fac8f30#256 4 0] }

theorem wojakRun_conserves :
    let env := Env.ofRecords .wojakcoin .bellscoin []
    let tick : OriginalTokenTick := { bytes := [119, 111, 106, 97, 107, 0, 0, 0], size := rfl }
    (∃ done, processTokenActions env wojakRun {} = .ok done ∧
      burnedBy env done.history tick = 10 ∧ mintedBy done.history tick = 100) ∧
    processTokenActions env wojakRun {} ≠ .error .amountOverflow ∧
      ∀ done, processTokenActions env wojakRun {} = .ok done →
        Conserved env done.cache.tokens done.cache.tokenAccounts
            (fun tick => 0 + burnedBy env done.history tick) ∧
          ∀ tick, supplyOf env done.cache.tokens tick =
            supplyOf env wojakRun.tokens tick + mintedBy done.history tick := by
  refine ⟨⟨_, rfl, by decide, by decide⟩, processTokenActions_conserves (fun _ => 0) ?_
    (by decide)⟩
  exact {
    keyed := fun _ _ found => nomatch found
    filed := fun _ _ found => nomatch found
    balanced := fun _ _ found => nomatch found
    capped := fun _ _ found => nomatch found
    unburned := fun _ _ => rfl }

end TokenCache

end WjkIndexer
