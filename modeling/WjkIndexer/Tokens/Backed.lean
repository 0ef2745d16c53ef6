import WjkIndexer.Tokens.Live

/-!
Locked balances: what an account has moved into transfers is what its valid transfers hold,
so that every transfer can be paid when it is moved.
-/

namespace WjkIndexer.TokenCache

open FiniteTable Machine

/-- The weight of the valid transfers of an owner for a tick. -/
def transfersOf (weight : TransferProtoDB → Nat)
    (valid : Table Location (FullHash × TransferProtoDB)) (address : FullHash)
    (tick : OriginalTokenTick) : Nat :=
  valid.total fun _ transfer =>
    if transfer.1 = address ∧ transfer.2.tick = tick then weight transfer.2 else 0

theorem transfersOf_set (weight : TransferProtoDB → Nat)
    {valid : Table Location (FullHash × TransferProtoDB)} {location : Location}
    (vacant : valid.get location = none) (owner : FullHash) (data : TransferProtoDB)
    (address : FullHash) (tick : OriginalTokenTick) :
    transfersOf weight (valid.set location (owner, data)) address tick =
      transfersOf weight valid address tick +
        if owner = address ∧ data.tick = tick then weight data else 0 := by
  have written := Table.total_set (fun _ (transfer : FullHash × TransferProtoDB) =>
    if transfer.1 = address ∧ transfer.2.tick = tick then weight transfer.2 else 0)
    valid location (owner, data)
  rw [vacant] at written
  exact written

theorem transfersOf_remove (weight : TransferProtoDB → Nat)
    {valid : Table Location (FullHash × TransferProtoDB)} {location : Location} {owner : FullHash}
    {data : TransferProtoDB} (found : valid.get location = some (owner, data))
    (address : FullHash) (tick : OriginalTokenTick) :
    transfersOf weight (valid.remove location) address tick +
        (if owner = address ∧ data.tick = tick then weight data else 0) =
      transfersOf weight valid address tick := by
  have removed := Table.total_remove (fun _ (transfer : FullHash × TransferProtoDB) =>
    if transfer.1 = address ∧ transfer.2.tick = tick then weight transfer.2 else 0)
    valid location
  rw [found] at removed
  exact removed

def lockedPart (account : TokenBalance) : Nat × Nat :=
  (account.transferableBalance, account.transfersCount)

theorem lockedPart_credit (account : TokenBalance) (amt : Nat) :
    lockedPart (account.credit amt) = lockedPart account := rfl

/-- The accounts agree with the valid transfers of the cache and those that are `elsewhere`,
and every valid transfer is one of a deployed token. -/
structure Backed (env : Env)
    (elsewhere : (TransferProtoDB → Nat) → FullHash → OriginalTokenTick → Nat)
    (cache : TokenCache) : Prop where
  deployed : ∀ location sender data, cache.validTransfers.get location = some (sender, data) →
    ∃ token, cache.tokens.get (env.lower data.tick) = some token ∧ token.proto.tick = data.tick
  locked : ∀ address tick, lockedPart ((cache.tokenAccounts.get ⟨address, tick⟩).getD {}) =
    (elsewhere TransferProtoDB.amt address tick +
        transfersOf TransferProtoDB.amt cache.validTransfers address tick,
      elsewhere (fun _ => 1) address tick +
        transfersOf (fun _ => 1) cache.validTransfers address tick)

section Turn

variable {env : Env} {cache : TokenCache} {holders : Holders} {action : TokenAction}
  {done : Processed} {elsewhere : (TransferProtoDB → Nat) → FullHash → OriginalTokenTick → Nat}

theorem Backed.deployed_set (backed : Backed env elsewhere cache) {key : LowerCaseTokenTick}
    {token next : TokenMeta} (found : cache.tokens.get key = some token)
    (sameTick : next.proto.tick = token.proto.tick) {location : Location} {sender : FullHash}
    {data : TransferProtoDB}
    (valid : cache.validTransfers.get location = some (sender, data)) :
    ∃ now, (cache.tokens.set key next).get (env.lower data.tick) = some now ∧
      now.proto.tick = data.tick := by
  obtain ⟨stored, foundStored, spelled⟩ := backed.deployed location sender data valid
  by_cases same : env.lower data.tick = key
  · rw [same, found] at foundStored
    cases foundStored
    exact ⟨next, by rw [same, Table.get_set_self], sameTick.trans spelled⟩
  · exact ⟨stored, by rw [Table.get_set_ne _ _ same, foundStored], spelled⟩

theorem locked_set {accounts : Table AddressToken TokenBalance} {key : AddressToken}
    {account : TokenBalance}
    (same : lockedPart account = lockedPart ((accounts.get key).getD {})) (query : AddressToken) :
    lockedPart (((accounts.set key account).get query).getD {}) =
      lockedPart ((accounts.get query).getD {}) := by
  rw [Table.get_set]
  split
  · rename_i sameKey
    rw [sameKey]
    exact same
  · rfl

theorem Backed.covers (backed : Backed env elsewhere cache) {location : Location}
    {sender : FullHash} {data : TransferProtoDB}
    (valid : cache.validTransfers.get location = some (sender, data)) :
    data.amt ≤ ((cache.tokenAccounts.get ⟨sender, data.tick⟩).getD {}).transferableBalance ∧
      ((cache.tokenAccounts.get ⟨sender, data.tick⟩).getD {}).transfersCount ≠ 0 := by
  have locked := backed.locked sender data.tick
  have amounts := transfersOf_remove TransferProtoDB.amt valid sender data.tick
  have counts := transfersOf_remove (fun _ => 1) valid sender data.tick
  simp only [lockedPart, Prod.mk.injEq] at locked
  simp only [and_self, if_true] at amounts counts
  omega

theorem Backed.release (backed : Backed env elsewhere cache) {location : Location}
    {sender : FullHash} {data : TransferProtoDB} {old : TokenBalance}
    (valid : cache.validTransfers.get location = some (sender, data))
    (filed : cache.tokenAccounts.get ⟨sender, data.tick⟩ = some old) (address : FullHash)
    (tick : OriginalTokenTick) :
    lockedPart (((cache.tokenAccounts.set ⟨sender, data.tick⟩ (old.release data.amt)).get
        ⟨address, tick⟩).getD {}) =
      (elsewhere TransferProtoDB.amt address tick +
          transfersOf TransferProtoDB.amt (cache.validTransfers.remove location) address tick,
        elsewhere (fun _ => 1) address tick +
          transfersOf (fun _ => 1) (cache.validTransfers.remove location) address tick) := by
  have locked := backed.locked address tick
  have amounts := transfersOf_remove TransferProtoDB.amt valid address tick
  have counts := transfersOf_remove (fun _ => 1) valid address tick
  simp only [lockedPart, Prod.mk.injEq] at locked
  rw [Table.get_set]
  split
  · rename_i same
    cases same
    rw [filed] at locked
    simp only [and_self, if_true, Option.getD_some] at locked amounts counts
    simp only [Option.getD_some, lockedPart, TokenBalance.release, Prod.mk.injEq]
    omega
  · rename_i different
    have other : ¬(sender = address ∧ data.tick = tick) := by
      rintro ⟨rfl, rfl⟩
      exact different rfl
    rw [if_neg other, Nat.add_zero] at amounts counts
    rw [amounts, counts]
    exact backed.locked address tick

/-- A turn counts at most one transfer of an account. -/
theorem Turn.counted (turn : Turn lockedPart env cache holders action done) (key : AddressToken) :
    ((done.cache.tokenAccounts.get key).getD {}).transfersCount ≤
      ((cache.tokenAccounts.get key).getD {}).transfersCount + 1 := by
  cases turn with
  | redeployed | deployed | mintSkipped | transferStale | transferSkipped | transferredStale =>
      exact Nat.le_succ _
  | @minted owner proto txid vout token amt increased found unfinished clamped counted =>
      have same := congrArg Prod.snd (locked_set (lockedPart_credit
        ((cache.tokenAccounts.get ⟨owner, token.proto.tick⟩).getD {}) amt) key)
      exact same.le.trans (Nat.le_succ _)
  | transferAccepted known found filedAccount covered =>
      dsimp only
      rw [Table.get_set]
      split
      · rename_i same
        rw [same, filedAccount]
        exact Nat.mod_le _ _
      · exact Nat.le_succ _
  | burned valid found filedAccount pending covered counted burn =>
      dsimp only
      rw [Table.get_set]
      split
      · rename_i same
        rw [same, filedAccount]
        exact (Nat.sub_le _ _).trans (Nat.le_succ _)
      · exact Nat.le_succ _
  | @sent location recipient txid vout sender data token old account decreased increased valid
      found filedAccount pending covered counted kept credited recounted =>
      have same := congrArg Prod.snd
        (locked_set ((lockedPart_credit account data.amt).trans credited) key)
      refine same.le.trans ?_
      dsimp only [lockedPart]
      rw [Table.get_set]
      split
      · rename_i same
        rw [same, filedAccount]
        exact (Nat.sub_le _ _).trans (Nat.le_succ _)
      · exact Nat.le_succ _

theorem Backed.turn (turn : Turn lockedPart env cache holders action done)
    (backed : Backed env elsewhere cache)
    (filed : WellFiled env cache.tokens cache.tokenAccounts)
    (room : ∀ key, ((cache.tokenAccounts.get key).getD {}).transfersCount + 1 < 2 ^ 64)
    (agreed : ∀ location owner proto txid vout data,
      action = .transfer location owner proto txid vout →
      cache.allTransfers.get location = some data →
      data.amt = proto.amt ∧ cache.validTransfers.get location = none) :
    Backed env elsewhere done.cache := by
  cases turn with
  | redeployed | mintSkipped | transferStale | transferredStale =>
      exact backed
  | transferSkipped =>
      exact { deployed := backed.deployed, locked := backed.locked }
  | @deployed genesis proto owner vacant =>
      refine { deployed := ?_, locked := backed.locked }
      intro location sender data valid
      obtain ⟨token, found, spelled⟩ := backed.deployed location sender data valid
      refine ⟨token, ?_, spelled⟩
      rw [Table.get_set_ne, found]
      intro same
      rw [same, vacant] at found
      cases found
  | @minted owner proto txid vout token amt increased found unfinished clamped counted =>
      refine { deployed := ?_, locked := ?_ }
      · exact fun location sender data valid =>
          backed.deployed_set found (TokenMeta.recordMint_tick _ _) valid
      · intro address tick
        dsimp only
        rw [locked_set (lockedPart_credit _ _)]
        exact backed.locked address tick
  | @transferAccepted location owner proto txid vout data token account known found filedAccount
      covered =>
      obtain ⟨sameAmount, vacant⟩ := agreed location owner proto txid vout data rfl known
      refine { deployed := ?_, locked := ?_ }
      · intro place sender record valid
        rw [Table.get_set] at valid
        split at valid
        · cases valid
          have home := filed.keyed _ _ found
          exact ⟨token.recordTransfer, by dsimp only; rw [home, Table.get_set_self], rfl⟩
        · exact backed.deployed_set found (TokenMeta.recordTransfer_tick _) valid
      · intro address tick
        have locked := backed.locked address tick
        have next := countUp_of_lt (room ⟨address, tick⟩)
        dsimp only
        rw [transfersOf_set TransferProtoDB.amt vacant, transfersOf_set (fun _ => 1) vacant,
          Table.get_set]
        split
        · rename_i same
          cases same
          rw [filedAccount, Option.getD_some] at locked next
          simp only [lockedPart, Prod.mk.injEq] at locked
          simp only [Option.getD_some, lockedPart, TokenBalance.lock, and_self, if_true,
            Prod.mk.injEq, next]
          omega
        · rename_i different
          have other : ¬(owner = address ∧ token.proto.tick = tick) := by
            rintro ⟨rfl, rfl⟩
            exact different rfl
          rw [if_neg other, if_neg other, Nat.add_zero, Nat.add_zero]
          exact locked
  | @burned location recipient txid vout sender data token old decreased valid found filedAccount
      pending covered counted burn =>
      obtain ⟨same, foundSame, spelled⟩ := backed.deployed location sender data valid
      rw [found] at foundSame
      cases foundSame
      refine { deployed := ?_, locked := ?_ }
      · intro place holder record left
        rw [Table.get_remove] at left
        split at left
        · cases left
        · exact backed.deployed_set found (TokenMeta.recordSend_tick _) left
      · rw [spelled] at filedAccount ⊢
        exact backed.release valid filedAccount
  | @sent location recipient txid vout sender data token old account decreased increased valid
      found filedAccount pending covered counted kept credited recounted =>
      obtain ⟨same, foundSame, spelled⟩ := backed.deployed location sender data valid
      rw [found] at foundSame
      cases foundSame
      refine { deployed := ?_, locked := ?_ }
      · intro place holder record left
        rw [Table.get_remove] at left
        split at left
        · cases left
        · exact backed.deployed_set found (TokenMeta.recordSend_tick _) left
      · intro address tick
        dsimp only
        rw [locked_set ((lockedPart_credit _ _).trans credited)]
        rw [spelled] at filedAccount ⊢
        exact backed.release valid filedAccount address tick

end Turn

/-- The last transfer that is inscribed at a location, whose record stands for all of them,
has the amount of the first one, which is processed. -/
def AmountsAgree (cache : TokenCache) : Prop :=
  ∀ location owner proto lastOwner lastProto,
    firstTransfer cache.tokenActions location = some (owner, proto) →
    (transfersAt cache.tokenActions location).getLast? = some (lastOwner, lastProto) →
    lastProto.amt = proto.amt

instance (cache : TokenCache) : Decidable (AmountsAgree cache) :=
  decidable_of_iff
    (∀ action ∈ cache.tokenActions, (match action with
      | .transfer location _ _ _ _ =>
          (firstTransfer cache.tokenActions location).all fun first =>
            (transfersAt cache.tokenActions location).getLast?.all fun last =>
              decide (last.2.amt = first.2.amt)
      | _ => true) = true)
    (by
      constructor
      · intro checked location owner proto lastOwner lastProto first last
        obtain ⟨txid, vout, listed⟩ := mem_transfersAt.mp (List.mem_of_head? first)
        have agrees := checked _ listed
        simp only [first, last, Option.all_some, decide_eq_true_eq] at agrees
        exact agrees
      · intro agree action listed
        cases action with
        | transfer location owner proto txid vout =>
            simp only [Option.all_eq_true, decide_eq_true_eq]
            intro first found last ended
            exact agree location first.1 first.2 last.1 last.2 found ended
        | deploy | mint | transferred => rfl)

/-- No count of the transfers of an account reaches the end of its range in a block. -/
def CountsFit (db : DB) (cache : TokenCache) : Prop :=
  cache.tokenActions.length < 2 ^ 64 ∧
  ∀ key ∈ db.addressTokenToBalance.keys,
    ((db.addressTokenToBalance.get key).getD {}).transfersCount + cache.tokenActions.length < 2 ^ 64

instance (db : DB) (cache : TokenCache) : Decidable (CountsFit db cache) :=
  inferInstanceAs (Decidable (_ ∧ _))

theorem CountsFit.room {db : DB} {cache : TokenCache} (fit : CountsFit db cache)
    (key : AddressToken) :
    ((db.addressTokenToBalance.get key).getD {}).transfersCount + cache.tokenActions.length <
      2 ^ 64 := by
  by_cases stored : key ∈ db.addressTokenToBalance.keys
  · exact fit.2 key stored
  · rw [Table.get_eq_none_iff.mpr stored]
    simpa using fit.1

section Processing

variable {env : Env} {db : DB} {txids : Finset Txid} {begun cache : TokenCache}
  {holders : Holders} {past future : List TokenAction} {state : TokenCache}
  {elsewhere : (TransferProtoDB → Nat) → FullHash → OriginalTokenTick → Nat}

theorem taken_agreed (preloadable : Preloadable env db cache) (fed : Fed env txids begun cache)
    (amounts : AmountsAgree cache) (running : Running env db cache past state)
    {location : Location} {owner : FullHash} {proto : MintProtoWrapper} {txid : Txid} {vout : Nat}
    (split : past ++ .transfer location owner proto txid vout :: future = cache.tokenActions)
    {data : TransferProtoDB} (known : state.allTransfers.get location = some data) :
    data.amt = proto.amt ∧ state.validTransfers.get location = none := by
  have first := running.traced.first split known
  have some : transfersAt cache.tokenActions location ≠ [] := by
    intro none
    rw [firstTransfer, none] at first
    cases first
  obtain ⟨⟨lastOwner, lastProto⟩, last⟩ := Option.ne_none_iff_exists'.mp
    (mt List.getLast?_eq_none_iff.mp some)
  constructor
  · obtain ⟨height, stands⟩ := fed.last location lastOwner lastProto last
    rw [running.traced.all location data known, Option.some.injEq] at stands
    rw [stands]
    exact amounts location owner proto lastOwner lastProto first last
  · apply Option.eq_none_iff_forall_ne_some.mpr
    rintro ⟨sender, record⟩ valid
    rcases running.traced.origin location sender record valid with loaded | ⟨inscribed, _⟩
    · rw [preloadable.fresh location some] at loaded
      cases loaded
    · rw [running.traced.spent location inscribed] at known
      cases known

theorem processAction_pays (preloadable : Preloadable env db cache)
    (credits : CreditsLoaded lockedPart env db cache) (running : Running env db cache past state)
    (backed : Backed env elsewhere (live db state)) {action : TokenAction}
    (listed : action ∈ cache.tokenActions) :
    OnlyOverflows (processAction env state holders action) := by
  cases action with
  | deploy genesis proto owner =>
      simp only [processAction]
      split <;> exact .ok _
  | mint owner proto txid vout =>
      simp only [processAction]
      split
      · exact .ok _
      split
      · exact .ok _
      split
      · exact .ok _
      split
      · exact .ok _
      exact .bind (.subAmount _ _) fun _ => .bind (.addAmount _ _) fun _ =>
        .bind (Holders.change_onlyOverflows _ _ _ _ _) fun _ => .bind (.addAmount _ _) fun _ => .ok _
  | transfer location owner proto txid vout =>
      simp only [processAction]
      split
      · exact .ok _
      split
      · exact .ok _
      split
      · exact .ok _
      split
      · exact .ok _
      split
      · exact .ok _
      exact .bind (.subAmount _ _) fun _ => .bind (.addAmount _ _) fun _ => .ok _
  | transferred location recipient txid vout =>
      simp only [processAction]
      split
      · exact .ok _
      rename_i sender data valid
      obtain ⟨ticker, accounts⟩ := moved_settled preloadable credits running.traced
        (fun _ _ loaded => loaded) listed valid
      obtain ⟨token, deployed, spelled⟩ := backed.deployed location sender data valid
      rw [← running.tokens.get_eq ticker] at deployed
      obtain ⟨payable, pending⟩ := backed.covers valid
      have account := running.accounts.get_eq (accounts token deployed).1
      rw [spelled] at account
      rw [← account] at payable pending
      rw [deployed]
      dsimp only
      rw [spelled]
      split
      · rename_i absent
        rw [absent] at pending
        exact absurd rfl pending
      rename_i old filed
      rw [filed, Option.getD_some] at payable pending
      split
      · omega
      refine .bind (Holders.change_onlyOverflows _ _ _ _ _) fun _ =>
        .bind (.subAmount _ _) fun _ => ?_
      split
      · exact .ok _
      · exact .bind (Holders.change_onlyOverflows _ _ _ _ _) fun _ =>
          .bind (.addAmount _ _) fun _ => .ok _

theorem processing_backed (preloadable : Preloadable env db cache)
    (fed : Fed env txids begun cache) (amounts : AmountsAgree cache)
    (credits : CreditsLoaded lockedPart env db cache) (fit : CountsFit db cache)
    (backed : Backed env elsewhere
      (live db { cache.loadTokensData env db with tokenActions := [] }))
    {state : Processing} (split : past ++ future = cache.tokenActions)
    (ran : past.foldlM (Processing.step env)
      { cache := { cache.loadTokensData env db with tokenActions := [] }, holders } = .ok state) :
    Running env db cache past state.cache ∧ Backed env elsewhere (live db state.cache) := by
  suffices counted : Running env db cache past state.cache ∧
      Backed env elsewhere (live db state.cache) ∧
      ∀ key, (((live db state.cache).tokenAccounts.get key).getD {}).transfersCount ≤
        ((db.addressTokenToBalance.get key).getD {}).transfersCount + past.length from
    ⟨counted.1, counted.2.1⟩
  refine Machine.run_induction (fun past (state : Processing) =>
    Running env db cache past state.cache ∧ Backed env elsewhere (live db state.cache) ∧
      ∀ key, (((live db state.cache).tokenAccounts.get key).getD {}).transfersCount ≤
        ((db.addressTokenToBalance.get key).getD {}).transfersCount + past.length) ran
    ⟨Running.start preloadable.filed, backed, ?_⟩ ?_
  · intro key
    have stored : (live db (cache.loadTokensData env db)).tokenAccounts =
        db.addressTokenToBalance := Table.extend_restrict _ _
    exact (congrArg (fun accounts => ((accounts.get key).getD {}).transfersCount) stored).le
  rintro earlier action later state next within ⟨running, holds, counts⟩ stepped
  have place : earlier ++ action :: (later ++ future) = cache.tokenActions := by
    rw [← split, ← within, List.append_assoc, List.cons_append]
  obtain ⟨done, turn, rfl⟩ := step_turn stepped
  have inLedger := running.live_turn preloadable credits place turn
  refine ⟨running.step place turn, ?_, ?_⟩
  · refine Backed.turn inLedger holds (running.filed preloadable) ?_ ?_
    · intro key
      have bound := fit.room key
      have length := congrArg List.length place
      have count := counts key
      simp only [List.length_append, List.length_cons] at length
      omega
    · rintro location owner proto txid vout data rfl known
      exact taken_agreed preloadable fed amounts running place known
  · intro key
    have count := counts key
    have grown := inLedger.counted key
    rw [List.length_append, List.length_singleton]
    exact grown.trans (Nat.succ_le_succ count)

theorem processTokenActions_pays (preloadable : Preloadable env db cache)
    (fed : Fed env txids begun cache) (amounts : AmountsAgree cache)
    (credits : CreditsLoaded lockedPart env db cache) (fit : CountsFit db cache)
    (backed : Backed env elsewhere
      (live db { cache.loadTokensData env db with tokenActions := [] })) :
    OnlyOverflows (processTokenActions env (cache.loadTokensData env db) holders) := by
  intro fault failed
  obtain ⟨past, action, future, state, split, ran, stopped⟩ :=
    Machine.run_error (fun past (state : Processing) => past.foldlM (Processing.step env)
      { cache := { cache.loadTokensData env db with tokenActions := [] }, holders } = .ok state)
      failed rfl (by
        intro past action future state next _ ran stepped
        exact Machine.run_append_ok.mpr ⟨state, ran, Machine.run_cons_ok.mpr ⟨next, stepped, rfl⟩⟩)
  change past ++ action :: future = cache.tokenActions at split
  obtain ⟨running, holds⟩ := processing_backed preloadable fed amounts credits fit backed split
    ran
  have listed : action ∈ cache.tokenActions := by simp [← split]
  unfold Processing.step at stopped
  cases processed : processAction env state.cache state.holders action with
  | error reason =>
      rw [processed] at stopped
      cases stopped
      exact processAction_pays preloadable credits running holds listed _ processed
  | ok done =>
      rw [processed] at stopped
      cases stopped

end Processing

end WjkIndexer.TokenCache
