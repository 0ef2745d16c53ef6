import WjkIndexer.Tokens.Live

/-!
The index of holders against the accounts: changed one holding at a time, it stays what
would be built from the accounts anew.
-/

namespace WjkIndexer

open FiniteTable

namespace Holders

theorem mem_entriesOf {accounts : Table AddressToken TokenBalance} {tick : OriginalTokenTick}
    {entry : SortedByBalance} :
    entry ∈ entriesOf accounts tick ↔
      ((accounts.get ⟨entry.address, tick⟩).getD {}).held = entry.balance ∧ entry.balance ≠ 0 := by
  simp only [entriesOf, Finset.mem_image, Finset.mem_filter]
  constructor
  · rintro ⟨key, ⟨_, rfl, nonzero⟩, rfl⟩
    exact ⟨rfl, nonzero⟩
  · rintro ⟨held, nonzero⟩
    refine ⟨⟨entry.address, tick⟩, ⟨?_, rfl, by rw [held]; exact nonzero⟩, by rw [held]⟩
    rw [Table.mem_keys_iff]
    cases stored : accounts.get ⟨entry.address, tick⟩ with
    | none =>
        rw [stored] at held
        exact absurd held.symm nonzero
    | some account => exact ⟨account, rfl⟩

/-- The index is the one that would be built from the accounts, a missing tick being empty. -/
def Matched (holders : Holders) (accounts : Table AddressToken TokenBalance) : Prop :=
  ∀ tick, holders.entries tick = entriesOf accounts tick ∧
    holders.count tick = (holders.entries tick).card

theorem entries_init (accounts : Table AddressToken TokenBalance) (tick : OriginalTokenTick) :
    (init accounts).entries tick = entriesOf accounts tick := by
  rw [entries, init, Table.get_collect]
  split
  · rfl
  · rename_i absent
    by_contra nonempty
    apply absent
    have some : entriesOf accounts tick ≠ ∅ := fun none => nonempty none.symm
    obtain ⟨entry, member⟩ := Finset.nonempty_iff_ne_empty.mpr some
    simp only [entriesOf, Finset.mem_image, Finset.mem_filter] at member
    obtain ⟨key, ⟨stored, rfl, _⟩, _⟩ := member
    exact Finset.mem_filter.mpr ⟨Finset.mem_image_of_mem _ stored, some⟩

theorem count_init (accounts : Table AddressToken TokenBalance) (tick : OriginalTokenTick) :
    (init accounts).count tick = ((init accounts).entries tick).card := by
  rw [count, entries, init, Table.get_collect, Table.get_collect]
  split <;> rfl

theorem init_matched (accounts : Table AddressToken TokenBalance) :
    Matched (init accounts) accounts :=
  fun tick => ⟨entries_init accounts tick, count_init accounts tick⟩

theorem entriesOf_congr {left right : Table AddressToken TokenBalance}
    (same : ∀ key, ((left.get key).getD {}).held = ((right.get key).getD {}).held)
    (tick : OriginalTokenTick) : entriesOf left tick = entriesOf right tick := by
  ext entry
  rw [mem_entriesOf, mem_entriesOf, same]

variable {holders changed : Holders} {accounts : Table AddressToken TokenBalance}
  {key : AddressToken} {account next : TokenBalance} {amt : Nat}

theorem Matched.congr {other : Table AddressToken TokenBalance} (matched : Matched holders accounts)
    (same : ∀ key, ((accounts.get key).getD {}).held = ((other.get key).getD {}).held) :
    Matched holders other := by
  intro tick
  rw [← entriesOf_congr same]
  exact matched tick

theorem entriesOf_set :
    entriesOf (accounts.set key next) key.token =
      if next.held = 0 then
        (entriesOf accounts key.token).erase ⟨((accounts.get key).getD {}).held, key.address⟩
      else insert ⟨next.held, key.address⟩
        ((entriesOf accounts key.token).erase ⟨((accounts.get key).getD {}).held, key.address⟩) := by
  ext ⟨balance, address⟩
  by_cases same : address = key.address
  · subst same
    rw [mem_entriesOf, Table.get_set_self, Option.getD_some]
    split
    · rename_i zero
      simp only [zero, Finset.mem_erase, mem_entriesOf, ne_eq, SortedByBalance.mk.injEq, and_true]
      constructor
      · rintro ⟨rfl, nonzero⟩
        exact absurd rfl nonzero
      · rintro ⟨different, held, _⟩
        exact absurd held.symm different
    · rename_i nonzero
      simp only [Finset.mem_insert, Finset.mem_erase, mem_entriesOf, ne_eq,
        SortedByBalance.mk.injEq, and_true]
      constructor
      · rintro ⟨rfl, _⟩
        exact Or.inl rfl
      · rintro (rfl | ⟨different, held, _⟩)
        · exact ⟨rfl, nonzero⟩
        · exact absurd held.symm different
  · have other : (⟨address, key.token⟩ : AddressToken) ≠ key :=
      fun equal => same (congrArg AddressToken.address equal)
    have apart : ∀ held, (⟨balance, address⟩ : SortedByBalance) ≠ ⟨held, key.address⟩ := by
      intro held equal
      exact same (SortedByBalance.mk.inj equal).2
    rw [mem_entriesOf, Table.get_set_ne _ _ other]
    split
    · rw [Finset.mem_erase, mem_entriesOf]
      exact ⟨fun held => ⟨apart _, held⟩, fun held => held.2⟩
    · rw [Finset.mem_insert, Finset.mem_erase, mem_entriesOf]
      exact ⟨fun held => Or.inr ⟨apart _, held⟩,
        fun held => (held.resolve_left (apart _)).2⟩

theorem entriesOf_set_ne {tick : OriginalTokenTick} (different : tick ≠ key.token) :
    entriesOf (accounts.set key next) tick = entriesOf accounts tick := by
  ext entry
  rw [mem_entriesOf, mem_entriesOf, Table.get_set_ne]
  rintro rfl
  exact different rfl

theorem increase_spec (counted : holders.increase key account amt = .ok changed) :
    (changed.entries key.token = insert ⟨account.held + amt, key.address⟩
        ((holders.entries key.token).erase ⟨account.held, key.address⟩) ∧
      changed.count key.token =
        if ⟨account.held, key.address⟩ ∈ holders.entries key.token then holders.count key.token
        else holders.count key.token + 1) ∧
    ∀ tick, tick ≠ key.token →
      changed.entries tick = holders.entries tick ∧ changed.count tick = holders.count tick := by
  simp only [Holders.increase, change, Machine.bind_ok, addAmount_ok] at counted
  obtain ⟨old, ⟨_, rfl⟩, new, ⟨_, rfl⟩, result⟩ := counted
  rw [show account.balance + account.transferableBalance = account.held from rfl] at result
  by_cases existed : ⟨account.held, key.address⟩ ∈ holders.entries key.token
  · rw [decide_eq_true existed] at result
    cases result
    refine ⟨⟨?_, ?_⟩, ?_⟩
    · simp [entries]
    · rw [if_pos existed]
      rfl
    · intro tick different
      simp [entries, count, Table.get_set_ne _ _ different]
  · rw [decide_eq_false existed] at result
    cases result
    refine ⟨⟨?_, ?_⟩, ?_⟩
    · simp [entries]
    · rw [if_neg existed]
      simp [count]
    · intro tick different
      simp [entries, count, Table.get_set_ne _ _ different]

theorem decrease_spec (shrunk : next.held + amt = account.held)
    (known : holders.count key.token ≠ 0)
    (counted : holders.decrease key account amt = .ok changed) :
    (changed.entries key.token =
        (if next.held = 0 then (holders.entries key.token).erase ⟨account.held, key.address⟩
        else insert ⟨next.held, key.address⟩
          ((holders.entries key.token).erase ⟨account.held, key.address⟩)) ∧
      changed.count key.token =
        if next.held = 0 then holders.count key.token - 1 else holders.count key.token) ∧
    ∀ tick, tick ≠ key.token →
      changed.entries tick = holders.entries tick ∧ changed.count tick = holders.count tick := by
  simp only [Holders.decrease, change, Machine.bind_ok, addAmount_ok, subAmount_ok] at counted
  obtain ⟨old, ⟨_, rfl⟩, rest, ⟨_, rfl⟩, result⟩ := counted
  rw [show account.balance + account.transferableBalance = account.held from rfl] at result
  rw [show account.held - amt = next.held by omega] at result
  split at result
  · rename_i nonzero
    cases result
    rw [if_neg nonzero, if_neg nonzero]
    refine ⟨⟨?_, rfl⟩, ?_⟩
    · simp [entries]
    · intro tick different
      simp [entries, count, Table.get_set_ne _ _ different]
  · rename_i zero
    rw [not_not] at zero
    cases result
    rw [if_pos zero, if_pos zero]
    cases stored : holders.stats.get key.token with
    | none => simp [count, stored] at known
    | some number =>
        rw [count, stored, Option.getD_some] at known
        refine ⟨⟨?_, ?_⟩, ?_⟩
        · simp [entries]
        · simp [count, stored, usizePred, known]
        · intro tick different
          simp [entries, count, Table.get_set_ne _ _ different]

theorem Matched.increase (matched : Matched holders accounts)
    (held : account.held = ((accounts.get key).getD {}).held)
    (grown : next.held = account.held + amt) (positive : amt ≠ 0)
    (counted : holders.increase key account amt = .ok changed) :
    Matched changed (accounts.set key next) := by
  obtain ⟨⟨entriesNow, countNow⟩, elsewhere⟩ := increase_spec counted
  obtain ⟨same, counts⟩ := matched key.token
  intro tick
  by_cases sameTick : tick = key.token
  · subst sameTick
    have nonzero : next.held ≠ 0 := by omega
    have absent : (⟨next.held, key.address⟩ : SortedByBalance) ∉
        (entriesOf accounts key.token).erase ⟨account.held, key.address⟩ := by
      rw [Finset.mem_erase, mem_entriesOf]
      rintro ⟨_, again, _⟩
      change ((accounts.get key).getD {}).held = next.held at again
      omega
    rw [same, ← grown] at entriesNow
    rw [entriesNow, entriesOf_set, if_neg nonzero, ← held]
    refine ⟨rfl, ?_⟩
    rw [Finset.card_insert_of_notMem absent, countNow, counts, same]
    split
    · rename_i existed
      exact (Finset.card_erase_add_one existed).symm
    · rename_i existed
      rw [Finset.erase_eq_of_notMem existed]
  · obtain ⟨sameEntries, sameCount⟩ := elsewhere tick sameTick
    rw [entriesOf_set_ne sameTick, sameEntries, sameCount]
    exact matched tick

theorem Matched.decrease (matched : Matched holders accounts)
    (held : account.held = ((accounts.get key).getD {}).held)
    (shrunk : next.held + amt = account.held) (positive : amt ≠ 0)
    (counted : holders.decrease key account amt = .ok changed) :
    Matched changed (accounts.set key next) := by
  obtain ⟨same, counts⟩ := matched key.token
  have present : (⟨account.held, key.address⟩ : SortedByBalance) ∈
      entriesOf accounts key.token := by
    rw [mem_entriesOf]
    exact ⟨held.symm, by dsimp only; omega⟩
  have remaining := Finset.card_erase_add_one present
  rw [same] at counts
  obtain ⟨⟨entriesNow, countNow⟩, elsewhere⟩ := decrease_spec shrunk (by omega) counted
  intro tick
  by_cases sameTick : tick = key.token
  · subst sameTick
    rw [same] at entriesNow
    rw [entriesNow, countNow, entriesOf_set, ← held]
    refine ⟨rfl, ?_⟩
    split
    · omega
    · have absent : (⟨next.held, key.address⟩ : SortedByBalance) ∉
          (entriesOf accounts key.token).erase ⟨account.held, key.address⟩ := by
        rw [Finset.mem_erase, mem_entriesOf]
        rintro ⟨_, again, _⟩
        change ((accounts.get key).getD {}).held = next.held at again
        omega
      rw [Finset.card_insert_of_notMem absent]
      omega
  · obtain ⟨sameEntries, sameCount⟩ := elsewhere tick sameTick
    rw [entriesOf_set_ne sameTick, sameEntries, sameCount]
    exact matched tick

end Holders

namespace TokenCache

/-- Valid transfers hold an amount. -/
def PositiveTransfers (valid : Table Location (FullHash × TransferProtoDB)) : Prop :=
  ∀ location sender data, valid.get location = some (sender, data) → data.amt ≠ 0

variable {env : Env} {cache : TokenCache} {holders : Holders} {action : TokenAction}
  {done : Processed}

theorem PositiveTransfers.remove {valid : Table Location (FullHash × TransferProtoDB)}
    (positive : PositiveTransfers valid) (place : Location) :
    PositiveTransfers (valid.remove place) := by
  intro location sender data left
  rw [Table.get_remove] at left
  split at left
  · cases left
  · exact positive location sender data left

theorem positive_turn {A : Type} {view : TokenBalance → A}
    (turn : Turn view env cache holders action done)
    (positive : PositiveTransfers cache.validTransfers)
    (taken : ∀ location owner proto txid vout data,
      action = .transfer location owner proto txid vout →
      cache.allTransfers.get location = some data → data.amt ≠ 0) :
    PositiveTransfers done.cache.validTransfers := by
  cases turn with
  | redeployed | deployed | mintSkipped | minted | transferStale | transferSkipped
  | transferredStale =>
      exact positive
  | @transferAccepted place owner proto txid vout data token account known =>
      intro location sender record valid
      rw [Table.get_set] at valid
      split at valid
      · cases valid
        exact taken place owner proto txid vout data rfl known
      · exact positive location sender record valid
  | @burned place => exact positive.remove place
  | @sent place => exact positive.remove place

theorem matched_turn (turn : Turn TokenBalance.held env cache holders action done)
    (matched : holders.Matched cache.tokenAccounts)
    (minting : ∀ owner proto txid vout, action = .mint owner proto txid vout → proto.amt ≠ 0)
    (moving : ∀ location recipient txid vout sender data,
      action = .transferred location recipient txid vout →
      cache.validTransfers.get location = some (sender, data) → data.amt ≠ 0) :
    done.holders.Matched done.cache.tokenAccounts := by
  cases turn with
  | redeployed | deployed | mintSkipped | transferStale | transferSkipped | transferredStale =>
      exact matched
  | @minted owner proto txid vout token amt increased found unfinished clamped counted =>
      have some := minting owner proto txid vout rfl
      exact matched.increase rfl (TokenBalance.held_credit _ _) (by omega) counted
  | @transferAccepted location owner proto txid vout data token account known found filed covered =>
      refine matched.congr ?_
      intro key
      rw [Table.get_set]
      split
      · rename_i same
        rw [same, filed, Option.getD_some, Option.getD_some, TokenBalance.held_lock covered]
      · rfl
  | @burned location recipient txid vout sender data token old decreased valid found filed pending
      covered counted burn =>
      exact matched.decrease (by rw [filed]; rfl) (TokenBalance.held_release covered)
        (moving _ _ _ _ _ _ rfl valid) counted
  | @sent location recipient txid vout sender data token old account decreased increased valid
      found filed pending covered counted kept credited recounted =>
      have some := moving _ _ _ _ _ _ rfl valid
      have paid := matched.decrease (by rw [filed]; rfl) (TokenBalance.held_release covered)
        some counted
      exact paid.increase credited (TokenBalance.held_credit _ _) some recounted

section Processing

variable {db : DB} {txids : Finset Txid} {begun state : TokenCache} {past : List TokenAction}

theorem taken_positive (fed : Fed env txids begun cache) (running : Running env db cache past state)
    {location : Location} {owner : FullHash} {proto : MintProtoWrapper} {txid : Txid} {vout : Nat}
    (listed : .transfer location owner proto txid vout ∈ cache.tokenActions)
    {data : TransferProtoDB} (known : state.allTransfers.get location = some data) :
    data.amt ≠ 0 := by
  have some : transfersAt cache.tokenActions location ≠ [] :=
    List.ne_nil_of_mem (mem_transfersAt.mpr ⟨txid, vout, listed⟩)
  obtain ⟨⟨lastOwner, lastProto⟩, last⟩ := Option.ne_none_iff_exists'.mp
    (mt List.getLast?_eq_none_iff.mp some)
  obtain ⟨height, stands⟩ := fed.last location lastOwner lastProto last
  obtain ⟨lastTxid, lastVout, inscribed⟩ := mem_transfersAt.mp (List.mem_of_getLast? last)
  rw [running.traced.all location data known, Option.some.injEq] at stands
  rw [stands]
  exact (fed.own _ inscribed).2.1

theorem processTokenActions_positive (preloadable : Preloadable env db cache)
    (fed : Fed env txids begun cache) (positive : PositiveTransfers cache.validTransfers)
    {done : Processing}
    (returned : processTokenActions env (cache.loadTokensData env db) holders = .ok done) :
    PositiveTransfers done.cache.validTransfers := by
  refine (Machine.run_induction (fun past (state : Processing) =>
    Running env db cache past state.cache ∧ PositiveTransfers state.cache.validTransfers) returned
    ⟨Running.start preloadable.filed, positive⟩ ?_).2
  rintro past action future state next split ⟨running, holds⟩ stepped
  change past ++ action :: future = cache.tokenActions at split
  have listed : action ∈ cache.tokenActions := by simp [← split]
  obtain ⟨processed, turn, rfl⟩ := step_turn stepped
  refine ⟨running.step split turn, positive_turn turn holds ?_⟩
  rintro location owner proto txid vout data rfl known
  exact taken_positive fed running listed known

theorem processTokenActions_matched (preloadable : Preloadable env db cache)
    (fed : Fed env txids begun cache)
    (credits : CreditsLoaded TokenBalance.held env db cache)
    (matched : holders.Matched db.addressTokenToBalance)
    (positive : PositiveTransfers cache.validTransfers) {done : Processing}
    (returned : processTokenActions env (cache.loadTokensData env db) holders = .ok done) :
    done.holders.Matched (live db done.cache).tokenAccounts := by
  refine (live_induction preloadable credits returned (fun cache holders =>
    holders.Matched cache.tokenAccounts ∧ PositiveTransfers cache.validTransfers) ?_ ?_).1
  · refine ⟨matched.congr ?_, positive⟩
    intro key
    simp only [live, loadTokensData, DB.loadTokenAccounts, Table.extend_restrict]
  · rintro past action future state holders processed split running ⟨matched, positive⟩ turn
    have listed : action ∈ cache.tokenActions := by simp [← split]
    have minting : ∀ owner proto txid vout, action = .mint owner proto txid vout →
        proto.amt ≠ 0 := by
      rintro owner proto txid vout rfl
      exact fed.own _ listed
    have taken : ∀ location owner proto txid vout data,
        action = .transfer location owner proto txid vout →
        (live db state).allTransfers.get location = some data → data.amt ≠ 0 := by
      rintro location owner proto txid vout data rfl known
      exact taken_positive fed running listed known
    have kept := matched_turn turn matched minting
      fun location recipient txid vout sender data _ valid => positive location sender data valid
    have keptPositive := positive_turn turn positive taken
    exact ⟨kept, keptPositive⟩

end Processing

end TokenCache

end WjkIndexer
