import WjkIndexer.Indexer.Heights
import WjkIndexer.Indexer.Rebuilt

/-!
The totals of accounts against the history: a block changes every total by what its entries credit
and debit, and a restore takes back what the entries of the undone heights have moved.
-/

namespace WjkIndexer

open FiniteTable TokenCache

namespace HistoryTokenAction

def gained (env : Env) (account : AddressToken) : HistoryTokenAction → Nat
  | .mint tick amt recipient _ _ => if ⟨recipient, tick⟩ = account then amt else 0
  | .send tick amt recipient _ _ _ =>
      if env.isOpReturnHash recipient then 0
      else if ⟨recipient, tick⟩ = account then amt else 0
  | .deploy .. => 0
  | .deployTransfer .. => 0

def lost (account : AddressToken) : HistoryTokenAction → Nat
  | .send tick amt _ sender _ _ => if ⟨sender, tick⟩ = account then amt else 0
  | .deploy .. => 0
  | .mint .. => 0
  | .deployTransfer .. => 0

end HistoryTokenAction

/-- The amount that an entry of the history credits its account with. What is sent to the owner of
burned coins is credited to nobody. -/
def creditedBy (env : Env) (key : AddressTokenIdDB) (value : HistoryValue) : Nat :=
  match value.action with
  | .mint amt .. => amt
  | .receive amt .. => if env.isOpReturnHash key.address then 0 else amt
  | .sendReceive amt .. => if env.isOpReturnHash key.address then 0 else amt
  | .deploy .. => 0
  | .deployTransfer .. => 0
  | .send .. => 0

def debitedBy (_ : AddressTokenIdDB) (value : HistoryValue) : Nat :=
  match value.action with
  | .send amt .. => amt
  | .sendReceive amt .. => amt
  | .deploy .. => 0
  | .mint .. => 0
  | .deployTransfer .. => 0
  | .receive .. => 0

abbrev AddressTokenIdDB.account (key : AddressTokenIdDB) : AddressToken := ⟨key.address, key.token⟩

/-- What the stored entries of a height move of an account. -/
def DB.movedAt (db : DB) (amount : AddressTokenIdDB → HistoryValue → Nat) (account : AddressToken)
    (height : Nat) : Nat :=
  db.addressTokenToHistory.total fun key value =>
    if key.account = account ∧ value.height = height then amount key value else 0

def totalIn (accounts : Table AddressToken TokenBalance) (account : AddressToken) : Nat :=
  ((accounts.get account).getD {}).held

theorem totalIn_set (accounts : Table AddressToken TokenBalance) (key account : AddressToken)
    (value : TokenBalance) :
    totalIn (accounts.set key value) account =
      if account = key then value.held else totalIn accounts account := by
  unfold totalIn
  rw [Table.get_set]
  split <;> rfl

section Events

variable {env : Env} {cache : TokenCache} {holders : Holders}

theorem turn_totals {action : TokenAction} {done : Processed}
    (turn : Turn id env cache holders action done) (account : AddressToken) :
    totalIn done.cache.tokenAccounts account +
        (done.event.toList.map (HistoryTokenAction.lost account)).sum =
      totalIn cache.tokenAccounts account +
        (done.event.toList.map (HistoryTokenAction.gained env account)).sum := by
  cases turn with
  | redeployed | deployed | mintSkipped | transferStale | transferSkipped | transferredStale => rfl
  | @minted owner proto txid vout token amt increased found unfinished clamped counted =>
      simp only [Option.toList_some, List.map_cons, List.map_nil, List.sum_cons, List.sum_nil,
        HistoryTokenAction.lost, HistoryTokenAction.gained, totalIn_set, TokenBalance.held_credit]
      by_cases own : account = ⟨owner, token.proto.tick⟩
      · rw [if_pos own, if_pos own.symm, own]
        rfl
      · rw [if_neg own, if_neg (Ne.symm own)]
  | @transferAccepted location owner proto txid vout data token before known found filed covered =>
      simp only [Option.toList_some, List.map_cons, List.map_nil, List.sum_cons, List.sum_nil,
        HistoryTokenAction.lost, HistoryTokenAction.gained, totalIn_set,
        TokenBalance.held_lock covered]
      split
      · rename_i own
        rw [own, totalIn, filed]
        rfl
      · rfl
  | @burned location recipient txid vout sender data token old decreased valid found filed pending
      covered counted burn =>
      have released := TokenBalance.held_release covered
      simp only [Option.toList_some, List.map_cons, List.map_nil, List.sum_cons, List.sum_nil,
        HistoryTokenAction.lost, HistoryTokenAction.gained, totalIn_set, burn, if_true]
      by_cases own : account = ⟨sender, token.proto.tick⟩
      · have stood : totalIn cache.tokenAccounts account = old.held := by
          rw [own, totalIn, filed, Option.getD_some]
        rw [if_pos own, if_pos own.symm]
        omega
      · rw [if_neg own, if_neg (Ne.symm own)]
  | @sent location recipient txid vout sender data token old before decreased increased valid found
      filed pending covered counted kept credited recounted =>
      have released := TokenBalance.held_release covered
      have received : before.held = totalIn (cache.tokenAccounts.set ⟨sender, token.proto.tick⟩
          (old.release data.amt)) ⟨recipient, token.proto.tick⟩ := congrArg TokenBalance.held credited
      rw [totalIn_set] at received
      have stood : totalIn cache.tokenAccounts ⟨sender, token.proto.tick⟩ = old.held := by
        rw [totalIn, filed, Option.getD_some]
      simp only [Option.toList_some, List.map_cons, List.map_nil, List.sum_cons, List.sum_nil,
        HistoryTokenAction.lost, HistoryTokenAction.gained, totalIn_set, kept, Bool.false_eq_true,
        if_false, TokenBalance.held_credit]
      by_cases receives : account = ⟨recipient, token.proto.tick⟩
      · rw [if_pos receives, if_pos receives.symm, received]
        by_cases sends : account = ⟨sender, token.proto.tick⟩
        · rw [if_pos sends.symm, if_pos (receives.symm.trans sends), sends]
          omega
        · rw [if_neg (Ne.symm sends), if_neg (fun same => sends (receives.trans same)), receives]
          omega
      · rw [if_neg receives, if_neg (Ne.symm receives)]
        by_cases sends : account = ⟨sender, token.proto.tick⟩
        · rw [if_pos sends, if_pos sends.symm, sends]
          omega
        · rw [if_neg sends, if_neg (Ne.symm sends)]

/-- Over the actions of a block every total changes by what the events say. -/
theorem processTokenActions_totals {done : Processing}
    (returned : processTokenActions env cache holders = .ok done) (account : AddressToken) :
    totalIn done.cache.tokenAccounts account +
        (done.history.map (HistoryTokenAction.lost account)).sum =
      totalIn cache.tokenAccounts account +
        (done.history.map (HistoryTokenAction.gained env account)).sum := by
  refine Machine.run_induction (fun _ (state : Processing) =>
    totalIn state.cache.tokenAccounts account +
        (state.history.map (HistoryTokenAction.lost account)).sum =
      totalIn cache.tokenAccounts account +
        (state.history.map (HistoryTokenAction.gained env account)).sum) returned rfl ?_
  intro past action future state next _ balanced stepped
  obtain ⟨processed, turn, rfl⟩ := step_turn stepped
  have changed := turn_totals turn account
  simp only [List.map_append, List.sum_append]
  omega

def movedIn (amount : AddressTokenIdDB → HistoryValue → Nat) (account : AddressToken)
    (entries : List (AddressTokenIdDB × HistoryValue)) : Nat :=
  (entries.map fun entry => if entry.1.account = account then amount entry.1 entry.2 else 0).sum

theorem movedIn_cons (amount : AddressTokenIdDB → HistoryValue → Nat) (account : AddressToken)
    (key : AddressTokenIdDB) (value : HistoryValue)
    (entries : List (AddressTokenIdDB × HistoryValue)) :
    movedIn amount account ((key, value) :: entries) =
      (if key.account = account then amount key value else 0) + movedIn amount account entries :=
  rfl

theorem historyEntries_own (height last : Nat) (tick : OriginalTokenTick) (amt : Nat)
    (owner : FullHash) (txid : Txid) (vout : Nat) (rest : List HistoryTokenAction) :
    historyEntries height last (.send tick amt owner owner txid vout :: rest) =
      (⟨owner, tick, last + 1⟩, ⟨height, .sendReceive amt txid vout⟩) ::
        historyEntries height (last + 1) rest := by
  rw [historyEntries, TokenHistoryDB.fromTokenHistory, if_pos rfl]
  rfl

theorem historyEntries_sent (height last : Nat) (tick : OriginalTokenTick) (amt : Nat)
    {recipient sender : FullHash} (different : sender ≠ recipient) (txid : Txid) (vout : Nat)
    (rest : List HistoryTokenAction) :
    historyEntries height last (.send tick amt recipient sender txid vout :: rest) =
      (⟨sender, tick, last + 2⟩, ⟨height, .send amt recipient txid vout⟩) ::
        (⟨recipient, tick, last + 1⟩, ⟨height, .receive amt sender txid vout⟩) ::
        historyEntries height (last + 2) rest := by
  rw [historyEntries, TokenHistoryDB.fromTokenHistory, if_neg different]
  rfl

theorem movedIn_credited (env : Env) (account : AddressToken) (height last : Nat)
    (events : List HistoryTokenAction) :
    movedIn (creditedBy env) account (historyEntries height last events) =
      (events.map (HistoryTokenAction.gained env account)).sum := by
  induction events generalizing last with
  | nil => rfl
  | cons event rest ih =>
      rw [List.map_cons, List.sum_cons]
      cases event with
      | mint tick amt recipient txid vout =>
          exact congrArg _ (ih (last + 1))
      | deploy | deployTransfer =>
          refine (movedIn_cons ..).trans ?_
          rw [ih]
          exact congrArg (· + _) (ite_self 0)
      | send tick amt recipient sender txid vout =>
          by_cases same : sender = recipient
          · subst same
            rw [historyEntries_own, movedIn_cons, ih]
            simp only [HistoryTokenAction.gained, creditedBy, AddressTokenIdDB.account]
            cases env.isOpReturnHash sender <;> simp
          · rw [historyEntries_sent _ _ _ _ same, movedIn_cons, movedIn_cons, ih]
            simp only [HistoryTokenAction.gained, creditedBy, AddressTokenIdDB.account]
            cases env.isOpReturnHash recipient <;> simp

theorem movedIn_debited (account : AddressToken) (height last : Nat)
    (events : List HistoryTokenAction) :
    movedIn debitedBy account (historyEntries height last events) =
      (events.map (HistoryTokenAction.lost account)).sum := by
  induction events generalizing last with
  | nil => rfl
  | cons event rest ih =>
      rw [List.map_cons, List.sum_cons]
      cases event with
      | mint | deploy | deployTransfer =>
          refine (movedIn_cons ..).trans ?_
          rw [ih]
          exact congrArg (· + _) (ite_self 0)
      | send tick amt recipient sender txid vout =>
          by_cases same : sender = recipient
          · subst same
            rw [historyEntries_own, movedIn_cons, ih]
            rfl
          · rw [historyEntries_sent _ _ _ _ same, movedIn_cons, movedIn_cons, ih]
            simp only [HistoryTokenAction.lost, debitedBy, AddressTokenIdDB.account, ite_self,
              Nat.zero_add]

end Events

section Block

variable {env : Env} {server : Server} {height : Nat} {block : Block} {chain : Chain}
  {handled : Handled}

theorem totals_handled (result : HandledBlock env server height block handled)
    (filed : WellFiled env server.db.tokenToMeta server.db.addressTokenToBalance)
    (placed : Placed server.db chain) (fresh : ∀ txid ∈ block.txids, txid ∉ chain.txids)
    (credits : CreditsKnown env server height block) (account : AddressToken) :
    totalIn (applyAll handled.processed server.db).addressTokenToBalance account +
        ((historyOf env server height block).map (HistoryTokenAction.lost account)).sum =
      totalIn server.db.addressTokenToBalance account +
        ((historyOf env server height block).map (HistoryTokenAction.gained env account)).sum := by
  cases result with
  | early before =>
      rw [historyOf, if_pos (Or.inl before)]
      rfl
  | empty begun alone =>
      rw [historyOf, if_pos (Or.inr alone)]
      rfl
  | @full begun several parsed done parsing processing =>
      have events : historyOf env server height block = done.history := by
        rw [historyOf, if_neg (by omega), parsing]
        dsimp only
        rw [processing]
      have preloadable := preloadable_parsed parsing filed placed fresh
      have loaded := credits parsed (Machine.toOption_some.mpr parsing)
      rcases processTokenActions_agree preloadable loaded server.holders with
        ⟨fault, failed, _⟩ | ⟨part, whole, part_eq, whole_eq, tracks, _, _, history⟩
      · rw [processing] at failed
        cases failed
      · rw [processing] at part_eq
        cases part_eq
        have balanced := processTokenActions_totals whole_eq account
        rw [events, history]
        simp only [applyAll, prevoutsData, tokensData, ProcessedData.apply, ProcessedData.writes,
          List.foldl_cons, List.foldl_nil, tracks.accounts.extend_part]
        exact balanced

theorem moved_handled (result : HandledBlock env server height block handled)
    (known : ByHeight env server.db chain) (follows : chain.Follows height)
    (amount : AddressTokenIdDB → HistoryValue → Nat) (account : AddressToken) (other : Nat) :
    (applyAll handled.processed server.db).movedAt amount account other =
      if other = height then
        movedIn amount account (historyEntries height (server.db.lastHistoryId.getD 0)
          (historyOf env server height block))
      else server.db.movedAt amount account other := by
  have unwritten : server.db.movedAt amount account height = 0 := by
    refine Table.total_eq_zero ?_
    intro key value stored
    obtain ⟨_, applied, listed⟩ := known.applied key value stored
    have below := known.linked.below follows listed
    rw [if_neg]
    rintro ⟨_, same⟩
    dsimp only at below
    omega
  cases history_handled result with
  | kept none history _ _ _ =>
      rw [DB.movedAt, history, ← DB.movedAt, none]
      split
      · rename_i same
        rw [same, unwritten]
        rfl
      · rfl
  | @written entries events history _ _ _ =>
      have distinct : (entries.map Prod.fst).Nodup :=
        List.Nodup.of_map _ ((entries_next events).nodup_iff.mpr List.nodup_range')
      have fresh := entries_fresh known.toGapFree events
      have apart : ∀ entry ∈ entries, server.db.addressTokenToHistory.get entry.1 = none := by
        intro entry listed
        rw [Table.get_eq_none_iff]
        intro stored
        exact fresh entry.1 stored (List.mem_map_of_mem listed)
      rw [DB.movedAt, history, Table.total_extendList _ distinct apart, ← DB.movedAt, ← events]
      split
      · rename_i same
        rw [same, unwritten, Nat.zero_add, movedIn]
        congr 1
        refine List.map_congr_left ?_
        intro entry listed
        have own : entry.2.height = height := historyEntries_height (events ▸ listed)
        simp only [own, and_true]
      · rename_i different
        have none : (entries.map fun entry => if entry.1.account = account ∧
            entry.2.height = other then amount entry.1 entry.2 else 0).sum = 0 := by
          refine List.sum_eq_zero ?_
          intro number listed
          obtain ⟨entry, member, rfl⟩ := List.mem_map.mp listed
          have own : entry.2.height = height := historyEntries_height (events ▸ member)
          rw [if_neg]
          rintro ⟨_, same⟩
          exact different (same.symm.trans own)
        rw [none, Nat.add_zero]

end Block

/-- Undoing the cached blocks one by one changes the totals by what the entries of their heights
have moved, and leaves the entries of the heights below. -/
def Netted (env : Env) : List (Nat × ReorgHistoryBlock) → DB → Prop
  | [], _ => True
  | (height, entries) :: lower, db =>
      (∀ account, totalIn db.addressTokenToBalance account + db.movedAt debitedBy account height =
        totalIn (entries.undo height db).addressTokenToBalance account +
          db.movedAt (creditedBy env) account height) ∧
      (∀ amount account, ∀ other ∈ lower.map Prod.fst,
        (entries.undo height db).movedAt amount account other = db.movedAt amount account other) ∧
      Netted env lower (entries.undo height db)

namespace Netted

variable {env : Env} {blocks : List (Nat × ReorgHistoryBlock)} {db : DB}

theorem congr {left right : DB} (same : SameLedger left right) (netted : Netted env blocks left) :
    Netted env blocks right := by
  induction blocks generalizing left right with
  | nil => trivial
  | cons entry lower ih =>
      obtain ⟨height, entries⟩ := entry
      obtain ⟨changed, kept, deeper⟩ := netted
      have undone := same.undo entries height
      refine ⟨?_, ?_, ih undone deeper⟩
      · intro account
        have balanced := changed account
        simp only [DB.movedAt, same.addressTokenToBalance, same.addressTokenToHistory,
          undone.addressTokenToBalance] at balanced ⊢
        exact balanced
      · intro amount account other listed
        have entries := kept amount account other listed
        simp only [DB.movedAt, same.addressTokenToHistory,
          undone.addressTokenToHistory] at entries ⊢
        exact entries

theorem take (netted : Netted env blocks db) (count : Nat) : Netted env (blocks.take count) db := by
  induction blocks generalizing db count with
  | nil =>
      rw [List.take_nil]
      trivial
  | cons entry lower ih =>
      cases count with
      | zero => trivial
      | succ count =>
          obtain ⟨height, entries⟩ := entry
          obtain ⟨changed, kept, deeper⟩ := netted
          refine ⟨changed, ?_, ih deeper count⟩
          intro amount account other listed
          refine kept amount account other ?_
          rw [List.map_take] at listed
          exact List.mem_of_mem_take listed

theorem restore (netted : Netted env blocks db) (target : Nat) :
    Netted env (ReorgCache.restoreBlocks target blocks db).1
      (ReorgCache.restoreBlocks target blocks db).2 := by
  induction blocks generalizing db with
  | nil => trivial
  | cons entry lower ih =>
      obtain ⟨height, entries⟩ := entry
      rw [ReorgCache.restoreBlocks]
      split
      · exact ih netted.2.2
      · exact netted

end Netted

/-- The heights of the cached blocks that a restore undoes. -/
def ReorgCache.undoneHeights (cache : ReorgCache) (target : Nat) : List Nat :=
  (cache.blocks.map Prod.fst).takeWhile fun height => target < height

/-- A restore changes the totals by what the entries of the undone heights have moved. -/
theorem Netted.restored {env : Env} {cache : ReorgCache} {db : DB}
    (netted : Netted env cache.blocks db) (target : Nat) (account : AddressToken) :
    totalIn db.addressTokenToBalance account +
        ((cache.undoneHeights target).map (db.movedAt debitedBy account)).sum =
      totalIn (cache.restore db target).2.addressTokenToBalance account +
        ((cache.undoneHeights target).map (db.movedAt (creditedBy env) account)).sum := by
  obtain ⟨blocks, len⟩ := cache
  simp only [ReorgCache.restore, ReorgCache.undoneHeights] at netted ⊢
  induction blocks generalizing db with
  | nil => rfl
  | cons entry lower ih =>
      obtain ⟨height, entries⟩ := entry
      rw [ReorgCache.restoreBlocks, List.map_cons]
      split
      · rename_i above
        obtain ⟨changed, kept, deeper⟩ := netted
        have same : ∀ amount,
            ((lower.map Prod.fst).takeWhile fun height => target < height).map
                ((entries.undo height db).movedAt amount account) =
              ((lower.map Prod.fst).takeWhile fun height => target < height).map
                (db.movedAt amount account) := by
          intro amount
          refine List.map_congr_left ?_
          intro other listed
          exact kept amount account other ((List.takeWhile_sublist _).subset listed)
        have rest := ih deeper
        have top := changed account
        rw [same, same] at rest
        rw [List.takeWhile_cons_of_pos (by simpa using above), List.map_cons, List.map_cons,
          List.sum_cons, List.sum_cons]
        dsimp only
        omega
      · rename_i kept
        rw [List.takeWhile_cons_of_neg (by simpa using kept)]
        rfl

theorem reachable_netted {env : Env} {allowed : Process → Event → Prop}
    (loads : ∀ process height new handleReorgs, Reachable env allowed process →
      (Event.block height new handleReorgs).Valid env process →
      allowed process (.block height new handleReorgs) →
      CreditsKnown env process.server height new)
    {process : Process} (reached : Reachable env allowed process) :
    Netted env process.reorgCache.blocks process.db := by
  induction reached with
  | start => trivial
  | @step process next event reached valid permitted stepped ih =>
      cases event with
      | block height new handleReorgs =>
          have sound := reachable_byHeight reached
          have filed := (reachable_filed reached).holds
          obtain ⟨handled, handling, server, _, _, blocks⟩ :=
            step_block stepped (sound.below valid.1)
          have fresh : ∀ txid ∈ new.txids, txid ∉ process.chain.txids :=
            fun txid own => valid.2.txids_disjoint own
          have result := handleBlock_handled handling
          have undone : SameLedger ((entriesOf handled.processed process.db).undo height
              (applyAll handled.processed process.db)) process.db :=
            undo_handled result sound.placed valid.1 fresh
          have moved : ∀ amount account other,
              (applyAll handled.processed process.db).movedAt amount account other =
                if other = height then
                  movedIn amount account (historyEntries height (process.db.lastHistoryId.getD 0)
                    (historyOf env process.server height new))
                else process.db.movedAt amount account other :=
            moved_handled result sound.holds valid.1
          have db : next.db = applyAll handled.processed process.db := by rw [Process.db, server]
          rw [blocks, db]
          split
          · refine ⟨?_, ?_, ?_⟩
            · intro account
              have totals := totals_handled result filed sound.placed fresh
                (loads process height new handleReorgs reached valid permitted) account
              rw [moved, moved, if_pos rfl, if_pos rfl, movedIn_credited, movedIn_debited,
                undone.addressTokenToBalance]
              exact totals
            · intro amount account other listed
              have below : other < height := by
                obtain ⟨entry, member, rfl⟩ := List.mem_map.mp listed
                rw [kept_eq_take sound.len sound.short] at member
                obtain ⟨place, found⟩ := List.mem_iff_getElem?.mp (List.mem_of_mem_take member)
                obtain ⟨block, applied⟩ := sound.restorable.heights found
                exact sound.holds.linked.below valid.1 (List.mem_of_getElem? applied)
              rw [DB.movedAt, undone.addressTokenToHistory, ← DB.movedAt, moved,
                if_neg (Nat.ne_of_lt below)]
            · rw [kept_eq_take sound.len sound.short]
              exact (ih.take _).congr undone.symm
          · trivial
      | restore target =>
          cases stepped
          exact ih.restore target
      | restart =>
          cases stepped
          trivial

end WjkIndexer
