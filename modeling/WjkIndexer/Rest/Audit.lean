import WjkIndexer.Database.Store
import WjkIndexer.Indexer.Rebuilt
import WjkIndexer.Rest.History

/-!
The balance of an address as a client can compute it: all pages of its history, read backwards.
-/

namespace WjkIndexer

open FiniteTable ByteString TokenCache Paging

/-- What an entry of the history does to the account of its address. -/
def changeOf (env : Env) (account : TokenBalance) (entry : AddressTokenIdDB × HistoryValue) :
    TokenBalance :=
  match entry.2.action with
  | .deploy .. => account
  | .mint amt .. => account.credit amt
  | .deployTransfer amt .. => account.lock amt
  | .send amt .. => account.release amt
  | .receive amt .. => if env.isOpReturnHash entry.1.address then account else account.credit amt
  | .sendReceive amt .. =>
      if env.isOpReturnHash entry.1.address then account.release amt
      else (account.release amt).credit amt

/-- The entries of an address and a tick. -/
def entriesFor (key : AddressToken) (listing : List (AddressTokenIdDB × HistoryValue)) :
    List (AddressTokenIdDB × HistoryValue) :=
  listing.filter fun entry => entry.1.address = key.address ∧ entry.1.token = key.token

namespace LogLedger

variable {env : Env}

def account (ledger : LogLedger) (key : AddressToken) : TokenBalance :=
  (ledger.accounts.get key).getD {}

theorem account_changeAccount (ledger : LogLedger) (changed key : AddressToken)
    (change : TokenBalance → TokenBalance) :
    (ledger.changeAccount changed change).account key =
      if key = changed then change (ledger.account key) else ledger.account key := by
  simp only [account, changeAccount, Table.get_set]
  by_cases same : key = changed
  · simp [same]
  · simp [same]

@[simp] theorem account_countToken (ledger : LogLedger) (tick : OriginalTokenTick)
    (change : Counters → Counters) (key : AddressToken) :
    (ledger.countToken env tick change).account key = ledger.account key := rfl

theorem account_recordEntry (ledger : LogLedger) (entry : AddressTokenIdDB × HistoryValue)
    (key : AddressToken) :
    (recordEntry env ledger entry).account key =
      if entry.1.address = key.address ∧ entry.1.token = key.token then
        changeOf env (ledger.account key) entry
      else ledger.account key := by
  have own : key = ⟨entry.1.address, entry.1.token⟩ ↔
      entry.1.address = key.address ∧ entry.1.token = key.token := by
    cases key
    simp [eq_comm]
  unfold recordEntry changeOf
  cases entry.2.action with
  | deploy => simp only [ite_self]; rfl
  | mint | deployTransfer | send =>
      simp only [account_changeAccount, account_countToken, own]
  | receive =>
      cases burned : env.isOpReturnHash entry.1.address with
      | true => simp only [if_true, ite_self]
      | false => simp only [Bool.false_eq_true, if_false, account_changeAccount, own]
  | sendReceive =>
      cases burned : env.isOpReturnHash entry.1.address with
      | true => simp only [if_true, account_changeAccount, account_countToken, own]
      | false =>
          simp only [Bool.false_eq_true, if_false, account_changeAccount, account_countToken, own]
          split <;> rfl

theorem account_foldl (key : AddressToken) (listing : List (AddressTokenIdDB × HistoryValue))
    (ledger : LogLedger) :
    (listing.foldl (recordEntry env) ledger).account key =
      (entriesFor key listing).foldl (changeOf env) (ledger.account key) := by
  induction listing generalizing ledger with
  | nil => rfl
  | cons entry rest ih =>
      rw [List.foldl_cons, ih, account_recordEntry]
      unfold entriesFor
      rw [List.filter_cons]
      by_cases own : entry.1.address = key.address ∧ entry.1.token = key.token
      · simp [own]
      · simp [own]

end LogLedger

section Pages

variable {iteratorCf : List (Bytes × Bytes) → IteratorMode → List (Bytes × Bytes)}
  {value : Pebble HistoryValue} {store : List (Bytes × Bytes)}
  {table : Table AddressTokenIdDB HistoryValue}

theorem eventsOf_read (walks : WalksInOrder iteratorCf)
    (stored : Stored Pebble.addressTokenIdDB value store table)
    (ranged : ∀ key ∈ table.keys, key.id < 2 ^ 64 - 1)
    (survives : ReadsBack Pebble.addressTokenIdDB value table) (scripthash : FullHash)
    (token : OriginalTokenTick) {limit : Nat} (positive : 0 < limit) :
    Reads (fun offset => addressTokenHistory iteratorCf value store scripthash token offset limit)
      (fun entry => entry.1.id) none (eventsOf value store scripthash token) := by
  have ids : ∀ entry ∈ eventsOf value store scripthash token, entry.1.id < 2 ^ 64 - 1 := by
    intro entry listed
    have present := (mem_eventsOf stored survives scripthash token entry.1 entry.2).mp listed
    exact ranged _ (Table.mem_keys_iff.mpr ⟨_, present.1⟩)
  refine reads_descending positive
    (eventsOf_descending stored ranged survives scripthash token) ?_ ?_
  · rw [addressTokenHistory_eq walks stored ranged survives scripthash token (by simp)]
    rw [Option.getD_none,
      List.filter_eq_self.mpr fun entry listed => decide_eq_true (ids entry listed)]
  · intro last listed
    have small := ids last listed
    rw [addressTokenHistory_eq walks stored ranged survives scripthash token (by
      rw [Option.getD_some]
      omega), Option.getD_some]

theorem eventsOf_reverse (stored : Stored Pebble.addressTokenIdDB value store table)
    (ranged : ∀ key ∈ table.keys, key.id < 2 ^ 64 - 1)
    (survives : ReadsBack Pebble.addressTokenIdDB value table) (key : AddressToken)
    {listing : List (AddressTokenIdDB × HistoryValue)} (lists : Lists table listing) :
    (eventsOf value store key.address key.token).reverse = entriesFor key listing := by
  have descending := eventsOf_descending stored ranged survives key.address key.token
  have distinct : ∀ {entries : List (AddressTokenIdDB × HistoryValue)},
      (entries.Pairwise fun earlier later => earlier.1.id < later.1.id) → entries.Nodup := by
    intro entries ascending
    refine ascending.imp ?_
    rintro earlier later lower rfl
    exact absurd lower (Nat.lt_irrefl _)
  have ascending := List.pairwise_reverse.mpr descending
  have filtered := lists.ascending.filter fun entry =>
    decide (entry.1.address = key.address ∧ entry.1.token = key.token)
  have perm : (eventsOf value store key.address key.token).reverse.Perm (entriesFor key listing) := by
    refine (List.perm_ext_iff_of_nodup (distinct ascending) (distinct filtered)).mpr ?_
    rintro ⟨place, found⟩
    rw [List.mem_reverse, mem_eventsOf stored survives]
    simp only [List.mem_filter, lists.entries, decide_eq_true_eq]
  refine perm.eq_of_pairwise ?_ ascending filtered
  intro earlier later _ _ lower higher
  exact absurd (Nat.lt_trans lower higher) (Nat.lt_irrefl _)

/-- A client that reads all pages of the history of an address and a tick, and adds the events up
from the first one on, has the balance that is stored. -/
theorem balance_audited {env : Env} {process : Process} (walks : WalksInOrder iteratorCf)
    (reached : Reachable env (CreditsSafe env) process)
    (numbered : process.db.lastHistoryId.getD 0 < 2 ^ 64 - 1)
    (stored : Stored Pebble.addressTokenIdDB value store process.db.addressTokenToHistory)
    (survives : ∀ key found, process.db.addressTokenToHistory.get key = some found →
      value.fromBytes (value.getBytes found) = .ok found)
    (scripthash : FullHash) (token : OriginalTokenTick) (limit : Nat) (positive : 0 < limit) :
    ∃ read,
      Reads (fun offset =>
        addressTokenHistory iteratorCf value store scripthash token offset limit)
        (fun entry => entry.1.id) none read ∧
      read.reverse.foldl (changeOf env) {} =
        (process.db.addressTokenToBalance.get ⟨scripthash, token⟩).getD {} := by
  obtain ⟨listing, lists, bounded, told⟩ := (reachable_rebuilds reached).holds.listed
  have ranged : ∀ key ∈ process.db.addressTokenToHistory.keys, key.id < 2 ^ 64 - 1 := by
    intro key member
    obtain ⟨found, present⟩ := Table.mem_keys_iff.mp member
    have low := bounded _ ((lists.entries key found).mpr present)
    dsimp only at low
    omega
  have reads := events_readBack ranged survives
  refine ⟨_, eventsOf_read walks stored ranged reads scripthash token positive, ?_⟩
  rw [eventsOf_reverse stored ranged reads ⟨scripthash, token⟩ lists]
  have same : (LogLedger.rebuild env listing).account ⟨scripthash, token⟩ = _ :=
    LogLedger.account_foldl ⟨scripthash, token⟩ listing .empty
  rw [told] at same
  exact same.symm

end Pages

namespace Sample

def numberAt (bytes : Bytes) (place width : Nat) : Nat := ofBeBytes ((bytes.drop place).take width)

def layout (tag first second other : Nat) (txid : Txid) (vout height : Nat) : Bytes :=
  [UInt8.ofNat tag] ++ beBytes 16 first ++ beBytes 16 second ++ beBytes 32 other ++
    beBytes 32 txid.toNat ++ beBytes 4 vout ++ beBytes 4 height

def entryValue : Pebble HistoryValue where
  getBytes value :=
    match value.action with
    | .deploy max lim dec txid vout => layout 0 max lim dec txid vout value.height
    | .mint amt txid vout => layout 1 amt 0 0 txid vout value.height
    | .deployTransfer amt txid vout => layout 2 amt 0 0 txid vout value.height
    | .send amt recipient txid vout => layout 3 amt 0 recipient.toNat txid vout value.height
    | .receive amt sender txid vout => layout 4 amt 0 sender.toNat txid vout value.height
    | .sendReceive amt txid vout => layout 5 amt 0 0 txid vout value.height
  fromBytes bytes :=
    let first := numberAt bytes 1 16
    let other := numberAt bytes 33 32
    let txid := BitVec.ofNat 256 (numberAt bytes 65 32)
    let vout := numberAt bytes 97 4
    let height := numberAt bytes 101 4
    match numberAt bytes 0 1 with
    | 0 => .ok { height, action := .deploy first (numberAt bytes 17 16) other txid vout }
    | 1 => .ok { height, action := .mint first txid vout }
    | 2 => .ok { height, action := .deployTransfer first txid vout }
    | 3 => .ok { height, action := .send first (BitVec.ofNat 256 other) txid vout }
    | 4 => .ok { height, action := .receive first (BitVec.ofNat 256 other) txid vout }
    | 5 => .ok { height, action := .sendReceive first txid vout }
    | _ => .error .invalid

end Sample

theorem sender_audited : ∃ process store read,
    Reachable Sample.env (CreditsSafe Sample.env) process ∧
    Stored Pebble.addressTokenIdDB Sample.entryValue store process.db.addressTokenToHistory ∧
    (read.reverse.foldl (changeOf Sample.env) {}).balance ≠ 0 ∧
    Reads (fun offset => addressTokenHistory RocksTable.placed Sample.entryValue store
      (Sample.env.sha256 Sample.sender) Sample.wojak offset 1) (fun entry => entry.1.id) none read ∧
    read.reverse.foldl (changeOf Sample.env) {} =
      (process.db.addressTokenToBalance.get
        ⟨Sample.env.sha256 Sample.sender, Sample.wojak⟩).getD {} := by
  obtain ⟨process, reached, numbered, ids, survives, held⟩ : ∃ process,
      Reachable Sample.env (CreditsSafe Sample.env) process ∧
      process.db.lastHistoryId.getD 0 < 2 ^ 64 - 1 ∧
      (∀ key ∈ process.db.addressTokenToHistory.keys, key.id < 2 ^ 64) ∧
      (∀ key ∈ process.db.addressTokenToHistory.keys,
        ∀ found ∈ process.db.addressTokenToHistory.get key,
          Sample.entryValue.fromBytes (Sample.entryValue.getBytes found) = .ok found) ∧
      ((process.db.addressTokenToBalance.get
        ⟨Sample.env.sha256 Sample.sender, Sample.wojak⟩).getD {}).balance ≠ 0 :=
    replay_any (Sample.lockWojak ++ [.block 3 Sample.moveWojak true]) (by decide +kernel)
  have codes : Codes Pebble.addressTokenIdDB Sample.entryValue (fun key => key.id < 2 ^ 64)
      (fun found => Sample.entryValue.fromBytes (Sample.entryValue.getBytes found) = .ok found) := by
    exact ⟨fun key fits => Pebble.addressTokenIdDB_fromBytes fits, fun found read => read⟩
  have reads : ∀ key found, process.db.addressTokenToHistory.get key = some found →
      Sample.entryValue.fromBytes (Sample.entryValue.getBytes found) = .ok found :=
    fun key found present => survives key (Table.mem_keys_iff.mpr ⟨found, present⟩) found present
  obtain ⟨store, kept⟩ := kept_exists codes process.db.addressTokenToHistory
    fun key found present => ⟨ids key (Table.mem_keys_iff.mpr ⟨found, present⟩),
      reads key found present⟩
  obtain ⟨read, pages, balance⟩ := balance_audited RocksTable.placed_walks reached numbered
    kept.toStored reads (Sample.env.sha256 Sample.sender) Sample.wojak 1 Nat.one_pos
  exact ⟨process, store, read, reached, kept.toStored, balance ▸ held, pages, balance⟩

end WjkIndexer
