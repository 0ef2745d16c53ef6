import WjkIndexer.Indexer.HistoryIds
import WjkIndexer.Indexer.Loop
import WjkIndexer.Library.Channel
import WjkIndexer.Rest.Ticks

/-!
The events that the server tells its clients: those of the history with their addresses as texts,
and the clients' choice among them.
-/

namespace WjkIndexer

open FiniteTable Machine

abbrev HistoryEntry := AddressTokenIdDB × HistoryValue

structure AddressTokenIdEvent where
  address : String
  token : OriginalTokenTickRest
  id : Nat

inductive TokenHistoryEvent where
  | deploy (max lim : Nat) (dec : Nat) (txid : Txid) (vout : Nat)
  | mint (amt : Nat) (txid : Txid) (vout : Nat)
  | deployTransfer (amt : Nat) (txid : Txid) (vout : Nat)
  | send (amt : Nat) (recipient : String) (txid : Txid) (vout : Nat)
  | receive (amt : Nat) (sender : String) (txid : Txid) (vout : Nat)
  | sendReceive (amt : Nat) (txid : Txid) (vout : Nat)

structure HistoryValueEvent where
  height : Nat
  action : TokenHistoryEvent

inductive ServerEvent where
  | newHistory (addressToken : AddressTokenIdEvent) (action : HistoryValueEvent)
  | reorg (blocksCount newHeight : Nat)
  | newBlock (height : Nat) (proof : Hash256) (blockhash : BlockHash)

/-- `TokenHistoryEvent::into_event` -/
def TokenHistoryDB.intoEvent (address : FullHash → String) : TokenHistoryDB → TokenHistoryEvent
  | deploy max lim dec txid vout => .deploy max lim dec txid vout
  | mint amt txid vout => .mint amt txid vout
  | deployTransfer amt txid vout => .deployTransfer amt txid vout
  | send amt recipient txid vout => .send amt (address recipient) txid vout
  | receive amt sender txid vout => .receive amt (address sender) txid vout
  | sendReceive amt txid vout => .sendReceive amt txid vout

/-- `HistoryValueEvent::into_event` -/
def HistoryValue.intoEvent (address : FullHash → String) (value : HistoryValue) :
    HistoryValueEvent :=
  { height := value.height, action := value.action.intoEvent address }

def OriginalTokenTick.rest (tick : OriginalTokenTick) : OriginalTokenTickRest :=
  ⟨tick.bytes, tick.size⟩

def TokenHistoryDB.address : TokenHistoryDB → Option FullHash
  | receive _ sender _ _ => some sender
  | send _ recipient _ _ => some recipient
  | _ => none

/-- The addresses of the entries that are stored, `load_addresses`. -/
def DB.loadAddresses (db : DB) (events : List HistoryEntry) : Table FullHash String :=
  db.fullhashToAddress.restrict
    (events.flatMap fun entry => entry.1.address :: entry.2.action.address.toList).toFinset

def newHistoryEvent (env : Env) (addresses : Table FullHash String) (entry : HistoryEntry) :
    ServerEvent :=
  .newHistory
    { address := env.addressText addresses.get entry.1.address
      token := entry.1.token.rest
      id := entry.1.id }
    (entry.2.intoEvent (env.addressText addresses.get))

structure Choice where
  addresses : Finset String
  tokens : Finset LowerCaseTokenTick

def Choice.accepts (env : Env) (choice : Choice) : ServerEvent → Bool
  | .newHistory addressToken _ =>
      (choice.addresses = ∅ || decide (addressToken.address ∈ choice.addresses)) &&
        (choice.tokens = ∅ || decide (env.lowerRest addressToken.token ∈ choice.tokens))
  | .reorg .. => true
  | .newBlock .. => true

def announcedEvents (env : Env) (db : DB) (height : Nat) (block : Block) (handled : Handled) :
    List ServerEvent :=
  if height < env.startHeight then []
  else [.newBlock height (blockProof env db height block handled.history) block.header.hash]

theorem history_known {env : Env} {server : Server} {height : Nat} {block : Block}
    {handled : Handled} (result : HandledBlock env server height block handled)
    {entry : HistoryEntry} (listed : entry ∈ handled.history) :
    ∃ proof hash, .newBlock entry.2.height proof hash ∈
      announcedEvents env server.db height block handled := by
  cases result with
  | early | empty => cases listed
  | full begun =>
      rw [historyEntries_height listed, announcedEvents, if_neg (Nat.not_lt.mpr begun)]
      exact ⟨_, _, List.mem_singleton_self _⟩

end WjkIndexer
