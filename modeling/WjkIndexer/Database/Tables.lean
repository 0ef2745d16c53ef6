import WjkIndexer.Tokens.Types

/-!
The records and the tables of the database. A table is keyed by the decoded key.
-/

namespace WjkIndexer

open FiniteTable

structure Part where
  isTapscript : Bool
  scriptBuffer : Bytes
  deriving DecidableEq, Repr

structure Partials where
  inscriptionIndex : Nat
  genesisTxid : Txid
  parts : List Part
  deriving DecidableEq, Repr

structure TxPrevout where
  scriptHash : FullHash
  value : Nat
  deriving DecidableEq, Repr

structure BlockInfo where
  hash : BlockHash
  created : Nat
  deriving DecidableEq, Repr

structure AddressTokenIdDB where
  address : FullHash
  token : OriginalTokenTick
  id : Nat
  deriving DecidableEq, Repr

structure TokenId where
  token : OriginalTokenTick
  id : Nat
  deriving DecidableEq, Repr

inductive TokenHistoryDB where
  | deploy (max lim : Nat) (dec : Nat) (txid : Txid) (vout : Nat)
  | mint (amt : Nat) (txid : Txid) (vout : Nat)
  | deployTransfer (amt : Nat) (txid : Txid) (vout : Nat)
  | send (amt : Nat) (recipient : FullHash) (txid : Txid) (vout : Nat)
  | receive (amt : Nat) (sender : FullHash) (txid : Txid) (vout : Nat)
  | sendReceive (amt : Nat) (txid : Txid) (vout : Nat)
  deriving DecidableEq, Repr

namespace TokenHistoryDB

def fromTokenHistory : HistoryTokenAction → TokenHistoryDB
  | .deploy _ max lim dec _ txid vout => deploy max lim dec txid vout
  | .mint _ amt _ txid vout => mint amt txid vout
  | .deployTransfer _ amt _ txid vout => deployTransfer amt txid vout
  | .send _ amt recipient sender txid vout =>
      if sender = recipient then sendReceive amt txid vout else send amt recipient txid vout

def outpoint : TokenHistoryDB → OutPoint
  | deploy _ _ _ txid vout => ⟨txid, vout⟩
  | mint _ txid vout => ⟨txid, vout⟩
  | deployTransfer _ txid vout => ⟨txid, vout⟩
  | send _ _ txid vout => ⟨txid, vout⟩
  | receive _ _ txid vout => ⟨txid, vout⟩
  | sendReceive _ txid vout => ⟨txid, vout⟩

end TokenHistoryDB

structure HistoryValue where
  height : Nat
  action : TokenHistoryDB
  deriving DecidableEq, Repr

structure DB where
  tokenToMeta : Table LowerCaseTokenTick TokenMeta := ∅
  addressLocationToTransfer : Table AddressLocation TransferProtoDB := ∅
  addressTokenToBalance : Table AddressToken TokenBalance := ∅
  addressTokenToHistory : Table AddressTokenIdDB HistoryValue := ∅
  blockInfo : Table Nat BlockInfo := ∅
  prevouts : Table OutPoint TxPrevout := ∅
  outpointToPartials : Table OutPoint Partials := ∅
  outpointToInscriptionOffsets : Table OutPoint (Finset Nat) := ∅
  lastBlock : Option Nat := none
  lastHistoryId : Option Nat := none
  proofOfHistory : Table Nat Hash256 := ∅
  blockEvents : Table Nat (List AddressTokenIdDB) := ∅
  fullhashToAddress : Table FullHash String := ∅
  outpointToEvent : Table OutPoint AddressTokenIdDB := ∅
  tokenIdToEvent : Table TokenId AddressTokenIdDB := ∅

namespace DB

def loadTokenAccounts (db : DB) (keys : Finset AddressToken) : Table AddressToken TokenBalance :=
  db.addressTokenToBalance.restrict keys

/-- The stored transfers whose address and outpoint are in `keys`. -/
def loadTransfers (db : DB) (keys : Finset AddressOutPoint) :
    Table AddressLocation TransferProtoDB :=
  db.addressLocationToTransfer.restrict (db.addressLocationToTransfer.keys.filter fun key =>
    ⟨key.address, key.location.outpoint⟩ ∈ keys)

theorem get_loadTransfers (db : DB) (keys : Finset AddressOutPoint) (key : AddressLocation) :
    (db.loadTransfers keys).get key =
      if ⟨key.address, key.location.outpoint⟩ ∈ keys then db.addressLocationToTransfer.get key
      else none := by
  simp only [loadTransfers, Table.get_restrict, Finset.mem_filter]
  cases stored : db.addressLocationToTransfer.get key with
  | none => simp
  | some proto =>
      have member := Table.mem_keys_iff.mpr ⟨proto, stored⟩
      simp [member]

end DB

end WjkIndexer
