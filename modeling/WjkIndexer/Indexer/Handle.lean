import WjkIndexer.Inscriptions.Parser
import WjkIndexer.Inscriptions.ProcessData

/-!
Handling of a block: the outputs it spends, the data it leaves to be written, and the
write with its undo entries.
-/

namespace WjkIndexer

open FiniteTable

structure Server where
  db : DB := {}
  holders : Holders := {}

inductive HandleError where
  -- `Missing prevout for key {}. Block: {}`
  | missingPrevout (key : OutPoint) (block : BlockHash)
  | panic (fault : Fault)
  deriving DecidableEq, Repr

def liftFault {α : Type} : Except Fault α → Except HandleError α
  | .ok value => .ok value
  | .error fault => .error (.panic fault)

def createdPrevouts (env : Env) (block : Block) : Table OutPoint TxPrevout :=
  (∅ : Table OutPoint TxPrevout).extendList
    (((block.txs.flatMap Tx.created).filter fun entry =>
        !env.isProvablyUnspendable entry.2.scriptPubkey).map fun entry =>
      (entry.1, ⟨env.computeScriptHash entry.2.scriptPubkey, entry.2.value⟩))

def spentOutpoints (block : Block) : List OutPoint :=
  (block.txs.filter fun tx => !tx.isCoinbase).flatMap fun tx => tx.inputs.map TxInput.outpoint

def prevoutOf (env : Env) (db : DB) (block : Block) (key : OutPoint) : Option TxPrevout :=
  (db.prevouts.get key).or ((createdPrevouts env block).get key)

def processPrevouts (env : Env) (db : DB) (block : Block) :
    Except HandleError (Table OutPoint TxPrevout × ProcessedData) :=
  let keys := (spentOutpoints block).toFinset
  match (spentOutpoints block).find? fun key => (prevoutOf env db block key).isNone with
  | some key => .error (.missingPrevout key block.header.hash)
  | none => .ok (.collect keys (prevoutOf env db block),
      .prevouts (createdPrevouts env block) keys)

def blockAddresses (env : Env) (block : Block) : Table FullHash String :=
  (∅ : Table FullHash String).extendList
    ((block.txs.flatMap Tx.outputs).filterMap fun output =>
      output.address.map fun address => (env.computeScriptHash output.scriptPubkey, address))

/-- The history entries of the events of a block. Each entry takes the next id; a send
between two addresses has an entry for each of them. -/
def historyEntries (height : Nat) :
    Nat → List HistoryTokenAction → List (AddressTokenIdDB × HistoryValue)
  | _, [] => []
  | lastHistoryId, action :: rest =>
      let key : AddressTokenIdDB := ⟨action.recipient, action.tick, lastHistoryId + 1⟩
      match TokenHistoryDB.fromTokenHistory action with
      | .send amt recipient txid vout =>
          let sender := action.sender.getD 0
          (⟨sender, action.tick, lastHistoryId + 2⟩, ⟨height, .send amt recipient txid vout⟩) ::
            (key, ⟨height, .receive amt sender txid vout⟩) ::
            historyEntries height (lastHistoryId + 2) rest
      | dbAction => (key, ⟨height, dbAction⟩) :: historyEntries height (lastHistoryId + 1) rest

def hashBytes (hash : Hash256) : Bytes :=
  (List.range 32).map fun place => UInt8.ofNat (hash.toNat / 256 ^ (31 - place) % 256)

/-- `DEFAULT_HASH`: the digest of the bytes of `null`. -/
def Env.defaultHash (env : Env) : Hash256 := env.sha256 [0x6e, 0x75, 0x6c, 0x6c]

/-- The text of an address, `fullhash_to_address_str`. -/
def Env.addressText (env : Env) (addresses : FullHash → Option String) (hash : FullHash) :
    String :=
  (addresses hash).getD (if env.isOpReturnHash hash then "BURNED" else "non-standard")

def generateHistoryHash (env : Env) (prevHistoryHash : Hash256)
    (history : List (AddressTokenIdDB × HistoryValue)) (addresses : FullHash → Option String) :
    Hash256 :=
  let currentHash :=
    if history = [] then env.defaultHash
    else env.sha256 (history.flatMap fun entry =>
      env.historyJson entry (env.addressText addresses))
  env.sha256 (hashBytes prevHistoryHash ++ hashBytes currentHash)

def transfersToWrite (validTransfers : Table Location (FullHash × TransferProtoDB)) :
    Table AddressLocation TransferProtoDB :=
  .collect
    (validTransfers.keys.biUnion fun location =>
      ((validTransfers.get location).map fun transfer =>
        (⟨transfer.1, location⟩ : AddressLocation)).toFinset)
    fun key => (validTransfers.get key.location).bind fun transfer =>
      if transfer.1 = key.address then some transfer.2 else none

structure Handled where
  processed : List ProcessedData
  holders : Holders
  history : List (AddressTokenIdDB × HistoryValue) := []

def handleBlock (env : Env) (server : Server) (blockHeight : Nat) (block : Block) :
    Except HandleError Handled := do
  let db := server.db
  let lastHistoryId := db.lastHistoryId.getD 0
  let blockInfo : BlockInfo := { hash := block.header.hash, created := block.header.timestamp }
  let prevBlockProof := (db.proofOfHistory.get (blockHeight - 1)).getD env.defaultHash
  let addresses := blockAddresses env block
  let (prevouts, prevoutsData) ← processPrevouts env db block
  let processed := [prevoutsData, .fullHash addresses]
  if blockHeight < env.startHeight then
    .ok { processed, holders := server.holders }
  else if block.txs.length = 1 then
    let newProof := generateHistoryHash env prevBlockProof [] fun _ => none
    .ok {
      processed := processed ++ [.info blockHeight blockInfo newProof]
      holders := server.holders }
  else
    let tokenCache := TokenCache.load prevouts db
    let transfersToRemove := (transfersToWrite tokenCache.validTransfers).keys
    let parsed ← liftFault (Parser.parseBlock env db blockHeight block prevouts tokenCache)
    let done ← liftFault
      ((parsed.cache.loadTokensData env db).processTokenActions env server.holders)
    let history := historyEntries blockHeight lastHistoryId done.history
    let newProof := generateHistoryHash env prevBlockProof history fun hash =>
      (addresses.get hash).or (db.fullhashToAddress.get hash)
    .ok {
      processed := processed ++ [
        .inscriptionPartials parsed.partialsToRemove parsed.partialsToWrite,
        .inscriptionOffset parsed.offsetsToRemove parsed.offsetsToWrite,
        .history blockHeight (lastHistoryId + history.length) history,
        .tokens done.cache.tokens done.cache.tokenAccounts
          (transfersToWrite done.cache.validTransfers) transfersToRemove,
        .info blockHeight blockInfo newProof]
      holders := done.holders
      history }

def writeAll (handleReorgs : Bool) (processed : List ProcessedData) (state : DB × ReorgCache) :
    DB × ReorgCache :=
  processed.foldl (fun state data => data.write handleReorgs state) state

def handle (env : Env) (server : Server) (reorgCache : ReorgCache) (blockHeight : Nat)
    (block : Block) (handleReorgs : Bool) : Except HandleError (Server × ReorgCache) := do
  let handled ← handleBlock env server blockHeight block
  let reorgCache := if handleReorgs then reorgCache.newBlock blockHeight else reorgCache
  let (db, reorgCache) := writeAll handleReorgs handled.processed (server.db, reorgCache)
  .ok ({ db, holders := handled.holders }, reorgCache)

end WjkIndexer
