import WjkIndexer.Reorg.Cache

/-!
The data a block leaves to be written: the single writes it is made of, and the undo
entries that are taken from the database before them.
-/

namespace WjkIndexer

open FiniteTable

inductive ProcessedData where
  | info (blockNumber : Nat) (blockInfo : BlockInfo) (blockProof : Hash256)
  | prevouts (toWrite : Table OutPoint TxPrevout) (toRemove : Finset OutPoint)
  | fullHash (addresses : Table FullHash String)
  | history (blockNumber lastHistoryId : Nat) (entries : List (AddressTokenIdDB × HistoryValue))
  | tokens (metas : Table LowerCaseTokenTick TokenMeta)
      (balances : Table AddressToken TokenBalance)
      (transfersToWrite : Table AddressLocation TransferProtoDB)
      (transfersToRemove : Finset AddressLocation)
  | inscriptionPartials (toRemove toWrite : Table OutPoint Partials)
  | inscriptionOffset (toRemove toWrite : Table OutPoint (Finset Nat))

namespace ProcessedData

def sortedById (keys : List AddressTokenIdDB) : List AddressTokenIdDB :=
  keys.insertionSort fun first second => first.id ≤ second.id

def outpointEvents (history : List (AddressTokenIdDB × HistoryValue)) :
    List (OutPoint × AddressTokenIdDB) :=
  history.map fun entry => (entry.2.action.outpoint, entry.1)

def tokenIdEvents (history : List (AddressTokenIdDB × HistoryValue)) :
    List (TokenId × AddressTokenIdDB) :=
  history.map fun entry => (⟨entry.1.token, entry.1.id⟩, entry.1)

/-- The single writes, in order. Each is one batch or one value of the store. -/
def writes : ProcessedData → List (DB → DB)
  | info blockNumber blockInfo blockProof => [
      fun db => { db with lastBlock := some blockNumber },
      fun db => { db with blockInfo := db.blockInfo.set blockNumber blockInfo },
      fun db => { db with proofOfHistory := db.proofOfHistory.set blockNumber blockProof }]
  | prevouts toWrite toRemove => [
      fun db => { db with prevouts := db.prevouts.extend toWrite },
      fun db => { db with prevouts := db.prevouts.removeBatch toRemove }]
  | fullHash addresses => [
      fun db => { db with fullhashToAddress := db.fullhashToAddress.extend addresses }]
  | history blockNumber lastHistoryId entries => [
      fun db => { db with tokenIdToEvent := db.tokenIdToEvent.extendList (tokenIdEvents entries) },
      fun db => { db with
        blockEvents := db.blockEvents.set blockNumber (sortedById (entries.map Prod.fst)) },
      fun db => { db with lastHistoryId := some lastHistoryId },
      fun db => { db with
        outpointToEvent := db.outpointToEvent.extendList (outpointEvents entries) },
      fun db => { db with
        addressTokenToHistory := db.addressTokenToHistory.extendList entries }]
  | tokens metas balances transfersToWrite transfersToRemove => [
      fun db => { db with tokenToMeta := db.tokenToMeta.extend metas },
      fun db => { db with addressTokenToBalance := db.addressTokenToBalance.extend balances },
      fun db => { db with
        addressLocationToTransfer :=
          db.addressLocationToTransfer.removeBatch transfersToRemove },
      fun db => { db with
        addressLocationToTransfer := db.addressLocationToTransfer.extend transfersToWrite }]
  | inscriptionPartials toRemove toWrite => [
      fun db => { db with outpointToPartials := db.outpointToPartials.removeBatch toRemove.keys },
      fun db => { db with outpointToPartials := db.outpointToPartials.extend toWrite }]
  | inscriptionOffset toRemove toWrite => [
      fun db => { db with
        outpointToInscriptionOffsets :=
          db.outpointToInscriptionOffsets.removeBatch toRemove.keys },
      fun db => { db with
        outpointToInscriptionOffsets := db.outpointToInscriptionOffsets.extend toWrite }]

/-- The undo entries, computed from the database before the writes. -/
def undoEntries (db : DB) : ProcessedData → ReorgHistoryBlock
  | info .. => {}
  | fullHash _ => {}
  | prevouts toWrite toRemove => {
      ordinalsHistory := [
        .restorePrevouts (.collect toRemove fun key =>
          (db.prevouts.get key).or (toWrite.get key))] }
  | history blockNumber _ entries => {
      tokenHistory := [
        .removeHistory (entries.map Prod.fst).toFinset (db.lastHistoryId.getD 0)
          ((outpointEvents entries).map Prod.fst).toFinset blockNumber
          ((tokenIdEvents entries).map Prod.fst).toFinset] }
  | tokens metas balances transfersToWrite transfersToRemove =>
      let deploys := db.tokenToMeta.restrict metas.keys
      let balancesBefore := db.addressTokenToBalance.restrict balances.keys
      { tokenHistory := [
          .deploysToRemove (metas.keys \ deploys.keys),
          .deploysToRestore deploys,
          .balancesBefore balancesBefore,
          .balancesToRemove (balances.keys \ balancesBefore.keys),
          .restoreTransfers (db.addressLocationToTransfer.restrict transfersToRemove),
          .removeTransfers transfersToWrite.keys] }
  | inscriptionPartials toRemove toWrite => {
      ordinalsHistory := [.restorePartial toRemove, .removePartials toWrite.keys] }
  | inscriptionOffset toRemove toWrite => {
      ordinalsHistory := [.restoreOffsets toRemove, .removeOffsets toWrite.keys] }

/-- The writes of one item applied to a database. -/
def apply (data : ProcessedData) (db : DB) : DB :=
  data.writes.foldl (fun db write => write db) db

def write (data : ProcessedData) (handleReorgs : Bool) (state : DB × ReorgCache) :
    DB × ReorgCache :=
  (data.apply state.1,
    if handleReorgs then state.2.push (data.undoEntries state.1) else state.2)

end ProcessedData

end WjkIndexer
