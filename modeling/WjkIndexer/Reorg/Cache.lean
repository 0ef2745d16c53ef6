import WjkIndexer.Database.Tables

/-!
The undo records of the last blocks, and how they are played back.
-/

namespace WjkIndexer

open FiniteTable

def reorgCacheMaxLen : Nat := 30

inductive TokenHistoryEntry where
  | balancesBefore (items : Table AddressToken TokenBalance)
  | balancesToRemove (addressTokens : Finset AddressToken)
  | deploysToRemove (toRemove : Finset LowerCaseTokenTick)
  | deploysToRestore (items : Table LowerCaseTokenTick TokenMeta)
  | restoreTransfers (items : Table AddressLocation TransferProtoDB)
  | removeTransfers (addressLocations : Finset AddressLocation)
  | removeHistory (toRemove : Finset AddressTokenIdDB) (lastHistoryId : Nat)
      (outpointToEvent : Finset OutPoint) (height : Nat) (tokenIdToEvent : Finset TokenId)

def TokenHistoryEntry.proceed (db : DB) : TokenHistoryEntry → DB
  | deploysToRemove toRemove => { db with tokenToMeta := db.tokenToMeta.removeBatch toRemove }
  | deploysToRestore items => { db with tokenToMeta := db.tokenToMeta.extend items }
  | balancesBefore items =>
      { db with addressTokenToBalance := db.addressTokenToBalance.extend items }
  | balancesToRemove addressTokens =>
      { db with addressTokenToBalance := db.addressTokenToBalance.removeBatch addressTokens }
  | restoreTransfers items =>
      { db with addressLocationToTransfer := db.addressLocationToTransfer.extend items }
  | removeTransfers addressLocations =>
      { db with
        addressLocationToTransfer := db.addressLocationToTransfer.removeBatch addressLocations }
  | removeHistory toRemove lastHistoryId outpointToEvent height tokenIdToEvent =>
      { db with
        lastHistoryId := some lastHistoryId
        blockEvents := db.blockEvents.remove height
        addressTokenToHistory := db.addressTokenToHistory.removeBatch toRemove
        outpointToEvent := db.outpointToEvent.removeBatch outpointToEvent
        tokenIdToEvent := db.tokenIdToEvent.removeBatch tokenIdToEvent }

inductive OrdinalsEntry where
  | restoreOffsets (items : Table OutPoint (Finset Nat))
  | removeOffsets (outpoints : Finset OutPoint)
  | restorePrevouts (items : Table OutPoint TxPrevout)
  | restorePartial (items : Table OutPoint Partials)
  | removePartials (outpoints : Finset OutPoint)

def OrdinalsEntry.proceed (db : DB) : OrdinalsEntry → DB
  | restoreOffsets items =>
      { db with outpointToInscriptionOffsets := db.outpointToInscriptionOffsets.extend items }
  | removeOffsets outpoints =>
      { db with
        outpointToInscriptionOffsets := db.outpointToInscriptionOffsets.removeBatch outpoints }
  | restorePrevouts items => { db with prevouts := db.prevouts.extend items }
  | restorePartial items => { db with outpointToPartials := db.outpointToPartials.extend items }
  | removePartials outpoints =>
      { db with outpointToPartials := db.outpointToPartials.removeBatch outpoints }

/-- The entries of a block, in the order in which they were pushed. -/
structure ReorgHistoryBlock where
  tokenHistory : List TokenHistoryEntry := []
  ordinalsHistory : List OrdinalsEntry := []

namespace ReorgHistoryBlock

/-- The entries are played back from the last to the first, those of the tokens before
those of the ordinals. -/
def undo (block : ReorgHistoryBlock) (height : Nat) (db : DB) : DB :=
  let db := { db with lastBlock := some (height - 1), blockInfo := db.blockInfo.remove height }
  let db := block.tokenHistory.foldr (fun entry db => entry.proceed db) db
  block.ordinalsHistory.foldr (fun entry db => entry.proceed db) db

def append (first second : ReorgHistoryBlock) : ReorgHistoryBlock where
  tokenHistory := first.tokenHistory ++ second.tokenHistory
  ordinalsHistory := first.ordinalsHistory ++ second.ordinalsHistory

end ReorgHistoryBlock

/-- The cached blocks with their heights, the highest first. -/
structure ReorgCache where
  blocks : List (Nat × ReorgHistoryBlock) := []
  len : Nat := reorgCacheMaxLen

namespace ReorgCache

def lastHeight (cache : ReorgCache) : Option Nat := cache.blocks.head?.map Prod.fst

def insertBlock (height : Nat) (block : ReorgHistoryBlock) :
    List (Nat × ReorgHistoryBlock) → List (Nat × ReorgHistoryBlock)
  | [] => [(height, block)]
  | entry :: lower =>
      if entry.1 < height then (height, block) :: entry :: lower
      else if entry.1 = height then (height, block) :: lower
      else entry :: insertBlock height block lower

def newBlock (cache : ReorgCache) (blockHeight : Nat) : ReorgCache :=
  let blocks := if cache.blocks.length = cache.len then cache.blocks.dropLast else cache.blocks
  { cache with blocks := insertBlock blockHeight {} blocks }

def push (cache : ReorgCache) (entries : ReorgHistoryBlock) : ReorgCache :=
  match cache.blocks with
  | [] => cache
  | (height, block) :: lower => { cache with blocks := (height, block.append entries) :: lower }

def restoreBlocks (blockHeight : Nat) :
    List (Nat × ReorgHistoryBlock) → DB → List (Nat × ReorgHistoryBlock) × DB
  | [], db => ([], db)
  | (height, block) :: lower, db =>
      if blockHeight < height then restoreBlocks blockHeight lower (block.undo height db)
      else ((height, block) :: lower, db)

def restore (cache : ReorgCache) (db : DB) (blockHeight : Nat) : ReorgCache × DB :=
  let (blocks, db) := restoreBlocks blockHeight cache.blocks db
  ({ cache with blocks }, db)

end ReorgCache

end WjkIndexer
