import WjkIndexer.Inscriptions.Envelope
import WjkIndexer.Inscriptions.Searcher
import WjkIndexer.Tokens.Cache

/-!
Parsing of a block: inscriptions are followed from the inputs of its transactions to
their outputs, new ones are created, and both are fed to the token cache.
-/

namespace WjkIndexer

open FiniteTable

structure ParseState where
  offsets : Table OutPoint (Finset Nat)
  partials : Table OutPoint Partials
  leaked : Option LeakedInscriptions := none
  cache : TokenCache
  indexInTx : Nat := 0

structure TxContext where
  prevouts : Table OutPoint TxPrevout
  tx : Tx
  inputsCum : List Nat
  height : Nat
  created : Nat

def Tx.scriptAt (tx : Tx) (vout : Nat) : Bytes :=
  ((tx.outputs[vout]?).map EvaluatedTxOut.scriptPubkey).getD []

def Tx.valueAt (tx : Tx) (vout : Nat) : Nat :=
  ((tx.outputs[vout]?).map EvaluatedTxOut.value).getD 0

/-- The owner of a spent output, which `add_tx_fee` has looked up before any other use. -/
def ownerOf (prevouts : Table OutPoint TxPrevout) (outpoint : OutPoint) : FullHash :=
  ((prevouts.get outpoint).map TxPrevout.scriptHash).getD 0

def insertOffset (offsets : Table OutPoint (Finset Nat)) (location : Location) :
    Table OutPoint (Finset Nat) :=
  offsets.set location.outpoint
    (insert location.offset ((offsets.get location.outpoint).getD ∅))

namespace Parser

variable (env : Env) (context : TxContext)

def moveInscription (inputIndex : Nat) (txin : TxInput) (state : ParseState)
    (inscriptionOffset : Nat) : ParseState :=
  let oldLocation : Location := ⟨txin.outpoint, inscriptionOffset⟩
  let isTokenTransferMove := (state.cache.allTransfers.get oldLocation).isSome
  let offset := (context.inputsCum[inputIndex]?).map (u64Add · inscriptionOffset)
  match InscriptionSearcher.getOutputIndexByInput offset context.tx.outputs with
  | some (newVout, newOffset) =>
      { state with
        offsets := insertOffset state.offsets ⟨⟨context.tx.hash, newVout⟩, newOffset⟩
        cache :=
          if isTokenTransferMove then
            let script := context.tx.scriptAt newVout
            if env.isOpReturn script then
              state.cache.burnedTransfer env oldLocation context.tx.hash newVout
            else
              state.cache.transferred oldLocation (env.computeScriptHash script) context.tx.hash
                newVout
          else state.cache }
  | none =>
      -- because of token protocol leaked token amount comes back to its owner
      { state with
        cache :=
          if isTokenTransferMove then
            state.cache.transferred oldLocation (ownerOf context.prevouts txin.outpoint)
              context.tx.hash 0
          else state.cache
        leaked := state.leaked.map fun leaked =>
          leaked.add inputIndex context.tx inscriptionOffset context.prevouts .move }

def moveInscriptions (inputIndex : Nat) (txin : TxInput) (state : ParseState) : ParseState :=
  match state.offsets.get txin.outpoint with
  | none => state
  | some inscriptionOffsets =>
      (env.iterate txin.outpoint inscriptionOffsets).foldl
        (moveInscription env context inputIndex txin)
        { state with offsets := state.offsets.remove txin.outpoint }

/-- The template of an inscription, or `none` when it leaks into the fee. -/
def convertToTemplate (inputIndex : Nat) (genesisTxid : Txid) (inscription : Inscription) :
    Option InscriptionTemplate :=
  let outputs := context.tx.outputs
  match InscriptionSearcher.getOutputIndexByInput (context.inputsCum[inputIndex]?) outputs with
  | none => none
  | some start =>
      let (vout, offset) :=
        (InscriptionSearcher.getOutputIndexByInput inscription.pointerValue outputs).getD start
      let script := context.tx.scriptAt vout
      some {
        genesis := ⟨genesisTxid, 0⟩
        location := ⟨⟨context.tx.hash, vout⟩, offset⟩
        contentType := inscription.contentTypeText
        owner := if env.isOpReturn script then env.opReturnHash else env.computeScriptHash script
        value := context.tx.valueAt vout
        content := inscription.body
        leaked := false }

def leakCreation (inputIndex : Nat) (leaked : Option LeakedInscriptions) :
    Option InscriptionTemplate → Option LeakedInscriptions
  | some _ => leaked
  | none => leaked.map fun leaked =>
      leaked.add inputIndex context.tx 0 context.prevouts .creation

def numberTemplates : Nat → List InscriptionTemplate → List InscriptionTemplate
  | _, [] => []
  | index, template :: rest =>
      { template with genesis := { template.genesis with index } } ::
        numberTemplates (index + 1) rest

def createInscription (state : ParseState) (template : InscriptionTemplate) : ParseState :=
  let isJubileeHeight := decide (env.jubileeHeight ≤ context.height)
  let occupied := decide (template.location.offset ∈
    (state.offsets.get template.location.outpoint).getD ∅)
  -- this is only for BELLS
  let offsetOccupied := if env.jubileeHeight = 133000 then false else occupied
  { state with
    offsets := insertOffset state.offsets template.location
    cache :=
      if !template.leaked && offsetOccupied && !isJubileeHeight then state.cache
      else state.cache.parseTokenAction env template context.height context.created }

def createInscriptions (genesisTxid : Txid) (templates : List InscriptionTemplate)
    (state : ParseState) : ParseState :=
  if genesisTxid = context.tx.hash then
    (numberTemplates state.indexInTx templates).foldl (createInscription env context)
      { state with indexInTx := state.indexInTx + templates.length }
  else templates.foldl (createInscription env context) state

def partOf (txin : TxInput) : Part :=
  match env.tapscript txin.witness with
  | some tapscript => { isTapscript := true, scriptBuffer := tapscript }
  | none => { isTapscript := false, scriptBuffer := txin.scriptSig }

def parseCreation (inputIndex : Nat) (txin : TxInput) (state : ParseState) : ParseState :=
  let stored := (state.partials.get txin.outpoint).getD {
    genesisTxid := context.tx.hash
    inscriptionIndex := 0
    parts := [] }
  let partials := { stored with parts := stored.parts ++ [partOf env txin] }
  let state := { state with partials := state.partials.remove txin.outpoint }
  let convert := convertToTemplate env context inputIndex partials.genesisTxid
  match Inscription.fromParts env partials.parts inputIndex with
  | .none => state
  | .partialInscription =>
      let (partials, indexInTx) :=
        if partials.genesisTxid = context.tx.hash then
          ({ partials with inscriptionIndex := state.indexInTx }, state.indexInTx + 1)
        else (partials, state.indexInTx)
      { state with
        indexInTx
        partials :=
          if (context.tx.outputs[inputIndex]?).isSome then
            state.partials.set ⟨context.tx.hash, inputIndex⟩ partials
          else state.partials }
  | .single inscription =>
      let template := convert inscription
      createInscriptions env context partials.genesisTxid template.toList
        { state with leaked := leakCreation context inputIndex state.leaked template }
  | .many inscriptions =>
      let templates := inscriptions.map convert
      createInscriptions env context partials.genesisTxid (templates.filterMap id)
        { state with leaked := templates.foldl (leakCreation context inputIndex) state.leaked }

def parseInput (state : ParseState) (input : TxInput × Nat) : ParseState :=
  let (txin, inputIndex) := input
  let moved := moveInscriptions env context inputIndex txin state
  if env.jubileeHeight ≤ context.height ∨ inputIndex = 0 then
    parseCreation env context inputIndex txin moved
  else moved

def parseTx (prevouts : Table OutPoint TxPrevout) (height created : Nat) (state : ParseState)
    (tx : Tx) : Except Fault ParseState :=
  if tx.isCoinbase then .ok { state with leaked := some { coinbaseTx := tx } }
  else
    match state.leaked with
    | none => .error .coinbaseMissing
    | some leaked => do
        let leaked ← leaked.addTxFee tx prevouts
        let inputsCum := InscriptionSearcher.calcOffsets tx prevouts
        .ok (tx.inputs.zipIdx.foldl
          (parseInput env { prevouts, tx, inputsCum, height, created })
          { state with leaked := some leaked, indexInTx := 0 })

/-- The cache after a block, and what the block removes from and writes to the tables of
partial inscriptions and of offsets. -/
structure Parsed where
  cache : TokenCache
  partialsToRemove : Table OutPoint Partials
  partialsToWrite : Table OutPoint Partials
  offsetsToRemove : Table OutPoint (Finset Nat)
  offsetsToWrite : Table OutPoint (Finset Nat)

def parseBlock (db : DB) (height : Nat) (block : Block) (prevouts : Table OutPoint TxPrevout)
    (cache : TokenCache) : Except Fault Parsed := do
  let partialsToRemove := db.outpointToPartials.restrict prevouts.keys
  let prevOffsets := db.outpointToInscriptionOffsets.restrict prevouts.keys
  let state ← block.txs.foldlM (parseTx env prevouts height block.header.timestamp)
    { offsets := prevOffsets, partials := partialsToRemove, cache }
  match state.leaked with
  | none => .error .coinbaseMissing
  | some leaked =>
      let locations := leaked.getLeakedInscriptions
      let outpoints := state.offsets.keys ∪ locations.image Location.outpoint
      .ok {
        cache := state.cache
        partialsToRemove
        partialsToWrite := state.partials
        offsetsToRemove := prevOffsets
        offsetsToWrite := .collect outpoints fun outpoint =>
          some ((state.offsets.get outpoint).getD ∅ ∪
            (locations.filter fun location => location.outpoint = outpoint).image
              Location.offset) }

end Parser

end WjkIndexer
