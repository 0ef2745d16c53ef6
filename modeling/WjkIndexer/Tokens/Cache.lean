import WjkIndexer.Tokens.Proto
import WjkIndexer.Tokens.Holders

/-!
The token state machine: what a block's inscriptions and moves put into the cache,
what is loaded for them from the database, and how the actions are processed.
-/

namespace WjkIndexer

open FiniteTable

structure TokenCache where
  -- All tokens. Loaded from the database before processing.
  tokens : Table LowerCaseTokenTick TokenMeta := ∅
  -- All token accounts. Loaded from the database before processing.
  tokenAccounts : Table AddressToken TokenBalance := ∅
  -- All token actions that are not validated yet but just parsed.
  tokenActions : List TokenAction := []
  -- All transfer actions.
  allTransfers : Table Location TransferProtoDB := ∅
  -- All transfer actions that are valid. Used to write to the database.
  validTransfers : Table Location (FullHash × TransferProtoDB) := ∅

namespace TokenCache

variable (env : Env)

def load (prevouts : Table OutPoint TxPrevout) (db : DB) : TokenCache :=
  let transfersToRemove : Finset AddressOutPoint := prevouts.keys.biUnion fun outpoint =>
    ((prevouts.get outpoint).map fun prevout => ⟨prevout.scriptHash, outpoint⟩).toFinset
  let loaded := db.loadTransfers transfersToRemove
  -- The keys pair each outpoint with one address, so a location has one entry.
  let validTransfers : Table Location (FullHash × TransferProtoDB) :=
    .collect (loaded.keys.image AddressLocation.location) fun location =>
      (prevouts.get location.outpoint).bind fun prevout =>
        (loaded.get ⟨prevout.scriptHash, location⟩).map fun proto => (prevout.scriptHash, proto)
  { validTransfers
    allTransfers := .collect validTransfers.keys fun location =>
      (validTransfers.get location).map Prod.snd }

def errorOfMessage : String → Brc4ParseErr
  | "Invalid decimal: empty" => .decimalEmpty
  | "Invalid decimal: overflow from too many digits" => .decimalOverflow
  | "value cannot start from + or -" => .decimalPlusMinus
  | "value cannot start or end with ." => .decimalDotStartEnd
  | "value cannot contain spaces" => .decimalSpaces
  | "invalid digit found in string" => .invalidDigit
  | message => .unknown message

def textPlain : Bytes := "text/plain".toUTF8.data.toList

def applicationJson : Bytes := "application/json".toUTF8.data.toList

/-- Dogecoin looks at the start of the content type, the other chains at what stands
before the first semicolon. -/
def acceptsContentType (contentType : Bytes) : Bool :=
  if env.blockchain = .dogecoin then
    textPlain.isPrefixOf contentType || applicationJson.isPrefixOf contentType
  else
    let essence := contentType.takeWhile (· != 0x3b)
    essence == textPlain || essence == applicationJson

def acceptsValues : Brc4 → Bool
  | .mint proto => (proto.value env).any fun wrapper => wrapper.amt != 0
  | .transfer proto => (proto.value env).any fun wrapper => wrapper.amt != 0
  | .deploy proto => (proto.value env).any fun wrapper =>
      decide (wrapper.dec ≤ DeployProto.maxDec) && wrapper.lim.getD wrapper.max != 0 &&
        wrapper.max != 0

def tryParse (contentType content : Bytes) : Except Brc4ParseErr Brc4 :=
  if acceptsContentType env contentType then
    if (String.fromUTF8? ⟨content.toArray⟩).isSome then
      match env.parseJson content with
      | .error none => .error .wrongProtocol
      | .error (some message) => .error (errorOfMessage message)
      | .ok raw =>
          match raw.decode env with
          | .error message => .error (errorOfMessage message)
          | .ok brc4 => if acceptsValues env brc4 then .ok brc4 else .error .wrongProtocol
    else .error .invalidUtf8
  else .error .wrongContentType

def transferProtoDB (wrapper : MintProtoWrapper) (height : Nat) : TransferProtoDB :=
  { tick := wrapper.tick, amt := wrapper.amt, height }

def pushAction (cache : TokenCache) (template : InscriptionTemplate) (height created : Nat) :
    Brc4 → TokenCache
  | .deploy proto =>
      match proto.value env with
      | none => cache
      | some v => { cache with
          tokenActions := cache.tokenActions ++ [.deploy template.genesis
            { tick := v.tick
              max := v.max
              lim := v.lim.getD v.max
              dec := v.dec
              supply := 0
              transferCount := 0
              mintCount := 0
              height
              created
              deployer := template.owner
              transactions := 1 }
            template.owner] }
  | .mint proto =>
      match proto.value env with
      | none => cache
      | some v => { cache with
          tokenActions := cache.tokenActions ++ [.mint template.owner v
            template.location.outpoint.txid template.location.outpoint.vout] }
  | .transfer proto =>
      match proto.value env with
      | none => cache
      | some v => { cache with
          tokenActions := cache.tokenActions ++ [.transfer template.location template.owner v
            template.location.outpoint.txid template.location.outpoint.vout]
          allTransfers := cache.allTransfers.set template.location (transferProtoDB v height) }

def parseTokenAction (cache : TokenCache) (template : InscriptionTemplate)
    (height created : Nat) : TokenCache :=
  if env.isOpReturnHash template.owner || template.leaked then cache
  else
    match template.contentType, template.content with
    | some contentType, some content =>
        match tryParse env contentType content with
        | .ok brc4 => cache.pushAction env template height created brc4
        | .error _ => cache
    | _, _ => cache

def transferred (cache : TokenCache) (transferLocation : Location) (recipient : FullHash)
    (txid : Txid) (vout : Nat) : TokenCache :=
  { cache with
    tokenActions := cache.tokenActions ++ [.transferred transferLocation recipient txid vout] }

def burnedTransfer (cache : TokenCache) (location : Location) (txid : Txid) (vout : Nat) :
    TokenCache :=
  cache.transferred location env.opReturnHash txid vout

def movedProto (cache : TokenCache) (location : Location) : Option TransferProtoDB :=
  (cache.allTransfers.get location).or ((cache.validTransfers.get location).map Prod.snd)

def tickersOf (cache : TokenCache) : TokenAction → Finset LowerCaseTokenTick
  | .deploy _ proto _ => {env.lower proto.tick}
  | .mint _ proto _ _ => {env.lower proto.tick}
  | .transfer _ _ proto _ _ => {env.lower proto.tick}
  | .transferred location _ _ _ =>
      ((cache.movedProto location).map fun proto => env.lower proto.tick).toFinset

def usersOf (cache : TokenCache) : TokenAction → Finset (FullHash × OriginalTokenTick)
  | .deploy _ _ _ => ∅
  | .mint owner proto _ _ => {(owner, proto.tick)}
  | .transfer _ owner proto _ _ => {(owner, proto.tick)}
  | .transferred location recipient _ _ =>
      match cache.movedProto location with
      | none => ∅
      | some proto =>
          (if env.isOpReturnHash recipient then ∅ else {(recipient, proto.tick)}) ∪
            ((cache.validTransfers.get location).map fun transfer =>
              (transfer.1, proto.tick)).toFinset

def fillTickersAndUsers (cache : TokenCache) :
    Finset LowerCaseTokenTick × Finset (FullHash × OriginalTokenTick) :=
  (cache.tokenActions.toFinset.biUnion (cache.tickersOf env),
    cache.tokenActions.toFinset.biUnion (cache.usersOf env))

def loadTokensData (cache : TokenCache) (db : DB) : TokenCache :=
  let (tickers, users) := cache.fillTickersAndUsers env
  let tokens := db.tokenToMeta.restrict tickers
  let keys := users.biUnion fun (address, tick) =>
    ((tokens.get (env.lower tick)).map fun token =>
      (⟨address, token.proto.tick⟩ : AddressToken)).toFinset
  { cache with tokens, tokenAccounts := db.loadTokenAccounts keys }

/-- What one action leaves behind: the cache, the index of holders and the event, if any. -/
structure Processed where
  cache : TokenCache
  holders : Holders
  event : Option HistoryTokenAction := none

/-- One turn of the loop of `process_token_actions`. A skipped action has no event. -/
def processAction (cache : TokenCache) (holders : Holders) : TokenAction → Except Fault Processed
  | .deploy genesis proto owner =>
      match cache.tokens.get (env.lower proto.tick) with
      | some _ => .ok { cache, holders }
      | none => .ok {
          cache := { cache with
            tokens := cache.tokens.set (env.lower proto.tick) { genesis, proto } }
          holders
          event := some (.deploy proto.tick proto.max proto.lim proto.dec owner genesis.txid
            genesis.index) }
  | .mint owner proto txid vout =>
      match cache.tokens.get (env.lower proto.tick) with
      | none => .ok { cache, holders }
      | some token =>
          if token.proto.dec < env.scale proto.amt then .ok { cache, holders }
          else if token.proto.lim < proto.amt then .ok { cache, holders }
          else if token.proto.supply = token.proto.max then .ok { cache, holders }
          else do
            let rest ← subAmount token.proto.max token.proto.supply
            let amt := min proto.amt rest
            let supply ← addAmount token.proto.supply amt
            let key : AddressToken := ⟨owner, token.proto.tick⟩
            let account := (cache.tokenAccounts.get key).getD {}
            let holders ← holders.increase key account amt
            let balance ← addAmount account.balance amt
            .ok {
              cache := { cache with
                tokens := cache.tokens.set (env.lower proto.tick) (token.recordMint supply)
                tokenAccounts := cache.tokenAccounts.set key { account with balance } }
              holders
              event := some (.mint token.proto.tick amt owner txid vout) }
  | .transfer location owner proto txid vout =>
      match cache.allTransfers.get location with
      -- skip cause is it transfer already spent
      | none => .ok { cache, holders }
      | some data =>
          let skipped : Processed :=
            { cache := { cache with allTransfers := cache.allTransfers.remove location }, holders }
          match cache.tokens.get (env.lower proto.tick) with
          | none => .ok skipped
          | some token =>
              if token.proto.dec < env.scale proto.amt then .ok skipped
              else
                let key : AddressToken := ⟨owner, token.proto.tick⟩
                match cache.tokenAccounts.get key with
                | none => .ok skipped
                | some account =>
                    if account.balance < proto.amt then .ok skipped
                    else do
                      let balance ← subAmount account.balance proto.amt
                      let transferableBalance ← addAmount account.transferableBalance proto.amt
                      .ok {
                        cache := { skipped.cache with
                          tokens := cache.tokens.set (env.lower proto.tick) token.recordTransfer
                          tokenAccounts := cache.tokenAccounts.set key {
                            balance
                            transferableBalance
                            transfersCount := countUp 64 account.transfersCount }
                          validTransfers := cache.validTransfers.set location
                            (owner, { data with tick := token.proto.tick }) }
                        holders
                        event := some (.deployTransfer token.proto.tick proto.amt owner txid vout) }
  | .transferred location recipient txid vout =>
      match cache.validTransfers.get location with
      -- skip cause transfer has been already spent
      | none => .ok { cache, holders }
      | some (sender, data) =>
          match cache.tokens.get (env.lower data.tick) with
          | none => .error .tickMustExist
          | some token =>
              let oldKey : AddressToken := ⟨sender, token.proto.tick⟩
              match cache.tokenAccounts.get oldKey with
              | none => .error .senderAccount
              | some old =>
                  if old.transfersCount = 0 ∨ old.transferableBalance < data.amt then
                    .error .invalidSenderBalance
                  else do
                    let holders ← holders.decrease oldKey old data.amt
                    let transferableBalance ← subAmount old.transferableBalance data.amt
                    let accounts := cache.tokenAccounts.set oldKey { old with
                      transferableBalance
                      transfersCount := old.transfersCount - 1 }
                    let spent : TokenCache := { cache with
                      tokens := cache.tokens.set (env.lower data.tick) token.recordSend
                      tokenAccounts := accounts
                      validTransfers := cache.validTransfers.remove location }
                    let event : HistoryTokenAction :=
                      .send token.proto.tick data.amt recipient sender txid vout
                    if env.isOpReturnHash recipient then
                      .ok { cache := spent, holders, event := some event }
                    else
                      let recipientKey : AddressToken := ⟨recipient, token.proto.tick⟩
                      let account := (accounts.get recipientKey).getD {}
                      let holders ← holders.increase recipientKey account data.amt
                      let balance ← addAmount account.balance data.amt
                      .ok {
                        cache := { spent with
                          tokenAccounts := accounts.set recipientKey { account with balance } }
                        holders
                        event := some event }

structure Processing where
  cache : TokenCache
  holders : Holders
  history : List HistoryTokenAction := []

def Processing.step (state : Processing) (action : TokenAction) : Except Fault Processing :=
  (processAction env state.cache state.holders action).map fun done =>
    { cache := done.cache, holders := done.holders, history := state.history ++ done.event.toList }

def processTokenActions (cache : TokenCache) (holders : Holders) : Except Fault Processing :=
  cache.tokenActions.foldlM (Processing.step env)
    { cache := { cache with tokenActions := [] }, holders }

end TokenCache

end WjkIndexer
