import WjkIndexer.Indexer.Handled
import WjkIndexer.Library.Undo

/-!
Undoing of blocks: the entries taken while a block is written bring the tables of the
ledger back to what they were.
-/

namespace WjkIndexer

open FiniteTable

/-- Two databases whose ledgers are the same: all that an undo brings back. -/
structure SameLedger (left right : DB) : Prop where
  tokenToMeta : left.tokenToMeta = right.tokenToMeta
  addressTokenToBalance : left.addressTokenToBalance = right.addressTokenToBalance
  addressLocationToTransfer : left.addressLocationToTransfer = right.addressLocationToTransfer
  addressTokenToHistory : left.addressTokenToHistory = right.addressTokenToHistory
  tokenIdToEvent : left.tokenIdToEvent = right.tokenIdToEvent
  blockEvents : left.blockEvents = right.blockEvents
  lastHistoryId : left.lastHistoryId.getD 0 = right.lastHistoryId.getD 0
  outpointToPartials : left.outpointToPartials = right.outpointToPartials
  outpointToInscriptionOffsets :
    left.outpointToInscriptionOffsets = right.outpointToInscriptionOffsets
  blockInfo : left.blockInfo = right.blockInfo

namespace SameLedger

variable {left right other : DB}

theorem refl (db : DB) : SameLedger db db where
  tokenToMeta := rfl
  addressTokenToBalance := rfl
  addressLocationToTransfer := rfl
  addressTokenToHistory := rfl
  tokenIdToEvent := rfl
  blockEvents := rfl
  lastHistoryId := rfl
  outpointToPartials := rfl
  outpointToInscriptionOffsets := rfl
  blockInfo := rfl

theorem symm (same : SameLedger left right) : SameLedger right left where
  tokenToMeta := same.tokenToMeta.symm
  addressTokenToBalance := same.addressTokenToBalance.symm
  addressLocationToTransfer := same.addressLocationToTransfer.symm
  addressTokenToHistory := same.addressTokenToHistory.symm
  tokenIdToEvent := same.tokenIdToEvent.symm
  blockEvents := same.blockEvents.symm
  lastHistoryId := same.lastHistoryId.symm
  outpointToPartials := same.outpointToPartials.symm
  outpointToInscriptionOffsets := same.outpointToInscriptionOffsets.symm
  blockInfo := same.blockInfo.symm

theorem trans (first : SameLedger left right) (second : SameLedger right other) :
    SameLedger left other where
  tokenToMeta := first.tokenToMeta.trans second.tokenToMeta
  addressTokenToBalance := first.addressTokenToBalance.trans second.addressTokenToBalance
  addressLocationToTransfer :=
    first.addressLocationToTransfer.trans second.addressLocationToTransfer
  addressTokenToHistory := first.addressTokenToHistory.trans second.addressTokenToHistory
  tokenIdToEvent := first.tokenIdToEvent.trans second.tokenIdToEvent
  blockEvents := first.blockEvents.trans second.blockEvents
  lastHistoryId := first.lastHistoryId.trans second.lastHistoryId
  outpointToPartials := first.outpointToPartials.trans second.outpointToPartials
  outpointToInscriptionOffsets :=
    first.outpointToInscriptionOffsets.trans second.outpointToInscriptionOffsets
  blockInfo := first.blockInfo.trans second.blockInfo

theorem proceedToken (same : SameLedger left right) (entry : TokenHistoryEntry) :
    SameLedger (entry.proceed left) (entry.proceed right) := by
  cases entry with
  | balancesBefore items =>
      exact { same with
        addressTokenToBalance := congrArg (Table.extend · items) same.addressTokenToBalance }
  | balancesToRemove keys =>
      exact { same with
        addressTokenToBalance := congrArg (Table.removeBatch · keys) same.addressTokenToBalance }
  | deploysToRemove keys =>
      exact { same with tokenToMeta := congrArg (Table.removeBatch · keys) same.tokenToMeta }
  | deploysToRestore items =>
      exact { same with tokenToMeta := congrArg (Table.extend · items) same.tokenToMeta }
  | restoreTransfers items =>
      exact { same with
        addressLocationToTransfer :=
          congrArg (Table.extend · items) same.addressLocationToTransfer }
  | removeTransfers keys =>
      exact { same with
        addressLocationToTransfer :=
          congrArg (Table.removeBatch · keys) same.addressLocationToTransfer }
  | removeHistory keys last outpoints height ids =>
      exact { same with
        lastHistoryId := rfl
        blockEvents := congrArg (Table.remove · height) same.blockEvents
        addressTokenToHistory := congrArg (Table.removeBatch · keys) same.addressTokenToHistory
        tokenIdToEvent := congrArg (Table.removeBatch · ids) same.tokenIdToEvent }

theorem proceedOrdinals (same : SameLedger left right) (entry : OrdinalsEntry) :
    SameLedger (entry.proceed left) (entry.proceed right) := by
  cases entry with
  | restoreOffsets items =>
      exact { same with
        outpointToInscriptionOffsets :=
          congrArg (Table.extend · items) same.outpointToInscriptionOffsets }
  | removeOffsets keys =>
      exact { same with
        outpointToInscriptionOffsets :=
          congrArg (Table.removeBatch · keys) same.outpointToInscriptionOffsets }
  | restorePrevouts items => exact { same with }
  | restorePartial items =>
      exact { same with
        outpointToPartials := congrArg (Table.extend · items) same.outpointToPartials }
  | removePartials keys =>
      exact { same with
        outpointToPartials := congrArg (Table.removeBatch · keys) same.outpointToPartials }

theorem undo (same : SameLedger left right) (block : ReorgHistoryBlock) (height : Nat) :
    SameLedger (block.undo height left) (block.undo height right) := by
  have tokens : ∀ (entries : List TokenHistoryEntry) {left right : DB}, SameLedger left right →
      SameLedger (entries.foldr (fun entry db => entry.proceed db) left)
        (entries.foldr (fun entry db => entry.proceed db) right) := by
    intro entries
    induction entries with
    | nil => exact fun same => same
    | cons entry rest ih => exact fun same => (ih same).proceedToken entry
  have ordinals : ∀ (entries : List OrdinalsEntry) {left right : DB}, SameLedger left right →
      SameLedger (entries.foldr (fun entry db => entry.proceed db) left)
        (entries.foldr (fun entry db => entry.proceed db) right) := by
    intro entries
    induction entries with
    | nil => exact fun same => same
    | cons entry rest ih => exact fun same => (ih same).proceedOrdinals entry
  refine ordinals _ (tokens _ ?_)
  exact { same with blockInfo := congrArg (Table.remove · height) same.blockInfo }

end SameLedger

theorem undo_lastBlock (block : ReorgHistoryBlock) (height : Nat) (db : DB) :
    (block.undo height db).lastBlock = some (height - 1) := by
  have tokens : ∀ (entries : List TokenHistoryEntry) (db : DB),
      (entries.foldr (fun entry db => entry.proceed db) db).lastBlock = db.lastBlock := by
    intro entries db
    induction entries with
    | nil => rfl
    | cons entry rest ih => cases entry <;> exact ih
  have ordinals : ∀ (entries : List OrdinalsEntry) (db : DB),
      (entries.foldr (fun entry db => entry.proceed db) db).lastBlock = db.lastBlock := by
    intro entries db
    induction entries with
    | nil => rfl
    | cons entry rest ih => cases entry <;> exact ih
  rw [ReorgHistoryBlock.undo, ordinals, tokens]

/-- All items applied in order. -/
def applyAll (processed : List ProcessedData) (db : DB) : DB :=
  processed.foldl (fun db data => data.apply db) db

def entriesOf : List ProcessedData → DB → ReorgHistoryBlock
  | [], _ => {}
  | data :: rest, db => (data.undoEntries db).append (entriesOf rest (data.apply db))

theorem ReorgHistoryBlock.append_assoc (first second third : ReorgHistoryBlock) :
    (first.append second).append third = first.append (second.append third) := by
  simp [ReorgHistoryBlock.append]

@[simp] theorem ReorgHistoryBlock.append_empty (block : ReorgHistoryBlock) :
    block.append {} = block := by
  simp [ReorgHistoryBlock.append]

@[simp] theorem ReorgHistoryBlock.empty_append (block : ReorgHistoryBlock) :
    ReorgHistoryBlock.append {} block = block := by
  simp [ReorgHistoryBlock.append]

theorem writeAll_false (processed : List ProcessedData) (state : DB × ReorgCache) :
    writeAll false processed state = (applyAll processed state.1, state.2) := by
  induction processed generalizing state with
  | nil => rfl
  | cons data rest ih =>
      rw [writeAll, List.foldl_cons]
      exact ih _

theorem writeAll_db (handleReorgs : Bool) (processed : List ProcessedData)
    (state : DB × ReorgCache) :
    (writeAll handleReorgs processed state).1 = applyAll processed state.1 := by
  induction processed generalizing state with
  | nil => rfl
  | cons data rest ih =>
      rw [writeAll, List.foldl_cons]
      exact ih _

theorem writeAll_true (processed : List ProcessedData) (db : DB) (cache : ReorgCache)
    {height : Nat} {block : ReorgHistoryBlock} {lower : List (Nat × ReorgHistoryBlock)}
    (top : cache.blocks = (height, block) :: lower) :
    writeAll true processed (db, cache) = (applyAll processed db,
      { cache with blocks := (height, block.append (entriesOf processed db)) :: lower }) := by
  induction processed generalizing db cache block with
  | nil =>
      obtain ⟨blocks, len⟩ := cache
      dsimp only at top
      simp [writeAll, applyAll, entriesOf, top]
  | cons data rest ih =>
      rw [writeAll, List.foldl_cons]
      have pushed : (cache.push (data.undoEntries db)).blocks =
          (height, block.append (data.undoEntries db)) :: lower := by
        simp [ReorgCache.push, top]
      refine (ih (data.apply db) (cache.push (data.undoEntries db)) pushed).trans ?_
      rw [entriesOf, ReorgHistoryBlock.append_assoc]
      simp [ReorgCache.push, top, applyAll]

/-- Where the tables of the ledger have entries: at outputs of the chain, at ids that are
taken, and at heights up to the last block. -/
structure Placed (db : DB) (chain : Chain) : Prop where
  transfers : ∀ key ∈ db.addressLocationToTransfer.keys,
    key.location.outpoint.txid ∈ chain.txids
  partials : ∀ outpoint ∈ db.outpointToPartials.keys, outpoint.txid ∈ chain.txids
  offsets : ∀ outpoint ∈ db.outpointToInscriptionOffsets.keys, outpoint.txid ∈ chain.txids
  historyIds : ∀ key ∈ db.addressTokenToHistory.keys, key.id ≤ db.lastHistoryId.getD 0
  tokenIds : ∀ key ∈ db.tokenIdToEvent.keys, key.id ≤ db.lastHistoryId.getD 0
  events : ∀ height ∈ db.blockEvents.keys, ∃ last ∈ chain.head?, height ≤ last.1
  infos : ∀ height ∈ db.blockInfo.keys, ∃ last ∈ chain.head?, height ≤ last.1

theorem Placed.congr {left right : DB} {chain : Chain} (same : SameLedger left right)
    (placed : Placed left chain) : Placed right chain where
  transfers := same.addressLocationToTransfer ▸ placed.transfers
  partials := same.outpointToPartials ▸ placed.partials
  offsets := same.outpointToInscriptionOffsets ▸ placed.offsets
  historyIds := by
    rw [← same.addressTokenToHistory, ← same.lastHistoryId]
    exact placed.historyIds
  tokenIds := by
    rw [← same.tokenIdToEvent, ← same.lastHistoryId]
    exact placed.tokenIds
  events := same.blockEvents ▸ placed.events
  infos := same.blockInfo ▸ placed.infos

theorem Placed.start : Placed {} [] where
  transfers _ impossible := nomatch impossible
  partials _ impossible := nomatch impossible
  offsets _ impossible := nomatch impossible
  historyIds _ impossible := nomatch impossible
  tokenIds _ impossible := nomatch impossible
  events _ impossible := nomatch impossible
  infos _ impossible := nomatch impossible

section Block

variable {env : Env} {server : Server} {height : Nat} {block : Block} {chain : Chain}
  {handled : Handled}

theorem Chain.Follows.lt (follows : chain.Follows height) {below : Nat}
    (bounded : ∃ last ∈ chain.head?, below ≤ last.1) : below < height := by
  obtain ⟨last, head, lower⟩ := bounded
  have next := follows last head
  omega

theorem transfers_fresh {parsed : Parser.Parsed} {done : TokenCache.Processing}
    (parsing : Parser.parseBlock env server.db height block (spentPrevouts env server.db block)
      (loadedCache env server.db block) = .ok parsed)
    (processing : (parsed.cache.loadTokensData env server.db).processTokenActions env
      server.holders = .ok done) {key : AddressLocation}
    (written : key ∈ (transfersToWrite done.cache.validTransfers).keys)
    (unloaded : key ∉ (transfersToWrite (loadedCache env server.db block).validTransfers).keys) :
    key.location.outpoint.txid ∈ block.txids := by
  have fed := (parseBlock_spec parsing).feed.fed rfl
  obtain ⟨proto, valid⟩ := mem_transfersToWrite.mp written
  rcases TokenCache.valid_origin processing valid with loaded | inscribed
  · rw [show (parsed.cache.loadTokensData env server.db).validTransfers =
      (loadedCache env server.db block).validTransfers from fed.validTransfers] at loaded
    exact absurd (mem_transfersToWrite.mpr ⟨proto, loaded⟩) unloaded
  · obtain ⟨⟨owner, record⟩, listed⟩ := List.exists_mem_of_ne_nil _ inscribed
    obtain ⟨txid, vout, inscription⟩ := TokenCache.mem_transfersAt.mp listed
    exact (fed.own _ inscription).1

theorem undo_items {db : DB} {created : Table OutPoint TxPrevout} {spent : Finset OutPoint}
    {addresses : Table FullHash String} {partials newPartials : Table OutPoint Partials}
    {offsets newOffsets : Table OutPoint (Finset Nat)} {lastHistoryId : Nat}
    {entries : List (AddressTokenIdDB × HistoryValue)}
    {metas : Table LowerCaseTokenTick TokenMeta} {balances : Table AddressToken TokenBalance}
    {transfers : Table AddressLocation TransferProtoDB} {removed : Finset AddressLocation}
    {info : BlockInfo} {proof : Hash256} {domain : Finset OutPoint}
    (savedPartials : partials = db.outpointToPartials.restrict domain)
    (freshPartials : ∀ key ∈ newPartials.keys, key ∉ partials.keys →
      db.outpointToPartials.get key = none)
    (savedOffsets : offsets = db.outpointToInscriptionOffsets.restrict domain)
    (freshOffsets : ∀ key ∈ newOffsets.keys, key ∉ offsets.keys →
      db.outpointToInscriptionOffsets.get key = none)
    (freshHistory : ∀ entry ∈ entries, db.addressTokenToHistory.get entry.1 = none)
    (freshIds : ∀ entry ∈ entries, db.tokenIdToEvent.get ⟨entry.1.token, entry.1.id⟩ = none)
    (freshTransfers : ∀ key ∈ transfers.keys, key ∉ removed →
      db.addressLocationToTransfer.get key = none)
    (freshEvents : db.blockEvents.get height = none)
    (freshInfo : db.blockInfo.get height = none)
    {processed : List ProcessedData}
    (items : processed = [.prevouts created spent, .fullHash addresses,
      .inscriptionPartials partials newPartials, .inscriptionOffset offsets newOffsets,
      .history height lastHistoryId entries, .tokens metas balances transfers removed,
      .info height info proof]) :
    SameLedger ((entriesOf processed db).undo height (applyAll processed db)) db := by
  have savedOf : ∀ {V : Type} {table saved : Table OutPoint V},
      saved = table.restrict domain → ∀ key ∈ saved.keys, saved.get key = table.get key := by
    intro V table saved same key member
    obtain ⟨value, found⟩ := Table.mem_keys_iff.mp member
    rw [found]
    rw [same, Table.get_restrict] at found
    split at found
    · exact found.symm
    · cases found
  subst items
  simp only [entriesOf, ProcessedData.undoEntries, ReorgHistoryBlock.append,
    ReorgHistoryBlock.undo, applyAll, ProcessedData.apply, ProcessedData.writes, List.foldl_cons,
    List.foldl_nil, List.foldr_cons, List.foldr_nil, List.nil_append, List.append_nil,
    List.cons_append, TokenHistoryEntry.proceed, OrdinalsEntry.proceed]
  constructor <;> dsimp only
  case tokenToMeta => exact Table.undo_extend_flipped _ _
  case addressTokenToBalance => exact Table.undo_extend _ _
  case addressLocationToTransfer =>
    refine Table.undo_replace ?_ ?_ freshTransfers
    · intro key gone
      rw [Table.get_restrict, if_pos gone]
    · intro key kept
      rw [Table.get_restrict, if_neg kept]
  case addressTokenToHistory =>
    refine Table.undo_extendList ?_
    intro key listed
    obtain ⟨entry, member, rfl⟩ := List.mem_map.mp listed
    exact freshHistory entry member
  case tokenIdToEvent =>
    refine Table.undo_extendList ?_
    intro key listed
    simp only [ProcessedData.tokenIdEvents, List.map_map, List.mem_map] at listed
    obtain ⟨entry, member, rfl⟩ := listed
    exact freshIds entry member
  case blockEvents => exact Table.undo_set _ freshEvents
  case lastHistoryId => rfl
  case outpointToPartials =>
    exact Table.undo_replace (savedOf savedPartials)
      (fun key absent => Table.get_eq_none_iff.mpr absent) freshPartials
  case outpointToInscriptionOffsets =>
    exact Table.undo_replace (savedOf savedOffsets)
      (fun key absent => Table.get_eq_none_iff.mpr absent) freshOffsets
  case blockInfo => exact Table.undo_set _ freshInfo

theorem undo_handled (result : HandledBlock env server height block handled)
    (placed : Placed server.db chain) (follows : chain.Follows height)
    (fresh : ∀ txid ∈ block.txids, txid ∉ chain.txids) :
    SameLedger ((entriesOf handled.processed server.db).undo height
      (applyAll handled.processed server.db)) server.db := by
  have vacantInfo : server.db.blockInfo.get height = none := by
    rw [Table.get_eq_none_iff]
    intro member
    exact absurd (follows.lt (placed.infos height member)) (Nat.lt_irrefl _)
  have vacantEvents : server.db.blockEvents.get height = none := by
    rw [Table.get_eq_none_iff]
    intro member
    exact absurd (follows.lt (placed.events height member)) (Nat.lt_irrefl _)
  cases result with
  | early before =>
      simp only [entriesOf, prevoutsData, ProcessedData.undoEntries, ReorgHistoryBlock.append,
        ReorgHistoryBlock.undo, applyAll, ProcessedData.apply, ProcessedData.writes,
        List.foldl_cons, List.foldl_nil, List.foldr_cons, List.foldr_nil, List.append_nil,
        OrdinalsEntry.proceed]
      refine { SameLedger.refl server.db with blockInfo := ?_ }
      apply Table.ext
      intro key
      rw [Table.get_remove]
      split
      · rename_i same
        rw [same, vacantInfo]
      · rfl
  | empty begun alone =>
      simp only [entriesOf, prevoutsData, ProcessedData.undoEntries, ReorgHistoryBlock.append,
        ReorgHistoryBlock.undo, applyAll, ProcessedData.apply, ProcessedData.writes,
        List.foldl_cons, List.foldl_nil, List.foldr_cons, List.foldr_nil, List.append_nil,
        OrdinalsEntry.proceed]
      exact { SameLedger.refl server.db with blockInfo := Table.undo_set _ vacantInfo }
  | @full begun several parsed done parsing processing =>
      have spec := parseBlock_spec parsing
      refine undo_items spec.partialsToRemove ?_ spec.offsetsToRemove ?_ ?_ ?_ ?_ vacantEvents
        vacantInfo rfl
      · intro key written unsaved
        rw [Table.get_eq_none_iff]
        intro member
        rcases spec.partialsToWrite key written with own | saved
        · exact fresh _ own (placed.partials key member)
        · exact unsaved saved
      · intro key written unsaved
        rw [Table.get_eq_none_iff]
        intro member
        rcases spec.offsetsToWrite key written with own | saved
        · exact fresh _ own (placed.offsets key member)
        · exact unsaved saved
      · intro entry listed
        rw [Table.get_eq_none_iff]
        intro member
        have old := placed.historyIds _ member
        have new := historyEntries_id listed
        omega
      · intro entry listed
        rw [Table.get_eq_none_iff]
        intro member
        have old := placed.tokenIds _ member
        have new := historyEntries_id listed
        dsimp only at old
        omega
      · intro key written unloaded
        rw [Table.get_eq_none_iff]
        intro member
        exact fresh _ (transfers_fresh parsing processing written unloaded)
          (placed.transfers key member)

end Block

end WjkIndexer
