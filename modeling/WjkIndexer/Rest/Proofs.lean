import WjkIndexer.Indexer.Journal
import WjkIndexer.Indexer.Rebuilt
import WjkIndexer.Indexer.Unspent
import WjkIndexer.Inscriptions.Owners
import WjkIndexer.Rest.Entries
import WjkIndexer.Rest.Status

/-!
The proofs of history as a client can check them: the proof of a block is computed again from the
entries that the endpoints show.
-/

namespace WjkIndexer

open FiniteTable TokenCache

def TokenHistoryDB.isSend : TokenHistoryDB → Bool
  | .send .. => true
  | _ => false

def TokenHistoryEvent.isSend : TokenHistoryEvent → Bool
  | .send .. => true
  | _ => false

def HistoryEntry.isSend (entry : HistoryEntry) : Bool := entry.2.action.isSend

def Rest.History.isSend (entry : Rest.History) : Bool := entry.action.isSend

/-- The order in which the entries of a block are hashed: a send comes before its receipt, whose id
is the one before. -/
def hashOrder {α : Type} (isSend : α → Bool) : List α → List α
  | receipt :: sent :: rest =>
      if isSend sent then sent :: receipt :: hashOrder isSend rest
      else receipt :: hashOrder isSend (sent :: rest)
  | entries => entries

section Order

variable {α β : Type} {isSend : α → Bool}

theorem hashOrder_cons (entry : α) {rest : List α}
    (alone : ∀ next ∈ rest.head?, isSend next = false) :
    hashOrder isSend (entry :: rest) = entry :: hashOrder isSend rest := by
  cases rest with
  | nil => rfl
  | cons next later => simp [hashOrder, alone next rfl]

theorem hashOrder_perm (isSend : α → Bool) (entries : List α) :
    (hashOrder isSend entries).Perm entries := by
  fun_induction hashOrder isSend entries with
  | case1 receipt sent rest sends ih => exact (List.Perm.swap _ _ _).trans ((ih.cons _).cons _)
  | case2 receipt sent rest keeps ih => exact ih.cons _
  | case3 entries => exact .rfl

theorem hashOrder_map {shown : α → β} {showsSend : β → Bool}
    (same : ∀ entry, showsSend (shown entry) = isSend entry) (entries : List α) :
    hashOrder showsSend (entries.map shown) = (hashOrder isSend entries).map shown := by
  fun_induction hashOrder isSend entries with
  | case1 receipt sent rest sends ih =>
      rw [List.map_cons, List.map_cons, hashOrder, same, if_pos sends, ih]
      rfl
  | case2 receipt sent rest keeps ih =>
      rw [List.map_cons, List.map_cons, hashOrder, same, if_neg keeps, ← List.map_cons, ih]
      rfl
  | case3 entries short =>
      cases entries with
      | nil => rfl
      | cons first rest =>
          cases rest with
          | nil => rfl
          | cons second rest => exact absurd rfl (short first second rest)

end Order

theorem orderedEntries_head (height last : Nat) (events : List HistoryTokenAction) :
    ∀ next ∈ (orderedEntries height last events).head?, HistoryEntry.isSend next = false := by
  intro next first
  cases events with
  | nil => cases first
  | cons event rest =>
      cases event with
      | deploy | mint | deployTransfer =>
          cases first
          rfl
      | send tick amount gainer loser =>
          by_cases own : loser = gainer
          · simp only [orderedEntries, TokenHistoryDB.fromTokenHistory, own, if_true] at first
            cases first
            rfl
          · simp only [orderedEntries, TokenHistoryDB.fromTokenHistory, own, if_false] at first
            cases first
            rfl

theorem hashOrder_ordered (height last : Nat) (events : List HistoryTokenAction) :
    hashOrder HistoryEntry.isSend (orderedEntries height last events) =
      historyEntries height last events := by
  induction events generalizing last with
  | nil => rfl
  | cons event rest ih =>
      have single : ∀ entry : HistoryEntry,
          hashOrder HistoryEntry.isSend (entry :: orderedEntries height (last + 1) rest) =
            entry :: historyEntries height (last + 1) rest := by
        intro entry
        rw [hashOrder_cons entry (orderedEntries_head height (last + 1) rest), ih]
      cases event with
      | deploy | mint | deployTransfer => exact single _
      | send tick amt gainer loser txid vout =>
          by_cases own : loser = gainer
          · simp only [orderedEntries, historyEntries, TokenHistoryDB.fromTokenHistory, own, if_true]
            exact single _
          · simp only [orderedEntries, historyEntries, TokenHistoryDB.fromTokenHistory, own,
              if_false, hashOrder, ih]
            rfl

structure BlockListing (table : Table AddressTokenIdDB HistoryValue) (height : Nat)
    (listing : List HistoryEntry) : Prop where
  ascending : listing.Pairwise fun earlier later => earlier.1.id < later.1.id
  entries : ∀ key value, (key, value) ∈ listing ↔ table.get key = some value ∧ value.height = height

def Addressed (env : Env) (addressOf : FullHash → Option String) (_ : Process) : Event → Prop
  | .block _ block _ => ∀ tx ∈ block.txs, ∀ output ∈ tx.outputs,
      output.address = addressOf (env.computeScriptHash output.scriptPubkey)
  | _ => True

def DB.Knows (addressOf : FullHash → Option String) (db : DB) (hash : FullHash) : Prop :=
  db.fullhashToAddress.get hash = addressOf hash

def DB.proofBefore (env : Env) (db : DB) (height : Nat) : Hash256 :=
  (db.proofOfHistory.get (height - 1)).getD env.defaultHash

/-- The proofs of the applied blocks are those of their entries, and the addresses of all owners in
the tables are known. -/
structure Audited (env : Env) (addressOf : FullHash → Option String) (db : DB) (chain : Chain) :
    Prop extends ByHeight env db chain where
  proofs : ∀ height ∈ db.blockInfo.keys, 0 < height → ∃ listing,
    BlockListing db.addressTokenToHistory height listing ∧
      db.proofOfHistory.get height = some (ProofInput.proof env
        ⟨db.proofBefore env height, historyText env (hashOrder HistoryEntry.isSend listing) addressOf⟩)
  entries : ∀ key value, db.addressTokenToHistory.get key = some value →
    db.Knows addressOf key.address ∧ ∀ other ∈ value.action.address, db.Knows addressOf other
  transfers : ∀ key ∈ db.addressLocationToTransfer.keys, db.Knows addressOf key.address
  prevouts : ∀ outpoint prevout, db.prevouts.get outpoint = some prevout →
    db.Knows addressOf prevout.scriptHash
  addresses : ∀ hash text, db.fullhashToAddress.get hash = some text → addressOf hash = some text

structure SameAudit (addressOf : FullHash → Option String) (left right : DB) : Prop
    extends SameLedger left right where
  proofs : ∀ height, height ∈ left.blockInfo.keys ∨ height + 1 ∈ left.blockInfo.keys →
    right.proofOfHistory.get height = left.proofOfHistory.get height
  knows : ∀ hash, left.Knows addressOf hash → right.Knows addressOf hash
  prevouts : ∀ outpoint prevout, right.prevouts.get outpoint = some prevout →
    left.prevouts.get outpoint = some prevout ∨ right.Knows addressOf prevout.scriptHash
  addresses : (∀ hash text, left.fullhashToAddress.get hash = some text →
      addressOf hash = some text) →
    ∀ hash text, right.fullhashToAddress.get hash = some text → addressOf hash = some text

section Restores

variable {env : Env} {addressOf : FullHash → Option String} {left right : DB} {chain : Chain}

theorem Audited.congr (same : SameAudit addressOf left right)
    (audited : Audited env addressOf left chain) : Audited env addressOf right chain := by
  refine {
    toByHeight := byHeight_ofLedger left right chain same.toSameLedger audited.toByHeight
    proofs := ?_
    entries := ?_
    transfers := ?_
    prevouts := ?_
    addresses := same.addresses audited.addresses }
  · intro height member positive
    rw [← same.blockInfo] at member
    obtain ⟨listing, lists, proof⟩ := audited.proofs height member positive
    have before : right.proofBefore env height = left.proofBefore env height := by
      have lower := same.proofs (height - 1) (Or.inr (by rwa [Nat.sub_add_cancel positive]))
      rw [DB.proofBefore, DB.proofBefore, lower]
    refine ⟨listing, ?_, ?_⟩
    · rw [← same.addressTokenToHistory]
      exact lists
    · rw [before, same.proofs height (Or.inl member), proof]
  · intro key value found
    rw [← same.addressTokenToHistory] at found
    obtain ⟨own, other⟩ := audited.entries key value found
    exact ⟨same.knows _ own, fun address needed => same.knows _ (other address needed)⟩
  · intro key member
    rw [← same.addressLocationToTransfer] at member
    exact same.knows _ (audited.transfers key member)
  · intro outpoint prevout found
    rcases same.prevouts outpoint prevout found with old | known
    · exact same.knows _ (audited.prevouts outpoint prevout old)
    · exact known

theorem undo_infos (block : ReorgHistoryBlock) (height : Nat) (db : DB) :
    (block.undo height db).blockInfo = db.blockInfo.remove height := by
  have tokens : ∀ (entries : List TokenHistoryEntry) (db : DB),
      (entries.foldr (fun entry db => entry.proceed db) db).blockInfo = db.blockInfo := by
    intro entries db
    induction entries with
    | nil => rfl
    | cons entry rest ih => cases entry <;> exact ih
  have ordinals : ∀ (entries : List OrdinalsEntry) (db : DB),
      (entries.foldr (fun entry db => entry.proceed db) db).blockInfo = db.blockInfo := by
    intro entries db
    induction entries with
    | nil => rfl
    | cons entry rest ih => cases entry <;> exact ih
  rw [ReorgHistoryBlock.undo, ordinals, tokens]

theorem undo_proofs (block : ReorgHistoryBlock) (height : Nat) (db : DB) :
    (block.undo height db).proofOfHistory = db.proofOfHistory :=
  undo_keeps DB.proofOfHistory (fun _ _ _ => rfl) (fun entry _ => by cases entry <;> rfl)
    (fun entry _ => by cases entry <;> rfl) _ _ _

theorem undo_addresses (block : ReorgHistoryBlock) (height : Nat) (db : DB) :
    (block.undo height db).fullhashToAddress = db.fullhashToAddress :=
  undo_keeps DB.fullhashToAddress (fun _ _ _ => rfl) (fun entry _ => by cases entry <;> rfl)
    (fun entry _ => by cases entry <;> rfl) _ _ _

theorem undo_knows (block : ReorgHistoryBlock) (height : Nat) (db : DB) (hash : FullHash) :
    (block.undo height db).Knows addressOf hash ↔ db.Knows addressOf hash := by
  rw [DB.Knows, DB.Knows, undo_addresses]

theorem SameAudit.undo (same : SameAudit addressOf left right) (block : ReorgHistoryBlock)
    (height : Nat) :
    SameAudit addressOf (block.undo height left) (block.undo height right) := by
  refine {
    toSameLedger := same.toSameLedger.undo block height
    proofs := ?_
    knows := ?_
    prevouts := ?_
    addresses := ?_ }
  · have fewer : ∀ place, place ∈ (left.blockInfo.remove height).keys →
        place ∈ left.blockInfo.keys := by
      intro place member
      rw [Table.remove, Finmap.keys_erase] at member
      exact Finset.mem_of_mem_erase member
    intro place listed
    rw [undo_infos] at listed
    rw [undo_proofs, undo_proofs]
    exact same.proofs place (listed.imp (fewer place) (fewer _))
  · intro hash
    rw [undo_knows, undo_knows]
    exact same.knows hash
  · simp only [undo_prevouts, undo_knows]
    unfold undonePrevouts
    induction block.ordinalsHistory with
    | nil => exact same.prevouts
    | cons entry rest ih =>
        cases entry with
        | restorePrevouts items =>
            intro outpoint prevout found
            rw [List.foldr_cons, Table.get_extend] at found ⊢
            cases saved : items.get outpoint with
            | none =>
                rw [saved, Option.none_or] at found
                rw [Option.none_or]
                exact ih outpoint prevout found
            | some item =>
                rw [saved] at found
                exact Or.inl found
        | restoreOffsets | removeOffsets | restorePartial | removePartials => exact ih
  · rw [undo_addresses, undo_addresses]
    exact same.addresses

theorem audited_restores : Restores (SameAudit addressOf) (Audited env addressOf) where
  ledger same := same.toSameLedger
  undo same block height := same.undo block height
  kept same audited := audited.congr same

end Restores

def Serializes (env : Env) (json : Rest.History → Bytes) : Prop :=
  ∀ entry address, env.historyJson entry address = json (.shown address entry)

theorem historyText_congr {env : Env} {json : Rest.History → Bytes}
    (serializes : Serializes env json) {history : List HistoryEntry}
    {first second : FullHash → Option String}
    (same : ∀ entry ∈ history, first entry.1.address = second entry.1.address ∧
      ∀ other ∈ entry.2.action.address, first other = second other) :
    historyText env history first = historyText env history second := by
  have texts : ∀ entry ∈ history, env.historyJson entry (env.addressText first) =
      env.historyJson entry (env.addressText second) := by
    intro entry listed
    obtain ⟨own, other⟩ := same entry listed
    rw [serializes, serializes]
    refine congrArg json (Rest.History.shown_congr ?_ ?_)
    · rw [Env.addressText, Env.addressText, own]
    · intro address needed
      rw [Env.addressText, Env.addressText, other address needed]
  rw [historyText, historyText, List.flatMap_congr texts]

section Block

variable {env : Env} {addressOf : FullHash → Option String} {server : Server} {height : Nat}
  {block : Block} {chain : Chain} {handled : Handled}

structure StoresAddresses (env : Env) (addressOf : FullHash → Option String) (block : Block) :
    Prop where
  right : ∀ hash text, (blockAddresses env block).get hash = some text → addressOf hash = some text
  all : ∀ tx ∈ block.txs, ∀ output ∈ tx.outputs,
    (blockAddresses env block).get (env.computeScriptHash output.scriptPubkey) = none →
      addressOf (env.computeScriptHash output.scriptPubkey) = none

theorem addressed_stores (addressed : ∀ tx ∈ block.txs, ∀ output ∈ tx.outputs,
    output.address = addressOf (env.computeScriptHash output.scriptPubkey)) :
    StoresAddresses env addressOf block where
  right hash text found := by
    have listed := Table.mem_keys_extendList (Table.mem_keys_iff.mpr ⟨text, found⟩)
    rcases listed with none | listed
    · cases none
    obtain ⟨output, present, same⟩ :=
      List.mem_filterMap.mp (Table.mem_of_get_extendList listed found)
    obtain ⟨address, known, shape⟩ := Option.map_eq_some_iff.mp same
    cases shape
    obtain ⟨tx, member, holds⟩ := List.mem_flatMap.mp present
    rw [← addressed tx member output holds, known]
  all tx member output holds absent := by
    rw [← addressed tx member output holds]
    by_contra present
    obtain ⟨text, known⟩ := Option.ne_none_iff_exists'.mp present
    have listed : (env.computeScriptHash output.scriptPubkey, text) ∈
        (block.txs.flatMap Tx.outputs).filterMap fun output =>
          output.address.map fun address =>
            (env.computeScriptHash output.scriptPubkey, address) :=
      List.mem_filterMap.mpr ⟨output, List.mem_flatMap.mpr ⟨tx, member, holds⟩, by rw [known]; rfl⟩
    rw [Table.get_eq_none_iff, blockAddresses, Table.keys_extendList] at absent
    exact absent (Finset.mem_union_right _
      (List.mem_toFinset.mpr (List.mem_map_of_mem listed)))

theorem addresses_handled (result : HandledBlock env server height block handled) :
    (applyAll handled.processed server.db).fullhashToAddress =
      server.db.fullhashToAddress.extend (blockAddresses env block) := by
  cases result with
  | early | empty | full => rfl

theorem knows_handled (stores : StoresAddresses env addressOf block)
    (result : HandledBlock env server height block handled) {hash : FullHash}
    (known : server.db.Knows addressOf hash) :
    (applyAll handled.processed server.db).Knows addressOf hash := by
  rw [DB.Knows, addresses_handled result, Table.get_extend]
  cases found : (blockAddresses env block).get hash with
  | none => exact known
  | some text => exact (stores.right hash text found).symm

theorem right_handled (stores : StoresAddresses env addressOf block)
    (result : HandledBlock env server height block handled)
    (audited : Audited env addressOf server.db chain) (hash : FullHash) (text : String)
    (found : (applyAll handled.processed server.db).fullhashToAddress.get hash = some text) :
    addressOf hash = some text := by
  rw [addresses_handled result, Table.get_extend] at found
  cases own : (blockAddresses env block).get hash with
  | none =>
      rw [own, Option.none_or] at found
      exact audited.addresses hash text found
  | some other =>
      rw [own] at found
      cases found
      exact stores.right hash text own

theorem created_holds {known : FullHash → Prop} (outputs : ∀ tx ∈ block.txs,
      ∀ output ∈ tx.outputs, known (env.computeScriptHash output.scriptPubkey))
    {outpoint : OutPoint} {prevout : TxPrevout}
    (created : (createdPrevouts env block).get outpoint = some prevout) :
    known prevout.scriptHash := by
  obtain ⟨tx, member, output, _, present, same⟩ := createdPrevouts_origin created
  rw [storedOutput] at same
  split at same
  · cases same
  · cases same
    exact outputs tx member output (List.mem_of_getElem? present)

theorem owners_known (stores : StoresAddresses env addressOf block)
    (burned : addressOf env.opReturnHash = none)
    (result : HandledBlock env server height block handled)
    (audited : Audited env addressOf server.db chain) :
    HoldsOfOwners env block.txs (spentPrevouts env server.db block)
      ((applyAll handled.processed server.db).Knows addressOf) := by
  have right := right_handled stores result audited
  have outputs : ∀ tx ∈ block.txs, ∀ output ∈ tx.outputs,
      (applyAll handled.processed server.db).Knows addressOf
        (env.computeScriptHash output.scriptPubkey) := by
    intro tx member output holds
    rw [DB.Knows]
    cases found : (applyAll handled.processed server.db).fullhashToAddress.get
        (env.computeScriptHash output.scriptPubkey) with
    | some text => exact (right _ text found).symm
    | none =>
        rw [addresses_handled result, Table.get_extend, Option.or_eq_none_iff] at found
        exact (stores.all tx member output holds found.1).symm
  refine { burned := ?_, outputs := outputs, spent := ?_ }
  · rw [DB.Knows, burned, Option.eq_none_iff_forall_ne_some]
    intro text found
    rw [right _ text found] at burned
    cases burned
  · intro outpoint prevout found
    rw [spentPrevouts, Table.get_collect] at found
    split at found
    · rw [prevoutOf, Option.or_eq_some_iff] at found
      rcases found with stored | ⟨_, created⟩
      · exact knows_handled stores result (audited.prevouts outpoint prevout stored)
      · exact created_holds outputs created
    · cases found

structure WritesKnown (env : Env) (addressOf : FullHash → Option String) (server : Server)
    (height : Nat) (block : Block) (handled : Handled) : Prop where
  events : ∀ event ∈ historyOf env server height block,
    (applyAll handled.processed server.db).Knows addressOf event.recipient ∧
      ∀ sender ∈ event.sender, (applyAll handled.processed server.db).Knows addressOf sender
  transfers : ∀ key ∈ (applyAll handled.processed server.db).addressLocationToTransfer.keys,
    (applyAll handled.processed server.db).Knows addressOf key.address

theorem writes_known (stores : StoresAddresses env addressOf block)
    (burned : addressOf env.opReturnHash = none)
    (result : HandledBlock env server height block handled)
    (audited : Audited env addressOf server.db chain) :
    WritesKnown env addressOf server height block handled := by
  have holds := owners_known stores burned result audited
  have older : ∀ key ∈ server.db.addressLocationToTransfer.keys,
      (applyAll handled.processed server.db).Knows addressOf key.address :=
    fun key member => knows_handled stores result (audited.transfers key member)
  cases result with
  | early before =>
      refine { events := ?_, transfers := older }
      rw [historyOf, if_pos (Or.inl before)]
      intro _ impossible
      cases impossible
  | empty begun alone =>
      refine { events := ?_, transfers := older }
      rw [historyOf, if_pos (Or.inr alone)]
      intro _ impossible
      cases impossible
  | @full begun several parsed done parsing processing =>
      have owned := parseBlock_owned parsing rfl holds
      have fed := (parseBlock_spec parsing).feed.fed rfl
      have naming := processing_named processing (by
        intro location transfer found
        rw [show (parsed.cache.loadTokensData env server.db).validTransfers =
          (loadedCache env server.db block).validTransfers from fed.validTransfers] at found
        exact older _ (Table.mem_keys_iff.mpr ⟨transfer.2, loaded_stored found⟩)) owned
      refine { events := ?_, transfers := ?_ }
      · rw [historyOf, if_neg (by omega), parsing]
        dsimp only
        rw [processing]
        exact naming.events
      · intro key member
        rcases Table.mem_keys_extend member with kept | written
        · exact older key (Table.mem_keys_removeBatch kept)
        · obtain ⟨proto, valid⟩ := mem_transfersToWrite.mp written
          exact naming.valid _ _ valid

theorem proof_audited {json : Rest.History → Bytes} (serializes : Serializes env json)
    (result : HandledBlock env server height block handled)
    (known : WritesKnown env addressOf server height block handled)
    (audited : Audited env addressOf server.db chain) (follows : chain.Follows height)
    (begun : env.startHeight ≤ height) (positive : 0 < height) :
    ∃ listing, BlockListing (applyAll handled.processed server.db).addressTokenToHistory height
        listing ∧
      (applyAll handled.processed server.db).proofOfHistory.get height = some (ProofInput.proof env
        ⟨(applyAll handled.processed server.db).proofBefore env height,
          historyText env (hashOrder HistoryEntry.isSend listing) addressOf⟩) := by
  have grown := history_grown audited.toGapFree result
  refine ⟨orderedEntries height (server.db.lastHistoryId.getD 0)
    (historyOf env server height block), ?_, ?_⟩
  · constructor
    · rw [← @List.pairwise_map _ _ (fun entry : HistoryEntry => entry.1.id) (· < ·),
        orderedEntries_ids]
      exact List.pairwise_lt_range'
    · intro key value
      rw [grown, (orderedEntries_perm _ _ _).mem_iff]
      constructor
      · exact fun listed => ⟨Or.inl listed, historyEntries_height listed⟩
      · rintro ⟨listed | stored, same⟩
        · exact listed
        · obtain ⟨_, other, applied⟩ := audited.applied key value stored
          have under := audited.linked.below follows applied
          dsimp only at under
          omega
  · have before : (applyAll handled.processed server.db).proofBefore env height =
        server.db.proofBefore env height := by
      rw [DB.proofBefore, proof_handled result begun, Table.get_set_ne _ _ (by omega)]
      rfl
    rw [before, proof_handled result begun, Table.get_set_self, hashOrder_ordered]
    congr 2
    refine congrArg (ProofInput.mk _) (historyText_congr serializes ?_)
    intro entry listed
    have stored : ∀ hash, ((blockAddresses env block).get hash).or
        (server.db.fullhashToAddress.get hash) =
        (applyAll handled.processed server.db).fullhashToAddress.get hash := by
      intro hash
      rw [addresses_handled result, Table.get_extend]
    obtain ⟨own, other⟩ := historyEntries_named known.events _ _ entry listed
    refine ⟨(stored _).trans own, ?_⟩
    intro address needed
    exact (stored _).trans (other address needed)

theorem audited_handled {json : Rest.History → Bytes} (serializes : Serializes env json)
    (stores : StoresAddresses env addressOf block) (burned : addressOf env.opReturnHash = none)
    (result : HandledBlock env server height block handled)
    (audited : Audited env addressOf server.db chain) (follows : chain.Follows height) :
    Audited env addressOf (applyAll handled.processed server.db) ((height, block) :: chain) := by
  have known := writes_known stores burned result audited
  have holds := owners_known stores burned result audited
  have grown := history_grown audited.toGapFree result
  -- the proofs and the entries of the blocks below are left alone
  have older : ∀ place ∈ server.db.blockInfo.keys, 0 < place → ∃ listing,
      BlockListing (applyAll handled.processed server.db).addressTokenToHistory place listing ∧
        (applyAll handled.processed server.db).proofOfHistory.get place =
          some (ProofInput.proof env
            ⟨(applyAll handled.processed server.db).proofBefore env place,
              historyText env (hashOrder HistoryEntry.isSend listing) addressOf⟩) := by
    intro place member positive
    have under := audited.infos_below follows member
    obtain ⟨listing, lists, proof⟩ := audited.proofs place member positive
    have kept : ∀ other ≤ place, (applyAll handled.processed server.db).proofOfHistory.get other =
        server.db.proofOfHistory.get other := by
      intro other most
      by_cases early : height < env.startHeight
      · rw [proof_early result early]
      · rw [proof_handled result (Nat.le_of_not_lt early), Table.get_set_ne _ _ (by omega)]
    refine ⟨listing, ⟨lists.ascending, ?_⟩, ?_⟩
    · intro key value
      rw [lists.entries, grown]
      constructor
      · exact fun ⟨stored, same⟩ => ⟨Or.inr stored, same⟩
      · rintro ⟨listed | stored, same⟩
        · have own := historyEntries_height listed
          dsimp only at own
          omega
        · exact ⟨stored, same⟩
    · rw [DB.proofBefore, kept place (Nat.le_refl _), kept (place - 1) (Nat.sub_le _ _)]
      exact proof
  refine {
    toByHeight := byHeight_handled audited.toByHeight follows result
    proofs := ?_
    entries := ?_
    transfers := known.transfers
    prevouts := ?_
    addresses := right_handled stores result audited }
  · intro place member positive
    rw [infos_handled result] at member
    by_cases early : height < env.startHeight
    · rw [if_pos early] at member
      exact older place member positive
    · rw [if_neg early, Table.keys_set, Finset.mem_insert] at member
      rcases member with rfl | old
      · exact proof_audited serializes result known audited follows (Nat.le_of_not_lt early)
          positive
      · exact older place old positive
  · intro key value found
    rcases (grown key value).mp found with listed | stored
    · exact historyEntries_named known.events _ _ _ listed
    · obtain ⟨own, other⟩ := audited.entries key value stored
      exact ⟨knows_handled stores result own,
        fun address needed => knows_handled stores result (other address needed)⟩
  · intro outpoint prevout found
    rw [prevouts_handled result, Table.get_removeBatch] at found
    split at found
    · cases found
    · rw [Table.get_extend, Option.or_eq_some_iff] at found
      rcases found with created | ⟨_, stored⟩
      · exact created_holds holds.outputs created
      · exact knows_handled stores result (audited.prevouts outpoint prevout stored)

theorem audited_undone (stores : StoresAddresses env addressOf block)
    (burned : addressOf env.opReturnHash = none)
    (result : HandledBlock env server height block handled)
    (audited : Audited env addressOf server.db chain) (follows : chain.Follows height)
    (ledger : SameLedger ((entriesOf handled.processed server.db).undo height
      (applyAll handled.processed server.db)) server.db) :
    SameAudit addressOf server.db ((entriesOf handled.processed server.db).undo height
      (applyAll handled.processed server.db)) := by
  have holds := owners_known stores burned result audited
  refine {
    toSameLedger := ledger.symm
    proofs := ?_
    knows := ?_
    prevouts := ?_
    addresses := ?_ }
  · intro place listed
    have under : place < height := by
      rcases listed with own | next
      · exact audited.infos_below follows own
      · exact Nat.lt_of_succ_lt (audited.infos_below follows next)
    rw [undo_proofs]
    by_cases early : height < env.startHeight
    · rw [proof_early result early]
    · rw [proof_handled result (Nat.le_of_not_lt early), Table.get_set_ne _ _ (by omega)]
  · intro hash known
    rw [undo_knows]
    exact knows_handled stores result known
  · intro outpoint prevout found
    rw [undo_knows]
    rw [undo_prevouts, undonePrevouts_saved result, prevouts_handled result, Table.get_extend,
      Table.get_collect, Table.get_removeBatch, Table.get_extend, prevoutOf] at found
    have origin : (createdPrevouts env block).get outpoint = some prevout ∨
        server.db.prevouts.get outpoint = some prevout := by
      split at found
      · rw [Option.or_none, Option.or_eq_some_iff] at found
        exact found.elim Or.inr fun created => Or.inl created.2
      · rw [Option.none_or, Option.or_eq_some_iff] at found
        exact found.elim Or.inl fun stored => Or.inr stored.2
    rcases origin with created | stored
    · exact Or.inr (created_holds holds.outputs created)
    · exact Or.inl stored
  · intro _ hash text found
    rw [undo_addresses] at found
    exact right_handled stores result audited hash text found

end Block

theorem reachable_audited {env : Env} {addressOf : FullHash → Option String}
    {json : Rest.History → Bytes} {process : Process} (serializes : Serializes env json)
    (burned : addressOf env.opReturnHash = none)
    (reached : Reachable env (Addressed env addressOf) process) :
    Sound (Audited env addressOf) process := by
  have start : Audited env addressOf {} [] := {
    toByHeight := byHeight_empty env
    proofs := fun height member => by simp at member
    entries := fun key value found => by simp at found
    transfers := fun key member => by simp at member
    prevouts := fun outpoint prevout found => by simp at found
    addresses := fun hash text found => by simp at found }
  refine reachable_restored audited_restores start ?_ reached
  intro process height new handleReorgs handled sound valid addressed handling
  have stores := addressed_stores addressed
  have result := handleBlock_handled handling
  have ledger := undo_handled result sound.placed valid.1
    fun txid own => valid.2.txids_disjoint own
  exact ⟨audited_handled serializes stores burned result sound.holds valid.1,
    audited_undone stores burned result sound.holds valid.1 ledger⟩

/-- The events that are stored for a height, each as the endpoints show one. -/
def storedEvents (env : Env) (db : DB) (height : Nat) : Option (List Rest.History) := do
  let entries ← ((db.blockEvents.get height).getD []).mapM fun key =>
    (db.addressTokenToHistory.get key).map fun value => (key, value)
  some (entries.map (.new env db))

def eventsByHeight (env : Env) (db : DB) (height : Nat) :
    Except PebbleError (List Rest.History) := do
  let keys ← match db.blockEvents.get height with
    | none => .ok []
    | some stored =>
        -- `get` reads the list back from its bytes
        match Pebble.addressTokenIdDB.vec.fromBytes
          (Pebble.addressTokenIdDB.vec.getBytes stored) with
        | .ok keys => .ok keys
        | .error _ => .error .panic
  match keys.mapM fun key => (db.addressTokenToHistory.get key).map fun value => (key, value) with
  | none => .error .panic
  | some entries => .ok (entries.map (.new env db))

def clientText (json : Rest.History → Bytes) (shown : List Rest.History) : Bytes :=
  if shown = [] then [0x6e, 0x75, 0x6c, 0x6c]
  else (hashOrder Rest.History.isSend shown).flatMap json

def clientProof (env : Env) (json : Rest.History → Bytes) (before : Hash256)
    (shown : List Rest.History) : Hash256 :=
  env.sha256 (hashBytes before ++ hashBytes (env.sha256 (clientText json shown)))

theorem isSend_new (env : Env) (db : DB) (entry : HistoryEntry) :
    (Rest.History.new env db entry).isSend = HistoryEntry.isSend entry := by
  obtain ⟨key, height, action⟩ := entry
  cases action <;> rfl

theorem clientText_eq {env : Env} {json : Rest.History → Bytes}
    (serializes : Serializes env json) (db : DB) (listing : List HistoryEntry) :
    clientText json (listing.map (.new env db)) =
      historyText env (hashOrder HistoryEntry.isSend listing) db.fullhashToAddress.get := by
  have texts : ∀ entry, json (.new env db entry) =
      env.historyJson entry (env.addressText db.fullhashToAddress.get) := by
    intro entry
    rw [serializes, Rest.History.new_eq]
  have empty : hashOrder HistoryEntry.isSend listing = [] ↔ listing = [] := by
    rw [← List.perm_nil, ← List.perm_nil]
    exact ⟨(hashOrder_perm _ _).symm.trans, (hashOrder_perm _ _).trans⟩
  simp only [clientText, historyText, empty, List.map_eq_nil_iff,
    hashOrder_map (isSend_new env db), List.flatMap_map, texts]

theorem nodup_of_ids {keys : List AddressTokenIdDB}
    (ascending : keys.Pairwise fun earlier later => earlier.id < later.id) : keys.Nodup := by
  refine ascending.imp ?_
  rintro earlier _ less rfl
  exact Nat.lt_irrefl _ less

theorem storedEvents_listing {env : Env} {db : DB} {chain : Chain} (known : ByHeight env db chain)
    {height : Nat} {listing : List HistoryEntry}
    (lists : BlockListing db.addressTokenToHistory height listing) :
    storedEvents env db height = some (listing.map (.new env db)) := by
  have stored : ∀ entry ∈ listing, db.addressTokenToHistory.get entry.1 = some entry.2 :=
    fun entry listed => ((lists.entries _ _).mp listed).1
  have keys : (db.blockEvents.get height).getD [] = listing.map Prod.fst := by
    have sorted : (listing.map Prod.fst).Pairwise fun earlier later => earlier.id < later.id :=
      List.pairwise_map.mpr lists.ascending
    refine List.Perm.eq_of_pairwise ?_ (known.ascending height) sorted ?_
    · intro first second _ _ less more
      exact absurd more (Nat.lt_asymm less)
    · refine (List.perm_ext_iff_of_nodup (nodup_of_ids (known.ascending height))
        (nodup_of_ids sorted)).mpr ?_
      intro key
      rw [known.events, List.mem_map]
      constructor
      · rintro ⟨value, found, same⟩
        exact ⟨(key, value), (lists.entries _ _).mpr ⟨found, same⟩, rfl⟩
      · rintro ⟨entry, listed, rfl⟩
        exact ⟨entry.2, (lists.entries _ _).mp listed⟩
  have all : (listing.map Prod.fst).mapM (fun key =>
      (db.addressTokenToHistory.get key).map fun value => (key, value)) = some listing := by
    clear keys lists
    induction listing with
    | nil => rfl
    | cons entry rest ih =>
        obtain ⟨own, later⟩ := List.forall_mem_cons.mp stored
        rw [List.map_cons, List.mapM_cons, own, ih later]
        rfl
  rw [storedEvents, keys, all]
  rfl

theorem eventsByHeight_stored {env : Env} {db : DB} {height : Nat} {shown : List Rest.History}
    (stored : storedEvents env db height = some shown) :
    eventsByHeight env db height = if shown = [] then .ok [] else .error .panic := by
  obtain ⟨entries, found, same⟩ := Option.bind_eq_some_iff.mp stored
  cases same
  cases keys : db.blockEvents.get height with
  | none =>
      rw [keys] at found
      cases found
      rw [eventsByHeight, keys]
      rfl
  | some list =>
      rw [keys, Option.getD_some] at found
      cases list with
      | nil =>
          cases found
          rw [eventsByHeight, keys]
          rfl
      | cons key rest =>
          have some : entries ≠ [] := by
            rintro rfl
            rw [List.mapM_cons] at found
            obtain ⟨_, _, later⟩ := Option.bind_eq_some_iff.mp found
            obtain ⟨_, _, same⟩ := Option.bind_eq_some_iff.mp later
            cases same
          rw [if_neg (by simpa using some), eventsByHeight, keys]
          dsimp only
          rw [Pebble.vec_lost (List.cons_ne_nil _ _)]
          rfl

theorem applied_audited {env : Env} {addressOf : FullHash → Option String}
    {json : Rest.History → Bytes} {process : Process} (serializes : Serializes env json)
    (burned : addressOf env.opReturnHash = none)
    (reached : Reachable env (Addressed env addressOf) process) {height : Nat} {block : Block}
    (applied : (height, block) ∈ process.chain) (begun : env.startHeight ≤ height)
    (positive : 0 < height) :
    ∃ shown, storedEvents env process.db height = some shown ∧
      process.db.proofOfHistory.get height =
        some (clientProof env json (process.db.proofBefore env height) shown) := by
  have audited := (reachable_audited serializes burned reached).holds
  have info := (audited.infos height _).mpr ⟨begun, block, applied, rfl⟩
  obtain ⟨listing, lists, proof⟩ :=
    audited.proofs height (Table.mem_keys_iff.mpr ⟨_, info⟩) positive
  refine ⟨_, storedEvents_listing audited.toByHeight lists, ?_⟩
  have text : historyText env (hashOrder HistoryEntry.isSend listing) addressOf =
      historyText env (hashOrder HistoryEntry.isSend listing) process.db.fullhashToAddress.get := by
    refine historyText_congr serializes ?_
    intro entry listed
    have stored := (lists.entries _ _).mp ((hashOrder_perm _ _).mem_iff.mp listed)
    obtain ⟨own, other⟩ := audited.entries _ _ stored.1
    exact ⟨own.symm, fun address needed => (other address needed).symm⟩
  rw [proof, clientProof, clientText_eq serializes, ← text]
  rfl

/-- Whatever blocks were undone and indexed since, the proof of an applied block is the one that a
client computes again from the stored events of its height, as the endpoints show an event now. The
endpoint for the events of a height shows them only when there are none. -/
theorem proofs_audited {env : Env} {addressOf : FullHash → Option String}
    {json : Rest.History → Bytes} {process : Process} (serializes : Serializes env json)
    (burned : addressOf env.opReturnHash = none)
    (reached : Reachable env (Addressed env addressOf) process) {height : Nat} {block : Block}
    (applied : (height, block) ∈ process.chain) (begun : env.startHeight ≤ height)
    (positive : 0 < height) :
    ∃ shown, storedEvents env process.db height = some shown ∧
      process.db.proofOfHistory.get height =
        some (clientProof env json (process.db.proofBefore env height) shown) ∧
      eventsByHeight env process.db height = if shown = [] then .ok [] else .error .panic := by
  obtain ⟨shown, stored, proof⟩ := applied_audited serializes burned reached applied begun positive
  exact ⟨shown, stored, proof, eventsByHeight_stored stored⟩

instance (env : Env) (addressOf : FullHash → Option String) (process : Process) (event : Event) :
    Decidable (Addressed env addressOf process event) :=
  match event with
  | .block _ block _ => inferInstanceAs (Decidable (∀ tx ∈ block.txs, ∀ output ∈ tx.outputs,
      output.address = addressOf (env.computeScriptHash output.scriptPubkey)))
  | .restore _ => inferInstanceAs (Decidable True)
  | .restart => inferInstanceAs (Decidable True)

namespace Sample

def amountText (amt : Nat) : String :=
  let digits := (List.range 18).map fun place => Nat.digitChar (amt / 10 ^ (17 - place) % 10)
  let decimals := digits.rdropWhile (· == '0')
  toString (amt / 10 ^ 18) ++ (if decimals = [] then "" else "." ++ String.ofList decimals)

def field (name value : String) : String := "\"" ++ name ++ "\":" ++ value

def quoted (value : String) : String := "\"" ++ value ++ "\""

def actionFields (kind : String) (fields : List String) (txid : Txid) (vout : Nat) : List String :=
  [field "type" (quoted kind)] ++ fields ++
    [field "txid" (quoted (blockHashText txid)), field "vout" (toString vout)]

def actionJson : TokenHistoryEvent → List String
  | .deploy max lim dec txid vout => actionFields "Deploy" [
      field "max" (quoted (amountText max)), field "lim" (quoted (amountText lim)),
      field "dec" (toString dec)] txid vout
  | .mint amt txid vout => actionFields "Mint" [field "amt" (quoted (amountText amt))] txid vout
  | .deployTransfer amt txid vout =>
      actionFields "DeployTransfer" [field "amt" (quoted (amountText amt))] txid vout
  | .send amt recipient txid vout => actionFields "Send" [
      field "amt" (quoted (amountText amt)), field "recipient" (quoted recipient)] txid vout
  | .receive amt sender txid vout => actionFields "Receive" [
      field "amt" (quoted (amountText amt)), field "sender" (quoted sender)] txid vout
  | .sendReceive amt txid vout =>
      actionFields "SendReceive" [field "amt" (quoted (amountText amt))] txid vout

def historyJson (entry : Rest.History) : Bytes :=
  let tick := (trimTickBytes entry.addressToken.token.bytes).map fun byte => Char.ofNat byte.toNat
  text ("\x7b" ++ String.intercalate "," ([
    field "id" (toString entry.addressToken.id),
    field "address" (quoted entry.addressToken.address),
    field "tick" (quoted (String.ofList tick)),
    field "height" (toString entry.height)] ++ actionJson entry.action) ++ "\x7d")

def jsonEnv : Env :=
  { env with historyJson := fun entry address => historyJson (.shown address entry) }

def senderAddress (hash : FullHash) : Option String :=
  if hash = env.computeScriptHash sender then some "sender" else none

def addressed (block : Block) : Block :=
  { block with txs := block.txs.map fun tx => { tx with outputs := tx.outputs.map fun output =>
      { output with address := senderAddress (env.computeScriptHash output.scriptPubkey) } } }

end Sample

theorem wojak_audited : ∃ process,
    Reachable Sample.jsonEnv (Addressed Sample.jsonEnv Sample.senderAddress) process ∧
    (∃ key value, process.db.addressTokenToHistory.get key = some value ∧ value.height = 3) ∧
    ∃ shown, storedEvents Sample.jsonEnv process.db 3 = some shown ∧
      process.db.proofOfHistory.get 3 = some (clientProof Sample.jsonEnv Sample.historyJson
        (process.db.proofBefore Sample.jsonEnv 3) shown) ∧
      eventsByHeight Sample.jsonEnv process.db 3 =
        if shown = [] then .ok [] else .error .panic := by
  obtain ⟨process, reached, head, told⟩ : ∃ process,
      Reachable Sample.jsonEnv (Addressed Sample.jsonEnv Sample.senderAddress) process ∧
      process.chain.head? = some (3, Sample.addressed Sample.moveWojak) ∧
      ∃ key ∈ process.db.addressTokenToHistory.keys,
        ∃ value ∈ process.db.addressTokenToHistory.get key, value.height = 3 :=
    replay_any [
      .block 1 (Sample.addressed Sample.payWojak) true,
      .block 2 (Sample.addressed Sample.inscribeWojak) true,
      .block 3 (Sample.addressed Sample.moveWojak) true,
      .restore 2,
      .block 3 (Sample.addressed Sample.moveWojak) true] (by decide +kernel)
  obtain ⟨key, _, value, stored, same⟩ := told
  exact ⟨process, reached, ⟨key, value, stored, same⟩,
    proofs_audited (fun _ _ => rfl) (by decide +kernel) reached (List.mem_of_head? head) (by decide)
      (by decide)⟩

end WjkIndexer
