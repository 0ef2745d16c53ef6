import WjkIndexer.Inscriptions.Parsed
import WjkIndexer.Server.Events
import WjkIndexer.Tokens.Turn

/-!
The owners in the actions and in the events of a block: they are owners of its outputs or of the
outputs that it spends, of transfers that were valid before, or the owner of what is burned.
-/

namespace WjkIndexer

open FiniteTable Machine TokenCache

/-- Something that holds of the owner of what is burned, and of the owners of all outputs that the
block creates or spends. -/
structure HoldsOfOwners (env : Env) (txs : List Tx) (prevouts : Table OutPoint TxPrevout)
    (known : FullHash → Prop) : Prop where
  burned : known env.opReturnHash
  outputs : ∀ tx ∈ txs, ∀ output ∈ tx.outputs, known (env.computeScriptHash output.scriptPubkey)
  spent : ∀ outpoint prevout, prevouts.get outpoint = some prevout → known prevout.scriptHash

/-- The one who gains by an action. -/
def TokenAction.owner : TokenAction → FullHash
  | .deploy _ _ owner => owner
  | .mint owner _ _ _ => owner
  | .transfer _ owner _ _ _ => owner
  | .transferred _ recipient _ _ => recipient

section Parsing

variable {env : Env} {context : TxContext} {txs : List Tx} {known : FullHash → Prop}
  {state : ParseState}

def Owned (known : FullHash → Prop) (state : ParseState) : Prop :=
  ∀ action ∈ state.cache.tokenActions, known action.owner

theorem Owned.transferred (owned : Owned known state) {location : Location} {recipient : FullHash}
    {txid : Txid} {vout : Nat} (gains : known recipient) :
    ∀ action ∈ (state.cache.transferred location recipient txid vout).tokenActions,
      known action.owner := by
  intro action listed
  rcases List.mem_append.mp listed with old | new
  · exact owned action old
  · rw [List.mem_singleton.mp new]
    exact gains

theorem Owned.moveInscription (owned : Owned known state)
    (holds : HoldsOfOwners env txs context.prevouts known) (own : context.tx ∈ txs)
    (inputIndex : Nat) {txin : TxInput} {prevout : TxPrevout}
    (spent : context.prevouts.get txin.outpoint = some prevout) (offset : Nat) :
    Owned known (Parser.moveInscription env context inputIndex txin state offset) := by
  unfold Parser.moveInscription
  dsimp only
  split
  · rename_i vout rest located
    obtain ⟨output, present, _⟩ := InscriptionSearcher.getOutputIndexByInput_spec located
    have script : context.tx.scriptAt vout = output.scriptPubkey := by
      simp [Tx.scriptAt, present]
    unfold Owned
    dsimp only
    split
    · split
      · exact owned.transferred holds.burned
      · refine owned.transferred ?_
        rw [script]
        exact holds.outputs _ own output (List.mem_of_getElem? present)
    · exact owned
  · unfold Owned
    dsimp only
    split
    · refine owned.transferred ?_
      rw [ownerOf, spent]
      exact holds.spent _ prevout spent
    · exact owned

theorem inscribed_owned {cache next : TokenCache} {template : InscriptionTemplate} {height : Nat}
    (inscribed : Inscribed env cache template height next)
    (owned : ∀ action ∈ cache.tokenActions, known action.owner) (gains : known template.owner) :
    ∀ action ∈ next.tokenActions, known action.owner := by
  have appended : ∀ action : TokenAction, action.owner = template.owner →
      ∀ other ∈ cache.tokenActions ++ [action], known other.owner := by
    intro action same other listed
    rcases List.mem_append.mp listed with old | new
    · exact owned other old
    · rw [List.mem_singleton.mp new, same]
      exact gains
  cases inscribed with
  | ignored => exact owned
  | deploy | mint | transfer => exact appended _ rfl

theorem Owned.createInscription (owned : Owned known state) {template : InscriptionTemplate}
    (gains : known template.owner) :
    Owned known (Parser.createInscription env context state template) := by
  have fed : ∀ skipped : Bool, Inscribed env state.cache template context.height
      (if skipped then state.cache
        else state.cache.parseTokenAction env template context.height context.created) := by
    intro skipped
    cases skipped with
    | true => exact .ignored
    | false => exact parseTokenAction_inscribed env _ template _ _
  unfold Parser.createInscription
  exact inscribed_owned (fed _) owned gains

theorem template_owner (holds : HoldsOfOwners env txs context.prevouts known)
    (own : context.tx ∈ txs) {inputIndex : Nat} {genesisTxid : Txid} {inscription : Inscription}
    {template : InscriptionTemplate}
    (converted : Parser.convertToTemplate env context inputIndex genesisTxid inscription =
      some template) : known template.owner := by
  obtain ⟨_, ⟨output, present, _, owner⟩, _⟩ := Parsing.convertToTemplate_spec converted
  rw [owner]
  split
  · exact holds.burned
  · exact holds.outputs _ own output (List.mem_of_getElem? present)

theorem Owned.createInscriptions (owned : Owned known state) {genesisTxid : Txid}
    {templates : List InscriptionTemplate} (gain : ∀ template ∈ templates, known template.owner) :
    Owned known (Parser.createInscriptions env context genesisTxid templates state) := by
  rw [Parser.createInscriptions_eq]
  refine List.foldlRecOn _ _ owned ?_
  intro state owned template listed
  refine owned.createInscription ?_
  split at listed
  · obtain ⟨original, member, _, same, _⟩ := Parsing.mem_numberTemplates listed
    rw [same]
    exact gain original member
  · exact gain template listed

theorem Owned.parseCreation (owned : Owned known state)
    (holds : HoldsOfOwners env txs context.prevouts known) (own : context.tx ∈ txs)
    (inputIndex : Nat) (txin : TxInput) :
    Owned known (Parser.parseCreation env context inputIndex txin state) := by
  unfold Parser.parseCreation
  dsimp only
  split
  · exact owned
  · exact owned
  · refine Owned.createInscriptions (by exact owned) ?_
    intro template listed
    exact template_owner holds own (Option.mem_toList.mp listed)
  · refine Owned.createInscriptions (by exact owned) ?_
    intro template listed
    simp only [List.mem_filterMap, List.mem_map, id_eq] at listed
    obtain ⟨_, ⟨inscription, _, rfl⟩, converted⟩ := listed
    exact template_owner holds own converted

theorem Owned.parseInput (owned : Owned known state)
    (holds : HoldsOfOwners env txs context.prevouts known) (own : context.tx ∈ txs)
    {input : TxInput × Nat} {prevout : TxPrevout}
    (spent : context.prevouts.get input.1.outpoint = some prevout) :
    Owned known (Parser.parseInput env context state input) := by
  have moved : Owned known (Parser.moveInscriptions env context input.2 input.1 state) := by
    unfold Parser.moveInscriptions
    split
    · exact owned
    · refine List.foldlRecOn _ _ owned ?_
      intro state owned offset _
      exact owned.moveInscription holds own input.2 spent offset
  unfold Parser.parseInput
  dsimp only
  split
  · exact moved.parseCreation holds own input.2 input.1
  · exact moved

theorem Owned.parseTx (owned : Owned known state) {prevouts : Table OutPoint TxPrevout}
    (holds : HoldsOfOwners env txs prevouts known) {height created : Nat} {tx : Tx}
    (own : tx ∈ txs) {next : ParseState}
    (parsed : Parser.parseTx env prevouts height created state tx = .ok next) :
    Owned known next := by
  unfold Parser.parseTx at parsed
  split at parsed
  · cases parsed
    exact owned
  split at parsed
  · cases parsed
  simp only [bind_ok] at parsed
  obtain ⟨charged, added, result⟩ := parsed
  cases result
  unfold LeakedInscriptions.addTxFee at added
  split at added
  · rename_i all
    refine List.foldlRecOn _ _ owned ?_
    intro state owned input listed
    have member : input.1 ∈ tx.inputs := (List.mem_zipIdx' listed).2 ▸ List.getElem_mem _
    obtain ⟨prevout, spent⟩ := Option.isSome_iff_exists.mp (List.all_eq_true.mp all _ member)
    exact owned.parseInput holds own spent
  · cases added

theorem parseBlock_owned {db : DB} {height : Nat} {block : Block}
    {prevouts : Table OutPoint TxPrevout} {cache : TokenCache} {parsed : Parser.Parsed}
    (result : Parser.parseBlock env db height block prevouts cache = .ok parsed)
    (idle : cache.tokenActions = []) (holds : HoldsOfOwners env block.txs prevouts known) :
    ∀ action ∈ parsed.cache.tokenActions, known action.owner := by
  simp only [Parser.parseBlock, bind_ok] at result
  obtain ⟨final, ran, result⟩ := result
  have owned := run_induction (fun _ state => Owned known state) ran
    (by simp [Owned, idle])
    (by
      intro past tx future state next split owned stepped
      exact owned.parseTx holds (by simp [← split]) stepped)
  split at result
  · cases result
  · cases result
    exact owned

end Parsing

section Processing

variable {env : Env} {cache : TokenCache} {holders : Holders} {done : Processing}
  {known : FullHash → Prop}

/-- All the owners that a state of the loop over the actions names. -/
structure Naming (known : FullHash → Prop) (state : Processing) : Prop where
  valid : ∀ location transfer, state.cache.validTransfers.get location = some transfer →
    known transfer.1
  events : ∀ event ∈ state.history, known event.recipient ∧ ∀ sender ∈ event.sender, known sender

theorem Naming.step {state next : Processing} {action : TokenAction} (naming : Naming known state)
    (gains : known action.owner) (stepped : state.step env action = .ok next) :
    Naming known next := by
  obtain ⟨done, turn, rfl⟩ := step_turn stepped
  have silent : ∀ event ∈ state.history ++ [],
      known event.recipient ∧ ∀ sender ∈ event.sender, known sender := by
    rw [List.append_nil]
    exact naming.events
  have told : ∀ event : HistoryTokenAction, known event.recipient →
      (∀ sender ∈ event.sender, known sender) → ∀ other ∈ state.history ++ [event],
        known other.recipient ∧ ∀ sender ∈ other.sender, known sender := by
    intro event recipient sender other listed
    rcases List.mem_append.mp listed with old | new
    · exact naming.events other old
    · rw [List.mem_singleton.mp new]
      exact ⟨recipient, sender⟩
  have removed : ∀ place location transfer,
      (state.cache.validTransfers.remove place).get location = some transfer → known transfer.1 := by
    intro place location transfer found
    exact naming.valid location transfer (Table.get_of_remove found)
  cases turn with
  | redeployed | mintSkipped | transferStale | transferSkipped | transferredStale =>
      exact { valid := naming.valid, events := silent }
  | deployed | minted =>
      refine { valid := naming.valid, events := told _ gains ?_ }
      intro _ impossible
      cases impossible
  | @transferAccepted place owner =>
      refine { valid := ?_, events := told _ gains (by intro _ impossible; cases impossible) }
      intro location transfer found
      rw [Table.get_set] at found
      split at found
      · cases found
        exact gains
      · exact naming.valid location transfer found
  | burned valid | sent valid =>
      refine { valid := removed _, events := told _ gains ?_ }
      rintro _ ⟨⟩
      exact naming.valid _ _ valid

theorem processing_named (returned : processTokenActions env cache holders = .ok done)
    (valid : ∀ location transfer, cache.validTransfers.get location = some transfer →
      known transfer.1)
    (owned : ∀ action ∈ cache.tokenActions, known action.owner) : Naming known done := by
  refine run_induction (fun _ state => Naming known state) returned
    { valid := valid, events := by simp } ?_
  intro past action future state next split naming stepped
  exact naming.step (owned action (by simp [← split])) stepped

theorem historyEntries_named {events : List HistoryTokenAction}
    (named : ∀ event ∈ events, known event.recipient ∧ ∀ sender ∈ event.sender, known sender)
    (height last : Nat) :
    ∀ entry ∈ historyEntries height last events,
      known entry.1.address ∧ ∀ other ∈ entry.2.action.address, known other := by
  induction events generalizing last with
  | nil => simp [historyEntries]
  | cons event rest ih =>
      obtain ⟨⟨recipient, sender⟩, later⟩ := List.forall_mem_cons.mp named
      cases event with
      | deploy | mint | deployTransfer =>
          refine List.forall_mem_cons.mpr ⟨⟨recipient, ?_⟩, ih later _⟩
          intro _ impossible
          cases impossible
      | send tick amt gainer loser txid vout =>
          by_cases same : loser = gainer
          · simp only [historyEntries, TokenHistoryDB.fromTokenHistory, same, if_true]
            refine List.forall_mem_cons.mpr ⟨⟨recipient, ?_⟩, ih later _⟩
            intro _ impossible
            cases impossible
          · simp only [historyEntries, TokenHistoryDB.fromTokenHistory, same, if_false]
            refine List.forall_mem_cons.mpr ⟨⟨sender loser rfl, ?_⟩,
              List.forall_mem_cons.mpr ⟨⟨recipient, ?_⟩, ih later _⟩⟩
            · rintro _ ⟨⟩
              exact recipient
            · rintro _ ⟨⟩
              exact sender loser rfl

end Processing

end WjkIndexer
