import WjkIndexer.Chain.Valid
import WjkIndexer.Inscriptions.Parser
import WjkIndexer.Tokens.Feed

/-!
What parsing a block leaves: a cache fed by the block, and offsets and partial
inscriptions at the outputs of the block or at outpoints that were loaded.
-/

namespace WjkIndexer

open FiniteTable

theorem get_insertOffset (offsets : Table OutPoint (Finset Nat)) (location : Location)
    (outpoint : OutPoint) :
    (insertOffset offsets location).get outpoint =
      if outpoint = location.outpoint then
        some (insert location.offset ((offsets.get outpoint).getD ∅))
      else offsets.get outpoint := by
  rw [insertOffset, Table.get_set]
  split
  · rename_i same
    rw [same]
  · rfl

/-- A state in the middle of parsing a block with the transaction ids `txids`. -/
structure Parsing (env : Env) (txids : Finset Txid) (start state : ParseState) : Prop where
  feed : TokenCache.Feed env txids start.cache state.cache
  offsets : ∀ outpoint, outpoint ∈ state.offsets.keys →
    outpoint.txid ∈ txids ∨ outpoint ∈ start.offsets.keys
  partials : ∀ outpoint, outpoint ∈ state.partials.keys →
    outpoint.txid ∈ txids ∨ outpoint ∈ start.partials.keys
  leaked : ∀ leaked, state.leaked = some leaked → leaked.coinbaseTx.hash ∈ txids

namespace Parsing

variable {env : Env} {txids : Finset Txid} {start state : ParseState} {context : TxContext}

theorem insert_own {offsets : Table OutPoint (Finset Nat)} {location : Location}
    (known : ∀ outpoint, outpoint ∈ offsets.keys →
      outpoint.txid ∈ txids ∨ outpoint ∈ start.offsets.keys)
    (own : location.outpoint.txid ∈ txids) (outpoint : OutPoint)
    (member : outpoint ∈ (insertOffset offsets location).keys) :
    outpoint.txid ∈ txids ∨ outpoint ∈ start.offsets.keys := by
  rw [insertOffset, Table.keys_set, Finset.mem_insert] at member
  rcases member with rfl | member
  · exact Or.inl own
  · exact known outpoint member

theorem mem_keys_remove {V : Type} {table : Table OutPoint V} {removed outpoint : OutPoint}
    (member : outpoint ∈ (table.remove removed).keys) : outpoint ∈ table.keys := by
  rw [Table.mem_keys_iff] at member ⊢
  obtain ⟨value, found⟩ := member
  rw [Table.get_remove] at found
  split at found
  · cases found
  · exact ⟨value, found⟩

theorem moveInscription (parsing : Parsing env txids start state)
    (own : context.tx.hash ∈ txids) (inputIndex : Nat) (txin : TxInput) (offset : Nat) :
    Parsing env txids start
      (Parser.moveInscription env context inputIndex txin state offset) := by
  unfold Parser.moveInscription
  dsimp only
  split
  · refine { parsing with feed := ?_, offsets := insert_own parsing.offsets own }
    dsimp only
    split
    · rename_i known
      split
      · exact .move parsing.feed _ _ _ _ known
      · exact .move parsing.feed _ _ _ _ known
    · exact parsing.feed
  · refine { parsing with feed := ?_, leaked := ?_ }
    · dsimp only
      split
      · rename_i known
        exact .move parsing.feed _ _ _ _ known
      · exact parsing.feed
    · intro leaked found
      simp only [Option.map_eq_some_iff] at found
      obtain ⟨before, present, rfl⟩ := found
      exact parsing.leaked before present

theorem moveInscriptions (parsing : Parsing env txids start state)
    (own : context.tx.hash ∈ txids) (inputIndex : Nat) (txin : TxInput) :
    Parsing env txids start (Parser.moveInscriptions env context inputIndex txin state) := by
  unfold Parser.moveInscriptions
  split
  · exact parsing
  · refine List.foldlRecOn _ _ { parsing with offsets := ?_ } ?_
    · exact fun outpoint member => parsing.offsets outpoint (mem_keys_remove member)
    · exact fun state parsing offset _ => parsing.moveInscription own inputIndex txin offset

theorem convertToTemplate_spec {inputIndex : Nat} {genesisTxid : Txid} {inscription : Inscription}
    {template : InscriptionTemplate}
    (converted : Parser.convertToTemplate env context inputIndex genesisTxid inscription =
      some template) :
    template.location.outpoint.txid = context.tx.hash ∧
      (∃ output, context.tx.outputs[template.location.outpoint.vout]? = some output ∧
        template.location.offset < output.value ∧
        template.owner = (if env.isOpReturn output.scriptPubkey then env.opReturnHash
          else env.computeScriptHash output.scriptPubkey)) ∧
      template.leaked = false := by
  unfold Parser.convertToTemplate at converted
  dsimp only at converted
  split at converted
  · cases converted
  · rename_i start placed
    simp only [Option.some.injEq] at converted
    subst converted
    refine ⟨rfl, ?_, rfl⟩
    cases pointed : InscriptionSearcher.getOutputIndexByInput inscription.pointerValue
        context.tx.outputs with
    | none =>
        obtain ⟨output, present, inside⟩ := InscriptionSearcher.getOutputIndexByInput_spec placed
        exact ⟨output, present, inside, by simp [Tx.scriptAt, present]⟩
    | some target =>
        obtain ⟨output, present, inside⟩ := InscriptionSearcher.getOutputIndexByInput_spec pointed
        exact ⟨output, present, inside, by simp [Tx.scriptAt, present]⟩

theorem createInscription (parsing : Parsing env txids start state)
    {template : InscriptionTemplate} (own : template.location.outpoint.txid ∈ txids) :
    Parsing env txids start (Parser.createInscription env context state template) := by
  have fed : ∀ skipped : Bool, TokenCache.Feed env txids start.cache
      (if skipped then state.cache
        else state.cache.parseTokenAction env template context.height context.created) := by
    intro skipped
    cases skipped with
    | true => exact parsing.feed
    | false => exact .inscribe parsing.feed template _ _ own
  unfold Parser.createInscription
  exact { parsing with feed := fed _, offsets := insert_own parsing.offsets own }

theorem mem_numberTemplates {templates : List InscriptionTemplate} {index : Nat}
    {template : InscriptionTemplate} (listed : template ∈ Parser.numberTemplates index templates) :
    ∃ original ∈ templates, template.location = original.location ∧
      template.owner = original.owner ∧ template.leaked = original.leaked := by
  induction templates generalizing index with
  | nil => cases listed
  | cons first rest ih =>
      rw [Parser.numberTemplates, List.mem_cons] at listed
      rcases listed with rfl | later
      · exact ⟨first, List.mem_cons_self, rfl, rfl, rfl⟩
      · obtain ⟨original, member, same⟩ := ih later
        exact ⟨original, List.mem_cons_of_mem _ member, same⟩

theorem createInscriptions (parsing : Parsing env txids start state) {genesisTxid : Txid}
    {templates : List InscriptionTemplate}
    (own : ∀ template ∈ templates, template.location.outpoint.txid ∈ txids) :
    Parsing env txids start
      (Parser.createInscriptions env context genesisTxid templates state) := by
  unfold Parser.createInscriptions
  split
  · refine List.foldlRecOn _ _ { parsing with } ?_
    intro state parsing template listed
    obtain ⟨original, member, samePlace, _⟩ := mem_numberTemplates listed
    refine parsing.createInscription ?_
    rw [samePlace]
    exact own original member
  · refine List.foldlRecOn _ _ parsing ?_
    exact fun state parsing template listed => parsing.createInscription (own template listed)

theorem leakCreation_own {inputIndex : Nat} {leaked after : Option LeakedInscriptions}
    (own : ∀ before, leaked = some before → before.coinbaseTx.hash ∈ txids)
    {template : Option InscriptionTemplate}
    (leaking : Parser.leakCreation context inputIndex leaked template = after) :
    ∀ final, after = some final → final.coinbaseTx.hash ∈ txids := by
  intro final same
  cases template with
  | some template =>
      rw [same] at leaking
      exact own final leaking
  | none =>
      rw [same, Parser.leakCreation, Option.map_eq_some_iff] at leaking
      obtain ⟨before, present, rfl⟩ := leaking
      exact own before present

theorem parseCreation (parsing : Parsing env txids start state) (own : context.tx.hash ∈ txids)
    (inputIndex : Nat) (txin : TxInput) :
    Parsing env txids start (Parser.parseCreation env context inputIndex txin state) := by
  have dropped : ∀ outpoint, outpoint ∈ (state.partials.remove txin.outpoint).keys →
      outpoint.txid ∈ txids ∨ outpoint ∈ start.partials.keys :=
    fun outpoint member => parsing.partials outpoint (mem_keys_remove member)
  unfold Parser.parseCreation
  dsimp only
  split
  · exact { parsing with partials := dropped }
  · refine { parsing with partials := ?_ }
    intro outpoint member
    dsimp only at member
    split at member
    · rw [Table.keys_set, Finset.mem_insert] at member
      rcases member with rfl | member
      · exact Or.inl own
      · exact dropped outpoint member
    · exact dropped outpoint member
  · refine Parsing.createInscriptions ?_ ?_
    · exact { parsing with partials := dropped, leaked := leakCreation_own parsing.leaked rfl }
    · intro template listed
      rw [Option.mem_toList] at listed
      rw [(convertToTemplate_spec listed).1]
      exact own
  · refine Parsing.createInscriptions ?_ ?_
    · refine { parsing with partials := dropped, leaked := ?_ }
      refine List.foldlRecOn
        (motive := fun leaked : Option LeakedInscriptions =>
          ∀ final, leaked = some final → final.coinbaseTx.hash ∈ txids) _ _ parsing.leaked ?_
      exact fun leaked known template _ => leakCreation_own known rfl
    · intro template listed
      simp only [List.mem_filterMap, List.mem_map, id_eq] at listed
      obtain ⟨_, ⟨inscription, _, rfl⟩, converted⟩ := listed
      rw [(convertToTemplate_spec converted).1]
      exact own

theorem parseInput (parsing : Parsing env txids start state) (own : context.tx.hash ∈ txids)
    (input : TxInput × Nat) :
    Parsing env txids start (Parser.parseInput env context state input) := by
  have moved := parsing.moveInscriptions own input.2 input.1
  unfold Parser.parseInput
  dsimp only
  split
  · exact moved.parseCreation own input.2 input.1
  · exact moved

theorem parseTx (parsing : Parsing env txids start state) {prevouts : Table OutPoint TxPrevout}
    {height created : Nat} {tx : Tx} (own : tx.hash ∈ txids) {next : ParseState}
    (parsed : Parser.parseTx env prevouts height created state tx = .ok next) :
    Parsing env txids start next := by
  unfold Parser.parseTx at parsed
  split at parsed
  · cases parsed
    refine { parsing with leaked := ?_ }
    intro leaked same
    cases same
    exact own
  split at parsed
  · cases parsed
  rename_i leaked present
  simp only [Machine.bind_ok] at parsed
  obtain ⟨charged, added, result⟩ := parsed
  cases result
  refine List.foldlRecOn _ _ { parsing with leaked := ?_ } ?_
  · intro after same
    cases same
    unfold LeakedInscriptions.addTxFee at added
    split at added
    · cases added
      exact parsing.leaked leaked present
    · cases added
  · intro state parsing input _
    exact parsing.parseInput own input

end Parsing

theorem Parser.createInscriptions_eq {env : Env} {context : TxContext} (genesisTxid : Txid)
    (templates : List InscriptionTemplate) (state : ParseState) :
    Parser.createInscriptions env context genesisTxid templates state =
      (if genesisTxid = context.tx.hash then Parser.numberTemplates state.indexInTx templates
        else templates).foldl (Parser.createInscription env context)
        { state with
          indexInTx := if genesisTxid = context.tx.hash then state.indexInTx + templates.length
            else state.indexInTx } := by
  unfold Parser.createInscriptions
  split <;> rfl

theorem moveInscriptions_partials (env : Env) (context : TxContext) (inputIndex : Nat)
    (txin : TxInput) (state : ParseState) :
    (Parser.moveInscriptions env context inputIndex txin state).partials = state.partials ∧
      (Parser.moveInscriptions env context inputIndex txin state).indexInTx =
        state.indexInTx := by
  have one : ∀ (state : ParseState) (offset : Nat),
      (Parser.moveInscription env context inputIndex txin state offset).partials =
          state.partials ∧
        (Parser.moveInscription env context inputIndex txin state offset).indexInTx =
          state.indexInTx := by
    intro state offset
    unfold Parser.moveInscription
    dsimp only
    split
    · exact ⟨rfl, rfl⟩
    · exact ⟨rfl, rfl⟩
  unfold Parser.moveInscriptions
  split
  · exact ⟨rfl, rfl⟩
  · refine List.foldlRecOn
      (motive := fun moved : ParseState => moved.partials = state.partials ∧
        moved.indexInTx = state.indexInTx) _ _ ⟨rfl, rfl⟩ ?_
    intro moved kept offset _
    obtain ⟨partials, index⟩ := one moved offset
    exact ⟨partials.trans kept.1, index.trans kept.2⟩

theorem parseBlock_fault {env : Env} {db : DB} {height : Nat} {block : Block}
    {prevouts : Table OutPoint TxPrevout} {cache : TokenCache} {fault : Fault}
    (failed : Parser.parseBlock env db height block prevouts cache = .error fault) :
    fault = .coinbaseMissing ∨ fault = .prevoutMissing := by
  unfold Parser.parseBlock at failed
  dsimp only at failed
  cases ran : block.txs.foldlM (Parser.parseTx env prevouts height block.header.timestamp)
      { offsets := db.outpointToInscriptionOffsets.restrict prevouts.keys
        partials := db.outpointToPartials.restrict prevouts.keys
        cache } with
  | ok state =>
      rw [ran] at failed
      simp only [bind, Except.bind] at failed
      split at failed
      · cases failed
        exact Or.inl rfl
      · cases failed
  | error reason =>
      rw [ran] at failed
      cases failed
      obtain ⟨_, tx, _, state, _, _, stopped⟩ :=
        Machine.run_error (fun _ _ => True) ran trivial (fun _ _ _ _ _ _ _ _ => trivial)
      unfold Parser.parseTx at stopped
      split at stopped
      · cases stopped
      split at stopped
      · cases stopped
        exact Or.inl rfl
      unfold LeakedInscriptions.addTxFee at stopped
      split at stopped
      · cases stopped
      · cases stopped
        exact Or.inr rfl

/-- What a parsed block hands on. -/
structure ParsedSpec (env : Env) (db : DB) (block : Block) (prevouts : Table OutPoint TxPrevout)
    (cache : TokenCache) (parsed : Parser.Parsed) : Prop where
  feed : TokenCache.Feed env block.txids cache parsed.cache
  partialsToRemove : parsed.partialsToRemove = db.outpointToPartials.restrict prevouts.keys
  offsetsToRemove :
    parsed.offsetsToRemove = db.outpointToInscriptionOffsets.restrict prevouts.keys
  partialsToWrite : ∀ outpoint ∈ parsed.partialsToWrite.keys,
    outpoint.txid ∈ block.txids ∨ outpoint ∈ parsed.partialsToRemove.keys
  offsetsToWrite : ∀ outpoint ∈ parsed.offsetsToWrite.keys,
    outpoint.txid ∈ block.txids ∨ outpoint ∈ parsed.offsetsToRemove.keys

theorem parseBlock_spec {env : Env} {db : DB} {height : Nat} {block : Block}
    {prevouts : Table OutPoint TxPrevout} {cache : TokenCache} {parsed : Parser.Parsed}
    (result : Parser.parseBlock env db height block prevouts cache = .ok parsed) :
    ParsedSpec env db block prevouts cache parsed := by
  simp only [Parser.parseBlock, Machine.bind_ok] at result
  obtain ⟨final, ran, result⟩ := result
  have parsing := Machine.run_induction
    (fun _ state => Parsing env block.txids
      { offsets := db.outpointToInscriptionOffsets.restrict prevouts.keys
        partials := db.outpointToPartials.restrict prevouts.keys
        cache } state) ran
    { feed := .start
      offsets := fun _ member => Or.inr member
      partials := fun _ member => Or.inr member
      leaked := fun _ impossible => nomatch impossible }
    (by
      intro past tx future state next split parsing stepped
      exact parsing.parseTx (mem_txids (by simp [← split])) stepped)
  split at result
  · cases result
  · rename_i leaked present
    cases result
    refine {
      feed := parsing.feed
      partialsToRemove := rfl
      offsetsToRemove := rfl
      partialsToWrite := parsing.partials
      offsetsToWrite := ?_ }
    intro outpoint member
    obtain ⟨value, found⟩ := Table.mem_keys_iff.mp member
    rw [Table.get_collect] at found
    split at found
    · rename_i known
      rw [Finset.mem_union, Finset.mem_image] at known
      rcases known with known | ⟨location, leakedTo, rfl⟩
      · exact parsing.offsets outpoint known
      · simp only [LeakedInscriptions.getLeakedInscriptions, Finset.mem_biUnion,
          Option.mem_toFinset, Option.mem_def, Option.map_eq_some_iff] at leakedTo
        obtain ⟨_, _, _, _, rfl⟩ := leakedTo
        exact Or.inl (parsing.leaked leaked present)
    · cases found

end WjkIndexer
