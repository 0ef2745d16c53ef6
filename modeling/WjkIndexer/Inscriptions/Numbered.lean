import WjkIndexer.Chain.Spent
import WjkIndexer.Inscriptions.Parsed

/-!
Inscription ids: which inscriptions begin in an input and the ids they are given there,
and the ids they carry when they are completed, in the same transaction or from stored
parts in a later one.
-/

namespace WjkIndexer

open FiniteTable

def Partials.id (stored : Partials) : InscriptionId := ⟨stored.genesisTxid, stored.inscriptionIndex⟩

structure Beginning where
  id : InscriptionId
  part : Part
  deriving DecidableEq, Repr

/-- An inscription that is completed, with the id it was given where it began and the parts
that were stored before. -/
structure Completion where
  given : InscriptionId
  stored : Option Partials
  template : InscriptionTemplate
  deriving DecidableEq, Repr

structure Trace where
  begun : List Beginning := []
  completed : List Completion := []
  deriving DecidableEq, Repr

namespace Trace

def append (trace more : Trace) : Trace where
  begun := trace.begun ++ more.begun
  completed := trace.completed ++ more.completed

def indices (trace : Trace) (txid : Txid) : List Nat :=
  (trace.begun.filter fun beginning => beginning.id.txid = txid).map fun beginning =>
    beginning.id.index

end Trace

namespace Parser

variable (env : Env) (context : TxContext)

def templatesOf (convert : Inscription → Option InscriptionTemplate) :
    ParsedInscription → List InscriptionTemplate
  | .none | .partialInscription => []
  | .single inscription => (convert inscription).toList
  | .many inscriptions => (inscriptions.map convert).filterMap id

def completedTemplates (inputIndex : Nat) (txin : TxInput) (state : ParseState) :
    List InscriptionTemplate :=
  let stored := (state.partials.get txin.outpoint).getD {
    genesisTxid := context.tx.hash
    inscriptionIndex := 0
    parts := [] }
  let templates := templatesOf (convertToTemplate env context inputIndex stored.genesisTxid)
    (Inscription.fromParts env (stored.parts ++ [partOf env txin]) inputIndex)
  if stored.genesisTxid = context.tx.hash then numberTemplates state.indexInTx templates
  else templates

def inputTrace (inputIndex : Nat) (txin : TxInput) (state : ParseState) : Trace :=
  let templates := completedTemplates env context inputIndex txin state
  let part := partOf env txin
  match state.partials.get txin.outpoint with
  | some stored =>
      { completed := templates.map fun template => ⟨stored.id, some stored, template⟩ }
  | none =>
      let completed := (templates.zipIdx state.indexInTx).map fun (template, index) =>
        (⟨⟨context.tx.hash, index⟩, none, template⟩ : Completion)
      { begun :=
          match Inscription.fromParts env [part] inputIndex with
          | .partialInscription => [⟨⟨context.tx.hash, state.indexInTx⟩, part⟩]
          | _ => completed.map fun completion => ⟨completion.given, part⟩
        completed }

def traceInput (traced : ParseState × Trace) (input : TxInput × Nat) : ParseState × Trace :=
  let (txin, inputIndex) := input
  let moved := moveInscriptions env context inputIndex txin traced.1
  (parseInput env context traced.1 input,
    if env.jubileeHeight ≤ context.height ∨ inputIndex = 0 then
      traced.2.append (inputTrace env context inputIndex txin moved)
    else traced.2)

def traceTx (prevouts : Table OutPoint TxPrevout) (height created : Nat)
    (traced : ParseState × Trace) (tx : Tx) : Except Fault (ParseState × Trace) :=
  if tx.isCoinbase then .ok ({ traced.1 with leaked := some { coinbaseTx := tx } }, traced.2)
  else
    match traced.1.leaked with
    | none => .error .coinbaseMissing
    | some leaked => do
        let leaked ← leaked.addTxFee tx prevouts
        let inputsCum := InscriptionSearcher.calcOffsets tx prevouts
        .ok (tx.inputs.zipIdx.foldl
          (traceInput env { prevouts, tx, inputsCum, height, created })
          ({ traced.1 with leaked := some leaked, indexInTx := 0 }, traced.2))

def traceBlock (db : DB) (height : Nat) (block : Block) (prevouts : Table OutPoint TxPrevout)
    (cache : TokenCache) (trace : Trace) : Except Fault (ParseState × Trace) :=
  block.txs.foldlM (traceTx env prevouts height block.header.timestamp)
    ({ offsets := db.outpointToInscriptionOffsets.restrict prevouts.keys
       partials := db.outpointToPartials.restrict prevouts.keys
       cache }, trace)

variable {env context}

theorem inputTrace_templates (inputIndex : Nat) (txin : TxInput) (state : ParseState) :
    (inputTrace env context inputIndex txin state).completed.map Completion.template =
      completedTemplates env context inputIndex txin state := by
  unfold inputTrace
  dsimp only
  split
  · rw [List.map_map]
    exact List.map_id _
  · rw [List.map_map]
    exact List.zipIdx_map_fst _ _

/-- What the trace completes at an input is what the parser creates there, in this order. -/
theorem parseCreation_creates (inputIndex : Nat) (txin : TxInput) (state : ParseState) :
    ∃ before : ParseState, before.cache = state.cache ∧ before.offsets = state.offsets ∧
      parseCreation env context inputIndex txin state =
        ((inputTrace env context inputIndex txin state).completed.map
          Completion.template).foldl (createInscription env context) before := by
  rw [inputTrace_templates]
  unfold parseCreation completedTemplates
  dsimp only
  split
  · rename_i found
    rw [found, templatesOf, numberTemplates, ite_self]
    refine ⟨_, ?_, ?_, rfl⟩ <;> rfl
  · rename_i found
    rw [found, templatesOf, numberTemplates, ite_self]
    refine ⟨_, ?_, ?_, rfl⟩ <;> rfl
  · rename_i inscription found
    rw [found, createInscriptions_eq, templatesOf]
    refine ⟨_, ?_, ?_, rfl⟩ <;> rfl
  · rename_i inscriptions found
    rw [found, createInscriptions_eq, templatesOf]
    refine ⟨_, ?_, ?_, rfl⟩ <;> rfl

/-! The trace follows the parser and does not change it. -/

theorem traceInputs_fst (inputs : List (TxInput × Nat)) (traced : ParseState × Trace) :
    (inputs.foldl (traceInput env context) traced).1 =
      inputs.foldl (parseInput env context) traced.1 := by
  induction inputs generalizing traced with
  | nil => rfl
  | cons input rest ih => exact ih (traceInput env context traced input)

theorem traceTx_fst {prevouts : Table OutPoint TxPrevout} {height created : Nat}
    {traced : ParseState × Trace} {tx : Tx} {next : ParseState} :
    parseTx env prevouts height created traced.1 tx = .ok next ↔
      ∃ trace, traceTx env prevouts height created traced tx = .ok (next, trace) := by
  unfold parseTx traceTx
  split
  · constructor
    · intro parsed
      cases parsed
      exact ⟨_, rfl⟩
    · rintro ⟨trace, parsed⟩
      cases parsed
      rfl
  cases traced.1.leaked with
  | none => simp
  | some leaked =>
    simp only [Machine.bind_ok]
    constructor
    · rintro ⟨charged, added, parsed⟩
      cases parsed
      exact ⟨_, charged, added, congrArg Except.ok (Prod.ext (traceInputs_fst _ _) rfl)⟩
    · rintro ⟨trace, charged, added, parsed⟩
      refine ⟨charged, added, ?_⟩
      rw [← traceInputs_fst _ (_, traced.2), Except.ok.inj parsed]

theorem traceBlock_fst {db : DB} {height : Nat} {block : Block}
    {prevouts : Table OutPoint TxPrevout} {cache : TokenCache} {parsed : Parsed}
    (result : parseBlock env db height block prevouts cache = .ok parsed) (start : Trace) :
    ∃ state trace, traceBlock env db height block prevouts cache start = .ok (state, trace) ∧
      parsed.partialsToWrite = state.partials := by
  simp only [parseBlock, Machine.bind_ok] at result
  obtain ⟨final, ran, result⟩ := result
  have traced : ∀ (txs : List Tx) (start : ParseState × Trace),
      txs.foldlM (parseTx env prevouts height block.header.timestamp) start.1 = .ok final →
      ∃ trace, txs.foldlM (traceTx env prevouts height block.header.timestamp) start =
        .ok (final, trace) := by
    intro txs
    induction txs with
    | nil =>
        intro start same
        cases same
        exact ⟨_, rfl⟩
    | cons tx rest ih =>
        intro start ran
        obtain ⟨next, stepped, later⟩ := Machine.run_cons_ok.mp ran
        obtain ⟨trace, first⟩ := traceTx_fst.mp stepped
        obtain ⟨whole, others⟩ := ih (next, trace) later
        exact ⟨whole, Machine.run_cons_ok.mpr ⟨_, first, others⟩⟩
  obtain ⟨trace, whole⟩ := traced block.txs (_, start) ran
  refine ⟨final, trace, whole, ?_⟩
  split at result
  · cases result
  · cases result
    rfl

end Parser

def Completion.Carries (completion : Completion) : Prop :=
  match completion.stored with
  | none => completion.template.genesis = completion.given
  | some stored => completion.given = stored.id ∧
      completion.template.genesis = ⟨stored.genesisTxid, 0⟩

def Trace.Began (trace : Trace) (id : InscriptionId) (stored : Option Partials) : Prop :=
  ∃ beginning ∈ trace.begun, beginning.id = id ∧
    ∀ parts ∈ stored, parts.parts.head? = some beginning.part

/-- Ids between transactions. `pending` holds the inscriptions that are stored in parts. -/
structure Numbered (used : Finset Txid) (pending : Table OutPoint Partials) (trace : Trace) :
    Prop where
  known : ∀ beginning ∈ trace.begun, beginning.id.txid ∈ used
  counted : ∀ txid, ∃ count, trace.indices txid = List.range count
  began : ∀ completion ∈ trace.completed, trace.Began completion.given completion.stored
  carries : ∀ completion ∈ trace.completed, completion.Carries
  once : (trace.completed.map Completion.given).Nodup
  partials : ∀ outpoint stored, pending.get outpoint = some stored →
    trace.Began stored.id (some stored) ∧ stored.id ∉ trace.completed.map Completion.given
  apart : ∀ first second one other, pending.get first = some one →
    pending.get second = some other → one.id = other.id → first = second

/-- Ids while a transaction is parsed that has counted up to `index`. -/
structure Numbering (txid : Txid) (index : Nat) (used : Finset Txid)
    (pending : Table OutPoint Partials) (trace : Trace) : Prop extends
    Numbered used pending trace where
  listed : txid ∈ used
  current : trace.indices txid = List.range index
  own : ∀ outpoint stored, pending.get outpoint = some stored → stored.genesisTxid = txid →
    outpoint.txid = txid

namespace Trace

variable {trace : Trace}

@[simp] theorem append_begun (more : Trace) :
    (trace.append more).begun = trace.begun ++ more.begun := rfl

@[simp] theorem append_completed (more : Trace) :
    (trace.append more).completed = trace.completed ++ more.completed := rfl

@[simp] theorem append_empty : trace.append {} = trace := by
  simp [append]

theorem indices_append (more : Trace) (txid : Txid) :
    (trace.append more).indices txid = trace.indices txid ++ more.indices txid := by
  simp [indices]

theorem mem_indices {id : InscriptionId} :
    id.index ∈ trace.indices id.txid ↔ id ∈ trace.begun.map Beginning.id := by
  simp only [indices, List.mem_map, List.mem_filter, decide_eq_true_eq]
  constructor
  · obtain ⟨txid, index⟩ := id
    rintro ⟨beginning, ⟨member, rfl⟩, rfl⟩
    exact ⟨beginning, member, rfl⟩
  · rintro ⟨beginning, member, rfl⟩
    exact ⟨beginning, ⟨member, rfl⟩, rfl⟩

theorem Began.mem {id : InscriptionId} {stored : Option Partials} (began : trace.Began id stored) :
    id ∈ trace.begun.map Beginning.id := by
  obtain ⟨beginning, member, rfl, _⟩ := began
  exact List.mem_map_of_mem member

theorem Began.append {id : InscriptionId} {stored : Option Partials}
    (began : trace.Began id stored) (more : Trace) : (trace.append more).Began id stored := by
  obtain ⟨beginning, member, same⟩ := began
  exact ⟨beginning, List.mem_append_left _ member, same⟩

end Trace

def beginnings (txid : Txid) (index count : Nat) (part : Part) : List Beginning :=
  (List.range' index count).map fun place => ⟨⟨txid, place⟩, part⟩

namespace Numbering

variable {txid : Txid} {index : Nat} {used : Finset Txid} {pending : Table OutPoint Partials}
  {trace : Trace}

theorem unused (numbering : Numbering txid index used pending trace) {later : Nat}
    (after : index ≤ later) : ⟨txid, later⟩ ∉ trace.begun.map Beginning.id := by
  rw [← Trace.mem_indices]
  dsimp only
  rw [numbering.current, List.mem_range]
  omega

theorem not_completed (numbering : Numbering txid index used pending trace) {later : Nat}
    (after : index ≤ later) : ⟨txid, later⟩ ∉ trace.completed.map Completion.given := by
  intro listed
  obtain ⟨completion, member, same⟩ := List.mem_map.mp listed
  exact numbering.unused after (same ▸ (numbering.began completion member).mem)

theorem not_pending (numbering : Numbering txid index used pending trace) {later : Nat}
    (after : index ≤ later) {outpoint : OutPoint} {stored : Partials}
    (present : pending.get outpoint = some stored) : stored.id ≠ ⟨txid, later⟩ :=
  fun same => numbering.unused after (same ▸ (numbering.partials outpoint stored present).1.mem)

theorem beginAll (numbering : Numbering txid index used pending trace) (count : Nat)
    (part : Part) :
    Numbering txid (index + count) used pending
      (trace.append { begun := beginnings txid index count part }) := by
  have indices : ∀ other, Trace.indices { begun := beginnings txid index count part } other =
      if txid = other then List.range' index count else [] := by
    intro other
    rw [Trace.indices, beginnings, List.filter_map, List.map_map]
    by_cases same : txid = other
    · simp [same, Function.comp_def]
    · simp [same, Function.comp_def]
  have current : (trace.append { begun := beginnings txid index count part }).indices txid =
      List.range (index + count) := by
    rw [Trace.indices_append, indices, if_pos rfl, numbering.current, List.range_eq_range',
      List.range_eq_range', ← List.range'_append_1, Nat.zero_add]
  refine {
    known := ?_
    counted := ?_
    began := ?_
    carries := ?_
    once := ?_
    partials := ?_
    apart := numbering.apart
    listed := numbering.listed
    current
    own := numbering.own }
  · intro beginning member
    rcases List.mem_append.mp member with old | new
    · exact numbering.known beginning old
    · obtain ⟨place, _, rfl⟩ := List.mem_map.mp new
      exact numbering.listed
  · intro other
    by_cases same : txid = other
    · subst same
      exact ⟨_, current⟩
    · rw [Trace.indices_append, indices, if_neg same, List.append_nil]
      exact numbering.counted other
  · intro completion member
    rw [Trace.append_completed, List.append_nil] at member
    exact (numbering.began completion member).append _
  · intro completion member
    rw [Trace.append_completed, List.append_nil] at member
    exact numbering.carries completion member
  · rw [Trace.append_completed, List.append_nil]
    exact numbering.once
  · intro outpoint stored present
    obtain ⟨began, uncompleted⟩ := numbering.partials outpoint stored present
    rw [Trace.append_completed, List.append_nil]
    exact ⟨began.append _, uncompleted⟩

theorem complete (numbering : Numbering txid index used pending trace) {more : List Completion}
    (began : ∀ completion ∈ more, trace.Began completion.given completion.stored)
    (carries : ∀ completion ∈ more, completion.Carries)
    (once : (more.map Completion.given).Nodup)
    (uncompleted : ∀ completion ∈ more, completion.given ∉ trace.completed.map Completion.given)
    (taken : ∀ completion ∈ more, ∀ outpoint stored, pending.get outpoint = some stored →
      stored.id ≠ completion.given) :
    Numbering txid index used pending (trace.append { completed := more }) := by
  refine {
    known := ?_
    counted := ?_
    began := ?_
    carries := ?_
    once := ?_
    partials := ?_
    apart := numbering.apart
    listed := numbering.listed
    current := ?_
    own := numbering.own }
  · intro beginning member
    rw [Trace.append_begun, List.append_nil] at member
    exact numbering.known beginning member
  · intro other
    rw [Trace.indices_append]
    simpa [Trace.indices] using numbering.counted other
  · intro completion member
    rcases List.mem_append.mp member with old | new
    · exact (numbering.began completion old).append _
    · exact (began completion new).append _
  · intro completion member
    rcases List.mem_append.mp member with old | new
    · exact numbering.carries completion old
    · exact carries completion new
  · rw [Trace.append_completed, List.map_append, List.nodup_append]
    refine ⟨numbering.once, once, ?_⟩
    rintro given old _ new rfl
    obtain ⟨completion, member, rfl⟩ := List.mem_map.mp new
    exact uncompleted completion member old
  · intro outpoint stored present
    obtain ⟨began, before⟩ := numbering.partials outpoint stored present
    refine ⟨began.append _, ?_⟩
    rw [Trace.append_completed, List.map_append, List.mem_append, not_or]
    refine ⟨before, ?_⟩
    intro now
    obtain ⟨completion, member, same⟩ := List.mem_map.mp now
    exact taken completion member outpoint stored present same.symm
  · rw [Trace.indices_append]
    simpa [Trace.indices] using numbering.current

theorem take (numbering : Numbering txid index used pending trace) (taken : OutPoint) :
    Numbering txid index used (pending.remove taken) trace := by
  have kept : ∀ outpoint stored, (pending.remove taken).get outpoint = some stored →
      pending.get outpoint = some stored := by
    intro outpoint stored present
    rw [Table.get_remove] at present
    split at present
    · cases present
    · exact present
  exact { numbering with
    partials := fun outpoint stored present =>
      numbering.partials outpoint stored (kept _ _ present)
    apart := fun first second one other here there =>
      numbering.apart first second one other (kept _ _ here) (kept _ _ there)
    own := fun outpoint stored present => numbering.own outpoint stored (kept _ _ present) }

theorem store (numbering : Numbering txid index used pending trace) (vout : Nat)
    {partials : Partials} (began : trace.Began partials.id (some partials))
    (uncompleted : partials.id ∉ trace.completed.map Completion.given)
    (alone : ∀ outpoint stored, pending.get outpoint = some stored → stored.id ≠ partials.id) :
    Numbering txid index used (pending.set ⟨txid, vout⟩ partials) trace := by
  refine { numbering with
    partials := ?_
    apart := ?_
    own := ?_ }
  · intro outpoint stored present
    rw [Table.get_set] at present
    split at present
    · cases present
      exact ⟨began, uncompleted⟩
    · exact numbering.partials outpoint stored present
  · intro first second one other here there same
    rw [Table.get_set] at here there
    split at here
    · split at there
      · rename_i left right
        rw [left, right]
      · cases here
        exact absurd same.symm (alone second other there)
    · split at there
      · cases there
        exact absurd same (alone first one here)
      · exact numbering.apart first second one other here there same
  · intro outpoint stored present genesis
    rw [Table.get_set] at present
    split at present
    · rename_i same
      rw [same]
    · exact numbering.own outpoint stored present genesis

end Numbering

/-! The inputs of a transaction. -/

theorem readScripts_ne_many {contentType : Bytes} {sigScripts : List Bytes} {npieces : Nat}
    {pushDatas : List Bytes} {body : Bytes} {inscriptions : List Inscription} :
    InscriptionParser.readScripts contentType sigScripts npieces pushDatas body ≠
      .many inscriptions := by
  induction sigScripts generalizing npieces pushDatas body with
  | nil =>
      unfold InscriptionParser.readScripts
      dsimp only
      split
      · simp
      · simp
  | cons sigScript rest ih =>
      unfold InscriptionParser.readScripts
      dsimp only
      split
      · simp
      split
      · split
        · exact ih
        · simp
      · simp

theorem parse_ne_many {sigScripts : List Bytes} {inscriptions : List Inscription} :
    InscriptionParser.parse sigScripts ≠ .many inscriptions := by
  unfold InscriptionParser.parse
  repeat' split
  all_goals first | exact readScripts_ne_many | simp

theorem fromParts_ne_many {env : Env} {parts : List Part} {part : Part} {vin : Nat}
    {inscriptions : List Inscription} (some : parts ≠ []) :
    Inscription.fromParts env (parts ++ [part]) vin ≠ .many inscriptions := by
  cases parts with
  | nil => exact absurd rfl some
  | cons first rest =>
      unfold Inscription.fromParts
      cases rest with
      | nil => exact parse_ne_many
      | cons second more => exact parse_ne_many

namespace Parser

variable {env : Env} {context : TxContext}

theorem convertToTemplate_genesis {inputIndex : Nat} {genesisTxid : Txid}
    {inscription : Inscription} {template : InscriptionTemplate}
    (converted : convertToTemplate env context inputIndex genesisTxid inscription =
      some template) : template.genesis = ⟨genesisTxid, 0⟩ := by
  unfold convertToTemplate at converted
  dsimp only at converted
  split at converted
  · cases converted
  · cases converted
    rfl

theorem templatesOf_genesis {inputIndex : Nat} {genesisTxid : Txid} (result : ParsedInscription)
    {template : InscriptionTemplate}
    (listed : template ∈ templatesOf (convertToTemplate env context inputIndex genesisTxid)
      result) : template.genesis = ⟨genesisTxid, 0⟩ := by
  cases result with
  | none => cases listed
  | partialInscription => cases listed
  | single inscription => exact convertToTemplate_genesis (Option.mem_toList.mp listed)
  | many inscriptions =>
      simp only [templatesOf, List.mem_filterMap, List.mem_map, id_eq] at listed
      obtain ⟨_, ⟨inscription, _, rfl⟩, converted⟩ := listed
      exact convertToTemplate_genesis converted

theorem numberTemplates_length (index : Nat) (templates : List InscriptionTemplate) :
    (numberTemplates index templates).length = templates.length := by
  induction templates generalizing index with
  | nil => rfl
  | cons template rest ih => rw [numberTemplates, List.length_cons, List.length_cons, ih]

theorem numberTemplates_genesis {templates : List InscriptionTemplate} {txid : Txid}
    (genesis : ∀ template ∈ templates, template.genesis.txid = txid) {start : Nat}
    {entry : InscriptionTemplate × Nat}
    (listed : entry ∈ (numberTemplates start templates).zipIdx start) :
    entry.1.genesis = ⟨txid, entry.2⟩ := by
  induction templates generalizing start with
  | nil => cases listed
  | cons template rest ih =>
      rw [numberTemplates, List.zipIdx_cons, List.mem_cons] at listed
      rcases listed with rfl | later
      · rw [← genesis template List.mem_cons_self]
      · exact ih (fun other member => genesis other (List.mem_cons_of_mem _ member)) later

theorem createInscriptions_partials (genesisTxid : Txid) (templates : List InscriptionTemplate)
    (state : ParseState) :
    (createInscriptions env context genesisTxid templates state).partials = state.partials := by
  have kept : ∀ (templates : List InscriptionTemplate) (state : ParseState),
      (templates.foldl (createInscription env context) state).partials = state.partials := by
    intro templates
    induction templates with
    | nil => exact fun state => rfl
    | cons template rest ih => exact fun state => ih _
  rw [createInscriptions_eq]
  exact kept _ _

theorem createInscriptions_index (genesisTxid : Txid) (templates : List InscriptionTemplate)
    (state : ParseState) :
    (createInscriptions env context genesisTxid templates state).indexInTx =
      if genesisTxid = context.tx.hash then state.indexInTx + templates.length
      else state.indexInTx := by
  have kept : ∀ (templates : List InscriptionTemplate) (state : ParseState),
      (templates.foldl (createInscription env context) state).indexInTx = state.indexInTx := by
    intro templates
    induction templates with
    | nil => exact fun state => rfl
    | cons template rest ih => exact fun state => ih _
  rw [createInscriptions_eq, kept]

end Parser

section Input

variable {env : Env} {context : TxContext} {used : Finset Txid} {base : Table OutPoint Partials}
  {state : ParseState} {trace : Trace} {inputIndex : Nat} {txin : TxInput}

theorem Numbering.completeNew {txid : Txid} {index : Nat} {pending : Table OutPoint Partials}
    (numbering : Numbering txid index used pending trace) (part : Part)
    {templates : List InscriptionTemplate}
    (genesis : ∀ template ∈ templates, template.genesis.txid = txid) :
    let completed := ((Parser.numberTemplates index templates).zipIdx index).map
      fun (template, index) => (⟨⟨txid, index⟩, none, template⟩ : Completion)
    Numbering txid (index + templates.length) used pending
      (trace.append ⟨completed.map fun completion => ⟨completion.given, part⟩, completed⟩) := by
  intro completed
  have given : completed.map Completion.given =
      (List.range' index templates.length).map fun place => ⟨txid, place⟩ := by
    have places := List.zipIdx_map_snd index (Parser.numberTemplates index templates)
    rw [Parser.numberTemplates_length] at places
    rw [← places, List.map_map, List.map_map]
    rfl
  have begun : (completed.map fun completion => (⟨completion.given, part⟩ : Beginning)) =
      beginnings txid index templates.length part := by
    have ids := congrArg (List.map fun id => (⟨id, part⟩ : Beginning)) given
    simpa only [List.map_map, Function.comp_def, beginnings] using ids
  have begins := numbering.beginAll templates.length part
  have fresh : ∀ completion ∈ completed, ∃ later, index ≤ later ∧
      completion.given = ⟨txid, later⟩ := by
    intro completion member
    have listed : completion.given ∈ completed.map Completion.given :=
      List.mem_map_of_mem member
    rw [given] at listed
    obtain ⟨place, inside, same⟩ := List.mem_map.mp listed
    exact ⟨place, (List.mem_range'_1.mp inside).1, same.symm⟩
  have after := @Numbering.complete _ _ _ _ _ begins completed ?began ?carries ?once ?pending ?taken
  · rw [begun]
    simpa [Trace.append] using after
  case began =>
    intro completion member
    refine ⟨⟨completion.given, part⟩, ?_, rfl, ?_⟩
    · rw [Trace.append_begun, ← begun]
      exact List.mem_append_right _ (List.mem_map_of_mem member)
    · obtain ⟨entry, _, rfl⟩ := List.mem_map.mp member
      intro parts impossible
      cases impossible
  case carries =>
    intro completion member
    obtain ⟨entry, listed, rfl⟩ := List.mem_map.mp member
    exact Parser.numberTemplates_genesis genesis listed
  case once =>
    rw [given]
    refine List.Nodup.map ?_ List.nodup_range'
    intro first second same
    exact congrArg InscriptionId.index same
  case pending =>
    intro completion member
    obtain ⟨later, after, same⟩ := fresh completion member
    rw [Trace.append_completed, List.append_nil, same]
    exact numbering.not_completed after
  case taken =>
    intro completion member outpoint stored present
    obtain ⟨later, after, same⟩ := fresh completion member
    rw [same]
    exact numbering.not_pending after present

theorem Numbering.completeStored {txid : Txid} {index : Nat}
    {pending : Table OutPoint Partials} {outpoint : OutPoint} {stored : Partials}
    (numbering : Numbering txid index used pending trace)
    (present : pending.get outpoint = some stored) {templates : List InscriptionTemplate}
    (single : templates.length ≤ 1)
    (genesis : ∀ template ∈ templates, template.genesis = ⟨stored.genesisTxid, 0⟩) :
    Numbering txid index used (pending.remove outpoint)
      (trace.append { completed := templates.map fun template =>
        ⟨stored.id, some stored, template⟩ }) := by
  obtain ⟨began, uncompleted⟩ := numbering.partials outpoint stored present
  refine (numbering.take outpoint).complete ?_ ?_ ?_ ?_ ?_
  · intro completion member
    obtain ⟨template, _, rfl⟩ := List.mem_map.mp member
    exact began
  · intro completion member
    obtain ⟨template, listed, rfl⟩ := List.mem_map.mp member
    exact ⟨rfl, genesis template listed⟩
  · cases templates with
    | nil => exact List.nodup_nil
    | cons template rest =>
        rw [List.length_cons] at single
        obtain rfl := List.length_eq_zero_iff.mp (by omega : rest.length = 0)
        exact List.nodup_singleton _
  · intro completion member
    obtain ⟨template, _, rfl⟩ := List.mem_map.mp member
    exact uncompleted
  · intro completion member other held found same
    obtain ⟨template, _, rfl⟩ := List.mem_map.mp member
    rw [Table.get_remove] at found
    split at found
    · cases found
    · rename_i different
      exact different (numbering.apart other outpoint held stored found present same)

theorem Numbering.storeNext {txid : Txid} {index : Nat}
    {pending : Table OutPoint Partials} {outpoint : OutPoint} {stored : Partials}
    (numbering : Numbering txid index used pending trace)
    (present : pending.get outpoint = some stored) (vout : Nat) (part : Part) :
    Numbering txid index used ((pending.remove outpoint).set ⟨txid, vout⟩
      { stored with parts := stored.parts ++ [part] }) trace := by
  obtain ⟨began, uncompleted⟩ := numbering.partials outpoint stored present
  refine (numbering.take outpoint).store vout ?_ uncompleted ?_
  · obtain ⟨beginning, member, same, first⟩ := began
    refine ⟨beginning, member, same, ?_⟩
    rintro parts ⟨⟩
    rw [List.head?_append, first stored rfl]
    rfl
  · intro other held found same
    rw [Table.get_remove] at found
    split at found
    · cases found
    · rename_i different
      exact different (numbering.apart other outpoint held stored found present same)

theorem Numbering.parseNew
    (numbering : Numbering context.tx.hash state.indexInTx used (base.extend state.partials) trace)
    (absent : base.get txin.outpoint = none) (new : state.partials.get txin.outpoint = none) :
    Numbering context.tx.hash
      (Parser.parseCreation env context inputIndex txin state).indexInTx used
      (base.extend (Parser.parseCreation env context inputIndex txin state).partials)
      (trace.append (Parser.inputTrace env context inputIndex txin state)) := by
  have taken := numbering.take txin.outpoint
  rw [← Table.extend_remove absent] at taken
  unfold Parser.parseCreation Parser.inputTrace Parser.completedTemplates
  rw [new]
  simp only [Option.getD_none, List.nil_append, if_true]
  cases found : Inscription.fromParts env [Parser.partOf env txin] inputIndex with
  | none => simpa [Parser.templatesOf, Parser.numberTemplates] using taken
  | partialInscription =>
      have begins := taken.beginAll 1 (Parser.partOf env txin)
      dsimp only
      split
      · rw [Table.extend_set]
        refine begins.store inputIndex ?_ ?_ ?_
        · exact ⟨_, List.mem_append_right _ List.mem_cons_self, rfl, fun parts same =>
            Option.some.inj same ▸ rfl⟩
        · rw [Trace.append_completed, List.append_nil]
          exact taken.not_completed le_rfl
        · exact fun outpoint stored present => taken.not_pending le_rfl present
      · exact begins
  | single inscription =>
      rw [Parser.createInscriptions_index, Parser.createInscriptions_partials, if_pos rfl]
      exact taken.completeNew _ fun template listed =>
        congrArg InscriptionId.txid (Parser.templatesOf_genesis (.single inscription) listed)
  | many inscriptions =>
      rw [Parser.createInscriptions_index, Parser.createInscriptions_partials, if_pos rfl]
      exact taken.completeNew _ fun template listed =>
        congrArg InscriptionId.txid (Parser.templatesOf_genesis (.many inscriptions) listed)

theorem Numbering.parseStored
    (numbering : Numbering context.tx.hash state.indexInTx used (base.extend state.partials) trace)
    (absent : base.get txin.outpoint = none) (older : txin.outpoint.txid ≠ context.tx.hash)
    {stored : Partials} (present : state.partials.get txin.outpoint = some stored) :
    Numbering context.tx.hash
      (Parser.parseCreation env context inputIndex txin state).indexInTx used
      (base.extend (Parser.parseCreation env context inputIndex txin state).partials)
      (trace.append (Parser.inputTrace env context inputIndex txin state)) := by
  have held : (base.extend state.partials).get txin.outpoint = some stored := by
    rw [Table.get_extend, present]
    rfl
  have foreign : stored.genesisTxid ≠ context.tx.hash :=
    fun same => older (numbering.own _ _ held same)
  have several : stored.parts ≠ [] := by
    obtain ⟨beginning, _, _, first⟩ := (numbering.partials _ _ held).1
    intro none
    have head := first stored rfl
    rw [none] at head
    cases head
  have taken := numbering.take txin.outpoint
  have next := @Numbering.completeStored _ _ _ _ _ _ _ numbering held
  have kept := numbering.storeNext held inputIndex (Parser.partOf env txin)
  rw [← Table.extend_remove absent] at taken kept
  simp only [← Table.extend_remove absent] at next
  unfold Parser.parseCreation Parser.inputTrace Parser.completedTemplates
  rw [present]
  simp only [Option.getD_some, if_neg foreign]
  cases found : Inscription.fromParts env (stored.parts ++ [Parser.partOf env txin])
      inputIndex with
  | none => simpa [Parser.templatesOf] using taken
  | partialInscription =>
      dsimp only
      split
      · rw [Table.extend_set]
        simpa [Parser.templatesOf] using kept
      · simpa [Parser.templatesOf] using taken
  | single inscription =>
      rw [Parser.createInscriptions_index, Parser.createInscriptions_partials, if_neg foreign]
      refine next ?_ ?_
      · exact Option.length_toList_le
      · exact fun template listed => Parser.templatesOf_genesis (.single inscription) listed
  | many inscriptions => exact absurd found (fromParts_ne_many several)

end Input

section Block

variable {env : Env} {context : TxContext} {used : Finset Txid} {base : Table OutPoint Partials}
  {traced : ParseState × Trace}

theorem Numbering.traceInput
    (numbering : Numbering context.tx.hash traced.1.indexInTx used
      (base.extend traced.1.partials) traced.2)
    {input : TxInput × Nat} (absent : base.get input.1.outpoint = none)
    (older : input.1.outpoint.txid ≠ context.tx.hash) :
    Numbering context.tx.hash (Parser.traceInput env context traced input).1.indexInTx used
      (base.extend (Parser.traceInput env context traced input).1.partials)
      (Parser.traceInput env context traced input).2 := by
  obtain ⟨partials, index⟩ :=
    moveInscriptions_partials env context input.2 input.1 traced.1
  unfold Parser.traceInput Parser.parseInput
  dsimp only
  rw [← partials, ← index] at numbering
  split
  · cases held : (Parser.moveInscriptions env context input.2 input.1 traced.1).partials.get
        input.1.outpoint with
    | none => exact numbering.parseNew absent held
    | some stored => exact numbering.parseStored absent older held
  · exact numbering

theorem Numbered.traceTx (numbered : Numbered used (base.extend traced.1.partials) traced.2)
    {prevouts : Table OutPoint TxPrevout} {height created : Nat} {tx : Tx}
    {next : ParseState × Trace} (fresh : tx.hash ∉ used)
    (older : ∀ outpoint ∈ tx.spent, outpoint.txid ≠ tx.hash)
    (loaded : ∀ outpoint ∈ prevouts.keys, base.get outpoint = none)
    (result : Parser.traceTx env prevouts height created traced tx = .ok next) :
    Numbered (insert tx.hash used) (base.extend next.1.partials) next.2 := by
  have wider : Numbered (insert tx.hash used) (base.extend traced.1.partials) traced.2 :=
    { numbered with
      known := fun beginning member =>
        Finset.mem_insert_of_mem (numbered.known beginning member) }
  unfold Parser.traceTx at result
  split at result
  · cases result
    exact wider
  rename_i ordinary
  split at result
  · cases result
  simp only [Machine.bind_ok] at result
  obtain ⟨charged, added, result⟩ := result
  cases result
  have found : ∀ input ∈ tx.inputs, input.outpoint ∈ prevouts.keys := by
    intro input listed
    unfold LeakedInscriptions.addTxFee at added
    split at added
    · rename_i complete
      have present := List.all_eq_true.mp complete input listed
      obtain ⟨prevout, held⟩ := Option.isSome_iff_exists.mp present
      exact Table.mem_keys_iff.mpr ⟨prevout, held⟩
    · cases added
  have start : Numbering tx.hash 0 (insert tx.hash used) (base.extend traced.1.partials)
      traced.2 := {
    wider with
    listed := Finset.mem_insert_self _ _
    current := ?current
    own := ?own }
  case current =>
    rw [List.range_zero, Trace.indices, List.map_eq_nil_iff, List.filter_eq_nil_iff]
    intro beginning member same
    exact fresh (of_decide_eq_true same ▸ numbered.known beginning member)
  case own =>
    intro outpoint stored present same
    obtain ⟨beginning, member, given, _⟩ := (numbered.partials outpoint stored present).1
    have known := numbered.known beginning member
    rw [given] at known
    exact absurd (same ▸ known) fresh
  refine (List.foldlRecOn
    (motive := fun traced : ParseState × Trace =>
      Numbering tx.hash traced.1.indexInTx (insert tx.hash used)
        (base.extend traced.1.partials) traced.2) _ _ start ?_).toNumbered
  intro traced numbering input listed
  have member : input.1 ∈ tx.inputs := by
    have place := List.mem_zipIdx_iff_getElem?.mp listed
    exact List.mem_of_getElem? place
  refine @Numbering.traceInput env ⟨prevouts, tx, _, height, created⟩ _ _ _ numbering _
    (loaded _ (found _ member)) (older _ ?_)
  rw [Tx.spent, if_neg ordinary]
  exact List.mem_map_of_mem member

theorem Numbered.traceBlock {db : DB} {trace : Trace}
    (numbered : Numbered used db.outpointToPartials trace) {utxo : Utxo} {block : Block}
    (valid : ValidBlock env utxo used block) (old : ∀ key ∈ utxo.keys, key.txid ∈ used)
    {prevouts : Table OutPoint TxPrevout} {height : Nat} {cache : TokenCache}
    {final : ParseState × Trace}
    (result : Parser.traceBlock env db height block prevouts cache trace = .ok final) :
    Numbered (used ∪ block.txids)
      ((db.outpointToPartials.removeBatch
        (db.outpointToPartials.restrict prevouts.keys).keys).extend final.1.partials) final.2 := by
  have loaded : ∀ outpoint ∈ prevouts.keys, (db.outpointToPartials.removeBatch
      (db.outpointToPartials.restrict prevouts.keys).keys).get outpoint = none := by
    intro outpoint listed
    rw [Table.get_removeBatch]
    split
    · rfl
    · rename_i unloaded
      rw [Table.keys_restrict, Finset.mem_inter, not_and] at unloaded
      exact Table.get_eq_none_iff.mpr fun stored => unloaded listed stored
  have whole := Table.extend_removed_restrict db.outpointToPartials prevouts.keys
  have ended := Machine.run_induction
    (fun past state => Numbered (used ∪ (past.map Tx.hash).toFinset)
      ((db.outpointToPartials.removeBatch
        (db.outpointToPartials.restrict prevouts.keys).keys).extend state.1.partials) state.2)
    result
    (by simpa only [whole, List.map_nil, List.toFinset_nil, Finset.union_empty] using numbered) ?_
  · exact ended
  intro past tx future state next split numbered stepped
  have fresh : tx.hash ∉ used ∪ (past.map Tx.hash).toFinset := by
    rw [Finset.mem_union, List.mem_toFinset, not_or]
    have distinct := valid.distinct
    rw [← split, List.map_append, List.nodup_append] at distinct
    refine ⟨valid.fresh tx (by simp [← split]), ?_⟩
    exact fun before => distinct.2.2 _ before _ (by simp) rfl
  have older : ∀ outpoint ∈ tx.spent, outpoint.txid ≠ tx.hash := fun outpoint spends =>
    valid.spent_later old split (by simp [spends])
  have after := numbered.traceTx fresh older loaded stepped
  simpa [Finset.union_insert] using after

end Block

end WjkIndexer
