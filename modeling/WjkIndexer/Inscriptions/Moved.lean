import WjkIndexer.Chain.Spent
import WjkIndexer.Inscriptions.Parsed

/-!
Moves of the transfers of a block: each known transfer is moved once, when its output is
spent, and until then its offset stays with the output.
-/

namespace WjkIndexer

open FiniteTable

namespace TokenAction

def movedFrom : TokenAction → Option Location
  | transferred location _ _ _ => some location
  | _ => none

def inscribedAt : TokenAction → Option Location
  | transfer location _ _ _ _ => some location
  | _ => none

end TokenAction

def movedLocations (actions : List TokenAction) : List Location :=
  actions.filterMap TokenAction.movedFrom

@[simp] theorem movedLocations_append (first second : List TokenAction) :
    movedLocations (first ++ second) = movedLocations first ++ movedLocations second := by
  simp [movedLocations]

theorem movedLocations_singleton (action : TokenAction) :
    movedLocations [action] = action.movedFrom.toList := by
  cases moved : action.movedFrom <;> simp [movedLocations, moved]

def Ordered (actions : List TokenAction) : Prop :=
  actions.Pairwise fun earlier later =>
    ∀ location, earlier.movedFrom = some location → later.inscribedAt ≠ some location

theorem Ordered.append_moves {actions moves : List TokenAction} (ordered : Ordered actions)
    (plain : ∀ action ∈ moves, action.inscribedAt = none) : Ordered (actions ++ moves) := by
  refine List.pairwise_append.mpr ⟨ordered, ?_, ?_⟩
  · rw [List.pairwise_iff_getElem]
    intro first second _ bound _ location _ inscribed
    rw [plain _ (List.getElem_mem bound)] at inscribed
    cases inscribed
  · intro earlier _ later listed location _ inscribed
    rw [plain later listed] at inscribed
    cases inscribed

theorem Ordered.append_transfer {actions : List TokenAction} (ordered : Ordered actions)
    {action : TokenAction}
    (unmoved : ∀ location, action.inscribedAt = some location →
      location ∉ movedLocations actions) : Ordered (actions ++ [action]) := by
  refine List.pairwise_append.mpr ⟨ordered, List.pairwise_singleton _ _, ?_⟩
  intro earlier listed later same location moved inscribed
  rw [List.mem_singleton.mp same] at inscribed
  exact unmoved location inscribed (List.mem_filterMap.mpr ⟨earlier, listed, moved⟩)

theorem Ordered.unmoved {actions past future : List TokenAction} (ordered : Ordered actions)
    {action : TokenAction} (split : past ++ action :: future = actions) {location : Location}
    (inscribed : action.inscribedAt = some location) : location ∉ movedLocations past := by
  intro moved
  obtain ⟨earlier, listed, stems⟩ := List.mem_filterMap.mp moved
  rw [← split] at ordered
  exact (List.pairwise_append.mp ordered).2.2 earlier listed action List.mem_cons_self location
    stems inscribed

/-- A transfer stands on a satoshi of an output of one of the transactions, whose script is
that of its owner. -/
def StandsIn (env : Env) (txs : List Tx) (location : Location) (owner : FullHash) : Prop :=
  ∃ tx ∈ txs, ∃ output, location.outpoint.txid = tx.hash ∧
    tx.outputs[location.outpoint.vout]? = some output ∧ location.offset < output.value ∧
    owner = env.computeScriptHash output.scriptPubkey

/-- A location at which a transfer can be inscribed: its output is not spent yet. -/
structure Creates (env : Env) (txs : List Tx) (spent : List OutPoint) (location : Location)
    (owner : FullHash) : Prop where
  unspent : location.outpoint ∉ spent
  stands : env.isOpReturnHash owner = false → StandsIn env txs location owner

/-- A state in the middle of parsing transactions, the outpoints `spent` being spent so far. -/
structure Moving (env : Env) (txs : List Tx) (spent : List OutPoint) (state : ParseState) :
    Prop where
  waiting : ∀ location, (state.cache.allTransfers.get location).isSome →
    location.outpoint ∉ spent → location.offset ∈ (state.offsets.get location.outpoint).getD ∅
  moved : ∀ location, (state.cache.allTransfers.get location).isSome →
    location.outpoint ∈ spent → location ∈ movedLocations state.cache.tokenActions
  gone : ∀ location ∈ movedLocations state.cache.tokenActions, location.outpoint ∈ spent
  once : (movedLocations state.cache.tokenActions).Nodup
  ordered : Ordered state.cache.tokenActions
  placed : ∀ location owner proto txid vout,
    .transfer location owner proto txid vout ∈ state.cache.tokenActions →
    StandsIn env txs location owner

theorem offsets_insertOffset (offsets : Table OutPoint (Finset Nat)) (location : Location)
    (outpoint : OutPoint) :
    (offsets.get outpoint).getD ∅ ⊆ ((insertOffset offsets location).get outpoint).getD ∅ := by
  rw [get_insertOffset]
  split
  · rename_i same
    rw [same]
    exact Finset.subset_insert _ _
  · exact Finset.Subset.refl _

section Move

variable (env : Env) (context : TxContext) (inputIndex : Nat) (txin : TxInput)

theorem moveInscription_cache (state : ParseState) (offset : Nat) : ∃ recipient vout,
    (Parser.moveInscription env context inputIndex txin state offset).cache =
      if (state.cache.allTransfers.get ⟨txin.outpoint, offset⟩).isSome then
        state.cache.transferred ⟨txin.outpoint, offset⟩ recipient context.tx.hash vout
      else state.cache := by
  unfold Parser.moveInscription
  dsimp only
  split
  · rename_i newVout newOffset _
    by_cases burnt : env.isOpReturn (context.tx.scriptAt newVout) = true
    · exact ⟨env.opReturnHash, newVout, by simp [burnt, TokenCache.burnedTransfer]⟩
    · exact ⟨env.computeScriptHash (context.tx.scriptAt newVout), newVout, by simp [burnt]⟩
  · exact ⟨_, _, rfl⟩

theorem moveInscription_offsets (state : ParseState) (offset : Nat) (outpoint : OutPoint) :
    (state.offsets.get outpoint).getD ∅ ⊆
      ((Parser.moveInscription env context inputIndex txin state offset).offsets.get
        outpoint).getD ∅ := by
  unfold Parser.moveInscription
  dsimp only
  split
  · exact offsets_insertOffset _ _ _
  · exact Finset.Subset.refl _

theorem moveInscription_fold (offsets : List Nat) (state : ParseState) :
    (offsets.foldl (Parser.moveInscription env context inputIndex txin) state).cache.allTransfers =
      state.cache.allTransfers ∧
    (∃ moves,
      (offsets.foldl (Parser.moveInscription env context inputIndex txin)
        state).cache.tokenActions = state.cache.tokenActions ++ moves ∧
      movedLocations moves = (offsets.map (Location.mk txin.outpoint)).filter
        (fun location => (state.cache.allTransfers.get location).isSome) ∧
      ∀ action ∈ moves, action.inscribedAt = none) ∧
    ∀ outpoint, (state.offsets.get outpoint).getD ∅ ⊆
      ((offsets.foldl (Parser.moveInscription env context inputIndex txin) state).offsets.get
        outpoint).getD ∅ := by
  induction offsets generalizing state with
  | nil => exact ⟨rfl, ⟨[], by simp, rfl, by simp⟩, fun _ => Finset.Subset.refl _⟩
  | cons offset rest ih =>
      obtain ⟨recipient, vout, cache⟩ :=
        moveInscription_cache env context inputIndex txin state offset
      obtain ⟨sameAll, ⟨moves, actions, locations, plain⟩, grows⟩ :=
        ih (Parser.moveInscription env context inputIndex txin state offset)
      have all : (Parser.moveInscription env context inputIndex txin state
          offset).cache.allTransfers = state.cache.allTransfers := by
        rw [cache]
        split <;> rfl
      rw [all] at sameAll locations
      refine ⟨sameAll, ?_, fun outpoint => (moveInscription_offsets env context inputIndex txin
        state offset outpoint).trans (grows outpoint)⟩
      rw [List.foldl_cons, actions, cache, List.map_cons, List.filter_cons]
      split
      · refine ⟨.transferred ⟨txin.outpoint, offset⟩ recipient context.tx.hash vout :: moves,
          by simp [TokenCache.transferred], ?_, ?_⟩
        · rw [← locations]
          rfl
        · intro action listed
          rcases List.mem_cons.mp listed with rfl | later
          · rfl
          · exact plain action later
      · exact ⟨moves, rfl, locations, plain⟩

end Move

namespace Moving

variable {env : Env} {txs : List Tx} {spent : List OutPoint} {state : ParseState}
  {context : TxContext}

theorem moveInscriptions (moving : Moving env txs spent state) (inputIndex : Nat)
    {txin : TxInput} (unspent : txin.outpoint ∉ spent) :
    Moving env txs (spent ++ [txin.outpoint])
      (Parser.moveInscriptions env context inputIndex txin state) := by
  have member : ∀ outpoint, outpoint ∈ spent ++ [txin.outpoint] ↔
      outpoint ∈ spent ∨ outpoint = txin.outpoint := by simp
  unfold Parser.moveInscriptions
  split
  · rename_i none
    refine { moving with waiting := ?_, moved := ?_, gone := ?_ }
    · intro location known free
      exact moving.waiting location known (fun old => free ((member _).mpr (Or.inl old)))
    · intro location known gone
      rcases (member _).mp gone with old | now
      · exact moving.moved location known old
      · have present := moving.waiting location known (now ▸ unspent)
        rw [now, none] at present
        cases present
    · exact fun location listed => (member _).mpr (Or.inl (moving.gone location listed))
  · rename_i inscriptionOffsets found
    obtain ⟨all, ⟨moves, actions, locations, plain⟩, grows⟩ :=
      moveInscription_fold env context inputIndex txin
        (env.iterate txin.outpoint inscriptionOffsets)
        { state with offsets := state.offsets.remove txin.outpoint }
    have fromHere : ∀ location ∈ movedLocations moves, location.outpoint = txin.outpoint := by
      intro location listed
      rw [locations, List.mem_filter, List.mem_map] at listed
      obtain ⟨⟨_, _, rfl⟩, _⟩ := listed
      rfl
    refine {
      waiting := ?_
      moved := ?_
      gone := ?_
      once := ?_
      ordered := by rw [actions]; exact moving.ordered.append_moves plain
      placed := ?_ }
    · intro location known free
      rw [all] at known
      simp only [member, not_or] at free
      have present := moving.waiting location known free.1
      rw [← Table.get_remove_ne _ free.2] at present
      exact grows _ present
    · intro location known gone
      rw [all] at known
      rw [actions, movedLocations_append, List.mem_append]
      rcases (member _).mp gone with old | now
      · exact Or.inl (moving.moved location known old)
      · have present := moving.waiting location known (now ▸ unspent)
        rw [now, found, Option.getD_some, ← env.mem_iterate txin.outpoint] at present
        rw [locations, List.mem_filter, List.mem_map]
        exact Or.inr ⟨⟨location.offset, present, by rw [← now]⟩, known⟩
    · intro location listed
      rw [actions, movedLocations_append, List.mem_append] at listed
      rcases listed with old | new
      · exact (member _).mpr (Or.inl (moving.gone location old))
      · exact (member _).mpr (Or.inr (fromHere location new))
    · rw [actions, movedLocations_append, List.nodup_append]
      refine ⟨moving.once, ?_, ?_⟩
      · rw [locations]
        refine List.Nodup.filter _ (List.Nodup.map ?_ (env.iterate_nodup _ _))
        intro first second same
        exact congrArg Location.offset same
      · rintro location old _ new rfl
        exact unspent (fromHere location new ▸ moving.gone location old)
    · intro location owner proto txid vout listed
      rw [actions, List.mem_append] at listed
      rcases listed with old | new
      · exact moving.placed location owner proto txid vout old
      · cases plain _ new

theorem push (moving : Moving env txs spent state) (location : Location)
    {actions : List TokenAction} (noTransfer : ∀ action ∈ actions, action.inscribedAt = none)
    (noMove : movedLocations actions = []) :
    Moving env txs spent { state with
      offsets := insertOffset state.offsets location
      cache := { state.cache with tokenActions := state.cache.tokenActions ++ actions } } := by
  have same : movedLocations (state.cache.tokenActions ++ actions) =
      movedLocations state.cache.tokenActions := by
    rw [movedLocations_append, noMove, List.append_nil]
  refine {
    waiting := fun place known free =>
      offsets_insertOffset state.offsets location _ (moving.waiting place known free)
    moved := fun place known gone => same ▸ moving.moved place known gone
    gone := fun place listed => moving.gone place (same ▸ listed)
    once := same ▸ moving.once
    ordered := moving.ordered.append_moves noTransfer
    placed := ?_ }
  intro place owner proto txid vout listed
  rcases List.mem_append.mp listed with old | new
  · exact moving.placed place owner proto txid vout old
  · cases noTransfer _ new

theorem inscribe (moving : Moving env txs spent state) {template : InscriptionTemplate}
    (creates : Creates env txs spent template.location template.owner) {height : Nat}
    {next : TokenCache}
    (inscribed : TokenCache.Inscribed env state.cache template height next) :
    Moving env txs spent { state with
      offsets := insertOffset state.offsets template.location
      cache := next } := by
  cases inscribed with
  | ignored =>
      have kept := moving.push template.location (List.forall_mem_nil _) rfl
      rwa [List.append_nil] at kept
  | deploy proto empty bounded =>
      exact moving.push _ (by simp [TokenAction.inscribedAt]) rfl
  | mint proto positive => exact moving.push _ (by simp [TokenAction.inscribedAt]) rfl
  | transfer proto positive owned =>
      have same : movedLocations (state.cache.tokenActions ++ [.transfer template.location
          template.owner proto template.location.outpoint.txid
          template.location.outpoint.vout]) = movedLocations state.cache.tokenActions := by
        rw [movedLocations_append, movedLocations_singleton]
        simp [TokenAction.movedFrom]
      refine {
        waiting := ?_
        moved := ?_
        gone := fun location listed => moving.gone location (same ▸ listed)
        once := same ▸ moving.once
        ordered := ?_
        placed := ?_ }
      · intro location known free
        rw [Table.get_set] at known
        split at known
        · rename_i here
          rw [here, get_insertOffset, if_pos rfl]
          exact Finset.mem_insert_self _ _
        · exact offsets_insertOffset state.offsets _ _ (moving.waiting location known free)
      · intro location known gone
        rw [Table.get_set_ne] at known
        · exact same ▸ moving.moved location known gone
        · rintro rfl
          exact creates.unspent gone
      · refine moving.ordered.append_transfer ?_
        intro location inscribed listed
        cases inscribed
        exact creates.unspent (moving.gone _ listed)
      · intro location owner record txid vout listed
        rcases List.mem_append.mp listed with old | new
        · exact moving.placed location owner record txid vout old
        · cases List.mem_singleton.mp new
          exact creates.stands owned

theorem createInscription (moving : Moving env txs spent state) {template : InscriptionTemplate}
    (creates : Creates env txs spent template.location template.owner) :
    Moving env txs spent (Parser.createInscription env context state template) := by
  have fed : ∀ skipped : Bool, TokenCache.Inscribed env state.cache template context.height
      (if skipped then state.cache
        else state.cache.parseTokenAction env template context.height context.created) := by
    intro skipped
    cases skipped with
    | true => exact .ignored
    | false => exact TokenCache.parseTokenAction_inscribed env _ template _ _
  unfold Parser.createInscription
  exact moving.inscribe creates (fed _)

theorem creates_converted (own : context.tx ∈ txs)
    (older : ∀ outpoint ∈ spent, outpoint.txid ≠ context.tx.hash) {inputIndex : Nat}
    {genesisTxid : Txid} {inscription : Inscription} {template : InscriptionTemplate}
    (converted : Parser.convertToTemplate env context inputIndex genesisTxid inscription =
      some template) : Creates env txs spent template.location template.owner := by
  obtain ⟨here, ⟨output, present, inside, owner⟩, _⟩ := Parsing.convertToTemplate_spec converted
  refine ⟨fun gone => older _ gone here, ?_⟩
  intro owned
  refine ⟨context.tx, own, output, here, present, inside, ?_⟩
  rw [owner, if_neg]
  intro burnt
  rw [owner, if_pos burnt, Env.isOpReturnHash, beq_self_eq_true] at owned
  cases owned

theorem createInscriptions (moving : Moving env txs spent state) {genesisTxid : Txid}
    {templates : List InscriptionTemplate}
    (creates : ∀ template ∈ templates, Creates env txs spent template.location template.owner) :
    Moving env txs spent
      (Parser.createInscriptions env context genesisTxid templates state) := by
  unfold Parser.createInscriptions
  split
  · refine List.foldlRecOn _ _ { moving with } ?_
    intro state moving template listed
    obtain ⟨original, member, samePlace, sameOwner, _⟩ := Parsing.mem_numberTemplates listed
    refine moving.createInscription ?_
    rw [samePlace, sameOwner]
    exact creates original member
  · refine List.foldlRecOn _ _ moving ?_
    exact fun state moving template listed => moving.createInscription (creates template listed)

theorem parseCreation (moving : Moving env txs spent state) (own : context.tx ∈ txs)
    (older : ∀ outpoint ∈ spent, outpoint.txid ≠ context.tx.hash) (inputIndex : Nat)
    (txin : TxInput) :
    Moving env txs spent (Parser.parseCreation env context inputIndex txin state) := by
  unfold Parser.parseCreation
  dsimp only
  split
  · exact { moving with }
  · exact { moving with }
  · refine Moving.createInscriptions ?_ ?_
    · exact { moving with }
    intro template listed
    rw [Option.mem_toList] at listed
    exact creates_converted own older listed
  · refine Moving.createInscriptions ?_ ?_
    · exact { moving with }
    intro template listed
    simp only [List.mem_filterMap, List.mem_map, id_eq] at listed
    obtain ⟨_, ⟨inscription, _, rfl⟩, converted⟩ := listed
    exact creates_converted own older converted

theorem parseInput (moving : Moving env txs spent state) (own : context.tx ∈ txs)
    (input : TxInput × Nat) (unspent : input.1.outpoint ∉ spent)
    (older : ∀ outpoint ∈ spent ++ [input.1.outpoint], outpoint.txid ≠ context.tx.hash) :
    Moving env txs (spent ++ [input.1.outpoint]) (Parser.parseInput env context state input) := by
  have moved : Moving env txs (spent ++ [input.1.outpoint])
      (Parser.moveInscriptions env context input.2 input.1 state) :=
    moving.moveInscriptions input.2 unspent
  unfold Parser.parseInput
  dsimp only
  split
  · exact moved.parseCreation own older input.2 input.1
  · exact moved

theorem parseInputs (own : context.tx ∈ txs) (inputs : List (TxInput × Nat))
    (moving : Moving env txs spent state)
    (once : (spent ++ inputs.map fun input => input.1.outpoint).Nodup)
    (older : ∀ outpoint ∈ spent ++ inputs.map fun input => input.1.outpoint,
      outpoint.txid ≠ context.tx.hash) :
    Moving env txs (spent ++ inputs.map fun input => input.1.outpoint)
      (inputs.foldl (Parser.parseInput env context) state) := by
  induction inputs generalizing spent state with
  | nil => simpa using moving
  | cons input rest ih =>
      rw [List.map_cons, List.append_cons] at once older ⊢
      have first := (List.nodup_append.mp once).1
      refine ih (moving.parseInput own input ?_ ?_) once older
      · intro gone
        exact (List.nodup_append.mp first).2.2 _ gone _ List.mem_cons_self rfl
      · exact fun outpoint listed => older outpoint (List.mem_append_left _ listed)

theorem parseTx (moving : Moving env txs spent state) {prevouts : Table OutPoint TxPrevout}
    {height created : Nat} {tx : Tx} (own : tx ∈ txs) (once : (spent ++ tx.spent).Nodup)
    (older : ∀ outpoint ∈ spent ++ tx.spent, outpoint.txid ≠ tx.hash) {next : ParseState}
    (parsed : Parser.parseTx env prevouts height created state tx = .ok next) :
    Moving env txs (spent ++ tx.spent) next := by
  unfold Parser.parseTx at parsed
  unfold Tx.spent at once older ⊢
  split at parsed
  · rename_i coinbase
    cases parsed
    rw [if_pos coinbase, List.append_nil]
    exact { moving with }
  rename_i ordinary
  rw [if_neg ordinary] at once older ⊢
  split at parsed
  · cases parsed
  rename_i leaked present
  simp only [Machine.bind_ok] at parsed
  obtain ⟨charged, added, result⟩ := parsed
  cases result
  have inputs : tx.inputs.map TxInput.outpoint =
      tx.inputs.zipIdx.map fun input => input.1.outpoint := by
    have paired := congrArg (List.map TxInput.outpoint) (List.zipIdx_map_fst 0 tx.inputs)
    rw [← paired, List.map_map]
    rfl
  rw [inputs] at once older ⊢
  exact parseInputs own tx.inputs.zipIdx { moving with } once older

end Moving

theorem parseBlock_moved {env : Env} {utxo : Utxo} {used : Finset Txid} {db : DB} {height : Nat}
    {block : Block} {prevouts : Table OutPoint TxPrevout} {cache : TokenCache}
    {parsed : Parser.Parsed} (valid : ValidBlock env utxo used block)
    (old : ∀ key ∈ utxo.keys, key.txid ∈ used)
    (result : Parser.parseBlock env db height block prevouts cache = .ok parsed)
    (idle : cache.tokenActions = [])
    (loaded : ∀ location, (cache.allTransfers.get location).isSome → location.offset ∈
      ((db.outpointToInscriptionOffsets.restrict prevouts.keys).get location.outpoint).getD ∅) :
    Moving env block.txs (block.txs.flatMap Tx.spent) {
      offsets := parsed.offsetsToWrite
      partials := parsed.partialsToWrite
      cache := parsed.cache } := by
  simp only [Parser.parseBlock, Machine.bind_ok] at result
  obtain ⟨final, ran, result⟩ := result
  have spentOnce := valid.spent_nodup old
  have moving := Machine.run_induction
    (fun past state => Moving env block.txs (past.flatMap Tx.spent) state) ran
    (by
      refine {
        waiting := fun location known _ => loaded location known
        moved := ?_
        gone := ?_
        once := ?_
        ordered := ?_
        placed := ?_ } <;> simp [idle, movedLocations, Ordered])
    (by
      intro past tx future state next split moving stepped
      have front : block.txs.flatMap Tx.spent =
          (past.flatMap Tx.spent ++ tx.spent) ++ future.flatMap Tx.spent := by
        rw [← split]
        simp
      have once := spentOnce
      rw [front] at once
      rw [List.flatMap_append, List.flatMap_singleton]
      refine moving.parseTx (by simp [← split]) (List.nodup_append.mp once).1 ?_ stepped
      intro outpoint spends
      exact valid.spent_later old split (by simpa using spends))
  split at result
  · cases result
  · rename_i leaked present
    cases result
    refine { moving with waiting := ?_ }
    intro location known free
    have waits := moving.waiting location known free
    dsimp only
    rw [Table.get_collect, if_pos]
    · exact Finset.mem_union_left _ waits
    · refine Finset.mem_union_left _ (Table.mem_keys_iff.mpr ?_)
      cases found : final.offsets.get location.outpoint with
      | none =>
          rw [found] at waits
          cases waits
      | some offsets => exact ⟨offsets, rfl⟩

end WjkIndexer
