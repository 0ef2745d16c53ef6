import WjkIndexer.Indexer.Unspent
import WjkIndexer.Indexer.Replay

/-!
Inscriptions that a block leaves unfinished: where they are kept once it is written.
-/

namespace WjkIndexer

open FiniteTable

def storedParts (partials : Table OutPoint Partials) (outpoint : OutPoint) :
    Option (List Part) :=
  (partials.get outpoint).map Partials.parts

def MayCreate (env : Env) (height : Nat) (input : TxInput × Nat) : Prop :=
  env.jubileeHeight ≤ height ∨ input.2 = 0

instance (env : Env) (height : Nat) (input : TxInput × Nat) :
    Decidable (MayCreate env height input) :=
  inferInstanceAs (Decidable (_ ∨ _))

def leftParts (env : Env) (tx : Tx) (begun : OutPoint → Option (List Part))
    (input : TxInput × Nat) : Option (List Part) :=
  let parts := (begun input.1.outpoint).getD [] ++ [Parser.partOf env input.1]
  if Inscription.fromParts env parts input.2 = .partialInscription ∧
      (tx.outputs[input.2]?).isSome then
    some parts
  else none

def begunByInput (env : Env) (height : Nat) (tx : Tx) (begun : OutPoint → Option (List Part))
    (input : TxInput × Nat) (outpoint : OutPoint) : Option (List Part) :=
  if MayCreate env height input ∧ outpoint = ⟨tx.hash, input.2⟩ then
    (leftParts env tx begun input).or (begun outpoint)
  else begun outpoint

def begunByTx (env : Env) (height : Nat) (begun : OutPoint → Option (List Part)) (tx : Tx) :
    OutPoint → Option (List Part) :=
  if tx.isCoinbase then begun
  else tx.inputs.zipIdx.foldl (begunByInput env height tx) begun

def begunIn (env : Env) (height : Nat) (txs : List Tx) (partials : Table OutPoint Partials) :
    OutPoint → Option (List Part) :=
  txs.foldl (begunByTx env height) (storedParts partials)

structure PartialsSettled (block : Block) (table written : Table OutPoint Partials) : Prop where
  unspent : ∀ outpoint ∈ table.keys, outpoint ∉ spentOutpoints block
  own : ∀ outpoint ∈ written.keys, ∃ tx ∈ block.txs, outpoint.txid = tx.hash ∧
    (tx.outputs[outpoint.vout]?).isSome

theorem storedParts_eq_none {partials : Table OutPoint Partials} {outpoint : OutPoint} :
    storedParts partials outpoint = none ↔ outpoint ∉ partials.keys := by
  rw [storedParts, Option.map_eq_none_iff, Table.get_eq_none_iff]

theorem storedParts_set (partials : Table OutPoint Partials) (key outpoint : OutPoint)
    (value : Partials) :
    storedParts (partials.set key value) outpoint =
      if outpoint = key then some value.parts else storedParts partials outpoint := by
  rw [storedParts, Table.get_set]
  split <;> rfl

theorem storedParts_remove (partials : Table OutPoint Partials) (removed outpoint : OutPoint) :
    storedParts (partials.remove removed) outpoint =
      if outpoint = removed then none else storedParts partials outpoint := by
  rw [storedParts, Table.get_remove]
  split <;> rfl

theorem createInscriptions_partials (env : Env) (context : TxContext) (genesisTxid : Txid)
    (templates : List InscriptionTemplate) (state : ParseState) :
    (Parser.createInscriptions env context genesisTxid templates state).partials =
      state.partials := by
  rw [Parser.createInscriptions_eq]
  refine List.foldlRecOn (motive := fun created : ParseState =>
    created.partials = state.partials) _ _ rfl ?_
  intro created same template _
  exact same

section Input

variable {env : Env} {context : TxContext} {state : ParseState}

theorem parseCreation_parts (inputIndex : Nat) (txin : TxInput) (outpoint : OutPoint) :
    storedParts (Parser.parseCreation env context inputIndex txin state).partials outpoint =
      (if outpoint = ⟨context.tx.hash, inputIndex⟩ then
          leftParts env context.tx (storedParts state.partials) (txin, inputIndex)
        else none).or
        (if outpoint = txin.outpoint then none else storedParts state.partials outpoint) := by
  have parts : ((state.partials.get txin.outpoint).getD
      { genesisTxid := context.tx.hash, inscriptionIndex := 0, parts := [] }).parts =
        (storedParts state.partials txin.outpoint).getD [] := by
    rw [storedParts]
    cases state.partials.get txin.outpoint <;> rfl
  rw [← storedParts_remove]
  unfold Parser.parseCreation leftParts
  dsimp only
  rw [parts]
  split
  · rename_i read
    simp [read]
  · rename_i read
    by_cases present : (context.tx.outputs[inputIndex]?).isSome = true
    · simp only [present, if_true, read, and_self, storedParts_set]
      by_cases own : outpoint = ⟨context.tx.hash, inputIndex⟩
      · simp only [if_pos own, Option.some_or]
        split <;> rfl
      · simp only [if_neg own, Option.none_or]
    · simp [present]
  · rename_i inscription read
    simp [read, createInscriptions_partials]
  · rename_i inscriptions read
    simp [read, createInscriptions_partials]

end Input

def takenBy (env : Env) (height : Nat) (inputs : List (TxInput × Nat)) : List OutPoint :=
  (inputs.filter fun input => MayCreate env height input).map fun input => input.1.outpoint

/-- What the parser holds of unfinished inscriptions once the outpoints of `taken` are taken. -/
structure KeepsBegun (block : Block) (taken : List OutPoint)
    (begun : OutPoint → Option (List Part)) (partials : Table OutPoint Partials) : Prop where
  parts : ∀ outpoint ∈ spentOutpoints block,
    storedParts partials outpoint = if outpoint ∈ taken then none else begun outpoint
  own : ∀ outpoint ∈ partials.keys, outpoint ∈ spentOutpoints block ∨
    ∃ tx ∈ block.txs, outpoint.txid = tx.hash ∧ (tx.outputs[outpoint.vout]?).isSome

theorem leftParts_congr {env : Env} {tx : Tx} {begun other : OutPoint → Option (List Part)}
    {input : TxInput × Nat} (same : begun input.1.outpoint = other input.1.outpoint) :
    leftParts env tx begun input = leftParts env tx other input := by
  rw [leftParts, leftParts, same]

theorem leftParts_output {env : Env} {tx : Tx} {begun : OutPoint → Option (List Part)}
    {input : TxInput × Nat} (left : leftParts env tx begun input ≠ none) :
    (tx.outputs[input.2]?).isSome := by
  unfold leftParts at left
  dsimp only at left
  split at left
  · rename_i shown
    exact shown.2
  · exact absurd rfl left

namespace KeepsBegun

variable {env : Env} {context : TxContext} {block : Block} {state : ParseState}
  {taken : List OutPoint} {begun : OutPoint → Option (List Part)} {input : TxInput × Nat}

theorem parseCreation (keeps : KeepsBegun block taken begun state.partials)
    (listed : context.tx ∈ block.txs) (spends : input.1.outpoint ∈ spentOutpoints block)
    (fresh : input.1.outpoint ∉ taken)
    (older : ∀ outpoint ∈ taken ++ [input.1.outpoint], outpoint.txid ≠ context.tx.hash)
    (creates : MayCreate env context.height input) :
    KeepsBegun block (taken ++ [input.1.outpoint])
      (begunByInput env context.height context.tx begun input)
      (Parser.parseCreation env context input.2 input.1 state).partials := by
  have left : leftParts env context.tx (storedParts state.partials) input =
      leftParts env context.tx begun input := by
    apply leftParts_congr
    rw [keeps.parts _ spends, if_neg fresh]
  constructor
  · intro outpoint member
    rw [parseCreation_parts, left, keeps.parts outpoint member]
    by_cases same : outpoint = ⟨context.tx.hash, input.2⟩
    · have apart : outpoint ∉ taken ++ [input.1.outpoint] := by
        intro earlier
        exact older outpoint earlier (by rw [same])
      have untaken : outpoint ∉ taken := fun earlier =>
        apart (List.mem_append_left _ earlier)
      have different : outpoint ≠ input.1.outpoint := fun spent =>
        apart (List.mem_append_right _ (List.mem_singleton.mpr spent))
      rw [if_pos same, if_neg different, if_neg untaken, if_neg apart, begunByInput,
        if_pos ⟨creates, same⟩]
    · have unchanged : begunByInput env context.height context.tx begun input outpoint =
          begun outpoint := if_neg fun shown => same shown.2
      rw [if_neg same, Option.none_or, unchanged]
      by_cases now : outpoint = input.1.outpoint
      · rw [if_pos now, if_pos (List.mem_append_right _ (List.mem_singleton.mpr now))]
      · rw [if_neg now]
        simp only [List.mem_append, List.mem_singleton, now, or_false]
  · intro outpoint member
    have remains : storedParts (Parser.parseCreation env context input.2 input.1 state).partials
        outpoint ≠ none := fun missing => storedParts_eq_none.mp missing member
    rw [parseCreation_parts] at remains
    by_cases kept : outpoint ∈ state.partials.keys
    · exact keeps.own outpoint kept
    · rw [storedParts_eq_none.mpr kept, ite_self, Option.or_none] at remains
      split at remains
      · rename_i same
        right
        refine ⟨context.tx, listed, by rw [same], ?_⟩
        rw [same]
        exact leftParts_output remains
      · exact absurd rfl remains

theorem parseInput (keeps : KeepsBegun block taken begun state.partials)
    (listed : context.tx ∈ block.txs) (spends : input.1.outpoint ∈ spentOutpoints block)
    (fresh : input.1.outpoint ∉ taken)
    (older : ∀ outpoint ∈ taken ++ [input.1.outpoint], outpoint.txid ≠ context.tx.hash) :
    KeepsBegun block (taken ++ takenBy env context.height [input])
      (begunByInput env context.height context.tx begun input)
      (Parser.parseInput env context state input).partials := by
  have moved := (moveInscriptions_partials env context input.2 input.1 state).1
  have parsed : Parser.parseInput env context state input =
      if MayCreate env context.height input then
        Parser.parseCreation env context input.2 input.1
          (Parser.moveInscriptions env context input.2 input.1 state)
      else Parser.moveInscriptions env context input.2 input.1 state := rfl
  rw [parsed]
  by_cases creates : MayCreate env context.height input
  · have took : takenBy env context.height [input] = [input.1.outpoint] := by
      rw [takenBy, List.filter_cons_of_pos (by simpa using creates)]
      rfl
    rw [if_pos creates, took]
    rw [← moved] at keeps
    exact keeps.parseCreation listed spends fresh older creates
  · have took : takenBy env context.height [input] = [] := by
      rw [takenBy, List.filter_cons_of_neg (by simpa using creates)]
      rfl
    have same : begunByInput env context.height context.tx begun input = begun := by
      funext outpoint
      rw [begunByInput, if_neg fun shown => creates shown.1]
    rw [if_neg creates, took, List.append_nil, moved, same]
    exact keeps

theorem parseInputs (keeps : KeepsBegun block taken begun state.partials)
    (listed : context.tx ∈ block.txs) {inputs : List (TxInput × Nat)}
    (spends : ∀ input ∈ inputs, input.1.outpoint ∈ spentOutpoints block)
    (once : (taken ++ inputs.map fun input => input.1.outpoint).Nodup)
    (older : ∀ outpoint ∈ taken ++ inputs.map fun input => input.1.outpoint,
      outpoint.txid ≠ context.tx.hash) :
    KeepsBegun block (taken ++ takenBy env context.height inputs)
      (inputs.foldl (begunByInput env context.height context.tx) begun)
      (inputs.foldl (Parser.parseInput env context) state).partials := by
  induction inputs generalizing taken begun state with
  | nil =>
      rw [takenBy, List.filter_nil, List.map_nil, List.append_nil]
      exact keeps
  | cons input rest ih =>
      have fresh : input.1.outpoint ∉ taken := by
        intro earlier
        exact (List.nodup_append.mp once).2.2 _ earlier _ List.mem_cons_self rfl
      have split : takenBy env context.height (input :: rest) =
          takenBy env context.height [input] ++ takenBy env context.height rest := by
        rw [takenBy, takenBy, takenBy, ← List.map_append, ← List.filter_append]
        rfl
      have fewer : (taken ++ takenBy env context.height [input]).Sublist
          (taken ++ [input.1.outpoint]) :=
        (List.filter_sublist.map _).append_left taken
      have shape : taken ++ (input :: rest).map (fun input => input.1.outpoint) =
          (taken ++ [input.1.outpoint]) ++ rest.map fun input => input.1.outpoint := by simp
      rw [shape] at once older
      have next : KeepsBegun block (taken ++ takenBy env context.height [input])
          (begunByInput env context.height context.tx begun input)
          (Parser.parseInput env context state input).partials :=
        keeps.parseInput listed (spends input List.mem_cons_self) fresh
          fun outpoint earlier => older outpoint (List.mem_append_left _ earlier)
      rw [split, ← List.append_assoc, List.foldl_cons, List.foldl_cons]
      refine ih next (fun other later => spends other (List.mem_cons_of_mem _ later))
        (once.sublist (fewer.append_right _)) ?_
      intro outpoint earlier
      exact older outpoint ((fewer.append_right _).subset earlier)

end KeepsBegun

def takenByTx (env : Env) (height : Nat) (tx : Tx) : List OutPoint :=
  if tx.isCoinbase then [] else takenBy env height tx.inputs.zipIdx

def passedByTx (env : Env) (height : Nat) (tx : Tx) : List OutPoint :=
  if tx.isCoinbase then []
  else (tx.inputs.zipIdx.filter fun input => ¬ MayCreate env height input).map fun input =>
    input.1.outpoint

theorem outpoints_zipIdx (tx : Tx) :
    (tx.inputs.zipIdx.map fun input => input.1.outpoint) = tx.inputs.map TxInput.outpoint := by
  calc tx.inputs.zipIdx.map (fun input => input.1.outpoint)
      = (tx.inputs.zipIdx.map Prod.fst).map TxInput.outpoint := by rw [List.map_map]; rfl
    _ = tx.inputs.map TxInput.outpoint := by rw [List.zipIdx_map_fst]

section Block

variable {env : Env} {db : DB} {utxo : Utxo} {used : Finset Txid} {height : Nat} {block : Block}
  {prevouts : Table OutPoint TxPrevout} {data : ProcessedData} {cache : TokenCache}
  {parsed : Parser.Parsed}

theorem takenByTx_sublist (env : Env) (height : Nat) (tx : Tx) :
    (takenByTx env height tx).Sublist tx.spent := by
  rw [takenByTx, Tx.spent]
  split
  · exact List.Sublist.refl _
  · rw [← outpoints_zipIdx]
    exact List.filter_sublist.map _

theorem spent_perm (env : Env) (height : Nat) (block : Block) :
    (block.txs.flatMap (takenByTx env height) ++ block.txs.flatMap (passedByTx env height)).Perm
      (spentOutpoints block) := by
  rw [spentOutpoints_eq]
  refine (List.flatMap_append_perm _ _ _).trans ?_
  refine List.Perm.flatMap_left _ fun tx _ => ?_
  rw [takenByTx, passedByTx, Tx.spent]
  split
  · exact .nil
  · rw [takenBy, ← List.map_append, ← outpoints_zipIdx]
    simp only [decide_not]
    exact (List.filter_append_perm _ _).map _

theorem KeepsBegun.parseTx (valid : ValidBlock env utxo used block)
    (old : ∀ key ∈ utxo.keys, key.txid ∈ used) {past future : List Tx} {tx : Tx}
    (split : past ++ tx :: future = block.txs) {begun : OutPoint → Option (List Part)}
    {state next : ParseState} {created : Nat}
    (keeps : KeepsBegun block (past.flatMap (takenByTx env height)) begun state.partials)
    (stepped : Parser.parseTx env prevouts height created state tx = .ok next) :
    KeepsBegun block ((past ++ [tx]).flatMap (takenByTx env height))
      (begunByTx env height begun tx) next.partials := by
  rw [List.flatMap_append, List.flatMap_singleton]
  rw [begunByTx, takenByTx]
  unfold Parser.parseTx at stepped
  split at stepped
  · rename_i coinbase
    cases stepped
    rw [if_pos coinbase, if_pos coinbase, List.append_nil]
    exact keeps
  rename_i ordinary
  rw [if_neg ordinary, if_neg ordinary]
  split at stepped
  · cases stepped
  simp only [Machine.bind_ok] at stepped
  obtain ⟨charged, _, result⟩ := stepped
  cases result
  have spent : tx.spent = tx.inputs.map TxInput.outpoint := by rw [Tx.spent, if_neg ordinary]
  have fewer : (past.flatMap (takenByTx env height) ++
      tx.inputs.zipIdx.map fun input => input.1.outpoint).Sublist
        ((past ++ [tx]).flatMap Tx.spent) := by
    rw [List.flatMap_append, List.flatMap_singleton, outpoints_zipIdx, spent]
    exact (List.Sublist.flatMap_right _ fun tx _ => takenByTx_sublist env height tx).append_right _
  have front : ((past ++ [tx]).flatMap Tx.spent).Sublist (block.txs.flatMap Tx.spent) := by
    rw [← split]
    exact List.Sublist.flatMap (by simp) _
  have listed : tx ∈ block.txs := by simp [← split]
  let context : TxContext :=
    { prevouts, tx, inputsCum := InscriptionSearcher.calcOffsets tx prevouts, height, created }
  refine @KeepsBegun.parseInputs env context _
    { state with leaked := some charged, indexInTx := 0 } _ _ keeps listed _ ?_
    ((valid.spent_nodup old).sublist (fewer.trans front)) ?_
  · intro input listed
    rw [spentOutpoints_eq]
    exact (fewer.trans front).subset
      (List.mem_append_right _ (List.mem_map.mpr ⟨input, listed, rfl⟩))
  · intro outpoint earlier
    exact valid.spent_later old split (fewer.subset earlier)

theorem processPrevouts_keys (found : processPrevouts env db block = .ok (prevouts, data))
    (key : OutPoint) : key ∈ prevouts.keys ↔ key ∈ spentOutpoints block := by
  obtain ⟨complete, pair⟩ := processPrevouts_ok.mp found
  rw [(Prod.mk.inj pair).1, Table.mem_keys_iff, Table.get_collect]
  simp only [List.mem_toFinset]
  constructor
  · rintro ⟨value, present⟩
    by_contra missing
    rw [if_neg missing] at present
    cases present
  · intro spends
    rw [if_pos spends]
    exact Option.ne_none_iff_exists'.mp (complete key spends)

theorem parseBlock_keeps (valid : ValidBlock env utxo used block)
    (old : ∀ key ∈ utxo.keys, key.txid ∈ used)
    (found : processPrevouts env db block = .ok (prevouts, data))
    (result : Parser.parseBlock env db height block prevouts cache = .ok parsed) :
    KeepsBegun block (block.txs.flatMap (takenByTx env height))
      (begunIn env height block.txs db.outpointToPartials) parsed.partialsToWrite := by
  simp only [Parser.parseBlock, Machine.bind_ok] at result
  obtain ⟨final, ran, result⟩ := result
  have keeps := Machine.run_induction
    (fun past state => KeepsBegun block (past.flatMap (takenByTx env height))
      (begunIn env height past db.outpointToPartials) state.partials) ran
    (by
      constructor
      · intro outpoint spends
        rw [storedParts, Table.get_restrict,
          if_pos ((processPrevouts_keys found outpoint).mpr spends)]
        rfl
      · intro outpoint member
        rw [Table.keys_restrict, Finset.mem_inter] at member
        exact Or.inl ((processPrevouts_keys found outpoint).mp member.1))
    (by
      intro past tx future state next split keeps stepped
      rw [begunIn, List.foldl_append]
      exact keeps.parseTx valid old split stepped)
  split at result
  · cases result
  · cases result
    exact keeps

/-- The block settles the unfinished inscriptions exactly if none was begun at an outpoint that an
input passes over. -/
theorem partials_settled_iff (valid : ValidBlock env utxo used block)
    (old : ∀ key ∈ utxo.keys, key.txid ∈ used)
    (found : processPrevouts env db block = .ok (prevouts, data))
    (result : Parser.parseBlock env db height block prevouts cache = .ok parsed) :
    PartialsSettled block
        ((ProcessedData.inscriptionPartials parsed.partialsToRemove
          parsed.partialsToWrite).apply db).outpointToPartials parsed.partialsToWrite ↔
      ∀ outpoint ∈ block.txs.flatMap (passedByTx env height),
        begunIn env height block.txs db.outpointToPartials outpoint = none := by
  have keeps := parseBlock_keeps valid old found result
  have parts := spent_perm env height block
  have once : (block.txs.flatMap (takenByTx env height) ++
      block.txs.flatMap (passedByTx env height)).Nodup := by
    rw [parts.nodup_iff, spentOutpoints_eq]
    exact valid.spent_nodup old
  have spends : ∀ {outpoint}, outpoint ∈ block.txs.flatMap (passedByTx env height) →
      outpoint ∈ spentOutpoints block ∧ outpoint ∉ block.txs.flatMap (takenByTx env height) := by
    intro outpoint passed
    exact ⟨parts.subset (List.mem_append_right _ passed), fun taken =>
      (List.nodup_append.mp once).2.2 _ taken _ passed rfl⟩
  have kept : ∀ {outpoint}, outpoint ∈ spentOutpoints block →
      (outpoint ∈ ((ProcessedData.inscriptionPartials parsed.partialsToRemove
          parsed.partialsToWrite).apply db).outpointToPartials.keys ↔
        outpoint ∈ parsed.partialsToWrite.keys) := by
    intro outpoint spent
    rw [← not_iff_not, Table.get_eq_none_iff.symm, Table.get_eq_none_iff.symm]
    simp only [ProcessedData.apply, ProcessedData.writes, List.foldl_cons, List.foldl_nil,
      Table.get_extend, Table.get_removeBatch, (parseBlock_spec result).partialsToRemove,
      Table.keys_restrict, Finset.mem_inter, processPrevouts_keys found, spent, true_and]
    by_cases stored : outpoint ∈ db.outpointToPartials.keys
    · rw [if_pos stored, Option.or_none]
    · rw [if_neg stored, Table.get_eq_none_iff.mpr stored, Option.or_none]
  constructor
  · intro settled outpoint passed
    obtain ⟨spent, untaken⟩ := spends passed
    have gone : outpoint ∉ parsed.partialsToWrite.keys :=
      fun written => settled.unspent outpoint ((kept spent).mpr written) spent
    rw [← storedParts_eq_none, keeps.parts outpoint spent, if_neg untaken] at gone
    exact gone
  · intro finished
    have unspent : ∀ outpoint ∈ parsed.partialsToWrite.keys,
        outpoint ∉ spentOutpoints block := by
      intro outpoint written spent
      refine storedParts_eq_none.mp ?_ written
      rw [keeps.parts outpoint spent]
      rcases List.mem_append.mp (parts.symm.subset spent) with taken | passed
      · exact if_pos taken
      · rw [finished outpoint passed, ite_self]
    constructor
    · intro outpoint member spent
      exact unspent outpoint ((kept spent).mp member) spent
    · intro outpoint written
      rcases keeps.own outpoint written with spent | own
      · exact absurd spent (unspent outpoint written)
      · exact own

end Block

namespace Sample

def bells : Env := .ofRecords .bellscoin .bellscoin []

def funds : Utxo :=
  ((∅ : Utxo).set ⟨1, 0⟩ (pay sender 50)).set ⟨1, 1⟩ (pay sender 50)

def fundedDb : DB := { prevouts := funds.mapValues fun output => ⟨0x51, output.value⟩ }

def signed (outpoint : OutPoint) (scriptSig : Bytes) : TxInput :=
  { outpoint, scriptSig, witness := [] }

def twoScripts (inputs : List TxInput) : Block :=
  block 103 [coinbase 2 [pay sender 50], {
    hash := 3
    inputs := [signed ⟨1, 0⟩ ([3] ++ protocolId ++ [0x52, 1, 0x61, 0x51, 1, 0x78])]
    outputs := [pay sender 50] }, {
    hash := 4
    inputs
    outputs := [pay recipient 100] }]

def finished : Block := twoScripts [signed ⟨3, 0⟩ [0, 1, 0x79], signed ⟨1, 1⟩ []]

def passedOver : Block := twoScripts [signed ⟨1, 1⟩ [], signed ⟨3, 0⟩ [0, 1, 0x79]]

end Sample

theorem finished_settled :
    ∃ parsed, Parser.parseBlock Sample.bells Sample.fundedDb 30000 Sample.finished
        (spentPrevouts Sample.bells Sample.fundedDb Sample.finished)
        (loadedCache Sample.bells Sample.fundedDb Sample.finished) = .ok parsed ∧
      PartialsSettled Sample.finished
        ((ProcessedData.inscriptionPartials parsed.partialsToRemove
          parsed.partialsToWrite).apply Sample.fundedDb).outpointToPartials
        parsed.partialsToWrite := by
  have valid : ValidBlock Sample.bells Sample.funds {1} Sample.finished := by decide +kernel
  have found : processPrevouts Sample.bells Sample.fundedDb Sample.finished =
      .ok (spentPrevouts Sample.bells Sample.fundedDb Sample.finished,
        prevoutsData Sample.bells Sample.finished) :=
    processPrevouts_ok.mpr ⟨by decide +kernel, rfl⟩
  have parses : (Parser.parseBlock Sample.bells Sample.fundedDb 30000 Sample.finished
      (spentPrevouts Sample.bells Sample.fundedDb Sample.finished)
      (loadedCache Sample.bells Sample.fundedDb Sample.finished)).toOption.isSome = true := by
    decide +kernel
  obtain ⟨parsed, result⟩ := Option.isSome_iff_exists.mp parses
  refine ⟨parsed, Machine.toOption_some.mp result, ?_⟩
  exact (partials_settled_iff valid (by decide +kernel) found
    (Machine.toOption_some.mp result)).mpr (by decide +kernel)

/-- Below the jubilee height an unfinished inscription stays at its output when a second input
spends it. -/
theorem begun_left_behind :
    ValidBlock Sample.bells Sample.funds {1} Sample.passedOver ∧
      ∃ parsed, Parser.parseBlock Sample.bells Sample.fundedDb 30000 Sample.passedOver
          (spentPrevouts Sample.bells Sample.fundedDb Sample.passedOver)
          (loadedCache Sample.bells Sample.fundedDb Sample.passedOver) = .ok parsed ∧
        ¬ PartialsSettled Sample.passedOver
          ((ProcessedData.inscriptionPartials parsed.partialsToRemove
            parsed.partialsToWrite).apply Sample.fundedDb).outpointToPartials
          parsed.partialsToWrite := by
  have parses : (Parser.parseBlock Sample.bells Sample.fundedDb 30000 Sample.passedOver
      (spentPrevouts Sample.bells Sample.fundedDb Sample.passedOver)
      (loadedCache Sample.bells Sample.fundedDb Sample.passedOver)).toOption.any (fun parsed =>
        decide (⟨3, 0⟩ ∈ ((ProcessedData.inscriptionPartials parsed.partialsToRemove
          parsed.partialsToWrite).apply Sample.fundedDb).outpointToPartials.keys)) = true := by
    decide +kernel
  obtain ⟨parsed, result, written⟩ := (Option.any_eq_true _ _).mp parses
  refine ⟨by decide +kernel, parsed, Machine.toOption_some.mp result, ?_⟩
  intro settled
  exact settled.unspent ⟨3, 0⟩ (of_decide_eq_true written) (by decide +kernel)

end WjkIndexer
