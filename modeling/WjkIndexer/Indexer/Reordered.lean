import WjkIndexer.Indexer.Handled
import WjkIndexer.Indexer.Replay
import WjkIndexer.Inscriptions.Leaks

/-!
The order in which the offsets of a spent output are iterated: when no spent output carries
two transfers, a block is handled alike in every order.
-/

namespace WjkIndexer

open FiniteTable

/-- The environment with another order of iteration. -/
def Env.reordered (env : Env) (iterate : OutPoint → Finset Nat → List Nat)
    (nodup : ∀ outpoint offsets, (iterate outpoint offsets).Nodup)
    (mem : ∀ outpoint offsets offset, offset ∈ iterate outpoint offsets ↔ offset ∈ offsets) :
    Env :=
  { env with
    iterate
    iterate_nodup := nodup
    mem_iterate := mem }

namespace Parser

def LoneMoves (txin : TxInput) (state : ParseState) : Prop :=
  ∀ first ∈ (state.offsets.get txin.outpoint).getD ∅,
    ∀ second ∈ (state.offsets.get txin.outpoint).getD ∅,
      (state.cache.allTransfers.get ⟨txin.outpoint, first⟩).isSome →
      (state.cache.allTransfers.get ⟨txin.outpoint, second⟩).isSome → first = second

variable (env : Env)

def LoneInputs (context : TxContext) : ParseState → List (TxInput × Nat) → Prop
  | _, [] => True
  | state, input :: rest =>
      LoneMoves input.1 state ∧ LoneInputs context (parseInput env context state input) rest

def LoneTx (prevouts : Table OutPoint TxPrevout) (height created : Nat) (state : ParseState)
    (tx : Tx) : Prop :=
  tx.isCoinbase = false → ∀ charged, chargeFee prevouts state tx = .ok charged →
    LoneInputs env
      { prevouts, tx, inputsCum := InscriptionSearcher.calcOffsets tx prevouts, height, created }
      { state with leaked := some charged, indexInTx := 0 } tx.inputs.zipIdx

def LoneTxs (prevouts : Table OutPoint TxPrevout) (height created : Nat) :
    ParseState → List Tx → Prop
  | _, [] => True
  | state, tx :: rest =>
      LoneTx env prevouts height created state tx ∧
        ∀ next, parseTx env prevouts height created state tx = .ok next →
          LoneTxs prevouts height created next rest

end Parser

def LoneTransfers (env : Env) (db : DB) (height : Nat) (block : Block) : Prop :=
  env.startHeight ≤ height → block.txs.length ≠ 1 →
    Parser.LoneTxs env (spentPrevouts env db block) height block.header.timestamp
      { offsets := db.outpointToInscriptionOffsets.restrict (spentPrevouts env db block).keys
        partials := db.outpointToPartials.restrict (spentPrevouts env db block).keys
        cache := loadedCache env db block } block.txs

/-! Whether a block spends two transfers at once can be checked. -/

instance LoneMoves.decide (txin : TxInput) (state : ParseState) :
    Decidable (Parser.LoneMoves txin state) :=
  inferInstanceAs (Decidable (∀ first ∈ _, ∀ second ∈ _, _ → _ → first = second))

instance LoneInputs.decide (env : Env) (context : TxContext) :
    (state : ParseState) → (inputs : List (TxInput × Nat)) →
      Decidable (Parser.LoneInputs env context state inputs)
  | _, [] => isTrue trivial
  | state, input :: rest =>
      have := LoneInputs.decide env context (Parser.parseInput env context state input) rest
      inferInstanceAs (Decidable
        (Parser.LoneMoves input.1 state ∧ Parser.LoneInputs env context _ rest))

instance LoneTx.decide (env : Env) (prevouts : Table OutPoint TxPrevout) (height created : Nat)
    (state : ParseState) (tx : Tx) :
    Decidable (Parser.LoneTx env prevouts height created state tx) :=
  inferInstanceAs (Decidable (tx.isCoinbase = false → ∀ charged,
    Parser.chargeFee prevouts state tx = .ok charged → Parser.LoneInputs env _ _ _))

instance LoneTxs.decide (env : Env) (prevouts : Table OutPoint TxPrevout) (height created : Nat) :
    (state : ParseState) → (txs : List Tx) →
      Decidable (Parser.LoneTxs env prevouts height created state txs)
  | _, [] => isTrue trivial
  | state, tx :: rest =>
      have := fun next => LoneTxs.decide env prevouts height created next rest
      inferInstanceAs (Decidable (Parser.LoneTx env prevouts height created state tx ∧
        ∀ next, Parser.parseTx env prevouts height created state tx = .ok next →
          Parser.LoneTxs env prevouts height created next rest))

instance LoneTransfers.decide (env : Env) (db : DB) (height : Nat) (block : Block) :
    Decidable (LoneTransfers env db height block) :=
  inferInstanceAs (Decidable (env.startHeight ≤ height → block.txs.length ≠ 1 →
    Parser.LoneTxs env _ height _ _ block.txs))

theorem insertOffset_comm (offsets : Table OutPoint (Finset Nat)) (first second : Location) :
    insertOffset (insertOffset offsets first) second =
      insertOffset (insertOffset offsets second) first := by
  apply Table.ext
  intro outpoint
  simp only [get_insertOffset]
  by_cases one : outpoint = first.outpoint
  · by_cases other : outpoint = second.outpoint
    · simp [← one, ← other, Finset.insert_comm]
    · simp [one, one ▸ other]
  · by_cases other : outpoint = second.outpoint
    · simp [other, other ▸ one]
    · simp [one, other]

theorem LeakedInscriptions.add_comm (leaked : LeakedInscriptions) (inputIdx : Nat) (tx : Tx)
    (first second : Nat) (prevouts : Table OutPoint TxPrevout) (kind : LeakedInscription) :
    (leaked.add inputIdx tx first prevouts kind).add inputIdx tx second prevouts kind =
      (leaked.add inputIdx tx second prevouts kind).add inputIdx tx first prevouts kind := by
  unfold LeakedInscriptions.add
  simp only [LeakedInscriptions.mk.injEq, true_and, and_true]
  generalize u64Sub leaked.totalAmount (u64Sub (findFee tx inputIdx first prevouts).1
    (findFee tx inputIdx first prevouts).2) = one
  generalize u64Sub leaked.totalAmount (u64Sub (findFee tx inputIdx second prevouts).1
    (findFee tx inputIdx second prevouts).2) = other
  by_cases same : one = other
  · rw [same]
  apply Table.ext
  intro key
  rw [Table.get_set_ne _ _ same, Table.get_set_ne _ _ (Ne.symm same)]
  simp only [Table.get_set]
  by_cases here : key = one
  · have elsewhere : key ≠ other := fun there => same (here.symm.trans there)
    rw [if_neg elsewhere, if_pos here, if_pos here]
  · rw [if_neg here, if_neg here]

section Moves

variable {env : Env} {context : TxContext} {inputIndex : Nat} {txin : TxInput}

theorem moveInscription_allTransfers (state : ParseState) (offset : Nat) :
    (Parser.moveInscription env context inputIndex txin state offset).cache.allTransfers =
      state.cache.allTransfers := by
  unfold Parser.moveInscription
  dsimp only
  split
  · dsimp only
    split
    · split <;> rfl
    · rfl
  · dsimp only
    split <;> rfl

theorem moveInscription_plain {state : ParseState} {offset : Nat}
    (plain : state.cache.allTransfers.get ⟨txin.outpoint, offset⟩ = none) :
    Parser.moveInscription env context inputIndex txin state offset =
      match InscriptionSearcher.getOutputIndexByInput
        ((context.inputsCum[inputIndex]?).map (u64Add · offset)) context.tx.outputs with
      | some (newVout, newOffset) => { state with
          offsets := insertOffset state.offsets ⟨⟨context.tx.hash, newVout⟩, newOffset⟩ }
      | none => { state with
          leaked := state.leaked.map fun leaked =>
            leaked.add inputIndex context.tx offset context.prevouts .move } := by
  unfold Parser.moveInscription
  dsimp only
  rw [plain]
  rfl

theorem plain_swap {state : ParseState} {first second : Nat}
    (plain : state.cache.allTransfers.get ⟨txin.outpoint, first⟩ = none) :
    Parser.moveInscription env context inputIndex txin
        (Parser.moveInscription env context inputIndex txin state first) second =
      Parser.moveInscription env context inputIndex txin
        (Parser.moveInscription env context inputIndex txin state second) first := by
  have after := @moveInscription_allTransfers env context inputIndex txin state second
  rw [← after] at plain
  rw [moveInscription_plain plain]
  rw [after] at plain
  rw [moveInscription_plain plain]
  unfold Parser.moveInscription
  dsimp only
  generalize InscriptionSearcher.getOutputIndexByInput
    ((context.inputsCum[inputIndex]?).map (u64Add · first)) context.tx.outputs = here
  generalize InscriptionSearcher.getOutputIndexByInput
    ((context.inputsCum[inputIndex]?).map (u64Add · second)) context.tx.outputs = there
  cases here with
  | none =>
      cases there with
      | none => simp [Function.comp_def, LeakedInscriptions.add_comm _ _ _ first second]
      | some place => rfl
  | some place =>
      cases there with
      | none => rfl
      | some other => simp [insertOffset_comm]

theorem moveInscription_swap {state : ParseState} {first second : Nat}
    (lone : (state.cache.allTransfers.get ⟨txin.outpoint, first⟩).isSome →
      (state.cache.allTransfers.get ⟨txin.outpoint, second⟩).isSome → first = second) :
    Parser.moveInscription env context inputIndex txin
        (Parser.moveInscription env context inputIndex txin state first) second =
      Parser.moveInscription env context inputIndex txin
        (Parser.moveInscription env context inputIndex txin state second) first := by
  cases one : state.cache.allTransfers.get ⟨txin.outpoint, first⟩ with
  | none => exact plain_swap one
  | some proto =>
      cases other : state.cache.allTransfers.get ⟨txin.outpoint, second⟩ with
      | none => exact (plain_swap other).symm
      | some also => rw [lone (by rw [one]; rfl) (by rw [other]; rfl)]

end Moves

section Order

variable {env : Env} {iterate : OutPoint → Finset Nat → List Nat}
  (nodup : ∀ outpoint offsets, (iterate outpoint offsets).Nodup)
  (mem : ∀ outpoint offsets offset, offset ∈ iterate outpoint offsets ↔ offset ∈ offsets)
  {context : TxContext} {inputIndex : Nat} {txin : TxInput} {state : ParseState}

theorem moveInscriptions_reordered (lone : Parser.LoneMoves txin state) :
    Parser.moveInscriptions (env.reordered iterate nodup mem) context inputIndex txin state =
      Parser.moveInscriptions env context inputIndex txin state := by
  unfold Parser.moveInscriptions
  unfold Parser.LoneMoves at lone
  cases tracked : state.offsets.get txin.outpoint with
  | none => rfl
  | some offsets =>
      rw [tracked, Option.getD_some] at lone
      have perm : (iterate txin.outpoint offsets).Perm (env.iterate txin.outpoint offsets) := by
        refine (List.perm_ext_iff_of_nodup (nodup _ _) (env.iterate_nodup _ _)).mpr ?_
        intro offset
        rw [mem, env.mem_iterate]
      refine Machine.foldl_reordered
        (fun moved : ParseState => moved.cache.allTransfers = state.cache.allTransfers) perm ?_ ?_
        rfl
      · intro moved offset same
        rw [← same]
        exact moveInscription_allTransfers moved offset
      · intro moved same first listed second also
        refine moveInscription_swap ?_
        rw [same]
        exact lone first ((mem _ _ _).mp listed) second ((mem _ _ _).mp also)

theorem parseInput_reordered {input : TxInput × Nat} (lone : Parser.LoneMoves input.1 state) :
    Parser.parseInput (env.reordered iterate nodup mem) context state input =
      Parser.parseInput env context state input := by
  unfold Parser.parseInput
  dsimp only
  rw [moveInscriptions_reordered nodup mem lone]
  rfl

theorem parseInputs_reordered {inputs : List (TxInput × Nat)}
    (lone : Parser.LoneInputs env context state inputs) :
    inputs.foldl (Parser.parseInput (env.reordered iterate nodup mem) context) state =
      inputs.foldl (Parser.parseInput env context) state := by
  induction inputs generalizing state with
  | nil => rfl
  | cons input rest ih =>
      rw [List.foldl_cons, List.foldl_cons, parseInput_reordered nodup mem lone.1]
      exact ih lone.2

theorem parseTx_reordered {prevouts : Table OutPoint TxPrevout} {height created : Nat} {tx : Tx}
    (lone : Parser.LoneTx env prevouts height created state tx) :
    Parser.parseTx (env.reordered iterate nodup mem) prevouts height created state tx =
      Parser.parseTx env prevouts height created state tx := by
  unfold Parser.parseTx
  split
  · rfl
  rename_i ordinary
  unfold Parser.LoneTx Parser.chargeFee at lone
  cases present : state.leaked with
  | none => rfl
  | some leaked =>
      rw [present] at lone
      dsimp only
      cases added : leaked.addTxFee tx prevouts with
      | error fault => rfl
      | ok charged =>
          exact congrArg Except.ok
            (parseInputs_reordered nodup mem (lone (by simpa using ordinary) charged added))

theorem parseTxs_reordered {prevouts : Table OutPoint TxPrevout} {height created : Nat}
    {txs : List Tx} (lone : Parser.LoneTxs env prevouts height created state txs) :
    txs.foldlM (Parser.parseTx (env.reordered iterate nodup mem) prevouts height created) state =
      txs.foldlM (Parser.parseTx env prevouts height created) state := by
  induction txs generalizing state with
  | nil => rfl
  | cons tx rest ih =>
      rw [Machine.run_cons, Machine.run_cons, parseTx_reordered nodup mem lone.1]
      cases parsed : Parser.parseTx env prevouts height created state tx with
      | error fault => rfl
      | ok next => exact ih (lone.2 next parsed)

theorem parseBlock_reordered {db : DB} {height : Nat} {block : Block}
    {prevouts : Table OutPoint TxPrevout} {cache : TokenCache}
    (lone : Parser.LoneTxs env prevouts height block.header.timestamp
      { offsets := db.outpointToInscriptionOffsets.restrict prevouts.keys
        partials := db.outpointToPartials.restrict prevouts.keys
        cache } block.txs) :
    Parser.parseBlock (env.reordered iterate nodup mem) db height block prevouts cache =
      Parser.parseBlock env db height block prevouts cache := by
  unfold Parser.parseBlock
  dsimp only
  rw [parseTxs_reordered nodup mem lone]

theorem handleBlock_reordered {server : Server} {height : Nat} {block : Block}
    (lone : LoneTransfers env server.db height block) :
    handleBlock (env.reordered iterate nodup mem) server height block =
      handleBlock env server height block := by
  have spent : processPrevouts (env.reordered iterate nodup mem) server.db block =
      processPrevouts env server.db block := rfl
  unfold handleBlock
  dsimp only
  rw [spent]
  cases found : processPrevouts env server.db block with
  | error fault => rfl
  | ok result =>
      obtain ⟨_, rfl⟩ := processPrevouts_ok.mp found
      simp only [bind, Except.bind]
      have start : (env.reordered iterate nodup mem).startHeight = env.startHeight := rfl
      rw [start]
      by_cases before : height < env.startHeight
      · rw [if_pos before, if_pos before]
        rfl
      by_cases alone : block.txs.length = 1
      · rw [if_neg before, if_neg before, if_pos alone, if_pos alone]
        rfl
      have parsed := parseBlock_reordered nodup mem (lone (Nat.le_of_not_lt before) alone)
      rw [loadedCache, spentPrevouts] at parsed
      rw [if_neg before, if_neg before, if_neg alone, if_neg alone, parsed]
      rfl

/-- A block that spends no two transfers in one output leaves the same history, and so the
same proof of it, the same tables and the same undo entries in every order of iteration. -/
theorem history_reproducible {server : Server} {height : Nat} {block : Block}
    (lone : LoneTransfers env server.db height block) :
    handleBlock (env.reordered iterate nodup mem) server height block =
        handleBlock env server height block ∧
      ∀ reorgCache handleReorgs,
        handle (env.reordered iterate nodup mem) server reorgCache height block handleReorgs =
          handle env server reorgCache height block handleReorgs := by
  have same := handleBlock_reordered nodup mem lone
  refine ⟨same, ?_⟩
  intro reorgCache handleReorgs
  rw [handle, handle, same]

end Order

def Env.backwards (env : Env) : Env :=
  env.reordered (fun outpoint offsets => (env.iterate outpoint offsets).reverse)
    (fun outpoint offsets => List.nodup_reverse.mpr (env.iterate_nodup outpoint offsets))
    (fun outpoint offsets offset => List.mem_reverse.trans (env.mem_iterate outpoint offsets offset))

namespace Sample

/-- Two inputs are inscribed and paid to one output, the first one with a transfer. -/
def lockApart (beside : Bytes × RawBrc4) : List Event := [
  .block 1 (block 101 [coinbase 1 [pay sender 50, pay sender 50]]) true,
  .block 2 (block 102 [coinbase 2 [pay sender 50], {
    hash := 3
    inputs := [spend 1 0 [deploy "wojak" "9", mint "wojak" "5", transfer "wojak" "1"],
      spend 1 1 [beside]]
    outputs := [pay sender 100] }]) true]

def moveBoth : Block :=
  block 103 [coinbase 4 [pay sender 50], {
    hash := 5
    inputs := [spend 3 0 []]
    outputs := [pay recipient 100] }]

end Sample

theorem wojak_reproducible :
    ∃ process, Reachable Sample.env (fun _ _ => True) process ∧
      (Event.block 3 Sample.moveBoth true).Valid Sample.env process ∧
      (∃ offsets, process.db.outpointToInscriptionOffsets.get ⟨3, 0⟩ = some offsets ∧
        Sample.env.backwards.iterate ⟨3, 0⟩ offsets ≠ Sample.env.iterate ⟨3, 0⟩ offsets) ∧
      handleBlock Sample.env.backwards process.server 3 Sample.moveBoth =
        handleBlock Sample.env process.server 3 Sample.moveBoth := by
  obtain ⟨process, reached, valid, lone, apart⟩ : ∃ process,
      Reachable Sample.env (fun _ _ => True) process ∧
      (Event.block 3 Sample.moveBoth true).Valid Sample.env process ∧
      LoneTransfers Sample.env process.db 3 Sample.moveBoth ∧
      (process.db.outpointToInscriptionOffsets.get ⟨3, 0⟩).any (fun offsets => decide
        (Sample.env.backwards.iterate ⟨3, 0⟩ offsets ≠ Sample.env.iterate ⟨3, 0⟩ offsets)) =
          true :=
    replay_any (Sample.lockApart (Sample.mint "wojak" "2")) (by decide +kernel)
  obtain ⟨offsets, stored, different⟩ := (Option.any_eq_true _ _).mp apart
  exact ⟨process, reached, valid, ⟨offsets, stored, of_decide_eq_true different⟩,
    (history_reproducible _ _ lone).1⟩

/-- The order in which two transfers of one output are moved shows in the history. -/
theorem order_shows :
    ¬ ∀ process, Reachable Sample.env (fun _ _ => True) process → ∀ height block,
      (Event.block height block true).Valid Sample.env process →
      (handleBlock Sample.env.backwards process.server height block).toOption.map
          Handled.history =
        (handleBlock Sample.env process.server height block).toOption.map Handled.history := by
  intro claimed
  have found : ∃ process, Reachable Sample.env (fun _ _ => True) process ∧
      (Event.block 3 Sample.moveBoth true).Valid Sample.env process ∧
      (handleBlock Sample.env.backwards process.server 3 Sample.moveBoth).toOption.map
          Handled.history ≠
        (handleBlock Sample.env process.server 3 Sample.moveBoth).toOption.map Handled.history :=
    replay_any (Sample.lockApart (Sample.transfer "wojak" "2")) (by decide +kernel)
  obtain ⟨process, reached, valid, different⟩ := found
  exact different (claimed process reached 3 Sample.moveBoth valid)

end WjkIndexer
