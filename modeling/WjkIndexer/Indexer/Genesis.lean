import WjkIndexer.Indexer.Anchored
import WjkIndexer.Inscriptions.Numbered

/-!
Inscription ids over runs of blocks: each inscription is given an id where it begins, and
carries this id when it is completed, unless it is completed from stored parts and was not
the first of its transaction.
-/

namespace WjkIndexer

open FiniteTable

def blockTrace (env : Env) (server : Server) (height : Nat) (block : Block) (trace : Trace) :
    Trace :=
  if height < env.startHeight ∨ block.txs.length = 1 then trace
  else
    match Parser.traceBlock env server.db height block (spentPrevouts env server.db block)
        (loadedCache env server.db block) trace with
    | .error _ => trace
    | .ok traced => traced.2

/-- Runs of valid blocks from the empty database, with the trace of their inscriptions. -/
inductive Inscribed (env : Env) : Process → Trace → Prop where
  | start : Inscribed env {} {}
  | block {process next : Process} {trace : Trace} (run : Inscribed env process trace)
      {height : Nat} {new : Block} {handleReorgs : Bool}
      (valid : (Event.block height new handleReorgs).Valid env process)
      (stepped : process.step env (.block height new handleReorgs) = .ok next) :
      Inscribed env next (blockTrace env process.server height new trace)

section Run

variable {env : Env} {process next : Process} {trace : Trace} {height : Nat} {block : Block}
  {handled : Handled}

theorem Inscribed.forward (run : Inscribed env process trace) :
    ∃ made, Forward env process made := by
  induction run with
  | start => exact ⟨[], .start⟩
  | block run valid stepped ih =>
      obtain ⟨made, run⟩ := ih
      exact ⟨_, .block run valid stepped⟩

theorem numbered_handled {server : Server} {chain : Chain}
    (result : HandledBlock env server height block handled)
    (valid : ValidBlock env chain.utxo chain.txids block)
    (numbered : Numbered chain.txids server.db.outpointToPartials trace) :
    Numbered (chain.txids ∪ block.txids)
      (applyAll handled.processed server.db).outpointToPartials
      (blockTrace env server height block trace) := by
  have wider : Numbered (chain.txids ∪ block.txids) server.db.outpointToPartials trace :=
    { numbered with
      known := fun beginning member => Finset.mem_union_left _ (numbered.known beginning member) }
  cases result with
  | early before =>
      rw [blockTrace, if_pos (Or.inl before)]
      exact wider
  | empty begun alone =>
      rw [blockTrace, if_pos (Or.inr alone)]
      exact wider
  | @full begun several parsed done parsing processing =>
      obtain ⟨state, traced, ran, written⟩ := Parser.traceBlock_fst parsing trace
      rw [blockTrace, if_neg (by omega), ran]
      have after := numbered.traceBlock valid (fun _ => Chain.utxo_txid) ran
      rw [← written, ← (parseBlock_spec parsing).partialsToRemove] at after
      exact after

theorem inscribed_numbered (run : Inscribed env process trace) :
    Numbered process.chain.txids process.db.outpointToPartials trace := by
  induction run with
  | start =>
      refine {
        known := ?_
        counted := fun txid => ⟨0, rfl⟩
        began := ?_
        carries := ?_
        once := List.nodup_nil
        partials := ?_
        apart := ?_ }
      · exact fun _ impossible => absurd impossible List.not_mem_nil
      · exact fun _ impossible => absurd impossible List.not_mem_nil
      · exact fun _ impossible => absurd impossible List.not_mem_nil
      · intro outpoint stored impossible
        cases impossible
      · intro first second one other impossible
        cases impossible
  | block run valid stepped ih =>
      obtain ⟨made, run⟩ := run.forward
      obtain ⟨handled, result, db, chain⟩ := forward_step run valid stepped
      rw [db, chain, Chain.txids_cons]
      exact numbered_handled result valid.2 ih

/-- Every inscription of a run is given an id of its own where its first part stands. All that
are completed carry these ids if and only if those that are completed from stored parts were
the first of their transactions. -/
theorem genesis_given_iff (run : Inscribed env process trace) :
    (∀ txid, ∃ count, trace.indices txid = List.range count) ∧
    (∀ completion ∈ trace.completed, trace.Began completion.given completion.stored) ∧
    (trace.completed.map Completion.given).Nodup ∧
    (((∀ completion ∈ trace.completed, completion.template.genesis = completion.given) ∧
        (trace.completed.map fun completion => completion.template.genesis).Nodup) ↔
      ∀ completion ∈ trace.completed, ∀ stored ∈ completion.stored,
        stored.inscriptionIndex = 0) := by
  have numbered := inscribed_numbered run
  refine ⟨numbered.counted, numbered.began, numbered.once, ?_⟩
  constructor
  · rintro ⟨same, _⟩ completion member stored held
    have carries := numbered.carries completion member
    rw [Completion.Carries, Option.mem_def.mp held] at carries
    have genesis := same completion member
    rw [carries.1, carries.2] at genesis
    exact (congrArg InscriptionId.index genesis).symm
  · intro first
    have same : ∀ completion ∈ trace.completed,
        completion.template.genesis = completion.given := by
      intro completion member
      have carries := numbered.carries completion member
      unfold Completion.Carries at carries
      split at carries
      · exact carries
      · rename_i stored held
        rw [carries.1, carries.2, Partials.id, first completion member stored held]
    refine ⟨same, ?_⟩
    rw [List.map_congr_left same]
    exact numbered.once

end Run

namespace Sample

def firstHalf : Bytes :=
  [0x03] ++ protocolId ++ [0x52, 0x0a] ++ TokenCache.textPlain ++ [0x51, 0x01, 0x61]

def secondHalf : Bytes := [0x00, 0x01, 0x62]

def sign (txid : Txid) (vout : Nat) (scriptSig : Bytes) : TxInput :=
  { outpoint := ⟨txid, vout⟩, scriptSig, witness := [] }

def oneHalf : List (Nat × Block) := [
  (1, block 101 [coinbase 1 [pay sender 50]]),
  (2, block 102 [coinbase 2 [pay sender 50], {
    hash := 3
    inputs := [sign 1 0 firstHalf]
    outputs := [pay sender 50] }]),
  (3, block 103 [coinbase 4 [pay sender 50], {
    hash := 5
    inputs := [sign 3 0 secondHalf]
    outputs := [pay sender 50] }])]

def halves : List (Nat × Block) := [
  (1, block 101 [coinbase 1 [pay sender 50, pay sender 50]]),
  (2, block 102 [coinbase 2 [pay sender 50], {
    hash := 3
    inputs := [sign 1 0 firstHalf, sign 1 1 firstHalf]
    outputs := [pay sender 50, pay sender 50] }]),
  (3, block 103 [coinbase 4 [pay sender 50], {
    hash := 5
    inputs := [sign 3 0 secondHalf, sign 3 1 secondHalf]
    outputs := [pay sender 50, pay sender 50] }])]

end Sample

def replayInscribed (env : Env) (blocks : List (Nat × Block)) : Option (Process × Trace) :=
  blocks.foldlM (fun (process, trace) (height, new) =>
    (process.checkedStep env (fun _ _ => True) (.block height new true)).map fun next =>
      (next, blockTrace env process.server height new trace)) ({}, {})

theorem replayInscribed_inscribed {env : Env} {blocks : List (Nat × Block)} {process : Process}
    {trace : Trace} (ran : replayInscribed env blocks = some (process, trace)) :
    Inscribed env process trace := by
  suffices general : ∀ state : Process × Trace, Inscribed env state.1 state.2 →
      blocks.foldlM (fun (process, trace) (height, new) =>
        (process.checkedStep env (fun _ _ => True) (.block height new true)).map fun next =>
          (next, blockTrace env process.server height new trace)) state =
        some (process, trace) → Inscribed env process trace from general ({}, {}) .start ran
  clear ran
  induction blocks with
  | nil =>
      rintro state run same
      cases same
      exact run
  | cons entry rest ih =>
      rintro ⟨process, trace⟩ run ran
      rw [List.foldlM_cons] at ran
      obtain ⟨state, stepped, later⟩ := Option.bind_eq_some_iff.mp ran
      obtain ⟨next, checked, rfl⟩ := Option.map_eq_some_iff.mp stepped
      obtain ⟨valid, _, result⟩ := checkedStep_some checked
      exact ih _ (.block run valid result) later

theorem half_genesis :
    ∃ process trace, Inscribed Sample.env process trace ∧
      (trace.completed.map fun completion => completion.stored.isSome) = [true] ∧
      (∀ completion ∈ trace.completed, completion.template.genesis = completion.given) ∧
      (trace.completed.map fun completion => completion.template.genesis).Nodup := by
  have ran : (replayInscribed Sample.env Sample.oneHalf).any (fun state => decide
      ((state.2.completed.map fun completion => completion.stored.isSome) = [true] ∧
        ∀ completion ∈ state.2.completed, (completion.stored.map
          Partials.inscriptionIndex).getD 0 = 0)) = true := by
    decide +kernel
  obtain ⟨⟨process, trace⟩, final, checked⟩ := (Option.any_eq_true _ _).mp ran
  obtain ⟨later, first⟩ := of_decide_eq_true checked
  have run := replayInscribed_inscribed final
  have carried := (genesis_given_iff run).2.2.2.mpr ?_
  · exact ⟨process, trace, run, later, carried⟩
  · intro completion member stored held
    have index := first completion member
    rw [Option.mem_def.mp held] at index
    exact index

/-- Two inscriptions of one transaction carry the same id when both are completed later. -/
theorem halves_clash :
    ¬ ∀ process trace, Inscribed Sample.env process trace →
      (∀ completion ∈ trace.completed, completion.template.genesis = completion.given) ∧
        (trace.completed.map fun completion => completion.template.genesis).Nodup := by
  intro claimed
  have ran : (replayInscribed Sample.env Sample.halves).any (fun state => decide
      (state.2.completed.map (fun completion => completion.template.genesis) =
        [⟨3, 0⟩, ⟨3, 0⟩])) = true := by
    decide +kernel
  obtain ⟨⟨process, trace⟩, final, checked⟩ := (Option.any_eq_true _ _).mp ran
  have same := of_decide_eq_true checked
  have distinct := (claimed process trace (replayInscribed_inscribed final)).2
  rw [same] at distinct
  exact absurd distinct (by decide)

end WjkIndexer
