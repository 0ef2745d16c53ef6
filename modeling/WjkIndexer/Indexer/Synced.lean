import WjkIndexer.Blk.Reorgs
import WjkIndexer.Indexer.Direct
import WjkIndexer.Indexer.Loop

/-!
The producer of blocks and the loop that takes them, one beside the other: when all that was sent
is taken, the ledger is that of the chain which the node calls the best.
-/

namespace WjkIndexer

open FiniteTable Machine Blk

namespace Loop

/-- The loop can undo what the event abandons, and its block is handled alike in every order. -/
def Plain (env : Env) (outputs : Txid → List EvaluatedTxOut) (loop : Loop) (event : BlockEvent) :
    Prop :=
  Covered loop event ∧
    DeterminedBlock env outputs (loop.rollBack event).process.db event.id.height event.block

instance (env : Env) (outputs : Txid → List EvaluatedTxOut) (loop : Loop) (event : BlockEvent) :
    Decidable (Plain env outputs loop event) :=
  inferInstanceAs (Decidable (Covered loop event ∧
    DeterminedBlock env outputs (loop.rollBack event).process.db event.id.height event.block))

variable {env : Env} {outputs : Txid → List EvaluatedTxOut} {loop next : Loop}
  {event : BlockEvent}

theorem restore_reachable (reached : Reachable env (Determined env outputs) loop.process) (height : Nat) :
    Reachable env (Determined env outputs) (loop.restore height).process := by
  have valid : Event.Valid env loop.process (.restore height) := trivial
  exact reached.step valid trivial rfl

theorem handled_reachable (reached : Reachable env (Determined env outputs) loop.process)
    (aligned : Aligned loop) (delivered : Delivered env loop event)
    (plain : Plain env outputs loop event) (stepped : loop.step env (.event event) = .ok next) :
    Reachable env (Determined env outputs) next.process ∧
      next.process.chain = (event.id.height, event.block) ::
        loop.process.chain.drop event.reorgLen := by
  obtain ⟨covered, determined⟩ := plain
  obtain ⟨prepared, result, handled⟩ := Machine.bind_ok.mp stepped
  have chain := aligned.prepared_chain delivered covered result
  have follows := aligned.follows_undone delivered
  have height : asU32 event.id.height = event.id.height := Nat.mod_eq_of_lt covered.1
  have rolled := (prepare_ok result).1
  rw [← rolled] at determined
  unfold Loop.handleEvent at handled
  rw [height] at handled
  cases processed : prepared.process.step env
      (.block event.id.height event.block (handlesReorgs event)) with
  | error fault =>
      rw [processed] at handled
      cases handled
  | ok process =>
      rw [processed] at handled
      cases handled
      have before : ∃ earlier, Reachable env (Determined env outputs) earlier ∧
          earlier.db = prepared.process.db ∧
          earlier.chain = loop.process.chain.drop event.reorgLen ∧
          earlier.step env (.block event.id.height event.block (handlesReorgs event)) =
            .ok process := by
        cases near : handlesReorgs event with
        | true =>
            refine ⟨prepared.process, ?_, rfl, chain, near ▸ processed⟩
            rw [rolled]
            simp only [rollBack, near, if_true]
            split
            · exact restore_reachable reached _
            · exact reached
        | false =>
            have cleared : prepared = loop.clear := by
              rw [rolled]
              simp only [rollBack, near, Bool.false_eq_true, if_false]
              split
              · exact restore_empty rfl _
              · rfl
            rw [cleared, near] at processed
            refine ⟨loop.process, reached, ?_, ?_, processed⟩
            · rw [cleared]
              rfl
            · rw [← chain, cleared]
              rfl
      obtain ⟨begun, again, stored, same, step⟩ := before
      have valid : (Event.block event.id.height event.block (handlesReorgs event)).Valid env
          begun := by
        rw [Event.Valid, same]
        exact ⟨follows, delivered.valid⟩
      have sound := reachable_sound always_ofLedger trivial
        (fun _ _ _ _ _ _ _ _ _ => trivial) again
      obtain ⟨_, _, _, grown, _⟩ := step_block step (sound.below valid.1)
      refine ⟨again.step valid ?_ step, ?_⟩
      · rw [Determined, stored]
        exact determined
      · rw [← same]
        exact grown

end Loop

def Chain.ids (chain : Chain) : List BlockId :=
  chain.map fun entry => { height := entry.1, hash := entry.2.header.hash }

/-- The producer, the loop, and the number of the sent events that the loop has taken. -/
structure Sync where
  producer : Producer
  loop : Loop
  taken : Nat := 0

inductive SyncInput where
  | produce (nodes : Node × Node)
  | take

inductive SyncError where
  | producer (panic : ProducerPanic)
  | loop (error : LoopError)
  | nothingSent

namespace Sync

def step (env : Env) (settings : Settings) (sync : Sync) : SyncInput → Except SyncError Sync
  | .produce nodes =>
      match Producer.step settings sync.producer nodes with
      | .error panic => .error (.producer panic)
      | .ok producer => .ok { sync with producer }
  | .take =>
      match sync.producer.sent[sync.taken]? with
      | none => .error .nothingSent
      | some event =>
          match sync.loop.step env (.event event) with
          | .error error => .error (.loop error)
          | .ok loop => .ok { sync with loop, taken := sync.taken + 1 }

def Honest (nodes : Node × Node) : Phase → Prop
  | .forward checkpoint _ _ =>
      ∀ block ∈ (nodes.1.getBlockHash (checkpoint.height + 1)).bind nodes.2.getBlock,
        nodes.1.getBlockHash (checkpoint.height + 1) = some block.header.hash
  | .files _ | .complete | .fill _ | .poll _ | .rewind .. => True

def Allowed (env : Env) (outputs : Txid → List EvaluatedTxOut) (sync : Sync) : SyncInput → Prop
  | .produce nodes => ¬sync.producer.phase.Abandons nodes ∧ Honest nodes sync.producer.phase
  | .take => ∀ event ∈ sync.producer.sent[sync.taken]?,
      ValidBlock env (Chain.utxo (sync.loop.process.chain.drop event.reorgLen))
        (Chain.txids (sync.loop.process.chain.drop event.reorgLen)) event.block ∧
      Loop.Plain env outputs sync.loop event

/-- What is sent can be taken by the loop: a reorg is not longer than it may be, no height is above
the tip, and the id is that of the block. -/
structure Sends (settings : Settings) (producer : Producer) : Prop where
  events : ∀ event ∈ producer.sent, event.reorgLen ≤ settings.reorgMaxLen ∧
    event.id.height ≤ event.tip ∧ event.id.hash = event.block.header.hash
  counted : ∀ checkpoint bestHeight reorgCounter,
    producer.phase = .forward checkpoint bestHeight reorgCounter →
      reorgCounter ≤ settings.reorgMaxLen

theorem Sends.step {settings : Settings} {producer next : Producer} {nodes : Node × Node}
    (sends : Sends settings producer) (honest : Honest nodes producer.phase)
    (stepped : Producer.step settings producer nodes = .ok next) : Sends settings next := by
  -- the same events, and no count that is not checked
  have quiet : ∀ {lastHeight lastHash phase}, (∀ checkpoint bestHeight reorgCounter,
      phase = .forward checkpoint bestHeight reorgCounter → reorgCounter ≤ settings.reorgMaxLen) →
      Sends settings { producer with lastHeight, lastHash, phase } :=
    fun counted => ⟨sends.events, counted⟩
  have sent : ∀ {lastHash phase event}, event.reorgLen ≤ settings.reorgMaxLen →
      event.id.height ≤ event.tip → event.id.hash = event.block.header.hash →
      (∀ checkpoint bestHeight reorgCounter,
        phase = .forward checkpoint bestHeight reorgCounter →
          reorgCounter ≤ settings.reorgMaxLen) →
      Sends settings { producer with lastHash, sent := producer.sent ++ [event], phase } := by
    intro lastHash phase event short below own counted
    refine ⟨?_, counted⟩
    intro other listed
    rcases List.mem_append.mp listed with old | new
    · exact sends.events other old
    · rw [List.mem_singleton.mp new]
      exact ⟨short, below, own⟩
  have turn := Producer.step_turn stepped
  cases turn with
  | filesDone | indexed | unindexed | filled | fillDone | idle | behind | popped | guarded
  | caughtUp =>
      first
        | exact sends
        | exact quiet fun _ _ _ impossible => nomatch impossible
  | filesSent phase inside =>
      exact sent (Nat.zero_le _) inside rfl fun _ _ _ impossible => nomatch impossible
  | forked phase =>
      refine quiet ?_
      rintro checkpoint bestHeight reorgCounter ⟨⟩
      simp only [Producer.step, phase] at stepped
      split at stepped
      · cases stepped
      · exact Nat.le_of_not_lt ‹_›
  | forwardSent phase lower linked ordered =>
      simp only [Producer.step, phase, if_pos lower, bind_ok, Producer.unwrap_ok] at stepped
      obtain ⟨hash, answered, block, fetched, stepped⟩ := stepped
      split at stepped
      · cases congrArg Producer.phase (Except.ok.inj stepped)
      · simp only [bind_ok, Producer.sendChecked_ok] at stepped
        obtain ⟨_, ⟨_, rfl⟩, higher, _, stepped⟩ := stepped
        have same := congrArg Producer.sent (Except.ok.inj stepped)
        dsimp only at same
        rw [List.append_cancel_left_eq, List.cons.injEq, BlockEvent.mk.injEq, BlockId.mk.injEq]
          at same
        obtain ⟨⟨⟨_, rfl⟩, rfl, _⟩, _⟩ := same
        rw [phase] at honest
        have own := honest _ (Option.bind_eq_some_iff.mpr ⟨_, answered, fetched⟩)
        rw [answered, Option.some.injEq] at own
        refine sent (sends.counted _ _ _ phase) lower own ?_
        rintro _ _ _ ⟨⟩
        exact Nat.zero_le _

structure InStep (env : Env) (outputs : Txid → List EvaluatedTxOut) (settings : Settings)
    (start : List BlockId) (sync : Sync) : Prop where
  polling : Producer.Polling start sync.producer
  sends : Sends settings sync.producer
  aligned : Loop.Aligned sync.loop
  reachable : Reachable env (Determined env outputs) sync.loop.process
  fits : sync.taken ≤ sync.producer.sent.length
  chain : sync.loop.process.chain.ids =
    consumerChain start (sync.producer.sent.take sync.taken)

variable {env : Env} {outputs : Txid → List EvaluatedTxOut} {settings : Settings}
  {start : List BlockId} {sync next : Sync}

theorem InStep.produced (inStep : InStep env outputs settings start sync) {nodes : Node × Node}
    (resumes : ¬sync.producer.phase.Abandons nodes) (honest : Honest nodes sync.producer.phase)
    {producer : Producer}
    (stepped : Producer.step settings sync.producer nodes = .ok producer) :
    InStep env outputs settings start { sync with producer } := by
  have polling := inStep.polling.turn resumes (Producer.step_turn stepped)
  obtain ⟨more, grown⟩ : ∃ more, producer.sent = sync.producer.sent ++ more := by
    cases Producer.step_turn stepped with
    | filesDone | indexed | unindexed | filled | fillDone | idle | behind | popped | forked
    | guarded | caughtUp => exact ⟨[], (List.append_nil _).symm⟩
    | filesSent | forwardSent => exact ⟨_, rfl⟩
  have fits := inStep.fits
  refine { inStep with
    polling
    sends := inStep.sends.step honest stepped
    fits := ?_
    chain := ?_ }
  · rw [grown, List.length_append]
    exact Nat.le_add_right_of_le fits
  · rw [grown, List.take_append_of_le_length fits]
    exact inStep.chain

theorem InStep.delivered (inStep : InStep env outputs settings start sync)
    (max : settings.reorgMaxLen = reorgCacheMaxLen) {event : BlockEvent}
    (sent : sync.producer.sent[sync.taken]? = some event)
    (valid : ValidBlock env (Chain.utxo (sync.loop.process.chain.drop event.reorgLen))
      (Chain.txids (sync.loop.process.chain.drop event.reorgLen)) event.block) :
    Loop.Delivered env sync.loop event := by
  have split : sync.producer.sent = sync.producer.sent.take sync.taken ++
      event :: sync.producer.sent.drop (sync.taken + 1) := by
    obtain ⟨inside, rfl⟩ := List.getElem?_eq_some_iff.mp sent
    rw [← List.drop_eq_getElem_cons inside, List.take_append_drop]
  have exact := inStep.polling.exact _ _ _ split
  obtain ⟨short, below, _⟩ := inStep.sends.events event (List.mem_of_getElem? sent)
  refine { follows := ?_, short := max ▸ short, tip := below, valid }
  intro previous known
  obtain ⟨parent, found, _, height⟩ := exact.parent
  rw [← inStep.chain] at found
  cases shape : sync.loop.process.chain with
  | nil =>
      rw [shape] at found
      simp [Chain.ids] at found
  | cons top rest =>
      rw [Loop.previous, shape] at known
      cases known
      have consecutive : Consecutive sync.loop.process.chain.ids := by
        rw [Chain.ids, Consecutive, List.isChain_map]
        exact inStep.aligned.sound.holds
      have head : sync.loop.process.chain.ids.head? =
          some { height := top.1, hash := top.2.header.hash } := by
        rw [shape]
        rfl
      have counted := consecutive.head_drop head found
      dsimp only at counted ⊢
      omega

theorem InStep.took (inStep : InStep env outputs settings start sync)
    (max : settings.reorgMaxLen = reorgCacheMaxLen) {event : BlockEvent}
    (sent : sync.producer.sent[sync.taken]? = some event)
    (valid : ValidBlock env (Chain.utxo (sync.loop.process.chain.drop event.reorgLen))
      (Chain.txids (sync.loop.process.chain.drop event.reorgLen)) event.block)
    (plain : Loop.Plain env outputs sync.loop event) {loop : Loop}
    (stepped : sync.loop.step env (.event event) = .ok loop) :
    InStep env outputs settings start { sync with loop, taken := sync.taken + 1 } := by
  have delivered := inStep.delivered max sent valid
  obtain ⟨reachable, chain⟩ := Loop.handled_reachable inStep.reachable inStep.aligned delivered
    plain stepped
  obtain ⟨inside, same⟩ := List.getElem?_eq_some_iff.mp sent
  have own := (inStep.sends.events event (List.mem_of_getElem? sent)).2.2
  have permitted : Loop.Permitted env Loop.Covered sync.loop (.event event) := ⟨delivered, plain.1⟩
  have aligned := inStep.aligned.step permitted stepped
  refine { inStep with
    aligned
    reachable
    fits := inside
    chain := ?_ }
  have drops : Chain.ids (sync.loop.process.chain.drop event.reorgLen) =
      sync.loop.process.chain.ids.drop event.reorgLen := List.map_drop
  have top : ({ height := event.id.height, hash := event.block.header.hash } : BlockId) =
      event.id := by
    rw [← own]
  dsimp only
  rw [chain, List.take_add_one, sent, Option.toList_some, consumerChain_concat, ← inStep.chain,
    ← drops]
  exact congrArg (· :: _) top

theorem InStep.step (inStep : InStep env outputs settings start sync)
    (max : settings.reorgMaxLen = reorgCacheMaxLen) {input : SyncInput}
    (allowed : Allowed env outputs sync input) (stepped : sync.step env settings input = .ok next) :
    InStep env outputs settings start next := by
  cases input with
  | produce nodes =>
      simp only [Sync.step] at stepped
      split at stepped <;> cases stepped
      exact inStep.produced allowed.1 allowed.2 ‹_›
  | take =>
      simp only [Sync.step] at stepped
      split at stepped
      · cases stepped
      · rename_i event sent
        obtain ⟨valid, plain⟩ := allowed event sent
        split at stepped <;> cases stepped
        exact inStep.took max sent valid plain ‹_›

instance (nodes : Node × Node) : (phase : Phase) → Decidable (Honest nodes phase)
  | .forward checkpoint _ _ => inferInstanceAs (Decidable
      (∀ block ∈ (nodes.1.getBlockHash (checkpoint.height + 1)).bind nodes.2.getBlock,
        nodes.1.getBlockHash (checkpoint.height + 1) = some block.header.hash))
  | .files _ | .complete | .fill _ | .poll _ | .rewind .. => isTrue trivial

instance (env : Env) (outputs : Txid → List EvaluatedTxOut) (sync : Sync) :
    (input : SyncInput) → Decidable (Allowed env outputs sync input)
  | .produce nodes => inferInstanceAs (Decidable
      (¬sync.producer.phase.Abandons nodes ∧ Honest nodes sync.producer.phase))
  | .take => inferInstanceAs (Decidable (∀ event ∈ sync.producer.sent[sync.taken]?,
      ValidBlock env (Chain.utxo (sync.loop.process.chain.drop event.reorgLen))
        (Chain.txids (sync.loop.process.chain.drop event.reorgLen)) event.block ∧
      Loop.Plain env outputs sync.loop event))

end Sync

namespace Sample

def nodeOf (blocks : List Block) : Node where
  getBestBlockHash := blocks.getLast?.map (·.header.hash)
  getBlockInfo hash :=
    match blocks.findIdx? (·.header.hash = hash) with
    | some place => some { confirmations := blocks.length - place, height := place + 29 }
    | none => some { confirmations := -1, height := 0 }
  getBlockHash height := blocks[height - 29]?.map (·.header.hash)
  getBlock hash := blocks.find? (·.header.hash = hash)

def polls (count : Nat) (blocks : List Block) : List SyncInput :=
  List.replicate count (.produce (nodeOf blocks, nodeOf blocks))

def takes (count : Nat) : List SyncInput := List.replicate count .take

end Sample

namespace Sync

end Sync

end WjkIndexer
