import WjkIndexer.Blk.Producer

/-!
The length of the reorgs that the producer reports, against the chain of its consumer.
-/

namespace WjkIndexer.Blk

def adopt (chain : List BlockId) (event : BlockEvent) : List BlockId :=
  event.id :: chain.drop event.reorgLen

def consumerChain (start : List BlockId) (sent : List BlockEvent) : List BlockId :=
  sent.foldl adopt start

theorem consumerChain_concat (start : List BlockId) (sent : List BlockEvent) (event : BlockEvent) :
    consumerChain start (sent ++ [event]) =
      event.id :: (consumerChain start sent).drop event.reorgLen := by
  rw [consumerChain, List.foldl_append]
  rfl

def Consecutive (ids : List BlockId) : Prop :=
  ids.IsChain fun upper lower => upper.height = lower.height + 1

structure ExactReorg (chain : List BlockId) (event : BlockEvent) : Prop where
  parent : ∃ parent ∈ (chain.drop event.reorgLen).head?,
    event.block.header.prevHash = parent.hash ∧ event.id.height = parent.height + 1
  abandoned : ∀ id ∈ chain.take event.reorgLen, event.id.height ≤ id.height

theorem Consecutive.drop {ids : List BlockId} (consecutive : Consecutive ids) (count : Nat) :
    Consecutive (ids.drop count) :=
  List.IsChain.drop consecutive count

theorem Consecutive.head_drop {ids : List BlockId} (consecutive : Consecutive ids) {count : Nat}
    {first other : BlockId} (top : ids.head? = some first)
    (found : (ids.drop count).head? = some other) : first.height = other.height + count := by
  induction count generalizing ids first with
  | zero =>
      rw [List.drop_zero, top] at found
      cases found
      rfl
  | succ count ih =>
      cases ids with
      | nil => cases top
      | cons head rest =>
          cases top
          rw [List.drop_succ_cons] at found
          cases rest with
          | nil => simp at found
          | cons second rest =>
              have step := (List.isChain_cons_cons.mp consecutive).1
              have below := ih (List.isChain_cons_cons.mp consecutive).2 rfl found
              omega

theorem Consecutive.take_higher {ids : List BlockId} (consecutive : Consecutive ids) {count : Nat}
    {other id : BlockId} (found : (ids.drop count).head? = some other)
    (listed : id ∈ ids.take count) : other.height < id.height := by
  induction count generalizing ids with
  | zero => simp at listed
  | succ count ih =>
      cases ids with
      | nil => simp at listed
      | cons head rest =>
          rw [List.drop_succ_cons] at found
          rw [List.take_succ_cons, List.mem_cons] at listed
          rcases listed with rfl | later
          · have counted := consecutive.head_drop rfl
              (show ((id :: rest).drop (count + 1)).head? = some other from found)
            omega
          · exact ih consecutive.tail found later

theorem consumerChain_consecutive {start : List BlockId} (consecutive : Consecutive start)
    {sent : List BlockEvent} (exact : ∀ before event after, sent = before ++ event :: after →
      ExactReorg (consumerChain start before) event) :
    Consecutive (consumerChain start sent) := by
  induction sent using List.reverseRecOn with
  | nil => exact consecutive
  | append_singleton before event ih =>
      have below := ih fun front other rest same =>
        exact front other (rest ++ [event]) (by simp [same])
      obtain ⟨parent, found, _, height⟩ := (exact before event [] rfl).parent
      obtain ⟨others, shape⟩ := List.head?_eq_some_iff.mp found
      have rest := below.drop event.reorgLen
      rw [consumerChain_concat]
      rw [shape] at rest ⊢
      exact List.isChain_cons_cons.mpr ⟨height, rest⟩

theorem split_concat {α : Type} {elements before after : List α} {last element : α}
    (split : elements ++ [last] = before ++ element :: after) :
    before = elements ∧ element = last ∨ ∃ rest, elements = before ++ element :: rest := by
  rcases List.eq_nil_or_concat after with rfl | ⟨rest, final, shape⟩
  · left
    obtain ⟨same, ends⟩ := List.append_inj' split rfl
    cases ends
    exact ⟨same.symm, rfl⟩
  · right
    refine ⟨rest, ?_⟩
    rw [shape, List.concat_eq_append, ← List.cons_append, ← List.append_assoc] at split
    exact (List.append_inj' split rfl).1

def Phase.polled : Phase → Option (CheckPoint × Nat)
  | .files _ | .complete | .fill _ => none
  | .poll checkpoint => some (checkpoint, 0)
  | .rewind checkpoint _ reorgCounter => some (checkpoint, reorgCounter)
  | .forward checkpoint _ reorgCounter => some (checkpoint, reorgCounter)

/-- The producer has taken blocks off the checkpoint and goes back to polling without a word: the
best chain does not reach above the checkpoint, or a block above it is not its child. -/
def Phase.Abandons (nodes : Node × Node) : Phase → Prop
  | .forward checkpoint bestHeight reorgCounter =>
      0 < reorgCounter ∧ (bestHeight ≤ checkpoint.height ∨
        ∃ block ∈ (nodes.1.getBlockHash (checkpoint.height + 1)).bind nodes.2.getBlock,
          block.header.prevHash ≠ checkpoint.hash)
  | .files _ | .complete | .fill _ | .poll _ | .rewind .. => False

instance Phase.decideAbandons (nodes : Node × Node) :
    (phase : Phase) → Decidable (phase.Abandons nodes)
  | .forward checkpoint bestHeight reorgCounter =>
      inferInstanceAs (Decidable (0 < reorgCounter ∧ (bestHeight ≤ checkpoint.height ∨
        ∃ block ∈ (nodes.1.getBlockHash (checkpoint.height + 1)).bind nodes.2.getBlock,
          block.header.prevHash ≠ checkpoint.hash)))
  | .files _ | .complete | .fill _ | .poll _ | .rewind .. => isFalse id

namespace Producer

def Resumes (settings : Settings) (producer : Producer) (answers : List (Node × Node)) : Prop :=
  Machine.Along (step settings) (fun producer nodes => ¬ producer.phase.Abandons nodes) producer
    answers

instance (settings : Settings) (producer : Producer) (answers : List (Node × Node)) :
    Decidable (Resumes settings producer answers) :=
  Machine.Along.decide _ _ _ _

structure Polling (start : List BlockId) (producer : Producer) : Prop where
  counted : ∃ checkpoint reorgCounter,
    producer.phase.polled = some (checkpoint, reorgCounter) ∧
      (consumerChain start producer.sent).drop reorgCounter = checkpoint.ids
  consecutive : Consecutive (consumerChain start producer.sent)
  exact : ∀ before event after, producer.sent = before ++ event :: after →
    ExactReorg (consumerChain start before) event

variable {settings : Settings} {producer next : Producer} {nodes : Node × Node}
  {start : List BlockId}

theorem Polling.moved (polling : Polling start producer) {phase : Phase} {lastHash : BlockHash}
    {checkpoint : CheckPoint} {reorgCounter : Nat}
    (polled : phase.polled = some (checkpoint, reorgCounter))
    (counted : (consumerChain start producer.sent).drop reorgCounter = checkpoint.ids) :
    Polling start { producer with lastHash, phase } :=
  { polling with counted := ⟨checkpoint, reorgCounter, polled, counted⟩ }

theorem not_abandons_counter {checkpoint : CheckPoint} {bestHeight reorgCounter : Nat}
    (resumes : ¬ producer.phase.Abandons nodes)
    (phase : producer.phase = .forward checkpoint bestHeight reorgCounter)
    (back : bestHeight ≤ checkpoint.height ∨
      ∃ block ∈ (nodes.1.getBlockHash (checkpoint.height + 1)).bind nodes.2.getBlock,
        block.header.prevHash ≠ checkpoint.hash) : reorgCounter = 0 := by
  by_contra positive
  rw [phase] at resumes
  exact resumes ⟨Nat.pos_of_ne_zero positive, back⟩

theorem Polling.turn (polling : Polling start producer) (resumes : ¬ producer.phase.Abandons nodes)
    (turn : Turn settings producer nodes next) : Polling start next := by
  obtain ⟨held, count, polled, counted⟩ := polling.counted
  cases turn with
  | filesDone phase | filesSent phase | indexed phase | unindexed phase | filled phase
  | fillDone phase =>
      rw [phase] at polled
      cases polled
  | idle phase => exact polling
  | behind phase =>
      rw [phase] at polled
      cases polled
      exact polling.moved rfl counted
  | @popped checkpoint bestHash reorgCounter block below phase under =>
      rw [phase] at polled
      cases polled
      refine polling.moved rfl ?_
      rw [← List.drop_drop, counted, CheckPoint.ids, under]
      rfl
  | forked phase =>
      rw [phase] at polled
      cases polled
      exact polling.moved rfl counted
  | guarded phase lower answered fetched apart =>
      rw [phase] at polled
      cases polled
      have kept := not_abandons_counter resumes phase
      have none := kept (Or.inr
        ⟨_, Option.bind_eq_some_iff.mpr ⟨_, answered, fetched⟩, apart⟩)
      subst none
      exact polling.moved rfl counted
  | caughtUp phase reached =>
      rw [phase] at polled
      cases polled
      have kept := not_abandons_counter resumes phase
      have none := kept (Or.inl reached)
      subst none
      exact polling.moved rfl counted
  | @forwardSent checkpoint bestHeight reorgCounter hash block phase lower linked ordered =>
      rw [phase] at polled
      cases polled
      let event : BlockEvent := {
        id := { height := held.height + 1, hash }
        block
        reorgLen := count
        tip := bestHeight }
      have grown : consumerChain start (producer.sent ++ [event]) = event.id :: held.ids := by
        rw [consumerChain_concat, counted]
      have top : ((consumerChain start producer.sent).drop count).head? = some held.block := by
        rw [counted]
        rfl
      constructor
      · exact ⟨_, _, rfl, grown⟩
      · have below := polling.consecutive.drop count
        rw [counted] at below
        show Consecutive (consumerChain start (producer.sent ++ [event]))
        rw [grown]
        exact List.isChain_cons_cons.mpr ⟨rfl, below⟩
      · intro before other after split
        rcases split_concat split with ⟨rfl, rfl⟩ | ⟨rest, earlier⟩
        · constructor
          · exact ⟨held.block, top, linked, rfl⟩
          · intro id listed
            exact polling.consecutive.take_higher top listed
        · exact polling.exact before other rest earlier

/-- The reorg lengths are exact in every run of the polling loop in which each pass that takes
blocks off the checkpoint sends a block. -/
theorem reorgLen_exact {checkpoint : CheckPoint} {opening final : Producer}
    {answers : List (Node × Node)} (polls : opening.phase = .poll checkpoint)
    (fresh : opening.sent = []) (consecutive : Consecutive checkpoint.ids)
    (resumes : Resumes settings opening answers)
    (ran : answers.foldlM (step settings) opening = .ok final) :
    (∀ before event after, final.sent = before ++ event :: after →
      ExactReorg (consumerChain checkpoint.ids before) event) ∧
    ∀ before earlier later after, final.sent = before ++ earlier :: later :: after →
      later.id.height + later.reorgLen = earlier.id.height + 1 := by
  have polling : Polling checkpoint.ids opening := by
    constructor
    · exact ⟨checkpoint, 0, by rw [polls]; rfl, by rw [fresh]; rfl⟩
    · rw [fresh]
      exact consecutive
    · intro before event after split
      rw [fresh] at split
      cases before <;> cases split
  have reached := Machine.run_along ran resumes polling fun _ _ _ polling kept stepped =>
    polling.turn kept (step_turn stepped)
  refine ⟨reached.exact, ?_⟩
  intro before earlier later after split
  have shape : final.sent = (before ++ [earlier]) ++ later :: after := by simp [split]
  obtain ⟨parent, found, _, height⟩ := (reached.exact _ _ _ shape).parent
  have linked : Consecutive (consumerChain checkpoint.ids (before ++ [earlier])) :=
    consumerChain_consecutive consecutive fun front event rest same =>
      reached.exact front event (rest ++ later :: after) (by simp [shape, same])
  have top : (consumerChain checkpoint.ids (before ++ [earlier])).head? = some earlier.id := by
    rw [consumerChain_concat]
    rfl
  have counted := linked.head_drop top found
  omega

end Producer

namespace Sample

def blockOn (prev hash : Nat) : Block where
  header := { hash := BitVec.ofNat 256 hash, prevHash := BitVec.ofNat 256 prev, timestamp := 0 }
  txs := []

def nodeWith (best : List Nat) : Node where
  getBestBlockHash := best.getLast?.map (BitVec.ofNat 256)
  getBlockInfo hash :=
    match best.findIdx? (hash = BitVec.ofNat 256 ·) with
    | some place => some { confirmations := best.length - place, height := place + 1 }
    | none => some { confirmations := -1, height := 0 }
  getBlockHash height := best[height - 1]?.map (BitVec.ofNat 256)
  getBlock hash := (best.findIdx? (hash = BitVec.ofNat 256 ·)).bind fun place =>
    best[place]?.map (blockOn (best.getD (place - 1) 0))

def turns (count : Nat) (best : List Nat) : List (Node × Node) :=
  List.replicate count (nodeWith best, nodeWith best)

def settings : Settings where
  lastBlock := { height := 1, hash := BitVec.ofNat 256 11 }
  reorgMaxLen := 30
  chain := { blockIndex := ∅, blkFiles := none }

def begun : CheckPoint where
  block := { height := 2, hash := BitVec.ofNat 256 12 }
  below := [{ height := 1, hash := BitVec.ofNat 256 11 }]

def opening : Producer where
  lastHeight := 1
  lastHash := BitVec.ofNat 256 12
  phase := .poll begun

def replaced : List (Node × Node) := turns 5 [11, 12, 13] ++ turns 6 [11, 12, 23]

def shortened : List (Node × Node) :=
  turns 5 [11, 12, 13] ++ turns 4 [11, 12] ++ turns 6 [11, 12, 23]

end Sample

theorem replaced_exact :
    ∃ final, Sample.replaced.foldlM (Producer.step Sample.settings) Sample.opening = .ok final ∧
      (final.sent.map fun event => (event.id.height, event.reorgLen)) = [(3, 0), (3, 1)] ∧
      (∀ before event after, final.sent = before ++ event :: after →
        ExactReorg (consumerChain Sample.begun.ids before) event) ∧
      ∀ before earlier later after, final.sent = before ++ earlier :: later :: after →
        later.id.height + later.reorgLen = earlier.id.height + 1 := by
  have ends : (Sample.replaced.foldlM (Producer.step Sample.settings) Sample.opening).toOption.any
      (fun final => decide ((final.sent.map fun event => (event.id.height, event.reorgLen)) =
        [(3, 0), (3, 1)])) = true := by
    decide +kernel
  obtain ⟨final, found, sent⟩ := (Option.any_eq_true _ _).mp ends
  have ran := Machine.toOption_some.mp found
  exact ⟨final, ran, of_decide_eq_true sent, Producer.reorgLen_exact rfl rfl
    (List.isChain_cons_cons.mpr ⟨rfl, .singleton _⟩) (by decide +kernel) ran⟩

/-- Block 13 is taken off while the best chain is shorter, and block 23 is then sent as if it were
on top of it. -/
theorem shortened_inexact :
    ∃ final earlier later,
      Sample.shortened.foldlM (Producer.step Sample.settings) Sample.opening = .ok final ∧
        final.sent = [earlier, later] ∧
        later.id.height + later.reorgLen ≠ earlier.id.height + 1 := by
  have ends : (Sample.shortened.foldlM (Producer.step Sample.settings) Sample.opening).toOption.any
      (fun final => decide ((final.sent.map fun event => (event.id.height, event.reorgLen)) =
        [(3, 0), (3, 0)])) = true := by
    decide +kernel
  obtain ⟨final, found, sent⟩ := (Option.any_eq_true _ _).mp ends
  have counts := of_decide_eq_true sent
  match shape : final.sent with
  | [earlier, later] =>
      rw [shape] at counts
      simp only [List.map_cons, List.map_nil, List.cons.injEq, Prod.mk.injEq, and_true] at counts
      refine ⟨final, earlier, later, Machine.toOption_some.mp found, shape, ?_⟩
      omega
  | [] => simp [shape] at counts
  | [_] => simp [shape] at counts
  | _ :: _ :: _ :: _ => simp [shape] at counts

end WjkIndexer.Blk
