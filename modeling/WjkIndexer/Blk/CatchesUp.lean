import WjkIndexer.Blk.Reorgs
import WjkIndexer.Library.Reaches

/-!
The progress of the producer: a node that keeps its best chain for some turns has all of it sent.
-/

namespace WjkIndexer.Blk

/-- The best chain of a node from the block on at which another chain forks off. -/
structure Branch where
  fork : Nat
  top : Nat
  blockAt : Nat → Block

namespace Branch

def id (branch : Branch) (height : Nat) : BlockId :=
  { height, hash := (branch.blockAt height).header.hash }

def ids (branch : Branch) : Nat → List BlockId
  | 0 => [branch.id branch.fork]
  | count + 1 => branch.id (branch.fork + count + 1) :: branch.ids count

def events (branch : Branch) (reorgLen : Nat) : Nat → List BlockEvent
  | 0 => []
  | count + 1 => branch.events reorgLen count ++ [{
      id := branch.id (branch.fork + count + 1)
      block := branch.blockAt (branch.fork + count + 1)
      reorgLen := if count = 0 then reorgLen else 0
      tip := branch.top }]

structure Joins (branch : Branch) (left : List BlockId) : Prop where
  above : branch.fork ≤ branch.top
  resumes : left ≠ [] → branch.fork < branch.top
  linked : ∀ height, branch.fork ≤ height → height < branch.top →
    (branch.blockAt (height + 1)).header.prevHash = (branch.blockAt height).header.hash

/-- The node answers: it has the branch in its best chain, and the blocks that are left off it. -/
structure Serves (branch : Branch) (left : List BlockId) (node : Node) : Prop where
  best : node.getBestBlockHash = some (branch.id branch.top).hash
  info : ∀ height, branch.fork ≤ height → height ≤ branch.top →
    ∃ result, node.getBlockInfo (branch.id height).hash = some result ∧
      0 ≤ result.confirmations ∧ result.height = height
  hashes : ∀ height, branch.fork < height → height ≤ branch.top →
    node.getBlockHash height = some (branch.id height).hash
  blocks : ∀ height, branch.fork < height → height ≤ branch.top →
    node.getBlock (branch.id height).hash = some (branch.blockAt height)
  -- a node that does not answer makes the client stop the whole process
  stale : ∀ id ∈ left, ∃ result, node.getBlockInfo id.hash = some result ∧ result.confirmations < 0

theorem head_ids (branch : Branch) (count : Nat) :
    (branch.ids count).head? = some (branch.id (branch.fork + count)) := by
  cases count <;> rfl

theorem consumed (branch : Branch) {start left rest : List BlockId} {sent : List BlockEvent}
    (chain : consumerChain start sent = left ++ branch.id branch.fork :: rest) {count : Nat}
    (some : left = [] ∨ 0 < count) :
    consumerChain start (sent ++ branch.events left.length count) = branch.ids count ++ rest := by
  have first : (left ++ branch.id branch.fork :: rest).drop left.length = branch.ids 0 ++ rest :=
    List.drop_left
  induction count with
  | zero =>
      rcases some with rfl | positive
      · rw [events, List.append_nil, chain]
        rfl
      · cases positive
  | succ count ih =>
      rw [events, ← List.append_assoc, consumerChain_concat]
      cases count with
      | zero =>
          rw [events, List.append_nil, chain, if_pos rfl, first]
          rfl
      | succ count =>
          rw [ih (Or.inr (Nat.succ_pos _)), if_neg (Nat.succ_ne_zero _), List.drop_zero]
          rfl

end Branch

inductive Heading (branch : Branch) (left rest : List BlockId) (sent : List BlockEvent)
    (producer : Producer) : Nat → Prop where
  | poll {checkpoint : CheckPoint} (phase : producer.phase = .poll checkpoint)
      (ids : checkpoint.ids = left ++ branch.id branch.fork :: rest)
      (behind : branch.fork < branch.top) (last : producer.lastHash = checkpoint.hash)
      (same : producer.sent = sent) :
      Heading branch left rest sent producer (left.length + (branch.top - branch.fork) + 3)
  | rewind {checkpoint : CheckPoint} {count : Nat}
      (phase : producer.phase = .rewind checkpoint (branch.id branch.top).hash count)
      (fits : count ≤ left.length)
      (ids : checkpoint.ids = left.drop count ++ branch.id branch.fork :: rest)
      (last : producer.lastHash = checkpoint.hash) (same : producer.sent = sent) :
      Heading branch left rest sent producer
        (left.length - count + (branch.top - branch.fork) + 2)
  | forward {checkpoint : CheckPoint} {count : Nat}
      (phase : producer.phase = .forward checkpoint branch.top
        (if count = 0 then left.length else 0))
      (fits : branch.fork + count ≤ branch.top) (ids : checkpoint.ids = branch.ids count ++ rest)
      (last : producer.lastHash = checkpoint.hash)
      (same : producer.sent = sent ++ branch.events left.length count) :
      Heading branch left rest sent producer (branch.top - branch.fork - count + 1)
  | settled {checkpoint : CheckPoint} (phase : producer.phase = .poll checkpoint)
      (ids : checkpoint.ids = branch.ids (branch.top - branch.fork) ++ rest)
      (last : producer.lastHash = checkpoint.hash)
      (same : producer.sent =
        sent ++ branch.events left.length (branch.top - branch.fork)) :
      Heading branch left rest sent producer 0

namespace Heading

variable {settings : Settings} {branch : Branch} {left rest : List BlockId}
  {sent : List BlockEvent} {producer : Producer} {nodes : Node × Node} {turns : Nat}

theorem checkpoint_block {checkpoint : CheckPoint} {id : BlockId} {others : List BlockId}
    (ids : checkpoint.ids = id :: others) : checkpoint = { block := id, below := others } := by
  cases checkpoint
  cases ids
  rfl

theorem hash_apart (serves : branch.Serves left nodes.1) {lower upper : Nat}
    (low : branch.fork ≤ lower) (less : lower < upper) (high : upper ≤ branch.top) :
    (branch.id upper).hash ≠ (branch.id lower).hash := by
  intro same
  obtain ⟨first, answered, _, height⟩ := serves.info upper (by omega) high
  obtain ⟨second, again, _, other⟩ := serves.info lower low (by omega)
  rw [same, again] at answered
  cases answered
  omega

theorem stale_apart (serves : branch.Serves left nodes.1) {id : BlockId} (listed : id ∈ left)
    {height : Nat} (low : branch.fork ≤ height) (high : height ≤ branch.top) :
    (branch.id height).hash ≠ id.hash := by
  intro same
  obtain ⟨result, answered, confirmed, _⟩ := serves.info height low high
  obtain ⟨other, again, negative⟩ := serves.stale id listed
  rw [← same, answered] at again
  cases again
  omega

theorem poll_turn {checkpoint : CheckPoint} (joins : branch.Joins left)
    (serves : branch.Serves left nodes.1) (phase : producer.phase = .poll checkpoint)
    (ids : checkpoint.ids = left ++ branch.id branch.fork :: rest)
    (behind : branch.fork < branch.top) (last : producer.lastHash = checkpoint.hash)
    (same : producer.sent = sent) :
    ∃ next, Producer.step settings producer nodes = .ok next ∧
      Heading branch left rest sent next (left.length - 0 + (branch.top - branch.fork) + 2) := by
  have apart : (branch.id branch.top).hash ≠ checkpoint.hash := by
    cases left with
    | nil =>
        rw [checkpoint_block ids]
        exact hash_apart serves (Nat.le_refl _) behind (Nat.le_refl _)
    | cons id others =>
        rw [checkpoint_block ids]
        exact stale_apart serves List.mem_cons_self joins.above (Nat.le_refl _)
  refine ⟨{ producer with phase := .rewind checkpoint (branch.id branch.top).hash 0 }, ?_, ?_⟩
  · simp only [Producer.step, phase, serves.best, unwrap, bind, Except.bind]
    rw [if_pos apart]
  · exact .rewind rfl (Nat.zero_le _) ids last same

theorem rewind_turn {checkpoint : CheckPoint} {count : Nat} (joins : branch.Joins left)
    (first : branch.Serves left nodes.1) (second : branch.Serves left nodes.2)
    (short : left.length ≤ settings.reorgMaxLen)
    (phase : producer.phase = .rewind checkpoint (branch.id branch.top).hash count)
    (fits : count ≤ left.length)
    (ids : checkpoint.ids = left.drop count ++ branch.id branch.fork :: rest)
    (last : producer.lastHash = checkpoint.hash) (same : producer.sent = sent) :
    ∃ next turns, Producer.step settings producer nodes = .ok next ∧
      Heading branch left rest sent next turns ∧
      turns + 1 = left.length - count + (branch.top - branch.fork) + 2 := by
  have counted : ¬ settings.reorgMaxLen < count := by omega
  rcases Nat.lt_or_eq_of_le fits with more | whole
  · -- the newest block is left, and the one below it is next
    have shape := List.drop_eq_getElem_cons more
    rw [shape, List.cons_append] at ids
    have stale : ((nodes.1.getBlockInfo left[count].hash).all fun result =>
        decide (result.confirmations < 0)) = true := by
      obtain ⟨result, answered, negative⟩ := first.stale _ (List.getElem_mem more)
      rw [answered]
      exact decide_eq_true negative
    obtain ⟨below, others, under⟩ : ∃ below others,
        left.drop (count + 1) ++ branch.id branch.fork :: rest = below :: others := by
      cases left.drop (count + 1) <;> exact ⟨_, _, rfl⟩
    rw [under] at ids
    refine ⟨{ producer with
      lastHash := below.hash
      phase := .rewind { block := below, below := others } (branch.id branch.top).hash (count + 1) },
      left.length - (count + 1) + (branch.top - branch.fork) + 2, ?_, ?_, by omega⟩
    · rw [checkpoint_block ids] at phase
      simp only [Producer.step, phase, if_neg counted, CheckPoint.hash]
      exact if_pos stale
    · exact .rewind rfl more under.symm rfl same
  · subst whole
    rw [List.drop_length, List.nil_append] at ids
    obtain ⟨result, answered, confirmed, _⟩ := first.info _ (Nat.le_refl _) joins.above
    obtain ⟨best, told, _, height⟩ := second.info _ joins.above (Nat.le_refl _)
    have kept : ¬ (((nodes.1.getBlockInfo (branch.id branch.fork).hash).all fun result =>
        decide (result.confirmations < 0)) = true) := by
      rw [answered]
      simpa using confirmed
    refine ⟨{ producer with phase := .forward checkpoint branch.top left.length },
      branch.top - branch.fork - 0 + 1, ?_, ?_, by omega⟩
    · rw [checkpoint_block ids] at phase ⊢
      simp only [Producer.step, phase, if_neg counted, CheckPoint.hash]
      refine (if_neg kept).trans ?_
      simp only [told, unwrap, bind, Except.bind, height]
    · refine .forward rfl joins.above ids last ?_
      rw [same, Branch.events, List.append_nil]

theorem forward_turn {checkpoint : CheckPoint} {count : Nat} (joins : branch.Joins left)
    (first : branch.Serves left nodes.1) (second : branch.Serves left nodes.2)
    (phase : producer.phase = .forward checkpoint branch.top (if count = 0 then left.length else 0))
    (fits : branch.fork + count ≤ branch.top) (ids : checkpoint.ids = branch.ids count ++ rest)
    (last : producer.lastHash = checkpoint.hash)
    (same : producer.sent = sent ++ branch.events left.length count) :
    ∃ next, Producer.step settings producer nodes = .ok next ∧
      Heading branch left rest sent next (branch.top - branch.fork - count) := by
  have newest : checkpoint.block = branch.id (branch.fork + count) := by
    have head := congrArg List.head? ids
    rw [List.head?_append, branch.head_ids] at head
    exact Option.some.inj head
  have height : checkpoint.height = branch.fork + count := by rw [CheckPoint.height, newest]; rfl
  rcases Nat.lt_or_eq_of_le fits with more | whole
  · have linked := joins.linked (branch.fork + count) (by omega) more
    have parent : (branch.blockAt (branch.fork + count + 1)).header.prevHash = checkpoint.hash := by
      rw [linked, CheckPoint.hash, newest]
      rfl
    have answered := first.hashes (branch.fork + count + 1) (by omega) more
    have fetched := second.blocks (branch.fork + count + 1) (by omega) more
    refine ⟨{ producer with
      lastHash := (branch.blockAt (branch.fork + count + 1)).header.hash
      sent := sent ++ branch.events left.length (count + 1)
      phase := .forward {
        block := branch.id (branch.fork + count + 1), below := checkpoint.ids } branch.top 0 },
      ?_, ?_⟩
    · have ordered : producer.lastHash =
          (branch.blockAt (branch.fork + count + 1)).header.prevHash := last.trans parent.symm
      have inserted := CheckPoint.insert_above
        (show checkpoint.height < (branch.id (branch.fork + count + 1)).height by
          rw [height]; exact Nat.lt_succ_self _)
      have step : Producer.step settings producer nodes =
          (producer.sendChecked {
            id := branch.id (branch.fork + count + 1)
            block := branch.blockAt (branch.fork + count + 1)
            reorgLen := if count = 0 then left.length else 0
            tip := branch.top }).bind fun producer =>
              (checkpoint.insert (branch.id (branch.fork + count + 1))).bind fun checkpoint =>
                .ok { producer with phase := .forward checkpoint branch.top 0 } := by
        simp only [Producer.step, phase, height, if_pos more, answered, fetched, unwrap, bind,
          Except.bind]
        exact if_neg (not_not.mpr parent)
      rw [step, Producer.sendChecked, if_neg (not_not.mpr ordered), inserted, same]
      simp only [Except.bind, Branch.events, List.append_assoc]
    · have turns : branch.top - branch.fork - count =
          branch.top - branch.fork - (count + 1) + 1 := by omega
      rw [turns]
      refine .forward rfl more ?_ rfl rfl
      rw [CheckPoint.ids, ids]
      rfl
  · refine ⟨{ producer with phase := .poll checkpoint }, ?_, ?_⟩
    · simp only [Producer.step, phase, height]
      rw [if_neg (by omega)]
    · have done : branch.top - branch.fork = count := by omega
      rw [done, Nat.sub_self]
      refine .settled rfl ?_ last ?_
      · rw [done, ids]
      · rw [done]
        exact same

theorem settled_turn {checkpoint : CheckPoint} (joins : branch.Joins left)
    (serves : branch.Serves left nodes.1) (phase : producer.phase = .poll checkpoint)
    (ids : checkpoint.ids = branch.ids (branch.top - branch.fork) ++ rest) :
    Producer.step settings producer nodes = .ok producer := by
  have newest : checkpoint.block = branch.id branch.top := by
    have head := congrArg List.head? ids
    rw [List.head?_append, branch.head_ids, Nat.add_sub_cancel' joins.above] at head
    exact Option.some.inj head
  simp only [Producer.step, phase, serves.best, unwrap, bind, Except.bind]
  rw [if_neg (not_not.mpr (by rw [CheckPoint.hash, newest]))]

theorem turn (joins : branch.Joins left) (short : left.length ≤ settings.reorgMaxLen)
    (heading : Heading branch left rest sent producer turns)
    (serves : branch.Serves left nodes.1 ∧ branch.Serves left nodes.2) :
    ∃ next fewer, Producer.step settings producer nodes = .ok next ∧
      Heading branch left rest sent next fewer ∧ fewer ≤ turns - 1 := by
  obtain ⟨first, second⟩ := serves
  cases heading with
  | poll phase ids behind last same =>
      obtain ⟨next, stepped, further⟩ := poll_turn joins first phase ids behind last same
      exact ⟨next, _, stepped, further, by omega⟩
  | rewind phase fits ids last same =>
      obtain ⟨next, fewer, stepped, further, less⟩ :=
        rewind_turn joins first second short phase fits ids last same
      exact ⟨next, fewer, stepped, further, by omega⟩
  | forward phase fits ids last same =>
      obtain ⟨next, stepped, further⟩ := forward_turn joins first second phase fits ids last same
      exact ⟨next, _, stepped, further, Nat.le_refl _⟩
  | settled phase ids last same =>
      exact ⟨producer, 0, settled_turn joins first phase ids, .settled phase ids last same,
        Nat.zero_le _⟩

end Heading

namespace Sample

end Sample

end WjkIndexer.Blk
