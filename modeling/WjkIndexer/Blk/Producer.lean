import WjkIndexer.Blk.Index
import WjkIndexer.Library.Machine

/-!
The producer of blocks: it sends what the block files hold, then polls a node for its best chain,
takes blocks that left it off a checkpoint and sends those that joined it.
-/

namespace WjkIndexer.Blk

open FiniteTable

structure BlockId where
  height : Nat
  hash : BlockHash
  deriving DecidableEq, Repr

inductive ProducerPanic where
  | unwrap
  -- `Invalid blocks order. Expected {} got {}`
  | invalidOrder (expected got : BlockHash)
  -- `Reorg chain is too long`
  | reorgTooLong
  -- `cannot replace genesis block`
  | genesisReplaced
  deriving DecidableEq, Repr

structure CheckPoint where
  block : BlockId
  below : List BlockId
  deriving DecidableEq, Repr

namespace CheckPoint

def height (checkpoint : CheckPoint) : Nat := checkpoint.block.height

def hash (checkpoint : CheckPoint) : BlockHash := checkpoint.block.hash

def ids (checkpoint : CheckPoint) : List BlockId := checkpoint.block :: checkpoint.below

def prev (checkpoint : CheckPoint) : Option CheckPoint :=
  match checkpoint.below with
  | [] => none
  | block :: below => some { block, below }

def push (checkpoint : CheckPoint) (block : BlockId) : Option CheckPoint :=
  if checkpoint.height < block.height then some { block, below := checkpoint.ids } else none

def extend (checkpoint : CheckPoint) : List BlockId → Option CheckPoint
  | [] => some checkpoint
  | block :: rest => (checkpoint.push block).bind fun next => next.extend rest

def fromBlockIds : List BlockId → Option CheckPoint
  | [] => none
  | block :: rest => extend { block, below := [] } rest

/-- What the loop of `insert` finds: the block itself, or a checkpoint to put it on and the blocks
to put back. -/
inductive Base where
  | present
  | below (base : CheckPoint) (tail : List BlockId)
  deriving DecidableEq, Repr

def findBase (blockId : BlockId) : BlockId → List BlockId → List BlockId →
    Except ProducerPanic Base
  | block, below, tail =>
      if block.height = blockId.height then
        if block.hash = blockId.hash then .ok .present
        else if block.height = 0 then .error .genesisReplaced
        else
          match below with
          | [] => .error .unwrap
          | next :: rest => .ok (.below { block := next, below := rest } [])
      else if block.height < blockId.height then .ok (.below { block, below } tail)
      else
        match below with
        | [] => .error .unwrap
        | next :: rest => findBase blockId next rest (block :: tail)

def insert (checkpoint : CheckPoint) (blockId : BlockId) : Except ProducerPanic CheckPoint := do
  match ← findBase blockId checkpoint.block checkpoint.below [] with
  | .present => .ok checkpoint
  | .below base tail =>
      match base.extend (blockId :: tail) with
      | none => .error .unwrap
      | some next => .ok next

theorem insert_above {checkpoint : CheckPoint} {blockId : BlockId}
    (above : checkpoint.height < blockId.height) :
    checkpoint.insert blockId = .ok { block := blockId, below := checkpoint.ids } := by
  have different : checkpoint.block.height ≠ blockId.height := Nat.ne_of_lt above
  have base : findBase blockId checkpoint.block checkpoint.below [] =
      .ok (.below checkpoint []) := by
    rw [findBase.eq_def]
    exact (if_neg different).trans (if_pos above)
  rw [insert, base]
  simp only [bind, Except.bind, extend, push, if_pos above, Option.bind_some]

end CheckPoint

/-- The part of `getblock` that the loop reads. -/
structure GetBlockResult where
  confirmations : Int
  height : Nat
  deriving DecidableEq, Repr

structure Node where
  getBestBlockHash : Option BlockHash
  getBlockInfo : BlockHash → Option GetBlockResult
  getBlockHash : Nat → Option BlockHash
  getBlock : BlockHash → Option Block

structure BlockEvent where
  id : BlockId
  block : Block
  reorgLen : Nat
  tip : Nat
  deriving DecidableEq, Repr

structure ChainStorage where
  blockIndex : Table Nat BlockIndexRecordSmall
  blkFiles : Option (Table Nat (Nat → Option Block))

namespace ChainStorage

def maxHeight (chain : ChainStorage) : Nat := chain.blockIndex.keys.sup id

def getBlock (chain : ChainStorage) (height : Nat) : Except ProducerPanic (Option Block) :=
  match chain.blockIndex.get height with
  | none => .ok none
  | some blockMeta =>
      match chain.blkFiles with
      | none => .ok none
      | some blkFiles =>
          match (blkFiles.get blockMeta.blkIndex).bind fun file => file blockMeta.dataOffset with
          | none => .error .unwrap
          | some block => .ok (some block)

def heights (chain : ChainStorage) : List Nat :=
  (List.range (chain.maxHeight + 1)).filter (· ∈ chain.blockIndex.keys)

def complete (chain : ChainStorage) : Option CheckPoint :=
  CheckPoint.fromBlockIds (chain.heights.filterMap fun height =>
    (chain.blockIndex.get height).map fun record => ⟨height, record.blockHash⟩)

end ChainStorage

structure Settings where
  lastBlock : BlockId
  reorgMaxLen : Nat
  chain : ChainStorage

inductive Phase where
  -- the blocks of the files, from a height on
  | files (height : Nat)
  | complete
  -- the heights between the index and the last block
  | fill (checkpoint : CheckPoint)
  | poll (checkpoint : CheckPoint)
  -- blocks that are not in the best chain are taken off
  | rewind (checkpoint : CheckPoint) (bestHash : BlockHash) (reorgCounter : Nat)
  -- blocks up to the best height are sent
  | forward (checkpoint : CheckPoint) (bestHeight reorgCounter : Nat)
  deriving DecidableEq, Repr

structure Producer where
  lastHeight : Nat
  lastHash : BlockHash
  phase : Phase
  sent : List BlockEvent := []
  deriving DecidableEq, Repr

def unwrap {α : Type} : Option α → Except ProducerPanic α
  | some value => .ok value
  | none => .error .unwrap

namespace Producer

def sendChecked (producer : Producer) (event : BlockEvent) : Except ProducerPanic Producer :=
  if producer.lastHash ≠ event.block.header.prevHash then
    .error (.invalidOrder producer.lastHash event.block.header.prevHash)
  else .ok { producer with
    lastHash := event.block.header.hash
    sent := producer.sent ++ [event] }

def start (settings : Settings) : Producer :=
  let last := settings.lastBlock.height
  let lastHeight := if last = 0 then last else last + 1
  { lastHeight, lastHash := settings.lastBlock.hash, phase := .files lastHeight }

/-- One turn of the loop that the thread is in. The node can change between its two calls. -/
def step (settings : Settings) (producer : Producer) (nodes : Node × Node) :
    Except ProducerPanic Producer :=
  match producer.phase with
  | .files height =>
      if settings.chain.maxHeight < height then .ok { producer with phase := .complete }
      else do
        match ← settings.chain.getBlock height with
        | none => .ok { producer with phase := .complete }
        | some block =>
            let event : BlockEvent := {
              id := { height, hash := block.header.hash }
              block
              reorgLen := 0
              tip := settings.chain.maxHeight }
            let producer ← producer.sendChecked event
            .ok { producer with phase := .files (height + 1) }
  | .complete =>
      match settings.chain.complete with
      | some checkpoint => .ok { producer with phase := .fill checkpoint }
      | none => do
          let lastHeight := producer.lastHeight - 1
          let hash ← unwrap (nodes.1.getBlockHash lastHeight)
          .ok { producer with
            lastHeight
            lastHash := hash
            phase := .fill { block := { height := lastHeight, hash }, below := [] } }
  | .fill checkpoint =>
      if checkpoint.height < producer.lastHeight - 1 then do
        let height := checkpoint.height + 1
        let hash ← unwrap (nodes.1.getBlockHash height)
        let checkpoint ← checkpoint.insert { height, hash }
        .ok { producer with phase := .fill checkpoint }
      else .ok { producer with phase := .poll checkpoint }
  | .poll checkpoint => do
      let bestHash ← unwrap nodes.1.getBestBlockHash
      if bestHash ≠ checkpoint.hash then
        .ok { producer with phase := .rewind checkpoint bestHash 0 }
      else .ok producer
  | .rewind checkpoint bestHash reorgCounter =>
      if settings.reorgMaxLen < reorgCounter then .error .reorgTooLong
      else
        let info := nodes.1.getBlockInfo checkpoint.hash
        -- a block that the node does not know is taken off as well
        if info.all fun result => result.confirmations < 0 then do
          let checkpoint ← unwrap checkpoint.prev
          .ok { producer with
            lastHash := checkpoint.hash
            phase := .rewind checkpoint bestHash (reorgCounter + 1) }
        else do
          let best ← unwrap (nodes.2.getBlockInfo bestHash)
          .ok { producer with phase := .forward checkpoint best.height reorgCounter }
  | .forward checkpoint bestHeight reorgCounter =>
      if checkpoint.height < bestHeight then do
        let nextHeight := checkpoint.height + 1
        let nextHash ← unwrap (nodes.1.getBlockHash nextHeight)
        let block ← unwrap (nodes.2.getBlock nextHash)
        -- guard if a reorg happened in the middle of the loop
        if block.header.prevHash ≠ checkpoint.hash then
          .ok { producer with phase := .poll checkpoint }
        else
          let id : BlockId := { height := nextHeight, hash := nextHash }
          let event : BlockEvent := { id, block, reorgLen := reorgCounter, tip := bestHeight }
          let producer ← producer.sendChecked event
          let checkpoint ← checkpoint.insert id
          .ok { producer with phase := .forward checkpoint bestHeight 0 }
      else .ok { producer with phase := .poll checkpoint }

inductive Turn (settings : Settings) (producer : Producer) (nodes : Node × Node) :
    Producer → Prop where
  | filesDone {height : Nat} (phase : producer.phase = .files height) :
      Turn settings producer nodes { producer with phase := .complete }
  | filesSent {height : Nat} {block : Block} (phase : producer.phase = .files height)
      (inside : height ≤ settings.chain.maxHeight)
      (read : settings.chain.getBlock height = .ok (some block))
      (ordered : producer.lastHash = block.header.prevHash) :
      Turn settings producer nodes { producer with
        lastHash := block.header.hash
        sent := producer.sent ++ [{
          id := { height, hash := block.header.hash }
          block
          reorgLen := 0
          tip := settings.chain.maxHeight }]
        phase := .files (height + 1) }
  | indexed {checkpoint : CheckPoint} (phase : producer.phase = .complete)
      (found : settings.chain.complete = some checkpoint) :
      Turn settings producer nodes { producer with phase := .fill checkpoint }
  | unindexed {hash : BlockHash} (phase : producer.phase = .complete)
      (none : settings.chain.complete = none)
      (answered : nodes.1.getBlockHash (producer.lastHeight - 1) = some hash) :
      Turn settings producer nodes { producer with
        lastHeight := producer.lastHeight - 1
        lastHash := hash
        phase := .fill { block := { height := producer.lastHeight - 1, hash }, below := [] } }
  | filled {checkpoint : CheckPoint} {hash : BlockHash} (phase : producer.phase = .fill checkpoint)
      (lower : checkpoint.height < producer.lastHeight - 1)
      (answered : nodes.1.getBlockHash (checkpoint.height + 1) = some hash) :
      Turn settings producer nodes { producer with
        phase := .fill {
          block := { height := checkpoint.height + 1, hash }
          below := checkpoint.ids } }
  | fillDone {checkpoint : CheckPoint} (phase : producer.phase = .fill checkpoint)
      (reached : producer.lastHeight - 1 ≤ checkpoint.height) :
      Turn settings producer nodes { producer with phase := .poll checkpoint }
  | idle {checkpoint : CheckPoint} (phase : producer.phase = .poll checkpoint) :
      Turn settings producer nodes producer
  | behind {checkpoint : CheckPoint} {bestHash : BlockHash}
      (phase : producer.phase = .poll checkpoint) :
      Turn settings producer nodes { producer with phase := .rewind checkpoint bestHash 0 }
  | popped {checkpoint : CheckPoint} {bestHash : BlockHash} {reorgCounter : Nat} {block : BlockId}
      {below : List BlockId} (phase : producer.phase = .rewind checkpoint bestHash reorgCounter)
      (under : checkpoint.below = block :: below) :
      Turn settings producer nodes { producer with
        lastHash := block.hash
        phase := .rewind { block, below } bestHash (reorgCounter + 1) }
  | forked {checkpoint : CheckPoint} {bestHash : BlockHash} {reorgCounter bestHeight : Nat}
      (phase : producer.phase = .rewind checkpoint bestHash reorgCounter) :
      Turn settings producer nodes { producer with
        phase := .forward checkpoint bestHeight reorgCounter }
  | guarded {checkpoint : CheckPoint} {bestHeight reorgCounter : Nat} {hash : BlockHash}
      {block : Block} (phase : producer.phase = .forward checkpoint bestHeight reorgCounter)
      (lower : checkpoint.height < bestHeight)
      (answered : nodes.1.getBlockHash (checkpoint.height + 1) = some hash)
      (fetched : nodes.2.getBlock hash = some block)
      (apart : block.header.prevHash ≠ checkpoint.hash) :
      Turn settings producer nodes { producer with phase := .poll checkpoint }
  | forwardSent {checkpoint : CheckPoint} {bestHeight reorgCounter : Nat} {hash : BlockHash}
      {block : Block} (phase : producer.phase = .forward checkpoint bestHeight reorgCounter)
      (lower : checkpoint.height < bestHeight)
      (linked : block.header.prevHash = checkpoint.hash)
      (ordered : producer.lastHash = block.header.prevHash) :
      Turn settings producer nodes { producer with
        lastHash := block.header.hash
        sent := producer.sent ++ [{
          id := { height := checkpoint.height + 1, hash }
          block
          reorgLen := reorgCounter
          tip := bestHeight }]
        phase := .forward {
          block := { height := checkpoint.height + 1, hash }
          below := checkpoint.ids } bestHeight 0 }
  | caughtUp {checkpoint : CheckPoint} {bestHeight reorgCounter : Nat}
      (phase : producer.phase = .forward checkpoint bestHeight reorgCounter)
      (reached : bestHeight ≤ checkpoint.height) :
      Turn settings producer nodes { producer with phase := .poll checkpoint }

variable {settings : Settings} {producer next : Producer} {nodes : Node × Node}

theorem unwrap_ok {α : Type} {answer : Option α} {value : α} :
    unwrap answer = .ok value ↔ answer = some value := by
  cases answer <;> simp [unwrap]

theorem sendChecked_ok {event : BlockEvent} :
    producer.sendChecked event = .ok next ↔
      producer.lastHash = event.block.header.prevHash ∧ next = { producer with
        lastHash := event.block.header.hash
        sent := producer.sent ++ [event] } := by
  unfold sendChecked
  split
  · rename_i different
    simp [different]
  · rename_i same
    simp [not_not.mp same, eq_comm]

theorem step_turn (stepped : step settings producer nodes = .ok next) :
    Turn settings producer nodes next := by
  unfold step at stepped
  split at stepped
  · rename_i height phase
    split at stepped
    · cases stepped
      exact .filesDone phase
    · rename_i inside
      simp only [Machine.bind_ok] at stepped
      obtain ⟨found, read, stepped⟩ := stepped
      cases found with
      | none =>
          cases stepped
          exact .filesDone phase
      | some block =>
          simp only [Machine.bind_ok, sendChecked_ok] at stepped
          obtain ⟨_, ⟨ordered, rfl⟩, stepped⟩ := stepped
          cases stepped
          exact .filesSent phase (Nat.le_of_not_lt inside) read ordered
  · rename_i phase
    split at stepped
    · rename_i checkpoint found
      cases stepped
      exact .indexed phase found
    · rename_i none
      simp only [Machine.bind_ok, unwrap_ok] at stepped
      obtain ⟨hash, answered, stepped⟩ := stepped
      cases stepped
      exact .unindexed phase none answered
  · rename_i checkpoint phase
    split at stepped
    · rename_i lower
      simp only [Machine.bind_ok, unwrap_ok] at stepped
      obtain ⟨hash, answered, higher, inserted, stepped⟩ := stepped
      rw [CheckPoint.insert_above (Nat.lt_succ_self checkpoint.height)] at inserted
      cases inserted
      cases stepped
      exact .filled phase lower answered
    · rename_i reached
      cases stepped
      exact .fillDone phase (Nat.le_of_not_lt reached)
  · rename_i checkpoint phase
    simp only [Machine.bind_ok] at stepped
    obtain ⟨bestHash, _, stepped⟩ := stepped
    split at stepped
    · cases stepped
      exact .behind phase
    · cases stepped
      exact .idle phase
  · rename_i checkpoint bestHash reorgCounter phase
    split at stepped
    · cases stepped
    dsimp only at stepped
    split at stepped
    · simp only [Machine.bind_ok, unwrap_ok] at stepped
      obtain ⟨lower, under, stepped⟩ := stepped
      cases stepped
      cases shape : checkpoint.below with
      | nil =>
          rw [CheckPoint.prev, shape] at under
          cases under
      | cons block below =>
          rw [CheckPoint.prev, shape] at under
          cases under
          exact .popped phase shape
    · simp only [Machine.bind_ok] at stepped
      obtain ⟨best, _, stepped⟩ := stepped
      cases stepped
      exact .forked phase
  · rename_i checkpoint bestHeight reorgCounter phase
    split at stepped
    · rename_i lower
      simp only [Machine.bind_ok, unwrap_ok] at stepped
      obtain ⟨hash, answered, block, fetched, stepped⟩ := stepped
      split at stepped
      · rename_i apart
        cases stepped
        exact .guarded phase lower answered fetched apart
      · rename_i linked
        simp only [Machine.bind_ok, sendChecked_ok] at stepped
        obtain ⟨_, ⟨ordered, rfl⟩, higher, inserted, stepped⟩ := stepped
        rw [CheckPoint.insert_above (Nat.lt_succ_self checkpoint.height)] at inserted
        cases inserted
        cases stepped
        exact .forwardSent phase lower (not_not.mp linked) ordered
    · rename_i reached
      cases stepped
      exact .caughtUp phase (Nat.le_of_not_lt reached)

end Producer

end WjkIndexer.Blk
