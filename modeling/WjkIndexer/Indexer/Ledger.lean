import WjkIndexer.Indexer.Run
import WjkIndexer.Reorg.Undo

/-!
Invariants of the ledger over whole runs: what every block keeps holds in every state
that runs of blocks, restores and restarts reach.
-/

namespace WjkIndexer

open FiniteTable

section Block

variable {env : Env} {server : Server} {height : Nat} {block : Block} {chain : Chain}
  {handled : Handled}

theorem below_head {bound : Nat} (below : ∃ last ∈ chain.head?, bound ≤ last.1)
    (follows : chain.Follows height) :
    ∃ last ∈ List.head? ((height, block) :: chain), bound ≤ last.1 :=
  ⟨(height, block), rfl, Nat.le_of_lt (follows.lt below)⟩

theorem placed_handled (result : HandledBlock env server height block handled)
    (placed : Placed server.db chain) (follows : chain.Follows height) :
    Placed (applyAll handled.processed server.db) ((height, block) :: chain) := by
  have older : ∀ {txid : Txid}, txid ∈ chain.txids →
      txid ∈ Chain.txids ((height, block) :: chain) := by
    intro txid member
    rw [Chain.txids_cons]
    exact Finset.mem_union_left _ member
  have newer : ∀ {txid : Txid}, txid ∈ block.txids →
      txid ∈ Chain.txids ((height, block) :: chain) := by
    intro txid member
    rw [Chain.txids_cons]
    exact Finset.mem_union_right _ member
  have infos : ∀ (info : BlockInfo), ∀ key ∈ (server.db.blockInfo.set height info).keys,
      ∃ last ∈ List.head? ((height, block) :: chain), key ≤ last.1 := by
    intro info key member
    rw [Table.keys_set, Finset.mem_insert] at member
    rcases member with rfl | member
    · exact ⟨(key, block), rfl, Nat.le_refl _⟩
    · exact below_head (placed.infos key member) follows
  cases result with
  | early before =>
      exact {
        transfers := fun key member => older (placed.transfers key member)
        partials := fun key member => older (placed.partials key member)
        offsets := fun key member => older (placed.offsets key member)
        historyIds := placed.historyIds
        tokenIds := placed.tokenIds
        events := fun key member => below_head (placed.events key member) follows
        infos := fun key member => below_head (placed.infos key member) follows }
  | empty begun alone =>
      exact {
        transfers := fun key member => older (placed.transfers key member)
        partials := fun key member => older (placed.partials key member)
        offsets := fun key member => older (placed.offsets key member)
        historyIds := placed.historyIds
        tokenIds := placed.tokenIds
        events := fun key member => below_head (placed.events key member) follows
        infos := infos _ }
  | @full begun several parsed done parsing processing =>
      have spec := parseBlock_spec parsing
      simp only [applyAll, prevoutsData, tokensData, ProcessedData.apply, ProcessedData.writes,
        List.foldl_cons, List.foldl_nil]
      constructor <;> dsimp only
      case transfers =>
        intro key member
        rcases Table.mem_keys_extend member with old | new
        · exact older (placed.transfers key (Table.mem_keys_removeBatch old))
        · by_cases loaded :
            key ∈ (transfersToWrite (loadedCache env server.db block).validTransfers).keys
          · obtain ⟨proto, valid⟩ := mem_transfersToWrite.mp loaded
            exact older (placed.transfers key
              (Table.mem_keys_iff.mpr ⟨proto, loaded_stored valid⟩))
          · exact newer (transfers_fresh parsing processing new loaded)
      case partials =>
        intro key member
        rcases Table.mem_keys_extend member with old | new
        · exact older (placed.partials key (Table.mem_keys_removeBatch old))
        · rcases spec.partialsToWrite key new with own | saved
          · exact newer own
          · rw [spec.partialsToRemove, Table.keys_restrict] at saved
            exact older (placed.partials key (Finset.mem_of_mem_inter_right saved))
      case offsets =>
        intro key member
        rcases Table.mem_keys_extend member with old | new
        · exact older (placed.offsets key (Table.mem_keys_removeBatch old))
        · rcases spec.offsetsToWrite key new with own | saved
          · exact newer own
          · rw [spec.offsetsToRemove, Table.keys_restrict] at saved
            exact older (placed.offsets key (Finset.mem_of_mem_inter_right saved))
      case historyIds =>
        intro key member
        rw [Option.getD_some]
        rcases Table.mem_keys_extendList member with old | new
        · have bound := placed.historyIds key old
          omega
        · obtain ⟨entry, listed, rfl⟩ := List.mem_map.mp new
          exact (historyEntries_id listed).2
      case tokenIds =>
        intro key member
        rw [Option.getD_some]
        rcases Table.mem_keys_extendList member with old | new
        · have bound := placed.tokenIds key old
          omega
        · simp only [ProcessedData.tokenIdEvents, List.map_map, List.mem_map] at new
          obtain ⟨entry, listed, rfl⟩ := new
          exact (historyEntries_id listed).2
      case events =>
        intro key member
        rw [Table.keys_set, Finset.mem_insert] at member
        rcases member with rfl | member
        · exact ⟨(key, block), rfl, Nat.le_refl _⟩
        · exact below_head (placed.events key member) follows
      case infos => exact infos _

end Block

/-! The undo records of a process, and the rule for its runs. -/

theorem ReorgCache.length_restoreBlocks (target : Nat) (blocks : List (Nat × ReorgHistoryBlock))
    (db : DB) : (ReorgCache.restoreBlocks target blocks db).1.length ≤ blocks.length := by
  induction blocks generalizing db with
  | nil => exact Nat.le_refl _
  | cons entry lower ih =>
      rw [ReorgCache.restoreBlocks]
      split
      · exact Nat.le_succ_of_le (ih _)
      · exact Nat.le_refl _

/-- Undoing the cached blocks one by one gives databases in which `inv` holds for the rest
of the chain. -/
def Restorable (inv : DB → Chain → Prop) : List (Nat × ReorgHistoryBlock) → DB → Chain → Prop
  | [], _, _ => True
  | (height, entries) :: lower, db, chain =>
      ∃ block rest, chain = (height, block) :: rest ∧ inv (entries.undo height db) rest ∧
        Restorable inv lower (entries.undo height db) rest

/-- A relation of databases that undoes keep, under which a property is one for both. -/
structure Restores (same : DB → DB → Prop) (inv : DB → Chain → Prop) : Prop where
  ledger : ∀ {left right}, same left right → SameLedger left right
  undo : ∀ {left right}, same left right → ∀ (block : ReorgHistoryBlock) height,
    same (block.undo height left) (block.undo height right)
  kept : ∀ {left right chain}, same left right → inv left chain → inv right chain

def OfLedger (inv : DB → Chain → Prop) : Prop :=
  ∀ left right chain, SameLedger left right → inv left chain → inv right chain

theorem OfLedger.restores {inv : DB → Chain → Prop} (ledger : OfLedger inv) :
    Restores SameLedger inv where
  ledger := id
  undo := SameLedger.undo
  kept := ledger _ _ _

theorem Restores.placed {same : DB → DB → Prop} {inv : DB → Chain → Prop}
    (restores : Restores same inv) :
    Restores same fun db chain => inv db chain ∧ Placed db chain where
  ledger := restores.ledger
  undo := restores.undo
  kept alike both := ⟨restores.kept alike both.1, both.2.congr (restores.ledger alike)⟩

namespace Restorable

variable {inv : DB → Chain → Prop} {same : DB → DB → Prop}

theorem congr (restores : Restores same inv) {blocks : List (Nat × ReorgHistoryBlock)}
    {left right : DB} {chain : Chain} (alike : same left right)
    (restorable : Restorable inv blocks left chain) : Restorable inv blocks right chain := by
  induction blocks generalizing left right chain with
  | nil => trivial
  | cons entry lower ih =>
      obtain ⟨block, rest, shape, holds, deeper⟩ := restorable
      have undone := restores.undo alike entry.2 entry.1
      exact ⟨block, rest, shape, restores.kept undone holds, ih undone deeper⟩

theorem dropLast {blocks : List (Nat × ReorgHistoryBlock)} {db : DB} {chain : Chain}
    (restorable : Restorable inv blocks db chain) : Restorable inv blocks.dropLast db chain := by
  induction blocks generalizing db chain with
  | nil => trivial
  | cons entry lower ih =>
      cases lower with
      | nil => trivial
      | cons next deeper =>
          obtain ⟨block, rest, shape, holds, below⟩ := restorable
          exact ⟨block, rest, shape, holds, ih below⟩

theorem restore {blocks : List (Nat × ReorgHistoryBlock)} {db : DB} {chain : Chain}
    (restorable : Restorable inv blocks db chain) (holds : inv db chain) (target : Nat) :
    inv (ReorgCache.restoreBlocks target blocks db).2
        (chain.drop (blocks.length - (ReorgCache.restoreBlocks target blocks db).1.length)) ∧
      Restorable inv (ReorgCache.restoreBlocks target blocks db).1
        (ReorgCache.restoreBlocks target blocks db).2
        (chain.drop (blocks.length - (ReorgCache.restoreBlocks target blocks db).1.length)) := by
  induction blocks generalizing db chain with
  | nil => exact ⟨by simpa [ReorgCache.restoreBlocks] using holds, trivial⟩
  | cons entry lower ih =>
      obtain ⟨height, entries⟩ := entry
      rw [ReorgCache.restoreBlocks]
      split
      · obtain ⟨block, rest, rfl, undone, deeper⟩ := restorable
        have shorter := ReorgCache.length_restoreBlocks target lower (entries.undo height db)
        have result := ih deeper undone
        rw [List.length_cons, Nat.succ_sub shorter, List.drop_succ_cons]
        exact result
      · simpa using ⟨holds, restorable⟩

end Restorable

def ReorgCache.kept (cache : ReorgCache) : List (Nat × ReorgHistoryBlock) :=
  if cache.blocks.length = cache.len then cache.blocks.dropLast else cache.blocks

theorem ReorgCache.newBlock_blocks (cache : ReorgCache) {height : Nat}
    (below : ∀ top ∈ cache.blocks.head?, top.1 < height) :
    (cache.newBlock height).blocks = (height, {}) :: cache.kept := by
  have keptBelow : ∀ top ∈ cache.kept.head?, top.1 < height := by
    intro top head
    apply below
    unfold ReorgCache.kept at head
    split at head
    · cases shape : cache.blocks with
      | nil => simp [shape] at head
      | cons first rest =>
          cases rest with
          | nil => simp [shape] at head
          | cons second more => simpa [shape] using head
    · exact head
  change ReorgCache.insertBlock height {} cache.kept = (height, {}) :: cache.kept
  cases shape : cache.kept with
  | nil => rfl
  | cons top lower =>
      rw [ReorgCache.insertBlock, if_pos (keptBelow top (by simp [shape]))]

section Steps

variable {env : Env} {process next : Process} {height : Nat} {block : Block}

theorem step_block {handleReorgs : Bool}
    (stepped : process.step env (.block height block handleReorgs) = .ok next)
    (below : ∀ top ∈ process.reorgCache.blocks.head?, top.1 < height) :
    ∃ handled, handleBlock env process.server height block = .ok handled ∧
      next.server = { db := applyAll handled.processed process.db, holders := handled.holders } ∧
      next.chain = (height, block) :: process.chain ∧
      next.reorgCache.len = process.reorgCache.len ∧
      next.reorgCache.blocks = if handleReorgs then
        (height, entriesOf handled.processed process.db) :: process.reorgCache.kept else [] := by
  simp only [Process.step, handle, Machine.bind_ok] at stepped
  obtain ⟨⟨server, cache⟩, ⟨handled, handling, result⟩, stepped⟩ := stepped
  refine ⟨handled, handling, ?_⟩
  cases handleReorgs with
  | true =>
      have top := process.reorgCache.newBlock_blocks below
      simp only [if_true] at result
      rw [writeAll_true handled.processed process.server.db _ top] at result
      simp only [Except.ok.injEq, Prod.mk.injEq] at result
      obtain ⟨rfl, rfl⟩ := result
      cases stepped
      simp [ReorgCache.newBlock, Process.db]
  | false =>
      simp only [Bool.false_eq_true, if_false, writeAll_false, Except.ok.injEq,
        Prod.mk.injEq] at result
      obtain ⟨rfl, rfl⟩ := result
      cases stepped
      simp [Process.db]

end Steps

/-- A state of a run in which `inv` holds, and holds again after every restore. -/
structure Sound (inv : DB → Chain → Prop) (process : Process) : Prop where
  holds : inv process.db process.chain
  placed : Placed process.db process.chain
  restorable : Restorable (fun db chain => inv db chain ∧ Placed db chain)
    process.reorgCache.blocks process.db process.chain
  len : process.reorgCache.len = reorgCacheMaxLen
  short : process.reorgCache.blocks.length ≤ reorgCacheMaxLen

namespace Sound

variable {inv : DB → Chain → Prop} {env : Env} {process next : Process}

theorem below (sound : Sound inv process) {height : Nat}
    (follows : process.chain.Follows height) :
    ∀ top ∈ process.reorgCache.blocks.head?, top.1 < height := by
  intro top head
  cases shape : process.reorgCache.blocks with
  | nil => simp [shape] at head
  | cons first lower =>
      have restorable := sound.restorable
      rw [shape] at restorable
      obtain ⟨block, rest, chained, _⟩ := restorable
      simp only [shape, List.head?_cons, Option.mem_def, Option.some.injEq] at head
      subst head
      have next := follows (first.1, block) (by simp [chained])
      omega

theorem restorable_kept (sound : Sound inv process) :
    Restorable (fun db chain => inv db chain ∧ Placed db chain) process.reorgCache.kept process.db
      process.chain := by
  unfold ReorgCache.kept
  split
  · exact sound.restorable.dropLast
  · exact sound.restorable

theorem kept_length (sound : Sound inv process) :
    process.reorgCache.kept.length < reorgCacheMaxLen := by
  have short := sound.short
  unfold ReorgCache.kept
  rw [sound.len]
  split
  · rename_i full
    rw [List.length_dropLast, full]
    decide
  · omega

theorem undone {same : DB → DB → Prop} (restores : Restores same inv) (sound : Sound inv process)
    {height : Nat} {new : Block} {handleReorgs : Bool}
    (valid : (Event.block height new handleReorgs).Valid env process)
    (kept : ∀ handled, handleBlock env process.server height new = .ok handled →
      inv (applyAll handled.processed process.db) ((height, new) :: process.chain) ∧
        same process.db ((entriesOf handled.processed process.db).undo height
          (applyAll handled.processed process.db)))
    (stepped : process.step env (.block height new handleReorgs) = .ok next) :
    Sound inv next := by
  obtain ⟨handled, handling, server, chain, len, blocks⟩ :=
    step_block stepped (sound.below valid.1)
  have result := handleBlock_handled handling
  obtain ⟨after, back⟩ := kept handled handling
  have db : next.db = applyAll handled.processed process.db := by rw [Process.db, server]
  have bound := sound.kept_length
  refine {
    holds := by rw [db, chain]; exact after
    placed := by rw [db, chain]; exact placed_handled result sound.placed valid.1
    restorable := ?_
    len := len.trans sound.len
    short := ?_ }
  · rw [blocks, db, chain]
    split
    · exact ⟨new, process.chain, rfl, restores.placed.kept back ⟨sound.holds, sound.placed⟩,
        sound.restorable_kept.congr restores.placed back⟩
    · trivial
  · rw [blocks]
    split
    · rw [List.length_cons]
      omega
    · exact Nat.zero_le _

theorem block (ledger : OfLedger inv) (sound : Sound inv process) {height : Nat}
    {new : Block} {handleReorgs : Bool}
    (valid : (Event.block height new handleReorgs).Valid env process)
    (kept : ∀ handled, handleBlock env process.server height new = .ok handled →
      inv (applyAll handled.processed process.db) ((height, new) :: process.chain))
    (stepped : process.step env (.block height new handleReorgs) = .ok next) :
    Sound inv next := by
  refine sound.undone ledger.restores valid ?_ stepped
  intro handled handling
  exact ⟨kept handled handling, (undo_handled (handleBlock_handled handling) sound.placed valid.1
    (fun txid own => valid.2.txids_disjoint own)).symm⟩

theorem restore (sound : Sound inv process) (target : Nat)
    (stepped : process.step env (.restore target) = .ok next) : Sound inv next := by
  cases stepped
  have result := sound.restorable.restore ⟨sound.holds, sound.placed⟩ target
  refine {
    holds := result.1.1
    placed := result.1.2
    restorable := result.2
    len := sound.len
    short := ?_ }
  exact Nat.le_trans (ReorgCache.length_restoreBlocks target _ _) sound.short

theorem restart (sound : Sound inv process) (stepped : process.step env .restart = .ok next) :
    Sound inv next := by
  cases stepped
  exact {
    holds := sound.holds
    placed := sound.placed
    restorable := trivial
    len := rfl
    short := Nat.zero_le _ }

end Sound

theorem reachable_restored {same : DB → DB → Prop} {inv : DB → Chain → Prop} {env : Env}
    {allowed : Process → Event → Prop} (restores : Restores same inv) (start : inv {} [])
    (kept : ∀ process height new handleReorgs handled, Sound inv process →
      (Event.block height new handleReorgs).Valid env process →
      allowed process (.block height new handleReorgs) →
      handleBlock env process.server height new = .ok handled →
      inv (applyAll handled.processed process.db) ((height, new) :: process.chain) ∧
        same process.db ((entriesOf handled.processed process.db).undo height
          (applyAll handled.processed process.db)))
    {process : Process} (reached : Reachable env allowed process) : Sound inv process := by
  induction reached with
  | start =>
      exact {
        holds := start
        placed := .start
        restorable := trivial
        len := rfl
        short := Nat.zero_le _ }
  | @step process next event reached valid permitted stepped ih =>
      cases event with
      | block height new handleReorgs =>
          exact ih.undone restores valid
            (fun handled handling => kept process height new handleReorgs handled ih valid
              permitted handling) stepped
      | restore target => exact ih.restore target stepped
      | restart => exact ih.restart stepped

theorem reachable_sound {inv : DB → Chain → Prop} {env : Env}
    {allowed : Process → Event → Prop} (ledger : OfLedger inv) (start : inv {} [])
    (kept : ∀ process height new handleReorgs handled, Sound inv process →
      (Event.block height new handleReorgs).Valid env process →
      allowed process (.block height new handleReorgs) →
      handleBlock env process.server height new = .ok handled →
      inv (applyAll handled.processed process.db) ((height, new) :: process.chain))
    {process : Process} (reached : Reachable env allowed process) : Sound inv process := by
  refine reachable_restored ledger.restores start ?_ reached
  intro process height new handleReorgs handled sound valid permitted handling
  exact ⟨kept process height new handleReorgs handled sound valid permitted handling,
    (undo_handled (handleBlock_handled handling) sound.placed valid.1
      (fun txid own => valid.2.txids_disjoint own)).symm⟩

end WjkIndexer
