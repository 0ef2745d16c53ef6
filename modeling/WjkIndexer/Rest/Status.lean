import WjkIndexer.Database.Store
import WjkIndexer.Indexer.Direct
import WjkIndexer.Indexer.Heights
import WjkIndexer.Rest.Address
import WjkIndexer.Server.Events

/-!
What the node and the clients are told of the last block: the block to go on from after a restart,
the status, and the transfers that are answered for when the node has no later block.
-/

namespace WjkIndexer

open FiniteTable ByteString SortedStore Machine Blk

inductive ApiError where
  | internal (message : String)
  | serviceUnavailable (body : String)
  -- an entry of the store is not decoded
  | panic (fault : PebbleError)
  deriving DecidableEq, Repr

def orInternal {α : Type} (message : String) : Option α → Except ApiError α
  | some value => .ok value
  | none => .error (.internal message)

theorem orInternal_ok {α : Type} {message : String} {found : Option α} {value : α} :
    orInternal message found = .ok value ↔ found = some value := by
  cases found <;> simp [orInternal]

def hexText (bytes : Bytes) : String :=
  String.ofList (bytes.flatMap fun byte =>
    [Nat.digitChar (byte.toNat / 16), Nat.digitChar (byte.toNat % 16)])

def digestText (hash : Hash256) : String := hexText (hashBytes hash)

def blockHashText (hash : BlockHash) : String := hexText (hashBytes hash).reverse

structure Status where
  height : Nat
  proof : String
  blockhash : String
  version : String
  uptimeSecs : Nat
  deriving DecidableEq, Repr

def status (version : String) (uptimeSecs : Nat) (db : DB) : Except ApiError Status := do
  let lastHeight ← orInternal "Failed to get last height" db.lastBlock
  let lastPoh ← orInternal "Failed to get last proof of history"
    (db.proofOfHistory.get lastHeight)
  let lastBlockInfo ← orInternal "Failed to get last block hash" (db.blockInfo.get lastHeight)
  .ok {
    height := lastHeight
    proof := digestText lastPoh
    blockhash := blockHashText lastBlockInfo.hash
    version
    uptimeSecs }

def Server.lastBlock (db : DB) : BlockId :=
  let lastHeight := db.lastBlock.getD 0
  { height := lastHeight
    hash := ((db.blockInfo.get lastHeight).getD { hash := 0, created := 0 }).hash }

theorem lastInfo_iff {env : Env} {allowed : Process → Event → Prop} {process : Process}
    (reached : Reachable env allowed process) {height : Nat} {info : BlockInfo} :
    process.db.lastBlock = some height ∧ process.db.blockInfo.get height = some info ↔
      env.startHeight ≤ height ∧ ∃ block, process.chain.head? = some (height, block) ∧
        blockInfoOf block = info := by
  have known := (reachable_byHeight reached).holds
  constructor
  · rintro ⟨last, found⟩
    obtain ⟨begun, block, listed, same⟩ := (known.infos height info).mp found
    refine ⟨begun, block, ?_, same⟩
    obtain ⟨place, applied⟩ := List.mem_iff_getElem?.mp listed
    cases head : process.chain.head? with
    | none =>
        rw [List.head?_eq_none_iff.mp head] at listed
        cases listed
    | some top =>
        have order := known.linked.height head applied
        dsimp only at order
        have highest := reachable_lastBlock reached head (by omega)
        rw [last, Option.some.injEq] at highest
        have first : place = 0 := by omega
        rw [first, ← List.head?_eq_getElem?, head] at applied
        exact applied
  · rintro ⟨begun, block, head, rfl⟩
    refine ⟨reachable_lastBlock reached head begun,
      (known.infos height _).mpr ⟨begun, block, ?_, rfl⟩⟩
    exact List.mem_of_head? head

/-- From the first token height on the status is that of the last applied block, and a restart goes
on from this block. Before it there is no status, and no block to go on from. -/
theorem status_applied {env : Env} {process : Process}
    (reached : Reachable env (fun _ _ => True) process) (version : String) (uptimeSecs : Nat) :
    (∀ height block, process.chain.head? = some (height, block) → env.startHeight ≤ height →
      ∃ proof, process.db.proofOfHistory.get height = some proof ∧
        status version uptimeSecs process.db = .ok {
          height
          proof := digestText proof
          blockhash := blockHashText block.header.hash
          version
          uptimeSecs } ∧
        Server.lastBlock process.db = { height, hash := block.header.hash }) ∧
    ((∀ top ∈ process.chain.head?, top.1 < env.startHeight) →
      (∃ message, status version uptimeSecs process.db = .error (.internal message)) ∧
        (Server.lastBlock process.db).hash = 0) := by
  constructor
  · intro height block head begun
    obtain ⟨last, info⟩ := (lastInfo_iff reached).mpr ⟨begun, block, head, rfl⟩
    obtain ⟨proof, stored⟩ := reachable_proofs reached (List.mem_of_head? head) begun
    refine ⟨proof, stored, ?_, ?_⟩
    · simp only [status, bind_ok, orInternal_ok]
      exact ⟨height, last, proof, stored, blockInfoOf block, info, rfl⟩
    · simp only [Server.lastBlock, last, Option.getD_some, info]
      rfl
  · intro early
    have absent : ∀ height, process.db.blockInfo.get height = none := by
      intro height
      by_contra present
      obtain ⟨info, found⟩ := Option.ne_none_iff_exists'.mp present
      have known := (reachable_byHeight reached).holds
      obtain ⟨begun, block, listed, _⟩ := (known.infos height info).mp found
      obtain ⟨place, applied⟩ := List.mem_iff_getElem?.mp listed
      cases head : process.chain.head? with
      | none =>
          rw [List.head?_eq_none_iff.mp head] at listed
          cases listed
      | some top =>
          have order := known.linked.height head applied
          have low := early top head
          dsimp only at order
          omega
    constructor
    · cases last : process.db.lastBlock with
      | none => exact ⟨"Failed to get last height", by rw [status, last]; rfl⟩
      | some height =>
          cases stored : process.db.proofOfHistory.get height with
          | none =>
              refine ⟨"Failed to get last proof of history", ?_⟩
              simp only [status, last, orInternal, Except.bind, bind, stored]
          | some proof =>
              refine ⟨"Failed to get last block hash", ?_⟩
              simp only [status, last, orInternal, Except.bind, bind, stored, absent]
    · simp only [Server.lastBlock, absent]
      rfl

structure ProofTurn where
  bestBlockHash : Option BlockHash
  process : Process
  store : List (Bytes × Bytes)

structure TokenTransferProof where
  amt : Nat
  tick : OriginalTokenTickRest
  height : Nat

def TransferProtoDB.proof (proto : TransferProtoDB) : TokenTransferProof :=
  { amt := proto.amt, tick := proto.tick.rest, height := proto.height }

section Proofs

variable (iteratorCf : List (Bytes × Bytes) → IteratorMode → List (Bytes × Bytes))
  (value : Pebble TransferProtoDB) (scripthash : FullHash) (outpoint : OutPoint)

def ProofTurn.answer (turn : ProofTurn) : Except ApiError (Option (List TokenTransferProof)) := do
  let bestBlockHash ← orInternal "Failed to connect to node" turn.bestBlockHash
  let lastBlock ← orInternal "Failed to get last block" turn.process.db.lastBlock
  let lastBlockInfo ← orInternal "Failed to get last block info"
    (turn.process.db.blockInfo.get lastBlock)
  if bestBlockHash = lastBlockInfo.hash then
    let bounds := AddressLocation.searchWithOffset scripthash outpoint
    let entries ← ((RocksTable.range iteratorCf Pebble.addressLocation value turn.store
      (.included bounds.1) (.excluded bounds.2) false).mapM id).mapError .panic
    .ok (some (entries.map fun entry => entry.2.proof))
  else .ok none

def tokenTransferProof : List ProofTurn → Except ApiError (List TokenTransferProof)
  | [] => .error (.serviceUnavailable "Service isn't synced")
  | turn :: rest => do
      match ← turn.answer iteratorCf value scripthash outpoint with
      | some data => .ok data
      | none => tokenTransferProof rest

end Proofs

theorem AddressLocation.within_proof {key : AddressLocation} (ranged : key.Ranged)
    (address : FullHash) {outpoint : OutPoint} (fits : outpoint.vout < 2 ^ 32) :
    ((Bound.included (Pebble.addressLocation.getBytes (searchWithOffset address outpoint).1)).above
        (Pebble.addressLocation.getBytes key) &&
      (Bound.excluded (Pebble.addressLocation.getBytes (searchWithOffset address outpoint).2)).below
        (Pebble.addressLocation.getBytes key)) = true ↔
      key.address = address ∧ key.location.outpoint = outpoint ∧
        key.location.offset < 2 ^ 64 - 1 := by
  have last : (searchWithOffset address outpoint).2.Ranged := ⟨fits, by simp [searchWithOffset]⟩
  have closed := within_outpoint ranged address fits
  have order := Pebble.addressLocation_lt ranged last
  simp only [Bound.above, Bound.below, Bool.and_eq_true, decide_eq_true_eq] at closed ⊢
  constructor
  · rintro ⟨after, before⟩
    obtain ⟨rfl, rfl⟩ := closed.mp ⟨after, before.le⟩
    refine ⟨rfl, rfl, ?_⟩
    rcases order.mp before with impossible | ⟨_, impossible | ⟨_, lower⟩⟩
    · exact absurd impossible (lt_irrefl _)
    · exact absurd impossible (lt_irrefl _)
    · exact lower
  · rintro ⟨rfl, rfl, lower⟩
    exact ⟨(closed.mpr ⟨rfl, rfl⟩).1, order.mpr (Or.inr ⟨rfl, Or.inr ⟨rfl, lower⟩⟩)⟩

/-- A turn finds the state of a run between two blocks, as it is stored. While a block is written
its transfers can be listed before it is the last block. -/
structure Observed (env : Env) (outputs : Txid → List EvaluatedTxOut)
    (value : Pebble TransferProtoDB) (turn : ProofTurn) : Prop where
  reached : Reachable env (Determined env outputs) turn.process
  stored : Stored Pebble.addressLocation value turn.store
    turn.process.db.addressLocationToTransfer
  ranged : ∀ key ∈ turn.process.db.addressLocationToTransfer.keys, key.Ranged
  survives : ∀ key proto, turn.process.db.addressLocationToTransfer.get key = some proto →
    value.fromBytes (value.getBytes proto) = .ok proto

structure Proved (env : Env) (scripthash : FullHash) (outpoint : OutPoint)
    (shown : List TokenTransferProof) (turn : ProofTurn) : Prop where
  synced : ∃ top ∈ turn.process.chain.head?, turn.bestBlockHash = some top.2.header.hash
  ledger : ∃ (base : DB) (entries : List (AddressLocation × TransferProtoDB)),
    indexChain env turn.process.chain = .ok base ∧
    shown = entries.map (fun entry => entry.2.proof) ∧ (entries.map Prod.fst).Nodup ∧
    ∀ key proto, (key, proto) ∈ entries ↔
      base.addressLocationToTransfer.get key = some proto ∧ key.address = scripthash ∧
        key.location.outpoint = outpoint ∧ key.location.offset < 2 ^ 64 - 1

section Proofs

variable {env : Env} {outputs : Txid → List EvaluatedTxOut}
  {iteratorCf : List (Bytes × Bytes) → IteratorMode → List (Bytes × Bytes)}
  {value : Pebble TransferProtoDB} {scripthash : FullHash} {outpoint : OutPoint}
  {iterate : OutPoint → Finset Nat → List Nat}
  (nodup : ∀ outpoint offsets, (iterate outpoint offsets).Nodup)
  (mem : ∀ outpoint offsets offset, offset ∈ iterate outpoint offsets ↔ offset ∈ offsets)

theorem answer_proved (walks : WalksInOrder iteratorCf) (fits : outpoint.vout < 2 ^ 32)
    {turn : ProofTurn} (observed : Observed env outputs value turn)
    {shown : List TokenTransferProof}
    (answered : turn.answer iteratorCf value scripthash outpoint = .ok (some shown)) :
    Proved (env.reordered iterate nodup mem) scripthash outpoint shown turn := by
  simp only [ProofTurn.answer, bind_ok, orInternal_ok] at answered
  obtain ⟨best, asked, height, last, info, found, answered⟩ := answered
  split at answered
  · rename_i same
    obtain ⟨begun, block, head, rfl⟩ := (lastInfo_iff observed.reached).mp ⟨last, found⟩
    obtain ⟨⟨base, indexed, ledger⟩, _⟩ := ledger_direct nodup mem observed.reached
    have reads := Store.readsBack observed.ranged observed.survives
    rw [observed.stored.range_eq walks reads, if_neg Bool.false_ne_true, collect_ok] at answered
    cases answered
    refine {
      synced := ⟨(height, block), head, asked.trans (congrArg some same)⟩
      ledger := ⟨base, _, indexed, rfl, ?_, ?_⟩ }
    · exact Stored.keys_nodup ((observed.stored.storedEntries_sorted reads).filter _)
    · intro key proto
      rw [List.mem_filter, observed.stored.mem_storedEntries reads, ledger.addressLocationToTransfer]
      refine and_congr_right fun present => ?_
      exact AddressLocation.within_proof
        (observed.ranged key (Table.mem_keys_iff.mpr ⟨proto, present⟩)) scripthash fits
  · cases answered

theorem answer_synced (walks : WalksInOrder iteratorCf) {turn : ProofTurn}
    (observed : Observed env outputs value turn) {top : Nat × Block}
    (head : turn.process.chain.head? = some top) (begun : env.startHeight ≤ top.1)
    (synced : turn.bestBlockHash = some top.2.header.hash) :
    ∃ shown, turn.answer iteratorCf value scripthash outpoint = .ok (some shown) := by
  obtain ⟨last, info⟩ := (lastInfo_iff observed.reached).mpr ⟨begun, top.2, head, rfl⟩
  have reads := Store.readsBack observed.ranged observed.survives
  obtain ⟨entries, collected⟩ : ∃ entries,
      (RocksTable.range iteratorCf Pebble.addressLocation value turn.store
        (.included (AddressLocation.searchWithOffset scripthash outpoint).1)
        (.excluded (AddressLocation.searchWithOffset scripthash outpoint).2) false).mapM id =
        .ok entries := by
    rw [observed.stored.range_eq walks reads, if_neg Bool.false_ne_true, collect_ok]
    exact ⟨_, rfl⟩
  refine ⟨entries.map fun entry => entry.2.proof, ?_⟩
  simp only [ProofTurn.answer, bind_ok, orInternal_ok]
  refine ⟨top.2.header.hash, synced, top.1, last, blockInfoOf top.2, info, ?_⟩
  rw [if_pos (show top.2.header.hash = (blockInfoOf top.2).hash from rfl), collected]
  rfl

/-- An answer is that of a turn in which the last applied block is the best block of the node, and
shows the transfers of the output in the ledger of the chain that ends with it, indexed in any
order of the offsets. A request that finds these blocks the same is answered at once. -/
theorem transfers_proved (walks : WalksInOrder iteratorCf) (fits : outpoint.vout < 2 ^ 32)
    {turns : List ProofTurn} (observed : ∀ turn ∈ turns, Observed env outputs value turn) :
    (∀ shown, tokenTransferProof iteratorCf value scripthash outpoint turns = .ok shown →
      ∃ turn ∈ turns, Proved (env.reordered iterate nodup mem) scripthash outpoint shown turn) ∧
    ∀ turn ∈ turns.head?, ∀ top ∈ turn.process.chain.head?, env.startHeight ≤ top.1 →
      turn.bestBlockHash = some top.2.header.hash →
      ∃ shown, tokenTransferProof iteratorCf value scripthash outpoint turns = .ok shown := by
  constructor
  · intro shown answered
    induction turns with
    | nil => cases answered
    | cons turn rest ih =>
        simp only [tokenTransferProof, bind_ok] at answered
        obtain ⟨answer, asked, later⟩ := answered
        cases answer with
        | some data =>
            cases later
            exact ⟨turn, List.mem_cons_self,
              answer_proved nodup mem walks fits (observed turn List.mem_cons_self) asked⟩
        | none =>
            obtain ⟨other, listed, proved⟩ :=
              ih (fun other listed => observed other (List.mem_cons_of_mem _ listed)) later
            exact ⟨other, List.mem_cons_of_mem _ listed, proved⟩
  · intro turn first top head begun synced
    cases turns with
    | nil => cases first
    | cons only rest =>
        cases first
        obtain ⟨shown, asked⟩ :=
          answer_synced walks (observed turn List.mem_cons_self) head begun synced
        refine ⟨shown, ?_⟩
        simp only [tokenTransferProof, bind_ok]
        exact ⟨some shown, asked, rfl⟩

end Proofs

namespace Sample

def proofValue : Pebble TransferProtoDB where
  getBytes proto := proto.tick.bytes ++ (beBytes 16 proto.amt ++ beBytes 4 proto.height)
  fromBytes bytes := do
    let tick ← tryInto 8 (bytes.take 8)
    .ok {
      tick := { bytes := tick.1, size := tick_length tick }
      amt := ofBeBytes ((bytes.drop 8).take 16)
      height := ofBeBytes (bytes.drop 24) }

end Sample

theorem wojak_status : ∃ process, Reachable Sample.env (fun _ _ => True) process ∧
    process.chain.head? = some (1, Sample.payWojak) ∧
    (∃ reply, status "0.1.0" 7 process.db = .ok reply ∧ reply.height = 1) ∧
    Server.lastBlock process.db = { height := 1, hash := 101 } := by
  obtain ⟨process, reached, head⟩ : ∃ process, Reachable Sample.env (fun _ _ => True) process ∧
      process.chain.head? = some (1, Sample.payWojak) :=
    replay_any (Sample.lockWojak ++ [.restore 1]) (by decide +kernel)
  obtain ⟨proof, _, shown, resumes⟩ :=
    (status_applied reached "0.1.0" 7).1 1 Sample.payWojak head (by decide)
  exact ⟨process, reached, head, ⟨_, shown, rfl⟩, resumes⟩

theorem wojak_proved : ∃ turn shown,
    tokenTransferProof RocksTable.placed Sample.proofValue
      (Sample.env.computeScriptHash Sample.sender) ⟨3, 0⟩ [turn] = .ok shown ∧
    turn.process.db.addressLocationToTransfer.keys ≠ ∅ ∧
    ∃ other ∈ [turn], Proved Sample.env.backwards (Sample.env.computeScriptHash Sample.sender)
      ⟨3, 0⟩ shown other := by
  obtain ⟨process, reached, head, ranged, survives, held⟩ : ∃ process,
      Reachable Sample.env (Determined Sample.env fun _ => [Sample.pay Sample.sender 50]) process ∧
      process.chain.head? = some (2, Sample.inscribeWojak) ∧
      (∀ key ∈ process.db.addressLocationToTransfer.keys,
        key.location.outpoint.vout < 2 ^ 32 ∧ key.location.offset < 2 ^ 64) ∧
      (∀ key ∈ process.db.addressLocationToTransfer.keys,
        ∀ proto ∈ process.db.addressLocationToTransfer.get key,
          Sample.proofValue.fromBytes (Sample.proofValue.getBytes proto) = .ok proto) ∧
      process.db.addressLocationToTransfer.keys ≠ ∅ :=
    replay_any Sample.lockWojak (by decide +kernel)
  have codes : Codes Pebble.addressLocation Sample.proofValue AddressLocation.Ranged
      (fun proto => Sample.proofValue.fromBytes (Sample.proofValue.getBytes proto) = .ok proto) := by
    exact ⟨fun key fits => Pebble.addressLocation_fromBytes fits, fun proto read => read⟩
  have places : ∀ key ∈ process.db.addressLocationToTransfer.keys, key.Ranged :=
    fun key member => ⟨(ranged key member).1, (ranged key member).2⟩
  have reads : ∀ key proto, process.db.addressLocationToTransfer.get key = some proto →
      Sample.proofValue.fromBytes (Sample.proofValue.getBytes proto) = .ok proto :=
    fun key proto present => survives key (Table.mem_keys_iff.mpr ⟨proto, present⟩) proto present
  obtain ⟨store, kept⟩ := kept_exists codes process.db.addressLocationToTransfer
    fun key proto present =>
      ⟨places key (Table.mem_keys_iff.mpr ⟨proto, present⟩), reads key proto present⟩
  let turn : ProofTurn := { bestBlockHash := some 102, process, store }
  have observed : ∀ other ∈ [turn],
      Observed Sample.env (fun _ => [Sample.pay Sample.sender 50]) Sample.proofValue other := by
    intro other listed
    rw [List.mem_singleton.mp listed]
    exact { reached, stored := kept.toStored, ranged := places, survives := reads }
  have both := @transfers_proved Sample.env _ _ _ (Sample.env.computeScriptHash Sample.sender)
    ⟨3, 0⟩ _ Sample.env.backwards.iterate_nodup Sample.env.backwards.mem_iterate
    RocksTable.placed_walks (by decide) [turn] observed
  obtain ⟨shown, answered⟩ := both.2 turn rfl _ head (by decide) rfl
  exact ⟨turn, shown, answered, held, both.1 shown answered⟩

end WjkIndexer
